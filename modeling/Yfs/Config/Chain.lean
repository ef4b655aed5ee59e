/-
Yfs.Config.Chain — each view is the one before it with one node more or
one node less.

A config proposes such a view to the members of the one before
(`Planned`), and a decided value was proposed by a run for that instance
(`Sound.decided_valid`). The two hold together: that the members of the
one before are the same for everyone is agreement on it, and agreement
needs that the runs of one instance ask the same nodes. So they are proved
in one invariant, over both layers.
-/
import Yfs.Config.System
import Yfs.Paxos.Invariant

namespace Yfs.Config

open Function
open Yfs.Paxos (NodeId Value Acceptor Started LogRec Msg Decided Sound IsName)

variable {first : NodeId} {s s' : Sys} {M M' : List Msg} {S S' : List Started} {p : NodeId}
  {i i' : Nat}

/-! ## Conditions on steps -/

/-- The names of nodes that ask to join are not empty and free of white
space. -/
def Named : Event → Prop
  | .check _ (.add m _) => IsName m
  | _ => True

/-- The steps of Paxos are orderly. Of what that asks of the start of a run
only the numbers are left: config sees to the rest. -/
def Orderly (s : Sys) : Event → Prop
  | .paxos e => Paxos.Orderly s.px e
  | .run p _ => Paxos.CanCount (s.px.nodes p).acc.nH (s.px.nodes p).myN
  | .restore p file => Paxos.Orderly s.px (.restore p file)
  | _ => True

instance (e : Event) : Decidable (Named e) := by
  rcases e with _ | ⟨_, ⟨_, _⟩ | ⟨_, _⟩⟩ | _ | _ | _ | _ | _ <;> unfold Named <;> infer_instance

instance (s : Sys) (e : Event) : Decidable (Orderly s e) := by
  rcases e <;> unfold Orderly <;> infer_instance

/-! ## What config knows of the views -/

/-- A run that config starts: it asks the members of the view before. Before
there is a view nobody is asked. -/
structure Planned (first : NodeId) (M : List Msg) (S : List Started) (st : Started) : Prop where
  newv : st.newv ≠ []
  next : (st.inst = 1 ∧ st.nodes = []) ∨ ∃ k v, k ≠ 0 ∧ st.inst = k + 1 ∧
    Decided first M S k v ∧ st.nodes = members v ∧ NextView (members v) (members st.newv) ∧
    (members st.newv).Nodup ∧ members st.newv ≠ []

structure Checked (first : NodeId) (M : List Msg) (S : List Started) (p : NodeId) (ch : Change) :
    Prop where
  name : ∀ m vid, ch = .add m vid → IsName m
  due : (ch.vid = 0 ∧ ch.Due p []) ∨
    (ch.vid ≠ 0 ∧ ∃ v, Decided first M S ch.vid v ∧ ch.Due p (members v))

/-- Config of a node whose acceptor has decided up to `i`. -/
structure CfgOk (first : NodeId) (M : List Msg) (S : List Started) (p : NodeId) (i : Nat)
    (c : Cfg) : Prop where
  view : (c.myvid = 0 ∧ c.mems = []) ∨
    (c.myvid ≠ 0 ∧ c.myvid ≤ i ∧ ∃ v, Decided first M S c.myvid v ∧ c.mems = members v)
  checked : ∀ ch ∈ c.checked, Checked first M S p ch
  planned : ∀ st ∈ c.planned, Planned first M S st ∧ st.inst ≤ i + 1

structure Inv (first : NodeId) (s : Sys) : Prop where
  px : Paxos.Inv first first s.px
  started : ∀ st ∈ s.px.started, Planned first s.px.msgs s.px.started st
  cfg : ∀ p, CfgOk first s.px.msgs s.px.started p (s.px.nodes p).acc.instanceH (s.cfg p)

variable {st : Started} {ch : Change} {c : Cfg} {a : Acceptor} {px : Paxos.Sys}

theorem Planned.mono (hM : ∀ m ∈ M, m ∈ M') (hS : ∀ st ∈ S, st ∈ S') (h : Planned first M S st) :
    Planned first M' S' st := by
  refine ⟨h.newv, ?_⟩
  rcases h.next with h1 | ⟨k, v, hk, hi, hd, hrest⟩
  · exact .inl h1
  · exact .inr ⟨k, v, hk, hi, hd.mono hM hS, hrest⟩

theorem Checked.mono (hM : ∀ m ∈ M, m ∈ M') (hS : ∀ st ∈ S, st ∈ S') (h : Checked first M S p ch) :
    Checked first M' S' p ch := by
  refine ⟨h.name, ?_⟩
  rcases h.due with h0 | ⟨h0, v, hd, hdue⟩
  · exact .inl h0
  · exact .inr ⟨h0, v, hd.mono hM hS, hdue⟩

theorem CfgOk.mono (hM : ∀ m ∈ M, m ∈ M') (hS : ∀ st ∈ S, st ∈ S') (hi : i ≤ i')
    (h : CfgOk first M S p i c) : CfgOk first M' S' p i' c := by
  constructor
  · rcases h.view with h0 | ⟨h0, hle, v, hd, hmems⟩
    · exact .inl h0
    · exact .inr ⟨h0, hle.trans hi, v, hd.mono hM hS, hmems⟩
  · intro ch hch
    exact (h.checked ch hch).mono hM hS
  · intro st hst
    obtain ⟨hp, hle⟩ := h.planned st hst
    exact ⟨hp.mono hM hS, by omega⟩

/-! ## Decided views -/

/-- Every decided view is free of repetition and not empty. -/
theorem view_ok (hfirst : IsName first) (hs : Sound first first M S)
    (hplan : ∀ st ∈ S, Planned first M S st) {inst : Nat} {v : Value}
    (hd : Decided first M S inst v) : (members v).Nodup ∧ members v ≠ [] := by
  rcases hs.decided_valid hd with ⟨_, rfl⟩ | ⟨_, hone, st, hst, hi, rfl⟩
  · rw [members_name hfirst]
    simp
  · rcases (hplan st hst).next with ⟨h1, _⟩ | ⟨_, _, _, _, _, _, _, hnd, hne⟩
    · exact absurd (hi.symm.trans h1) hone
    · exact ⟨hnd, hne⟩

/-- The view after a decided one. -/
theorem nextView_of_decided (hs : Sound first first M S)
    (hplan : ∀ st ∈ S, Planned first M S st) {inst : Nat} {v w : Value}
    (hd : Decided first M S inst v) (hd' : Decided first M S (inst + 1) w) :
    NextView (members v) (members w) := by
  have hzero : inst ≠ 0 := by
    rcases hs.decided_valid hd with ⟨h1, _⟩ | ⟨h0, _⟩
    · omega
    · exact h0
  rcases hs.decided_valid hd' with ⟨h1, _⟩ | ⟨_, _, st, hst, hi, rfl⟩
  · omega
  · rcases (hplan st hst).next with ⟨h1, _⟩ | ⟨k, u, _, hk, hu, _, hnext, _⟩
    · omega
    · obtain rfl : k = inst := by omega
      rw [hs.decided_unique hd hu]
      exact hnext

/-! ## Steps of one config -/

theorem CfgOk.reconstruct (ha : Paxos.AccOk first first M S p a)
    (h : CfgOk first M S p a.instanceH c) : CfgOk first M S p a.instanceH (c.reconstruct a) := by
  unfold Cfg.reconstruct
  split
  · rename_i hpos
    exact ⟨.inr ⟨hpos.ne', le_rfl, _, ha.value_decided hpos.ne' le_rfl, rfl⟩, h.checked,
      h.planned⟩
  · exact h

theorem CfgOk.new (ha : Paxos.AccOk first first M S p a) :
    CfgOk first M S p a.instanceH (Cfg.new a) := by
  refine CfgOk.reconstruct ha ⟨.inl ⟨rfl, rfl⟩, ?_, ?_⟩
  · nofun
  · nofun

theorem CfgOk.paxosCommit (h : CfgOk first M S p i c) {u : Nat × Value}
    (hu : u.1 ≠ 0 ∧ u.1 ≤ i ∧ Decided first M S u.1 u.2) :
    CfgOk first M S p i (c.paxosCommit u.1 u.2) := by
  obtain ⟨h0, hle, hd⟩ := hu
  exact ⟨.inr ⟨h0, hle, u.2, hd, rfl⟩, h.checked, h.planned⟩

/-- The view that was looked at is decided, unless there was none. -/
theorem checked_of_view (ha : Paxos.AccOk first first M S p a) (hs : Sound first first M S)
    (hname : ∀ m vid, ch = .add m vid → IsName m) (hle : ch.vid ≤ a.instanceH)
    (hdue : ch.Due p (members (a.value ch.vid))) : Checked first M S p ch := by
  refine ⟨hname, ?_⟩
  by_cases h0 : ch.vid = 0
  · left
    have hnone : a.values ch.vid = none := by
      cases hv : a.values ch.vid with
      | none => rfl
      | some v =>
        rcases hs.decided_valid (ha.decided _ v hv) with ⟨h1, _⟩ | ⟨hne, _⟩
        · omega
        · exact absurd h0 hne
    have hempty : members (a.value ch.vid) = [] := by
      simp [Acceptor.value, hnone, members, Words.words, Words.wordsFrom]
    rw [hempty] at hdue
    exact ⟨h0, hdue⟩
  · exact .inr ⟨h0, _, ha.value_decided h0 hle, hdue⟩

theorem CfgOk.check (ha : Paxos.AccOk first first M S p a) (hs : Sound first first M S)
    (h : CfgOk first M S p a.instanceH c) (hname : ∀ m vid, ch = .add m vid → IsName m)
    (hsees : c.Sees p a ch) : Checked first M S p ch := by
  cases ch with
  | add m vid => exact checked_of_view ha hs hname hsees.1 hsees.2
  | remove m vid =>
    obtain ⟨hvid, hping⟩ := hsees
    refine checked_of_view ha hs hname ?_ hping
    rcases h.view with ⟨h0, _⟩ | ⟨_, hle, _⟩
    · exact (hvid.trans h0).le.trans (Nat.zero_le _)
    · exact hvid.le.trans hle

/-- What `add` and `remove_wo` propose for the view they find. -/
theorem CfgOk.planned_change (hfirst : IsName first) (hs : Sound first first M S)
    (hplan : ∀ st ∈ S, Planned first M S st) (h : CfgOk first M S p i c) (hch : ch ∈ c.checked)
    (hvid : ch.vid = c.myvid) :
    Planned first M S ⟨c.myvid + 1, c.mems, value (ch.apply c.mems)⟩ ∧ c.myvid + 1 ≤ i + 1 := by
  have hck := h.checked ch hch
  rcases h.view with ⟨h0, hmems⟩ | ⟨h0, hle, v, hd, hmems⟩
  · rcases hck.due with ⟨_, hdue⟩ | ⟨hne, _⟩
    · rw [hmems]
      obtain ⟨_, _, hne⟩ := Change.nextView List.nodup_nil hdue
      exact ⟨⟨value_ne_nil hne, .inl ⟨by simp [h0], rfl⟩⟩, by omega⟩
    · exact absurd (hvid.trans h0) hne
  · rcases hck.due with ⟨hz, _⟩ | ⟨_, u, hu, hdue⟩
    · exact absurd (hvid.symm.trans hz) h0
    · -- the view that was looked at is the one at hand
      rw [hvid] at hu
      rw [hs.decided_unique hu hd] at hdue
      obtain ⟨hnext, hnd, hne⟩ := Change.nextView (view_ok hfirst hs hplan hd).1 hdue
      have hread : members (value (ch.apply (members v))) = ch.apply (members v) :=
        members_value (Change.isName_apply (fun n hn => isName_of_mem hn) hck.name)
      rw [hmems]
      refine ⟨⟨value_ne_nil hne, .inr ⟨c.myvid, v, h0, rfl, hd, rfl, ?_⟩⟩, by omega⟩
      show NextView (members v) (members (value (ch.apply (members v)))) ∧ _
      rw [hread]
      exact ⟨hnext, hnd, hne⟩

theorem CfgOk.propose (hfirst : IsName first) (hs : Sound first first M S)
    (hplan : ∀ st ∈ S, Planned first M S st) (h : CfgOk first M S p i c) (hch : ch ∈ c.checked) :
    CfgOk first M S p i (c.propose ch) := by
  refine ⟨h.view, ?_, ?_⟩
  · intro x hx
    exact h.checked x (List.mem_of_mem_erase hx)
  · show ∀ st ∈ (if ch.vid = c.myvid then _ else c.planned), _
    split
    · rename_i hvid
      intro st hst
      rcases List.mem_append.mp hst with hst | hst
      · exact h.planned st hst
      · rw [List.mem_singleton.mp hst]
        exact h.planned_change hfirst hs hplan hch hvid
    · exact h.planned

/-! ## Steps of the system -/

/-- The runs of one instance ask the members of the one view before it. -/
theorem sameMembers_of_planned (hs : Sound first first M S) {st' : Started}
    (h : Planned first M S st) (h' : Planned first M S st') (hi : st'.inst = st.inst) :
    st'.nodes = st.nodes := by
  rcases h.next with ⟨h1, hn⟩ | ⟨k, v, hk, hki, hd, hn, _⟩
  · rcases h'.next with ⟨_, hn'⟩ | ⟨k', _, hk', hki', _⟩
    · rw [hn, hn']
    · omega
  · rcases h'.next with ⟨h1, _⟩ | ⟨k', v', _, hki', hd', hn', _⟩
    · omega
    · obtain rfl : k' = k := by omega
      rw [hn, hn', hs.decided_unique hd hd']

theorem paxos_started {px' : Paxos.Sys} {e : Paxos.Event}
    (hne : ∀ p inst nodes v, e ≠ .run p inst nodes v)
    (hs : Paxos.step first first px e = some px') : px'.started = px.started := by
  cases Paxos.trans_of_step hs with
  | run => exact absurd rfl (hne _ _ _ _)
  | _ => rfl

/-- A step of config alone. -/
theorem Inv.setCfg (h : Inv first s)
    (hc : CfgOk first s.px.msgs s.px.started p (s.px.nodes p).acc.instanceH c) :
    Inv first (s.setCfg p c) := by
  refine ⟨h.px, h.started, ?_⟩
  intro q
  show CfgOk first _ _ q _ (update s.cfg p c q)
  by_cases hq : q = p
  · subst hq
    rw [update_self]
    exact hc
  · rw [update_of_ne hq]
    exact h.cfg q

/-- A step of Paxos, and of the config of one node. -/
theorem Inv.both (h : Inv first s) (hpx : Paxos.Inv first first px) (hg : Paxos.Grows s.px px)
    (hstarted : ∀ st ∈ px.started, Planned first px.msgs px.started st)
    (hc : CfgOk first px.msgs px.started p (px.nodes p).acc.instanceH c) :
    Inv first (s.both px p c) := by
  refine ⟨hpx, hstarted, ?_⟩
  intro q
  show CfgOk first _ _ q _ (update s.cfg p c q)
  by_cases hq : q = p
  · subst hq
    rw [update_self]
    exact hc
  · rw [update_of_ne hq]
    exact (h.cfg q).mono hg.msgs hg.started (hg.instanceH q)

/-- A step of Paxos that starts no run. -/
theorem Inv.paxosStep (h : Inv first s) {e : Paxos.Event}
    (hne : ∀ p inst nodes v, e ≠ .run p inst nodes v) (hord : Paxos.Orderly s.px e)
    (hs : Paxos.step first first s.px e = some px) :
    Paxos.Inv first first px ∧ Paxos.Grows s.px px ∧
      ∀ st ∈ px.started, Planned first px.msgs px.started st := by
  have hmem : Paxos.SameMembers first s.px e := by
    cases e with
    | run p inst nodes v => exact absurd rfl (hne p inst nodes v)
    | _ => trivial
  have hg := h.px.grows hord hs
  refine ⟨h.px.step hmem hord hs, hg, ?_⟩
  intro st hst
  rw [paxos_started hne hs] at hst
  exact (h.started st hst).mono hg.msgs hg.started

/-- What config proposes is orderly. -/
theorem Inv.run_orderly (h : Inv first s) (hst : st ∈ (s.cfg p).planned)
    (hcount : Orderly s (.run p st)) : Paxos.Orderly s.px (.run p st.inst st.nodes st.newv) :=
  let ⟨hplan, hbound⟩ := (h.cfg p).planned st hst
  ⟨hplan.newv, hbound, hcount⟩

theorem Inv.run (h : Inv first s) (hst : st ∈ (s.cfg p).planned) (hcount : Orderly s (.run p st))
    (hs : Paxos.step first first s.px (.run p st.inst st.nodes st.newv) = some px) :
    Inv first (s.both px p { s.cfg p with planned := (s.cfg p).planned.erase st }) := by
  obtain ⟨hplan, _⟩ := (h.cfg p).planned st hst
  have hmem : Paxos.SameMembers first s.px (.run p st.inst st.nodes st.newv) := by
    constructor
    · intro st' hst' hi
      exact sameMembers_of_planned h.px.sound hplan (h.started st' hst') hi
    · intro h1 m hm
      rcases hplan.next with ⟨_, hn⟩ | ⟨k, _, hk, hi, _⟩
      · rw [hn] at hm
        cases hm
      · omega
  have hord := h.run_orderly hst hcount
  have hg := h.px.grows hord hs
  have hstarted : ∀ st' ∈ px.started, Planned first px.msgs px.started st' := by
    intro st' hst'
    have hcases : st' = st ∨ st' ∈ s.px.started := by
      cases Paxos.trans_of_step hs with
      | run => exact List.mem_cons.mp hst'
    rcases hcases with rfl | hold
    · exact hplan.mono hg.msgs hg.started
    · exact (h.started st' hold).mono hg.msgs hg.started
  refine h.both (h.px.step hmem hord hs) hg hstarted ?_
  have hc := (h.cfg p).mono hg.msgs hg.started (hg.instanceH p)
  exact ⟨hc.view, hc.checked, fun x hx => hc.planned x (List.mem_of_mem_erase hx)⟩

theorem Inv.init : Inv first (Sys.init first) := by
  refine ⟨Paxos.Inv.init, ?_, ?_⟩
  · nofun
  · intro p
    exact CfgOk.new (Paxos.Inv.init.node p).acc

theorem Inv.step {e : Event} (hfirst : IsName first) (h : Inv first s) (hname : Named e)
    (hord : Orderly s e) (hstep : step first s e = some s') : Inv first s' := by
  cases trans_of_step hstep with
  | @paxos e px hi hs =>
    have hne : ∀ p inst nodes v, e ≠ .run p inst nodes v := by
      rintro p inst nodes v rfl
      cases hi
    obtain ⟨hpx, hg, hstarted⟩ := h.paxosStep hne hord hs
    exact ⟨hpx, hstarted, fun q => (h.cfg q).mono hg.msgs hg.started (hg.instanceH q)⟩
  | @check p ch hsees =>
    refine h.setCfg ⟨(h.cfg p).view, ?_, (h.cfg p).planned⟩
    intro x hx
    rcases List.mem_cons.mp hx with rfl | hold
    · refine (h.cfg p).check (h.px.node p).acc h.px.sound ?_ hsees
      rintro m vid rfl
      exact hname
    · exact (h.cfg p).checked x hold
  | @propose p ch hch =>
    exact h.setCfg ((h.cfg p).propose hfirst h.px.sound h.started hch)
  | run hst hs => exact h.run hst hord hs
  | @refused p st hst =>
    refine h.setCfg ⟨(h.cfg p).view, (h.cfg p).checked, ?_⟩
    exact fun x hx => (h.cfg p).planned x (List.mem_of_mem_erase hx)
  | @upcall p u px hs =>
    obtain ⟨hpx, hg, hstarted⟩ := h.paxosStep (by simp) (by trivial) hs
    refine h.both hpx hg hstarted ?_
    have hc := (h.cfg p).mono hg.msgs hg.started (hg.instanceH p)
    refine hc.paxosCommit ?_
    have hu : u ∈ (s.px.nodes p).upcalls := by
      cases Paxos.trans_of_step hs with
      | upcall hu => exact hu
    obtain ⟨h0, hle, hd⟩ := (h.px.node p).upcalls u hu
    exact ⟨h0, hle.trans (hg.instanceH p), hd.mono hg.msgs hg.started⟩
  | @restart p px hs =>
    obtain ⟨hpx, hg, hstarted⟩ := h.paxosStep (by simp) (by trivial) hs
    exact h.both hpx hg hstarted (CfgOk.new (hpx.node p).acc)
  | @restore p file px hs =>
    replace hord : Paxos.Orderly s.px (.restore p file) := hord
    obtain ⟨hpx, hg, hstarted⟩ := h.paxosStep (by simp) hord hs
    refine h.both hpx hg hstarted (CfgOk.reconstruct (hpx.node p).acc ?_)
    exact (h.cfg p).mono hg.msgs hg.started (hg.instanceH p)

end Yfs.Config
