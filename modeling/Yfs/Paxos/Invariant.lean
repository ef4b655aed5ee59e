/-
Yfs.Paxos.Invariant — the history stays sound as long as acceptors only
work on the instance they are at.

`SameMembers` is what the layer above owes: the runs of one instance ask
the same nodes. `Orderly` is what the acceptors would have to check and do
not: a promise is for the instance at hand, and so is an accepted
proposal; a log that is restored from does not take back a promise.

A step changes one node and adds at most one message, so an invariant
step is one of two shapes: `Inv.local` and `Inv.send`.
-/
import Yfs.Paxos.RunInv

namespace Yfs.Paxos

open Yfs.Run Function

variable {first : NodeId} {v₀ : Value} {s s' : Sys}

/-! ## Conditions on steps -/

/-- The runs of one instance ask the same nodes, and instance 1 is the
first node's alone. -/
def SameMembers (first : NodeId) (s : Sys) : Event → Prop
  | .run _ inst curNodes _ =>
    (∀ st ∈ s.started, st.inst = inst → st.nodes = curNodes) ∧
      (inst = 1 → ∀ m ∈ curNodes, m = first)
  | _ => True

/-- Nobody runs ahead of what it has decided, proposes the empty value or
has used up its numbers, acceptors promise and accept only for the instance
they are at, and a log that is restored from keeps what the acceptor holds. -/
def Orderly (s : Sys) : Event → Prop
  | .run p inst _ newv => newv ≠ [] ∧ inst ≤ (s.nodes p).acc.instanceH + 1 ∧
      CanCount (s.nodes p).acc.nH (s.nodes p).myN
  | .handle (.prepare q) =>
    (s.nodes q.dst).acc.instanceH < q.inst → (s.nodes q.dst).acc.nH < q.n →
      q.inst = (s.nodes q.dst).acc.instanceH + 1
  | .handle (.accept q) =>
    (s.nodes q.dst).acc.nH ≤ q.n → q.inst = (s.nodes q.dst).acc.instanceH + 1
  | .restore p file => (s.nodes p).acc.core.Keeps (Core.ofLog file)
  | _ => True

instance (first : NodeId) (s : Sys) (e : Event) : Decidable (SameMembers first s e) := by
  rcases e <;> unfold SameMembers <;> infer_instance

instance (s : Sys) (e : Event) : Decidable (Orderly s e) := by
  cases e with
  | handle m => cases m <;> unfold Orderly <;> infer_instance
  | _ => unfold Orderly; infer_instance

/-! ## The invariant -/

def UpcallsOk (v₀ : Value) (M : List Msg) (S : List Started) (instanceH : Nat)
    (upcalls : List (Nat × Value)) : Prop :=
  ∀ u ∈ upcalls, u.1 ≠ 0 ∧ u.1 ≤ instanceH ∧ Decided v₀ M S u.1 u.2

variable {M : List Msg} {S : List Started} {p : NodeId} {nd : PNode} {r : Run}

theorem UpcallsOk.mono {M' : List Msg} {S' : List Started} {i i' : Nat} {l : List (Nat × Value)}
    (hM : ∀ m ∈ M, m ∈ M') (hS : ∀ st ∈ S, st ∈ S') (hi : i ≤ i') (h : UpcallsOk v₀ M S i l) :
    UpcallsOk v₀ M' S' i' l := by
  intro u hu
  obtain ⟨h0, hle, hd⟩ := h u hu
  exact ⟨h0, hle.trans hi, hd.mono hM hS⟩

structure NodeOk (first : NodeId) (v₀ : Value) (M : List Msg) (S : List Started) (p : NodeId)
    (nd : PNode) : Prop where
  acc : AccOk first v₀ M S p nd.acc
  covers : Covers M p nd.acc.core
  run : ∀ r, nd.run = some r → RunOk v₀ M S nd.acc.instanceH r
  upcalls : UpcallsOk v₀ M S nd.acc.instanceH nd.upcalls

structure Inv (first : NodeId) (v₀ : Value) (s : Sys) : Prop where
  sound : Sound first v₀ s.msgs s.started
  node : ∀ p, NodeOk first v₀ s.msgs s.started p (s.nodes p)
  rids : ∀ p p' r r', (s.nodes p).run = some r → (s.nodes p').run = some r' → r.rid = r'.rid →
    p = p'

theorem Inv.init : Inv first v₀ (Sys.init first v₀) := by
  constructor
  · constructor <;> simp [Sys.init, Promise]
  · intro p
    refine ⟨AccOk.init, ⟨?_, ?_⟩, ?_, ?_⟩
    · rintro inst n rid res ⟨q, hq, _⟩
      cases hq
    · rintro inst n v ⟨q, hq, _⟩
      cases hq
    · nofun
    · nofun
  · intro p p' r r' hr
    cases hr

/-- The runs after a step at `p` that goes on with the run it had. -/
theorem Inv.rids_update (h : Inv first v₀ s)
    (hrun : ∀ r, nd.run = some r → ∃ r₀, (s.nodes p).run = some r₀ ∧ r.rid = r₀.rid) :
    ∀ q q' r r', (update s.nodes p nd q).run = some r →
      (update s.nodes p nd q').run = some r' → r.rid = r'.rid → q = q' := by
  -- every run of the new state goes back to one of the old state
  have hback : ∀ q r, (update s.nodes p nd q).run = some r →
      ∃ r₀, (s.nodes q).run = some r₀ ∧ r.rid = r₀.rid := by
    intro q r hr
    by_cases hq : q = p
    · subst hq
      rw [update_self] at hr
      exact hrun r hr
    · rw [update_of_ne hq] at hr
      exact ⟨r, hr, rfl⟩
  intro q q' r r' hr hr' hrid
  obtain ⟨r₀, hr₀, he⟩ := hback q r hr
  obtain ⟨r₀', hr₀', he'⟩ := hback q' r' hr'
  exact h.rids q q' r₀ r₀' hr₀ hr₀' (he.symm.trans (hrid.trans he'))

/-- A step of one node that sends nothing. -/
theorem Inv.local (h : Inv first v₀ s) (hok : NodeOk first v₀ s.msgs s.started p nd)
    (hrun : ∀ r, nd.run = some r → ∃ r₀, (s.nodes p).run = some r₀ ∧ r.rid = r₀.rid) :
    Inv first v₀ (s.setNode p nd) := by
  refine ⟨h.sound, ?_, h.rids_update hrun⟩
  intro q
  by_cases hq : q = p
  · subst hq
    rw [Sys.setNode_self]
    exact hok
  · rw [Sys.setNode_of_ne s nd hq]
    exact h.node q

variable {m : Msg} {inst : Nat} {q : PrepareReq}

/-- A node that `m` is no reply and no proposal of. -/
theorem NodeOk.send (h : NodeOk first v₀ M S p nd)
    (hp : ∀ q res, m = .prepareRes q res → res.accept = true → q.dst ≠ p)
    (hv : ∀ q, m = .acceptRes q true → q.dst ≠ p)
    (ha : ∀ q r, m = .accept q → nd.run = some r → q.rid ≠ r.rid) :
    NodeOk first v₀ (m :: M) S p nd := by
  have hM : ∀ m' ∈ M, m' ∈ m :: M := fun m' hm' => List.mem_cons_of_mem m hm'
  refine ⟨h.acc.mono hM fun _ hst => hst, h.covers.other hp hv, ?_,
    h.upcalls.mono hM (fun _ hst => hst) le_rfl⟩
  intro r hr
  refine (h.run r hr).mono hM (fun _ hst => hst) le_rfl le_rfl ?_
  intro q hq hrid
  rcases List.mem_cons.mp hq with hnew | hold
  · exact absurd hrid (ha q r hnew.symm hr)
  · exact .inl hold

/-- A step of one node that sends a message of its own. -/
theorem Inv.send (h : Inv first v₀ s) (hfit : Fits s.msgs m)
    (hm : MsgOk first v₀ (m :: s.msgs) s.started m)
    (hok : NodeOk first v₀ (m :: s.msgs) s.started p nd)
    (hrun : ∀ r, nd.run = some r → ∃ r₀, (s.nodes p).run = some r₀ ∧ r.rid = r₀.rid)
    (hp : ∀ q res, m = .prepareRes q res → res.accept = true → q.dst = p)
    (hv : ∀ q, m = .acceptRes q true → q.dst = p)
    (ha : ∀ q, m = .accept q → ∃ r₀, (s.nodes p).run = some r₀ ∧ q.rid = r₀.rid)
    (hnodes : s'.nodes = update s.nodes p nd) (hmsgs : s'.msgs = m :: s.msgs)
    (hstarted : s'.started = s.started) : Inv first v₀ s' := by
  refine ⟨?_, ?_, ?_⟩
  · rw [hmsgs, hstarted]
    exact h.sound.add hfit hm
  · intro q
    rw [hnodes, hmsgs, hstarted]
    by_cases hq : q = p
    · subst hq
      rw [update_self]
      exact hok
    · rw [update_of_ne hq]
      refine (h.node q).send ?_ ?_ ?_
      · intro x res hx hacc hdst
        exact hq (hdst.symm.trans (hp x res hx hacc))
      · intro x hx hdst
        exact hq (hdst.symm.trans (hv x hx))
      · intro x r hx hr hrid
        obtain ⟨r₀, hr₀, hrid₀⟩ := ha x hx
        exact hq (h.rids q p r r₀ hr hr₀ (hrid.symm.trans hrid₀))
  · rw [hnodes]
    exact h.rids_update hrun

/-! ## The steps of a node -/

/-- The acceptor goes on, the run stays. -/
theorem NodeOk.setAcc {nd' : PNode} (h : NodeOk first v₀ M S p nd)
    (hacc : AccOk first v₀ M S p nd'.acc) (hk : nd.acc.core.Keeps nd'.acc.core)
    (hrun : nd'.run = nd.run) (hup : UpcallsOk v₀ M S nd'.acc.instanceH nd'.upcalls) :
    NodeOk first v₀ M S p nd' := by
  refine ⟨hacc, h.covers.keeps hk, ?_, hup⟩
  intro r hr
  rw [hrun] at hr
  refine (h.run r hr).mono (fun _ hm => hm) (fun _ hst => hst) le_rfl hk.instanceH_le ?_
  intro q hq _
  exact .inl hq

theorem NodeOk.commit (h : NodeOk first v₀ M S p nd) {v : Value}
    (hle : inst ≤ nd.acc.instanceH + 1) (hd : inst ≠ 0 → Decided v₀ M S inst v) :
    NodeOk first v₀ M S p (nd.commit p inst v) := by
  have hk := commitWo_keeps p nd.acc inst v
  refine h.setAcc (h.acc.commit hle hd) hk rfl ?_
  have hold : UpcallsOk v₀ M S (nd.acc.commitWo p inst v).instanceH nd.upcalls :=
    h.upcalls.mono (fun _ hm => hm) (fun _ hst => hst) hk.instanceH_le
  show UpcallsOk v₀ M S (nd.acc.commitWo p inst v).instanceH
    (if nd.acc.instanceH < inst then nd.upcalls ++ [(inst, v)] else nd.upcalls)
  split
  · rename_i hlt
    intro u hu
    rcases List.mem_append.mp hu with hu | hu
    · exact hold u hu
    · rw [List.mem_singleton.mp hu]
      refine ⟨by omega, ?_, hd (by omega)⟩
      unfold Acceptor.commitWo
      rw [if_pos hlt]
  · exact hold

theorem NodeOk.crash (h : NodeOk first v₀ M S p nd) : NodeOk first v₀ M S p nd.crash := by
  refine ⟨h.acc, h.covers, ?_, ?_⟩
  · nofun
  · nofun

theorem Inv.crash (h : Inv first v₀ s) (p : NodeId) :
    Inv first v₀ (s.setNode p (s.nodes p).crash) := by
  refine h.local (h.node p).crash ?_
  nofun

/-- A run goes on, with the same number in the history. -/
theorem Inv.setRun (h : Inv first v₀ s) {r₀ : Run} {o : Option Run}
    (hr₀ : (s.nodes p).run = some r₀)
    (hok : ∀ r, o = some r → RunOk v₀ s.msgs s.started (s.nodes p).acc.instanceH r ∧
      r.rid = r₀.rid) : Inv first v₀ (s.setRun p o) := by
  refine h.local ⟨(h.node p).acc, (h.node p).covers, fun r hr => (hok r hr).1,
    (h.node p).upcalls⟩ ?_
  intro r hr
  exact ⟨r₀, hr₀, (hok r hr).2⟩

theorem settle_rid {r' : Run} (h : r.settle = some r') : r'.rid = r.rid := by
  rcases settle_cases h with ⟨_, rfl⟩ | ⟨_, _, rfl⟩ | ⟨_, _, rfl⟩ <;> rfl

theorem promised_rid (r : Run) (d : NodeId) (res : PrepareRes) :
    (r.promised d res).rid = r.rid := by
  unfold Run.promised
  split <;> rfl

theorem accepted_rid (r : Run) (d : NodeId) (ok : Bool) : (r.accepted d ok).rid = r.rid := by
  unfold Run.accepted
  split <;> rfl

/-- The loop goes on from a run in order. -/
theorem Inv.next (h : Inv first v₀ s) {r₀ : Run} (hr₀ : (s.nodes p).run = some r₀)
    (hok : RunOk v₀ s.msgs s.started (s.nodes p).acc.instanceH r) (hrid : r.rid = r₀.rid) :
    Inv first v₀ (s.setRun p r.next) := by
  refine h.setRun hr₀ ?_
  intro r' hr'
  exact ⟨hok.next h.sound hr', (settle_rid hr').trans hrid⟩

/-- `run` starts. -/
theorem Inv.startRun (h : Inv first v₀ s) {curNodes : List NodeId} {newv : Value}
    (hmem : SameMembers first s (.run p inst curNodes newv))
    (hord : Orderly s (.run p inst curNodes newv)) :
    Inv first v₀ (s.startRun p inst curNodes newv) := by
  obtain ⟨hsame, hone⟩ := hmem
  obtain ⟨hnewv, hbound, hcount⟩ := hord
  have hS : ∀ st ∈ s.started, st ∈ (⟨inst, curNodes, newv⟩ : Started) :: s.started :=
    fun st hst => List.mem_cons_of_mem _ hst
  have hlen : s.started.length ≤ ((⟨inst, curNodes, newv⟩ : Started) :: s.started).length :=
    Nat.le_succ _
  have hsound : Sound first v₀ s.msgs (⟨inst, curNodes, newv⟩ :: s.started) := by
    refine ⟨?_, ?_, ?_, h.sound.oneValue, h.sound.reported, h.sound.onePromise⟩
    · intro st hst st' hst' hi
      rcases List.mem_cons.mp hst with rfl | hold
      · rcases List.mem_cons.mp hst' with rfl | hold'
        · rfl
        · exact (hsame st' hold' hi.symm).symm
      · rcases List.mem_cons.mp hst' with rfl | hold'
        · exact hsame st hold hi
        · exact h.sound.members st hold st' hold' hi
    · intro st hst
      rcases List.mem_cons.mp hst with rfl | hold
      · exact hone
      · exact h.sound.firstView st hold
    · intro m hm
      exact (h.sound.msgs m hm).mono (fun _ hm => hm) hS hlen
  -- the number of the new run is not used by any other
  have hfresh : ∀ q r, (s.nodes q).run = some r → r.rid ≠ s.started.length := by
    intro q r hr
    exact ((h.node q).run r hr).rid.ne
  have hrid : ∀ r, Run.start s.started.length inst curNodes newv
      (setn (s.nodes p).acc.nH (s.nodes p).myN) = some r → r.rid = s.started.length :=
    fun r hr => settle_rid hr
  refine ⟨hsound, ?_, ?_⟩
  · intro q
    show NodeOk first v₀ s.msgs _ q (update s.nodes p _ q)
    by_cases hq : q = p
    · subst hq
      rw [update_self]
      refine ⟨(h.node q).acc.mono (fun _ hm => hm) hS, (h.node q).covers, ?_,
        (h.node q).upcalls.mono (fun _ hm => hm) hS le_rfl⟩
      intro r hr
      refine RunOk.start hsound (setn_ne_zero.mpr hcount) hnewv List.mem_cons_self hbound
        (Nat.lt_succ_self _) ?_ hr
      intro x hx
      obtain ⟨_, _, hlt, _⟩ := h.sound.msgs _ hx
      exact hlt.ne
    · rw [update_of_ne hq]
      refine ⟨(h.node q).acc.mono (fun _ hm => hm) hS, (h.node q).covers, ?_,
        (h.node q).upcalls.mono (fun _ hm => hm) hS le_rfl⟩
      intro r hr
      exact ((h.node q).run r hr).mono (fun _ hm => hm) hS hlen le_rfl fun x hx _ => .inl hx
  · show ∀ q q' r r', (update s.nodes p _ q).run = some r →
      (update s.nodes p _ q').run = some r' → r.rid = r'.rid → q = q'
    intro q q' r r' hr hr' heq
    by_cases hq : q = p
    · by_cases hq' : q' = p
      · rw [hq, hq']
      · subst hq
        rw [update_self] at hr
        rw [update_of_ne hq'] at hr'
        exact absurd (heq.symm.trans (hrid r hr)) (hfresh q' r' hr')
    · rw [update_of_ne hq] at hr
      by_cases hq' : q' = p
      · subst hq'
        rw [update_self] at hr'
        exact absurd (heq.trans (hrid r' hr')) (hfresh q r hr)
      · rw [update_of_ne hq'] at hr'
        exact h.rids q q' r r' hr hr' heq

theorem Inv.sendCall (h : Inv first v₀ s) {d : NodeId} {rest : List NodeId}
    (hr : (s.nodes p).run = some r) (ht : r.todo = d :: rest) :
    Inv first v₀ (s.sendCall p r d) := by
  have hM : ∀ m ∈ s.msgs, m ∈ r.request s.nextCall d :: s.msgs :=
    fun m hm => List.mem_cons_of_mem _ hm
  have hrun := (h.node p).run r hr
  have hd : d ∈ r.todo := by
    rw [ht]
    exact List.mem_cons_self
  obtain ⟨hm, hfit⟩ := hrun.request_ok hd s.nextCall
  have hnoReply : ∀ q res, r.request s.nextCall d ≠ .prepareRes q res := by
    intro q res
    unfold Run.request
    split <;> simp
  have hnoVote : ∀ q, r.request s.nextCall d ≠ .acceptRes q true := by
    intro q
    unfold Run.request
    split <;> simp
  refine h.send hfit (hm.mono hM (fun _ hst => hst) le_rfl) ?_ ?_ ?_ ?_ ?_ rfl rfl rfl
  · refine ⟨(h.node p).acc.mono hM fun _ hst => hst, ?_, ?_,
      (h.node p).upcalls.mono hM (fun _ hst => hst) le_rfl⟩
    · refine (h.node p).covers.other ?_ ?_
      · intro q res hq
        exact absurd hq (hnoReply q res)
      · intro q hq
        exact absurd hq (hnoVote q)
    · intro r' hr'
      cases hr'
      exact hrun.sent s.nextCall d
  · intro r' hr'
    cases hr'
    exact ⟨r, hr, rfl⟩
  · intro q res hq
    exact absurd hq (hnoReply q res)
  · intro q hq
    exact absurd hq (hnoVote q)
  · intro q hq
    obtain ⟨_, hrid, _⟩ := request_accept hq.symm
    exact ⟨r, hr, hrid⟩

/-! ## The handlers -/

/-- A reply that promises nothing and is no vote, from an acceptor that did
not change. -/
theorem Inv.reply_quiet (h : Inv first v₀ s) (hm : MsgOk first v₀ s.msgs s.started m)
    (ha : ∀ q, m ≠ .accept q) (hp : ∀ q res, m = .prepareRes q res → res.accept = false)
    (hv : ∀ q, m ≠ .acceptRes q true) : Inv first v₀ (s.reply p (s.nodes p).acc m) := by
  have hM : ∀ m' ∈ s.msgs, m' ∈ m :: s.msgs := fun m' hm' => List.mem_cons_of_mem _ hm'
  have hp' : ∀ q res, m = .prepareRes q res → res.accept = true → False := by
    intro q res hq hacc
    exact absurd hacc (by simp [hp q res hq])
  refine h.send (Fits.quiet ha hp hv) (hm.mono hM (fun _ hst => hst) le_rfl) ?_ ?_ ?_ ?_ ?_ rfl
    rfl rfl
  · refine (h.node p).send ?_ ?_ ?_
    · exact fun q res hq hacc => (hp' q res hq hacc).elim
    · exact fun q hq => absurd hq (hv q)
    · exact fun q r hq => absurd hq (ha q)
  · exact fun r hr => ⟨r, hr, rfl⟩
  · exact fun q res hq hacc => (hp' q res hq hacc).elim
  · exact fun q hq => absurd hq (hv q)
  · exact fun q hq => absurd hq (ha q)

/-- What an acceptor has promised for the instance at hand is no higher than its `n_h`. -/
theorem Inv.promise_le (h : Inv first v₀ s) {n : PropT} {rid : Nat} {res : PrepareRes}
    (hinst : inst = (s.nodes p).acc.instanceH + 1) (hp : Promise s.msgs p inst n rid res) :
    n ≤ (s.nodes p).acc.nH := by
  obtain ⟨x, hx, hnx⟩ := ((h.node p).covers.promises inst n rid res hp).2 hinst
  obtain ⟨rfl, _⟩ := PropT.used_eq_some.mp (show (s.nodes p).acc.nH.used = some x from hx)
  exact hnx

/-- `preparereq` promises a number for the instance at hand. -/
theorem Inv.promise (h : Inv first v₀ s) (hm : .prepare q ∈ s.msgs)
    (hlt : (s.nodes q.dst).acc.nH < q.n) (hinst : q.inst = (s.nodes q.dst).acc.instanceH + 1) :
    Inv first v₀ (s.reply q.dst
      { (s.nodes q.dst).acc with
        nH := q.n, log := (s.nodes q.dst).acc.log ++ [.propseen q.n] }
      (.prepareRes q ⟨false, true, (s.nodes q.dst).acc.nA, (s.nodes q.dst).acc.vA⟩)) := by
  have hn : q.n.n ≠ 0 := h.sound.msgs _ hm
  have hM : ∀ m ∈ s.msgs, m ∈
      Msg.prepareRes q ⟨false, true, (s.nodes q.dst).acc.nA, (s.nodes q.dst).acc.vA⟩ :: s.msgs :=
    fun m hm => List.mem_cons_of_mem _ hm
  have hok := h.node q.dst
  have hfit : Fits s.msgs
      (.prepareRes q ⟨false, true, (s.nodes q.dst).acc.nA, (s.nodes q.dst).acc.vA⟩) := by
    constructor
    case value =>
      nofun
    case reports =>
      intro x res hx _ n' v' hvote _
      cases hx
      obtain ⟨m, w, hacc, hle⟩ := (hok.covers.votes q.inst n' v' hvote).2 hinst
      exact ⟨m, (Acceptor.accepted_iff.mp hacc).1, hle⟩
    case fresh =>
      intro x res hx _ rid res' hp
      cases hx
      exact absurd hlt (not_lt.mpr (h.promise_le hinst hp))
    case current =>
      nofun
  have hmsg : MsgOk first v₀ s.msgs s.started
      (.prepareRes q ⟨false, true, (s.nodes q.dst).acc.nA, (s.nodes q.dst).acc.vA⟩) := by
    refine ⟨?_, ?_⟩
    · nofun
    · intro _
      refine ⟨by omega, ?_, hok.acc.blank, ?_⟩
      · intro hfirst
        have := hok.acc.isFirst hfirst
        omega
      · intro m hused
        obtain ⟨hprop, hv, x, hx, hmx⟩ := hok.acc.core m _ (Acceptor.accepted_iff.mpr ⟨hused, rfl⟩)
        obtain ⟨rfl, _⟩ := PropT.used_eq_some.mp
          (show (s.nodes q.dst).acc.nH.used = some x from hx)
        rw [hinst]
        exact ⟨hmx.trans_lt hlt, hv, hprop⟩
  refine h.send hfit (hmsg.mono hM (fun _ hst => hst) le_rfl) ⟨?_, ⟨?_, ?_⟩, ?_, ?_⟩ ?_ ?_ ?_ ?_
    rfl rfl rfl
  · exact (hok.acc.mono hM fun _ hst => hst).promise hlt hn
  · intro inst n rid res hp
    rcases hp.of_cons with hold | ⟨x, hx, _, _, rfl, rfl, _⟩
    · refine ⟨(hok.covers.promises inst n rid res hold).1, ?_⟩
      intro hi
      replace hi : inst = q.inst := hi.trans hinst.symm
      subst hi
      exact ⟨q.n, PropT.used_of_ne hn, (h.promise_le hinst hold).trans hlt.le⟩
    · cases hx
      exact ⟨hinst.le, fun _ => ⟨q.n, PropT.used_of_ne hn, le_rfl⟩⟩
  · intro inst n v hvote
    rcases hvote.of_cons with hold | ⟨x, hx, _⟩
    · exact hok.covers.votes inst n v hold
    · cases hx
  · intro r hr
    refine (hok.run r hr).mono hM (fun _ hst => hst) le_rfl le_rfl ?_
    intro x hx _
    rcases List.mem_cons.mp hx with hnew | hold
    · cases hnew
    · exact .inl hold
  · exact hok.upcalls.mono hM (fun _ hst => hst) le_rfl
  · exact fun r hr => ⟨r, hr, rfl⟩
  · intro x res hx _
    cases hx
    rfl
  · nofun
  · nofun

/-- `acceptreq` accepts a proposal of the instance at hand. -/
theorem Inv.vote (h : Inv first v₀ s) {q : AcceptReq} (hm : .accept q ∈ s.msgs)
    (hle : (s.nodes q.dst).acc.nH ≤ q.n) (hinst : q.inst = (s.nodes q.dst).acc.instanceH + 1) :
    Inv first v₀ (s.reply q.dst
      { (s.nodes q.dst).acc with
        nA := q.n, vA := q.v, log := (s.nodes q.dst).acc.log ++ [.accepted q.n q.v] }
      (.acceptRes q true)) := by
  obtain ⟨hn, hv, _, _, ⟨res, hprom⟩, _⟩ := h.sound.msgs _ hm
  have hM : ∀ m ∈ s.msgs, m ∈ Msg.acceptRes q true :: s.msgs :=
    fun m hm => List.mem_cons_of_mem _ hm
  have hok := h.node q.dst
  -- who is asked to accept has promised the number, and nothing above it
  have hH : (s.nodes q.dst).acc.nH = q.n := le_antisymm hle (h.promise_le hinst hprom)
  have hfit : Fits s.msgs (.acceptRes q true) := by
    constructor
    case value =>
      nofun
    case reports =>
      nofun
    case fresh =>
      nofun
    case current =>
      intro x hx n rid res hp
      cases hx
      exact (h.promise_le hinst hp).trans hle
  refine h.send hfit (fun _ => hM _ hm) ⟨?_, ⟨?_, ?_⟩, ?_, ?_⟩ ?_ ?_ ?_ ?_ rfl rfl rfl
  · refine (hok.acc.mono hM fun _ hst => hst).vote hn hH hv ?_
    exact ⟨q, hM _ hm, hinst, rfl, rfl⟩
  · intro inst n rid res hp
    rcases hp.of_cons with hold | ⟨x, hx, _⟩
    · exact hok.covers.promises inst n rid res hold
    · cases hx
  · intro inst n v hvote
    have hused : q.n.used = some q.n := PropT.used_of_ne hn
    rcases hvote.of_cons with hold | ⟨x, hx, _, rfl, rfl, _⟩
    · refine ⟨(hok.covers.votes inst n v hold).1, ?_⟩
      intro hi
      obtain ⟨m, w, hacc, hnm⟩ := (hok.covers.votes inst n v hold).2 hi
      obtain ⟨_, _, y, hy, hmy⟩ := hok.acc.core m w hacc
      obtain ⟨rfl, _⟩ := PropT.used_eq_some.mp (show (s.nodes q.dst).acc.nH.used = some y from hy)
      exact ⟨q.n, q.v, Acceptor.accepted_iff.mpr ⟨hused, rfl⟩, hnm.trans (hmy.trans hle)⟩
    · cases hx
      exact ⟨hinst.le, fun _ => ⟨q.n, q.v, Acceptor.accepted_iff.mpr ⟨hused, rfl⟩, le_rfl⟩⟩
  · intro r hr
    refine (hok.run r hr).mono hM (fun _ hst => hst) le_rfl le_rfl ?_
    intro x hx _
    rcases List.mem_cons.mp hx with hnew | hold
    · cases hnew
    · exact .inl hold
  · exact hok.upcalls.mono hM (fun _ hst => hst) le_rfl
  · exact fun r hr => ⟨r, hr, rfl⟩
  · nofun
  · intro x hx
    cases hx
    rfl
  · nofun

theorem Inv.servePrepare (h : Inv first v₀ s) (hm : .prepare q ∈ s.msgs)
    (hord : Orderly s (.handle (.prepare q))) : Inv first v₀ (s.servePrepare q) := by
  unfold Sys.servePrepare
  rcases preparereq_cases (s.nodes q.dst).acc q.inst q.n with
    ⟨hle, heq⟩ | ⟨hlt, hn, heq⟩ | ⟨_, _, heq⟩
  · rw [heq]
    refine h.reply_quiet ⟨?_, by simp⟩ (by simp) ?_ (by simp)
    · intro _ hi
      exact (h.node q.dst).acc.value_decided hi hle
    · intro x res hx
      cases hx
      rfl
  · rw [heq]
    exact h.promise hm hn (hord hlt hn)
  · rw [heq]
    refine h.reply_quiet ⟨by simp, by simp⟩ (by simp) ?_ (by simp)
    intro x res hx
    cases hx
    rfl

theorem Inv.serveAccept (h : Inv first v₀ s) {q : AcceptReq} (hm : .accept q ∈ s.msgs)
    (hord : Orderly s (.handle (.accept q))) : Inv first v₀ (s.serveAccept q) := by
  unfold Sys.serveAccept
  rcases acceptreq_cases (s.nodes q.dst).acc q.n q.v with ⟨hle, heq⟩ | ⟨_, heq⟩
  · rw [heq]
    exact h.vote hm hle (hord hle)
  · rw [heq]
    exact h.reply_quiet (by simp [MsgOk]) (by simp) (by simp) (by simp)

theorem Inv.serveDecide (h : Inv first v₀ s) {q : DecideReq} (hm : .decide q ∈ s.msgs) :
    Inv first v₀ (s.setNode q.dst ((s.nodes q.dst).decidereq q.dst q.inst q.v)) := by
  unfold PNode.decidereq
  split
  · exact h.crash q.dst
  · rename_i a ha
    have hok := h.node q.dst
    have hdec : Decided v₀ s.msgs s.started q.inst q.v := h.sound.msgs _ hm
    rcases decidereq_some ha with rfl | ⟨hinst, hv, rfl⟩
    · rw [if_neg (Nat.lt_irrefl _)]
      exact h.local hok fun r hr => ⟨r, hr, rfl⟩
    · have hcommit := hok.commit hinst.le fun _ => hdec
      have hnext : ((s.nodes q.dst).acc.commitWo q.dst q.inst q.v).instanceH = q.inst := by
        unfold Acceptor.commitWo
        rw [if_pos (by omega)]
      rw [hv, hnext]
      exact h.local hcommit fun r hr => ⟨r, hr, rfl⟩

theorem Inv.learnOld (h : Inv first v₀ s) {res : PrepareRes} (hr : (s.nodes p).run = some r)
    (hm : .prepareRes q res ∈ s.msgs) (hc : r.call = some (.prepare q))
    (ho : res.oldinstance = true) : Inv first v₀ (s.learnOld p r res.vA) := by
  have hok := h.node p
  have hrun := hok.run r hr
  obtain ⟨c, d, hreq⟩ := hrun.call _ hc
  obtain ⟨_, _, _, hinst, _⟩ := request_prepare hreq
  have hcommit : NodeOk first v₀ s.msgs s.started p ((s.nodes p).commit p r.inst res.vA) := by
    refine hok.commit hrun.bound ?_
    intro hi
    rw [← hinst] at hi ⊢
    exact (h.sound.msgs _ hm).1 ho hi
  refine h.local ⟨hcommit.acc, hcommit.covers, ?_, hcommit.upcalls⟩ ?_
  · nofun
  · nofun

theorem Inv.restart (h : Inv first v₀ s) (p : NodeId) :
    Inv first v₀ (s.setNode p (PNode.boot first v₀ p (s.nodes p).acc.log)) := by
  obtain ⟨hacc, hcore⟩ := (h.node p).acc.restart
  refine h.local ⟨hacc, ?_, ?_, ?_⟩ ?_
  · show Covers s.msgs p (Acceptor.new p (p == first) v₀ (s.nodes p).acc.log).core
    rw [hcore]
    exact (h.node p).covers
  · nofun
  · nofun
  · nofun

theorem Inv.dump (h : Inv first v₀ s) (p : NodeId) :
    Inv first v₀ { s with msgs := .dump (s.nodes p).acc.log :: s.msgs } := by
  have hM : ∀ m ∈ s.msgs, m ∈ Msg.dump (s.nodes p).acc.log :: s.msgs :=
    fun m hm => List.mem_cons_of_mem _ hm
  have hfile : MsgOk first v₀ (.dump (s.nodes p).acc.log :: s.msgs) s.started
      (.dump (s.nodes p).acc.log) := (h.node p).acc.file.mono hM fun _ hst => hst
  refine h.send (Fits.quiet (by simp) (by simp) (by simp)) hfile ((h.node p).send ?_ ?_ ?_)
    (fun r hr => ⟨r, hr, rfl⟩) ?_ ?_ ?_ (update_eq_self p s.nodes).symm rfl rfl
  all_goals simp

theorem Inv.restore (h : Inv first v₀ s) {file : List LogRec} (hm : .dump file ∈ s.msgs)
    (hk : (s.nodes p).acc.core.Keeps (Core.ofLog file)) :
    Inv first v₀ (s.setNode p { s.nodes p with acc := (s.nodes p).acc.restore file }) := by
  have hfile : FileOk v₀ s.msgs s.started file := h.sound.msgs _ hm
  have hkeeps : (s.nodes p).acc.core.Keeps ((s.nodes p).acc.restore file).core := by
    rw [restore_core hk]
    exact hk
  refine h.local ((h.node p).setAcc ((h.node p).acc.restore hfile hk) hkeeps rfl ?_)
    fun r hr => ⟨r, hr, rfl⟩
  exact (h.node p).upcalls.mono (fun _ hm => hm) (fun _ hst => hst) hkeeps.instanceH_le

/-! ## Every step, every run -/

theorem Inv.step {e : Event} (h : Inv first v₀ s) (hmem : SameMembers first s e)
    (hord : Orderly s e) (hs : step first v₀ s e = some s') : Inv first v₀ s' := by
  cases trans_of_step hs with
  | run => exact h.startRun hmem hord
  | call hr _ ht => exact h.sendCall hr ht
  | bindFails hr => exact h.next hr ((h.node _).run _ hr) rfl
  | bindAborts => exact h.crash _
  | servePrepare hm => exact h.servePrepare hm hord
  | serveAccept hm => exact h.serveAccept hm hord
  | serveDecide hm => exact h.serveDecide hm
  | learnOld hr hm hc ho => exact h.learnOld hr hm hc ho
  | promised hr hm hc =>
    exact h.next hr (((h.node _).run _ hr).promised h.sound hm hc) (promised_rid _ _ _)
  | accepted hr hm hc =>
    exact h.next hr (((h.node _).run _ hr).accepted hm hc) (accepted_rid _ _ _)
  | fails hr => exact h.next hr ((h.node _).run _ hr) rfl
  | @upcall p =>
    refine h.local ⟨(h.node p).acc, (h.node p).covers, (h.node p).run, ?_⟩ ?_
    · exact fun u hu => (h.node p).upcalls u (List.mem_of_mem_erase hu)
    · exact fun r hr => ⟨r, hr, rfl⟩
  | crash => exact h.crash _
  | restart => exact h.restart _
  | dump => exact h.dump _
  | restore hm => exact h.restore hm hord

/-- The invariant holds in every state that runs with orderly steps reach. -/
theorem Inv.reach (h : Reach (Paxos.step first v₀) (fun s e => SameMembers first s e ∧ Orderly s e)
    (Sys.init first v₀) s) : Inv first v₀ s :=
  h.invariant (Inv first v₀) Inv.init fun _ _ _ hi hok hs => hi.step hok.1 hok.2 hs

/-! ## What only grows -/

/-- Messages and runs stay, and no acceptor goes back to an earlier
instance. -/
structure Grows (s s' : Sys) : Prop where
  msgs : ∀ m ∈ s.msgs, m ∈ s'.msgs
  started : ∀ st ∈ s.started, st ∈ s'.started
  instanceH : ∀ p, (s.nodes p).acc.instanceH ≤ (s'.nodes p).acc.instanceH

theorem grows_of_update (hm : ∀ m ∈ s.msgs, m ∈ s'.msgs) (hst : ∀ st ∈ s.started, st ∈ s'.started)
    (hn : s'.nodes = update s.nodes p nd)
    (hle : (s.nodes p).acc.instanceH ≤ nd.acc.instanceH) : Grows s s' := by
  refine ⟨hm, hst, ?_⟩
  intro q
  rw [hn]
  by_cases hq : q = p
  · subst hq
    rw [update_self]
    exact hle
  · rw [update_of_ne hq]

/-- A step that sends nothing. -/
theorem grows_setNode (hle : (s.nodes p).acc.instanceH ≤ nd.acc.instanceH) :
    Grows s (s.setNode p nd) :=
  grows_of_update (fun _ hm => hm) (fun _ hst => hst) rfl hle

theorem preparereq_instanceH (a : Acceptor) (inst : Nat) (n : PropT) :
    (a.preparereq inst n).2.instanceH = a.instanceH := by
  rcases preparereq_cases a inst n with ⟨_, heq⟩ | ⟨_, _, heq⟩ | ⟨_, _, heq⟩ <;> rw [heq]

theorem acceptreq_instanceH (a : Acceptor) (n : PropT) (v : Value) :
    (a.acceptreq n v).2.instanceH = a.instanceH := by
  rcases acceptreq_cases a n v with ⟨_, heq⟩ | ⟨_, heq⟩ <;> rw [heq]

theorem decidereq_instanceH (me : NodeId) (nd : PNode) (inst : Nat) (v : Value) :
    nd.acc.instanceH ≤ (nd.decidereq me inst v).acc.instanceH := by
  unfold PNode.decidereq
  split
  · exact le_rfl
  · rename_i a ha
    rcases decidereq_some ha with rfl | ⟨_, _, rfl⟩
    · exact le_rfl
    · exact (commitWo_keeps me nd.acc inst v).instanceH_le

theorem Inv.grows {e : Event} (h : Inv first v₀ s) (hord : Orderly s e)
    (hs : Paxos.step first v₀ s e = some s') : Grows s s' := by
  cases trans_of_step hs with
  | run =>
    exact grows_of_update (fun _ hm => hm) (fun _ hst => List.mem_cons_of_mem _ hst) rfl le_rfl
  | call =>
    exact grows_of_update (fun _ hm => List.mem_cons_of_mem _ hm) (fun _ hst => hst) rfl le_rfl
  | servePrepare =>
    refine grows_of_update (fun _ hm => List.mem_cons_of_mem _ hm) (fun _ hst => hst) rfl ?_
    exact (preparereq_instanceH _ _ _).ge
  | serveAccept =>
    refine grows_of_update (fun _ hm => List.mem_cons_of_mem _ hm) (fun _ hst => hst) rfl ?_
    exact (acceptreq_instanceH _ _ _).ge
  | serveDecide => exact grows_setNode (decidereq_instanceH _ _ _ _)
  | learnOld => exact grows_setNode (commitWo_keeps _ _ _ _).instanceH_le
  | @restart p =>
    refine grows_setNode ?_
    exact (congrArg Core.instanceH (h.node p).acc.restart.2).ge
  | dump => exact ⟨fun _ hm => List.mem_cons_of_mem _ hm, fun _ hst => hst, fun _ => le_rfl⟩
  | @restore p file hm =>
    refine grows_setNode ?_
    have hcore : ((s.nodes p).acc.restore file).instanceH = (Core.ofLog file).instanceH :=
      congrArg Core.instanceH (restore_core hord)
    exact hcore.ge.trans' (Core.Keeps.instanceH_le hord)
  | bindFails | bindAborts | promised | accepted | fails | upcall | crash =>
    exact grows_setNode le_rfl

end Yfs.Paxos
