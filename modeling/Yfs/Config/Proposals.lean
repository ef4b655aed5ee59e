/-
Yfs.Config.Proposals — is a run of Paxos started with the right members?

The view is kept twice: `myvid` and `mems` of the config, and `values` of the
acceptor. `add` and `remove_wo` take the members to ask from `mems` and the
instance from `myvid`; whether these are the members of the view before is a
matter of the two copies. They are changed in four places: the constructor,
`paxos_commit`, `restore`, and `commit_wo` below.

`proposals_ask_members`: the copies agree in every state, and every run asks
the members of the view before for a text that reads as these members with
the change. It needs that a value, once known for an instance, is the value
of that instance: a commit after a restore can otherwise put another one in
its place while the upcall for the first is still on its way. And it needs
that logs number instances from 1: `reconstruct` does not read a view 0.
`copies_disagree` has the two runs that show it.

The invariant (`Agreeing`) follows from one fact about steps, `Grows`: what
the acceptor knows about an instance it keeps.
-/
import Yfs.Config.Upcalls

namespace Yfs.Config

open Function
open Yfs.Paxos (NodeId Value Acceptor LogRec Started Numbered IsName)
open Yfs.Run (Reach exists_reach)

/-! ## What an acceptor knows -/

def Known (a : Acceptor) (k : Nat) : Prop := k = 0 ∨ (a.values k).isSome = true

/-- `b` has every value of `a`. -/
def Grows (a b : Acceptor) : Prop := ∀ i v, a.values i = some v → b.values i = some v

theorem Grows.known {a b : Acceptor} (hg : Grows a b) {k : Nat} (h : Known a k) : Known b k := by
  rcases h with rfl | hsome
  · exact .inl rfl
  · obtain ⟨v, hv⟩ := Option.isSome_iff_exists.mp hsome
    exact .inr (by simp [hg k v hv])

/-- The view before a known instance stays what it was. -/
theorem Grows.value {a b : Acceptor} (hg : Grows a b) (ha : a.values 0 = none)
    (hb : b.values 0 = none) {k : Nat} (h : Known a k) : b.value k = a.value k := by
  rcases h with rfl | hsome
  · simp [Acceptor.value, ha, hb]
  · obtain ⟨v, hv⟩ := Option.isSome_iff_exists.mp hsome
    simp [Acceptor.value, hv, hg k v hv]

def agrees (a : Acceptor) : LogRec → Bool
  | .done i v => (a.values i).all (· == v)
  | _ => true

/-- The log has no other value for an instance that `a` has a value for. -/
def LogAgrees (a : Acceptor) (file : List LogRec) : Prop := ∀ r ∈ file, agrees a r = true

instance (a : Acceptor) (file : List LogRec) : Decidable (LogAgrees a file) := by
  unfold LogAgrees
  infer_instance

theorem LogAgrees.grows {a : Acceptor} {file : List LogRec} (h : LogAgrees a file) :
    Grows a (a.restore file) := by
  intro i v hv
  have hsome : ((a.restore file).values i).isSome = true :=
    Paxos.logread_values_isSome (a := { a with log := file }) (.inl (by simp [hv]))
  obtain ⟨w, hw⟩ := Option.isSome_iff_exists.mp hsome
  rcases Paxos.logread_values (a := { a with log := file }) hw with hold | hnew
  · exact hw.trans (hold.symm.trans hv)
  · have heq : v = w := by simpa [agrees, hv] using h _ hnew
    rw [hw, heq]

/-- The last instance of a log has its value with it. -/
theorem known_logread {a : Acceptor} (h : Known a a.instanceH) (file : List LogRec) :
    Known (a.logread file) (a.logread file).instanceH := by
  induction file generalizing a with
  | nil => exact h
  | cons r file ih =>
    show Known ((a.readRec r).logread file) _
    refine ih ?_
    cases r with
    | done i v => exact .inr (by simp [Acceptor.readRec])
    | propseen n => exact h
    | accepted n v => exact h

theorem known_new (me : NodeId) (first : Bool) (file : List LogRec) :
    Known (Acceptor.new me first me file) (Acceptor.new me first me file).instanceH := by
  have hread : Known ((Acceptor.blank me file).logread file) _ :=
    known_logread (.inl rfl) file
  unfold Acceptor.new
  dsimp only
  split
  · exact .inr (by simp)
  · exact hread

theorem new_values_zero (me : NodeId) (first : Bool) {file : List LogRec} (hf : Numbered file) :
    (Acceptor.new me first me file).values 0 = none := by
  have hread : ((Acceptor.blank me file).logread file).values 0 = none :=
    Paxos.logread_values_zero rfl hf
  unfold Acceptor.new
  dsimp only
  split
  · simpa using hread
  · exact hread

/-! ## The two copies of the view -/

/-- A run is started with the members of the view before, and its value reads
as these with the change. -/
def RightRun (a : Acceptor) (ch : Change) (st : Started) : Prop :=
  st.nodes = members (a.value (st.inst - 1)) ∧ members st.newv = ch.apply st.nodes

instance (a : Acceptor) (ch : Change) (st : Started) : Decidable (RightRun a ch st) := by
  unfold RightRun
  infer_instance

namespace Local

/-- Logs that are restored agree with the values of the node, and names are
names. -/
def Given (h : Local) : Event → Prop
  | .restore file => LogAgrees h.acc file
  | .add m _ => IsName m
  | .remove m => IsName m
  | _ => True

/-- An instance has one value, and logs number instances from 1. -/
def OneValue (h : Local) : Event → Prop
  | .commit inst v => h.acc.instanceH < inst → ∀ w ∈ h.acc.values inst, w = v
  | .restore file => Numbered file
  | _ => True

instance (h : Local) (e : Event) : Decidable (h.Given e) := by
  rcases e <;> unfold Given <;> infer_instance

instance (h : Local) (e : Event) : Decidable (h.OneValue e) := by
  rcases e <;> unfold OneValue <;> infer_instance

structure Agreeing (h : Local) : Prop where
  zero : h.acc.values 0 = none
  last : Known h.acc h.acc.instanceH
  current : Known h.acc h.cfg.myvid
  mems : h.cfg.mems = members (h.acc.value h.cfg.myvid)
  pending : ∀ u ∈ h.upcalls, h.acc.values u.1 = some u.2
  runs : List.Forall₂ (fun ch st => Known h.acc (st.inst - 1) ∧ RightRun h.acc ch st)
    h.asked h.cfg.planned

theorem agreeing_new {first me : NodeId} {file : List LogRec} (hf : Numbered file) :
    Agreeing (Local.new first me file) := by
  have hzero := new_values_zero me (me == first) hf
  have hlast := known_new me (me == first) file
  refine ⟨hzero, hlast, ?_, ?_, by simp [Local.new], ?_⟩
  · unfold Local.new Cfg.new Cfg.reconstruct
    dsimp only
    split
    · exact hlast
    · exact .inl rfl
  · unfold Local.new Cfg.new Cfg.reconstruct
    dsimp only
    split
    · rfl
    · simp [Acceptor.value, hzero, members, Words.words, Words.wordsFrom]
  · unfold Local.new Cfg.new Cfg.reconstruct
    dsimp only
    split <;> exact .nil

section Steps

variable {me : NodeId} {h h' : Local}

/-- The acceptor learns something; the config does not take part. -/
theorem Agreeing.grow (ha : Agreeing h) {a : Acceptor} {ups : List (Nat × Value)} {b : Bool}
    (hg : Grows h.acc a) (hzero : a.values 0 = none) (hlast : Known a a.instanceH)
    (hups : ∀ u ∈ ups, a.values u.1 = some u.2) :
    Agreeing { h with acc := a, upcalls := ups, restoring := b } := by
  refine ⟨hzero, hlast, hg.known ha.current, ?_, hups, ha.runs.imp ?_⟩
  · show h.cfg.mems = members (a.value h.cfg.myvid)
    rw [hg.value ha.zero hzero ha.current]
    exact ha.mems
  · rintro ch st ⟨hk, hnodes, hnew⟩
    refine ⟨hg.known hk, ?_, hnew⟩
    rw [hg.value ha.zero hzero hk]
    exact hnodes

theorem Agreeing.commit (ha : Agreeing h) {inst : Nat} {v : Value}
    (hok : h.OneValue (.commit inst v)) (hs : step me h (.commit inst v) = some h') :
    Agreeing h' := by
  cases hs
  by_cases hlt : h.acc.instanceH < inst
  · simp only [Acceptor.commitWo, if_pos hlt]
    have hg : ∀ i w, h.acc.values i = some w →
        update h.acc.values inst (some v) i = some w := by
      intro i w hw
      rcases eq_or_ne i inst with rfl | hne
      · rw [update_self, hok hlt w hw]
      · rwa [update_of_ne hne]
    refine ha.grow hg ?_ (.inr (by simp)) ?_
    · have hne : 0 ≠ inst := by omega
      exact (update_of_ne hne _ _).trans ha.zero
    · intro u hu
      rcases List.mem_append.mp hu with hold | hnew
      · exact hg u.1 u.2 (ha.pending u hold)
      · obtain rfl := List.mem_singleton.mp hnew
        exact update_self ..
  · simp only [Acceptor.commitWo, if_neg hlt]
    exact ha

theorem Agreeing.paxosCommit (ha : Agreeing h) {i : Nat}
    (hs : step me h (.paxosCommit i) = some h') : Agreeing h' := by
  simp only [step, Option.ite_none_left_eq_some] at hs
  obtain ⟨u, hu, rfl⟩ := Option.map_eq_some_iff.mp hs.2
  have hv := ha.pending u (List.mem_of_getElem? hu)
  refine ⟨ha.zero, ha.last, .inr ?_, ?_, ?_, ha.runs⟩
  · show (h.acc.values u.1).isSome = true
    rw [hv]
    rfl
  · show members u.2 = members (h.acc.value u.1)
    rw [Acceptor.value, hv, Option.getD_some]
  · intro w hw
    exact ha.pending w (List.mem_of_mem_eraseIdx hw)

theorem Agreeing.restore (ha : Agreeing h) {file : List LogRec} (hf : Numbered file)
    (hagree : LogAgrees h.acc file) (hs : step me h (.restore file) = some h') :
    Agreeing h' := by
  simp only [step, Option.ite_none_left_eq_some, Option.some.injEq] at hs
  obtain ⟨_, rfl⟩ := hs
  have hg := hagree.grows
  exact ha.grow hg (Paxos.logread_values_zero (a := { h.acc with log := file }) ha.zero hf)
    (known_logread (a := { h.acc with log := file }) ha.last file)
    fun u hu => hg u.1 u.2 (ha.pending u hu)

theorem Agreeing.reconstruct (ha : Agreeing h) (hs : step me h .reconstruct = some h') :
    Agreeing h' := by
  obtain ⟨_, rfl⟩ := Run.of_guard hs
  unfold Cfg.reconstruct
  split
  · exact ⟨ha.zero, ha.last, ha.last, rfl, ha.pending, ha.runs⟩
  · exact ⟨ha.zero, ha.last, ha.current, ha.mems, ha.pending, ha.runs⟩

/-- The members that are read from a text are names, so the text of the next
view reads back as it was meant. -/
theorem Agreeing.ask (ha : Agreeing h) {ch : Change} (hvid : ch.vid = h.cfg.myvid)
    (hnew : ∀ m vid, ch = .add m vid → IsName m) : Agreeing (h.ask ch) := by
  refine ⟨ha.zero, ha.last, ha.current, ha.mems, ha.pending, ?_⟩
  show List.Forall₂ _ (h.asked ++ [ch]) (if ch.vid = h.cfg.myvid then _ else _)
  rw [if_pos hvid]
  refine List.rel_append ha.runs (.cons ⟨ha.current, ha.mems, ?_⟩ .nil)
  refine members_value (Change.isName_apply ?_ hnew)
  intro n hn
  rw [ha.mems] at hn
  exact isName_of_mem hn

theorem Agreeing.step {e : Event} (ha : Agreeing h) (hok : h.Given e ∧ h.OneValue e)
    (hs : Local.step me h e = some h') : Agreeing h' := by
  cases e with
  | commit inst v => exact ha.commit hok.2 hs
  | paxosCommit i => exact ha.paxosCommit hs
  | restore file => exact ha.restore hok.2 hok.1 hs
  | reconstruct => exact ha.reconstruct hs
  | add m vid =>
    simp only [Local.step, Option.ite_none_left_eq_some] at hs
    have hs := hs.2
    split at hs
    · rename_i hvid
      cases hs
      refine ha.ask hvid ?_
      rintro n k heq
      cases heq
      exact hok.1
    · cases hs
      exact ha
  | remove m =>
    simp only [Local.step, Option.ite_none_left_eq_some, Option.some.injEq] at hs
    obtain ⟨_, rfl⟩ := hs
    exact ha.ask rfl (by simp)

end Steps

/-! ## Whole runs -/

/-- In every run in which an instance has one value: `mems` are the members
of the acceptor's value for `myvid`, and each run that `add` or `remove_wo`
starts asks the members of the view before for the view with the change. -/
theorem proposals_ask_members (first me : NodeId) (file : List LogRec) (h : Local)
    (hf : Numbered file)
    (hr : Reach (step me) (fun h e => h.Given e ∧ h.OneValue e) (Local.new first me file) h) :
    h.cfg.mems = members (h.acc.value h.cfg.myvid) ∧
    List.Forall₂ (RightRun h.acc) h.asked h.cfg.planned := by
  have hinv : Agreeing h :=
    hr.invariant Agreeing (agreeing_new hf) fun _ _ _ ha hok hs => ha.step hok hs
  exact ⟨hinv.mems, hinv.runs.imp fun _ _ hrun => hrun.2⟩

def viewOne : List LogRec := [.done 1 ['1']]

/-- Node 2 is told of two views, gets the log of a join, and asks for a node
to be added and another to be removed. -/
theorem proposals_ask_members_joined : ∃ h : Local,
    Numbered viewOne ∧
    Reach (step ['2']) (fun h e => h.Given e ∧ h.OneValue e) (Local.new ['1'] ['2'] viewOne) h ∧
    h.cfg.mems = members (h.acc.value h.cfg.myvid) ∧
    List.Forall₂ (RightRun h.acc) h.asked h.cfg.planned ∧
    h.cfg.planned.map Started.nodes = [[['1'], ['2']], [['1'], ['2'], ['3']]] := by
  obtain ⟨h, hr, hp⟩ : ∃ h, Reach (step ['2']) (fun h e => h.Given e ∧ h.OneValue e)
      (Local.new ['1'] ['2'] viewOne) h ∧
      h.cfg.planned.map Started.nodes = [[['1'], ['2']], [['1'], ['2'], ['3']]] :=
    exists_reach
      [.restore [.done 1 ['1'], .done 2 ['1', ' ', '2', ' ']], .reconstruct, .add ['3'] 2,
       .commit 3 ['1', ' ', '2', ' ', '3', ' '], .paxosCommit 0, .remove ['1']]
      (by decide +kernel)
  obtain ⟨hmems, hruns⟩ := proposals_ask_members ['1'] ['2'] viewOne h (by decide) hr
  exact ⟨h, by decide, hr, hmems, hruns, hp⟩

/-- Two ways for the copies to differ. A log whose last record is for
instance 0 is read by the acceptor but not by the config. And node 2 commits
instance 2, gets an older log, and commits instance 2 again with another
value: the upcall for the first value comes after that, and node 4 is
proposed to nodes 1 and 2, when the acceptor has nodes 1 and 3 for view 2. -/
theorem copies_disagree :
    (let h := Local.new ['1'] ['2'] [.done 0 ['a']]
     h.cfg.mems ≠ members (h.acc.value h.cfg.myvid)) ∧
    ∃ h : Local, Numbered viewOne ∧
      Reach (step ['2']) Given (Local.new ['1'] ['2'] viewOne) h ∧
      h.cfg.mems ≠ members (h.acc.value h.cfg.myvid) ∧
      ¬ List.Forall₂ (RightRun h.acc) h.asked h.cfg.planned := by
  refine ⟨by decide, ?_⟩
  obtain ⟨h, hr, hp⟩ : ∃ h, Reach (step ['2']) Given (Local.new ['1'] ['2'] viewOne) h ∧
      h.cfg.mems ≠ members (h.acc.value h.cfg.myvid) ∧
      ¬ List.Forall₂ (RightRun h.acc) h.asked h.cfg.planned :=
    exists_reach
      [.commit 2 ['1', ' ', '2'], .restore viewOne, .reconstruct, .commit 2 ['1', ' ', '3'],
       .paxosCommit 0, .add ['4'] 2]
      (by decide +kernel)
  exact ⟨h, by decide, hr, hp⟩

end Local

end Yfs.Config
