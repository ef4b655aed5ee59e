/-
Yfs.Config.Upcalls — the config layer of one node under commits of several
threads (paxos.cc: `commit_wo`, `commit`; config.cc: `paxos_commit`,
`restore`, `add`, `remove_wo`).

`commit_wo` changes the acceptor under `pxs_mutex` and drops the mutex for
its upcall. So a commit is two steps of its thread, and any number of
commits can be between the two. `paxos_commit` takes `cfg_mutex` and assigns
`mems` and `myvid` WITHOUT looking at the old `myvid`; `commit_change_wo` of
the state machine, which is called next, does compare.

`config_never_goes_back`: as long as no upcall runs after one of a later
instance, `myvid` does not decrease, and when no upcall is left the config is
at the acceptor's last instance. `upcalls_overtake` is the run with two
commits in flight in which the config ends one view behind.

What carries the induction is `Covered`: the acceptor's last instance has
come to the config or its upcall is still on the way.
-/
import Yfs.Config.System
import Yfs.Lib.Run

namespace Yfs.Config

open Yfs.Paxos (NodeId Value Acceptor LogRec)
open Yfs.Run (Reach exists_reach)

/-! ## One node -/

/-- The acceptor and the config of a node, with the threads that are on
their way from one to the other. -/
structure Local where
  acc : Acceptor
  cfg : Cfg
  /-- Calls of `paxos_commit` that do not have `cfg_mutex` yet, oldest first. -/
  upcalls : List (Nat × Value)
  /-- The instances `paxos_commit` has installed, latest first. -/
  installed : List Nat
  /-- `config::restore` has `cfg_mutex` and is about to `reconstruct`. -/
  restoring : Bool
  /-- The changes for which a run was started, in the order of `cfg.planned`. -/
  asked : List Change

/-- `config::config`, with what the log file holds. The first node's value is
its own name. -/
def Local.new (first me : NodeId) (file : List LogRec) : Local :=
  let a := Acceptor.new me (me == first) me file
  { acc := a, cfg := Cfg.new a, upcalls := [], installed := [], restoring := false, asked := [] }

namespace Local

inductive Event where
  | commit (inst : Nat) (v : Value)
  | paxosCommit (i : Nat)
  | restore (file : List LogRec)
  | reconstruct
  | add (m : NodeId) (vid : Nat)
  | remove (m : NodeId)
  deriving DecidableEq, Repr

def ask (h : Local) (ch : Change) : Local :=
  { h with cfg := h.cfg.propose ch, asked := h.asked ++ [ch] }

def step (me : NodeId) (h : Local) : Event → Option Local
  -- `commit_wo` under `pxs_mutex`; an instance that is not new has no upcall
  | .commit inst v => some
      { h with
        acc := h.acc.commitWo me inst v
        upcalls := if h.acc.instanceH < inst then h.upcalls ++ [(inst, v)] else h.upcalls }
  | .paxosCommit i =>
    if h.restoring then none
    else h.upcalls[i]?.map fun u =>
      { h with
        cfg := h.cfg.paxosCommit u.1 u.2
        upcalls := h.upcalls.eraseIdx i
        installed := u.1 :: h.installed }
  | .restore file =>
    if h.restoring then none
    else some { h with acc := h.acc.restore file, restoring := true }
  | .reconstruct =>
    if h.restoring then some { h with cfg := h.cfg.reconstruct h.acc, restoring := false }
    else none
  | .add m vid =>
    if h.restoring then none
    else if vid = h.cfg.myvid then some (h.ask (.add m vid))
    else some h
  | .remove m =>
    if h.restoring then none
    else some (h.ask (.remove m h.cfg.myvid))

/-! ## Commits in flight -/

/-- Nothing is on the way, and the config is at the acceptor's last instance. -/
structure Idle (h : Local) : Prop where
  upcalls : h.upcalls = []
  installed : h.installed = []
  restoring : h.restoring = false
  myvid : h.cfg.myvid = h.acc.instanceH
  mems : h.cfg.mems = members (h.acc.value h.acc.instanceH)

/-- No log is restored, and an upcall gets `cfg_mutex` before those of later
instances. -/
def InOrder (h : Local) : Event → Prop
  | .paxosCommit i => ∀ u ∈ h.upcalls[i]?, ∀ j ∈ h.installed, j ≤ u.1
  | .restore _ => False
  | _ => True

instance (h : Local) (e : Event) : Decidable (h.InOrder e) := by
  rcases e <;> unfold InOrder <;> infer_instance

/-- The last instance has come to the config, or is on its way. -/
def Covered (h : Local) : Prop :=
  (∃ u ∈ h.upcalls, u.1 = h.acc.instanceH) ∨
  (h.cfg.myvid = h.acc.instanceH ∧ h.cfg.mems = members (h.acc.value h.acc.instanceH))

/-- What holds while threads commit, `start` being the instance before the
first of these commits. -/
structure InFlight (start : Nat) (h : Local) : Prop where
  restoring : h.restoring = false
  myvid : h.cfg.myvid = start ∨ h.cfg.myvid ∈ h.installed
  startLe : start ≤ h.acc.instanceH
  pending : ∀ u ∈ h.upcalls,
    start < u.1 ∧ u.1 ≤ h.acc.instanceH ∧ h.acc.values u.1 = some u.2
  installed : ∀ j ∈ h.installed, j ≤ h.acc.instanceH
  covered : h.Covered

theorem Idle.inFlight {h : Local} (hi : h.Idle) : InFlight h.acc.instanceH h where
  restoring := hi.restoring
  myvid := .inl hi.myvid
  startLe := le_rfl
  pending := by simp [hi.upcalls]
  installed := by simp [hi.installed]
  covered := .inr ⟨hi.myvid, hi.mems⟩

section Steps

variable {me : NodeId} {start : Nat} {h h' : Local}

/-- A new instance is the last one, and its own upcall is on the way. -/
theorem InFlight.commit (hi : InFlight start h) {inst : Nat} {v : Value}
    (hs : step me h (.commit inst v) = some h') : InFlight start h' := by
  cases hs
  by_cases hlt : h.acc.instanceH < inst
  · have hstart := hi.startLe
    simp only [Acceptor.commitWo, if_pos hlt]
    refine ⟨hi.restoring, hi.myvid, by dsimp only; omega, ?_, ?_, .inl ⟨(inst, v), by simp, rfl⟩⟩
    · intro u hu
      rcases List.mem_append.mp hu with hold | hnew
      · obtain ⟨hgt, hle, hv⟩ := hi.pending u hold
        -- the older values stay: the acceptor only takes instances past its last
        have hne : u.1 ≠ inst := by omega
        exact ⟨hgt, by dsimp only; omega, (Function.update_of_ne hne _ _).trans hv⟩
      · obtain rfl := List.mem_singleton.mp hnew
        exact ⟨by dsimp only; omega, le_rfl, Function.update_self ..⟩
    · intro j hj
      exact (hi.installed j hj).trans hlt.le
  · simp only [Acceptor.commitWo, if_neg hlt]
    exact ⟨hi.restoring, hi.myvid, hi.startLe, hi.pending, hi.installed, hi.covered⟩

/-- An upcall that is in order is not for an older view. -/
theorem InFlight.myvid_le (hi : InFlight start h) {i : Nat} {u : Nat × Value}
    (hu : h.upcalls[i]? = some u) (hok : h.InOrder (.paxosCommit i)) : h.cfg.myvid ≤ u.1 := by
  rcases hi.myvid with heq | hmem
  · exact heq.le.trans (hi.pending u (List.mem_of_getElem? hu)).1.le
  · exact hok u hu _ hmem

theorem InFlight.paxosCommit (hi : InFlight start h) {i : Nat} (hok : h.InOrder (.paxosCommit i))
    (hs : step me h (.paxosCommit i) = some h') : InFlight start h' := by
  simp only [step, hi.restoring, Bool.false_eq_true, if_false] at hs
  obtain ⟨u, hu, rfl⟩ := Option.map_eq_some_iff.mp hs
  obtain ⟨_, hle, hv⟩ := hi.pending u (List.mem_of_getElem? hu)
  refine ⟨rfl, .inr List.mem_cons_self, hi.startLe, ?_, ?_, ?_⟩
  · intro w hw
    exact hi.pending w (List.mem_of_mem_eraseIdx hw)
  · intro j hj
    rcases List.mem_cons.mp hj with rfl | hold
    · exact hle
    · exact hi.installed j hold
  · rcases eq_or_ne u.1 h.acc.instanceH with heq | hne
    · refine .inr ⟨heq, ?_⟩
      show members u.2 = _
      rw [← heq, Acceptor.value, hv, Option.getD_some]
    · rcases hi.covered with ⟨w, hw, hlast⟩ | ⟨hvid, _⟩
      · obtain ⟨k, hk⟩ := List.getElem?_of_mem hw
        refine .inl ⟨w, List.mem_eraseIdx_iff_getElem?.mpr ⟨k, ?_, hk⟩, hlast⟩
        rintro rfl
        cases hk.symm.trans hu
        exact hne hlast
      · -- the config is at the last instance already: this upcall is not in order
        have hmy := hi.myvid_le hu hok
        omega

theorem InFlight.ask (hi : InFlight start h) (ch : Change) : InFlight start (h.ask ch) :=
  ⟨hi.restoring, hi.myvid, hi.startLe, hi.pending, hi.installed, hi.covered⟩

theorem InFlight.step {e : Event} (hi : InFlight start h) (hok : h.InOrder e)
    (hs : Local.step me h e = some h') : InFlight start h' := by
  cases e with
  | commit inst v => exact hi.commit hs
  | paxosCommit i => exact hi.paxosCommit hok hs
  | restore file => exact hok.elim
  | reconstruct => simp [Local.step, hi.restoring] at hs
  | add m vid =>
    simp only [Local.step, hi.restoring, Bool.false_eq_true, if_false] at hs
    split at hs
    · cases hs
      exact hi.ask _
    · cases hs
      exact hi
  | remove m =>
    simp only [Local.step, hi.restoring, Bool.false_eq_true, if_false] at hs
    cases hs
    exact hi.ask _

theorem InFlight.myvid_mono {e : Event} (hi : InFlight start h) (hok : h.InOrder e)
    (hs : Local.step me h e = some h') : h.cfg.myvid ≤ h'.cfg.myvid := by
  cases e with
  | commit inst v =>
    cases hs
    exact le_rfl
  | paxosCommit i =>
    simp only [Local.step, hi.restoring, Bool.false_eq_true, if_false] at hs
    obtain ⟨u, hu, rfl⟩ := Option.map_eq_some_iff.mp hs
    exact hi.myvid_le hu hok
  | restore file => exact hok.elim
  | reconstruct => simp [Local.step, hi.restoring] at hs
  | add m vid =>
    simp only [Local.step, hi.restoring, Bool.false_eq_true, if_false] at hs
    split at hs <;> obtain rfl := Option.some.inj hs <;> exact le_rfl
  | remove m =>
    simp only [Local.step, hi.restoring, Bool.false_eq_true, if_false] at hs
    cases hs
    exact le_rfl

end Steps

/-! ## Whole runs -/

/-- Commits of any threads, each upcall before those of later instances: the
config never goes back, and when no upcall is left it is at the acceptor's
last instance. -/
theorem config_never_goes_back (me : NodeId) (h₀ h : Local) (hidle : h₀.Idle)
    (hr : Reach (step me) InOrder h₀ h) :
    (∀ e h', h.InOrder e → step me h e = some h' → h.cfg.myvid ≤ h'.cfg.myvid) ∧
    (h.upcalls = [] → h.cfg.myvid = h.acc.instanceH ∧
      h.cfg.mems = members (h.acc.value h.acc.instanceH)) := by
  have hinv : InFlight h₀.acc.instanceH h :=
    hr.invariant (InFlight h₀.acc.instanceH) hidle.inFlight fun _ _ _ hi hok hs => hi.step hok hs
  refine ⟨fun e h' hok hs => hinv.myvid_mono hok hs, fun hup => ?_⟩
  rcases hinv.covered with ⟨u, hu, _⟩ | hat
  · rw [hup] at hu
    cases hu
  · exact hat

def alone : Local := Local.new ['1'] ['1'] []

/-- Commits on any schedule. -/
def NoRestore (_ : Local) : Event → Prop
  | .restore _ => False
  | _ => True

instance (h : Local) (e : Event) : Decidable (h.NoRestore e) := by
  rcases e <;> unfold NoRestore <;> infer_instance

/-- Two commits are in flight when the first upcall runs. -/
theorem config_never_goes_back_two : ∃ h : Local,
    alone.Idle ∧ Reach (step ['1']) InOrder alone h ∧ h.upcalls = [] ∧ h.cfg.myvid = 3 ∧
    h.cfg.myvid = h.acc.instanceH := by
  have hidle : alone.Idle := ⟨rfl, rfl, rfl, rfl, by decide⟩
  obtain ⟨h, hr, hup, hvid⟩ : ∃ h, Reach (step ['1']) InOrder alone h ∧ h.upcalls = [] ∧
      h.cfg.myvid = 3 :=
    Run.exists_reach [.commit 2 ['1', ' ', '2'], .commit 3 ['1', ' ', '2', ' ', '3'],
      .paxosCommit 0, .paxosCommit 0] (by decide)
  exact ⟨h, hidle, hr, hup, hvid, ((config_never_goes_back ['1'] alone h hidle hr).2 hup).1⟩

/-- Instances 2 and 3 are committed, and the upcall of 3 gets `cfg_mutex`
first. The other one takes the config back, and it stays in view 2. -/
theorem upcalls_overtake : ∃ h h' : Local,
    alone.Idle ∧ Reach (step ['1']) NoRestore alone h ∧
    step ['1'] h (.paxosCommit 0) = some h' ∧ h.cfg.myvid = 3 ∧ h'.cfg.myvid = 2 ∧
    h'.upcalls = [] ∧ h'.acc.instanceH = 3 ∧ h'.cfg.mems = [['1'], ['2']] := by
  have hidle : alone.Idle := ⟨rfl, rfl, rfl, rfl, by decide⟩
  obtain ⟨h, hr, h', hs, hend⟩ : ∃ h, Reach (step ['1']) NoRestore alone h ∧
      ∃ h', step ['1'] h (.paxosCommit 0) = some h' ∧ h.cfg.myvid = 3 ∧ h'.cfg.myvid = 2 ∧
        h'.upcalls = [] ∧ h'.acc.instanceH = 3 ∧ h'.cfg.mems = [['1'], ['2']] :=
    exists_reach
      [.commit 2 ['1', ' ', '2'], .commit 3 ['1', ' ', '2', ' ', '3'], .paxosCommit 1] (by decide)
  exact ⟨h, h', hidle, hr, hs, hend⟩

end Local

end Yfs.Config
