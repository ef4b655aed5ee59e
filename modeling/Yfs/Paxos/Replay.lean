/-
Yfs.Paxos.Replay — an acceptor in the middle of `logread`.

`acceptor::restore` takes no `pxs_mutex`: it replaces the file and then reads
it one record at a time. `readOn` is what the acceptor will be when it has
read the records that are left. Steps that use no acceptor in the middle of
this commute with it (`step_readOn`), so they cannot tell a restore that is
going on from one that is over.
-/
import Yfs.Paxos.System

namespace Yfs.Paxos

open Function

variable {first : NodeId} {v₀ : Value} {s s' : Sys} {reading : NodeId → Option Nat}

/-! ## One acceptor -/

/-- The acceptor after it has read the rest of its file, if it is reading;
`k` records have been read. -/
def Acceptor.readOn (a : Acceptor) : Option Nat → Acceptor
  | none => a
  | some k => a.logread (a.log.drop k)

@[simp] theorem readOn_none (a : Acceptor) : a.readOn none = a := rfl

@[simp] theorem readOn_log (a : Acceptor) (k : Option Nat) : (a.readOn k).log = a.log := by
  cases k with
  | none => rfl
  | some k => exact logread_log a _

/-- `restore` begins with the whole file to read. -/
theorem readOn_restore (a : Acceptor) (file : List LogRec) :
    { a with log := file }.readOn (some 0) = a.restore file := rfl

theorem readRec_log (a : Acceptor) (r : LogRec) : (a.readRec r).log = a.log :=
  logread_log a [r]

/-- One turn of the loop. -/
theorem readOn_readRec {a : Acceptor} {k : Nat} {r : LogRec} (h : a.log[k]? = some r) :
    (a.readRec r).readOn (some (k + 1)) = a.readOn (some k) := by
  obtain ⟨hk, rfl⟩ := List.getElem?_eq_some_iff.mp h
  show (a.readRec a.log[k]).logread ((a.readRec a.log[k]).log.drop (k + 1)) = _
  rw [readRec_log]
  show _ = a.logread (a.log.drop k)
  rw [List.drop_eq_getElem_cons hk]
  rfl

/-- The end of the file. -/
theorem readOn_end {a : Acceptor} {k : Nat} (h : a.log[k]? = none) : a.readOn (some k) = a := by
  show a.logread (a.log.drop k) = a
  rw [List.drop_eq_nil_of_le (List.getElem?_eq_none_iff.mp h)]
  rfl

/-! ## All nodes -/

def Sys.readOn (s : Sys) (reading : NodeId → Option Nat) : Sys :=
  { s with nodes := fun p =>
    { s.nodes p with acc := (s.nodes p).acc.readOn (reading p) } }

@[simp] theorem Sys.readOn_nodes (s : Sys) (reading : NodeId → Option Nat) (p : NodeId) :
    (s.readOn reading).nodes p =
      { s.nodes p with acc := (s.nodes p).acc.readOn (reading p) } := rfl

@[simp] theorem Sys.readOn_msgs (s : Sys) (reading : NodeId → Option Nat) :
    (s.readOn reading).msgs = s.msgs := rfl

theorem Sys.readOn_setNode (s : Sys) (p : NodeId) (nd : PNode) :
    (s.setNode p nd).readOn reading =
      (s.readOn reading).setNode p { nd with acc := nd.acc.readOn (reading p) } := by
  unfold Sys.readOn Sys.setNode
  congr 1
  funext q
  rcases eq_or_ne q p with rfl | hq
  · simp only [update_self]
  · simp only [update_of_ne hq]

/-- The same for a step of one node that also sends or counts. -/
theorem Sys.readOn_of_setNode {t u : Sys} {p : NodeId} {nd : PNode}
    (ht : t.nodes = (s.setNode p nd).nodes)
    (hu : u.nodes = ((s.readOn reading).setNode p
      { nd with acc := nd.acc.readOn (reading p) }).nodes)
    (hm : u.msgs = t.msgs) (hc : u.nextCall = t.nextCall) (hst : u.started = t.started) :
    u = t.readOn reading := by
  have hnodes : u.nodes = (t.readOn reading).nodes := by
    rw [hu, ← Sys.readOn_setNode]
    unfold Sys.readOn
    rw [ht]
  cases u
  cases t
  simp only [Sys.readOn] at hnodes hm hc hst ⊢
  rw [hnodes, hm, hc, hst]

/-- The node whose acceptor a step reads or changes, a restart and the steps
of `restore` apart. -/
def Event.usesAcceptor : Event → Option NodeId
  | .run p _ _ _ => some p
  | .handle (.prepare q) => some q.dst
  | .handle (.accept q) => some q.dst
  | .handle (.decide q) => some q.dst
  -- `prepare` commits the instance
  | .ret p (.prepareRes _ res) => if res.oldinstance then some p else none
  | _ => none

def Event.plain : Event → Bool
  | .restart _ => false
  | .restore _ _ => false
  | _ => true

/-- A step that uses no acceptor that is reading finds the same when the
reading is over. -/
theorem step_readOn {e : Event} (hp : e.plain = true)
    (hu : ∀ p ∈ e.usesAcceptor, reading p = none) (hs : step first v₀ s e = some s') :
    step first v₀ (s.readOn reading) e = some (s'.readOn reading) := by
  cases e with
  | run p inst curNodes newv =>
    obtain ⟨hg, rfl⟩ := Run.of_guard hs
    refine (if_pos hg).trans (congrArg some (Sys.readOn_of_setNode rfl ?_ rfl rfl rfl))
    simp only [Sys.startRun, Sys.readOn_nodes, hu p rfl, readOn_none]
    rfl
  | call p =>
    simp only [step] at hs
    split at hs
    · rename_i r hr
      split at hs
      · rename_i d rest hc ht
        cases hs
        have hr' : ((s.readOn reading).nodes p).run = some r := hr
        simp only [step, hr', hc, ht]
        exact congrArg some (Sys.readOn_of_setNode rfl rfl rfl rfl rfl)
      · cases hs
    · cases hs
  | bindFails p =>
    simp only [step] at hs
    split at hs
    · rename_i r hr
      have hr' : ((s.readOn reading).nodes p).run = some r := hr
      split at hs
      · rename_i hc
        split at hs
        · rename_i hph
          cases hs
          simp only [step, hr', hc, hph, if_true]
          exact congrArg some (Sys.readOn_of_setNode rfl rfl rfl rfl rfl)
        · rename_i hph
          cases hs
          simp only [step, hr', hc, hph, if_true, if_false]
          exact congrArg some (Sys.readOn_of_setNode rfl rfl rfl rfl rfl)
      · cases hs
    · cases hs
  | handle m =>
    simp only [step, Option.ite_none_right_eq_some] at hs
    obtain ⟨hm, hs⟩ := hs
    refine (if_pos hm).trans ?_
    cases m with
    | prepare q =>
      simp only [Option.ite_none_right_eq_some, Option.some.injEq] at hs
      obtain ⟨ha, rfl⟩ := hs
      refine (if_pos ha).trans (congrArg some (Sys.readOn_of_setNode rfl ?_ ?_ rfl rfl))
      all_goals
        simp only [Sys.servePrepare, Sys.reply, Sys.readOn_nodes, Sys.readOn_msgs, hu q.dst rfl,
          readOn_none]
    | accept q =>
      simp only [Option.ite_none_right_eq_some, Option.some.injEq] at hs
      obtain ⟨ha, rfl⟩ := hs
      refine (if_pos ha).trans (congrArg some (Sys.readOn_of_setNode rfl ?_ ?_ rfl rfl))
      all_goals
        simp only [Sys.serveAccept, Sys.reply, Sys.readOn_nodes, Sys.readOn_msgs, hu q.dst rfl,
          readOn_none]
    | decide q =>
      simp only [Option.ite_none_right_eq_some, Option.some.injEq] at hs
      obtain ⟨ha, rfl⟩ := hs
      refine (if_pos ha).trans (congrArg some (Sys.readOn_of_setNode rfl ?_ rfl rfl rfl))
      simp only [Sys.readOn_nodes, hu q.dst rfl, readOn_none]
    | prepareRes q res | acceptRes q ok | dump file => cases hs
  | ret p m =>
    simp only [step] at hs
    split at hs
    · rename_i r hr
      have hr' : ((s.readOn reading).nodes p).run = some r := hr
      simp only [Option.ite_none_right_eq_some] at hs
      obtain ⟨hm, hs⟩ := hs
      simp only [step, hr']
      refine (if_pos hm).trans ?_
      cases m with
      | prepareRes q res =>
        simp only [Option.ite_none_right_eq_some] at hs
        obtain ⟨hc, hs⟩ := hs
        refine (if_pos hc).trans ?_
        split at hs
        · rename_i ho
          cases hs
          have hr : reading p = none := hu p (by simp [Event.usesAcceptor, ho])
          refine (if_pos ho).trans (congrArg some (Sys.readOn_of_setNode rfl ?_ rfl rfl rfl))
          simp only [Sys.learnOld, Sys.readOn_nodes, hr, readOn_none]
        · rename_i ho
          cases hs
          exact (if_neg ho).trans (congrArg some (Sys.readOn_of_setNode rfl rfl rfl rfl rfl))
      | acceptRes q ok =>
        simp only [Option.ite_none_right_eq_some, Option.some.injEq] at hs
        obtain ⟨hc, rfl⟩ := hs
        exact (if_pos hc).trans (congrArg some (Sys.readOn_of_setNode rfl rfl rfl rfl rfl))
      | prepare q | accept q | decide q | dump file => cases hs
    · cases hs
  | fails p =>
    simp only [step] at hs
    split at hs
    · rename_i r hr
      have hr' : ((s.readOn reading).nodes p).run = some r := hr
      split at hs
      · cases hs
      · rename_i hc
        cases hs
        simp only [step, hr', hc, if_false]
        exact congrArg some (Sys.readOn_of_setNode rfl rfl rfl rfl rfl)
    · cases hs
  | upcall p u =>
    obtain ⟨hmem, rfl⟩ := Run.of_guard hs
    exact (if_pos hmem).trans (congrArg some (Sys.readOn_of_setNode rfl rfl rfl rfl rfl))
  | crash p =>
    cases hs
    exact congrArg some (Sys.readOn_of_setNode rfl rfl rfl rfl rfl)
  | restart p => cases hp
  | dump p =>
    obtain ⟨ha, rfl⟩ := Run.of_guard hs
    refine (if_pos ha).trans ?_
    simp only [Sys.readOn_nodes, readOn_log]
    rfl
  | restore p file => cases hp

/-- A restart reads the file from its beginning. -/
theorem restart_readOn {p : NodeId} (hs : step first v₀ s (.restart p) = some s') :
    step first v₀ (s.readOn reading) (.restart p) =
      some (s'.readOn (update reading p none)) := by
  simp only [step] at hs
  split at hs
  · cases hs
  · rename_i ha
    cases hs
    refine (if_neg ha).trans (congrArg some ?_)
    simp only [Sys.readOn_nodes, readOn_log]
    unfold Sys.readOn Sys.setNode
    congr 1
    funext q
    rcases eq_or_ne q p with rfl | hq
    · simp only [update_self, readOn_none]
    · simp only [update_of_ne hq]

/-- A step that changes one node. -/
theorem acc_of_update {p q : NodeId} {nd : PNode} (hn : s'.nodes = update s.nodes q nd)
    (h : p = q → nd.acc = (s.nodes q).acc) : (s'.nodes p).acc = (s.nodes p).acc := by
  rw [hn]
  rcases eq_or_ne p q with rfl | hne
  · rw [update_self, h rfl]
  · rw [update_of_ne hne]

/-- The acceptors that a step does not use. -/
theorem acc_of_step {e : Event} {p : NodeId} (hp : e.plain = true)
    (hu : p ∉ e.usesAcceptor) (hs : step first v₀ s e = some s') :
    (s'.nodes p).acc = (s.nodes p).acc := by
  cases trans_of_step hs with
  | run | call | bindFails | bindAborts => exact acc_of_update rfl fun _ => rfl
  | servePrepare | serveAccept | serveDecide =>
    exact acc_of_update rfl fun h => absurd (congrArg some h.symm) hu
  | learnOld _ _ _ ho =>
    refine acc_of_update rfl fun h => absurd ?_ hu
    simp [Event.usesAcceptor, ho, h]
  | promised | accepted | fails | upcall | crash => exact acc_of_update rfl fun _ => rfl
  | restart => cases hp
  | dump => rfl
  | restore => cases hp

end Yfs.Paxos
