/-
Yfs.Paxos.Agreement — acceptors that have committed an instance hold the
same value, if their steps are orderly; and the run in which they are not.
-/
import Yfs.Paxos.Invariant

namespace Yfs.Paxos

open Yfs.Run

/-- **Agreement.** Whatever is lost, delayed, duplicated or reordered, and
whoever crashes and restarts: in every state of a run with orderly steps,
two acceptors that have committed an instance hold the same value. -/
theorem committed_values_agree {first : NodeId} {v₀ : Value} {s : Sys}
    (h : Reach (step first v₀) (fun s e => SameMembers first s e ∧ Orderly s e)
      (Sys.init first v₀) s) {a b : NodeId} {i : Nat} {v w : Value}
    (hv : (s.nodes a).acc.values i = some v) (hw : (s.nodes b).acc.values i = some w) : v = w := by
  have hinv := Inv.reach h
  exact hinv.sound.decided_unique ((hinv.node a).acc.decided i v hv)
    ((hinv.node b).acc.decided i w hw)

/-! ## Runs of three nodes -/

/-- `b` and `c` learn of instance 1 from `a`; `c` gets `x` decided in
instance 2, without `b`. -/
def twoInstances : List Event :=
  [.run ['b'] 1 [['a']] ['y']] ++
  prepareAt ['b'] ⟨0, 0, ['a'], 1, ⟨1, ['b']⟩⟩ ⟨true, false, ⟨0, []⟩, ['a']⟩ ++
  [.run ['c'] 1 [['a']] ['x']] ++
  prepareAt ['c'] ⟨1, 1, ['a'], 1, ⟨1, ['c']⟩⟩ ⟨true, false, ⟨0, []⟩, ['a']⟩ ++
  [.run ['c'] 2 [['a'], ['b'], ['c']] ['x']] ++
  prepareAt ['c'] ⟨2, 2, ['a'], 2, ⟨2, ['c']⟩⟩ ⟨false, true, ⟨0, ['a']⟩, []⟩ ++
  prepareAt ['c'] ⟨3, 2, ['b'], 2, ⟨2, ['c']⟩⟩ ⟨false, true, ⟨0, ['b']⟩, []⟩ ++
  prepareAt ['c'] ⟨4, 2, ['c'], 2, ⟨2, ['c']⟩⟩ ⟨false, true, ⟨0, ['c']⟩, []⟩ ++
  acceptAt ['c'] ⟨5, 2, ['a'], 2, ⟨2, ['c']⟩, ['x']⟩ ++
  -- the accept request to `b` is delayed
  [.call ['c'], .fails ['c']] ++
  acceptAt ['c'] ⟨7, 2, ['c'], 2, ⟨2, ['c']⟩, ['x']⟩ ++
  decideAt ['c'] ⟨8, 2, ['a'], 2, ['x']⟩ ++
  decideAt ['c'] ⟨9, 2, ['c'], 2, ['x']⟩

/-- `b` learns of instance 2; `a` and `b` vote for `y` in instance 3 and `a`
commits it. The delayed request of instance 2 then replaces `b`'s vote, and
`c` finds `x` there. -/
def staleAccept : List Event :=
  [.run ['b'] 2 [['a'], ['b'], ['c']] ['y']] ++
  prepareAt ['b'] ⟨10, 3, ['a'], 2, ⟨3, ['b']⟩⟩ ⟨true, false, ⟨0, []⟩, ['x']⟩ ++
  [.run ['a'] 3 [['a'], ['b'], ['c']] ['y']] ++
  prepareAt ['a'] ⟨11, 4, ['a'], 3, ⟨1, ['a']⟩⟩ ⟨false, true, ⟨0, ['a']⟩, []⟩ ++
  prepareAt ['a'] ⟨12, 4, ['b'], 3, ⟨1, ['a']⟩⟩ ⟨false, true, ⟨0, ['b']⟩, []⟩ ++
  [.call ['a'], .fails ['a']] ++
  acceptAt ['a'] ⟨14, 4, ['a'], 3, ⟨1, ['a']⟩, ['y']⟩ ++
  acceptAt ['a'] ⟨15, 4, ['b'], 3, ⟨1, ['a']⟩, ['y']⟩ ++
  decideAt ['a'] ⟨16, 4, ['a'], 3, ['y']⟩ ++
  [.handle (.accept ⟨6, 2, ['b'], 2, ⟨2, ['c']⟩, ['x']⟩)] ++
  [.run ['c'] 3 [['a'], ['b'], ['c']] ['z']] ++
  [.call ['c'], .fails ['c']] ++
  prepareAt ['c'] ⟨18, 5, ['b'], 3, ⟨3, ['c']⟩⟩ ⟨false, true, ⟨2, ['c']⟩, ['x']⟩ ++
  prepareAt ['c'] ⟨19, 5, ['c'], 3, ⟨3, ['c']⟩⟩ ⟨false, true, ⟨0, ['c']⟩, []⟩ ++
  acceptAt ['c'] ⟨20, 5, ['b'], 3, ⟨3, ['c']⟩, ['x']⟩ ++
  acceptAt ['c'] ⟨21, 5, ['c'], 3, ⟨3, ['c']⟩, ['x']⟩ ++
  [.call ['c'], .fails ['c']] ++
  decideAt ['c'] ⟨23, 5, ['c'], 3, ['x']⟩

/-- The first node and `c` have both committed instance 2. -/
theorem committed_values_agree_twoInstances :
    ∃ s, Reach (step ['a'] ['a']) (fun s e => SameMembers ['a'] s e ∧ Orderly s e)
      (Sys.init ['a'] ['a']) s ∧
      ∃ v w, (s.nodes ['a']).acc.values 2 = some v ∧ (s.nodes ['c']).acc.values 2 = some w ∧
        v = w := by
  obtain ⟨s, hr, ha, hc⟩ :
      ∃ s, Reach (step ['a'] ['a']) (fun s e => SameMembers ['a'] s e ∧ Orderly s e)
        (Sys.init ['a'] ['a']) s ∧
        ((s.nodes ['a']).acc.values 2).isSome = true ∧
        ((s.nodes ['c']).acc.values 2).isSome = true :=
    exists_reach twoInstances (by decide +kernel)
  obtain ⟨v, hv⟩ := Option.isSome_iff_exists.mp ha
  obtain ⟨w, hw⟩ := Option.isSome_iff_exists.mp hc
  exact ⟨s, hr, v, w, hv, hw, committed_values_agree hr hv hw⟩

/-- **The code as it is does not agree**: a request delayed from instance 2
is accepted in instance 3. -/
theorem stale_accept_disagrees :
    ¬ ∀ (first : NodeId) (v₀ : Value) (s : Sys),
      Reach (step first v₀) (SameMembers first) (Sys.init first v₀) s →
      ∀ (a b : NodeId) (i : Nat) (v w : Value), (s.nodes a).acc.values i = some v →
        (s.nodes b).acc.values i = some w → v = w := by
  intro hagree
  obtain ⟨s, hr, ha, hc⟩ :
      ∃ s, Reach (step ['a'] ['a']) (SameMembers ['a']) (Sys.init ['a'] ['a']) s ∧
        (s.nodes ['a']).acc.values 3 = some ['y'] ∧ (s.nodes ['c']).acc.values 3 = some ['x'] :=
    exists_reach (twoInstances ++ staleAccept) (by decide +kernel)
  have hxy := hagree ['a'] ['a'] s hr ['a'] ['c'] 3 ['y'] ['x'] ha hc
  exact absurd hxy (by decide)

end Yfs.Paxos
