/-
Yfs.Paxos.Restore — when taking over another node's log keeps what the
acceptor has promised and accepted.

`rsm::join` ends with `acceptor::restore`: the file of the node is replaced
by the one it was sent and `logread` applies the records to the acceptor
AS IT STANDS. Nothing compares the two logs. A log with a `done` record
overwrites everything but the name part of a number it does not mention
(`logread_of_hasDone`); a log without one overwrites the numbers it mentions
(`logread_of_not_hasDone`).

`restore_notWeaker_iff` reads off when nothing gets lost, and
`join_forgets_vote` is a run in which a member that joins again forgets the
vote it gave while its join was under way.
-/
import Yfs.Paxos.Invariant

namespace Yfs.Paxos

open Yfs.Run

/-! ## What a log mentions -/

def LogRec.isDone : LogRec → Bool
  | .done _ _ => true
  | _ => false

def hasDone (file : List LogRec) : Bool := file.any LogRec.isDone

def LogRec.seen : LogRec → Option PropT
  | .propseen n => some n
  | _ => none

def LogRec.voted : LogRec → Option PropT
  | .accepted n _ => some n
  | _ => none

def lastOf (kind : LogRec → Option PropT) (file : List LogRec) : Option PropT :=
  file.reverse.findSome? kind

theorem hasDone_concat (file : List LogRec) (r : LogRec) :
    hasDone (file ++ [r]) = (hasDone file || r.isDone) := by
  simp [hasDone]

theorem lastOf_concat (kind : LogRec → Option PropT) (file : List LogRec) (r : LogRec) :
    lastOf kind (file ++ [r]) = (kind r).or (lastOf kind file) := by
  simp only [lastOf, List.reverse_append, List.reverse_singleton, List.singleton_append,
    List.findSome?_cons]
  cases kind r <;> rfl

/-! ## What reading a log leaves -/

/-- A number after reading: the one the log holds for its last instance, or
none, with a name left over. -/
def numberAfter (old : PropT) (said last : Option PropT) : PropT :=
  said.getD ⟨0, (last.getD old).m⟩

theorem logread_concat (a : Acceptor) (file : List LogRec) (r : LogRec) :
    a.logread (file ++ [r]) = (a.logread file).readRec r := by
  simp [Acceptor.logread]

/-- A name stays until a number is read over it; `done` leaves it. -/
theorem logread_names (a : Acceptor) (file : List LogRec) :
    (a.logread file).nH.m = ((lastOf LogRec.seen file).getD a.nH).m ∧
    (a.logread file).nA.m = ((lastOf LogRec.voted file).getD a.nA).m := by
  induction file using List.reverseRecOn with
  | nil => exact ⟨rfl, rfl⟩
  | append_singleton file r ih =>
    rw [logread_concat, lastOf_concat, lastOf_concat]
    cases r with
    | done i v => exact ih
    | propseen n => exact ⟨rfl, ih.2⟩
    | accepted n v => exact ⟨ih.1, rfl⟩

/-- A number that was just read. -/
theorem numberAfter_used (old n : PropT) : numberAfter old n.used (some n) = n := by
  unfold numberAfter PropT.used
  split
  · rename_i hz
    cases n
    simp only [Option.getD_none, Option.getD_some, PropT.mk.injEq, and_true]
    exact hz.symm
  · rfl

/-- Reading a log that decides an instance. -/
theorem logread_of_hasDone (a : Acceptor) {file : List LogRec} (h : hasDone file = true) :
    (a.logread file).instanceH = (Core.ofLog file).instanceH ∧
    (a.logread file).nH =
      numberAfter a.nH (Core.ofLog file).promised (lastOf LogRec.seen file) ∧
    (a.logread file).nA =
      numberAfter a.nA ((Core.ofLog file).accepted.map Prod.fst) (lastOf LogRec.voted file) := by
  induction file using List.reverseRecOn with
  | nil => cases h
  | append_singleton file r ih =>
    rw [logread_concat, lastOf_concat, lastOf_concat, Core.ofLog_concat]
    cases r with
    | done i v =>
      obtain ⟨hH, hA⟩ := logread_names a file
      refine ⟨rfl, ?_, ?_⟩
      · exact congrArg (PropT.mk 0) hH
      · exact congrArg (PropT.mk 0) hA
    | propseen n =>
      rw [hasDone_concat] at h
      obtain ⟨hi, _, hA⟩ := ih (by simpa [LogRec.isDone] using h)
      exact ⟨hi, (numberAfter_used a.nH n).symm, hA⟩
    | accepted n v =>
      rw [hasDone_concat] at h
      obtain ⟨hi, hH, _⟩ := ih (by simpa [LogRec.isDone] using h)
      refine ⟨hi, hH, ?_⟩
      have hsaid :
          (((Core.ofLog file).readRec (.accepted n v)).accepted.map Prod.fst) = n.used := by
        show (n.used.map fun n => (n, v)).map Prod.fst = n.used
        cases n.used <;> rfl
      rw [hsaid]
      exact (numberAfter_used a.nA n).symm

/-- Reading a log that decides none. -/
theorem logread_of_not_hasDone (a : Acceptor) {file : List LogRec} (h : hasDone file = false) :
    (a.logread file).instanceH = a.instanceH ∧
    (a.logread file).nH = (lastOf LogRec.seen file).getD a.nH ∧
    (a.logread file).nA = (lastOf LogRec.voted file).getD a.nA := by
  induction file using List.reverseRecOn with
  | nil => exact ⟨rfl, rfl, rfl⟩
  | append_singleton file r ih =>
    rw [hasDone_concat, Bool.or_eq_false_iff] at h
    obtain ⟨hi, hH, hA⟩ := ih h.1
    rw [logread_concat, lastOf_concat, lastOf_concat]
    cases r with
    | done i v => exact absurd h.2 (by simp [LogRec.isDone])
    | propseen n => exact ⟨hi, rfl, hA⟩
    | accepted n v => exact ⟨hi, hH, rfl⟩

/-! ## Joining -/

/-- Nothing `a` has promised or accepted is lost in `a'`. -/
def NotWeaker (a a' : Acceptor) : Prop :=
  a.instanceH ≤ a'.instanceH ∧
    (a'.instanceH = a.instanceH →
      a.nH ≤ a'.nH ∧ a.nA ≤ a'.nA ∧ (a.nA.n ≠ 0 → a'.nA.n ≠ 0))

instance (a a' : Acceptor) : Decidable (NotWeaker a a') := by
  unfold NotWeaker
  infer_instance

/-- The log's number for its last instance is not below `old`. Without one,
`old` must stand for none too, and the name left over not be below its
name. -/
def NotBelow (old : PropT) (said last : Option PropT) : Prop :=
  match said with
  | some n => old ≤ n
  | none => old.n = 0 ∧ ∀ n ∈ last, old.m ≤ n.m

/-- The log decides more instances than the acceptor; or as many, and its
numbers are not below the acceptor's; or none at all, and the numbers it
mentions are not below the acceptor's. -/
def Restorable (a : Acceptor) (file : List LogRec) : Prop :=
  if hasDone file then
    a.instanceH < (Core.ofLog file).instanceH ∨
      (a.instanceH = (Core.ofLog file).instanceH ∧
        NotBelow a.nH (Core.ofLog file).promised (lastOf LogRec.seen file) ∧
        NotBelow a.nA ((Core.ofLog file).accepted.map Prod.fst) (lastOf LogRec.voted file))
  else
    (∀ n ∈ lastOf LogRec.seen file, a.nH ≤ n) ∧ ∀ n ∈ lastOf LogRec.voted file, a.nA ≤ n

theorem le_numberAfter_iff {old : PropT} {said last : Option PropT} :
    old ≤ numberAfter old said last ↔ NotBelow old said last := by
  cases said with
  | some n => exact Iff.rfl
  | none =>
    show old ≤ ⟨0, (last.getD old).m⟩ ↔ old.n = 0 ∧ ∀ n ∈ last, old.m ≤ n.m
    rw [PropT.le_iff]
    cases last with
    | none => simp
    | some n => simp

theorem le_getD_iff {old : PropT} {last : Option PropT} :
    old ≤ last.getD old ↔ ∀ n ∈ last, old ≤ n := by
  cases last <;> simp

/-- A number that has not decreased still stands for one. -/
theorem notWeaker_iff {a a' : Acceptor} :
    NotWeaker a a' ↔ a.instanceH < a'.instanceH ∨
      (a.instanceH = a'.instanceH ∧ a.nH ≤ a'.nH ∧ a.nA ≤ a'.nA) := by
  constructor
  · rintro ⟨hle, hkeep⟩
    rcases hle.lt_or_eq with hlt | heq
    · exact .inl hlt
    · obtain ⟨hH, hA, _⟩ := hkeep heq.symm
      exact .inr ⟨heq, hH, hA⟩
  · rintro (hlt | ⟨heq, hH, hA⟩)
    · exact ⟨hlt.le, fun h => absurd h (by omega)⟩
    · refine ⟨heq.le, fun _ => ⟨hH, hA, fun hn => ?_⟩⟩
      have := PropT.n_le_of_le hA
      omega

/-- **Joining.** `acceptor::restore` keeps what the acceptor has promised
and accepted exactly from the logs that are not behind it. -/
theorem restore_notWeaker_iff (a : Acceptor) (file : List LogRec) :
    NotWeaker a (a.restore file) ↔ Restorable a file := by
  rw [notWeaker_iff]
  unfold Restorable
  split
  · rename_i hd
    obtain ⟨hi, hH, hA⟩ := logread_of_hasDone { a with log := file } hd
    have hi' : (a.restore file).instanceH = (Core.ofLog file).instanceH := hi
    have hH' : (a.restore file).nH = _ := hH
    have hA' : (a.restore file).nA = _ := hA
    rw [hi', hH', hA', le_numberAfter_iff, le_numberAfter_iff]
  · rename_i hd
    obtain ⟨hi, hH, hA⟩ :=
      logread_of_not_hasDone { a with log := file } (Bool.eq_false_iff.mpr hd)
    have hi' : (a.restore file).instanceH = a.instanceH := hi
    have hH' : (a.restore file).nH = _ := hH
    have hA' : (a.restore file).nA = _ := hA
    rw [hi', hH', hA', le_getD_iff, le_getD_iff]
    simp

/-! ## A member that joins again -/

def viewOfTwo : List Event :=
  [.run ['a'] 2 [['a']] ['a', ' ', 'b']] ++
  prepareAt ['a'] ⟨0, 0, ['a'], 2, ⟨1, ['a']⟩⟩ ⟨false, true, ⟨0, ['a']⟩, []⟩ ++
  acceptAt ['a'] ⟨1, 0, ['a'], 2, ⟨1, ['a']⟩, ['a', ' ', 'b']⟩ ++
  decideAt ['a'] ⟨2, 0, ['a'], 2, ['a', ' ', 'b']⟩ ++
  [.dump ['a'], .restore ['b'] [.done 1 ['a'], .propseen ⟨1, ['a']⟩,
    .accepted ⟨1, ['a']⟩ ['a', ' ', 'b'], .done 2 ['a', ' ', 'b']]]

def voteOfB : List Event :=
  [.run ['a'] 3 [['a'], ['b']] ['b']] ++
  prepareAt ['a'] ⟨3, 1, ['a'], 3, ⟨2, ['a']⟩⟩ ⟨false, true, ⟨0, ['a']⟩, []⟩ ++
  prepareAt ['a'] ⟨4, 1, ['b'], 3, ⟨2, ['a']⟩⟩ ⟨false, true, ⟨0, ['a']⟩, []⟩ ++
  acceptAt ['a'] ⟨5, 1, ['a'], 3, ⟨2, ['a']⟩, ['b']⟩ ++
  acceptAt ['a'] ⟨6, 1, ['b'], 3, ⟨2, ['a']⟩, ['b']⟩

/-- **A join forgets a vote**: `b`, a member that has restarted, is sent the
log of `a`, votes, and then reads the log it was sent. -/
theorem join_forgets_vote :
    ¬ ∀ (first : NodeId) (v₀ : Value) (s s' : Sys),
      Reach (step first v₀) (SameMembers first) (Sys.init first v₀) s →
      Reach (step first v₀) (SameMembers first) s s' →
      ∀ p q, p ≠ q →
        NotWeaker (s'.nodes p).acc ((s'.nodes p).acc.restore (s.nodes q).acc.log) := by
  intro hkeeps
  obtain ⟨s, hr, s', hs', hweaker⟩ :
      ∃ s, Reach (step ['a'] ['a']) (SameMembers ['a']) (Sys.init ['a'] ['a']) s ∧
        ∃ s', execIf (step ['a'] ['a']) (SameMembers ['a']) s voteOfB = some s' ∧
          ¬ NotWeaker (s'.nodes ['b']).acc
            ((s'.nodes ['b']).acc.restore (s.nodes ['a']).acc.log) :=
    exists_reach (viewOfTwo ++ [.crash ['b'], .restart ['b']]) (by decide +kernel)
  exact hweaker (hkeeps ['a'] ['a'] s s' hr (Reach.init.execIf hs') ['b'] ['a'] (by decide))

end Yfs.Paxos
