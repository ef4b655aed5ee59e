/-
Yfs.Paxos.Acceptor — proposal numbers, the acceptor and its log
(paxos.cc, log.cc).

The acceptor holds the state of ONE instance at a time, `instanceH + 1`:
`commit_wo` resets `n_h`, `n_a` and `v_a` when an instance is decided. The
log is the list of its records in the order they were written; `logread`
applies them one by one to the acceptor as it stands.

A number whose counter is 0 stands for none. Its name part is left over
from earlier (`logread` resets only the counter), so what an acceptor
holds about the instance at hand is its `Core`, which forgets it. The core
can be read off the log (`Acceptor.LogOk`), which is why a restart loses
nothing.
-/
import Yfs.Lib.Words

namespace Yfs.Paxos

open Function

/-- `std::string`, the address of a node. -/
abbrev NodeId := List Char

/-- `std::string`, a value; the empty one stands for none. -/
abbrev Value := List Char

def isspace (c : Char) : Bool :=
  c == ' ' || c == '\t' || c == '\n' || c == '\x0b' || c == '\x0c' || c == '\r'

/-- A name that survives being written and read. -/
abbrev IsName (m : NodeId) : Prop := Words.IsWord isspace m

/-! ## Proposal numbers -/

structure PropT where
  n : Nat
  m : NodeId
  deriving DecidableEq, Repr

/-- `operator>`. -/
def PropT.gt (a b : PropT) : Bool := decide (b.n < a.n) || (a.n == b.n && decide (b.m < a.m))

/-- `operator>=`. -/
def PropT.ge (a b : PropT) : Bool := decide (b.n < a.n) || (a.n == b.n && decide (b.m ≤ a.m))

theorem PropT.toLex_injective :
    Function.Injective fun p : PropT => (toLex (p.n, p.m) : Nat ×ₗ List Char) := by
  intro a b hab
  have hpair : (a.n, a.m) = (b.n, b.m) := toLex.injective hab
  cases a
  cases b
  simpa using hpair

/-- Numbers are ordered by counter, then by name. -/
instance : LinearOrder PropT :=
  LinearOrder.lift' (fun p : PropT => (toLex (p.n, p.m) : Nat ×ₗ List Char)) PropT.toLex_injective

variable {a b : PropT} {file : List LogRec}

theorem PropT.lt_iff : a < b ↔ a.n < b.n ∨ (a.n = b.n ∧ a.m < b.m) := by
  show (toLex (a.n, a.m) : Nat ×ₗ List Char) < toLex (b.n, b.m) ↔ _
  rw [Prod.Lex.toLex_lt_toLex]

theorem PropT.le_iff : a ≤ b ↔ a.n < b.n ∨ (a.n = b.n ∧ a.m ≤ b.m) := by
  show (toLex (a.n, a.m) : Nat ×ₗ List Char) ≤ toLex (b.n, b.m) ↔ _
  rw [Prod.Lex.toLex_le_toLex]

@[simp] theorem PropT.gt_iff : a.gt b = true ↔ b < a := by
  rw [PropT.lt_iff, eq_comm (a := b.n)]
  simp [PropT.gt]

@[simp] theorem PropT.ge_iff : a.ge b = true ↔ b ≤ a := by
  rw [PropT.le_iff, eq_comm (a := b.n)]
  simp [PropT.ge]

theorem PropT.n_le_of_le (h : a ≤ b) : a.n ≤ b.n := by
  rcases PropT.le_iff.mp h with hlt | ⟨heq, _⟩
  · exact hlt.le
  · exact heq.le

/-! ## The log and the acceptor -/

/-- The records of the log: `loginstance`, `logprop`, `logaccept`. -/
inductive LogRec where
  | done (instance_ : Nat) (v : Value)
  | propseen (n : PropT)
  | accepted (n : PropT) (v : Value)
  deriving DecidableEq, Repr

structure Acceptor where
  nH : PropT
  nA : PropT
  vA : Value
  instanceH : Nat
  values : Nat → Option Value
  log : List LogRec

structure PrepareRes where
  oldinstance : Bool
  accept : Bool
  nA : PropT
  vA : Value
  deriving DecidableEq, Repr

def Acceptor.readRec (a : Acceptor) : LogRec → Acceptor
  | .done i v =>
    { a with
      values := update a.values i (some v), instanceH := i
      vA := [], nH := ⟨0, a.nH.m⟩, nA := ⟨0, a.nA.m⟩ }
  | .propseen n => { a with nH := n }
  | .accepted n v => { a with nA := n, vA := v }

def Acceptor.logread (a : Acceptor) (file : List LogRec) : Acceptor := file.foldl readRec a

def Acceptor.blank (me : NodeId) (file : List LogRec) : Acceptor :=
  { nH := ⟨0, me⟩, nA := ⟨0, me⟩, vA := [], instanceH := 0, values := fun _ => none, log := file }

/-- `acceptor::acceptor`, with what the log file holds. -/
def Acceptor.new (me : NodeId) (first : Bool) (value : Value) (file : List LogRec) : Acceptor :=
  let a := (Acceptor.blank me file).logread file
  if a.instanceH = 0 ∧ first then
    { a with
      values := update a.values 1 (some value), log := a.log ++ [.done 1 value]
      instanceH := 1 }
  else a

/-- `values[i]`, which reads as the empty string when there is none. The
empty entry that `operator[]` leaves behind then is not modelled: reading
goes through `value`, which does not tell the two apart. -/
def Acceptor.value (a : Acceptor) (i : Nat) : Value := (a.values i).getD []

def Acceptor.preparereq (a : Acceptor) (inst : Nat) (n : PropT) : PrepareRes × Acceptor :=
  if inst ≤ a.instanceH then (⟨true, false, ⟨0, []⟩, a.value inst⟩, a)
  else if n.gt a.nH then
    (⟨false, true, a.nA, a.vA⟩, { a with nH := n, log := a.log ++ [.propseen n] })
  else (⟨false, false, a.nA, a.vA⟩, a)

/-- `acceptreq`. The instance in the request is not looked at. -/
def Acceptor.acceptreq (a : Acceptor) (n : PropT) (v : Value) : Bool × Acceptor :=
  if n.ge a.nH then
    (true, { a with nA := n, vA := v, log := a.log ++ [.accepted n v] })
  else (false, a)

def Acceptor.commitWo (me : NodeId) (a : Acceptor) (inst : Nat) (v : Value) : Acceptor :=
  if a.instanceH < inst then
    { values := update a.values inst (some v), log := a.log ++ [.done inst v]
      instanceH := inst, nH := ⟨0, me⟩, nA := ⟨0, me⟩, vA := [] }
  else a

def Acceptor.decidereq (me : NodeId) (a : Acceptor) (inst : Nat) (v : Value) : Option Acceptor :=
  if inst = a.instanceH + 1 then
    if a.vA = v then some (a.commitWo me inst a.vA) else none
  else if inst ≤ a.instanceH then some a
  else none

/-- `acceptor::restore`: the file is replaced and read over the present
state. -/
def Acceptor.restore (a : Acceptor) (file : List LogRec) : Acceptor :=
  { a with log := file }.logread file

/-! ## What the acceptor holds about the instance at hand -/

def PropT.used (p : PropT) : Option PropT := if p.n = 0 then none else some p

theorem PropT.used_eq_some {p q : PropT} : p.used = some q ↔ p = q ∧ q.n ≠ 0 := by
  unfold PropT.used
  split
  · rename_i hz
    simp only [reduceCtorEq, false_iff, not_and, not_not]
    rintro rfl
    exact hz
  · rename_i hz
    simp only [Option.some.injEq]
    constructor
    · rintro rfl
      exact ⟨rfl, hz⟩
    · exact And.left

theorem PropT.used_of_ne {p : PropT} (h : p.n ≠ 0) : p.used = some p :=
  PropT.used_eq_some.mpr ⟨rfl, h⟩

@[simp] theorem PropT.used_zero (m : NodeId) : (⟨0, m⟩ : PropT).used = none := rfl

/-- The highest decided instance, the number promised and the proposal
accepted in the next one. -/
@[ext]
structure Core where
  instanceH : Nat
  promised : Option PropT
  accepted : Option (PropT × Value)

def Acceptor.core (a : Acceptor) : Core :=
  ⟨a.instanceH, a.nH.used, a.nA.used.map fun n => (n, a.vA)⟩

def Core.readRec (c : Core) : LogRec → Core
  | .done i _ => ⟨i, none, none⟩
  | .propseen n => { c with promised := n.used }
  | .accepted n v => { c with accepted := n.used.map fun n => (n, v) }

def Core.ofLog (file : List LogRec) : Core := file.foldl Core.readRec ⟨0, none, none⟩

theorem Core.ofLog_concat (file : List LogRec) (r : LogRec) :
    Core.ofLog (file ++ [r]) = (Core.ofLog file).readRec r := by
  simp [Core.ofLog]

@[simp] theorem core_readRec (a : Acceptor) (r : LogRec) :
    (a.readRec r).core = a.core.readRec r := by
  cases r <;> rfl

theorem core_logread (a : Acceptor) (file : List LogRec) :
    (a.logread file).core = file.foldl Core.readRec a.core := by
  induction file generalizing a with
  | nil => rfl
  | cons r file ih =>
    show ((a.readRec r).logread file).core = _
    rw [ih, core_readRec]
    rfl

def Acceptor.LogOk (a : Acceptor) : Prop := Core.ofLog a.log = a.core

theorem logread_log (a : Acceptor) (file : List LogRec) : (a.logread file).log = a.log := by
  induction file generalizing a with
  | nil => rfl
  | cons r file ih =>
    show ((a.readRec r).logread file).log = _
    rw [ih]
    cases r <;> rfl

/-- The values after reading a log are those from before and those of the
log. -/
theorem logread_values {a : Acceptor} {i : Nat} {v : Value}
    (h : (a.logread file).values i = some v) : a.values i = some v ∨ .done i v ∈ file := by
  induction file generalizing a with
  | nil => exact .inl h
  | cons r file ih =>
    rcases ih (a := a.readRec r) h with hv | hmem
    · cases r with
      | done j w =>
        replace hv : update a.values j (some w) i = some v := hv
        by_cases hij : i = j
        · subst hij
          rw [update_self] at hv
          cases hv
          exact .inr List.mem_cons_self
        · rw [update_of_ne hij] at hv
          exact .inl hv
      | propseen n => exact .inl hv
      | accepted n w => exact .inl hv
    · exact .inr (List.mem_cons_of_mem _ hmem)

def numbered : LogRec → Bool
  | .done i _ => decide (i ≠ 0)
  | _ => true

/-- Instances are numbered from 1. The acceptor writes no other record. -/
def Numbered (file : List LogRec) : Prop := ∀ r ∈ file, numbered r = true

instance (file : List LogRec) : Decidable (Numbered file) := by
  unfold Numbered
  infer_instance

theorem logread_values_zero {a : Acceptor} (h : a.values 0 = none) (hf : Numbered file) :
    (a.logread file).values 0 = none := by
  cases hv : (a.logread file).values 0 with
  | none => rfl
  | some v =>
    rcases logread_values hv with hold | hnew
    · cases h.symm.trans hold
    · exact absurd (hf _ hnew) (by simp [numbered])

/-- Reading a log loses no value. -/
theorem logread_values_isSome {a : Acceptor} {i : Nat}
    (h : (a.values i).isSome = true ∨ ∃ v, .done i v ∈ file) :
    ((a.logread file).values i).isSome = true := by
  induction file generalizing a with
  | nil =>
    rcases h with h | ⟨v, hv⟩
    · exact h
    · cases hv
  | cons r file ih =>
    show (((a.readRec r).logread file).values i).isSome = true
    refine ih ?_
    rcases h with h | ⟨v, hv⟩
    · left
      cases r with
      | done j w =>
        show (update a.values j (some w) i).isSome = true
        by_cases hij : i = j
        · rw [hij, update_self]
          rfl
        · rwa [update_of_ne hij]
      | propseen n => exact h
      | accepted n w => exact h
    · rcases List.mem_cons.mp hv with rfl | hv
      · left
        show (update a.values i (some v) i).isSome = true
        rw [update_self]
        rfl
      · exact .inr ⟨v, hv⟩

/-! ## The handlers on the core -/

/-- `preparereq` answers for an old instance, promises, or refuses. -/
theorem preparereq_cases (a : Acceptor) (inst : Nat) (n : PropT) :
    (inst ≤ a.instanceH ∧ a.preparereq inst n = (⟨true, false, ⟨0, []⟩, a.value inst⟩, a)) ∨
    (a.instanceH < inst ∧ a.nH < n ∧ a.preparereq inst n =
      (⟨false, true, a.nA, a.vA⟩, { a with nH := n, log := a.log ++ [.propseen n] })) ∨
    (a.instanceH < inst ∧ ¬ a.nH < n ∧ a.preparereq inst n = (⟨false, false, a.nA, a.vA⟩, a)) := by
  unfold Acceptor.preparereq
  split
  · rename_i hle
    exact .inl ⟨hle, rfl⟩
  · rename_i hlt
    split
    · rename_i hgt
      exact .inr (.inl ⟨Nat.lt_of_not_le hlt, PropT.gt_iff.mp hgt, rfl⟩)
    · rename_i hgt
      exact .inr (.inr ⟨Nat.lt_of_not_le hlt, fun h => hgt (PropT.gt_iff.mpr h), rfl⟩)

theorem acceptreq_cases (a : Acceptor) (n : PropT) (v : Value) :
    (a.nH ≤ n ∧ a.acceptreq n v =
      (true, { a with nA := n, vA := v, log := a.log ++ [.accepted n v] })) ∨
    (¬ a.nH ≤ n ∧ a.acceptreq n v = (false, a)) := by
  unfold Acceptor.acceptreq
  split
  · rename_i hge
    exact .inl ⟨PropT.ge_iff.mp hge, rfl⟩
  · rename_i hge
    exact .inr ⟨fun h => hge (PropT.ge_iff.mpr h), rfl⟩

theorem commitWo_cases (me : NodeId) (a : Acceptor) (inst : Nat) (v : Value) :
    (inst ≤ a.instanceH ∧ a.commitWo me inst v = a) ∨
    (a.instanceH < inst ∧ (a.commitWo me inst v).core = ⟨inst, none, none⟩ ∧
      (a.commitWo me inst v).log = a.log ++ [.done inst v] ∧
      (a.commitWo me inst v).values = update a.values inst (some v)) := by
  unfold Acceptor.commitWo
  split
  · rename_i hlt
    exact .inr ⟨hlt, rfl, rfl, rfl⟩
  · rename_i hle
    exact .inl ⟨Nat.le_of_not_lt hle, rfl⟩

/-- `decidereq` commits the value it is told, or does nothing. -/
theorem decidereq_some {me : NodeId} {a a' : Acceptor} {inst : Nat} {v : Value}
    (h : a.decidereq me inst v = some a') :
    a' = a ∨ (inst = a.instanceH + 1 ∧ a.vA = v ∧ a' = a.commitWo me inst v) := by
  unfold Acceptor.decidereq at h
  split at h
  · rename_i hi
    split at h
    · rename_i hv
      cases h
      exact .inr ⟨hi, hv, by rw [hv]⟩
    · cases h
  · split at h
    · exact .inl (Option.some.inj h).symm
    · cases h

end Yfs.Paxos
