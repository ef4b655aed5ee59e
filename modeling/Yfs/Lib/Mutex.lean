/-
Yfs.Lib.Mutex — code that takes and gives back one mutex by hand.

`Code σ α` is a function body over data `σ` that a mutex guards. It returns,
or waits for ever because the mutex is held, or stops the process. Nothing
gives the mutex back but `unlock`: a body that returns early keeps it, as in
C. `scopeLock` is the guard object whose destructor unlocks.
-/
import Mathlib

namespace Yfs.Mutex

variable {σ α β : Type}

inductive Ending (α : Type) where
  | returned (a : α)
  | blocked
  | aborted

def Ending.map (f : α → β) : Ending α → Ending β
  | .returned a => .returned (f a)
  | .blocked => .blocked
  | .aborted => .aborted

structure Guarded (σ : Type) where
  held : Bool
  data : σ

def Code (σ α : Type) : Type := Guarded σ → Ending (α × Guarded σ)

namespace Code

protected def pure (a : α) : Code σ α := fun s => .returned (a, s)

protected def bind (c : Code σ α) (k : α → Code σ β) : Code σ β := fun s =>
  match c s with
  | .returned (a, s') => k a s'
  | .blocked => .blocked
  | .aborted => .aborted

instance : Monad (Code σ) where
  pure := Code.pure
  bind := Code.bind

def lock : Code σ Unit := fun s => if s.held then .blocked else .returned ((), ⟨true, s.data⟩)

def unlock : Code σ Unit := fun s => .returned ((), ⟨false, s.data⟩)

def read : Code σ σ := fun s => .returned (s.data, s)

def write (d : σ) : Code σ Unit := fun s => .returned ((), ⟨s.held, d⟩)

def verify : Option α → Code σ α
  | some a => Code.pure a
  | none => fun _ => .aborted

def scopeLock (body : Code σ α) : Code σ α := do
  lock
  let a ← body
  unlock
  pure a

/-! ## Symbolic execution -/

@[simp] theorem pure_run (a : α) (s : Guarded σ) : (pure a : Code σ α) s = .returned (a, s) := rfl

theorem bind_run (c : Code σ α) (k : α → Code σ β) (s : Guarded σ) :
    (c >>= k) s = match c s with
      | .returned (a, s') => k a s'
      | .blocked => .blocked
      | .aborted => .aborted := rfl

@[simp] theorem lock_free (d : σ) : (lock : Code σ Unit) ⟨false, d⟩ = .returned ((), ⟨true, d⟩) :=
  rfl

@[simp] theorem unlock_run (s : Guarded σ) :
    (unlock : Code σ Unit) s = .returned ((), ⟨false, s.data⟩) := rfl

@[simp] theorem read_run (s : Guarded σ) : (read : Code σ σ) s = .returned (s.data, s) := rfl

@[simp] theorem write_run (d : σ) (s : Guarded σ) :
    (write d : Code σ Unit) s = .returned ((), ⟨s.held, d⟩) := rfl

@[simp] theorem verify_some (a : α) (s : Guarded σ) :
    (verify (some a) : Code σ α) s = .returned (a, s) := rfl

@[simp] theorem verify_none (s : Guarded σ) : (verify none : Code σ α) s = .aborted := rfl

theorem lock_bind_free (k : Unit → Code σ α) (d : σ) :
    (lock >>= k) ⟨false, d⟩ = k () ⟨true, d⟩ := rfl

/-- A guard object gives the mutex back on every way out of its scope. -/
theorem scopeLock_run (body : Code σ α) (d : σ) :
    scopeLock body ⟨false, d⟩ = match body ⟨true, d⟩ with
      | .returned (a, s') => .returned (a, ⟨false, s'.data⟩)
      | .blocked => .blocked
      | .aborted => .aborted := by
  rw [scopeLock, lock_bind_free, bind_run]
  cases body ⟨true, d⟩ <;> rfl

end Code

end Yfs.Mutex
