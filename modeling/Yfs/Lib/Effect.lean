/-
Yfs.Lib.Effect — programs that work on an environment through calls.

A program either returns or makes a call and goes on with the reply, so it
says everything the code decides and nothing about who answers. There are
two ways to answer.

* `Path p es a`: any reply is possible. A path is the list of calls with
  the replies they got; what holds on every path holds whatever the
  environment does.
* `run serve p`: a state answers, `serve` being one call.

`Path` is inverted call by call (`path_ask_iff`) and along `>>=`
(`Path.of_bind`). A run is computed along `>>=` (`run_bind`), and it takes
one of the paths (`exists_path_run`).
-/
import Mathlib

namespace Yfs.Effect

/-- A program over the calls `Call`, a call `c` being answered in
`Reply c`. -/
inductive Prog (Call : Type) (Reply : Call → Type) (α : Type) : Type
  | ret (a : α)
  | ask (c : Call) (k : Reply c → Prog Call Reply α)

namespace Prog

variable {Call : Type} {Reply : Call → Type} {α β σ : Type}

def bind : Prog Call Reply α → (α → Prog Call Reply β) → Prog Call Reply β
  | ret a, f => f a
  | ask c k, f => ask c fun r => (k r).bind f

instance : Monad (Prog Call Reply) where
  pure := ret
  bind := bind

@[simp] theorem pure_eq (a : α) : (Pure.pure a : Prog Call Reply α) = ret a := rfl

@[simp] theorem ret_bind (a : α) (f : α → Prog Call Reply β) : (ret a >>= f) = f a := rfl

@[simp] theorem ask_bind (c : Call) (k : Reply c → Prog Call Reply α)
    (f : α → Prog Call Reply β) : (ask c k >>= f) = ask c fun r => k r >>= f := rfl

theorem bind_assoc {γ : Type} (p : Prog Call Reply α) (f : α → Prog Call Reply β)
    (g : β → Prog Call Reply γ) : (p >>= f) >>= g = p >>= fun a => f a >>= g := by
  induction p with
  | ret a => rfl
  | ask c k ih =>
    simp only [ask_bind]
    exact congrArg (ask c) (funext ih)

/-! ## Any replies -/

/-- The program makes these calls, gets these replies and returns `a`. -/
inductive Path : Prog Call Reply α → List (Σ c, Reply c) → α → Prop
  | ret (a : α) : Path (ret a) [] a
  | ask {c : Call} {k : Reply c → Prog Call Reply α} {es : List (Σ c, Reply c)} {a : α}
      (r : Reply c) : Path (k r) es a → Path (ask c k) (⟨c, r⟩ :: es) a

@[simp] theorem path_ret_iff {a b : α} {es : List (Σ c, Reply c)} :
    Path (ret a) es b ↔ es = [] ∧ b = a := by
  constructor
  · intro h
    cases h
    exact ⟨rfl, rfl⟩
  · rintro ⟨rfl, rfl⟩
    exact .ret _

@[simp] theorem path_ask_iff {c : Call} {k : Reply c → Prog Call Reply α}
    {es : List (Σ c, Reply c)} {a : α} :
    Path (ask c k) es a ↔ ∃ r es', es = ⟨c, r⟩ :: es' ∧ Path (k r) es' a := by
  constructor
  · intro h
    cases h with
    | ask r h => exact ⟨r, _, rfl, h⟩
  · rintro ⟨r, es', rfl, h⟩
    exact .ask r h

theorem Path.of_bind {p : Prog Call Reply α} {f : α → Prog Call Reply β}
    {es : List (Σ c, Reply c)} {b : β} (h : Path (p >>= f) es b) :
    ∃ es₁ es₂ a, es = es₁ ++ es₂ ∧ Path p es₁ a ∧ Path (f a) es₂ b := by
  induction p generalizing es with
  | ret a => exact ⟨[], es, a, rfl, .ret a, h⟩
  | ask c k ih =>
    rw [ask_bind, path_ask_iff] at h
    obtain ⟨r, es', rfl, h⟩ := h
    obtain ⟨es₁, es₂, a, rfl, hp, hf⟩ := ih r h
    exact ⟨⟨c, r⟩ :: es₁, es₂, a, rfl, .ask r hp, hf⟩

/-! ## Replies from a state -/

def run (serve : (c : Call) → σ → Reply c × σ) : Prog Call Reply α → σ → α × σ
  | ret a, s => (a, s)
  | ask c k, s => run serve (k (serve c s).1) (serve c s).2

variable {serve : (c : Call) → σ → Reply c × σ}

@[simp] theorem run_ret (a : α) (s : σ) : run serve (ret a) s = (a, s) := rfl

@[simp] theorem run_ask (c : Call) (k : Reply c → Prog Call Reply α) (s : σ) :
    run serve (ask c k) s = run serve (k (serve c s).1) (serve c s).2 := rfl

@[simp] theorem run_bind (p : Prog Call Reply α) (f : α → Prog Call Reply β) (s : σ) :
    run serve (p >>= f) s = run serve (f (run serve p s).1) (run serve p s).2 := by
  induction p generalizing s with
  | ret a => rfl
  | ask c k ih => exact ih (serve c s).1 (serve c s).2

/-- The replies on a path are those the state gives, and it ends as `s'`. -/
def Answered (serve : (c : Call) → σ → Reply c × σ) : σ → List (Σ c, Reply c) → σ → Prop
  | s, [], s' => s' = s
  | s, ⟨c, r⟩ :: es, s' => r = (serve c s).1 ∧ Answered serve (serve c s).2 es s'

/-- A run takes one of the paths. -/
theorem exists_path_run (p : Prog Call Reply α) (s : σ) :
    ∃ es, Path p es (run serve p s).1 ∧ Answered serve s es (run serve p s).2 := by
  induction p generalizing s with
  | ret a => exact ⟨[], .ret a, rfl⟩
  | ask c k ih =>
    obtain ⟨es, hpath, hanswered⟩ := ih (serve c s).1 (serve c s).2
    exact ⟨⟨c, (serve c s).1⟩ :: es, .ask _ hpath, rfl, hanswered⟩

end Prog

end Yfs.Effect
