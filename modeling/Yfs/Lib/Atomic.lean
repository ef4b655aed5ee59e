/-
Yfs.Lib.Atomic — operations that overlap and still are atomic.

A user of a shared object sees calls and returns, and nothing of what happens
in between. In the ATOMIC object an operation is one step somewhere between
its call and its return (`Move.effect`); which one comes first is open as long
as both are under way. A history that the atomic object can show is
linearizable.

`linearizable_of_simulation` is the rule: a system whose steps are matched,
one by one, by moves of the atomic object, or by none, shows linearizable
histories only. A step that is not a call or a return may be matched by an
effect, which is where the operation is done.
-/
import Yfs.Lib.Run

namespace Yfs.Atomic

variable {σ ε ν τ Q A : Type*}

inductive Action (τ Q A : Type*) where
  | call (t : τ) (q : Q)
  | ret (t : τ) (a : A)
  deriving DecidableEq

/-! ## Histories of a system -/

/-- A run every step of which meets `ok`, with the actions it shows. -/
inductive Shows (step : σ → ε → Option σ) (ok : σ → ε → Prop)
    (out : σ → ε → Option (Action τ Q A)) (s₀ : σ) : List (Action τ Q A) → σ → Prop
  | init : Shows step ok out s₀ [] s₀
  | step {as : List (Action τ Q A)} {s s' : σ} {e : ε} :
      Shows step ok out s₀ as s → ok s e → step s e = some s' →
      Shows step ok out s₀ (as ++ (out s e).toList) s'

def actions (step : σ → ε → Option σ) (out : σ → ε → Option (Action τ Q A)) :
    σ → List ε → List (Action τ Q A)
  | _, [] => []
  | s, e :: es =>
    (out s e).toList ++
      match step s e with
      | none => []
      | some s' => actions step out s' es

/-- An evaluated run shows its actions. -/
theorem Shows.execIf {step : σ → ε → Option σ} {ok : σ → ε → Prop} [∀ s e, Decidable (ok s e)]
    {out : σ → ε → Option (Action τ Q A)} {s₀ s s' : σ} {as : List (Action τ Q A)}
    (h : Shows step ok out s₀ as s) :
    ∀ {es : List ε}, Run.execIf step ok s es = some s' →
      Shows step ok out s₀ (as ++ actions step out s es) s' := by
  intro es
  induction es generalizing s as with
  | nil =>
    intro he
    obtain rfl : s = s' := by simpa [Run.execIf] using he
    simpa [actions] using h
  | cons e es ih =>
    intro he
    simp only [Run.execIf] at he
    split at he
    · rename_i hok
      obtain ⟨t, hst, hrest⟩ := Option.bind_eq_some_iff.mp he
      have hall := ih (h.step hok hst) hrest
      rwa [List.append_assoc, show (out s e).toList ++ actions step out t es =
        actions step out s (e :: es) by simp only [actions, hst]] at hall
    · cases he

/-- An evaluated run with what it shows. -/
theorem exists_shows_of_execIf {step : σ → ε → Option σ} {ok : σ → ε → Prop}
    [∀ s e, Decidable (ok s e)] {out : σ → ε → Option (Action τ Q A)} {s₀ : σ} {es : List ε}
    {p : List (Action τ Q A) → Bool}
    (h : ((Run.execIf step ok s₀ es).isSome && p (actions step out s₀ es)) = true) :
    ∃ as s, Shows step ok out s₀ as s ∧ p as = true := by
  obtain ⟨hrun, hp⟩ := Bool.and_eq_true_iff.mp h
  obtain ⟨s, hs⟩ := Option.isSome_iff_exists.mp hrun
  exact ⟨_, s, Shows.init.execIf hs, by simpa using hp⟩

/-! ## The atomic object -/

inductive Phase (Q A : Type*) where
  | idle
  | called (q : Q)
  | done (a : A)
  deriving DecidableEq

structure Obj (ν τ Q A : Type*) where
  value : ν
  phase : τ → Phase Q A

def Obj.init (v : ν) : Obj ν τ Q A := ⟨v, fun _ => .idle⟩

def Obj.setPhase [DecidableEq τ] (o : Obj ν τ Q A) (t : τ) (p : Phase Q A) : Obj ν τ Q A :=
  { o with phase := Function.update o.phase t p }

section

variable [DecidableEq τ] (apply : ν → Q → Option (A × ν))

/-- The moves of the atomic object and what they show; `apply` is an operation
on its own, `none` if it has to wait. -/
inductive Move (o : Obj ν τ Q A) : Option (Action τ Q A) → Obj ν τ Q A → Prop
  | none : Move o .none o
  | call {t : τ} {q : Q} : o.phase t = .idle → Move o (some (.call t q)) (o.setPhase t (.called q))
  | effect {t : τ} {q : Q} {a : A} {v : ν} :
      o.phase t = .called q → apply o.value q = some (a, v) →
      Move o .none ({ o with value := v }.setPhase t (.done a))
  | ret {t : τ} {a : A} : o.phase t = .done a → Move o (some (.ret t a)) (o.setPhase t .idle)

/-- The histories of the atomic object that starts with `v`. -/
inductive History (v : ν) : List (Action τ Q A) → Obj ν τ Q A → Prop
  | init : History v [] (Obj.init v)
  | move {as : List (Action τ Q A)} {o o' : Obj ν τ Q A} {a : Option (Action τ Q A)} :
      History v as o → Move apply o a o' → History v (as ++ a.toList) o'

def Linearizable (v : ν) (as : List (Action τ Q A)) : Prop := ∃ o, History apply v as o

variable {apply} {step : σ → ε → Option σ} {ok : σ → ε → Prop}
  {out : σ → ε → Option (Action τ Q A)} {s₀ s : σ} {v : ν} {as : List (Action τ Q A)}

/-- **Simulation rule**: `R` relates the states of a system to those of the
atomic object, and every step is matched by a move that shows the same. -/
theorem linearizable_of_simulation (R : σ → Obj ν τ Q A → Prop) (h₀ : R s₀ (Obj.init v))
    (hstep : ∀ s e s' o, R s o → ok s e → step s e = some s' →
      ∃ o', Move apply o (out s e) o' ∧ R s' o')
    (h : Shows step ok out s₀ as s) : ∃ o, R s o ∧ History apply v as o := by
  induction h with
  | init => exact ⟨_, h₀, .init⟩
  | step _ hok hs ih =>
    obtain ⟨o, hR, hist⟩ := ih
    obtain ⟨o', hmove, hR'⟩ := hstep _ _ _ o hR hok hs
    exact ⟨o', hR', hist.move hmove⟩

end

end Yfs.Atomic
