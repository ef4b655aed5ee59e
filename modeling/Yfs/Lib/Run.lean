/-
Yfs.Lib.Run — runs of a partial step function.

A system is given by `step : σ → ε → Option σ`: an event is either
enabled and leads to one state, or it is not enabled. Interleavings,
losses and failures are in the choice of the event list, so every order
of steps is a list and nothing else.

* `exec` runs a list of events.
* `Reach step ok s₀ s` says that some run from `s₀`, EVERY step of which
  meets `ok`, ends in `s`. `fun _ _ => True` gives plain reachability.
* `Always` and `EveryStep` speak about one run: a state predicate at
  every state of the run, a step predicate at every step of it.

`Reach.invariant` packages the induction once: an invariant is two
goals, the initial state and one step. `exists_reach` turns an
evaluated run into a reachable state, which is how concrete traces are
checked by the kernel.
-/
import Mathlib

namespace Yfs.Run

open Function

variable {σ ε : Type*}

/-! ## Running a list of events -/

/-- Run the events in order; `none` as soon as one is not enabled. -/
def exec (step : σ → ε → Option σ) : σ → List ε → Option σ
  | s, [] => some s
  | s, e :: es => (step s e).bind fun s' => exec step s' es

theorem exec_append {step : σ → ε → Option σ} (s : σ) (es fs : List ε) :
    exec step s (es ++ fs) = (exec step s es).bind fun s' => exec step s' fs := by
  induction es generalizing s with
  | nil => rfl
  | cons e es ih =>
    simp only [List.cons_append, exec, Option.bind_assoc]
    exact congrArg _ (funext fun s' => ih s')

variable {s s' : σ} {es : List ε}

/-- A step under a guard that was taken. -/
theorem of_guard {p : Prop} [Decidable p] (h : (if p then some s else none) = some s') :
    p ∧ s = s' := by
  simpa using h

/-- The states of runs from `s₀` whose steps all meet `ok`. -/
inductive Reach (step : σ → ε → Option σ) (ok : σ → ε → Prop) (s₀ : σ) : σ → Prop
  | init : Reach step ok s₀ s₀
  | step {s s' : σ} {e : ε} :
      Reach step ok s₀ s → ok s e → step s e = some s' → Reach step ok s₀ s'

variable {step : σ → ε → Option σ} {ok ok' : σ → ε → Prop} {s₀ : σ}

/-- **Invariant rule**: true at the start and kept by every step that
meets `ok`, so true in every reached state. -/
theorem Reach.invariant (inv : σ → Prop) (h₀ : inv s₀)
    (hstep : ∀ s e s', inv s → ok s e → step s e = some s' → inv s') (h : Reach step ok s₀ s) :
    inv s := by
  induction h with
  | init => exact h₀
  | step _ hok hs ih => exact hstep _ _ _ ih hok hs

theorem Reach.mono (hle : ∀ s e, ok s e → ok' s e) (h : Reach step ok s₀ s) :
    Reach step ok' s₀ s := by
  induction h with
  | init => exact .init
  | step _ hok hs ih => exact ih.step (hle _ _ hok) hs

theorem Reach.trans (h : Reach step ok s₀ s) (h' : Reach step ok s s') : Reach step ok s₀ s' := by
  induction h' with
  | init => exact h
  | step _ hok hs ih => exact ih.step hok hs

/-- **Simulation rule**: what each step does is a step of another system on
the images, or nothing there; so the images of runs are runs. -/
theorem Reach.simulate {τ δ : Type*} {step' : τ → δ → Option τ} {ok' : τ → δ → Prop} (abs : σ → τ)
    (hstep : ∀ s e s', ok s e → step s e = some s' →
      abs s' = abs s ∨ ∃ d, ok' (abs s) d ∧ step' (abs s) d = some (abs s'))
    (h : Reach step ok s₀ s) : Reach step' ok' (abs s₀) (abs s) := by
  induction h with
  | init => exact .init
  | step _ hok hs ih =>
    rcases hstep _ _ _ hok hs with heq | ⟨d, hd, hs'⟩
    · rw [heq]
      exact ih
    · exact ih.step hd hs'

/-- Run the events in order as long as every step meets `ok`. -/
def execIf (step : σ → ε → Option σ) (ok : σ → ε → Prop) [∀ s e, Decidable (ok s e)] :
    σ → List ε → Option σ
  | s, [] => some s
  | s, e :: es => if ok s e then (step s e).bind fun s' => execIf step ok s' es else none

/-- A run continues another: reaching is transitive along `execIf`. -/
theorem Reach.execIf [∀ s e, Decidable (ok s e)] (h : Reach step ok s₀ s) :
    ∀ {es : List ε}, execIf step ok s es = some s' → Reach step ok s₀ s' := by
  intro es
  induction es generalizing s with
  | nil =>
    intro he
    obtain rfl : s = s' := by simpa [Run.execIf] using he
    exact h
  | cons e es ih =>
    intro he
    simp only [Run.execIf] at he
    split at he
    · rename_i hok
      obtain ⟨t, hst, hrest⟩ := Option.bind_eq_some_iff.mp he
      exact ih (h.step hok hst) hrest
    · simp at he

/-- An evaluated run that ends in a state with property `p`. -/
theorem exists_reach [∀ s e, Decidable (ok s e)] {P : σ → Prop} [DecidablePred P] (es : List ε)
    (h : ((execIf step ok s₀ es).any fun s => decide (P s)) = true) :
    ∃ s, Reach step ok s₀ s ∧ P s := by
  obtain ⟨s, hr, hp⟩ := (Option.any_eq_true _ _).mp h
  exact ⟨s, Reach.init.execIf hr, of_decide_eq_true hp⟩

/-! ## Independent components -/

def stepAt {ι : Type*} [DecidableEq ι] (step : σ → ε → Option σ) (s : ι → σ) (e : ι × ε) :
    Option (ι → σ) :=
  (step (s e.1) e.2).map (update s e.1)

/-- Each component of a reached family is reached on its own. -/
theorem Reach.component {ι : Type*} [DecidableEq ι] (ok : σ → ε → Prop) {s : ι → σ}
    (h : Reach (stepAt step) (fun s e => ok (s e.1) e.2) (fun _ => s₀) s) (i : ι) :
    Reach step ok s₀ (s i) := by
  induction h with
  | init => exact .init
  | @step t t' e _ hok hs ih =>
    obtain ⟨u, hu, rfl⟩ := Option.map_eq_some_iff.mp hs
    rcases eq_or_ne i e.1 with rfl | hne
    · rw [update_self]
      exact ih.step hok hu
    · rw [update_of_ne hne]
      exact ih

/-- A run of one component is a run of the family. -/
theorem Reach.single {ι : Type*} [DecidableEq ι] (h : Reach step ok s₀ s) (i : ι) :
    Reach (stepAt step) (fun s e => ok (s e.1) e.2) (fun _ => s₀)
      (update (fun _ => s₀) i s) := by
  induction h with
  | init =>
    rw [update_eq_self i fun _ : ι => s₀]
    exact .init
  | @step t t' e _ hok hs ih =>
    refine ih.step (e := (i, e)) ?_ ?_
    · simpa using hok
    · simp [stepAt, hs]

/-! ## Predicates along one run -/

/-- `p` holds in every state of the run `es` from `s`. -/
def Always (step : σ → ε → Option σ) (p : σ → Prop) : σ → List ε → Prop
  | s, [] => p s
  | s, e :: es => p s ∧ ∀ s', step s e = some s' → Always step p s' es

/-- `ok` holds at every step of the run `es` from `s`. -/
def EveryStep (step : σ → ε → Option σ) (ok : σ → ε → Prop) : σ → List ε → Prop
  | _, [] => True
  | s, e :: es => ok s e ∧ ∀ s', step s e = some s' → EveryStep step ok s' es

theorem EveryStep.append {fs : List ε} (h : EveryStep step ok s es)
    (hs : exec step s es = some s') (h' : EveryStep step ok s' fs) :
    EveryStep step ok s (es ++ fs) := by
  induction es generalizing s with
  | nil =>
    cases hs
    exact h'
  | cons e es ih =>
    refine ⟨h.1, fun t ht => ih (h.2 t ht) ?_⟩
    rwa [exec, ht, Option.bind_some] at hs

/-- A run every step of which meets `ok` continues another. -/
theorem Reach.exec (h : Reach step ok s₀ s) (hs : exec step s es = some s')
    (hes : EveryStep step ok s es) : Reach step ok s₀ s' := by
  induction es generalizing s with
  | nil =>
    cases hs
    exact h
  | cons e es ih =>
    obtain ⟨t, ht, hrest⟩ := Option.bind_eq_some_iff.mp hs
    exact ih (h.step hes.1 ht) hrest (hes.2 t ht)

theorem EveryStep.mono (hle : ∀ s e, ok s e → ok' s e) (h : EveryStep step ok s es) :
    EveryStep step ok' s es := by
  induction es generalizing s with
  | nil => trivial
  | cons e es ih => exact ⟨hle s e h.1, fun t ht => ih (h.2 t ht)⟩

theorem exec_of_execIf [∀ s e, Decidable (ok s e)] (h : execIf step ok s es = some s') :
    exec step s es = some s' ∧ EveryStep step ok s es := by
  induction es generalizing s with
  | nil => exact ⟨h, trivial⟩
  | cons e es ih =>
    simp only [execIf] at h
    split at h
    · rename_i hok
      obtain ⟨t, ht, hrest⟩ := Option.bind_eq_some_iff.mp h
      obtain ⟨hexec, hevery⟩ := ih hrest
      refine ⟨by rw [exec, ht, Option.bind_some, hexec], hok, fun u hu => ?_⟩
      cases ht.symm.trans hu
      exact hevery
    · cases h

/-- **Termination rule**: a measure that goes down at every step bounds the
length of a run. -/
theorem length_le_of_decreases {μ : σ → Nat}
    (hdec : ∀ s e s', ok s e → step s e = some s' → μ s' < μ s) (hs : exec step s es = some s')
    (hes : EveryStep step ok s es) : es.length + μ s' ≤ μ s := by
  induction es generalizing s with
  | nil =>
    cases hs
    simp
  | cons e es ih =>
    obtain ⟨t, ht, hrest⟩ := Option.bind_eq_some_iff.mp hs
    have hlt := hdec s e t hes.1 ht
    have hle := ih hrest (hes.2 t ht)
    rw [List.length_cons]
    omega

/-- Two-sided run rule. Under an invariant, if a step keeps `p` exactly
when it meets `ok`, then `p` holds all along a run exactly when every
step of the run meets `ok`. -/
theorem always_iff_everyStep {inv p : σ → Prop}
    (hinv : ∀ s e s', inv s → ok s e → step s e = some s' → inv s')
    (hp : ∀ s, inv s → p s)
    (hbad : ∀ s e s', inv s → step s e = some s' → ¬ ok s e → ¬ p s') :
    ∀ (es : List ε) (s : σ), inv s → (exec step s es).isSome = true →
      (Always step p s es ↔ EveryStep step ok s es) := by
  intro es
  induction es with
  | nil =>
    intro s hs _
    simp only [Always, EveryStep, iff_true]
    exact hp s hs
  | cons e es ih =>
    intro s hs he
    obtain ⟨t, hst⟩ : ∃ t, step s e = some t := by
      cases hst : step s e with
      | none => simp [exec, hst] at he
      | some t => exact ⟨t, rfl⟩
    have hrest : (exec step t es).isSome = true := by simpa [exec, hst] using he
    simp only [Always, EveryStep]
    constructor
    · rintro ⟨_, hall⟩
      have hpt : p t := by
        have ht := hall t hst
        cases es with
        | nil => exact ht
        | cons _ _ => exact ht.1
      have hok : ok s e := by
        by_contra hn
        exact hbad s e t hs hst hn hpt
      refine ⟨hok, fun u hu => ?_⟩
      cases hst.symm.trans hu
      exact (ih t (hinv s e t hs hok hst) hrest).mp (hall t hst)
    · rintro ⟨hok, hall⟩
      refine ⟨hp s hs, fun u hu => ?_⟩
      cases hst.symm.trans hu
      exact (ih t (hinv s e t hs hok hst) hrest).mpr (hall t hst)

end Yfs.Run
