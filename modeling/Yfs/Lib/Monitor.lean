/-
Yfs.Lib.Monitor — data behind one mutex, with condition variables.

An operation is a body that runs under the mutex, from its start or from the
point where it comes back from a wait: it waits on a condition, or it is done,
has changed the data, and may have signalled a condition. A thread that waits
goes back to the head of its loop when it is woken, so one function of the data
is the whole operation (`body`).

The signal of a condition wakes one of the threads asleep on it, whichever; a
thread may also wake up for no reason. A woken thread has to get the mutex
first, and others may be faster.

* `monitor_linearizable`: every operation is atomic, whatever is signalled.
* `no_lost_wakeup`: the signals are enough. `units c` counts how many threads
  condition `c` could let through. If every operation that adds a unit signals,
  and every thread that has waited takes one, then nobody sleeps while there is
  a unit left and nobody on the way to it.
-/
import Yfs.Lib.Atomic

namespace Yfs.Monitor

open Function
open Atomic (Action Obj Phase Shows Linearizable Move linearizable_of_simulation)

variable {σ κ τ Q A : Type*}

/-- What a body does: it waits, or returns `a` with new data and a signal. -/
inductive Outcome (σ κ A : Type*) where
  | wait (c : κ)
  | done (a : A) (d : σ) (signal : Option κ)
  deriving DecidableEq

inductive Pc (κ Q A : Type*) where
  | idle
  | entering (q : Q)
  | asleep (c : κ) (q : Q)
  | woken (c : κ) (q : Q)
  | returning (a : A)
  deriving DecidableEq

structure State (σ κ τ Q A : Type*) where
  data : σ
  pc : τ → Pc κ Q A

def State.init (d : σ) : State σ κ τ Q A := ⟨d, fun _ => .idle⟩

/-- In `run`, `pick` is the thread that a signal wakes. -/
inductive Event (τ Q : Type*) where
  | call (t : τ) (q : Q)
  | run (t : τ) (pick : Option τ)
  | wake (t : τ)
  | ret (t : τ)
  deriving DecidableEq

def Pc.ready : Pc κ Q A → Option Q
  | .entering q => some q
  | .woken _ q => some q
  | _ => none

def Pc.phase : Pc κ Q A → Phase Q A
  | .idle => .idle
  | .entering q => .called q
  | .asleep _ q => .called q
  | .woken _ q => .called q
  | .returning a => .done a

theorem phase_of_ready {p : Pc κ Q A} {q : Q} (h : p.ready = some q) : p.phase = .called q := by
  cases p with
  | entering q' =>
    cases h
    rfl
  | woken c q' =>
    cases h
    rfl
  | idle | asleep c q' | returning a => cases h

theorem eq_idle_of_phase {p : Pc κ Q A} (h : p.phase = .idle) : p = .idle := by
  cases p <;> first | rfl | cases h

theorem eq_returning_of_phase {p : Pc κ Q A} {a : A} (h : p.phase = .done a) :
    p = .returning a := by
  cases p <;> first | cases h; rfl | cases h

/-- A thread that is under way and not about to run is asleep. -/
theorem asleep_of_phase {p : Pc κ Q A} {q : Q} (h : p.phase = .called q) (hready : p.ready = none) :
    ∃ c, p = .asleep c q := by
  cases p with
  | asleep c q' =>
    cases h
    exact ⟨c, rfl⟩
  | entering q' => cases hready
  | woken c q' => cases hready
  | idle => cases h
  | returning a => cases h

structure Same (s : State σ κ τ Q A) (o : Obj σ τ Q A) : Prop where
  value : o.value = s.data
  phase : ∀ t, o.phase t = (s.pc t).phase

variable {s : State σ κ τ Q A} {o : Obj σ τ Q A}

theorem Same.setData (h : Same s o) (d : σ) : Same { s with data := d } { o with value := d } :=
  ⟨rfl, h.phase⟩

section Threads

variable [DecidableEq τ] {t : τ}

def State.setPc (s : State σ κ τ Q A) (t : τ) (p : Pc κ Q A) : State σ κ τ Q A :=
  { s with pc := update s.pc t p }

@[simp] theorem setPc_self (s : State σ κ τ Q A) (t : τ) (p : Pc κ Q A) :
    (s.setPc t p).pc t = p := update_self ..

theorem setPc_of_ne (s : State σ κ τ Q A) {t u : τ} (p : Pc κ Q A) (h : u ≠ t) :
    (s.setPc t p).pc u = s.pc u := update_of_ne h ..

/-- Who sleeps or was woken after a body is done did so before. -/
theorem pc_of_returning {a : A} {d : σ} {u : τ} {p : Pc κ Q A}
    (hu : ({ s with data := d }.setPc t (.returning a)).pc u = p) (hp : p ≠ .returning a) :
    s.pc u = p := by
  rcases eq_or_ne u t with rfl | hut
  · exact absurd ((setPc_self _ u _).symm.trans hu).symm hp
  · exact (setPc_of_ne { s with data := d } _ hut).symm.trans hu

theorem Same.setPc (h : Same s o) {p : Pc κ Q A} {ph : Phase Q A} (hp : p.phase = ph) :
    Same (s.setPc t p) (o.setPhase t ph) where
  value := h.value
  phase u := by
    rcases eq_or_ne u t with rfl | hne
    · simp [Obj.setPhase, hp]
    · simpa [Obj.setPhase, hne, setPc_of_ne] using h.phase u

/-- Going to sleep and waking up is not seen. -/
theorem Same.setPc_silent (h : Same s o) {p : Pc κ Q A} (hp : p.phase = (s.pc t).phase) :
    Same (s.setPc t p) o where
  value := h.value
  phase u := by
    rcases eq_or_ne u t with rfl | hne
    · simpa [hp] using h.phase u
    · simpa [setPc_of_ne _ _ hne] using h.phase u

end Threads

section

variable [DecidableEq κ] [DecidableEq τ] (body : Q → σ → Outcome σ κ A)

def State.signal (s : State σ κ τ Q A) (c : κ) : Option τ → State σ κ τ Q A
  | none => s
  | some u =>
    match s.pc u with
    | .asleep c' q => if c' = c then s.setPc u (.woken c' q) else s
    | _ => s

def State.enter (s : State σ κ τ Q A) (t : τ) (q : Q) (pick : Option τ) : State σ κ τ Q A :=
  match body q s.data with
  | .wait c => s.setPc t (.asleep c q)
  | .done a d none => { s with data := d }.setPc t (.returning a)
  | .done a d (some c) => ({ s with data := d }.setPc t (.returning a)).signal c pick

def step (s : State σ κ τ Q A) : Event τ Q → Option (State σ κ τ Q A)
  | .call t q =>
    match s.pc t with
    | .idle => some (s.setPc t (.entering q))
    | _ => none
  | .run t pick =>
    match s.pc t with
    | .entering q => some (s.enter body t q pick)
    | .woken _ q => some (s.enter body t q pick)
    | _ => none
  | .wake t =>
    match s.pc t with
    | .asleep c q => some (s.setPc t (.woken c q))
    | _ => none
  | .ret t =>
    match s.pc t with
    | .returning _ => some (s.setPc t .idle)
    | _ => none

def shown (s : State σ κ τ Q A) : Event τ Q → Option (Action τ Q A)
  | .call t q => some (.call t q)
  | .ret t =>
    match s.pc t with
    | .returning a => some (.ret t a)
    | _ => none
  | _ => none

def atomically (d : σ) (q : Q) : Option (A × σ) :=
  match body q d with
  | .wait _ => none
  | .done a d' _ => some (a, d')

/-! ## The steps by their guards -/

inductive Trans (s : State σ κ τ Q A) : Event τ Q → State σ κ τ Q A → Prop
  | call {t : τ} {q : Q} : s.pc t = .idle → Trans s (.call t q) (s.setPc t (.entering q))
  | wait {t : τ} {q : Q} {c : κ} {pick : Option τ} : (s.pc t).ready = some q →
      body q s.data = .wait c → Trans s (.run t pick) (s.setPc t (.asleep c q))
  | done {t : τ} {q : Q} {a : A} {d : σ} {pick : Option τ} : (s.pc t).ready = some q →
      body q s.data = .done a d none →
      Trans s (.run t pick) ({ s with data := d }.setPc t (.returning a))
  | signal {t : τ} {q : Q} {a : A} {d : σ} {c : κ} {pick : Option τ} :
      (s.pc t).ready = some q → body q s.data = .done a d (some c) →
      Trans s (.run t pick) (({ s with data := d }.setPc t (.returning a)).signal c pick)
  | wake {t : τ} {c : κ} {q : Q} : s.pc t = .asleep c q →
      Trans s (.wake t) (s.setPc t (.woken c q))
  | ret {t : τ} {a : A} : s.pc t = .returning a → Trans s (.ret t) (s.setPc t .idle)

variable {body} {s' : State σ κ τ Q A} {e : Event τ Q} {t : τ}

theorem trans_of_enter {t : τ} {q : Q} {pick : Option τ} (h : (s.pc t).ready = some q) :
    Trans body s (.run t pick) (s.enter body t q pick) := by
  unfold State.enter
  split
  · rename_i c hb
    exact .wait h hb
  · rename_i a d hb
    exact .done h hb
  · rename_i a d c hb
    exact .signal h hb

theorem trans_of_step (h : step body s e = some s') : Trans body s e s' := by
  cases e with
  | call t q =>
    simp only [step] at h
    split at h
    · rename_i hpc
      cases h
      exact .call hpc
    · cases h
  | run t pick =>
    simp only [step] at h
    split at h
    · rename_i q hpc
      cases h
      exact trans_of_enter (by simp [hpc, Pc.ready])
    · rename_i c q hpc
      cases h
      exact trans_of_enter (by simp [hpc, Pc.ready])
    · cases h
  | wake t =>
    simp only [step] at h
    split at h
    · rename_i c q hpc
      cases h
      exact .wake hpc
    · cases h
  | ret t =>
    simp only [step] at h
    split at h
    · rename_i a hpc
      cases h
      exact .ret hpc
    · cases h

theorem exists_step_call {q : Q} (h : s.pc t = .idle) : ∃ s', step body s (.call t q) = some s' :=
  ⟨s.setPc t (.entering q), by simp only [step, h]⟩

theorem exists_step_ret {a : A} (h : s.pc t = .returning a) :
    ∃ s', step body s (.ret t) = some s' := ⟨s.setPc t .idle, by simp only [step, h]⟩

theorem exists_step_run {q : Q} (h : (s.pc t).ready = some q) (pick : Option τ) :
    ∃ s', step body s (.run t pick) = some s' := by
  cases hpc : s.pc t with
  | entering q' | woken c q' => exact ⟨s.enter body t q' pick, by simp only [step, hpc]⟩
  | idle | asleep c q' | returning a => simp [hpc, Pc.ready] at h

/-- A signal wakes a thread that is asleep on the condition, or does nothing. -/
theorem signal_cases (s : State σ κ τ Q A) (c : κ) (pick : Option τ) :
    s.signal c pick = s ∨
      ∃ u q, pick = some u ∧ s.pc u = .asleep c q ∧ s.signal c pick = s.setPc u (.woken c q) := by
  cases pick with
  | none => exact .inl rfl
  | some u =>
    simp only [State.signal]
    split
    · rename_i c' q hpc
      split
      · rename_i hc
        subst hc
        exact .inr ⟨u, q, rfl, hpc, rfl⟩
      · exact .inl rfl
    · exact .inl rfl

/-! ## Operations are atomic -/

theorem Same.signal (h : Same s o) (c : κ) (pick : Option τ) : Same (s.signal c pick) o := by
  rcases signal_cases s c pick with he | ⟨u, q, _, hpc, he⟩
  · rwa [he]
  · rw [he]
    exact h.setPc_silent (by simp [hpc, Pc.phase])

theorem same_step (h : Same s o) (hs : step body s e = some s') :
    ∃ o', Move (atomically body) o (shown s e) o' ∧ Same s' o' := by
  cases trans_of_step hs with
  | call hpc => exact ⟨_, .call (by rw [h.phase, hpc]; rfl), h.setPc rfl⟩
  | wait hready hb => exact ⟨o, .none, h.setPc_silent (phase_of_ready hready).symm⟩
  | @done t q a d pick hready hb =>
    have hphase : o.phase t = .called q := (h.phase t).trans (phase_of_ready hready)
    have happly : atomically body o.value q = some (a, d) := by
      rw [h.value, atomically, hb]
    exact ⟨_, .effect hphase happly, (h.setData d).setPc rfl⟩
  | @signal t q a d c pick hready hb =>
    have hphase : o.phase t = .called q := (h.phase t).trans (phase_of_ready hready)
    have happly : atomically body o.value q = some (a, d) := by
      rw [h.value, atomically, hb]
    exact ⟨_, .effect hphase happly, ((h.setData d).setPc rfl).signal c pick⟩
  | wake hpc => exact ⟨o, .none, h.setPc_silent (by simp [hpc, Pc.phase])⟩
  | @ret t a hpc =>
    have hphase : o.phase t = .done a := by
      rw [h.phase, hpc]
      rfl
    refine ⟨_, ?_, h.setPc rfl⟩
    simpa only [shown, hpc] using .ret hphase

/-- **The operations of a monitor are atomic.** -/
theorem monitor_linearizable {ok : State σ κ τ Q A → Event τ Q → Prop} {d : σ}
    {as : List (Action τ Q A)} (h : Shows (step body) ok shown (State.init d) as s) :
    Linearizable (atomically body) d as := by
  obtain ⟨o, _, hist⟩ := linearizable_of_simulation Same ⟨rfl, fun _ => rfl⟩
    (fun _ _ _ _ hR _ hs => same_step hR hs) h
  exact ⟨o, hist⟩

/-! ## The same, thread by thread -/

def State.phases (s : State σ κ τ Q A) (t : τ) : Phase Q A := (s.pc t).phase

omit [DecidableEq κ] in
theorem phases_setPc (s : State σ κ τ Q A) (t : τ) (p : Pc κ Q A) :
    (s.setPc t p).phases = update s.phases t p.phase := by
  funext u
  rcases eq_or_ne u t with rfl | hne
  · simp [State.phases]
  · simp [State.phases, setPc_of_ne _ _ hne, hne]

theorem phases_signal (s : State σ κ τ Q A) (c : κ) (pick : Option τ) :
    (s.signal c pick).phases = s.phases ∧ (s.signal c pick).data = s.data := by
  rcases signal_cases s c pick with he | ⟨u, q, _, hpc, he⟩
  · rw [he]
    exact ⟨rfl, rfl⟩
  · rw [he, phases_setPc]
    refine ⟨update_eq_self_iff.mpr ?_, rfl⟩
    simp [State.phases, hpc, Pc.phase]

theorem phases_call {q : Q} (h : step body s (.call t q) = some s') :
    s.phases t = .idle ∧ s'.phases = update s.phases t (.called q) ∧ s'.data = s.data := by
  cases trans_of_step h with
  | call hpc =>
    rw [phases_setPc]
    exact ⟨by simp [State.phases, hpc, Pc.phase], rfl, rfl⟩

theorem phases_ret (h : step body s (.ret t) = some s') :
    (∃ a, s.phases t = .done a) ∧ s'.phases = update s.phases t .idle ∧
      s'.data = s.data := by
  cases trans_of_step h with
  | @ret _ a hpc =>
    rw [phases_setPc]
    exact ⟨⟨a, by simp [State.phases, hpc, Pc.phase]⟩, rfl, rfl⟩

theorem phases_wake (h : step body s (.wake t) = some s') :
    s'.phases = s.phases ∧ s'.data = s.data := by
  cases trans_of_step h with
  | wake hpc =>
    rw [phases_setPc]
    refine ⟨update_eq_self_iff.mpr ?_, rfl⟩
    simp [State.phases, hpc, Pc.phase]

/-- A thread runs its body: it goes to sleep, or its operation is done. -/
theorem phases_run {pick : Option τ} (h : step body s (.run t pick) = some s') :
    ∃ q, (s.pc t).ready = some q ∧ s.phases t = .called q ∧
      (((∃ c, body q s.data = .wait c) ∧ s'.phases = s.phases ∧ s'.data = s.data) ∨
        ∃ a sig, body q s.data = .done a s'.data sig ∧
          s'.phases = update s.phases t (.done a)) := by
  cases trans_of_step h with
  | @wait _ q c _ hready hb =>
    refine ⟨q, hready, phase_of_ready hready, .inl ⟨⟨c, hb⟩, ?_, rfl⟩⟩
    rw [phases_setPc]
    exact update_eq_self_iff.mpr (phase_of_ready hready).symm
  | @done _ q a d _ hready hb =>
    exact ⟨q, hready, phase_of_ready hready, .inr ⟨a, none, hb, phases_setPc _ _ _⟩⟩
  | @signal _ q a d c _ hready hb =>
    obtain ⟨hphases, hdata⟩ := phases_signal ({ s with data := d }.setPc t (.returning a)) c pick
    refine ⟨q, hready, phase_of_ready hready, .inr ⟨a, some c, ?_, ?_⟩⟩
    · rw [hdata]
      exact hb
    · rw [hphases]
      exact phases_setPc _ _ _

/-! ## No wakeup is lost -/

def Outcome.signalled : Outcome σ κ A → Option κ
  | .wait _ => none
  | .done _ _ sig => sig

def Pc.asleepOn (c : κ) : Pc κ Q A → Bool
  | .asleep c' _ => decide (c' = c)
  | _ => false

/-- The guarantee of `pthread_cond_signal`: it wakes somebody if there is
somebody to wake. -/
def Heard (body : Q → σ → Outcome σ κ A) (s : State σ κ τ Q A) : Event τ Q → Prop
  | .run t pick => ∀ q ∈ (s.pc t).ready, ∀ c ∈ (body q s.data).signalled,
      (∃ u, (s.pc u).asleepOn c = true) → ∃ u ∈ pick, (s.pc u).asleepOn c = true
  | _ => True

instance decidableHeard [Fintype τ] (s : State σ κ τ Q A) (e : Event τ Q) :
    Decidable (Heard body s e) := by
  rcases e <;> unfold Heard <;> infer_instance

theorem exists_of_asleepOn {p : Pc κ Q A} {c : κ} (h : p.asleepOn c = true) :
    ∃ q, p = .asleep c q := by
  cases p with
  | asleep c' q =>
    obtain rfl : c' = c := of_decide_eq_true h
    exact ⟨q, rfl⟩
  | idle | entering q | woken c' q | returning a => cases h

omit [DecidableEq τ] in
/-- There is always a thread to pick. -/
theorem exists_heard (body : Q → σ → Outcome σ κ A) (s : State σ κ τ Q A) (t : τ) :
    ∃ pick, Heard body s (.run t pick) := by
  by_cases hsleep : ∃ q ∈ (s.pc t).ready, ∃ c ∈ (body q s.data).signalled,
      ∃ u, (s.pc u).asleepOn c = true
  · obtain ⟨q, hq, c, hc, u, hu⟩ := hsleep
    refine ⟨some u, fun q' hq' c' hc' _ => ⟨u, rfl, ?_⟩⟩
    obtain rfl : q' = q := Option.mem_unique hq' hq
    obtain rfl : c' = c := Option.mem_unique hc' hc
    exact hu
  · exact ⟨none, fun q hq c hc hu => absurd ⟨q, hq, c, hc, hu⟩ hsleep⟩

def WaitsOn (body : Q → σ → Outcome σ κ A) (q : Q) (c : κ) : Prop := ∃ d, body q d = .wait c

def signals (c : κ) (sig : Option κ) : Nat := if sig = some c then 1 else 0

/-- `units` counts how many more threads a condition could let through. -/
structure Counted (body : Q → σ → Outcome σ κ A) (units : κ → σ → Nat) : Prop where
  single : ∀ q c c', WaitsOn body q c → WaitsOn body q c' → c = c'
  wait : ∀ q d c, body q d = .wait c → units c d = 0
  done : ∀ q d a d' sig c, body q d = .done a d' sig → units c d' ≤ units c d + signals c sig
  takes : ∀ q d a d' sig c, body q d = .done a d' sig → WaitsOn body q c →
    units c d' + 1 ≤ units c d + signals c sig

def Pc.wokenOn (c : κ) : Pc κ Q A → Bool
  | .woken c' _ => decide (c' = c)
  | _ => false

section Finite

variable [Fintype τ]

def State.numWoken (s : State σ κ τ Q A) (c : κ) : Nat :=
  (Finset.univ.filter fun t => (s.pc t).wokenOn c = true).card

theorem numWoken_setPc (s : State σ κ τ Q A) (t : τ) (p : Pc κ Q A) (c : κ) :
    (s.setPc t p).numWoken c + (if (s.pc t).wokenOn c then 1 else 0) =
      s.numWoken c + (if p.wokenOn c then 1 else 0) := by
  simp only [State.numWoken, Finset.card_filter]
  have hupdate : (fun u => if ((s.setPc t p).pc u).wokenOn c = true then 1 else 0) =
      update (fun u => if (s.pc u).wokenOn c = true then 1 else 0) t
        (if p.wokenOn c = true then 1 else 0) := by
    funext u
    rcases eq_or_ne u t with rfl | hne
    · simp
    · simp [setPc_of_ne _ _ hne, hne]
  rw [hupdate, Finset.sum_update_of_mem (Finset.mem_univ t),
    ← Finset.add_sum_erase Finset.univ _ (Finset.mem_univ t), Finset.sdiff_singleton_eq_erase]
  omega

/-- Whoever sleeps on a condition is outnumbered: each unit has a thread that is
on the way to it. -/
structure Balanced (body : Q → σ → Outcome σ κ A) (units : κ → σ → Nat)
    (s : State σ κ τ Q A) : Prop where
  waits : ∀ t c q, s.pc t = .asleep c q ∨ s.pc t = .woken c q → WaitsOn body q c
  units_le : ∀ t c q, s.pc t = .asleep c q → units c s.data ≤ s.numWoken c

variable {units : κ → σ → Nat} {q : Q}

variable {c : κ} {a : A} {d : σ}

theorem numWoken_setPc_of_not (s : State σ κ τ Q A) {p : Pc κ Q A}
    (ht : (s.pc t).wokenOn c = false) (hp : p.wokenOn c = false) :
    (s.setPc t p).numWoken c = s.numWoken c := by
  simpa [ht, hp] using numWoken_setPc s t p c

/-- A thread that was not woken goes where it neither sleeps nor was woken. -/
theorem Balanced.setPc (h : Balanced body units s) {p : Pc κ Q A}
    (ht : ∀ c, (s.pc t).wokenOn c = false) (hp : ∀ c q, p ≠ .asleep c q ∧ p ≠ .woken c q) :
    Balanced body units (s.setPc t p) := by
  have hp' : ∀ c, p.wokenOn c = false := by
    intro c
    cases p with
    | woken c' q => exact absurd rfl (hp c' q).2
    | idle => rfl
    | entering q => rfl
    | asleep c' q => rfl
    | returning a => rfl
  have hother : ∀ u p', (s.setPc t p).pc u = p' → p' ≠ p → s.pc u = p' := by
    intro u p' hu hne
    rcases eq_or_ne u t with rfl | hut
    · exact absurd ((setPc_self s u p).symm.trans hu).symm hne
    · rwa [setPc_of_ne s p hut] at hu
  refine ⟨fun u c q hu => h.waits u c q ?_, fun u c q hu => ?_⟩
  · rcases hu with hu | hu
    · exact .inl (hother u _ hu (hp c q).1.symm)
    · exact .inr (hother u _ hu (hp c q).2.symm)
  · rw [numWoken_setPc_of_not s (ht c) (hp' c)]
    exact h.units_le u c q (hother u _ hu (hp c q).1.symm)

omit [DecidableEq τ] in
/-- The thread that runs, if it was woken, has waited on that condition. -/
theorem Balanced.waits_of_wokenOn (h : Balanced body units s) (hready : (s.pc t).ready = some q)
    (hw : (s.pc t).wokenOn c = true) : WaitsOn body q c := by
  cases hpc : s.pc t with
  | woken c' q' =>
    rw [hpc] at hready hw
    obtain rfl : q' = q := Option.some.inj hready
    obtain rfl : c' = c := of_decide_eq_true hw
    exact h.waits t c' q' (.inr hpc)
  | idle | entering q' | asleep c' q' | returning a => simp [hpc, Pc.wokenOn] at hw

/-- A thread goes to sleep: there is no unit on its condition, and if it was
woken it was from the same one. -/
theorem Balanced.sleep (h : Balanced body units s) (hc : Counted body units)
    (hready : (s.pc t).ready = some q) (hb : body q s.data = .wait c) :
    Balanced body units (s.setPc t (.asleep c q)) := by
  refine ⟨fun u c' q' hu => ?_, fun u c' q' hu => ?_⟩
  · rcases eq_or_ne u t with rfl | hne
    · simp only [setPc_self, Pc.asleep.injEq, reduceCtorEq, or_false] at hu
      obtain ⟨rfl, rfl⟩ := hu
      exact ⟨s.data, hb⟩
    · rw [setPc_of_ne s _ hne] at hu
      exact h.waits u c' q' hu
  · show units c' s.data ≤ _
    rcases eq_or_ne c' c with rfl | hcne
    · rw [hc.wait q s.data c' hb]
      exact Nat.zero_le _
    · have hut : u ≠ t := by
        rintro rfl
        simp only [setPc_self, Pc.asleep.injEq] at hu
        exact hcne hu.1.symm
      have hnot : (s.pc t).wokenOn c' = false := by
        by_contra hw
        exact hcne (hc.single q c' c (h.waits_of_wokenOn hready (by simpa using hw)) ⟨s.data, hb⟩)
      rw [setPc_of_ne s _ hut] at hu
      rw [numWoken_setPc_of_not s hnot rfl]
      exact h.units_le u c' q' hu

theorem Balanced.wake (h : Balanced body units s) (hpc : s.pc t = .asleep c q) :
    Balanced body units (s.setPc t (.woken c q)) := by
  refine ⟨fun u c' q' hu => ?_, fun u c' q' hu => ?_⟩
  · rcases eq_or_ne u t with rfl | hne
    · simp only [setPc_self, Pc.woken.injEq, reduceCtorEq, false_or] at hu
      obtain ⟨rfl, rfl⟩ := hu
      exact h.waits u c q (.inl hpc)
    · rw [setPc_of_ne s _ hne] at hu
      exact h.waits u c' q' hu
  · have hut : u ≠ t := by
      rintro rfl
      simp at hu
    rw [setPc_of_ne s _ hut] at hu
    have hle := h.units_le u c' q' hu
    have hnum := numWoken_setPc s t (.woken c q) c'
    rw [hpc] at hnum
    simp only [Pc.wokenOn, Bool.false_eq_true, if_false] at hnum
    show units c' s.data ≤ _
    omega

/-- A body is done: the units that are left are those of the threads woken
before, and one more if it signals. -/
theorem Balanced.units_done (h : Balanced body units s) (hc : Counted body units)
    (hready : (s.pc t).ready = some q) {sig : Option κ} (hb : body q s.data = .done a d sig)
    {u : τ} {q' : Q} (hu : s.pc u = .asleep c q') :
    units c d ≤ ({ s with data := d }.setPc t (.returning a)).numWoken c + signals c sig := by
  have hle := h.units_le u c q' hu
  have hnum : ({ s with data := d }.setPc t (.returning a)).numWoken c +
      (if (s.pc t).wokenOn c then 1 else 0) = s.numWoken c + 0 :=
    numWoken_setPc { s with data := d } t (.returning a) c
  cases hw : (s.pc t).wokenOn c with
  | true =>
    have htakes := hc.takes q s.data a d sig c hb (h.waits_of_wokenOn hready hw)
    simp only [hw, if_true] at hnum
    omega
  | false =>
    have hdone := hc.done q s.data a d sig c hb
    simp only [hw, Bool.false_eq_true, if_false] at hnum
    omega

/-- A body is done and signals nobody, or nobody is there to hear it. -/
theorem Balanced.done (h : Balanced body units s) (hc : Counted body units)
    (hready : (s.pc t).ready = some q) {sig : Option κ} (hb : body q s.data = .done a d sig)
    (hnone : ∀ c ∈ sig, ∀ u q', s.pc u ≠ .asleep c q') :
    Balanced body units ({ s with data := d }.setPc t (.returning a)) := by
  refine ⟨fun u c q' hu => h.waits u c q' ?_, fun u c q' hu => ?_⟩
  · rcases hu with hu | hu
    · exact .inl (pc_of_returning hu (by simp))
    · exact .inr (pc_of_returning hu (by simp))
  · have hasleep := pc_of_returning hu (by simp)
    have hle := h.units_done hc hready hb hasleep
    have hsig : signals c sig = 0 := if_neg fun hs => hnone c hs u q' hasleep
    rwa [hsig] at hle

/-- A body is done and its signal wakes a thread. -/
theorem Balanced.signal (h : Balanced body units s) (hc : Counted body units)
    (hready : (s.pc t).ready = some q) (hb : body q s.data = .done a d (some c)) {v : τ} {r : Q}
    (hv : s.pc v = .asleep c r) :
    Balanced body units
      (({ s with data := d }.setPc t (.returning a)).setPc v (.woken c r)) := by
  have hvt : v ≠ t := by
    rintro rfl
    simp [hv, Pc.ready] at hready
  have hv' : ({ s with data := d }.setPc t (.returning a)).pc v = .asleep c r :=
    (setPc_of_ne { s with data := d } _ hvt).trans hv
  refine ⟨fun u c' q' hu => ?_, fun u c' q' hu => ?_⟩
  · rcases eq_or_ne u v with rfl | huv
    · simp only [setPc_self, Pc.woken.injEq, reduceCtorEq, false_or] at hu
      obtain ⟨rfl, rfl⟩ := hu
      exact h.waits u c r (.inl hv)
    · rw [setPc_of_ne _ _ huv] at hu
      refine h.waits u c' q' ?_
      rcases hu with hu | hu
      · exact .inl (pc_of_returning hu (by simp))
      · exact .inr (pc_of_returning hu (by simp))
  · have huv : u ≠ v := by
      rintro rfl
      simp at hu
    rw [setPc_of_ne _ _ huv] at hu
    have hle := h.units_done hc hready hb (pc_of_returning hu (by simp))
    have hnum := numWoken_setPc ({ s with data := d }.setPc t (.returning a)) v (.woken c r) c'
    rw [hv'] at hnum
    have hsig : signals c' (some c) =
        if (Pc.woken c r : Pc κ Q A).wokenOn c' = true then 1 else 0 := by
      simp [signals, Pc.wokenOn]
    rw [hsig] at hle
    simp only [Pc.wokenOn, Bool.false_eq_true, if_false, decide_eq_true_eq] at hnum hle
    show units c' d ≤ _
    omega

theorem Balanced.step (h : Balanced body units s) (hc : Counted body units)
    (hheard : Heard body s e) (hs : Monitor.step body s e = some s') : Balanced body units s' := by
  cases trans_of_step hs with
  | call hpc => exact h.setPc (by simp [hpc, Pc.wokenOn]) (by simp)
  | wait hready hb => exact h.sleep hc hready hb
  | done hready hb => exact h.done hc hready hb (by simp)
  | @signal t q a d c pick hready hb =>
    by_cases hsleep : ∃ u q', s.pc u = .asleep c q'
    · have hexists : ∃ u, (s.pc u).asleepOn c = true := by
        obtain ⟨u, q', hu⟩ := hsleep
        exact ⟨u, by simp [hu, Pc.asleepOn]⟩
      obtain ⟨v, rfl, hasleep⟩ := hheard q hready c (by simp [hb, Outcome.signalled]) hexists
      obtain ⟨r, hv⟩ := exists_of_asleepOn hasleep
      have hvt : v ≠ t := by
        rintro rfl
        simp [hv, Pc.ready] at hready
      have hv' : ({ s with data := d }.setPc t (.returning a)).pc v = .asleep c r :=
        (setPc_of_ne { s with data := d } _ hvt).trans hv
      have hsignal : ({ s with data := d }.setPc t (.returning a)).signal c (some v) =
          ({ s with data := d }.setPc t (.returning a)).setPc v (.woken c r) := by
        simp [State.signal, hv']
      rw [hsignal]
      exact h.signal hc hready hb hv
    · have hnone : ∀ u q', s.pc u ≠ .asleep c q' := fun u q' hu => hsleep ⟨u, q', hu⟩
      rcases signal_cases ({ s with data := d }.setPc t (.returning a)) c pick with
        he | ⟨u, q', _, hu, _⟩
      · rw [he]
        exact h.done hc hready hb fun c' hc' => by
          cases hc'
          exact hnone
      · exact absurd (pc_of_returning hu (by simp)) (hnone u q')
  | wake hpc => exact h.wake hpc
  | ret hpc => exact h.setPc (by simp [hpc, Pc.wokenOn]) (by simp)

theorem balanced_of_reach (hc : Counted body units)
    (h : Run.Reach (Monitor.step body) (Heard body) (State.init d) s) : Balanced body units s :=
  h.invariant (Balanced body units) ⟨by simp [State.init], by simp [State.init]⟩
    fun _ _ _ hb hheard hs => hb.step hc hheard hs

/-- **No wakeup is lost**: when no thread is about to run its body, the threads
that sleep have nothing to wait for but new units. -/
theorem no_lost_wakeup (hc : Counted body units)
    (h : Run.Reach (Monitor.step body) (Heard body) (State.init d) s)
    (hquiet : ∀ t, (s.pc t).ready = none) {t : τ} (ht : s.pc t = .asleep c q) :
    WaitsOn body q c ∧ units c s.data = 0 := by
  have hbal := balanced_of_reach hc h
  have hzero : s.numWoken c = 0 := by
    rw [State.numWoken, Finset.card_eq_zero, Finset.filter_eq_empty_iff]
    intro u _ hw
    have hu := hquiet u
    cases hpc : s.pc u with
    | woken c' q' => simp [hpc, Pc.ready] at hu
    | idle | entering q' | asleep c' q' | returning a => simp [hpc, Pc.wokenOn] at hw
  refine ⟨hbal.waits t c q (.inl ht), ?_⟩
  have hle := hbal.units_le t c q ht
  omega

end Finite

end

end Yfs.Monitor
