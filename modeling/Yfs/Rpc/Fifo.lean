/-
Yfs.Rpc.Fifo — the queue between the threads of the RPC library (rpc/fifo.h).

`enq` and `deq` run under one mutex and wait in a loop, so the queue is a
monitor (`Yfs.Lib.Monitor`): a thread waits on `non_empty_c_` for an element,
or on `has_space_c_` for a place. `max_` is the limit, and 0 is no limit.
`size` returns a `bool`.

`enq` signals `non_empty_c_` for every element and `deq` signals `has_space_c_`
for every place, one thread each. `fifo_no_lost_wakeup` says that this is
enough, whoever else takes the element or the place in the meantime.
-/
import Yfs.Lib.Monitor

namespace Yfs.Fifo

open Monitor Run
open Atomic (Action Shows Linearizable)

variable {T τ : Type} (max : Nat)

inductive Cond where
  | nonEmpty
  | hasSpace
  deriving DecidableEq, Repr

inductive Call (T : Type) where
  | enq (e : T) (blocking : Bool)
  | deq
  | size
  deriving DecidableEq, Repr

inductive Ret (T : Type) where
  | enq (ok : Bool)
  | deq (e : T)
  | size (b : Bool)
  deriving DecidableEq, Repr

/-- `fifo::enq`, from the head of its loop. -/
def enq (e : T) (blocking : Bool) (q : List T) : Outcome (List T) Cond (Ret T) :=
  if max = 0 ∨ q.length < max then .done (.enq true) (q ++ [e]) (some .nonEmpty)
  else if blocking then .wait .hasSpace
  else .done (.enq false) q none

/-- `fifo::deq`, from the head of its loop. -/
def deq : List T → Outcome (List T) Cond (Ret T)
  | [] => .wait .nonEmpty
  | e :: q => .done (.deq e) q (if max ≠ 0 ∧ q.length < max then some .hasSpace else none)

def body : Call T → List T → Outcome (List T) Cond (Ret T)
  | .enq e blocking, q => enq max e blocking q
  | .deq, q => deq max q
  | .size, q => .done (.size (decide (q.length ≠ 0))) q none

inductive Does (q : List T) : Call T → Outcome (List T) Cond (Ret T) → Prop
  | push {e : T} {blocking : Bool} : max = 0 ∨ q.length < max →
      Does q (.enq e blocking) (.done (.enq true) (q ++ [e]) (some .nonEmpty))
  | full {e : T} : max ≠ 0 → max ≤ q.length → Does q (.enq e true) (.wait .hasSpace)
  | refuse {e : T} : max ≠ 0 → max ≤ q.length → Does q (.enq e false) (.done (.enq false) q none)
  | empty : q = [] → Does q .deq (.wait .nonEmpty)
  | pop {e : T} {rest : List T} : q = e :: rest →
      Does q .deq (.done (.deq e) rest
        (if max ≠ 0 ∧ rest.length < max then some .hasSpace else none))
  | size : Does q .size (.done (.size (decide (q.length ≠ 0))) q none)

theorem does_body (c : Call T) (q : List T) : Does max q c (body max c q) := by
  cases c with
  | enq e blocking =>
    simp only [body, enq]
    split
    · rename_i hspace
      exact .push hspace
    · rename_i hfull
      cases blocking with
      | true => exact .full (by omega) (by omega)
      | false => exact .refuse (by omega) (by omega)
  | deq =>
    cases q with
    | nil => exact .empty rfl
    | cons e rest => exact .pop rfl
  | size => exact .size

/-! ## What it is for -/

def spec (q : List T) : Call T → Option (Ret T × List T)
  | .enq e blocking =>
    if max ≠ 0 ∧ max ≤ q.length then (if blocking then none else some (.enq false, q))
    else some (.enq true, q ++ [e])
  | .deq => q.head?.map fun e => (.deq e, q.tail)
  | .size => some (.size (!q.isEmpty), q)

theorem atomically_body : atomically (body max) = spec (T := T) max := by
  funext q c
  have hdoes := does_body max c q
  rw [atomically]
  generalize body max c q = r at hdoes
  cases hdoes with
  | push hspace =>
    have hno : ¬ (max ≠ 0 ∧ max ≤ q.length) := by omega
    simp only [spec, if_neg hno]
  | full hmax hfull | refuse hmax hfull => simp [spec, hmax, hfull]
  | empty hq => simp [spec, hq]
  | pop hq => simp [spec, hq]
  | size => cases q <;> simp [spec]

/-! ## Wakeups -/

def units : Cond → List T → Nat
  | .nonEmpty, q => q.length
  | .hasSpace, q => max - q.length

theorem counted : Counted (body (T := T) max) (units max) where
  single c cond cond' := by
    rintro ⟨q, hq⟩ ⟨q', hq'⟩
    have hdoes := does_body max c q
    have hdoes' := does_body max c q'
    rw [hq] at hdoes
    rw [hq'] at hdoes'
    cases hdoes with
    | full =>
      cases hdoes'
      rfl
    | empty =>
      cases hdoes'
      rfl
  wait c q cond h := by
    have hdoes := does_body max c q
    rw [h] at hdoes
    cases hdoes with
    | full hmax hfull => exact Nat.sub_eq_zero_of_le hfull
    | empty hq => simp [units, hq]
  done c q a q' sig cond h := by
    have hdoes := does_body max c q
    rw [h] at hdoes
    cases hdoes with
    | push hspace =>
      cases cond with
      | nonEmpty => simp [units, signals]
      | hasSpace =>
        simp [units, signals]
        omega
    | refuse hmax hfull => exact Nat.le_add_right _ _
    | @pop e rest hq =>
      subst hq
      cases cond with
      | nonEmpty =>
        simp [units]
        omega
      | hasSpace =>
        simp only [units, signals, List.length_cons]
        split
        · simp
          omega
        · simp
          omega
    | size => exact Nat.le_add_right _ _
  takes c q a q' sig cond h := by
    rintro ⟨q₀, hq₀⟩
    have hdoes := does_body max c q
    have hdoes₀ := does_body max c q₀
    rw [h] at hdoes
    rw [hq₀] at hdoes₀
    cases hdoes₀ with
    | full hmax hfull =>
      cases hdoes with
      | push hspace =>
        simp [units, signals]
        omega
    | empty hempty =>
      cases hdoes with
      | pop hq => simp [units, hq]

variable {max} in
theorem waitsOn_cases {c : Call T} {cond : Cond} (h : WaitsOn (body max) c cond) :
    (c = .deq ∧ cond = .nonEmpty) ∨ ∃ e, c = .enq e true ∧ cond = .hasSpace ∧ max ≠ 0 := by
  obtain ⟨q, hq⟩ := h
  have hdoes := does_body max c q
  rw [hq] at hdoes
  cases hdoes with
  | @full e hmax _ => exact .inr ⟨e, rfl, rfl, hmax⟩
  | empty _ => exact .inl ⟨rfl, rfl⟩

/-! ## Runs -/

section Runs

variable [DecidableEq τ] {max} {s s' : State (List T) Cond τ (Call T) (Ret T)}

/-- **The queue is linearizable**: whatever the threads do, they see a bounded
FIFO queue on which every operation is one step. -/
theorem fifo_linearizable {as : List (Action τ (Call T) (Ret T))}
    (h : Shows (step (body max)) (fun _ _ => True) shown (State.init []) as s) :
    Linearizable (spec max) [] as := by
  rw [← atomically_body]
  exact monitor_linearizable h

def crowded : List (Event (Fin 3) (Call Nat)) :=
  [.call 0 .deq, .run 0 none, .call 1 (.enq 7 true), .call 2 (.enq 8 true), .run 1 (some 0),
    .run 2 none, .ret 1, .run 0 (some 2), .run 2 none, .ret 2, .ret 0]

def crowdedHistory : List (Action (Fin 3) (Call Nat) (Ret Nat)) :=
  [.call 0 .deq, .call 1 (.enq 7 true), .call 2 (.enq 8 true), .ret 1 (.enq true),
    .ret 2 (.enq true), .ret 0 (.deq 7)]

theorem fifo_linearizable_crowded :
    ∃ s, Shows (step (body 1)) (fun _ _ => True) shown (State.init []) crowdedHistory s ∧
      Linearizable (spec 1) [] crowdedHistory := by
  have hrun : ((execIf (step (body 1)) (fun _ _ => True) (State.init []) crowded).isSome &&
      decide (Atomic.actions (step (body 1)) shown (State.init []) crowded = crowdedHistory)) =
        true := by decide
  obtain ⟨as, s, hshows, hp⟩ :=
    Atomic.exists_shows_of_execIf (p := fun as => decide (as = crowdedHistory)) hrun
  obtain rfl := of_decide_eq_true hp
  exact ⟨s, hshows, fifo_linearizable hshows⟩

/-- The limit is kept. -/
theorem length_le_step {e : Event τ (Call T)} (h : max ≠ 0 → s.data.length ≤ max)
    (hs : step (body max) s e = some s') : max ≠ 0 → s'.data.length ≤ max := by
  -- whatever the signal, the data are those of the body
  have hbody : ∀ {c a q sig}, body max c s.data = .done a q sig → max ≠ 0 → q.length ≤ max := by
    intro c a q sig hb hmax
    have hdoes := does_body max c s.data
    rw [hb] at hdoes
    have hlen := h hmax
    cases hdoes with
    | push hspace =>
      simp
      omega
    | refuse _ hfull => exact hlen
    | pop hq =>
      rw [hq] at hlen
      simp at hlen
      omega
    | size => exact hlen
  cases trans_of_step hs with
  | call hpc => exact h
  | wait hready hb => exact h
  | done hready hb => exact hbody hb
  | @signal t q a d c pick hready hb =>
    have hdata : (({ s with data := d }.setPc t (.returning a)).signal c pick).data = d := by
      rcases signal_cases ({ s with data := d }.setPc t (.returning a)) c pick with
        he | ⟨u, q', _, _, he⟩
      · rw [he]
        rfl
      · rw [he]
        rfl
    rw [hdata]
    exact hbody hb
  | wake hpc => exact h
  | ret hpc => exact h

theorem length_le {ok : State (List T) Cond τ (Call T) (Ret T) → Event τ (Call T) → Prop}
    (h : Reach (step (body max)) ok (State.init []) s) : max ≠ 0 → s.data.length ≤ max :=
  h.invariant (fun s => max ≠ 0 → s.data.length ≤ max) (fun _ => Nat.zero_le _)
    fun _ _ _ hle _ hs => length_le_step hle hs

/-- **No wakeup is lost**: when no thread is about to go on, a thread that
sleeps is in `deq` of an empty queue or in a blocking `enq` to a full one. -/
theorem fifo_no_lost_wakeup [Fintype τ]
    (h : Reach (step (body max)) (Heard (body max)) (State.init []) s)
    (hquiet : ∀ t, (s.pc t).ready = none) {t : τ} {cond : Cond} {c : Call T}
    (ht : s.pc t = .asleep cond c) :
    (c = .deq ∧ s.data = []) ∨ ∃ e, c = .enq e true ∧ max ≠ 0 ∧ s.data.length = max := by
  obtain ⟨hwaits, hunits⟩ := no_lost_wakeup (counted max) h hquiet ht
  rcases waitsOn_cases hwaits with ⟨hc, rfl⟩ | ⟨e, hc, rfl, hmax⟩
  · exact .inl ⟨hc, List.length_eq_zero_iff.mp hunits⟩
  · have hle := length_le h hmax
    have hzero : max - s.data.length = 0 := hunits
    exact .inr ⟨e, hc, hmax, by omega⟩

/-- Two consumers sleep, one element comes, and the one that was not woken goes
on sleeping. -/
def oneForTwo : List (Event (Fin 3) (Call Nat)) :=
  [.call 0 .deq, .run 0 none, .call 1 .deq, .run 1 none, .call 2 (.enq 7 true), .run 2 (some 1),
    .ret 2, .run 1 none, .ret 1]

theorem fifo_no_lost_wakeup_two :
    ∃ s : State (List Nat) Cond (Fin 3) (Call Nat) (Ret Nat),
      Reach (step (body 5)) (Heard (body 5)) (State.init []) s ∧ (∀ t, (s.pc t).ready = none) ∧
      s.pc 0 = .asleep .nonEmpty .deq ∧ s.data = [] := by
  obtain ⟨s, hreach, hquiet, hpc⟩ : ∃ s : State (List Nat) Cond (Fin 3) (Call Nat) (Ret Nat),
      Reach (step (body 5)) (Heard (body 5)) (State.init []) s ∧ (∀ t, (s.pc t).ready = none) ∧
        s.pc 0 = .asleep .nonEmpty .deq := exists_reach oneForTwo (by decide)
  rcases fifo_no_lost_wakeup hreach hquiet hpc with ⟨_, hdata⟩ | ⟨e, he, _⟩
  · exact ⟨s, hreach, hquiet, hpc, hdata⟩
  · cases he

end Runs

end Yfs.Fifo
