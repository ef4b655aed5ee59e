/-
Yfs.Rsm.Client — how a client finds the primary (rsm_client.cc, and
`client_members` of rsm.cc).

A client has the list of members that `init_members` got last: the node it
takes for the primary and, in `known_mems`, those it can still turn to.
`primary_failure` takes the last of these, and nothing puts one back but the
next list. `invoke` goes on for ever, and asks for a list only when a node
answers NOTPRIMARY. So the nodes of a list are used up one by one; when the
last of them fails, `back()` is taken of an empty vector.

The list is `known_mems`, the primary, and the nodes that have failed, in this
order (`Inv`). From it `members_left_iff`: it never comes to that exactly as
long as fewer calls fail than the list has nodes, until the next list.

Threads share a client. `invoke` drops the mutex around its calls, and so does
`init_members`; it is cut there. `received` and `failures` are history: the
lists, the latest first, and the calls that failed since.
-/
import Yfs.Rsm.Node

namespace Yfs.Rsm

open Yfs.Run

/-- `client_members`: the view, and the primary behind it. -/
def Node.clientMembers {σ ρ κ : Type} (views : Nat → List NodeId) (nd : Node σ ρ κ) :
    List NodeId :=
  views nd.vidCommit ++ [nd.primary]

namespace Client

/-- How the process ends: `back()` of an empty vector, or VERIFY(0) for an
empty list. -/
inductive Crash where
  | noMembers
  | verify
  deriving DecidableEq, Repr

inductive Call where
  | invoke (target : NodeId)
  | members (target : NodeId)
  deriving DecidableEq, Repr

def Call.target : Call → NodeId
  | .invoke target => target
  | .members target => target

/-- What becomes of a call; `error` is a timeout or any other status. The list
is what a `members` call returns. -/
inductive Outcome where
  | bindFails
  | ok (newView : List NodeId)
  | busy
  | notPrimary
  | error
  deriving DecidableEq, Repr

structure State where
  primary : NodeId
  knownMems : List NodeId
  threads : List Call
  crash : Option Crash
  received : List (List NodeId)
  failures : Nat
  deriving DecidableEq, Repr

inductive Event where
  /-- A thread calls `invoke`. -/
  | invoke
  /-- The call of thread `i` is over; it goes on to its next call. -/
  | ret (i : Nat) (o : Outcome)
  deriving DecidableEq, Repr

def State.primaryFailure (s : State) : State :=
  match s.knownMems.getLast? with
  | none => { s with crash := some .noMembers }
  | some m =>
    { s with primary := m, knownMems := s.knownMems.dropLast, failures := s.failures + 1 }

def State.gotMembers (s : State) (newView : List NodeId) : State :=
  match newView.getLast? with
  | none => { s with crash := some .verify }
  | some m =>
    { s with
      primary := m, knownMems := newView.dropLast, received := newView :: s.received
      failures := 0 }

def State.retry (s : State) (i : Nat) : State :=
  { s with threads := s.threads.set i (.invoke s.primary) }

/-- The constructor; it comes to its end only if `init_members` gets a list. -/
def new (dst : NodeId) (newView : List NodeId) : State :=
  State.gotMembers
    { primary := dst, knownMems := [], threads := [], crash := none, received := [], failures := 0 }
    newView

def State.invoked (s : State) (i : Nat) : Outcome → State
  | .ok _ => { s with threads := s.threads.eraseIdx i }
  | .busy => s.retry i
  | .notPrimary => { s with threads := s.threads.set i (.members s.primary) }
  | _ => s.primaryFailure.retry i

def State.askedMembers (s : State) (i : Nat) : Outcome → State
  | .ok newView => (s.gotMembers newView).retry i
  | _ => s.primaryFailure.retry i

def step (s : State) (e : Event) : Option State :=
  if s.crash ≠ none then none
  else match e with
    | .invoke => some { s with threads := s.threads ++ [.invoke s.primary] }
    | .ret i o =>
      (s.threads[i]?).map fun
        | .invoke _ => s.invoked i o
        | .members _ => s.askedMembers i o

/-- Every call is to a node of a list that was received, and `primary_failure`
has always found one. -/
def Safe (s : State) : Prop :=
  s.crash ≠ some .noMembers ∧ ∀ c ∈ s.threads, ∃ l ∈ s.received, c.target ∈ l

def State.fails (s : State) : Event → Bool
  | .invoke => false
  | .ret i o =>
    match s.threads[i]?, o with
    | some (.invoke _), .bindFails => true
    | some (.invoke _), .error => true
    | some (.members _), .ok _ => false
    | some (.members _), _ => true
    | _, _ => false

/-- With this failure, not all nodes of the latest list have failed. -/
def Enough (s : State) (e : Event) : Prop :=
  s.fails e = true → s.failures + 1 < (s.received.headD []).length

/-! ## The latest list -/

/-- The latest list is `known_mems`, the primary, and who has failed. -/
def Split (s : State) : Prop :=
  ∃ used others, s.received = (s.knownMems ++ s.primary :: used) :: others ∧
    used.length = s.failures

structure Inv (s : State) : Prop where
  safe : Safe s
  split : s.crash = none → Split s

section Steps

variable {s s' : State} {i : Nat}

theorem Split.primary_mem (h : Split s) : ∃ l ∈ s.received, s.primary ∈ l := by
  obtain ⟨used, others, hlist, -⟩ := h
  exact ⟨_, hlist ▸ List.mem_cons_self, by simp⟩

/-- A call to the primary takes the place of another, or comes last. -/
theorem Safe.set (h : Safe s) (hs : Split s) {c : Call} (hc : c.target = s.primary) :
    Safe { s with threads := s.threads.set i c } := by
  refine ⟨h.1, fun d hd => ?_⟩
  rcases List.mem_or_eq_of_mem_set hd with hd | rfl
  · exact h.2 d hd
  · rw [hc]
    exact hs.primary_mem

theorem Inv.retry (hi : Inv s) (hs : Split s) : Inv (s.retry i) :=
  ⟨hi.safe.set hs rfl, fun _ => hs⟩

/-- There is a node left if fewer have failed than the list has. -/
theorem Split.knownMems_ne_nil (h : Split s) :
    s.knownMems ≠ [] ↔ s.failures + 1 < (s.received.headD []).length := by
  obtain ⟨used, others, hlist, hlen⟩ := h
  rw [hlist, List.headD_cons, List.length_append, List.length_cons, hlen, ← List.length_pos_iff]
  omega

theorem primaryFailure_of_ne_nil (hi : Inv s) (hs : Split s) (hne : s.knownMems ≠ []) :
    Inv s.primaryFailure ∧ Split s.primaryFailure := by
  obtain ⟨used, others, hlist, hlen⟩ := hs
  obtain ⟨mems, m, hmems⟩ : ∃ mems m, s.knownMems = mems ++ [m] :=
    ⟨_, _, (List.dropLast_append_getLast hne).symm⟩
  have hfail : s.primaryFailure =
      { s with primary := m, knownMems := mems, failures := s.failures + 1 } := by
    simp [State.primaryFailure, hmems]
  have hsplit : Split s.primaryFailure := by
    rw [hfail]
    refine ⟨s.primary :: used, others, ?_, congrArg (· + 1) hlen⟩
    show s.received = _
    rw [hlist, hmems, List.append_assoc, List.singleton_append]
  refine ⟨⟨?_, fun _ => hsplit⟩, hsplit⟩
  rw [hfail]
  exact hi.safe

theorem crash_primaryFailure (h : s.knownMems = []) :
    s.primaryFailure.crash = some .noMembers := by
  simp [State.primaryFailure, h]

/-- A new list; an empty one ends the process. -/
theorem gotMembers_cases (s : State) (newView : List NodeId) :
    s.gotMembers newView = { s with crash := some .verify } ∨
      Split (s.gotMembers newView) ∧ (s.gotMembers newView).crash = s.crash ∧
        (s.gotMembers newView).threads = s.threads ∧
        (s.gotMembers newView).received = newView :: s.received := by
  rcases List.eq_nil_or_concat newView with rfl | ⟨mems, m, rfl⟩
  · exact .inl rfl
  · refine .inr ?_
    simp only [State.gotMembers, List.concat_eq_append, List.getLast?_append,
      List.getLast?_singleton, Option.some_or, List.dropLast_concat]
    exact ⟨⟨[], s.received, rfl, rfl⟩, trivial, trivial, trivial⟩

theorem inv_new (dst : NodeId) (newView : List NodeId) : Inv (new dst newView) := by
  unfold new
  rcases gotMembers_cases _ newView with heq | ⟨hsplit, hcrash, hthreads, -⟩
  · rw [heq]
    exact ⟨⟨by simp, by simp⟩, nofun⟩
  · refine ⟨⟨by simp [hcrash], by simp [hthreads]⟩, fun _ => hsplit⟩

theorem Inv.gotMembers (hi : Inv s) (hs : Split s) (newView : List NodeId) :
    Inv ((s.gotMembers newView).retry i) := by
  rcases gotMembers_cases s newView with heq | ⟨hsplit, hcrash, hthreads, hrec⟩
  · rw [heq]
    exact ⟨⟨by simp [State.retry], (hi.safe.set hs rfl).2⟩, nofun⟩
  · refine Inv.retry ⟨⟨hcrash ▸ hi.safe.1, ?_⟩, fun _ => hsplit⟩ hsplit
    rw [hthreads, hrec]
    intro c hc
    obtain ⟨l, hl, hmem⟩ := hi.safe.2 c hc
    exact ⟨l, List.mem_cons_of_mem newView hl, hmem⟩

end Steps

/-! ## Runs -/

section Runs

variable {s s' : State} {e : Event}

theorem crash_of_step (h : step s e = some s') : s.crash = none := by
  by_contra hcrash
  rw [step.eq_def, if_pos hcrash] at h
  cases h

/-- A failed call comes to `primary_failure`. -/
theorem step_of_fails (hf : s.fails e = true) (h : step s e = some s') :
    ∃ i, s' = s.primaryFailure.retry i := by
  rw [step.eq_def, if_neg (not_not.mpr (crash_of_step h))] at h
  cases e with
  | invoke => cases hf
  | ret i o =>
    refine ⟨i, ?_⟩
    obtain ⟨c, hc, rfl⟩ := Option.map_eq_some_iff.mp h
    simp only [State.fails, hc] at hf
    cases c with
    | invoke target | members target => cases o <;> first | rfl | cases hf

theorem Inv.step_of_not_fails (hi : Inv s) (hf : s.fails e = false) (h : step s e = some s') :
    Inv s' := by
  have hs := hi.split (crash_of_step h)
  rw [step.eq_def, if_neg (not_not.mpr (crash_of_step h))] at h
  cases e with
  | invoke =>
    cases h
    refine ⟨⟨hi.safe.1, fun c hc => ?_⟩, fun _ => hs⟩
    rcases List.mem_append.mp hc with hc | hc
    · exact hi.safe.2 c hc
    · rw [List.mem_singleton.mp hc]
      exact hs.primary_mem
  | ret i o =>
    obtain ⟨c, hc, rfl⟩ := Option.map_eq_some_iff.mp h
    simp only [State.fails, hc] at hf
    cases c with
    | invoke target =>
      cases o with
      | bindFails => cases hf
      | error => cases hf
      | ok l =>
        exact ⟨⟨hi.safe.1, fun d hd => hi.safe.2 d (List.mem_of_mem_eraseIdx hd)⟩, fun _ => hs⟩
      | busy => exact hi.retry hs
      | notPrimary => exact ⟨hi.safe.set hs rfl, fun _ => hs⟩
    | members target =>
      cases o with
      | ok newView => exact hi.gotMembers hs newView
      | bindFails | busy | notPrimary | error => cases hf

theorem Inv.step (hi : Inv s) (hok : Enough s e) (h : step s e = some s') : Inv s' := by
  cases hf : s.fails e with
  | false => exact hi.step_of_not_fails hf h
  | true =>
    have hs := hi.split (crash_of_step h)
    obtain ⟨i, rfl⟩ := step_of_fails hf h
    obtain ⟨hfail, hsplit⟩ := primaryFailure_of_ne_nil hi hs (hs.knownMems_ne_nil.mpr (hok hf))
    exact hfail.retry hsplit

/-- The last node of the list fails. -/
theorem Inv.not_safe (hi : Inv s) (h : Client.step s e = some s') (hbad : ¬ Enough s e) :
    ¬ Safe s' := by
  rw [Enough, Classical.not_imp] at hbad
  have hs := hi.split (crash_of_step h)
  obtain ⟨i, rfl⟩ := step_of_fails hbad.1 h
  have hnil : s.knownMems = [] := by
    by_contra hne
    exact hbad.2 (hs.knownMems_ne_nil.mp hne)
  exact fun hsafe => hsafe.1 (crash_primaryFailure hnil)

end Runs

/-- **Members left**: in a run of any number of threads, with any outcomes and
lists, `primary_failure` finds a node every time and every call is to a node of
a list that was received, exactly if at every failure of a call the failures
since the latest list are fewer than its nodes. -/
theorem members_left_iff (dst : NodeId) (newView : List NodeId) (es : List Event)
    (hrun : (exec step (new dst newView) es).isSome = true) :
    Always step Safe (new dst newView) es ↔ EveryStep step Enough (new dst newView) es :=
  always_iff_everyStep (fun _ _ _ hi hok hs => hi.step hok hs) (fun _ hi => hi.safe)
    (fun _ _ _ hi hs hbad => hi.not_safe hs hbad) es _ (inv_new dst newView) hrun

def foundPrimary : List Event :=
  [.invoke, .ret 0 .bindFails, .ret 0 .notPrimary, .ret 0 (.ok [['a'], ['b'], ['b']]),
   .ret 0 .busy, .ret 0 (.ok [])]

theorem members_left_iff_foundPrimary :
    (exec step (new ['a'] [['a'], ['b'], ['a']]) foundPrimary).isSome = true ∧
    (Always step Safe (new ['a'] [['a'], ['b'], ['a']]) foundPrimary ↔
      EveryStep step Enough (new ['a'] [['a'], ['b'], ['a']]) foundPrimary) := by
  have hrun : (exec step (new ['a'] [['a'], ['b'], ['a']]) foundPrimary).isSome = true := by
    decide
  exact ⟨hrun, members_left_iff _ _ _ hrun⟩

/-- One node is all there is, and is in its list twice. It cannot be reached
two times. -/
theorem members_run_out :
    ∃ nd : Node Nat Nat Nat, nd.clientMembers (fun _ => [['a']]) = [['a'], ['a']] ∧
      ∃ s, exec step (new ['a'] (nd.clientMembers fun _ => [['a']]))
          [.invoke, .ret 0 .bindFails, .ret 0 .bindFails] = some s ∧
        s.crash = some .noMembers ∧ ¬ Safe s := by
  refine ⟨Node.new ['a'] 0, rfl, _, rfl, rfl, fun hsafe => hsafe.1 rfl⟩

end Client

end Yfs.Rsm
