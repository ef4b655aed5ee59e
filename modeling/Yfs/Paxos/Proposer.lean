/-
Yfs.Paxos.Proposer — `proposer::run` and its three phases (paxos.cc).

`run` holds `pxs_mutex` and drops it around each RPC, so it is cut there:
a `Run` says in which phase it is, which nodes are left to call, and what
the phase has collected. `settle` is what happens when a phase has called
everyone: the next phase begins, or the run is over.

The acceptor of the proposer's own node answers like any other one.

Requests carry history that nothing reads: the run they belong to and,
for an accept request, its instance, which `proposer::accept` leaves
unset.
-/
import Yfs.Paxos.Acceptor

namespace Yfs.Paxos

/-! ## Majorities -/

def isamember (m : NodeId) (nodes : List NodeId) : Bool := nodes.contains m

/-- `majority`: the nodes of `l2` are a majority of `l1`. -/
def majority (l1 l2 : List NodeId) : Bool :=
  decide (l1.length / 2 + 1 ≤ l1.countP fun m => isamember m l2)

theorem countP_both {α : Type} (p q : α → Bool) (l : List α) :
    l.countP p + l.countP q ≤ l.length + l.countP fun x => p x && q x := by
  induction l with
  | nil => simp
  | cons x l ih =>
    simp only [List.countP_cons, List.length_cons]
    cases p x <;> cases q x <;> simp <;> omega

/-- Two majorities of the same list meet. -/
theorem majority_meet {l s₁ s₂ : List NodeId} (h₁ : majority l s₁ = true)
    (h₂ : majority l s₂ = true) : ∃ a ∈ l, a ∈ s₁ ∧ a ∈ s₂ := by
  simp only [majority, decide_eq_true_eq] at h₁ h₂
  have hboth := countP_both (fun m => isamember m s₁) (fun m => isamember m s₂) l
  have hpos : 0 < l.countP fun x => isamember x s₁ && isamember x s₂ := by omega
  obtain ⟨a, ha, hin⟩ := List.countP_pos_iff.mp hpos
  simp only [isamember, Bool.and_eq_true, List.contains_iff_mem] at hin
  exact ⟨a, ha, hin⟩

/-- A majority is not empty. -/
theorem majority_nonempty {l s : List NodeId} (h : majority l s = true) : ∃ a ∈ l, a ∈ s := by
  obtain ⟨a, ha, hs, _⟩ := majority_meet h h
  exact ⟨a, ha, hs⟩

theorem majority_mono {l s s' : List NodeId} (hsub : ∀ a ∈ s, a ∈ s')
    (h : majority l s = true) : majority l s' = true := by
  simp only [majority, decide_eq_true_eq] at h ⊢
  refine h.trans (List.countP_mono_left fun m _ hm => ?_)
  simp only [isamember, List.contains_iff_mem] at hm ⊢
  exact hsub m hm

/-- **Quorum intersection**: what agreement rests on, for any view, also one
that has a name twice. The count is over the places of `l`, so a name that
is there twice counts twice on both sides. -/
theorem quorums_intersect (l : List NodeId) :
    (∀ s₁ s₂, majority l s₁ = true → majority l s₂ = true → ∃ a ∈ l, a ∈ s₁ ∧ a ∈ s₂) ∧
    (∀ s s', (∀ a ∈ s, a ∈ s') → majority l s = true → majority l s' = true) ∧
    ∀ s, majority [] s = false := by
  refine ⟨fun s₁ s₂ h₁ h₂ => majority_meet h₁ h₂, fun s s' hsub h => majority_mono hsub h, ?_⟩
  intro s
  rfl

/-- Three places for two names. -/
theorem quorums_intersect_repeated :
    majority [['a'], ['a'], ['b']] [['a']] = true ∧
    majority [['a'], ['a'], ['b']] [['b'], ['a']] = true ∧
    ∃ a ∈ [['a'], ['a'], ['b']], a ∈ [['a']] ∧ a ∈ [['b'], ['a']] := by
  have h₁ : majority [['a'], ['a'], ['b']] [['a']] = true := by decide
  obtain ⟨hmeet, hmono, -⟩ := quorums_intersect [['a'], ['a'], ['b']]
  have h₂ := hmono [['a']] [['b'], ['a']] (by simp) h₁
  exact ⟨h₁, h₂, hmeet _ _ h₁ h₂⟩

/-! ## Messages -/

/-- A call of `preparereq`. -/
structure PrepareReq where
  call : Nat
  rid : Nat
  dst : NodeId
  inst : Nat
  n : PropT
  deriving DecidableEq, Repr

/-- A call of `acceptreq`. -/
structure AcceptReq where
  call : Nat
  rid : Nat
  dst : NodeId
  inst : Nat
  n : PropT
  v : Value
  deriving DecidableEq, Repr

structure DecideReq where
  call : Nat
  rid : Nat
  dst : NodeId
  inst : Nat
  v : Value
  deriving DecidableEq, Repr

inductive Msg where
  | prepare (q : PrepareReq)
  | prepareRes (q : PrepareReq) (res : PrepareRes)
  | accept (q : AcceptReq)
  | acceptRes (q : AcceptReq) (ok : Bool)
  | decide (q : DecideReq)
  | dump (file : List LogRec)
  deriving DecidableEq, Repr

/-! ## A run -/

inductive Phase where
  | prepare
  | accept
  | decide
  deriving DecidableEq, Repr

/-- The variables of `run`; `rid` is its number in the history of runs, `n`
the `my_n` it uses, and `call` the request it waits for. -/
structure Run where
  rid : Nat
  inst : Nat
  curNodes : List NodeId
  newv : Value
  n : PropT
  phase : Phase
  todo : List NodeId
  accepts : List NodeId
  v : Value
  maxN : PropT
  call : Option Msg
  deriving DecidableEq, Repr

/-- `setn`; the counters are `unsigned`. -/
def setn (nH myN : PropT) : PropT :=
  let h := (nH.n + 1) % 2 ^ 32
  let own := (myN.n + 1) % 2 ^ 32
  { myN with n := if h > own then h else own }

def CanCount (nH myN : PropT) : Prop := (nH.n + 1) % 2 ^ 32 ≠ 0 ∨ (myN.n + 1) % 2 ^ 32 ≠ 0

instance (nH myN : PropT) : Decidable (CanCount nH myN) := by
  unfold CanCount
  infer_instance

/-- The next number stands for none exactly when both counters are at their
end. -/
theorem setn_ne_zero {nH myN : PropT} : (setn nH myN).n ≠ 0 ↔ CanCount nH myN := by
  unfold setn CanCount
  dsimp only
  split <;> omega

/-- The next phase once everyone has been called; `none` when the run is
over. -/
def Run.settle (r : Run) : Option Run :=
  if r.todo ≠ [] then some r
  else match r.phase with
    | .prepare =>
      if majority r.curNodes r.accepts then
        some { r with
          phase := .accept, todo := r.accepts, accepts := []
          v := if r.v = [] then r.newv else r.v }
      else none
    | .accept =>
      if majority r.curNodes r.accepts then some { r with phase := .decide, todo := r.accepts }
      else none
    | .decide => none

/-- `run` up to its first RPC. -/
def Run.start (rid inst : Nat) (curNodes : List NodeId) (newv : Value) (n : PropT) : Option Run :=
  Run.settle
    { rid := rid, inst := inst, curNodes := curNodes, newv := newv, n := n, phase := .prepare
      todo := curNodes, accepts := [], v := [], maxN := ⟨0, []⟩, call := none }

def Run.next (r : Run) : Option Run := Run.settle { r with todo := r.todo.tail, call := none }

/-- A reply to the prepare call at `d` that does not say `oldinstance`. -/
def Run.promised (r : Run) (d : NodeId) (res : PrepareRes) : Run :=
  if res.accept then
    { r with
      accepts := r.accepts ++ [d]
      v := if res.nA.gt r.maxN then res.vA else r.v
      maxN := if res.nA.gt r.maxN then res.nA else r.maxN }
  else r

/-- A reply to the accept call at `d`. -/
def Run.accepted (r : Run) (d : NodeId) (ok : Bool) : Run :=
  if ok then { r with accepts := r.accepts ++ [d] } else r

def Run.request (r : Run) (call : Nat) (d : NodeId) : Msg :=
  match r.phase with
  | .prepare => .prepare ⟨call, r.rid, d, r.inst, r.n⟩
  | .accept => .accept ⟨call, r.rid, d, r.inst, r.n, r.v⟩
  | .decide => .decide ⟨call, r.rid, d, r.inst, r.v⟩

/-- A phase ends: what begins after it. -/
theorem settle_cases {r r' : Run} (h : r.settle = some r') :
    (r.todo ≠ [] ∧ r' = r) ∨
    (r.phase = .prepare ∧ majority r.curNodes r.accepts = true ∧ r' = { r with
      phase := .accept, todo := r.accepts, accepts := []
      v := if r.v = [] then r.newv else r.v }) ∨
    (r.phase = .accept ∧ majority r.curNodes r.accepts = true ∧
      r' = { r with phase := .decide, todo := r.accepts }) := by
  unfold Run.settle at h
  split at h
  · rename_i htodo
    exact .inl ⟨htodo, (Option.some.inj h).symm⟩
  · split at h
    · rename_i hphase
      split at h
      · rename_i hmaj
        exact .inr (.inl ⟨hphase, hmaj, (Option.some.inj h).symm⟩)
      · cases h
    · rename_i hphase
      split at h
      · rename_i hmaj
        exact .inr (.inr ⟨hphase, hmaj, (Option.some.inj h).symm⟩)
      · cases h
    · cases h

end Yfs.Paxos
