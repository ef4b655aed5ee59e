/-
Yfs.Paxos.Prepare — the loop of `proposer::prepare` as one function of what
becomes of each call (paxos.cc).

`Run` cuts `prepare` at its RPCs, for the system. Here the whole loop is in
view, with its ONE variable for all replies: it holds nothing before the
first call, and after a failed call whatever the failure left there, an older
reply for instance. The status of the call decides, so none of that is read.

* `gathered_run`: what `Run` collects call by call is what the loop collects.
* `prepare_adopts`: the value is that of the highest proposal among the nodes
  that answered with accept. The invariant is about the replies so far
  (`Adopted`): the highest number is one of theirs, with its value, or it is
  still the initial one.
-/
import Yfs.Paxos.Proposer

namespace Yfs.Paxos

inductive Outcome where
  /-- `safebind` gives no handle. -/
  | noHandle
  /-- The call fails; the variable is as it was, or has something else in it. -/
  | failed (left : Option PrepareRes)
  /-- The call returns `OK`. -/
  | replied (res : PrepareRes)
  deriving DecidableEq, Repr

def Outcome.result (r : PrepareRes) : Outcome → PrepareRes
  | .noHandle => r
  | .failed left => left.getD r
  | .replied res => res

def Outcome.isOk : Outcome → Bool
  | .replied _ => true
  | _ => false

structure Gathered where
  accepts : List NodeId
  v : Value
  maxN : PropT
  deriving DecidableEq, Repr

def Gathered.init : Gathered := ⟨[], [], ⟨0, []⟩⟩

def Gathered.push (c : Gathered) (d : NodeId) (r : PrepareRes) : Gathered :=
  { accepts := c.accepts ++ [d]
    v := if r.nA.gt c.maxN then r.vA else c.v
    maxN := if r.nA.gt c.maxN then r.nA else c.maxN }

structure Prepared where
  ret : Bool
  accepts : List NodeId
  v : Value
  commit : Option Value
  deriving DecidableEq, Repr

def prepareFrom (r : PrepareRes) (c : Gathered) : List (NodeId × Outcome) → Prepared
  | [] => ⟨true, c.accepts, c.v, none⟩
  | (d, o) :: rest =>
    if o = .noHandle then prepareFrom r c rest
    else if (o.result r).oldinstance && o.isOk then
      ⟨false, c.accepts, c.v, some (o.result r).vA⟩
    else if (o.result r).accept && o.isOk then
      prepareFrom (o.result r) (c.push d (o.result r)) rest
    else prepareFrom (o.result r) c rest

/-- `prepare`; `r` is what the variable holds before it is filled. -/
def prepare (r : PrepareRes) (l : List (NodeId × Outcome)) : Prepared :=
  prepareFrom r .init l

/-! ## One call -/

def oks (l : List (NodeId × Outcome)) : List (NodeId × PrepareRes) :=
  l.filterMap fun x =>
    match x.2 with
    | .replied res => some (x.1, res)
    | _ => none

def accepting (l : List (NodeId × Outcome)) : List (NodeId × PrepareRes) :=
  (oks l).filter fun x => x.2.accept

section Loop

variable {r : PrepareRes} {c : Gathered} {d : NodeId} {rest : List (NodeId × Outcome)}

theorem prepareFrom_noHandle :
    prepareFrom r c ((d, .noHandle) :: rest) = prepareFrom r c rest := by
  rw [prepareFrom, if_pos rfl]

/-- A failed call has an effect on the reply variable only. -/
theorem prepareFrom_failed (left : Option PrepareRes) :
    prepareFrom r c ((d, .failed left) :: rest) = prepareFrom (left.getD r) c rest := by
  simp [prepareFrom, Outcome.isOk, Outcome.result]

theorem prepareFrom_old {res : PrepareRes} (h : res.oldinstance = true) :
    prepareFrom r c ((d, .replied res) :: rest) = ⟨false, c.accepts, c.v, some res.vA⟩ := by
  simp [prepareFrom, Outcome.isOk, Outcome.result, h]

theorem prepareFrom_accept {res : PrepareRes} (h : res.oldinstance = false)
    (ha : res.accept = true) :
    prepareFrom r c ((d, .replied res) :: rest) = prepareFrom res (c.push d res) rest := by
  simp [prepareFrom, Outcome.isOk, Outcome.result, h, ha]

theorem prepareFrom_reject {res : PrepareRes} (h : res.oldinstance = false)
    (ha : res.accept = false) :
    prepareFrom r c ((d, .replied res) :: rest) = prepareFrom res c rest := by
  simp [prepareFrom, Outcome.isOk, Outcome.result, h, ha]

/-- Up to the first reply that says oldinstance the loop pushes the replies
with accept, in order; the reply variable does not matter. -/
theorem prepareFrom_append {l : List (NodeId × Outcome)}
    (hold : ∀ x ∈ oks l, x.2.oldinstance = false) (r : PrepareRes) (c : Gathered)
    (rest : List (NodeId × Outcome)) :
    ∃ r', prepareFrom r c (l ++ rest) =
      prepareFrom r' ((accepting l).foldl (fun c x => c.push x.1 x.2) c) rest := by
  induction l generalizing r c with
  | nil => exact ⟨r, rfl⟩
  | cons x l ih =>
    obtain ⟨d, o⟩ := x
    cases o with
    | noHandle =>
      obtain ⟨r', hr'⟩ := ih hold r c
      exact ⟨r', prepareFrom_noHandle.trans hr'⟩
    | failed left =>
      obtain ⟨r', hr'⟩ := ih hold (left.getD r) c
      exact ⟨r', (prepareFrom_failed left).trans hr'⟩
    | replied res =>
      have hres : res.oldinstance = false := hold (d, res) (by simp [oks])
      have hold' : ∀ x ∈ oks l, x.2.oldinstance = false :=
        fun x hx => hold x (List.mem_cons_of_mem (d, res) hx)
      cases ha : res.accept with
      | true =>
        obtain ⟨r', hr'⟩ := ih hold' res (c.push d res)
        refine ⟨r', (prepareFrom_accept hres ha).trans (hr'.trans ?_)⟩
        simp [accepting, oks, ha]
      | false =>
        obtain ⟨r', hr'⟩ := ih hold' res c
        refine ⟨r', (prepareFrom_reject hres ha).trans (hr'.trans ?_)⟩
        simp [accepting, oks, ha]

end Loop

/-! ## The calls of a run -/

def Run.gathered (r : Run) : Gathered := ⟨r.accepts, r.v, r.maxN⟩

def Run.take (r : Run) (d : NodeId) : Outcome → Run
  | .replied res => r.promised d res
  | _ => r

/-- The system's run collects, call by call, what the loop collects. -/
theorem gathered_run (r : Run) (l : List (NodeId × Outcome)) :
    (l.foldl (fun r x => r.take x.1 x.2) r).gathered =
      (accepting l).foldl (fun c x => c.push x.1 x.2) r.gathered := by
  induction l generalizing r with
  | nil => rfl
  | cons x l ih =>
    obtain ⟨d, o⟩ := x
    rw [List.foldl_cons, ih]
    cases o with
    | noHandle => rfl
    | failed left => rfl
    | replied res =>
      cases ha : res.accept with
      | true => simp [accepting, oks, ha, Run.take, Run.promised, Run.gathered, Gathered.push]
      | false => simp [accepting, oks, ha, Run.take, Run.promised]

/-! ## The value -/

structure Adopted (l : List (NodeId × PrepareRes)) (c : Gathered) : Prop where
  accepts : c.accepts = l.map Prod.fst
  le_max : ∀ x ∈ l, x.2.nA ≤ c.maxN
  value : c.maxN = ⟨0, []⟩ ∧ c.v = [] ∨ ∃ x ∈ l, x.2.nA = c.maxN ∧ x.2.vA = c.v

theorem adopted_init : Adopted [] .init := ⟨rfl, by simp, .inl ⟨rfl, rfl⟩⟩

variable {l : List (NodeId × PrepareRes)} {c : Gathered}

theorem Adopted.push (h : Adopted l c) (x : NodeId × PrepareRes) :
    Adopted (l ++ [x]) (c.push x.1 x.2) := by
  have hacc : (c.push x.1 x.2).accepts = (l ++ [x]).map Prod.fst := by
    simp [Gathered.push, h.accepts]
  by_cases hgt : x.2.nA.gt c.maxN = true
  · have hlt : c.maxN < x.2.nA := PropT.gt_iff.mp hgt
    have hmax : (c.push x.1 x.2).maxN = x.2.nA := if_pos hgt
    have hv : (c.push x.1 x.2).v = x.2.vA := if_pos hgt
    refine ⟨hacc, fun y hy => ?_, .inr ⟨x, by simp, hmax.symm, hv.symm⟩⟩
    rw [hmax]
    rcases List.mem_append.mp hy with hy | hy
    · exact (h.le_max y hy).trans hlt.le
    · rw [List.mem_singleton.mp hy]
  · have hle : x.2.nA ≤ c.maxN := not_lt.mp fun hlt => hgt (PropT.gt_iff.mpr hlt)
    have hmax : (c.push x.1 x.2).maxN = c.maxN := if_neg hgt
    have hv : (c.push x.1 x.2).v = c.v := if_neg hgt
    refine ⟨hacc, fun y hy => ?_, ?_⟩
    · rw [hmax]
      rcases List.mem_append.mp hy with hy | hy
      · exact h.le_max y hy
      · rw [List.mem_singleton.mp hy]
        exact hle
    · rw [hmax, hv]
      exact h.value.imp_right fun ⟨y, hy, hval⟩ => ⟨y, List.mem_append_left [x] hy, hval⟩

theorem Adopted.foldl {l' : List (NodeId × PrepareRes)} (h : Adopted l c) :
    Adopted (l ++ l') (l'.foldl (fun c x => c.push x.1 x.2) c) := by
  induction l' generalizing l c with
  | nil => simpa using h
  | cons x l' ih =>
    have hnext := ih (h.push x)
    rwa [List.append_assoc] at hnext

/-- The answers that acceptors give: a number says what was proposed under
it, and the number 0 that nothing was. -/
structure Consistent (l : List (NodeId × PrepareRes)) : Prop where
  same : ∀ x ∈ l, ∀ y ∈ l, x.2.nA = y.2.nA → x.2.vA = y.2.vA
  zero : ∀ x ∈ l, x.2.nA.n = 0 → x.2.vA = []

/-- The value of the highest proposal. -/
theorem Adopted.v_eq (h : Adopted l c) (hl : Consistent l) {x : NodeId × PrepareRes} (hx : x ∈ l)
    (hmax : ∀ y ∈ l, y.2.nA ≤ x.2.nA) : c.v = x.2.vA := by
  have hxle := h.le_max x hx
  rcases h.value with ⟨hzero, hv⟩ | ⟨y, hy, hn, hv⟩
  · rw [hzero] at hxle
    rw [hv, hl.zero x hx (Nat.le_zero.mp (PropT.n_le_of_le hxle))]
  · have hnum : y.2.nA = x.2.nA := le_antisymm (hmax y hy) (hn ▸ hxle)
    rw [← hv, hl.same y hy x hx hnum]

/-- No value when nobody has accepted a proposal. -/
theorem Adopted.v_nil (h : Adopted l c) (hl : Consistent l) (hzero : ∀ x ∈ l, x.2.nA.n = 0) :
    c.v = [] := by
  rcases h.value with ⟨-, hv⟩ | ⟨y, hy, -, hv⟩
  · exact hv
  · rw [← hv, hl.zero y hy (hzero y hy)]

/-- **Prepare adopts the right value.** Whatever becomes of the calls and
whatever the reply variable holds in between: without an oldinstance reply the
result is true, with the nodes that accepted in order and the value of the
highest proposal among them, none if there is none; at the first oldinstance
reply that value is committed and the result is false, whatever would come
after it. -/
theorem prepare_adopts (r : PrepareRes) (l : List (NodeId × Outcome))
    (hl : Consistent (accepting l)) :
    ((∀ x ∈ oks l, x.2.oldinstance = false) →
      (prepare r l).ret = true ∧ (prepare r l).commit = none ∧
      (prepare r l).accepts = (accepting l).map Prod.fst ∧
      (∀ x ∈ accepting l, (∀ y ∈ accepting l, y.2.nA ≤ x.2.nA) →
        (prepare r l).v = x.2.vA) ∧
      ((∀ x ∈ accepting l, x.2.nA.n = 0) → (prepare r l).v = [])) ∧
    ∀ pre d res post, l = pre ++ (d, .replied res) :: post →
      (∀ x ∈ oks pre, x.2.oldinstance = false) → res.oldinstance = true →
      (prepare r l).ret = false ∧ (prepare r l).commit = some res.vA := by
  constructor
  · intro hold
    obtain ⟨r', hr'⟩ := prepareFrom_append hold r .init []
    rw [List.append_nil] at hr'
    have hadopt : Adopted (accepting l) _ := adopted_init.foldl
    rw [prepare, hr']
    exact ⟨rfl, rfl, hadopt.accepts, fun x hx hmax => hadopt.v_eq hl hx hmax,
      fun hzero => hadopt.v_nil hl hzero⟩
  · rintro pre d res post rfl hold hres
    obtain ⟨r', hr'⟩ := prepareFrom_append hold r .init ((d, .replied res) :: post)
    rw [prepare, hr', prepareFrom_old hres]
    exact ⟨rfl, rfl⟩

/-- The first call fails with an oldinstance reply in the variable, the second
node has accepted number 2 and the third nothing. -/
theorem prepare_adopts_second :
    (prepare ⟨true, true, ⟨9, []⟩, ['z']⟩
      [(['a'], .failed none), (['b'], .replied ⟨false, true, ⟨2, ['q']⟩, ['x']⟩),
        (['c'], .replied ⟨false, true, ⟨0, ['c']⟩, []⟩)]).v = ['x'] := by
  have hl : Consistent (accepting
      [(['a'], .failed none), (['b'], .replied ⟨false, true, ⟨2, ['q']⟩, ['x']⟩),
        (['c'], .replied ⟨false, true, ⟨0, ['c']⟩, []⟩)]) := ⟨by decide, by decide⟩
  obtain ⟨-, -, -, hmax, -⟩ :=
    (prepare_adopts ⟨true, true, ⟨9, []⟩, ['z']⟩ _ hl).1 (by decide)
  exact hmax (['b'], ⟨false, true, ⟨2, ['q']⟩, ['x']⟩) (by decide) (by decide)

end Yfs.Paxos
