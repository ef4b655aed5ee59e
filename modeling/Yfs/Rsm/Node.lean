/-
Yfs.Rsm.Node — one node of the replicated state machine (rsm.cc): its
variables and what its handlers and its recovery thread do to them.

Every handler runs with `rsm_mutex` held and drops it around an RPC, so
each is cut there. `client_invoke` drops it around the call to each
backup and holds `invoke_mutex` throughout; the recovery thread drops it
around `join`, `statetransfer`, `statetransferdone` and while it waits.
A view with one member needs no call at all, and then `client_invoke` is
one step.

The service behind the machine is a parameter: a state, and what
`execute` does to it.

Each node carries history variables that no handler reads: `hist`, the
requests whose execution gave the present state; `execd`, the requests
this node has executed itself, whatever happened to its state
afterwards; and `base`, the view it last obtained its state for (0 when it
still has the state it started with).
-/
import Yfs.Lib.Run
import Yfs.Lib.Words

namespace Yfs.Rsm

/-- `std::string`, the address of a node. -/
abbrev NodeId := List Char

structure Viewstamp where
  vid : Nat
  seqno : Nat
  deriving DecidableEq, Repr

/-- `seqno++`, on an `unsigned int`. -/
def Viewstamp.next (vs : Viewstamp) : Viewstamp := ⟨vs.vid, (vs.seqno + 1) % 2 ^ 32⟩

/-- The service: `execute`, and what `unmarshal_state` makes of the empty
string, which is what a reply without a state carries. -/
structure Service (σ ρ κ : Type) where
  execute : σ → ρ → σ × κ
  unmarshalEmpty : σ

def register : Service Nat Nat Nat := ⟨fun st req => (req, st), 0⟩

structure Entry (ρ κ : Type) where
  vs : Viewstamp
  req : ρ
  rep : κ
  deriving DecidableEq, Repr

/-- A `client_invoke` in progress: it is at member `target`, `rest` is what is
left of the view after it, and `call` is the RPC it waits for, if it has
made it yet. `vs` is the stamp it took. -/
structure Invoking (ρ : Type) where
  vs : Viewstamp
  req : ρ
  target : NodeId
  rest : List NodeId
  call : Option Nat
  deriving DecidableEq, Repr

/-- Where the recovery thread stands. `transfer` and `done` name the
primary it remembers and the RPC it waits for. -/
inductive RecPc where
  | retry
  | joining
  | invokeMutex
  | waitBackups
  | transfer (m : NodeId) (call : Option Nat)
  | done (m : NodeId) (call : Option Nat)
  | sleeping
  deriving DecidableEq, Repr

/-- The variables of `rsm`, and the history variables. -/
structure Node (σ ρ κ : Type) where
  primary : NodeId
  insync : Bool
  inviewchange : Bool
  vidCommit : Nat
  vidInsync : Nat
  myvs : Viewstamp
  lastMyvs : Viewstamp
  backups : List NodeId
  state : σ
  invoking : Option (Invoking ρ)
  recovery : RecPc
  hist : List (Entry ρ κ)
  execd : List (Entry ρ κ)
  base : Nat

variable {σ ρ κ : Type}

/-- `rsm::rsm`, before the first view is committed. -/
def Node.new (first : NodeId) (st : σ) : Node σ ρ κ :=
  { primary := first, insync := false, inviewchange := true, vidCommit := 0, vidInsync := 0
    myvs := ⟨0, 1⟩, lastMyvs := ⟨0, 0⟩, backups := [], state := st, invoking := none
    recovery := .retry, hist := [], execd := [], base := 0 }

/-! ## View changes -/

def Node.setPrimary (views : Nat → List NodeId) (n : Node σ ρ κ) (vid : Nat) :
    Option (Node σ ρ κ) :=
  if views vid = [] then none
  else if n.primary ∈ views vid then some n
  else match (views (vid - 1)).find? (fun m => m ∈ views vid) with
    | some m => some { n with primary := m }
    | none => none

def Node.commitChangeWo (views : Nat → List NodeId) (n : Node σ ρ κ) (vid : Nat) :
    Option (Node σ ρ κ) :=
  if vid ≤ n.vidCommit then some n
  else { n with vidCommit := vid, inviewchange := true }.setPrimary views vid

/-! ## Recovery -/

def Node.recoveryHead (views : Nat → List NodeId) (me : NodeId) (n : Node σ ρ κ) : Node σ ρ κ :=
  if me ∈ views n.vidCommit then
    if n.primary = me then { n with vidInsync := n.vidCommit, recovery := .invokeMutex }
    else { n with vidInsync := n.vidCommit, recovery := .transfer n.primary none }
  else { n with recovery := .joining }

def Node.recoverySynced (views : Nat → List NodeId) (me : NodeId) (n : Node σ ρ κ) (r : Bool) :
    Node σ ρ κ :=
  if n.vidInsync ≠ n.vidCommit then n.recoveryHead views me
  else if r then
    { n with myvs := ⟨n.vidCommit, 1⟩, inviewchange := false, recovery := .sleeping }
  else { n with recovery := .sleeping }

def Node.syncWithBackups (views : Nat → List NodeId) (n : Node σ ρ κ) : Node σ ρ κ :=
  { n with
    insync := true
    backups := (views n.vidInsync).filter fun m => m ≠ n.primary
    recovery := .waitBackups
    base := n.vidInsync }

def Node.backupsSynced (n : Node σ ρ κ) : Bool :=
  n.vidInsync ≠ n.vidCommit || n.backups.isEmpty

/-- The result of `transferreq`; `hist` is the history behind `state`. -/
structure TransferRes (σ ρ κ : Type) where
  state : Option σ
  last : Viewstamp
  hist : List (Entry ρ κ)

def Node.transferreq (n : Node σ ρ κ) (last : Viewstamp) (vid : Nat) :
    Option (TransferRes σ ρ κ) :=
  if n.insync = false ∨ vid ≠ n.vidInsync then none
  else some
    { state := if last ≠ n.lastMyvs then some n.state else none
      last := n.lastMyvs
      hist := n.hist }

/-- `statetransfer` with an OK reply. The state is installed only when the
stamps differ. -/
def Node.installState (svc : Service σ ρ κ) (n : Node σ ρ κ) (r : TransferRes σ ρ κ) :
    Node σ ρ κ :=
  if n.lastMyvs ≠ r.last then
    { n with state := r.state.getD svc.unmarshalEmpty, hist := r.hist, lastMyvs := r.last
             base := n.vidInsync }
  else { n with lastMyvs := r.last, base := n.vidInsync }

/-- Installed or not, the node is as new as the reply from then on. -/
theorem installState_eq (svc : Service σ ρ κ) (n : Node σ ρ κ) (r : TransferRes σ ρ κ) :
    ∃ st hist, n.installState svc r =
      { n with state := st, hist := hist, lastMyvs := r.last, base := n.vidInsync } := by
  unfold Node.installState
  split
  · exact ⟨_, _, rfl⟩
  · exact ⟨_, _, rfl⟩

/-- The state the node ends up with, from the reply or because it had it. -/
theorem installState_state (svc : Service σ ρ κ) {n : Node σ ρ κ} {r : TransferRes σ ρ κ} {x : σ}
    (hsome : r.last ≠ n.lastMyvs → r.state ≠ none) (hnew : ∀ y, r.state = some y → y = x)
    (hold : n.lastMyvs = r.last → n.state = x) : (n.installState svc r).state = x := by
  unfold Node.installState
  split
  · rename_i hne
    obtain ⟨y, hy⟩ := Option.ne_none_iff_exists'.mp (hsome fun he => hne he.symm)
    show r.state.getD svc.unmarshalEmpty = x
    rw [hy]
    exact hnew y hy
  · rename_i heq
    exact hold (not_not.mp heq)

/-- `transferdonereq`, and whether it answers OK. -/
def Node.transferdonereq (n : Node σ ρ κ) (m : NodeId) (vid : Nat) : Bool × Node σ ρ κ :=
  if n.insync = false ∨ vid ≠ n.vidInsync then (false, n)
  else (true, { n with backups := n.backups.filter fun b => b ≠ m })

/-! ## Requests -/

def Node.execute (svc : Service σ ρ κ) (n : Node σ ρ κ) (vs : Viewstamp) (req : ρ) :
    Entry ρ κ × Node σ ρ κ :=
  let entry : Entry ρ κ := ⟨vs, req, (svc.execute n.state req).2⟩
  (entry, { n with
    state := (svc.execute n.state req).1
    hist := n.hist ++ [entry]
    execd := n.execd ++ [entry] })

/-- The loop of `client_invoke` from a point where it has the mutex: skip
the members that equal `primary`, go to the next one, or, if there is
none left, execute the request. The entry is there when the request was
executed, that is, when `client_invoke` returns OK. -/
def Node.invokeLoop (svc : Service σ ρ κ) (n : Node σ ρ κ) (vs : Viewstamp) (req : ρ) :
    List NodeId → Option (Entry ρ κ) × Node σ ρ κ
  | [] => (some (n.execute svc vs req).1, { (n.execute svc vs req).2 with invoking := none })
  | m :: rest =>
    if m = n.primary then n.invokeLoop svc vs req rest
    else (none, { n with invoking := some ⟨vs, req, m, rest, none⟩ })

/-- `client_invoke` up to its first RPC. A refused call (BUSY, NOTPRIMARY)
changes nothing. -/
def Node.clientInvoke (svc : Service σ ρ κ) (views : Nat → List NodeId) (me : NodeId)
    (n : Node σ ρ κ) (req : ρ) : Option (Entry ρ κ) × Node σ ρ κ :=
  if n.inviewchange = true ∨ n.primary ≠ me then (none, n)
  else
    { n with lastMyvs := n.myvs, myvs := n.myvs.next }.invokeLoop svc n.myvs
      req (views n.vidCommit)

/-- `invoke`, and whether it answers OK. -/
def Node.invoke (svc : Service σ ρ κ) (me : NodeId) (n : Node σ ρ κ) (vs : Viewstamp) (req : ρ) :
    Bool × Node σ ρ κ :=
  if n.inviewchange = true ∨ n.primary = me ∨ vs ≠ n.myvs then (false, n)
  else (true,
    ({ n with lastMyvs := n.myvs, myvs := n.myvs.next }.execute svc vs req).2)

/-! ## What the handlers do -/

/-- The loop executes the request, or stops at the first member that is
not the primary. -/
theorem invokeLoop_cases (svc : Service σ ρ κ) (n : Node σ ρ κ) (vs : Viewstamp) (req : ρ)
    (l : List NodeId) :
    ((∀ m ∈ l, m = n.primary) ∧ n.invokeLoop svc vs req l =
      (some (n.execute svc vs req).1, { (n.execute svc vs req).2 with invoking := none })) ∨
    ∃ pre m rest, l = pre ++ m :: rest ∧ (∀ x ∈ pre, x = n.primary) ∧ m ≠ n.primary ∧
      n.invokeLoop svc vs req l =
        (none, { n with invoking := some ⟨vs, req, m, rest, none⟩ }) := by
  induction l with
  | nil => exact .inl ⟨by simp, rfl⟩
  | cons x l ih =>
    by_cases hx : x = n.primary
    · have hloop : n.invokeLoop svc vs req (x :: l) = n.invokeLoop svc vs req l := by
        rw [Node.invokeLoop, if_pos hx]
      rw [hloop]
      rcases ih with ⟨hall, heq⟩ | ⟨pre, m, rest, rfl, hpre, hm, heq⟩
      · exact .inl ⟨by simpa [hx] using hall, heq⟩
      · exact .inr ⟨x :: pre, m, rest, rfl, by simpa [hx] using hpre, hm, heq⟩
    · exact .inr ⟨[], x, l, rfl, by simp, hx, by rw [Node.invokeLoop, if_neg hx]⟩

/-- The loop touches the state, the histories and `invoking`, nothing else. -/
theorem invokeLoop_fields (svc : Service σ ρ κ) (nd : Node σ ρ κ) (vs : Viewstamp) (req : ρ)
    (l : List NodeId) :
    (nd.invokeLoop svc vs req l).2.primary = nd.primary ∧
    (nd.invokeLoop svc vs req l).2.insync = nd.insync ∧
    (nd.invokeLoop svc vs req l).2.inviewchange = nd.inviewchange ∧
    (nd.invokeLoop svc vs req l).2.vidCommit = nd.vidCommit ∧
    (nd.invokeLoop svc vs req l).2.vidInsync = nd.vidInsync ∧
    (nd.invokeLoop svc vs req l).2.myvs = nd.myvs ∧
    (nd.invokeLoop svc vs req l).2.lastMyvs = nd.lastMyvs ∧
    (nd.invokeLoop svc vs req l).2.recovery = nd.recovery ∧
    (nd.invokeLoop svc vs req l).2.base = nd.base ∧
    (nd.invokeLoop svc vs req l).2.backups = nd.backups := by
  induction l with
  | nil => exact ⟨rfl, rfl, rfl, rfl, rfl, rfl, rfl, rfl, rfl, rfl⟩
  | cons m l ih =>
    unfold Node.invokeLoop
    split
    · exact ih
    · exact ⟨rfl, rfl, rfl, rfl, rfl, rfl, rfl, rfl, rfl, rfl⟩

def Node.served (svc : Service σ ρ κ) (n : Node σ ρ κ) (req : ρ) : Node σ ρ κ :=
  ({ n with lastMyvs := n.myvs, myvs := n.myvs.next }.execute svc n.myvs req).2

theorem invoke_cases (svc : Service σ ρ κ) (me : NodeId) (n : Node σ ρ κ) (vs : Viewstamp)
    (req : ρ) : n.invoke svc me vs req = (false, n) ∨
      (n.inviewchange = false ∧ n.primary ≠ me ∧ vs = n.myvs ∧
        n.invoke svc me vs req = (true, n.served svc req)) := by
  unfold Node.invoke
  split
  · exact .inl rfl
  · rename_i hc
    push Not at hc
    obtain ⟨h1, h2, h3⟩ := hc
    exact .inr ⟨by simpa using h1, h2, h3, by rw [h3]; rfl⟩

end Yfs.Rsm
