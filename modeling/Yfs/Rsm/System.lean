/-
Yfs.Rsm.System — the nodes of the replicated state machine and the
messages between them.

The sequence of views is fixed: `views i` is the member list the config
layer has agreed on for view `i`, and `views 0` is empty. A node learns
views in any steps and at any time (`commitChange`, `joined`), so some
nodes are behind others.

An RPC is executed at most once, arbitrarily late, and its caller may
give it up at any time (it timed out, or the callee could not be
reached); then it may still be executed. A node that stops is one that
takes no further step.

The wait at the end of the recovery loop is left only after a signal,
that is, once a view has been committed that the node has not synced for.

`acked` is history: the entries of all `client_invoke`s that returned OK.
-/
import Yfs.Rsm.Node

namespace Yfs.Rsm

open Function

variable {σ ρ κ : Type}

/-! ## Calls in flight -/

inductive InvokeCall (ρ : Type) where
  | unused
  | sent (dst : NodeId) (vs : Viewstamp) (req : ρ)
  | replied (dst : NodeId) (vs : Viewstamp) (req : ρ) (ok : Bool)
  deriving DecidableEq, Repr

inductive TransferCall (σ ρ κ : Type) where
  | unused
  | sent (dst : NodeId) (last : Viewstamp) (vid : Nat)
  | replied (dst : NodeId) (vid : Nat) (res : Option (TransferRes σ ρ κ))

inductive DoneCall where
  | unused
  | sent (src dst : NodeId) (vid : Nat)
  | replied (ok : Bool)
  deriving DecidableEq, Repr

structure Sys (σ ρ κ : Type) where
  nodes : NodeId → Node σ ρ κ
  invokes : Nat → InvokeCall ρ
  transfers : Nat → TransferCall σ ρ κ
  dones : Nat → DoneCall
  nextCall : Nat
  acked : List (Entry ρ κ)

def Sys.init (first : NodeId) (st : σ) : Sys σ ρ κ :=
  { nodes := fun _ => Node.new first st
    invokes := fun _ => .unused
    transfers := fun _ => .unused
    dones := fun _ => .unused
    nextCall := 0
    acked := [] }

inductive Event (ρ : Type) where
  -- view changes and the recovery thread
  | commitChange (n : NodeId) (vid : Nat)
  | recoveryRetry (n : NodeId)
  | joined (n : NodeId) (vid : Nat)
  | joinFails (n : NodeId)
  | takeInvokeMutex (n : NodeId)
  | backupsWake (n : NodeId)
  | sendTransfer (n : NodeId)
  | transferreq (call : Nat)
  | transferReturn (n : NodeId)
  | transferFails (n : NodeId)
  | sendDone (n : NodeId)
  | transferdonereq (call : Nat)
  | doneReturn (n : NodeId)
  | doneFails (n : NodeId)
  | sleepWake (n : NodeId)
  -- requests
  | clientInvoke (n : NodeId) (req : ρ)
  | sendInvoke (n : NodeId)
  | invoke (call : Nat)
  | invokeReturn (n : NodeId)
  | invokeFails (n : NodeId)
  deriving DecidableEq, Repr

def Sys.setNode (s : Sys σ ρ κ) (n : NodeId) (nd : Node σ ρ κ) : Sys σ ρ κ :=
  { s with nodes := update s.nodes n nd }

@[simp] theorem Sys.setNode_self (s : Sys σ ρ κ) (n : NodeId) (nd : Node σ ρ κ) :
    (s.setNode n nd).nodes n = nd := update_self _ _ _

@[simp] theorem Sys.setNode_of_ne (s : Sys σ ρ κ) {n m : NodeId} (nd : Node σ ρ κ) (h : m ≠ n) :
    (s.setNode n nd).nodes m = s.nodes m := update_of_ne h _ _

/-- What holds of the node that changes and of the others holds of all. -/
theorem Sys.forall_setNode {s : Sys σ ρ κ} {n : NodeId} {nd : Node σ ρ κ}
    {P : NodeId → Node σ ρ κ → Prop} (hn : P n nd) (h : ∀ m, P m (s.nodes m)) (m : NodeId) :
    P m ((s.setNode n nd).nodes m) :=
  (forall_update_iff s.nodes P).mpr ⟨hn, fun m _ => h m⟩ m

/-! ## Steps -/

def Sys.invoked (s : Sys σ ρ κ) (n : NodeId) (r : Option (Entry ρ κ) × Node σ ρ κ) : Sys σ ρ κ :=
  { s.setNode n r.2 with acked := r.1.toList ++ s.acked }

/-- Only the last value written to a node counts. -/
theorem invoked_setNode (s : Sys σ ρ κ) (P : NodeId) (nd : Node σ ρ κ)
    (r : Option (Entry ρ κ) × Node σ ρ κ) : (s.setNode P nd).invoked P r = s.invoked P r := by
  simp [Sys.invoked, Sys.setNode]

theorem invoked_refused (s : Sys σ ρ κ) (n : NodeId) : s.invoked n (none, s.nodes n) = s := by
  simp [Sys.invoked, Sys.setNode]

def Sys.sendTransfer (s : Sys σ ρ κ) (n m : NodeId) : Sys σ ρ κ :=
  { s.setNode n { s.nodes n with recovery := .transfer m (some s.nextCall) } with
    transfers := update s.transfers s.nextCall
      (.sent m (s.nodes n).lastMyvs (s.nodes n).vidInsync)
    nextCall := s.nextCall + 1 }

def Sys.sendDone (s : Sys σ ρ κ) (n m : NodeId) : Sys σ ρ κ :=
  { s.setNode n { s.nodes n with recovery := .done m (some s.nextCall) } with
    dones := update s.dones s.nextCall (.sent n m (s.nodes n).vidInsync)
    nextCall := s.nextCall + 1 }

def Sys.sendInvoke (s : Sys σ ρ κ) (n : NodeId) (inv : Invoking ρ) : Sys σ ρ κ :=
  { s.setNode n { s.nodes n with invoking := some { inv with call := some s.nextCall } } with
    invokes := update s.invokes s.nextCall
      (.sent inv.target (s.nodes n).lastMyvs inv.req)
    nextCall := s.nextCall + 1 }

def Sys.serveTransfer (s : Sys σ ρ κ) (k : Nat) (dst : NodeId) (last : Viewstamp) (vid : Nat) :
    Sys σ ρ κ :=
  { s with
    transfers := update s.transfers k
      (.replied dst vid ((s.nodes dst).transferreq last vid)) }

def Sys.serveDone (s : Sys σ ρ κ) (k : Nat) (src dst : NodeId) (vid : Nat) : Sys σ ρ κ :=
  { s.setNode dst ((s.nodes dst).transferdonereq src vid).2 with
    dones := update s.dones k (.replied ((s.nodes dst).transferdonereq src vid).1) }

def Sys.serveInvoke (svc : Service σ ρ κ) (s : Sys σ ρ κ) (k : Nat) (dst : NodeId)
    (vs : Viewstamp) (req : ρ) : Sys σ ρ κ :=
  { s.setNode dst ((s.nodes dst).invoke svc dst vs req).2 with
    invokes := update s.invokes k
      (.replied dst vs req ((s.nodes dst).invoke svc dst vs req).1) }

/-- `statetransfer` failed: try again, or leave the loop if there is a new
view. -/
def Node.transferFails (n : Node σ ρ κ) (m : NodeId) : Node σ ρ κ :=
  if n.vidInsync = n.vidCommit then { n with recovery := .transfer m none }
  else { n with recovery := .done m none }

def step (svc : Service σ ρ κ) (views : Nat → List NodeId) (s : Sys σ ρ κ) :
    Event ρ → Option (Sys σ ρ κ)
  | .commitChange n vid => ((s.nodes n).commitChangeWo views vid).map (s.setNode n)
  | .recoveryRetry n =>
    if (s.nodes n).recovery = .retry then some (s.setNode n ((s.nodes n).recoveryHead views n))
    else none
  | .joined n vid =>
    if (s.nodes n).recovery = .joining then
      ((s.nodes n).commitChangeWo views vid).map fun nd => s.setNode n (nd.recoveryHead views n)
    else none
  | .joinFails n =>
    if (s.nodes n).recovery = .joining then
      some (s.setNode n { s.nodes n with recovery := .retry })
    else none
  | .takeInvokeMutex n =>
    if (s.nodes n).recovery = .invokeMutex ∧ (s.nodes n).invoking.isNone then
      some (s.setNode n ((s.nodes n).syncWithBackups views))
    else none
  | .backupsWake n =>
    if (s.nodes n).recovery = .waitBackups ∧ (s.nodes n).backupsSynced = true then
      some (s.setNode n ({ s.nodes n with insync := false }.recoverySynced views n true))
    else none
  | .sendTransfer n =>
    match (s.nodes n).recovery with
    | .transfer m none => some (s.sendTransfer n m)
    | _ => none
  | .transferreq k =>
    match s.transfers k with
    | .sent dst last vid => some (s.serveTransfer k dst last vid)
    | _ => none
  | .transferReturn n =>
    match (s.nodes n).recovery with
    | .transfer m (some k) =>
      match s.transfers k with
      | .replied _ _ (some r) =>
        some (s.setNode n { (s.nodes n).installState svc r with recovery := .done m none })
      | _ => none
    | _ => none
  | .transferFails n =>
    match (s.nodes n).recovery with
    | .transfer m _ => some (s.setNode n ((s.nodes n).transferFails m))
    | _ => none
  | .sendDone n =>
    match (s.nodes n).recovery with
    | .done m none => some (s.sendDone n m)
    | _ => none
  | .transferdonereq k =>
    match s.dones k with
    | .sent src dst vid => some (s.serveDone k src dst vid)
    | _ => none
  | .doneReturn n =>
    match (s.nodes n).recovery with
    | .done _ (some k) =>
      match s.dones k with
      | .replied ok => some (s.setNode n ((s.nodes n).recoverySynced views n ok))
      | _ => none
    | _ => none
  | .doneFails n =>
    match (s.nodes n).recovery with
    | .done _ _ => some (s.setNode n ((s.nodes n).recoverySynced views n false))
    | _ => none
  | .sleepWake n =>
    if (s.nodes n).recovery = .sleeping ∧ (s.nodes n).vidInsync ≠ (s.nodes n).vidCommit then
      some (s.setNode n ((s.nodes n).recoveryHead views n))
    else none
  | .clientInvoke n req =>
    -- the call waits for `invoke_mutex`
    if (s.nodes n).invoking.isNone then
      some (s.invoked n ((s.nodes n).clientInvoke svc views n req))
    else none
  | .sendInvoke n =>
    match (s.nodes n).invoking with
    | some inv => if inv.call = none then some (s.sendInvoke n inv) else none
    | none => none
  | .invoke k =>
    match s.invokes k with
    | .sent dst vs req => some (s.serveInvoke svc k dst vs req)
    | _ => none
  | .invokeReturn n =>
    match (s.nodes n).invoking with
    | some inv =>
      match inv.call with
      | some k =>
        match s.invokes k with
        | .replied _ _ _ true =>
          some (s.invoked n ((s.nodes n).invokeLoop svc inv.vs inv.req inv.rest))
        | .replied _ _ _ false => some (s.setNode n { s.nodes n with invoking := none })
        | _ => none
      | none => none
    | none => none
  | .invokeFails n =>
    -- the backup could not be bound, or the call timed out
    match (s.nodes n).invoking with
    | some _ => some (s.setNode n { s.nodes n with invoking := none })
    | none => none

/-! ## Everything a step can do -/

/-- The steps as a relation: one constructor for each thing that can
happen, with what it needs and what it leaves. -/
inductive Trans (svc : Service σ ρ κ) (views : Nat → List NodeId) (s : Sys σ ρ κ) :
    Event ρ → Sys σ ρ κ → Prop
  | commitChange {n vid nd} (h : (s.nodes n).commitChangeWo views vid = some nd) :
      Trans svc views s (.commitChange n vid) (s.setNode n nd)
  | recoveryRetry {n} (h : (s.nodes n).recovery = .retry) :
      Trans svc views s (.recoveryRetry n) (s.setNode n ((s.nodes n).recoveryHead views n))
  | joined {n vid nd} (h : (s.nodes n).recovery = .joining)
      (hc : (s.nodes n).commitChangeWo views vid = some nd) :
      Trans svc views s (.joined n vid) (s.setNode n (nd.recoveryHead views n))
  | joinFails {n} (h : (s.nodes n).recovery = .joining) :
      Trans svc views s (.joinFails n) (s.setNode n { s.nodes n with recovery := .retry })
  | takeInvokeMutex {n} (h : (s.nodes n).recovery = .invokeMutex)
      (hi : (s.nodes n).invoking = none) :
      Trans svc views s (.takeInvokeMutex n) (s.setNode n ((s.nodes n).syncWithBackups views))
  | backupsWake {n} (h : (s.nodes n).recovery = .waitBackups)
      (hb : (s.nodes n).backupsSynced = true) :
      Trans svc views s (.backupsWake n)
        (s.setNode n ({ s.nodes n with insync := false }.recoverySynced views n true))
  | sendTransfer {n m} (h : (s.nodes n).recovery = .transfer m none) :
      Trans svc views s (.sendTransfer n) (s.sendTransfer n m)
  | transferreq {k dst last vid} (h : s.transfers k = .sent dst last vid) :
      Trans svc views s (.transferreq k) (s.serveTransfer k dst last vid)
  | transferReturn {n m k dst vid r} (h : (s.nodes n).recovery = .transfer m (some k))
      (hk : s.transfers k = .replied dst vid (some r)) :
      Trans svc views s (.transferReturn n)
        (s.setNode n { (s.nodes n).installState svc r with recovery := .done m none })
  | transferFails {n m c} (h : (s.nodes n).recovery = .transfer m c) :
      Trans svc views s (.transferFails n) (s.setNode n ((s.nodes n).transferFails m))
  | sendDone {n m} (h : (s.nodes n).recovery = .done m none) :
      Trans svc views s (.sendDone n) (s.sendDone n m)
  | transferdonereq {k src dst vid} (h : s.dones k = .sent src dst vid) :
      Trans svc views s (.transferdonereq k) (s.serveDone k src dst vid)
  | doneReturn {n m k ok} (h : (s.nodes n).recovery = .done m (some k))
      (hk : s.dones k = .replied ok) :
      Trans svc views s (.doneReturn n) (s.setNode n ((s.nodes n).recoverySynced views n ok))
  | doneFails {n m c} (h : (s.nodes n).recovery = .done m c) :
      Trans svc views s (.doneFails n) (s.setNode n ((s.nodes n).recoverySynced views n false))
  | sleepWake {n} (h : (s.nodes n).recovery = .sleeping)
      (hv : (s.nodes n).vidInsync ≠ (s.nodes n).vidCommit) :
      Trans svc views s (.sleepWake n) (s.setNode n ((s.nodes n).recoveryHead views n))
  | clientInvoke {n req} (h : (s.nodes n).invoking = none) :
      Trans svc views s (.clientInvoke n req)
        (s.invoked n ((s.nodes n).clientInvoke svc views n req))
  | sendInvoke {n inv} (h : (s.nodes n).invoking = some inv) (hc : inv.call = none) :
      Trans svc views s (.sendInvoke n) (s.sendInvoke n inv)
  | invoke {k dst vs req} (h : s.invokes k = .sent dst vs req) :
      Trans svc views s (.invoke k) (s.serveInvoke svc k dst vs req)
  | invokeReturn {n inv k dst vs req} (h : (s.nodes n).invoking = some inv)
      (hc : inv.call = some k) (hk : s.invokes k = .replied dst vs req true) :
      Trans svc views s (.invokeReturn n)
        (s.invoked n ((s.nodes n).invokeLoop svc inv.vs inv.req inv.rest))
  | invokeRefused {n inv k dst vs req} (h : (s.nodes n).invoking = some inv)
      (hc : inv.call = some k) (hk : s.invokes k = .replied dst vs req false) :
      Trans svc views s (.invokeReturn n) (s.setNode n { s.nodes n with invoking := none })
  | invokeFails {n inv} (h : (s.nodes n).invoking = some inv) :
      Trans svc views s (.invokeFails n) (s.setNode n { s.nodes n with invoking := none })

theorem trans_of_step {svc : Service σ ρ κ} {views : Nat → List NodeId} {s s' : Sys σ ρ κ}
    {e : Event ρ} (hs : step svc views s e = some s') : Trans svc views s e s' := by
  cases e with
  | commitChange n vid =>
    obtain ⟨nd, hnd, rfl⟩ := Option.map_eq_some_iff.mp hs
    exact .commitChange hnd
  | recoveryRetry n =>
    obtain ⟨h, rfl⟩ := Run.of_guard hs
    exact .recoveryRetry h
  | joined n vid =>
    obtain ⟨h, hs⟩ := Option.ite_none_right_eq_some.mp hs
    obtain ⟨nd, hnd, rfl⟩ := Option.map_eq_some_iff.mp hs
    exact .joined h hnd
  | joinFails n =>
    obtain ⟨h, rfl⟩ := Run.of_guard hs
    exact .joinFails h
  | takeInvokeMutex n =>
    obtain ⟨h, rfl⟩ := Run.of_guard hs
    exact .takeInvokeMutex h.1 (Option.isNone_iff_eq_none.mp h.2)
  | backupsWake n =>
    simp only [step] at hs
    split at hs
    · rename_i h
      cases hs
      exact .backupsWake h.1 h.2
    · cases hs
  | sendTransfer n =>
    simp only [step] at hs
    split at hs
    · rename_i h
      cases hs
      exact .sendTransfer h
    · cases hs
  | transferreq k =>
    simp only [step] at hs
    split at hs
    · rename_i h
      cases hs
      exact .transferreq h
    · cases hs
  | transferReturn n =>
    simp only [step] at hs
    split at hs
    · rename_i h
      split at hs
      · rename_i hk
        cases hs
        exact .transferReturn h hk
      · cases hs
    · cases hs
  | transferFails n =>
    simp only [step] at hs
    split at hs
    · rename_i h
      cases hs
      exact .transferFails h
    · cases hs
  | sendDone n =>
    simp only [step] at hs
    split at hs
    · rename_i h
      cases hs
      exact .sendDone h
    · cases hs
  | transferdonereq k =>
    simp only [step] at hs
    split at hs
    · rename_i h
      cases hs
      exact .transferdonereq h
    · cases hs
  | doneReturn n =>
    simp only [step] at hs
    split at hs
    · rename_i h
      split at hs
      · rename_i hk
        cases hs
        exact .doneReturn h hk
      · cases hs
    · cases hs
  | doneFails n =>
    simp only [step] at hs
    split at hs
    · rename_i h
      cases hs
      exact .doneFails h
    · cases hs
  | sleepWake n =>
    obtain ⟨h, rfl⟩ := Run.of_guard hs
    exact .sleepWake h.1 h.2
  | clientInvoke n req =>
    obtain ⟨h, rfl⟩ := Run.of_guard hs
    exact .clientInvoke (Option.isNone_iff_eq_none.mp h)
  | sendInvoke n =>
    simp only [step] at hs
    split at hs
    · rename_i h
      split at hs
      · rename_i hc
        cases hs
        exact .sendInvoke h hc
      · cases hs
    · cases hs
  | invoke k =>
    simp only [step] at hs
    split at hs
    · rename_i h
      cases hs
      exact .invoke h
    · cases hs
  | invokeReturn n =>
    simp only [step] at hs
    split at hs
    · rename_i h
      split at hs
      · rename_i hc
        split at hs
        · rename_i hk
          cases hs
          exact .invokeReturn h hc hk
        · rename_i hk
          cases hs
          exact .invokeRefused h hc hk
        · cases hs
      · cases hs
    · cases hs
  | invokeFails n =>
    simp only [step] at hs
    split at hs
    · rename_i h
      cases hs
      exact .invokeFails h
    · cases hs

end Yfs.Rsm
