/-
Yfs.Host.Node — one process: the acceptor, the config and the state
machine of a node, in any environment.

The three modules of a process have a mutex each, and a commit goes up
through them in three steps. `commit_wo` (paxos.cc) records the instance and
drops `pxs_mutex`; `paxos_commit` (config.cc) takes the new view and drops
`cfg_mutex`; `commit_change` (rsm.cc) then moves the state machine to that
view. `Upcall` says how far a commit has come. Several may be on their way,
in any order.

The way down is `recovery`: a node that is not in its view joins, and the
log it is sent goes through `config::restore` to the acceptor. `rsm_mutex`
is held from there until `commit_change_wo(cfg->vid())`, which is what
`restored` stands for: no other thread of the state machine moves, but the
acceptor and the config do.

Peers and clients are the environment. Requests come at any time with any
arguments, calls return anything the protocol allows or fail, and `commit`
is what the node's own proposer does at the end of a run. `local_of_step`
says that a node of the system in `Yfs.Rsm.System` does nothing that
`nodeStep` does not allow.
-/
import Yfs.Rsm.Primary
import Yfs.Config.System

namespace Yfs.Host

open Yfs.Paxos (NodeId Value Acceptor LogRec PropT)
open Yfs.Config (Cfg members)
open Yfs.Rsm (Node Service TransferRes Viewstamp)

variable {σ ρ κ : Type}

/-! ## The state machine of one node -/

inductive NodeEvent (σ ρ κ : Type) where
  -- the recovery thread
  | recoveryRetry
  | joinFails
  | takeInvokeMutex
  | backupsWake
  | sendTransfer (call : Nat)
  | transferReply (r : TransferRes σ ρ κ)
  | transferFails
  | sendDone (call : Nat)
  | doneReply (ok : Bool)
  | sleepWake
  -- requests
  | transferdonereq (m : NodeId) (vid : Nat)
  | clientInvoke (req : ρ)
  | sendInvoke (call : Nat)
  | invokeReply (ok : Bool)
  | invoke (vs : Viewstamp) (req : ρ)

/-- The same steps as in `Yfs.Rsm.step`, with replies from the environment;
a call that fails is a reply that is not OK. `transferreq` changes nothing. -/
def nodeStep (svc : Service σ ρ κ) (views : Nat → List NodeId) (me : NodeId) (nd : Node σ ρ κ) :
    NodeEvent σ ρ κ → Option (Node σ ρ κ)
  | .recoveryRetry => if nd.recovery = .retry then some (nd.recoveryHead views me) else none
  | .joinFails => if nd.recovery = .joining then some { nd with recovery := .retry } else none
  | .takeInvokeMutex =>
    if nd.recovery = .invokeMutex ∧ nd.invoking.isNone then some (nd.syncWithBackups views)
    else none
  | .backupsWake =>
    if nd.recovery = .waitBackups ∧ nd.backupsSynced = true then
      some ({ nd with insync := false }.recoverySynced views me true)
    else none
  | .sendTransfer k =>
    match nd.recovery with
    | .transfer m none => some { nd with recovery := .transfer m (some k) }
    | _ => none
  | .transferReply r =>
    match nd.recovery with
    | .transfer m (some _) => some { nd.installState svc r with recovery := .done m none }
    | _ => none
  | .transferFails =>
    match nd.recovery with
    | .transfer m _ => some (nd.transferFails m)
    | _ => none
  | .sendDone k =>
    match nd.recovery with
    | .done m none => some { nd with recovery := .done m (some k) }
    | _ => none
  | .doneReply ok =>
    match nd.recovery with
    | .done _ _ => some (nd.recoverySynced views me ok)
    | _ => none
  | .sleepWake =>
    if nd.recovery = .sleeping ∧ nd.vidInsync ≠ nd.vidCommit then some (nd.recoveryHead views me)
    else none
  | .transferdonereq m vid => some (nd.transferdonereq m vid).2
  | .clientInvoke req =>
    if nd.invoking.isNone then some (nd.clientInvoke svc views me req).2 else none
  | .sendInvoke k =>
    match nd.invoking with
    | some inv =>
      if inv.call = none then some { nd with invoking := some { inv with call := some k } }
      else none
    | none => none
  | .invokeReply ok =>
    match nd.invoking with
    | some inv =>
      if ok then some (nd.invokeLoop svc inv.vs inv.req inv.rest).2
      else some { nd with invoking := none }
    | none => none
  | .invoke vs req => some (nd.invoke svc me vs req).2

/-- A node stays as it is or takes a step of its own. -/
def Local (svc : Service σ ρ κ) (views : Nat → List NodeId) (me : NodeId)
    (nd nd' : Node σ ρ κ) : Prop :=
  nd' = nd ∨ ∃ ev, nodeStep svc views me nd ev = some nd'

section Local

variable {svc : Service σ ρ κ} {views : Nat → List NodeId} {s s' : Rsm.Sys σ ρ κ}

theorem local_setNode {n : NodeId} {nd : Node σ ρ κ} {e : NodeEvent σ ρ κ}
    (h : nodeStep svc views n (s.nodes n) e = some nd) (m : NodeId) :
    Local svc views m (s.nodes m) ((s.setNode n nd).nodes m) := by
  rcases eq_or_ne m n with rfl | hne
  · rw [Rsm.Sys.setNode_self]
    exact .inr ⟨e, h⟩
  · exact .inl (Rsm.Sys.setNode_of_ne s nd hne)

/-- In the system of all nodes, what a step does to a node is a step of
that node in some environment, or the commit of a view. -/
theorem local_of_step {e : Rsm.Event ρ} (hs : Rsm.step svc views s e = some s') (m : NodeId) :
    Local svc views m (s.nodes m) (s'.nodes m) ∨
    ∃ vid nd, e.Commits m vid ∧ (s.nodes m).commitChangeWo views vid = some nd ∧
      (s'.nodes m = nd ∨ s'.nodes m = nd.recoveryHead views m) := by
  cases Rsm.trans_of_step hs with
  | @commitChange n vid nd h =>
    rcases eq_or_ne m n with rfl | hne
    · exact .inr ⟨vid, nd, .inl rfl, h, .inl (Rsm.Sys.setNode_self s m nd)⟩
    · exact .inl (.inl (Rsm.Sys.setNode_of_ne s nd hne))
  | @joined n vid nd _ h =>
    rcases eq_or_ne m n with rfl | hne
    · exact .inr ⟨vid, nd, .inr rfl, h, .inr (Rsm.Sys.setNode_self s m _)⟩
    · exact .inl (.inl (Rsm.Sys.setNode_of_ne s _ hne))
  | transferreq _ => exact .inl (.inl rfl)
  | recoveryRetry h =>
    refine .inl (local_setNode (e := .recoveryRetry) ?_ m)
    simp only [nodeStep, h, if_true]
  | joinFails h =>
    refine .inl (local_setNode (e := .joinFails) ?_ m)
    simp only [nodeStep, h, if_true]
  | takeInvokeMutex h hi =>
    refine .inl (local_setNode (e := .takeInvokeMutex) ?_ m)
    simp only [nodeStep, h, hi, Option.isNone_none, and_self, if_true]
  | backupsWake h hb =>
    refine .inl (local_setNode (e := .backupsWake) ?_ m)
    simp only [nodeStep, h, hb, and_self, if_true]
  | sendTransfer h =>
    refine .inl (local_setNode (e := .sendTransfer s.nextCall) ?_ m)
    simp only [nodeStep, h]
  | @transferReturn _ _ _ _ _ r h hk =>
    refine .inl (local_setNode (e := .transferReply r) ?_ m)
    simp only [nodeStep, h]
  | transferFails h =>
    refine .inl (local_setNode (e := .transferFails) ?_ m)
    simp only [nodeStep, h]
  | sendDone h =>
    refine .inl (local_setNode (e := .sendDone s.nextCall) ?_ m)
    simp only [nodeStep, h]
  | @transferdonereq k src dst vid h =>
    exact .inl (local_setNode (e := .transferdonereq src vid) rfl m)
  | @doneReturn _ _ _ ok h hk =>
    refine .inl (local_setNode (e := .doneReply ok) ?_ m)
    simp only [nodeStep, h]
  | doneFails h =>
    refine .inl (local_setNode (e := .doneReply false) ?_ m)
    simp only [nodeStep, h]
  | sleepWake h hv =>
    refine .inl (local_setNode (e := .sleepWake) ?_ m)
    rw [nodeStep, if_pos ⟨h, hv⟩]
  | @clientInvoke _ req h =>
    refine .inl (local_setNode (e := .clientInvoke req) ?_ m)
    simp only [nodeStep, h, Option.isNone_none, if_true]
  | sendInvoke h hc =>
    refine .inl (local_setNode (e := .sendInvoke s.nextCall) ?_ m)
    simp only [nodeStep, h, hc, if_true]
  | @invoke _ _ vs req h =>
    exact .inl (local_setNode (e := .invoke vs req) rfl m)
  | invokeReturn h hc hk =>
    refine .inl (local_setNode (e := .invokeReply true) ?_ m)
    simp only [nodeStep, h, if_true]
  | invokeRefused h hc hk =>
    refine .inl (local_setNode (e := .invokeReply false) ?_ m)
    simp only [nodeStep, h, Bool.false_eq_true, if_false]
  | invokeFails h =>
    refine .inl (local_setNode (e := .invokeReply false) ?_ m)
    simp only [nodeStep, h, Bool.false_eq_true, if_false]

end Local

/-! ## The process -/

inductive Upcall where
  /-- `commit_wo` has dropped `pxs_mutex`. -/
  | paxosCommit (inst : Nat) (v : Value)
  /-- `paxos_commit` has dropped `cfg_mutex`. -/
  | commitChange (vid : Nat)
  deriving DecidableEq, Repr

def Upcall.inst : Upcall → Nat
  | .paxosCommit inst _ => inst
  | .commitChange vid => vid

structure Process (σ ρ κ : Type) where
  acc : Acceptor
  cfg : Cfg
  rsm : Node σ ρ κ
  upcalls : List Upcall
  restored : Bool

def Process.view (h : Process σ ρ κ) (i : Nat) : List NodeId := members (h.acc.value i)

def Process.new (first me : NodeId) (st : σ) (file : List LogRec) : Option (Process σ ρ κ) :=
  let acc := Acceptor.new me (decide (me = first)) me file
  (Rsm.boot (fun i => members (acc.value i)) first me st).map fun nd =>
    { acc := acc, cfg := Cfg.new acc, rsm := nd, upcalls := [], restored := false }

inductive Event (σ ρ κ : Type) where
  -- the acceptor
  | preparereq (inst : Nat) (n : PropT)
  | acceptreq (n : PropT) (v : Value)
  | decidereq (inst : Nat) (v : Value)
  | commit (inst : Nat) (v : Value)
  -- the commit number `i` of those on their way goes on
  | upcall (i : Nat)
  -- the reply to `join`, and what the recovery thread does about it
  | joinReply (file : List LogRec)
  | joinCommit
  | rsm (e : NodeEvent σ ρ κ)

def Process.commitWo (me : NodeId) (h : Process σ ρ κ) (inst : Nat) (v : Value) : Process σ ρ κ :=
  { h with
    acc := h.acc.commitWo me inst v
    upcalls := if h.acc.instanceH < inst then h.upcalls ++ [.paxosCommit inst v] else h.upcalls }

def Process.restore (h : Process σ ρ κ) (file : List LogRec) : Process σ ρ κ :=
  { h with
    acc := h.acc.restore file
    cfg := h.cfg.reconstruct (h.acc.restore file)
    restored := true }

def step (svc : Service σ ρ κ) (me : NodeId) (h : Process σ ρ κ) :
    Event σ ρ κ → Option (Process σ ρ κ)
  | .preparereq inst n => some { h with acc := (h.acc.preparereq inst n).2 }
  | .acceptreq n v => some { h with acc := (h.acc.acceptreq n v).2 }
  | .decidereq inst v => (h.acc.decidereq me inst v).map fun _ => h.commitWo me inst v
  | .commit inst v => some (h.commitWo me inst v)
  | .upcall i =>
    match h.upcalls[i]? with
    | some (.paxosCommit inst v) =>
      some { h with
        cfg := h.cfg.paxosCommit inst v, upcalls := h.upcalls.set i (.commitChange inst) }
    | some (.commitChange vid) =>
      if h.restored then none
      else (h.rsm.commitChangeWo h.view vid).map fun nd =>
        { h with rsm := nd, upcalls := h.upcalls.eraseIdx i }
    | none => none
  | .joinReply file =>
    if h.rsm.recovery = .joining ∧ h.restored = false then some (h.restore file) else none
  | .joinCommit =>
    if h.restored then
      (h.rsm.commitChangeWo h.view h.cfg.myvid).map fun nd =>
        { h with rsm := nd.recoveryHead h.view me, restored := false }
    else none
  | .rsm e =>
    if h.restored then none
    else (nodeStep svc h.view me h.rsm e).map fun nd => { h with rsm := nd }

end Yfs.Host
