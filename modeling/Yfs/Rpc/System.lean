/-
Yfs.Rpc.System — rpcc clients and one rpcs server incarnation
(rpc/rpc.cc: `rpcc::call1`, `rpcc::got_pdu`, `rpcc::cancel`,
`rpcs::dispatch`).

Clients are named by their `clt_nonce`. Requests are never removed from
`reqs` and replies never from `replies`, and any of them may be delivered
at any time: that is loss, delay, duplication and reordering, and it
covers the retransmissions of `call1` and the duplicates it sends under
RPC_LOSSY. A handler runs between the `dispatch` that starts it and a
`complete`, and anything may happen in between.

`call1` is cut at its two critical sections. The first takes an xid and
builds the header; the second (`ret`) runs when the call was answered,
was cancelled or timed out, and passes the xid to `update_xid_rep` in
all three cases.

`xid_` counts modulo 2^32. What is said about clients holds until it comes
round, that is, for the first 2^32 - 2 calls of each (`XidsLeft`).

`received` and `execs` are history: the requests that reached `dispatch`,
and the `(clt_nonce, xid)` of every execution of a handler.
-/
import Yfs.Rpc.XidWindow
import Yfs.Rpc.ReplyWindow

namespace Yfs.Rpc

open Function

/-! ## Constants and messages -/

/-- `rpc_const`. -/
def bindProc : Nat := 1
def timeoutFailure : Int := -1
def atmostonceFailure : Int := -4
def oldsrvFailure : Int := -5
def bindFailure : Int := -6
def cancelFailure : Int := -7

structure ReqHeader where
  xid : Nat
  proc : Nat
  cltNonce : Nat
  srvNonce : Nat
  xidRep : Nat
  deriving DecidableEq, Repr

/-! ## The client -/

/-- A call of the client: not made yet; in `calls_` and waiting; in
`calls_` with `ca.done`; out of `call1` again. -/
inductive CallState where
  | unused
  | waiting (proc : Nat)
  | done (proc : Nat) (intret : Int)
  | returned (ret : Int)
  deriving DecidableEq, Repr

structure Client where
  xid : Nat
  window : List Nat
  calls : Nat → CallState
  bindDone : Bool
  destroyWait : Bool
  srvNonce : Nat

/-- `rpcc::rpcc`. -/
def Client.new : Client :=
  { xid := 1, window := [0], calls := fun _ => .unused
    bindDone := false, destroyWait := false, srvNonce := 0 }

def CallState.pending : CallState → Bool
  | .waiting _ => true
  | .done _ _ => true
  | _ => false

def Client.hasCalls (cl : Client) : Bool :=
  (List.range (2 ^ 32)).any fun x => (cl.calls x).pending

def Client.refuses (cl : Client) (proc : Nat) : Option Int :=
  if (proc ≠ bindProc ∧ cl.bindDone = false) ∨ (proc = bindProc ∧ cl.bindDone = true) then
    some bindFailure
  else if cl.destroyWait then some cancelFailure
  else none

/-- The header `call1` packs. -/
def Client.header (cl : Client) (nonce proc : Nat) : ReqHeader :=
  { xid := cl.xid, proc := proc, cltNonce := nonce, srvNonce := cl.srvNonce
    xidRep := front cl.window }

/-- `ca.xid = xid_++; calls_[ca.xid] = &ca`; `xid_` is `unsigned`. -/
def Client.register (cl : Client) (proc : Nat) : Client :=
  { cl with
    xid := (cl.xid + 1) % 2 ^ 32, calls := update cl.calls cl.xid (.waiting proc) }

/-- `if(!ca->done) { ... ca->done = 1; }` for the call in `calls_`, if
there is one. -/
def CallState.answer : CallState → Int → CallState
  | .waiting proc, ret => .done proc ret
  | st, _ => st

/-- `rpcc::got_pdu`. A reply for a call that is gone, or that has its
reply, still goes through `update_xid_rep`. -/
def Client.gotPdu (cl : Client) (r : Reply) : Client :=
  { cl with
    window := updateXidRep cl.window r.xid
    calls := update cl.calls r.xid ((cl.calls r.xid).answer r.ret) }

/-- The second critical section of `call1`; `bind` stores the nonce of
the server when its call returned 0. -/
def Client.ret (cl : Client) (x srvNonce : Nat) : Option Client :=
  match cl.calls x with
  | .waiting _ => some { cl with
      window := updateXidRep cl.window x
      calls := update cl.calls x (.returned timeoutFailure) }
  | .done proc intret => some { cl with
      window := updateXidRep cl.window x
      calls := update cl.calls x (.returned intret)
      bindDone := if proc = bindProc ∧ intret = 0 then true else cl.bindDone
      srvNonce := if proc = bindProc ∧ intret = 0 then srvNonce else cl.srvNonce }
  | _ => none

def Client.cancel (cl : Client) : Client :=
  { cl with
    destroyWait := cl.destroyWait || cl.hasCalls
    calls := fun x => match cl.calls x with
      | .waiting proc => .done proc cancelFailure
      | .done proc _ => .done proc cancelFailure
      | st => st }

/-! ## The server -/

/-- `rpcs`; `procs` are the registered procedures. -/
structure Server where
  nonce : Nat
  procs : List Nat
  replyWindow : Nat → List ReplyT

/-- What `dispatch` does with a request: run the handler, send a reply,
nothing, or `VERIFY(0)`. -/
inductive Action where
  | run
  | send (r : Reply)
  | nothing
  | abort
  deriving DecidableEq, Repr

/-- How `dispatch` classifies a request it gets to classify. -/
def Server.classify (srv : Server) (h : ReqHeader) : RpcState :=
  if h.cltNonce = 0 then .NEW
  else (checkduplicateAndUpdate (srv.replyWindow h.cltNonce) h.xid h.xidRep).1

def Server.remember (srv : Server) (h : ReqHeader) : Nat → List ReplyT :=
  if h.cltNonce = 0 then srv.replyWindow
  else update srv.replyWindow h.cltNonce
    (checkduplicateAndUpdate (srv.replyWindow h.cltNonce) h.xid h.xidRep).2

def Server.action (srv : Server) (h : ReqHeader) : Action :=
  match srv.classify h with
  | .NEW => .run
  | .INPROGRESS => .nothing
  | .DONE (some b) => .send b
  | .DONE none => .nothing
  | .FORGOTTEN => .send ⟨h.xid, atmostonceFailure, []⟩

def Server.dispatch (srv : Server) (h : ReqHeader) : Action × Server :=
  if h.srvNonce ≠ 0 ∧ h.srvNonce ≠ srv.nonce then (.send ⟨h.xid, oldsrvFailure, []⟩, srv)
  else if h.proc ∉ srv.procs then (.abort, srv)
  else (srv.action h, { srv with replyWindow := srv.remember h })

def Server.complete (srv : Server) (h : ReqHeader) (r : Reply) : Server :=
  if h.cltNonce > 0 then
    { srv with
      replyWindow := update srv.replyWindow h.cltNonce
        (addReply (srv.replyWindow h.cltNonce) h.xid r) }
  else srv

/-! ## The system -/

structure Sys where
  clients : Nat → Client
  srv : Server
  reqs : List ReqHeader
  replies : List (Nat × Reply)
  running : List ReqHeader
  received : List ReqHeader
  execs : List (Nat × Nat)

def Sys.init (nonce : Nat) (procs : List Nat) : Sys :=
  { clients := fun _ => Client.new
    srv := { nonce := nonce, procs := procs, replyWindow := fun _ => [] }
    reqs := [], replies := [], running := [], received := [], execs := [] }

inductive Event where
  | call (c proc : Nat)
  | dispatch (h : ReqHeader)
  | complete (h : ReqHeader) (ret : Int) (body : List UInt8)
  | gotPdu (c : Nat) (r : Reply)
  | ret (c x : Nat)
  | cancel (c : Nat)
  deriving DecidableEq, Repr

def Sys.setClient (s : Sys) (c : Nat) (cl : Client) : Sys :=
  { s with clients := update s.clients c cl }

/-- The client that makes a call has xids left. -/
def XidsLeft (s : Sys) : Event → Prop
  | .call c _ => (s.clients c).xid + 1 < 2 ^ 32
  | _ => True

instance (s : Sys) (e : Event) : Decidable (XidsLeft s e) := by
  rcases e <;> unfold XidsLeft <;> infer_instance

def Sys.afterDispatch (s : Sys) (h : ReqHeader) (act : Action) (srv : Server) : Sys :=
  { s with
    srv := srv
    received := h :: s.received
    running := if act = .run then h :: s.running else s.running
    execs := if act = .run then (h.cltNonce, h.xid) :: s.execs else s.execs
    replies := match act with
      | .send r => (h.cltNonce, r) :: s.replies
      | _ => s.replies }

def step (s : Sys) : Event → Option Sys
  | .call c proc =>
    match (s.clients c).refuses proc with
    | some _ => some s
    | none => some { s.setClient c ((s.clients c).register proc) with
        reqs := (s.clients c).header c proc :: s.reqs }
  | .dispatch h =>
    if h ∈ s.reqs then
      if (s.srv.dispatch h).1 = .abort then none
      else some (s.afterDispatch h (s.srv.dispatch h).1 (s.srv.dispatch h).2)
    else none
  | .complete h ret body =>
    if h ∈ s.running ∧ 0 ≤ ret then
      some { s with
        srv := s.srv.complete h ⟨h.xid, ret, body⟩
        running := s.running.erase h
        replies := (h.cltNonce, ⟨h.xid, ret, body⟩) :: s.replies }
    else none
  | .gotPdu c r =>
    if (c, r) ∈ s.replies then some (s.setClient c ((s.clients c).gotPdu r)) else none
  | .ret c x =>
    match (s.clients c).ret x s.srv.nonce with
    | some cl => some (s.setClient c cl)
    | none => none
  | .cancel c => some (s.setClient c (s.clients c).cancel)

/-! ## What `dispatch` can do -/

section Dispatch

variable {srv : Server} {h : ReqHeader}

theorem mem_remember {c : Nat} {e : ReplyT} (he : e ∈ srv.remember h c) :
    e ∈ srv.replyWindow c ∨
      (c = h.cltNonce ∧ srv.action h = .run ∧ e = ReplyT.new h.xid) := by
  simp only [Server.remember] at he
  split at he
  · exact .inl he
  · rename_i h0
    rcases eq_or_ne c h.cltNonce with rfl | hne
    · rw [update_self] at he
      refine (checkduplicate_mem he).imp_right fun ⟨hnew, hx⟩ => ⟨rfl, ?_, hx⟩
      simp [Server.action, Server.classify, h0, hnew]
    · rw [update_of_ne hne] at he
      exact .inl he

theorem remember_gone {c : Nat} {e : ReplyT} (he : e ∈ srv.replyWindow c)
    (hgone : e ∉ srv.remember h c) :
    c = h.cltNonce ∧ e.xid ≤ h.xidRep ∧ e.cbPresent = true := by
  simp only [Server.remember] at hgone
  split at hgone
  · exact absurd he hgone
  · rcases eq_or_ne c h.cltNonce with rfl | hne
    · rw [update_self] at hgone
      exact ⟨rfl, checkduplicate_gone he hgone⟩
    · rw [update_of_ne hne] at hgone
      exact absurd he hgone

theorem action_run (hrun : srv.action h = .run) : srv.classify h = .NEW := by
  cases hc : srv.classify h with
  | NEW => rfl
  | INPROGRESS | FORGOTTEN => simp [Server.action, hc] at hrun
  | DONE b => cases b <;> simp [Server.action, hc] at hrun

/-- A started request of an at-most-once client was not in the list, and
is in it afterwards. -/
theorem remember_run (h0 : h.cltNonce ≠ 0) (hrun : srv.action h = .run) :
    (∀ e ∈ srv.replyWindow h.cltNonce, e.xid ≠ h.xid) ∧
      ReplyT.new h.xid ∈ srv.remember h h.cltNonce ∧
      ∀ last, (survivors (srv.replyWindow h.cltNonce) h.xidRep).getLast? = some last →
        last.xid < h.xid := by
  have hnew := action_run hrun
  simp only [Server.classify, if_neg h0] at hnew
  simpa only [Server.remember, if_neg h0, update_self] using checkduplicate_new hnew

/-- A reply is about the request, or is one that was stored. -/
theorem action_send {r : Reply} (hsend : srv.action h = .send r) :
    r.xid = h.xid ∨ ∃ e ∈ srv.replyWindow h.cltNonce, e.buf = some r := by
  cases hc : srv.classify h with
  | NEW | INPROGRESS => simp [Server.action, hc] at hsend
  | FORGOTTEN =>
    simp only [Server.action, hc, Action.send.injEq] at hsend
    exact .inl (by rw [← hsend])
  | DONE b =>
    cases b with
    | none => simp [Server.action, hc] at hsend
    | some b =>
      simp only [Server.action, hc, Action.send.injEq] at hsend
      subst hsend
      by_cases h0 : h.cltNonce = 0
      · simp [Server.classify, h0] at hc
      · simp only [Server.classify, if_neg h0] at hc
        exact .inr (checkduplicate_done hc)

/-- A completed handler changes no xid in any list. -/
theorem complete_map_xid (srv : Server) (h : ReqHeader) (r : Reply) (c : Nat) :
    ((srv.complete h r).replyWindow c).map (·.xid) = (srv.replyWindow c).map (·.xid) := by
  unfold Server.complete
  split
  · change (update srv.replyWindow h.cltNonce _ c).map (·.xid) = _
    rcases eq_or_ne c h.cltNonce with rfl | hne
    · rw [update_self, map_xid_addReply]
    · rw [update_of_ne hne]
  · rfl

end Dispatch

/-! ## What a client's steps keep -/

/-- The xid has been issued, and its call is no longer waiting: its reply
arrived, it was cancelled, or it timed out. -/
def Client.acked (cl : Client) (x : Nat) : Prop :=
  cl.calls x ≠ .unused ∧ ∀ proc, cl.calls x ≠ .waiting proc

/-- A call that is still outstanding. -/
def Client.outstanding (cl : Client) (x : Nat) : Prop := ∃ proc, cl.calls x = .waiting proc

theorem Client.not_outstanding {cl : Client} {x : Nat} (h : cl.acked x) : ¬ cl.outstanding x :=
  fun ⟨proc, hw⟩ => h.2 proc hw

/-- What the later steps of a client may do to its calls: issued xids
stay issued, acknowledged ones stay acknowledged, and the window stays
within what is acknowledged. -/
structure Client.Grows (cl cl' : Client) : Prop where
  xid : cl.xid ≤ cl'.xid
  used : ∀ x, cl.calls x ≠ .unused → cl'.calls x ≠ .unused
  acked : ∀ x, cl.acked x → cl'.acked x

structure Client.Wf (cl : Client) : Prop where
  xid_pos : 0 < cl.xid
  used_iff : ∀ x, cl.calls x ≠ .unused ↔ 0 < x ∧ x < cl.xid
  window : WindowInv cl.acked cl.window

theorem Client.wf_new : Client.new.Wf := by
  refine ⟨by decide, fun x => ?_, windowInv_init _⟩
  simp only [Client.new, ne_eq, not_true_eq_false, false_iff]
  omega

theorem Client.Wf.front_lt {cl : Client} (h : cl.Wf) : front cl.window < cl.xid := by
  rcases Nat.eq_zero_or_pos (front cl.window) with h0 | hpos
  · rw [h0]
    exact h.xid_pos
  · exact ((h.used_iff _).mp (h.window.acked_upto _ hpos le_rfl).1).2

/-- Marking calls as answered, cancelled or returned keeps everything,
provided the xids added to the window are among them. -/
theorem Client.Wf.settle {cl cl' : Client} (h : cl.Wf) (hxid : cl'.xid = cl.xid)
    (hused : ∀ x, cl'.calls x = .unused ↔ cl.calls x = .unused)
    (hacked : ∀ x, cl.acked x → cl'.acked x)
    (hwin : cl'.window = cl.window ∨
      ∃ x, cl'.acked x ∧ cl'.window = updateXidRep cl.window x) :
    cl'.Wf ∧ cl.Grows cl' := by
  have hmono : WindowInv cl'.acked cl.window := h.window.mono hacked
  refine ⟨⟨hxid ▸ h.xid_pos, fun x => ?_, ?_⟩, ⟨hxid.ge, fun x hx => ?_, hacked⟩⟩
  · rw [hxid, ne_eq, hused]
    exact h.used_iff x
  · rcases hwin with hw | ⟨x, hx, hw⟩
    · rw [hw]
      exact hmono
    · rw [hw]
      exact hmono.update hx
  · rwa [ne_eq, hused]

/-- A call that leaves `xid_` another number. -/
theorem Client.Wf.register {cl : Client} (h : cl.Wf) (hlt : cl.xid + 1 < 2 ^ 32) (proc : Nat) :
    (cl.register proc).Wf ∧ cl.Grows (cl.register proc) := by
  have hfresh : cl.calls cl.xid = .unused := by
    by_contra hne
    have := ((h.used_iff cl.xid).mp hne).2
    omega
  have hold : ∀ x, x ≠ cl.xid → (cl.register proc).calls x = cl.calls x := fun x hx =>
    update_of_ne hx _ _
  have hacked : ∀ x, cl.acked x → (cl.register proc).acked x := by
    intro x hx
    have hne : x ≠ cl.xid := fun heq => hx.1 (heq ▸ hfresh)
    simpa only [Client.acked, hold x hne] using hx
  have hxid : (cl.register proc).xid = cl.xid + 1 := Nat.mod_eq_of_lt hlt
  refine ⟨⟨by omega, fun x => ?_, h.window.mono hacked⟩, ⟨by omega, fun x hx => ?_, hacked⟩⟩
  · rw [hxid]
    rcases eq_or_ne x cl.xid with rfl | hne
    · have hpos := h.xid_pos
      simp only [Client.register, update_self, ne_eq, reduceCtorEq, not_false_eq_true,
        true_iff]
      omega
    · rw [hold x hne, h.used_iff]
      omega
  · have hne : x ≠ cl.xid := fun heq => hx (heq ▸ hfresh)
    rwa [hold x hne]

theorem Client.Wf.gotPdu {cl : Client} (h : cl.Wf) {r : Reply} (hr : cl.calls r.xid ≠ .unused) :
    (cl.gotPdu r).Wf ∧ cl.Grows (cl.gotPdu r) := by
  have hself : (cl.gotPdu r).calls r.xid = (cl.calls r.xid).answer r.ret :=
    update_self _ _ _
  have hold : ∀ x, x ≠ r.xid → (cl.gotPdu r).calls x = cl.calls x := fun x hx =>
    update_of_ne hx _ _
  have hackr : (cl.gotPdu r).acked r.xid := by
    rw [Client.acked, hself]
    cases hc : cl.calls r.xid with
    | unused => exact absurd hc hr
    | waiting proc | done proc i | returned i => simp [CallState.answer]
  refine h.settle rfl (fun x => ?_) (fun x hx => ?_) (.inr ⟨r.xid, hackr, rfl⟩)
  · rcases eq_or_ne x r.xid with rfl | hne
    · exact iff_of_false hackr.1 hr
    · rw [hold x hne]
  · rcases eq_or_ne x r.xid with rfl | hne
    · exact hackr
    · simpa only [Client.acked, hold x hne] using hx

theorem Client.Wf.ret {cl cl' : Client} (h : cl.Wf) {x srvNonce : Nat}
    (hret : cl.ret x srvNonce = some cl') : cl'.Wf ∧ cl.Grows cl' := by
  obtain ⟨i, hused, hxid, hcalls, hwin⟩ : ∃ i, cl.calls x ≠ .unused ∧ cl'.xid = cl.xid ∧
      cl'.calls = update cl.calls x (.returned i) ∧
      cl'.window = updateXidRep cl.window x := by
    cases hc : cl.calls x with
    | unused | returned i => simp [Client.ret, hc] at hret
    | waiting proc =>
      simp only [Client.ret, hc, Option.some.injEq] at hret
      subst hret
      exact ⟨_, by simp, rfl, rfl, rfl⟩
    | done proc i =>
      simp only [Client.ret, hc, Option.some.injEq] at hret
      subst hret
      exact ⟨_, by simp, rfl, rfl, rfl⟩
  have hackx : cl'.acked x := by simp [Client.acked, hcalls]
  refine h.settle hxid (fun y => ?_) (fun y hy => ?_) (.inr ⟨x, hackx, hwin⟩)
  · rcases eq_or_ne y x with rfl | hne
    · simp [hcalls, hused]
    · rw [hcalls, update_of_ne hne]
  · rcases eq_or_ne y x with rfl | hne
    · exact hackx
    · simpa only [Client.acked, hcalls, update_of_ne hne] using hy

theorem Client.Wf.cancel {cl : Client} (h : cl.Wf) : cl.cancel.Wf ∧ cl.Grows cl.cancel := by
  refine h.settle rfl (fun x => ?_) (fun x hx => ?_) (.inl rfl)
  · cases hc : cl.calls x <;> simp [Client.cancel, hc]
  · cases hc : cl.calls x with
    | unused => exact absurd hc hx.1
    | waiting proc => exact absurd hc (hx.2 proc)
    | done proc i | returned i => simp [Client.acked, Client.cancel, hc]

end Yfs.Rpc
