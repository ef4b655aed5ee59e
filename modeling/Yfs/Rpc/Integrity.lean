/-
Yfs.Rpc.Integrity — what a reply carries (rpc/rpc.cc: `rpcs::dispatch`,
`rpcc::call1`, `rpcc::got_pdu`).

`dispatch` is cut where it holds no mutex: after the check, while the
handler runs, and between the moment it has the pointer of a reply and the
moment the last byte of it has been written. In between any other dispatch
may run. Requests and replies are arbitrary: any header may reach the
server and any reply a client at any time, which is more than loss,
duplication and reordering can do.

The lists keep what they should in every run: xids are distinct, the entry
of a running handler is there for `add_reply`, and every stored reply has a
buffer of its own (`Sound`). But the pointer a dispatch still has to send
is not counted anywhere. A request that acknowledges the xid frees the
buffer, and the dispatch sends what is there by then
(`freed_reply_sent`). As long as no check does so, every answer carries
what `add_reply` stored (`reply_integrity`).

A client's calls are told apart by their `caller`, since `xid_` comes back
to the same number after 2^32 calls. Until it does, xid by xid, they are
those of `Yfs.Rpc.System`'s client (`follows_of_reach`).
-/
import Yfs.Rpc.Buffers
import Yfs.Rpc.System

namespace Yfs.Rpc.Buffers

open Yfs.Run Function

/-! ## The client -/

structure Caller where
  xid : Nat
  done : Bool
  intret : Int
  returned : Bool
  completions : List Reply
  deriving DecidableEq, Repr

/-- `rpcc`: the next xid, and `calls_` from xids to callers. -/
structure Client where
  xid : Nat
  calls : Nat → Option Nat
  callers : List Caller

def Client.new : Client := ⟨1, fun _ => none, []⟩

/-- The first critical section of `call1`. -/
def Client.call (cl : Client) : Client where
  xid := (cl.xid + 1) % 2 ^ 32
  calls := update cl.calls cl.xid (some cl.callers.length)
  callers := cl.callers ++ [⟨cl.xid, false, 0, false, []⟩]

def Caller.answer (ca : Caller) (r : Reply) : Caller :=
  if ca.done then ca
  else { ca with intret := r.ret, done := true, completions := ca.completions ++ [r] }

def Client.gotPdu (cl : Client) (r : Reply) : Client :=
  match cl.calls r.xid with
  | none => cl
  | some i => { cl with callers := cl.callers.modify i (·.answer r) }

/-- The second critical section of `call1`, by the `i`-th caller. -/
def Client.ret (cl : Client) (i : Nat) : Option Client :=
  cl.callers[i]?.bind fun ca =>
    if ca.returned then none
    else some { cl with
      calls := update cl.calls ca.xid none
      callers := cl.callers.modify i fun ca => { ca with returned := true } }

def Client.cancel (cl : Client) : Client :=
  { cl with
    callers := cl.callers.zipIdx.map fun (ca, i) =>
      if cl.calls ca.xid = some i then { ca with done := true, intret := cancelFailure } else ca }

/-! ## The server and its dispatches -/

/-- A dispatch that has the pointer of a stored reply and has not finished
`send`; `again` if it is from a DONE answer. -/
structure Sending where
  req : ReqHeader
  buf : Option Nat
  again : Bool
  deriving DecidableEq, Repr

/-- A reply that went out from a stored buffer: what was read there, and
what `add_reply` was given for that client and xid. -/
structure Answer where
  req : ReqHeader
  again : Bool
  sent : Option Reply
  stored : Option Reply
  deriving DecidableEq, Repr

structure Sys where
  nonce : Nat
  procs : List Nat
  replyWindow : Nat → List Entry
  heap : Nat → Option Reply
  running : List ReqHeader
  sending : List Sending
  stored : Nat → Nat → Option Reply
  answers : List Answer
  clients : Nat → Client

def Sys.init (nonce : Nat) (procs : List Nat) : Sys :=
  ⟨nonce, procs, fun _ => [], fun _ => none, [], [], fun _ _ => none, [], fun _ => Client.new⟩

def Sys.checked (s : Sys) (h : ReqHeader) : Checked :=
  checkduplicateAndUpdate (s.replyWindow h.cltNonce) h.xid h.xidRep

def Sys.old (s : Sys) (h : ReqHeader) : Prop := h.srvNonce ≠ 0 ∧ h.srvNonce ≠ s.nonce

instance (s : Sys) (h : ReqHeader) : Decidable (s.old h) := inferInstanceAs (Decidable (_ ∧ _))

/-- After the check, in the handler or with the pointer of the reply. The
reply for a forgotten request is in a buffer of the dispatch itself. -/
def Sys.afterCheck (s : Sys) (h : ReqHeader) : Sys :=
  { s with
    replyWindow := update s.replyWindow h.cltNonce (s.checked h).window
    heap := free s.heap (s.checked h).freed
    running := if (s.checked h).state = .NEW then h :: s.running else s.running
    sending := match (s.checked h).state with
      | .DONE b => ⟨h, b, true⟩ :: s.sending
      | _ => s.sending }

def Sys.dispatch (s : Sys) (h : ReqHeader) : Option Sys :=
  if s.old h then some s
  else if h.proc ∉ s.procs then none
  else if h.cltNonce = 0 then some { s with running := h :: s.running }
  else some (s.afterCheck h)

/-- The reply is at the address `b`, and with `add_reply` the list has it. -/
def Sys.afterHandler (s : Sys) (h : ReqHeader) (r : Reply) (b : Nat) : Sys :=
  { s with
    running := s.running.erase h
    heap := update s.heap b (some r)
    replyWindow := update s.replyWindow h.cltNonce
      (addReply (s.replyWindow h.cltNonce) h.xid b)
    stored := update s.stored h.cltNonce
      (update (s.stored h.cltNonce) h.xid (some r))
    sending := ⟨h, some b, false⟩ :: s.sending }

/-- `rpcs::dispatch` when the handler has returned, with any address that is
not in use. Without at-most-once the buffer stays with the dispatch. -/
def Sys.complete (s : Sys) (h : ReqHeader) (ret : Int) (body : List UInt8) (b : Nat) :
    Option Sys :=
  if h ∈ s.running ∧ 0 ≤ ret ∧ s.heap b = none then
    if h.cltNonce = 0 then some { s with running := s.running.erase h }
    else some (s.afterHandler h ⟨h.xid, ret, body⟩ b)
  else none

/-- The `i`-th dispatch with a pointer is through with `send`. -/
def Sys.send (s : Sys) (i : Nat) : Option Sys :=
  s.sending[i]?.map fun d =>
    { s with
      sending := s.sending.eraseIdx i
      answers := ⟨d.req, d.again, d.buf.bind s.heap, s.stored d.req.cltNonce d.req.xid⟩ ::
        s.answers }

inductive Event where
  | dispatch (h : ReqHeader)
  | complete (h : ReqHeader) (ret : Int) (body : List UInt8) (b : Nat)
  | send (i : Nat)
  | call (c : Nat)
  | gotPdu (c : Nat) (r : Reply)
  | ret (c i : Nat)
  | cancel (c : Nat)
  deriving DecidableEq, Repr

def Sys.setClient (s : Sys) (c : Nat) (cl : Client) : Sys :=
  { s with clients := update s.clients c cl }

def Sys.step (s : Sys) : Event → Option Sys
  | .dispatch h => s.dispatch h
  | .complete h ret body b => s.complete h ret body b
  | .send i => s.send i
  | .call c => some (s.setClient c (s.clients c).call)
  | .gotPdu c r => some (s.setClient c ((s.clients c).gotPdu r))
  | .ret c i => ((s.clients c).ret i).map (s.setClient c)
  | .cancel c => some (s.setClient c (s.clients c).cancel)

def Sys.frees (s : Sys) (h : ReqHeader) : List (Option Nat) :=
  if s.old h ∨ h.proc ∉ s.procs ∨ h.cltNonce = 0 then [] else (s.checked h).freed

/-- No check frees a buffer that a dispatch still has to send. -/
def Safe (s : Sys) : Event → Prop
  | .dispatch h => ∀ d ∈ s.sending, d.buf ∉ s.frees h
  | _ => True

instance (s : Sys) : ∀ e, Decidable (Safe s e)
  | .dispatch h => inferInstanceAs (Decidable (∀ d ∈ s.sending, d.buf ∉ s.frees h))
  | .complete _ _ _ _ => inferInstanceAs (Decidable True)
  | .send _ => inferInstanceAs (Decidable True)
  | .call _ => inferInstanceAs (Decidable True)
  | .gotPdu _ _ => inferInstanceAs (Decidable True)
  | .ret _ _ => inferInstanceAs (Decidable True)
  | .cancel _ => inferInstanceAs (Decidable True)

/-! ## What a check does to the lists -/

section Check

variable {s : Sys} {h : ReqHeader} {c : Nat} {e : Entry}

theorem Sys.conserves (s : Sys) (h : ReqHeader) :
    ∃ gone, Conserves (s.replyWindow h.cltNonce) h.xid (s.checked h) gone :=
  checked_conserves (s.replyWindow h.cltNonce) h.xid h.xidRep

theorem mem_afterCheck (he : e ∈ (s.afterCheck h).replyWindow c) :
    e ∈ s.replyWindow c ∨
      (c = h.cltNonce ∧ (s.checked h).state = .NEW ∧ e = Entry.new h.xid) := by
  obtain ⟨gone, hk⟩ := s.conserves h
  by_cases hc : c = h.cltNonce
  · subst hc
    simp only [Sys.afterCheck, update_self] at he
    exact (hk.mem_window he).imp_right fun hnew => ⟨rfl, hnew⟩
  · simp only [Sys.afterCheck, update_of_ne hc] at he
    exact .inl he

theorem kept_afterCheck (he : e ∈ s.replyWindow c) :
    e ∈ (s.afterCheck h).replyWindow c ∨
      (e.cbPresent = true ∧ e.buf ∈ (s.checked h).freed) := by
  obtain ⟨gone, hk⟩ := s.conserves h
  by_cases hc : c = h.cltNonce
  · subst hc
    simp only [Sys.afterCheck, update_self]
    refine (hk.kept he).imp_right fun hgone => ⟨hk.complete e hgone, ?_⟩
    have hmem : e.buf ∈ gone.map (·.buf) := List.mem_map_of_mem hgone
    rwa [← hk.freed] at hmem
  · simp only [Sys.afterCheck, update_of_ne hc]
    exact .inl he

end Check

/-! ## What every run keeps -/

def Apart (h h' : ReqHeader) : Prop :=
  h.cltNonce ≠ 0 → h.cltNonce = h'.cltNonce → h.xid ≠ h'.xid

theorem Apart.symm {h h' : ReqHeader} (hapart : Apart h h') : Apart h' h := by
  intro h0 hclt hxid
  exact hapart (hclt ▸ h0) hclt.symm hxid.symm

def Sys.Backed (s : Sys) (c : Nat) (e : Entry) : Prop :=
  (e.cbPresent = false ∧ e.buf = none) ∨
    ∃ b r, e.cbPresent = true ∧ e.buf = some b ∧ s.heap b = some r ∧ s.stored c e.xid = some r

structure Sys.Sound (s : Sys) : Prop where
  nodup : ∀ c, ((s.replyWindow c).map (·.xid)).Nodup
  entry : ∀ h ∈ s.running, h.cltNonce ≠ 0 → Entry.new h.xid ∈ s.replyWindow h.cltNonce
  apart : s.running.Pairwise Apart
  backed : ∀ c, ∀ e ∈ s.replyWindow c, s.Backed c e
  own : ∀ c c' e e' b, e ∈ s.replyWindow c → e' ∈ s.replyWindow c' →
    e.buf = some b → e'.buf = some b → c = c' ∧ e.xid = e'.xid

theorem sound_init (nonce : Nat) (procs : List Nat) : (Sys.init nonce procs).Sound where
  nodup _ := List.nodup_nil
  entry := nofun
  apart := List.Pairwise.nil
  backed := nofun
  own := nofun

section Sound

variable {s s' : Sys} {h : ReqHeader} {c : Nat} {e : Entry} {b : Nat} {r : Reply}

/-- A check frees the buffers of entries that go, and these are no one
else's. -/
theorem Sys.Sound.not_freed (hs : s.Sound) (he : e ∈ (s.afterCheck h).replyWindow c)
    (hb : e.buf = some b) : some b ∉ (s.checked h).freed := by
  obtain ⟨gone, hk⟩ := s.conserves h
  intro hfreed
  rw [hk.freed] at hfreed
  obtain ⟨e', hgone, hb'⟩ := List.mem_map.mp hfreed
  rcases mem_afterCheck he with hold | ⟨-, -, rfl⟩
  · obtain ⟨rfl, hxid⟩ := hs.own _ _ _ _ _ hold (hk.mem_gone hgone) hb hb'
    simp only [Sys.afterCheck, update_self] at he
    have hnodup := hk.nodup (hs.nodup _)
    rw [List.map_append, List.nodup_append] at hnodup
    exact hnodup.2.2 _ (List.mem_map_of_mem he) _ (List.mem_map_of_mem hgone) hxid
  · cases hb

theorem Sys.Sound.afterCheck (hs : s.Sound) (h0 : h.cltNonce ≠ 0) : (s.afterCheck h).Sound := by
  obtain ⟨gone, hk⟩ := s.conserves h
  constructor
  case nodup =>
    intro c
    by_cases hc : c = h.cltNonce
    · subst hc
      have hnodup := hk.nodup (hs.nodup _)
      rw [List.map_append] at hnodup
      simpa only [Sys.afterCheck, update_self] using hnodup.of_append_left
    · simpa only [Sys.afterCheck, update_of_ne hc] using hs.nodup c
  case entry =>
    have hold : ∀ h' ∈ s.running, h'.cltNonce ≠ 0 →
        Entry.new h'.xid ∈ (s.afterCheck h).replyWindow h'.cltNonce := by
      intro h' hmem h0'
      rcases kept_afterCheck (hs.entry h' hmem h0') with hin | ⟨hcb, -⟩
      · exact hin
      · cases hcb
    intro h' hmem h0'
    by_cases hnew : (s.checked h).state = .NEW
    · simp only [Sys.afterCheck, if_pos hnew] at hmem
      rcases List.mem_cons.mp hmem with rfl | hmem
      · simpa only [Sys.afterCheck, update_self] using hk.new_mem hnew
      · exact hold h' hmem h0'
    · simp only [Sys.afterCheck, if_neg hnew] at hmem
      exact hold h' hmem h0'
  case apart =>
    by_cases hnew : (s.checked h).state = .NEW
    · simp only [Sys.afterCheck, if_pos hnew]
      refine List.pairwise_cons.mpr ⟨fun h' hmem _ hclt hxid => ?_, hs.apart⟩
      -- a second handler for the call would have its entry in the list
      have hentry := hs.entry h' hmem (hclt ▸ h0)
      rw [← hclt] at hentry
      exact hk.fresh hnew _ hentry hxid.symm
    · simpa only [Sys.afterCheck, if_neg hnew] using hs.apart
  case backed =>
    intro c e he
    rcases mem_afterCheck he with hold | ⟨-, -, rfl⟩
    · rcases hs.backed c e hold with hno | ⟨b, r, hcb, hb, hheap, hstored⟩
      · exact .inl hno
      · refine .inr ⟨b, r, hcb, hb, ?_, hstored⟩
        simp only [Sys.afterCheck, free, if_neg (hs.not_freed he hb), hheap]
    · exact .inl ⟨rfl, rfl⟩
  case own =>
    intro c c' e e' b he he' hb hb'
    rcases mem_afterCheck he with hold | ⟨-, -, rfl⟩
    · rcases mem_afterCheck he' with hold' | ⟨-, -, rfl⟩
      · exact hs.own c c' e e' b hold hold' hb hb'
      · cases hb'
    · cases hb

/-- The list after `add_reply`: the entry of the call, and the others. -/
theorem mem_afterHandler (hs : s.Sound) (he : e ∈ (s.afterHandler h r b).replyWindow c) :
    (e ∈ s.replyWindow c ∧ (c = h.cltNonce → e.xid ≠ h.xid)) ∨
      (c = h.cltNonce ∧ e = ⟨h.xid, true, some b⟩) := by
  by_cases hc : c = h.cltNonce
  · subst hc
    simp only [Sys.afterHandler, update_self, addReply_eq_map b (hs.nodup _)] at he
    obtain ⟨e₀, he₀, rfl⟩ := List.mem_map.mp he
    split
    · exact .inr ⟨rfl, rfl⟩
    · exact .inl ⟨he₀, fun _ => ‹_›⟩
  · simp only [Sys.afterHandler, update_of_ne hc] at he
    exact .inl ⟨he, fun heq => absurd heq hc⟩

theorem kept_afterHandler (hs : s.Sound) (he : e ∈ s.replyWindow c)
    (hother : c = h.cltNonce → e.xid ≠ h.xid) : e ∈ (s.afterHandler h r b).replyWindow c := by
  by_cases hc : c = h.cltNonce
  · subst hc
    simp only [Sys.afterHandler, update_self, addReply_eq_map b (hs.nodup _)]
    exact List.mem_map.mpr ⟨e, he, if_neg (hother rfl)⟩
  · simpa only [Sys.afterHandler, update_of_ne hc] using he

theorem new_afterHandler (hs : s.Sound) (hrun : h ∈ s.running) (h0 : h.cltNonce ≠ 0) :
    ⟨h.xid, true, some b⟩ ∈ (s.afterHandler h r b).replyWindow h.cltNonce := by
  simp only [Sys.afterHandler, update_self, addReply_eq_map b (hs.nodup _)]
  exact List.mem_map.mpr ⟨Entry.new h.xid, hs.entry h hrun h0, if_pos rfl⟩

/-- An address that is not in use is in no entry. -/
theorem Sys.Sound.buf_ne (hs : s.Sound) (he : e ∈ s.replyWindow c) (hfree : s.heap b = none) :
    e.buf ≠ some b := by
  intro hb
  rcases hs.backed c e he with ⟨-, hno⟩ | ⟨b', r, -, hb', hheap, -⟩
  · rw [hno] at hb
    cases hb
  · obtain rfl : b' = b := Option.some.inj (hb'.symm.trans hb)
    rw [hfree] at hheap
    cases hheap

theorem Sys.Sound.afterHandler (hs : s.Sound) (hrun : h ∈ s.running) (h0 : h.cltNonce ≠ 0)
    (hfree : s.heap b = none) : (s.afterHandler h r b).Sound := by
  have hperm : s.running.Perm (h :: s.running.erase h) := List.perm_cons_erase hrun
  have hapart : (h :: s.running.erase h).Pairwise Apart :=
    hperm.pairwise hs.apart fun hab => hab.symm
  constructor
  case nodup =>
    intro c
    by_cases hc : c = h.cltNonce
    · subst hc
      simpa only [Sys.afterHandler, update_self, map_xid_addReply] using hs.nodup _
    · simpa only [Sys.afterHandler, update_of_ne hc] using hs.nodup c
  case entry =>
    intro h' hmem h0'
    have hentry := hs.entry h' (List.mem_of_mem_erase hmem) h0'
    have hdiffers := (List.pairwise_cons.mp hapart).1 h' hmem
    exact kept_afterHandler hs hentry fun hclt hxid => hdiffers h0 hclt.symm hxid.symm
  case apart => exact (List.pairwise_cons.mp hapart).2
  case backed =>
    intro c e he
    rcases mem_afterHandler hs he with ⟨hold, hother⟩ | ⟨rfl, rfl⟩
    · rcases hs.backed c e hold with hno | ⟨b', r', hcb, hb', hheap, hstored⟩
      · exact .inl hno
      · have hne : b' ≠ b := fun heq => hs.buf_ne hold hfree (heq ▸ hb')
        refine .inr ⟨b', r', hcb, hb', ?_, ?_⟩
        · simpa only [Sys.afterHandler, update_of_ne hne] using hheap
        · by_cases hc : c = h.cltNonce
          · subst hc
            simpa only [Sys.afterHandler, update_self,
              update_of_ne (hother rfl)] using hstored
          · simpa only [Sys.afterHandler, update_of_ne hc] using hstored
    · exact .inr ⟨b, r, rfl, rfl, by simp [Sys.afterHandler], by simp [Sys.afterHandler]⟩
  case own =>
    intro c c' e e' b' he he' hb hb'
    rcases mem_afterHandler hs he with ⟨hold, -⟩ | ⟨rfl, rfl⟩
    · rcases mem_afterHandler hs he' with ⟨hold', -⟩ | ⟨rfl, rfl⟩
      · exact hs.own c c' e e' b' hold hold' hb hb'
      · exact absurd (hb.trans hb'.symm) (hs.buf_ne hold hfree)
    · rcases mem_afterHandler hs he' with ⟨hold', -⟩ | ⟨rfl, rfl⟩
      · exact absurd (hb'.trans hb.symm) (hs.buf_ne hold' hfree)
      · exact ⟨rfl, rfl⟩

end Sound

/-! ## The lists, read through the heap -/

def Sys.values (s : Sys) : Server :=
  ⟨s.nonce, s.procs, fun c => (s.replyWindow c).map (Entry.deref s.heap)⟩

section Values

variable {s s' : Sys} {h : ReqHeader} {ret : Int} {body : List UInt8} {b : Nat} {r : Reply}

/-- At the moment of the check the pointer of a DONE answer leads to the
reply that is due. -/
theorem classify_values (h0 : h.cltNonce ≠ 0) :
    s.values.classify h = (s.checked h).state.deref s.heap := by
  rw [Server.classify, if_neg h0, Sys.values, checked_deref]
  rfl

theorem afterCheck_values (hs : s.Sound) (h0 : h.cltNonce ≠ 0) :
    (s.afterCheck h).values = { s.values with replyWindow := s.values.remember h } := by
  have hread : ∀ c, ((s.afterCheck h).replyWindow c).map (Entry.deref (s.afterCheck h).heap) =
      ((s.afterCheck h).replyWindow c).map (Entry.deref s.heap) := by
    intro c
    apply List.map_congr_left
    intro e he
    cases hb : e.buf with
    | none => simp [Entry.deref, hb]
    | some b => simp [Entry.deref, hb, Sys.afterCheck, free, hs.not_freed he hb]
  simp only [Sys.values, Server.remember, if_neg h0, checked_deref, hread]
  congr 1
  funext c
  by_cases hc : c = h.cltNonce
  · subst hc
    simp only [Sys.afterCheck, update_self]
    rfl
  · simp only [Sys.afterCheck, update_of_ne hc]

theorem afterHandler_values (hs : s.Sound) (h0 : h.cltNonce ≠ 0) (hfree : s.heap b = none) :
    (s.afterHandler h r b).values = s.values.complete h r := by
  have hread : ∀ c, (s.replyWindow c).map (Entry.deref (s.afterHandler h r b).heap) =
      (s.replyWindow c).map (Entry.deref s.heap) := by
    intro c
    apply List.map_congr_left
    intro e he
    cases hb : e.buf with
    | none => simp [Entry.deref, hb]
    | some b' =>
      have hne : b' ≠ b := fun heq => hs.buf_ne he hfree (heq ▸ hb)
      simp [Entry.deref, hb, Sys.afterHandler, update_of_ne hne]
  have hb : (s.afterHandler h r b).heap b = some r := by simp [Sys.afterHandler]
  simp only [Server.complete, if_pos (Nat.pos_of_ne_zero h0)]
  simp only [Sys.values]
  congr 1
  funext c
  by_cases hc : c = h.cltNonce
  · subst hc
    rw [update_self, ← hread, ← addReply_deref _ hb]
    simp only [Sys.afterHandler, update_self]
  · rw [update_of_ne hc, ← hread]
    simp only [Sys.afterHandler, update_of_ne hc]

theorem dispatch_cases (hd : s.dispatch h = some s') :
    (s.old h ∧ s' = s) ∨
    (¬ s.old h ∧ h.proc ∈ s.procs ∧ h.cltNonce = 0 ∧ s' = { s with running := h :: s.running }) ∨
    (¬ s.old h ∧ h.proc ∈ s.procs ∧ h.cltNonce ≠ 0 ∧ s' = s.afterCheck h) := by
  rw [Sys.dispatch] at hd
  split at hd
  · exact .inl ⟨‹_›, (Option.some.inj hd).symm⟩
  · split at hd
    · cases hd
    · rename_i hold hproc
      rw [not_not] at hproc
      split at hd
      · exact .inr (.inl ⟨hold, hproc, ‹_›, (Option.some.inj hd).symm⟩)
      · exact .inr (.inr ⟨hold, hproc, ‹_›, (Option.some.inj hd).symm⟩)

theorem complete_cases (hd : s.complete h ret body b = some s') :
    h ∈ s.running ∧ s.heap b = none ∧
    ((h.cltNonce = 0 ∧ s' = { s with running := s.running.erase h }) ∨
      (h.cltNonce ≠ 0 ∧ s' = s.afterHandler h ⟨h.xid, ret, body⟩ b)) := by
  rw [Sys.complete] at hd
  split at hd
  · rename_i hguard
    obtain ⟨hrun, -, hfree⟩ := hguard
    split at hd
    · exact ⟨hrun, hfree, .inl ⟨‹_›, (Option.some.inj hd).symm⟩⟩
    · exact ⟨hrun, hfree, .inr ⟨‹_›, (Option.some.inj hd).symm⟩⟩
  · cases hd

/-- The lists with pointers follow the lists of `Yfs.Rpc.System`. -/
theorem dispatch_refines (hs : s.Sound) (hd : s.dispatch h = some s') :
    s'.values = (s.values.dispatch h).2 := by
  have hold : s.old h ↔ h.srvNonce ≠ 0 ∧ h.srvNonce ≠ s.values.nonce := Iff.rfl
  have hproc : h.proc ∈ s.procs ↔ h.proc ∈ s.values.procs := Iff.rfl
  rw [Server.dispatch]
  rcases dispatch_cases hd with ⟨ho, rfl⟩ | ⟨ho, hp, h0, rfl⟩ | ⟨ho, hp, h0, rfl⟩
  · rw [if_pos (hold.mp ho)]
  · rw [if_neg (mt hold.mpr ho), if_neg (not_not.mpr (hproc.mp hp))]
    simp [Server.remember, h0, Sys.values]
  · rw [if_neg (mt hold.mpr ho), if_neg (not_not.mpr (hproc.mp hp))]
    exact afterCheck_values hs h0

theorem complete_refines (hs : s.Sound) (hd : s.complete h ret body b = some s') :
    s'.values = s.values.complete h ⟨h.xid, ret, body⟩ := by
  obtain ⟨-, hfree, ⟨h0, rfl⟩ | ⟨h0, rfl⟩⟩ := complete_cases hd
  · simp [Server.complete, h0, Sys.values]
  · exact afterHandler_values hs h0 hfree

end Values

/-! ## What a client keeps -/

/-- A caller has at most one reply, with its xid, and none before it is
done. -/
structure Caller.Once (ca : Caller) : Prop where
  le_one : ca.completions.length ≤ 1
  xid : ∀ r ∈ ca.completions, r.xid = ca.xid
  fresh : ca.done = false → ca.completions = []

structure Client.Tidy (cl : Client) : Prop where
  once : ∀ ca ∈ cl.callers, ca.Once
  calls : ∀ x i, cl.calls x = some i → ∃ ca, cl.callers[i]? = some ca ∧ ca.xid = x

section Clients

variable {cl cl' : Client} {ca : Caller} {r : Reply} {i : Nat}

theorem Caller.Once.answer (h : ca.Once) (hxid : r.xid = ca.xid) : (ca.answer r).Once := by
  cases hdone : ca.done with
  | true => simpa [Caller.answer, hdone] using h
  | false =>
    have hnone := h.fresh hdone
    constructor
    · simp [Caller.answer, hdone, hnone]
    · simp [Caller.answer, hdone, hnone, hxid]
    · simp [Caller.answer, hdone]

theorem Client.tidy_new : Client.new.Tidy := ⟨nofun, nofun⟩

theorem Client.Tidy.call (h : cl.Tidy) : cl.call.Tidy := by
  constructor
  · intro ca hca
    rcases List.mem_append.mp hca with hca | hca
    · exact h.once ca hca
    · obtain rfl := List.mem_singleton.mp hca
      exact ⟨Nat.zero_le 1, nofun, fun _ => rfl⟩
  · intro x i hx
    by_cases hxid : x = cl.xid
    · subst hxid
      simp only [Client.call, update_self, Option.some.injEq] at hx
      subst hx
      exact ⟨_, List.getElem?_concat_length, rfl⟩
    · simp only [Client.call, update_of_ne hxid] at hx
      obtain ⟨ca, hca, hxid⟩ := h.calls x i hx
      refine ⟨ca, ?_, hxid⟩
      obtain ⟨hlt, -⟩ := List.getElem?_eq_some_iff.mp hca
      rw [← hca]
      exact List.getElem?_append_left hlt

/-- A caller may change in what `calls_` does not look at. -/
theorem Client.Tidy.modify (h : cl.Tidy) {f : Caller → Caller} (hxid : ∀ ca, (f ca).xid = ca.xid)
    (honce : ∀ ca, cl.callers[i]? = some ca → (f ca).Once) :
    Client.Tidy { cl with callers := cl.callers.modify i f } := by
  constructor
  · intro ca hca
    obtain ⟨j, hj⟩ := List.mem_iff_getElem?.mp hca
    rw [List.getElem?_modify] at hj
    obtain ⟨ca₀, hca₀, rfl⟩ := Option.map_eq_some_iff.mp hj
    split
    · rename_i hij
      subst hij
      exact honce ca₀ hca₀
    · exact h.once ca₀ (List.mem_of_getElem? hca₀)
  · intro x j hx
    obtain ⟨ca, hca, hxid'⟩ := h.calls x j hx
    refine ⟨if i = j then f ca else ca, ?_, ?_⟩
    · simp [List.getElem?_modify, hca]
    · split
      · rw [hxid, hxid']
      · exact hxid'

theorem Client.Tidy.gotPdu (h : cl.Tidy) (r : Reply) : (cl.gotPdu r).Tidy := by
  rw [Client.gotPdu]
  cases hcall : cl.calls r.xid with
  | none => exact h
  | some i =>
    apply h.modify
    · intro ca
      rw [Caller.answer]
      split <;> rfl
    · intro ca hca
      obtain ⟨ca', hca', hxid⟩ := h.calls _ i hcall
      obtain rfl : ca' = ca := Option.some.inj (hca'.symm.trans hca)
      exact (h.once ca' (List.mem_of_getElem? hca)).answer hxid.symm

theorem Client.Tidy.ret (h : cl.Tidy) (hret : cl.ret i = some cl') : cl'.Tidy := by
  obtain ⟨ca, hca, hret⟩ := Option.bind_eq_some_iff.mp hret
  split at hret
  · cases hret
  · cases hret
    have herased : Client.Tidy { cl with calls := update cl.calls ca.xid none } := by
      refine ⟨h.once, fun x j hx => h.calls x j ?_⟩
      by_cases hxid : x = ca.xid
      · simp [hxid] at hx
      · simpa only [update_of_ne hxid] using hx
    apply herased.modify
    · exact fun _ => rfl
    · intro ca' hca'
      have honce := h.once ca' (List.mem_of_getElem? hca')
      exact ⟨honce.le_one, honce.xid, honce.fresh⟩

theorem Client.Tidy.cancel (h : cl.Tidy) : cl.cancel.Tidy := by
  constructor
  · intro ca hca
    obtain ⟨⟨ca₀, i⟩, hmem, rfl⟩ := List.mem_map.mp hca
    have honce := h.once ca₀ (List.fst_mem_of_mem_zipIdx hmem)
    dsimp only
    split
    · exact ⟨honce.le_one, honce.xid, nofun⟩
    · exact honce
  · intro x i hx
    obtain ⟨ca, hca, hxid⟩ := h.calls x i hx
    refine ⟨{ ca with done := true, intret := cancelFailure }, ?_, hxid⟩
    subst hxid
    have hthere : cl.calls ca.xid = some i := hx
    simp [Client.cancel, hca, hthere]

end Clients

/-! ## The calls of a client, xid by xid -/

section Calls

variable {cl cl' : Client} {rc : Rpc.Client} {ca : Caller} {i : Nat}

def Caller.result (ca : Caller) : Option Int := if ca.done then some ca.intret else none

/-- The calls in `calls_`, each with what it will return once it is done. -/
def Client.pending (cl : Client) (x : Nat) : Option (Option Int) :=
  (cl.calls x).bind fun i => cl.callers[i]?.map Caller.result

theorem Client.Tidy.pending_cases (ht : cl.Tidy) (x : Nat) :
    (cl.calls x = none ∧ cl.pending x = none) ∨ ∃ i ca, cl.calls x = some i ∧
      cl.callers[i]? = some ca ∧ ca.xid = x ∧ cl.pending x = some ca.result := by
  cases hx : cl.calls x with
  | none => exact .inl ⟨rfl, by simp [Client.pending, hx]⟩
  | some i =>
    obtain ⟨ca, hca, hxid⟩ := ht.calls x i hx
    exact .inr ⟨i, ca, rfl, hca, hxid, by simp [Client.pending, hx, hca]⟩

theorem Client.Tidy.pending_call (ht : cl.Tidy) (x : Nat) :
    cl.call.pending x = if x = cl.xid then some none else cl.pending x := by
  split
  · simp_all [Client.pending, Client.call, Caller.result]
  · rename_i hx
    rcases ht.pending_cases x with ⟨hc, -⟩ | ⟨i, ca, hc, hca, -⟩
    · simp [Client.pending, Client.call, hx, hc]
    · obtain ⟨hlt, -⟩ := List.getElem?_eq_some_iff.mp hca
      simp [Client.pending, Client.call, hx, hc, List.getElem?_append_left hlt]

theorem Client.Tidy.pending_gotPdu (ht : cl.Tidy) (r : Reply) (x : Nat) :
    (cl.gotPdu r).pending x = if x = r.xid then (cl.pending x).map fun o => some (o.getD r.ret)
      else cl.pending x := by
  rcases ht.pending_cases r.xid with ⟨hc, hp⟩ | ⟨i, ca, hc, hca, hxid, hp⟩
  · simp only [Client.gotPdu, hc]
    split <;> simp_all
  · simp only [Client.gotPdu, hc]
    split
    · rename_i hx
      rw [hx, hp]
      cases hd : ca.done <;> simp [Client.pending, hc, hca, hd, Caller.answer, Caller.result]
    · rename_i hx
      rcases ht.pending_cases x with ⟨hc', -⟩ | ⟨j, ca', hc', hca', hxid', -⟩
      · simp [Client.pending, hc']
      · have hne : i ≠ j := by
          rintro rfl
          cases hca.symm.trans hca'
          exact hx (hxid'.symm.trans hxid)
        simp [Client.pending, hc', hca', List.getElem?_modify, hne]

theorem Client.pending_ret (hca : cl.callers[i]? = some ca) (hret : cl.ret i = some cl')
    (x : Nat) : cl'.pending x = if x = ca.xid then none else cl.pending x := by
  simp only [Client.ret, hca, Option.bind_some, Option.ite_none_left_eq_some] at hret
  obtain ⟨-, hret⟩ := hret
  cases hret
  split
  · simp_all [Client.pending]
  · rename_i hx
    have hcaller : ∀ j : Nat, (cl.callers.modify i fun ca => { ca with returned := true })[j]?.map
        Caller.result = cl.callers[j]?.map Caller.result := by
      intro j
      rw [List.getElem?_modify]
      cases cl.callers[j]? <;> by_cases hj : i = j <;> simp [hj, Caller.result]
    simp only [Client.pending, update_of_ne hx, hcaller]

theorem Client.Tidy.pending_cancel (ht : cl.Tidy) (x : Nat) :
    cl.cancel.pending x = (cl.pending x).map fun _ => some cancelFailure := by
  rcases ht.pending_cases x with ⟨hc, -⟩ | ⟨i, ca, hc, hca, rfl, -⟩ <;>
    simp [Client.pending, Client.cancel, hc]
  simp [hca, hc, Caller.result]

def pendingCall : CallState → Option (Option Int)
  | .waiting _ => some none
  | .done _ intret => some (some intret)
  | _ => none

/-- A client of `Yfs.Rpc.System` has the same calls. -/
structure Client.Same (cl : Client) (rc : Rpc.Client) : Prop where
  xid : cl.xid = rc.xid
  pending : ∀ x, cl.pending x = pendingCall (rc.calls x)

theorem Client.Same.call (h : cl.Same rc) (ht : cl.Tidy) (proc : Nat) :
    cl.call.Same (rc.register proc) := by
  refine ⟨by simp [Client.call, Rpc.Client.register, h.xid], fun x => ?_⟩
  simp only [ht.pending_call, Rpc.Client.register, update_apply, h.xid, h.pending]
  split <;> rfl

theorem Client.Same.gotPdu (h : cl.Same rc) (ht : cl.Tidy) (r : Reply) :
    (cl.gotPdu r).Same (rc.gotPdu r) := by
  constructor
  · rw [Client.gotPdu]
    split <;> exact h.xid
  · intro x
    simp only [ht.pending_gotPdu, Rpc.Client.gotPdu, update_apply, h.pending]
    split
    · rename_i hx
      rw [← hx]
      cases rc.calls x <;> rfl
    · rfl

theorem Client.Same.cancel (h : cl.Same rc) (ht : cl.Tidy) : cl.cancel.Same rc.cancel := by
  refine ⟨h.xid, fun x => ?_⟩
  simp only [ht.pending_cancel, h.pending, Rpc.Client.cancel]
  cases rc.calls x <;> rfl

/-- The caller returns what that client returns, if the xid is still its own. -/
theorem Client.Same.ret (h : cl.Same rc) (hca : cl.callers[i]? = some ca)
    (hmine : cl.calls ca.xid = some i) (hret : cl.ret i = some cl') (nonce : Nat) :
    ∃ rc', rc.ret ca.xid nonce = some rc' ∧ cl'.Same rc' ∧
      rc'.calls ca.xid = .returned (ca.result.getD timeoutFailure) := by
  have hp := h.pending ca.xid
  simp only [Client.pending, hmine, Option.bind_some, hca, Option.map_some] at hp
  obtain ⟨rc', hrc, hxid, hcalls⟩ : ∃ rc', rc.ret ca.xid nonce = some rc' ∧ rc'.xid = rc.xid ∧
      rc'.calls = update rc.calls ca.xid (.returned (ca.result.getD timeoutFailure)) := by
    generalize ca.result = result at hp ⊢
    unfold Rpc.Client.ret
    cases hc : rc.calls ca.xid <;> rw [hc] at hp <;> cases hp <;> exact ⟨_, rfl, rfl, rfl⟩
  refine ⟨rc', hrc, ⟨?_, fun x => ?_⟩, by rw [hcalls, update_self]⟩
  · simp only [Client.ret, hca, Option.bind_some, Option.ite_none_left_eq_some] at hret
    rw [hxid, ← h.xid, ← Option.some.inj hret.2]
  · rw [Client.pending_ret hca hret, hcalls, update_apply, h.pending]
    split <;> rfl

end Calls

/-! ## Runs -/

/-- The pointers in use are those of entries in the lists, and what went out
was what is stored. -/
structure Sys.Faithful (s : Sys) : Prop where
  held : ∀ d ∈ s.sending, ∃ e ∈ s.replyWindow d.req.cltNonce,
    e.xid = d.req.xid ∧ e.cbPresent = true ∧ e.buf = d.buf
  answers : ∀ a ∈ s.answers, a.sent = a.stored ∧ a.sent.isSome = true

section Runs

variable {s s' : Sys} {h : ReqHeader} {ev : Event} {b : Nat} {r : Reply}

theorem Sys.Faithful.afterCheck (hs : s.Faithful)
    (hsafe : ∀ d ∈ s.sending, d.buf ∉ (s.checked h).freed) : (s.afterCheck h).Faithful := by
  obtain ⟨gone, hk⟩ := s.conserves h
  have hheld : ∀ d ∈ s.sending, ∃ e ∈ (s.afterCheck h).replyWindow d.req.cltNonce,
      e.xid = d.req.xid ∧ e.cbPresent = true ∧ e.buf = d.buf := by
    intro d hd
    obtain ⟨e, he, hxid, hcb, hbuf⟩ := hs.held d hd
    rcases kept_afterCheck he with hin | ⟨-, hfreed⟩
    · exact ⟨e, hin, hxid, hcb, hbuf⟩
    · rw [hbuf] at hfreed
      exact absurd hfreed (hsafe d hd)
  refine ⟨?_, hs.answers⟩
  intro d hd
  cases hstate : (s.checked h).state with
  | DONE b =>
    simp only [Sys.afterCheck, hstate] at hd
    rcases List.mem_cons.mp hd with rfl | hd
    · obtain ⟨e, he, hxid, hcb, hbuf⟩ := hk.done b hstate
      refine ⟨e, ?_, hxid, hcb, hbuf⟩
      simpa only [Sys.afterCheck, update_self] using he
    · exact hheld d hd
  | NEW =>
    simp only [Sys.afterCheck, hstate] at hd
    exact hheld d hd
  | INPROGRESS =>
    simp only [Sys.afterCheck, hstate] at hd
    exact hheld d hd
  | FORGOTTEN =>
    simp only [Sys.afterCheck, hstate] at hd
    exact hheld d hd

theorem Sys.Faithful.afterHandler (hs : s.Faithful) (hsound : s.Sound) (hrun : h ∈ s.running)
    (h0 : h.cltNonce ≠ 0) : (s.afterHandler h r b).Faithful := by
  refine ⟨?_, hs.answers⟩
  intro d hd
  rcases List.mem_cons.mp hd with rfl | hd
  · exact ⟨_, new_afterHandler hsound hrun h0, rfl, rfl, rfl⟩
  · obtain ⟨e, he, hxid, hcb, hbuf⟩ := hs.held d hd
    refine ⟨e, kept_afterHandler hsound he fun hclt hsame => ?_, hxid, hcb, hbuf⟩
    -- the entry of the running call has no reply yet
    rw [hclt] at he
    have hentry := hsound.entry h hrun h0
    have heq : e = Entry.new h.xid :=
      List.inj_on_of_nodup_map (hsound.nodup h.cltNonce) he hentry hsame
    rw [heq] at hcb
    cases hcb

theorem Sys.Faithful.send (hs : s.Faithful) (hsound : s.Sound) {i : Nat}
    (hsend : s.send i = some s') : s'.Faithful := by
  obtain ⟨d, hd, rfl⟩ := Option.map_eq_some_iff.mp hsend
  constructor
  · intro d' hd'
    exact hs.held d' (List.mem_of_mem_eraseIdx hd')
  · intro a ha
    rcases List.mem_cons.mp ha with rfl | ha
    · obtain ⟨e, he, hxid, hcb, hbuf⟩ := hs.held d (List.mem_of_getElem? hd)
      rcases hsound.backed _ e he with ⟨hno, -⟩ | ⟨b, r, -, hb, hheap, hstored⟩
      · rw [hno] at hcb
        cases hcb
      · rw [hbuf] at hb
        rw [hxid] at hstored
        simp [hb, hheap, hstored]
    · exact hs.answers a ha

/-- What an event makes of a client. -/
inductive Sys.Moves (s : Sys) : Event → Nat → Client → Prop
  | call (c : Nat) : s.Moves (.call c) c (s.clients c).call
  | gotPdu (c : Nat) (r : Reply) : s.Moves (.gotPdu c r) c ((s.clients c).gotPdu r)
  | ret {c i : Nat} {cl : Client} (h : (s.clients c).ret i = some cl) : s.Moves (.ret c i) c cl
  | cancel (c : Nat) : s.Moves (.cancel c) c (s.clients c).cancel

/-- Everything a step can be: one of the server's, or one of a client's. -/
theorem step_cases (hstep : s.step ev = some s') :
    (∃ h, ev = .dispatch h ∧ s.dispatch h = some s') ∨
    (∃ h ret body b, s.complete h ret body b = some s') ∨
    (∃ i, s.send i = some s') ∨
    ∃ c cl, s' = s.setClient c cl ∧ s.Moves ev c cl := by
  cases ev with
  | dispatch h => exact .inl ⟨h, rfl, hstep⟩
  | complete h ret body b => exact .inr (.inl ⟨h, ret, body, b, hstep⟩)
  | send i => exact .inr (.inr (.inl ⟨i, hstep⟩))
  | call c =>
    cases hstep
    exact .inr (.inr (.inr ⟨c, _, rfl, .call c⟩))
  | gotPdu c r =>
    cases hstep
    exact .inr (.inr (.inr ⟨c, _, rfl, .gotPdu c r⟩))
  | ret c i =>
    obtain ⟨cl, hret, rfl⟩ := Option.map_eq_some_iff.mp hstep
    exact .inr (.inr (.inr ⟨c, cl, rfl, .ret hret⟩))
  | cancel c =>
    cases hstep
    exact .inr (.inr (.inr ⟨c, _, rfl, .cancel c⟩))

theorem step_sound (hs : s.Sound) (hstep : s.step ev = some s') : s'.Sound := by
  obtain ⟨h, -, hd⟩ | ⟨h, ret, body, b, hd⟩ | ⟨i, hd⟩ | ⟨c, cl, rfl, -⟩ := step_cases hstep
  · rcases dispatch_cases hd with ⟨-, rfl⟩ | ⟨-, -, h0, rfl⟩ | ⟨-, -, h0, rfl⟩
    · exact hs
    · refine ⟨hs.nodup, ?_, ?_, hs.backed, hs.own⟩
      · intro h' hmem h0'
        rcases List.mem_cons.mp hmem with rfl | hmem
        · exact absurd h0 h0'
        · exact hs.entry h' hmem h0'
      · exact List.pairwise_cons.mpr ⟨fun _ _ hne => absurd h0 hne, hs.apart⟩
    · exact hs.afterCheck h0
  · obtain ⟨hrun, hfree, ⟨h0, rfl⟩ | ⟨h0, rfl⟩⟩ := complete_cases hd
    · exact ⟨hs.nodup, fun h' hmem => hs.entry h' (List.mem_of_mem_erase hmem),
        hs.apart.sublist List.erase_sublist, hs.backed, hs.own⟩
    · exact hs.afterHandler hrun h0 hfree
  · obtain ⟨d, -, rfl⟩ := Option.map_eq_some_iff.mp hd
    exact ⟨hs.nodup, hs.entry, hs.apart, hs.backed, hs.own⟩
  · exact ⟨hs.nodup, hs.entry, hs.apart, hs.backed, hs.own⟩

theorem step_faithful (hs : s.Faithful) (hsound : s.Sound) (hsafe : Safe s ev)
    (hstep : s.step ev = some s') : s'.Faithful := by
  obtain ⟨h, rfl, hd⟩ | ⟨h, ret, body, b, hd⟩ | ⟨i, hd⟩ | ⟨c, cl, rfl, -⟩ := step_cases hstep
  · rcases dispatch_cases hd with ⟨-, rfl⟩ | ⟨-, -, -, rfl⟩ | ⟨hold, hproc, h0, rfl⟩
    · exact hs
    · exact ⟨hs.held, hs.answers⟩
    · apply hs.afterCheck
      have hfrees : s.frees h = (s.checked h).freed := by simp [Sys.frees, hold, hproc, h0]
      rwa [← hfrees]
  · obtain ⟨hrun, -, ⟨-, rfl⟩ | ⟨h0, rfl⟩⟩ := complete_cases hd
    · exact ⟨hs.held, hs.answers⟩
    · exact hs.afterHandler hsound hrun h0
  · exact hs.send hsound hd
  · exact ⟨hs.held, hs.answers⟩

/-- What every move of a client keeps holds of every client. -/
theorem step_clients {p : Client → Prop} (hs : ∀ c, p (s.clients c))
    (hmoves : ∀ c cl, s.Moves ev c cl → p cl) (hstep : s.step ev = some s') :
    ∀ c, p (s'.clients c) := by
  obtain ⟨h, -, hd⟩ | ⟨h, ret, body, b, hd⟩ | ⟨i, hd⟩ | ⟨c, cl, rfl, hm⟩ := step_cases hstep
  · rcases dispatch_cases hd with ⟨-, rfl⟩ | ⟨-, -, -, rfl⟩ | ⟨-, -, -, rfl⟩
    all_goals exact hs
  · obtain ⟨-, -, ⟨-, rfl⟩ | ⟨-, rfl⟩⟩ := complete_cases hd
    all_goals exact hs
  · obtain ⟨d, -, rfl⟩ := Option.map_eq_some_iff.mp hd
    exact hs
  · intro c'
    by_cases hc : c' = c
    · subst hc
      simpa only [Sys.setClient, update_self] using hmoves c' cl hm
    · simpa only [Sys.setClient, update_of_ne hc] using hs c'

theorem step_tidy (hs : ∀ c, (s.clients c).Tidy) (hstep : s.step ev = some s') :
    ∀ c, (s'.clients c).Tidy := by
  refine step_clients hs (fun c _ hm => ?_) hstep
  cases hm with
  | call => exact (hs c).call
  | gotPdu _ r => exact (hs c).gotPdu r
  | ret hret => exact (hs c).ret hret
  | cancel => exact (hs c).cancel

end Runs

/-! ## The client of `Yfs.Rpc.System` -/

/-- What happens to the calls of one client. -/
inductive CallEvent where
  | call (proc : Nat)
  | gotPdu (r : Reply)
  | ret (x srvNonce : Nat)
  | cancel

def callStep (rc : Rpc.Client) : CallEvent → Option Rpc.Client
  | .call proc => some (rc.register proc)
  | .gotPdu r => some (rc.gotPdu r)
  | .ret x srvNonce => rc.ret x srvNonce
  | .cancel => some rc.cancel

/-- A caller returns while its xid is still its own: fewer than 2^32 calls
were made since. -/
def OwnXid (s : Sys) : Event → Prop
  | .ret c i => ∀ ca ∈ (s.clients c).callers[i]?, (s.clients c).calls ca.xid = some i
  | _ => True

def Client.Follows (cl : Client) : Prop :=
  ∃ rc, Reach callStep (fun _ _ => True) Rpc.Client.new rc ∧ cl.Same rc

theorem Client.follows_new : Client.new.Follows :=
  ⟨_, .init, rfl, fun _ => rfl⟩

theorem step_follows {s s' : Sys} {ev : Event} (htidy : ∀ c, (s.clients c).Tidy)
    (hs : ∀ c, (s.clients c).Follows) (hown : OwnXid s ev) (hstep : s.step ev = some s') :
    ∀ c, (s'.clients c).Follows := by
  refine step_clients hs (fun c _ hm => ?_) hstep
  obtain ⟨rc, hreach, hsame⟩ := hs c
  cases hm with
  | call => exact ⟨_, hreach.step (e := .call 0) trivial rfl, hsame.call (htidy c) 0⟩
  | gotPdu _ r => exact ⟨_, hreach.step (e := .gotPdu r) trivial rfl, hsame.gotPdu (htidy c) r⟩
  | ret hret =>
    obtain ⟨ca, hca, -⟩ := Option.bind_eq_some_iff.mp hret
    obtain ⟨rc', hrc, hsame', -⟩ := hsame.ret hca (hown ca hca) hret 0
    exact ⟨rc', hreach.step (e := .ret ca.xid 0) trivial hrc, hsame'⟩
  | cancel => exact ⟨_, hreach.step (e := .cancel) trivial rfl, hsame.cancel (htidy c)⟩

/-- In every run every client has the calls of a client of
`Yfs.Rpc.System`, as long as no xid comes back to a caller that waits. -/
theorem follows_of_reach {nonce : Nat} {procs : List Nat} {s : Sys}
    (h : Reach Sys.step OwnXid (Sys.init nonce procs) s) (c : Nat) : (s.clients c).Follows := by
  have hinv : (∀ c, (s.clients c).Tidy) ∧ ∀ c, (s.clients c).Follows := by
    refine h.invariant (fun s => (∀ c, (s.clients c).Tidy) ∧ ∀ c, (s.clients c).Follows)
      ⟨fun _ => Client.tidy_new, fun _ => Client.follows_new⟩ ?_
    intro s ev s' ⟨htidy, hs⟩ hown hstep
    exact ⟨step_tidy htidy hstep, step_follows htidy hs hown hstep⟩
  exact hinv.2 c

/-- What replies are to be relied on for: each list has an xid once; the
entry of a running handler is there, without a reply; what went out is what
`add_reply` stored for the client and the xid; a caller is completed at most
once, by a reply with its xid. -/
structure Sys.Integrity (s : Sys) : Prop where
  nodup : ∀ c, ((s.replyWindow c).map (·.xid)).Nodup
  running : ∀ h ∈ s.running, h.cltNonce ≠ 0 →
    ∃ e ∈ s.replyWindow h.cltNonce, e.xid = h.xid ∧ e.cbPresent = false
  answers : ∀ a ∈ s.answers, a.sent = a.stored ∧ a.sent.isSome = true
  completed : ∀ c, ∀ ca ∈ (s.clients c).callers,
    ca.completions.length ≤ 1 ∧ ∀ r ∈ ca.completions, r.xid = ca.xid

theorem reply_integrity {nonce : Nat} {procs : List Nat} {s : Sys}
    (h : Reach Sys.step Safe (Sys.init nonce procs) s) : s.Integrity := by
  have hinv : s.Sound ∧ s.Faithful ∧ ∀ c, (s.clients c).Tidy := by
    refine h.invariant (fun s => s.Sound ∧ s.Faithful ∧ ∀ c, (s.clients c).Tidy)
      ⟨sound_init nonce procs, ⟨nofun, nofun⟩, fun _ => Client.tidy_new⟩ ?_
    intro s ev s' ⟨hsound, hfaithful, htidy⟩ hsafe hstep
    exact ⟨step_sound hsound hstep, step_faithful hfaithful hsound hsafe hstep,
      step_tidy htidy hstep⟩
  obtain ⟨hsound, hfaithful, htidy⟩ := hinv
  refine ⟨hsound.nodup, ?_, hfaithful.answers, ?_⟩
  · intro h' hmem h0
    exact ⟨_, hsound.entry h' hmem h0, rfl, rfl⟩
  · intro c ca hca
    have honce := (htidy c).once ca hca
    exact ⟨honce.le_one, honce.xid⟩

/-- Two calls of client 7, of procedure 5; the second one says that the
reply of the first has arrived. -/
def firstCall : ReqHeader := ⟨2, 5, 7, 9, 1⟩
def secondCall : ReqHeader := ⟨3, 5, 7, 9, 2⟩

/-- The first request arrives twice, the second time after its reply has
gone out; the client takes the reply, and calls again. -/
def duplicated : List Event :=
  [.call 7, .call 7, .dispatch firstCall, .complete firstCall 0 [1] 100, .send 0,
    .dispatch firstCall, .gotPdu 7 ⟨2, 0, [1]⟩]

theorem reply_integrity_duplicated :
    ∃ s, Reach Sys.step Safe (Sys.init 9 [5]) s ∧
      s.answers.map (·.sent) = [some ⟨2, 0, [1]⟩, some ⟨2, 0, [1]⟩] ∧ s.Integrity := by
  exact (exists_reach (duplicated ++ [.send 0]) (by decide +kernel)).imp
    fun _ ⟨hreach, hsent⟩ => ⟨hreach, hsent, reply_integrity hreach⟩

def wrongAnswer : Answer := ⟨firstCall, true, some ⟨3, 0, [2]⟩, some ⟨2, 0, [1]⟩⟩

/-- Before the duplicate's DONE answer is sent, the second call frees its
buffer, and the reply of the second call is put there. -/
theorem freed_reply_sent :
    ∃ s, Reach Sys.step (fun _ _ => True) (Sys.init 9 [5]) s ∧
      wrongAnswer ∈ s.answers ∧ ¬ s.Integrity := by
  refine (exists_reach
    (duplicated ++ [.call 7, .dispatch secondCall, .complete secondCall 0 [2] 100, .send 1])
    (by decide +kernel)).imp fun _ ⟨hreach, hsent⟩ => ⟨hreach, hsent, fun hint => ?_⟩
  have hsame := (hint.answers _ hsent).1
  revert hsame
  decide

end Yfs.Rpc.Buffers
