/-
Yfs.Rpc.Connection — PDUs over a byte stream (rpc/connection.cc).

The sending end keeps the PDU that is going out in `wpdu_`, the receiving
end the one that is coming in, in `rpdu_`; both remember how far they got in
`solong`. A step is what a thread does while it holds the mutex of its
connection: a sender takes the channel and writes, the poll thread writes
on, a sender that was waiting leaves, the poll thread reads and offers what
it has to `got_pdu`. What the system calls return is part of the step:
any part of what was asked for, EAGAIN, or an error.

Next to the two ends stand the stream itself, the PDUs in the order in
which their sends took the channel, and the buffers `got_pdu` accepted. The
sending end only ever appends the next bytes of the frame it is at
(`writepdu_sent`). The receiving end keeps the bytes it has consumed as
accepted frames and the beginning of one (`Received`). Frames cut the
stream in one way only, so what was accepted is what was sent
(`accepted_in_order`).
-/
import Yfs.Lib.Framing
import Yfs.Lib.Run
import Yfs.Wire.Scalars

namespace Yfs.Rpc.Connection

open Yfs.Framing Yfs.Run
open Yfs.Wire (Byte bytes32 low rpcHeaderSz)

/-! ## PDUs and frames -/

def maxPdu : Nat := 10 * 2 ^ 20

/-- What is handed to `send`; its first four bytes are room for the size. -/
structure Pdu where
  bytes : List Byte
  enough : rpcHeaderSz ≤ bytes.length
  bounded : bytes.length ≤ maxPdu

def Pdu.frame (b : Pdu) : List Byte :=
  bytes32 (BitVec.ofNat 32 b.bytes.length) ++ b.bytes.drop 4

def ntohl : List Byte → BitVec 32
  | [a, b, c, d] => ((a.setWidth 32 <<< 24 ||| b.setWidth 32 <<< 16) ||| c.setWidth 32 <<< 8) |||
      d.setWidth 32
  | _ => 0

def frameSize (header : List Byte) : Nat := (ntohl header).toInt.toNat

theorem ntohl_bytes32 (x : BitVec 32) : ntohl (bytes32 x) = x := Yfs.Wire.join32 x

theorem Pdu.length_frame (b : Pdu) : b.frame.length = b.bytes.length := by
  have henough : 24 ≤ b.bytes.length := b.enough
  simp only [Pdu.frame, bytes32, List.length_append, List.length_cons, List.length_nil,
    List.length_drop]
  omega

theorem Pdu.isFrame (b : Pdu) : IsFrame 4 frameSize b.frame := by
  have henough : 24 ≤ b.bytes.length := b.enough
  have hbounded : b.bytes.length ≤ 10 * 2 ^ 20 := b.bounded
  constructor
  · rw [b.length_frame]
    omega
  · have hheader : b.frame.take 4 = bytes32 (BitVec.ofNat 32 b.bytes.length) :=
      List.take_left' rfl
    have hsize : (BitVec.ofNat 32 b.bytes.length).toInt = b.bytes.length := by
      rw [BitVec.toInt_ofNat', Int.bmod_eq_of_le] <;> omega
    rw [hheader, frameSize, ntohl_bytes32, hsize, b.length_frame]
    rfl

/-! ## The sending end -/

structure Charbuf where
  buf : Option (List Byte)
  sz : Int
  solong : Int

def Charbuf.empty : Charbuf := ⟨none, 0, 0⟩

inductive WriteResult where
  | wrote (n : Nat)
  | again
  | error

def writepdu (w : Charbuf) (r : WriteResult) : Option (Bool × List Byte × Charbuf) :=
  w.buf.bind fun buf =>
    if w.solong < 0 then none
    else if w.solong = w.sz then some (true, [], w)
    else
      let buf := if w.solong = 0 then bytes32 (BitVec.ofInt 32 w.sz) ++ buf.drop 4 else buf
      match r with
      | .wrote n =>
        if (n : Int) ≤ w.sz - w.solong then
          some (true, (buf.drop w.solong.toNat).take n, ⟨some buf, w.sz, w.solong + n⟩)
        else none
      | .again => some (true, [], ⟨some buf, w.sz, w.solong⟩)
      | .error => some (false, [], ⟨some buf, 0, -1⟩)

/-- Where the thread that has taken the channel is: waiting for
`send_complete_`, or in `block_remove_fd` without the mutex. -/
inductive Phase where
  | completing
  | removing
  deriving DecidableEq

/-- A connection, as far as sending goes; `waiting` are the PDUs of the
threads in the first loop of `send`. -/
structure Sender where
  waiting : List Pdu
  wpdu : Charbuf
  phase : Option Phase
  dead : Bool

/-! ## The receiving end -/

/-- What `read` returns; `fail` is the end of the stream or an error other
than EAGAIN. -/
inductive ReadResult where
  | got (n : Nat)
  | again
  | fail

/-- The first half of `readpdu`: the size. With it come the number of bytes
taken off the stream and the buffer; a failed VERIFY is no step. -/
def readSize (stream : List Byte) (rpdu : Charbuf) : ReadResult → Option (Bool × Nat × Charbuf)
  | .got n =>
    if n = 0 ∨ 4 < n ∨ stream.length < n then none
    else if n ≠ 4 then some (false, n, rpdu)
    else
      let sz := (ntohl (stream.take 4)).toInt
      if maxPdu < sz then some (false, n, rpdu)
      else if rpdu.buf.isSome then none
      else some (true, n, ⟨some (stream.take 4), sz, 4⟩)
  | .again => none
  | .fail => some (false, 0, rpdu)

def Charbuf.missing (rpdu : Charbuf) : Nat := ((rpdu.sz - rpdu.solong) % 2 ^ 64).toNat

def readBody (stream : List Byte) (rpdu : Charbuf) : ReadResult → Option (Bool × Nat × Charbuf)
  | .got n =>
    if n = 0 ∨ rpdu.missing < n ∨ stream.length < n then none
    else some (true, n, ⟨rpdu.buf.map (· ++ stream.take n), rpdu.sz, rpdu.solong + n⟩)
  | .again => some (true, 0, rpdu)
  | .fail => some (false, 0, Charbuf.empty)

def readpdu (stream : List Byte) (rpdu : Charbuf) (r r' : ReadResult) :
    Option (Bool × Nat × Charbuf) :=
  if rpdu.sz = 0 then
    (readSize stream rpdu r).bind fun a =>
      if a.1 then (readBody (stream.drop a.2.1) a.2.2 r').map fun b => (b.1, a.2.1 + b.2.1, b.2.2)
      else some a
  else readBody stream rpdu r'

/-- A connection, as far as receiving goes: `pos` bytes of the stream are
consumed, and `accepted` is what `got_pdu` returned true for. -/
structure Receiver where
  rpdu : Charbuf
  dead : Bool
  pos : Nat
  accepted : List (List Byte)

/-- `read_cb`; `accept` is what `got_pdu` returns, if it is called. -/
def Receiver.readCb (rc : Receiver) (written : List Byte) (r r' : ReadResult) (accept : Bool) :
    Option Receiver :=
  if rc.dead then some rc
  else
    (if rc.rpdu.buf = none ∨ rc.rpdu.solong < rc.rpdu.sz then
      readpdu (written.drop rc.pos) rc.rpdu r r'
    else some (true, 0, rc.rpdu)).map fun a =>
      match a.2.2.buf with
      | none => ⟨a.2.2, !a.1, rc.pos + a.2.1, rc.accepted⟩
      | some buf =>
        if a.2.2.sz = a.2.2.solong ∧ accept = true then
          ⟨Charbuf.empty, !a.1, rc.pos + a.2.1, rc.accepted ++ [buf]⟩
        else ⟨a.2.2, !a.1, rc.pos + a.2.1, rc.accepted⟩

/-! ## Both ends and the stream -/

structure Sys where
  sender : Sender
  receiver : Receiver
  written : List Byte
  taken : List Pdu

inductive Event where
  | call (b : Pdu)
  | take (i : Nat) (r : WriteResult)
  | giveUp (i : Nat)
  | writeCb (r : WriteResult)
  | complete
  | removed
  | closeSender
  | readCb (r r' : ReadResult) (accept : Bool)
  | closeReceiver

def Sys.take (s : Sys) (i : Nat) (r : WriteResult) : Option Sys :=
  if s.sender.dead = true ∨ s.sender.wpdu.buf.isSome = true then none
  else
    s.sender.waiting[i]?.bind fun b =>
      (writepdu ⟨some b.bytes, b.bytes.length, 0⟩ r).map fun a =>
        { s with
          sender :=
            if a.1 = false then
              ⟨s.sender.waiting.eraseIdx i, a.2.2, some .removing, true⟩
            else if a.2.2.solong = a.2.2.sz then
              ⟨s.sender.waiting.eraseIdx i, Charbuf.empty, none, false⟩
            else ⟨s.sender.waiting.eraseIdx i, a.2.2, some .completing, false⟩
          written := s.written ++ a.2.1
          taken := s.taken ++ [b] }

def Sys.writeCb (s : Sys) (r : WriteResult) : Option Sys :=
  if s.sender.dead then none
  else if s.sender.wpdu.sz = 0 then some s
  else
    (writepdu s.sender.wpdu r).map fun a =>
      { s with
        sender := { s.sender with wpdu := a.2.2, dead := !a.1 }
        written := s.written ++ a.2.1 }

/-- The condition of the second loop of `send`. -/
def Sender.Unfinished (sd : Sender) : Prop :=
  sd.dead = false ∧ 0 ≤ sd.wpdu.solong ∧ sd.wpdu.solong < sd.wpdu.sz

instance (sd : Sender) : Decidable sd.Unfinished := inferInstanceAs (Decidable (_ ∧ _))

def Sys.step (s : Sys) : Event → Option Sys
  | .call b => some { s with sender := { s.sender with waiting := s.sender.waiting ++ [b] } }
  | .take i r => s.take i r
  | .giveUp i =>
    if s.sender.dead then
      some { s with sender := { s.sender with waiting := s.sender.waiting.eraseIdx i } }
    else none
  | .writeCb r => s.writeCb r
  | .complete =>
    if s.sender.phase = some .completing ∧ ¬ s.sender.Unfinished then
      some { s with sender := { s.sender with wpdu := Charbuf.empty, phase := none } }
    else none
  | .removed =>
    if s.sender.phase = some .removing then
      some { s with sender := { s.sender with wpdu := Charbuf.empty, phase := none } }
    else none
  | .closeSender => some { s with sender := { s.sender with dead := true } }
  | .readCb r r' accept =>
    (s.receiver.readCb s.written r r' accept).map fun rc => { s with receiver := rc }
  | .closeReceiver => some { s with receiver := { s.receiver with dead := true } }

def Sys.new : Sys :=
  ⟨⟨[], Charbuf.empty, none, false⟩, ⟨Charbuf.empty, false, 0, []⟩, [], []⟩

/-! ## What the sending end has written -/

/-- The channel is at the last PDU taken, and `solong` bytes of its frame
are out. The size is filled in before the first byte goes out. -/
structure Sent (taken : List Pdu) (written : List Byte) (w : Charbuf) : Prop where
  at_last : ∃ done b buf, taken = done ++ [b] ∧ w.buf = some buf ∧ w.sz = b.bytes.length ∧
    buf.drop 4 = b.bytes.drop 4 ∧ (w.solong ≠ 0 → buf = b.frame) ∧
    written = (done.map Pdu.frame).flatten ++ b.frame.take w.solong.toNat
  nonneg : 0 ≤ w.solong
  le_sz : w.solong ≤ w.sz

def frames (taken : List Pdu) : List Byte := (taken.map Pdu.frame).flatten

theorem frames_append_singleton (taken : List Pdu) (b : Pdu) :
    frames (taken ++ [b]) = frames taken ++ b.frame := by
  simp [frames]

variable {taken : List Pdu} {written out : List Byte} {w w' : Charbuf} {r r' : WriteResult}

theorem Sent.isPrefix (h : Sent taken written w) : written <+: frames taken := by
  obtain ⟨done, b, buf, rfl, -, -, -, -, rfl⟩ := h.at_last
  rw [frames_append_singleton]
  exact (List.prefix_append_right_inj _).mpr (List.take_prefix _ _)

/-- When all of it is out, the frames are complete. -/
theorem Sent.all (h : Sent taken written w) (hall : w.solong = w.sz) :
    written = frames taken := by
  obtain ⟨done, b, buf, rfl, -, hsz, -, -, rfl⟩ := h.at_last
  have hlength : w.solong.toNat = b.frame.length := by
    rw [hall, hsz, b.length_frame]
    rfl
  rw [frames_append_singleton, hlength, List.take_length]
  rfl

/-- A PDU of which nothing is out yet. -/
theorem sent_first (b : Pdu) :
    Sent (taken ++ [b]) (frames taken) ⟨some b.bytes, b.bytes.length, 0⟩ := by
  refine ⟨⟨taken, b, b.bytes, rfl, rfl, rfl, rfl, fun h => absurd rfl h, ?_⟩, le_refl 0, ?_⟩
  · simp [frames]
  · exact Int.natCast_nonneg _

/-- `writepdu` appends the next bytes of the frame, or nothing. -/
theorem writepdu_sent (h : Sent taken written w) {ok : Bool}
    (hw : writepdu w r = some (ok, out, w')) :
    (ok = true ∧ Sent taken (written ++ out) w') ∨ (ok = false ∧ out = [] ∧ w'.sz = 0) := by
  obtain ⟨done, b, buf, rfl, hbuf, hsz, hdrop, hframe, rfl⟩ := h.at_last
  have hnonneg := h.nonneg
  simp only [writepdu, hbuf, Option.bind_some] at hw
  rw [if_neg (not_lt.mpr hnonneg)] at hw
  by_cases hall : w.solong = w.sz
  · rw [if_pos hall] at hw
    obtain ⟨rfl, rfl, rfl⟩ : true = ok ∧ [] = out ∧ w = w' := by simpa using hw
    exact .inl ⟨rfl, by simpa using h⟩
  · rw [if_neg hall] at hw
    -- whatever was there before, from here on the buffer holds the frame
    have hfilled : (if w.solong = 0 then bytes32 (BitVec.ofInt 32 w.sz) ++ buf.drop 4 else buf)
        = b.frame := by
      split
      · rw [hsz, hdrop, BitVec.ofInt_natCast]
        rfl
      · exact hframe ‹_›
    have hdrop' : b.frame.drop 4 = b.bytes.drop 4 := List.drop_left' rfl
    rw [hfilled] at hw
    cases r with
    | wrote n =>
      dsimp only at hw
      split at hw
      · obtain ⟨rfl, rfl, rfl⟩ : true = ok ∧ (b.frame.drop w.solong.toNat).take n = out ∧
            (⟨some b.frame, w.sz, w.solong + n⟩ : Charbuf) = w' := by simpa using hw
        have hsolong : (w.solong + n).toNat = w.solong.toNat + n := by omega
        refine .inl ⟨rfl, ⟨done, b, b.frame, rfl, rfl, hsz, hdrop', fun _ => rfl, ?_⟩, ?_, ?_⟩
        · rw [List.append_assoc, hsolong, List.take_add]
        · dsimp only
          omega
        · dsimp only
          omega
      · cases hw
    | again =>
      obtain ⟨rfl, rfl, rfl⟩ : true = ok ∧ [] = out ∧
          (⟨some b.frame, w.sz, w.solong⟩ : Charbuf) = w' := by simpa using hw
      refine .inl ⟨rfl, ⟨done, b, b.frame, rfl, rfl, hsz, hdrop', fun _ => rfl, ?_⟩, hnonneg,
        h.le_sz⟩
      rw [List.append_nil]
    | error =>
      obtain ⟨rfl, rfl, rfl⟩ : false = ok ∧ [] = out ∧
          (⟨some b.frame, 0, -1⟩ : Charbuf) = w' := by simpa using hw
      exact .inr ⟨rfl, rfl, rfl⟩

/-- The sending end at any time: it has written the beginning of the frames,
and as long as it is alive it knows which. -/
structure Wrote (sd : Sender) (written : List Byte) (taken : List Pdu) : Prop where
  isPrefix : written <+: frames taken
  idle : sd.dead = false → sd.wpdu.buf = none → written = frames taken
  busy : sd.dead = false → sd.wpdu.buf.isSome → Sent taken written sd.wpdu
  phase : sd.phase = some .removing → sd.dead = true
  owned : sd.dead = false → sd.phase = some .completing → sd.wpdu.buf.isSome

/-- A dead sender writes nothing any more. -/
theorem Wrote.of_dead {sd : Sender} (h : written <+: frames taken) (hdead : sd.dead = true) :
    Wrote sd written taken where
  isPrefix := h
  idle halive := by simp [hdead] at halive
  busy halive := by simp [hdead] at halive
  phase _ := hdead
  owned halive := by simp [hdead] at halive

theorem take_wrote {s s' : Sys} {i : Nat} (h : Wrote s.sender s.written s.taken)
    (hs : s.take i r = some s') :
    Wrote s'.sender s'.written s'.taken ∧ s'.receiver = s.receiver ∧ s.written <+: s'.written := by
  rw [Sys.take] at hs
  split at hs
  · cases hs
  · rename_i hfree
    obtain ⟨hdead, hnone⟩ : s.sender.dead = false ∧ s.sender.wpdu.buf = none := by
      simpa using hfree
    obtain ⟨b, -, hs⟩ := Option.bind_eq_some_iff.mp hs
    obtain ⟨⟨ok, out, w⟩, hw, rfl⟩ := Option.map_eq_some_iff.mp hs
    have hidle := h.idle hdead hnone
    refine ⟨?_, rfl, List.prefix_append _ _⟩
    dsimp only
    rw [hidle]
    rcases writepdu_sent (sent_first b) hw with ⟨rfl, hsent⟩ | ⟨rfl, rfl, -⟩
    · rw [if_neg Bool.true_eq_false.mp]
      split
      · rename_i hall
        rw [hsent.all hall]
        exact ⟨List.prefix_rfl, fun _ _ => rfl, nofun, nofun, nofun⟩
      · obtain ⟨-, -, buf, -, hbuf, -⟩ := hsent.at_last
        have hsome : w.buf.isSome = true := by rw [hbuf]; rfl
        refine ⟨hsent.isPrefix, fun _ hno => ?_, fun _ _ => hsent, nofun, fun _ _ => hsome⟩
        rw [show w.buf = none from hno] at hsome
        cases hsome
    · rw [if_pos rfl]
      refine Wrote.of_dead ?_ rfl
      rw [frames_append_singleton, List.append_nil]
      exact List.prefix_append _ _

theorem writeCb_wrote {s s' : Sys} (h : Wrote s.sender s.written s.taken)
    (hs : s.writeCb r = some s') :
    Wrote s'.sender s'.written s'.taken ∧ s'.receiver = s.receiver ∧ s.written <+: s'.written := by
  rw [Sys.writeCb] at hs
  split at hs
  · cases hs
  · rename_i hdead
    rw [Bool.not_eq_true] at hdead
    split at hs
    · cases hs
      exact ⟨h, rfl, List.prefix_rfl⟩
    · obtain ⟨⟨ok, out, w⟩, hw, rfl⟩ := Option.map_eq_some_iff.mp hs
      have hsome : s.sender.wpdu.buf.isSome = true := by
        obtain ⟨buf, hbuf, -⟩ := Option.bind_eq_some_iff.mp hw
        rw [hbuf]
        rfl
      have hbusy := h.busy hdead hsome
      refine ⟨?_, rfl, List.prefix_append _ _⟩
      rcases writepdu_sent hbusy hw with ⟨rfl, hsent⟩ | ⟨rfl, rfl, -⟩
      · obtain ⟨-, -, buf, -, hbuf, -⟩ := hsent.at_last
        have hsome' : w.buf.isSome = true := by rw [hbuf]; rfl
        refine ⟨hsent.isPrefix, fun _ hno => ?_, fun _ _ => hsent, fun hp => ?_,
          fun _ _ => hsome'⟩
        · rw [show w.buf = none from hno] at hsome'
          cases hsome'
        · exact absurd (h.phase hp) (by simp [hdead])
      · refine Wrote.of_dead ?_ rfl
        dsimp only
        rw [List.append_nil]
        exact h.isPrefix

/-- The thread that had the channel leaves. -/
theorem Wrote.leave {sd : Sender} (h : Wrote sd written taken)
    (hall : sd.dead = false → written = frames taken) :
    Wrote { sd with wpdu := Charbuf.empty, phase := none } written taken where
  isPrefix := h.isPrefix
  idle halive _ := hall halive
  busy _ hsome := by cases hsome
  phase := nofun
  owned := nofun

theorem complete_wrote {sd : Sender} (h : Wrote sd written taken)
    (hphase : sd.phase = some .completing) (hdone : ¬ sd.Unfinished) :
    Wrote { sd with wpdu := Charbuf.empty, phase := none } written taken := by
  apply h.leave
  intro halive
  have hsent := h.busy halive (h.owned halive hphase)
  apply hsent.all
  -- the loop ends when nothing is missing, or below zero, where it never is here
  have hle := hsent.le_sz
  have hnonneg := hsent.nonneg
  by_contra hne
  exact hdone ⟨halive, hnonneg, by omega⟩

/-! ## What the receiving end has -/

structure Incoming (rpdu : Charbuf) : Prop where
  empty : rpdu.buf = none → rpdu.sz = 0
  size : ∀ c, rpdu.buf = some c →
    4 ≤ c.length ∧ rpdu.solong = c.length ∧ rpdu.sz = (ntohl (c.take 4)).toInt

def Charbuf.content (rpdu : Charbuf) : List Byte := rpdu.buf.getD []

variable {stream : List Byte} {rpdu rpdu' : Charbuf} {ok : Bool} {k : Nat} {x x' : ReadResult}

theorem incoming_empty : Incoming Charbuf.empty := ⟨fun _ => rfl, nofun⟩

/-- A read takes its bytes off the stream and puts them at the end of the
buffer. -/
structure ReadOff (stream : List Byte) (rpdu : Charbuf) (k : Nat) (rpdu' : Charbuf) : Prop where
  incoming : Incoming rpdu'
  available : k ≤ stream.length
  content : rpdu'.content = rpdu.content ++ stream.take k

theorem readSize_cases (hnone : rpdu.buf = none)
    (h : readSize stream rpdu x = some (ok, k, rpdu')) :
    (ok = true ∧ rpdu'.buf.isSome ∧ ReadOff stream rpdu k rpdu') ∨
      (ok = false ∧ rpdu'.buf = none) := by
  cases x with
  | got n =>
    simp only [readSize] at h
    split at h
    · cases h
    · rename_i hn
      split at h
      · obtain ⟨rfl, -, rfl⟩ : false = ok ∧ n = k ∧ rpdu = rpdu' := by simpa using h
        exact .inr ⟨rfl, hnone⟩
      · split at h
        · obtain ⟨rfl, -, rfl⟩ : false = ok ∧ n = k ∧ rpdu = rpdu' := by simpa using h
          exact .inr ⟨rfl, hnone⟩
        · obtain ⟨rfl, rfl, rfl⟩ : true = ok ∧ n = k ∧
              (⟨some (stream.take 4), (ntohl (stream.take 4)).toInt, 4⟩ : Charbuf) = rpdu' := by
            simpa [hnone] using h
          obtain rfl : n = 4 := by omega
          have hlength : (stream.take 4).length = 4 := by
            rw [List.length_take]
            omega
          refine .inl ⟨rfl, rfl, ⟨nofun, ?_⟩, by omega, by simp [Charbuf.content, hnone]⟩
          intro c hc
          obtain rfl : stream.take 4 = c := Option.some.inj hc
          refine ⟨hlength.ge, by simp [hlength], ?_⟩
          rw [List.take_take, min_self]
  | again => cases h
  | fail =>
    obtain ⟨rfl, -, rfl⟩ : false = ok ∧ 0 = k ∧ rpdu = rpdu' := by simpa [readSize] using h
    exact .inr ⟨rfl, hnone⟩

theorem readBody_cases (hin : Incoming rpdu) (hsome : rpdu.buf.isSome)
    (h : readBody stream rpdu x = some (ok, k, rpdu')) :
    (ok = true ∧ ReadOff stream rpdu k rpdu') ∨ (ok = false ∧ rpdu'.buf = none) := by
  obtain ⟨c, hc⟩ := Option.isSome_iff_exists.mp hsome
  obtain ⟨hheader, hsolong, hsz⟩ := hin.size c hc
  cases x with
  | got n =>
    simp only [readBody] at h
    split at h
    · cases h
    · obtain ⟨rfl, rfl, rfl⟩ : true = ok ∧ n = k ∧
          (⟨some (c ++ stream.take n), rpdu.sz, rpdu.solong + n⟩ : Charbuf) = rpdu' := by
        simpa [hc] using h
      have hlength : (stream.take n).length = n := by
        rw [List.length_take]
        omega
      refine .inl ⟨rfl, ⟨nofun, ?_⟩, by omega, by simp [Charbuf.content, hc]⟩
      intro d hd
      obtain rfl : c ++ stream.take n = d := Option.some.inj hd
      refine ⟨?_, ?_, ?_⟩
      · rw [List.length_append]
        omega
      · rw [List.length_append, hlength, hsolong]
        push_cast
        rfl
      · rw [List.take_append_of_le_length hheader]
        exact hsz
  | again =>
    obtain ⟨rfl, rfl, rfl⟩ : true = ok ∧ 0 = k ∧ rpdu = rpdu' := by simpa [readBody] using h
    exact .inl ⟨rfl, hin, Nat.zero_le _, by simp⟩
  | fail =>
    obtain ⟨rfl, -, rfl⟩ : false = ok ∧ 0 = k ∧ Charbuf.empty = rpdu' := by
      simpa [readBody] using h
    exact .inr ⟨rfl, rfl⟩

theorem ReadOff.trans {rpdu'' : Charbuf} {j : Nat} (h : ReadOff stream rpdu j rpdu')
    (h' : ReadOff (stream.drop j) rpdu' k rpdu'') : ReadOff stream rpdu (j + k) rpdu'' where
  incoming := h'.incoming
  available := by
    have havailable := h.available
    have havailable' := h'.available
    rw [List.length_drop] at havailable'
    omega
  content := by
    rw [h'.content, h.content, List.append_assoc, List.take_add]

/-- `readpdu` is called without a buffer, or with one that is not full. -/
theorem readpdu_cases (hin : Incoming rpdu) (hcall : rpdu.buf = none ∨ rpdu.solong < rpdu.sz)
    (h : readpdu stream rpdu x x' = some (ok, k, rpdu')) :
    (ok = true ∧ ReadOff stream rpdu k rpdu') ∨ (ok = false ∧ rpdu'.buf = none) := by
  rw [readpdu] at h
  cases hbuf : rpdu.buf with
  | none =>
    rw [if_pos (hin.empty hbuf)] at h
    obtain ⟨⟨ok₁, j, rpdu₁⟩, hfirst, h⟩ := Option.bind_eq_some_iff.mp h
    rcases readSize_cases hbuf hfirst with ⟨rfl, hsome, hread⟩ | ⟨rfl, hnone⟩
    · rw [if_pos rfl] at h
      obtain ⟨⟨ok₂, k₂, rpdu₂⟩, hsecond, heq⟩ := Option.map_eq_some_iff.mp h
      obtain ⟨rfl, rfl, rfl⟩ : ok₂ = ok ∧ j + k₂ = k ∧ rpdu₂ = rpdu' := by simpa using heq
      rcases readBody_cases hread.incoming hsome hsecond with ⟨rfl, hread'⟩ | ⟨rfl, hnone⟩
      · exact .inl ⟨rfl, hread.trans hread'⟩
      · exact .inr ⟨rfl, hnone⟩
    · obtain ⟨rfl, -, rfl⟩ : false = ok ∧ j = k ∧ rpdu₁ = rpdu' := by simpa using h
      exact .inr ⟨rfl, hnone⟩
  | some c =>
    obtain ⟨hheader, hsolong, -⟩ := hin.size c hbuf
    have hfull : rpdu.solong < rpdu.sz := by simpa [hbuf] using hcall
    rw [if_neg (by omega)] at h
    exact readBody_cases hin (by rw [hbuf]; rfl) h

/-- The receiving end at any time: it has accepted frames off the beginning
of the stream, and while it is alive its buffer is what came after them. -/
structure Received (rc : Receiver) (written : List Byte) : Prop where
  isFrame : ∀ c ∈ rc.accepted, IsFrame 4 frameSize c
  isPrefix : rc.accepted.flatten <+: written
  incoming : rc.dead = false → Incoming rc.rpdu
  available : rc.dead = false → rc.pos ≤ written.length
  consumed : rc.dead = false → rc.accepted.flatten ++ rc.rpdu.content = written.take rc.pos

variable {rc rc' : Receiver}

theorem Received.of_dead (hframe : ∀ c ∈ rc.accepted, IsFrame 4 frameSize c)
    (h : rc.accepted.flatten <+: written) (hdead : rc.dead = true) : Received rc written where
  isFrame := hframe
  isPrefix := h
  incoming halive := by simp [hdead] at halive
  available halive := by simp [hdead] at halive
  consumed halive := by simp [hdead] at halive

/-- More bytes on the stream change nothing for the receiving end. -/
theorem Received.grow {written' : List Byte} (h : Received rc written)
    (hgrow : written <+: written') : Received rc written' where
  isFrame := h.isFrame
  isPrefix := h.isPrefix.trans hgrow
  incoming := h.incoming
  available halive := (h.available halive).trans hgrow.length_le
  consumed halive := by
    obtain ⟨more, rfl⟩ := hgrow
    rw [List.take_append_of_le_length (h.available halive)]
    exact h.consumed halive

theorem Received.read (h : Received rc written) (halive : rc.dead = false)
    (hread : ReadOff (written.drop rc.pos) rc.rpdu k rpdu') :
    Received ⟨rpdu', false, rc.pos + k, rc.accepted⟩ written where
  isFrame := h.isFrame
  isPrefix := h.isPrefix
  incoming _ := hread.incoming
  available _ := by
    have hbefore := h.available halive
    have hthere := hread.available
    rw [List.length_drop] at hthere
    dsimp only
    omega
  consumed _ := by
    dsimp only
    rw [hread.content, ← List.append_assoc, h.consumed halive, ← List.take_add]

/-- A full buffer is a frame, the next one. -/
theorem Received.accept (h : Received rc written) (halive : rc.dead = false) {c : List Byte}
    (hbuf : rc.rpdu.buf = some c) (hfull : rc.rpdu.sz = rc.rpdu.solong) :
    Received ⟨Charbuf.empty, false, rc.pos, rc.accepted ++ [c]⟩ written := by
  obtain ⟨hheader, hsolong, hsz⟩ := (h.incoming halive).size c hbuf
  have hframe : IsFrame 4 frameSize c := by
    refine ⟨hheader, ?_⟩
    rw [frameSize, ← hsz, hfull, hsolong]
    rfl
  have hconsumed : (rc.accepted ++ [c]).flatten = written.take rc.pos := by
    simpa [Charbuf.content, hbuf] using h.consumed halive
  constructor
  · intro d hd
    rcases List.mem_append.mp hd with hd | hd
    · exact h.isFrame d hd
    · obtain rfl := List.mem_singleton.mp hd
      exact hframe
  · rw [hconsumed]
    exact List.take_prefix _ _
  · exact fun _ => incoming_empty
  · exact fun _ => h.available halive
  · intro _
    simpa [Charbuf.content, Charbuf.empty] using hconsumed

theorem readCb_received {accept : Bool} (h : Received rc written)
    (hr : rc.readCb written x x' accept = some rc') : Received rc' written := by
  rw [Receiver.readCb] at hr
  split at hr
  · cases hr
    exact h
  · rename_i halive
    rw [Bool.not_eq_true] at halive
    obtain ⟨⟨ok, k, rpdu⟩, hread, rfl⟩ := Option.map_eq_some_iff.mp hr
    have hcases : (ok = true ∧ ReadOff (written.drop rc.pos) rc.rpdu k rpdu) ∨
        (ok = false ∧ rpdu.buf = none) := by
      split at hread
      · exact readpdu_cases (h.incoming halive) ‹_› hread
      · obtain ⟨rfl, rfl, rfl⟩ : true = ok ∧ 0 = k ∧ rc.rpdu = rpdu := by simpa using hread
        exact .inl ⟨rfl, h.incoming halive, Nat.zero_le _, by simp⟩
    rcases hcases with ⟨rfl, hoff⟩ | ⟨rfl, hnone⟩
    · have hafter := h.read halive hoff
      dsimp only
      split
      · exact hafter
      · split
        · exact hafter.accept rfl ‹_› (And.left ‹_›)
        · exact hafter
    · simp only [hnone]
      exact Received.of_dead h.isFrame h.isPrefix rfl

/-! ## Runs -/

structure Sys.Reliable (s : Sys) : Prop where
  wrote : Wrote s.sender s.written s.taken
  received : Received s.receiver s.written

theorem reliable_new : Sys.new.Reliable where
  wrote := ⟨List.prefix_rfl, fun _ _ => rfl, nofun, nofun, nofun⟩
  received := ⟨nofun, List.prefix_rfl, fun _ => incoming_empty, fun _ => le_rfl, fun _ => rfl⟩

theorem step_reliable {s s' : Sys} {e : Event} (h : s.Reliable) (hs : s.step e = some s') :
    s'.Reliable := by
  cases e with
  | call b =>
    cases hs
    exact ⟨⟨h.wrote.isPrefix, h.wrote.idle, h.wrote.busy, h.wrote.phase, h.wrote.owned⟩, h.received⟩
  | take i r =>
    obtain ⟨hwrote, hsame, hgrow⟩ := take_wrote h.wrote hs
    exact ⟨hwrote, hsame ▸ h.received.grow hgrow⟩
  | giveUp i =>
    obtain ⟨-, rfl⟩ := Run.of_guard hs
    exact ⟨⟨h.wrote.isPrefix, h.wrote.idle, h.wrote.busy, h.wrote.phase, h.wrote.owned⟩, h.received⟩
  | writeCb r =>
    obtain ⟨hwrote, hsame, hgrow⟩ := writeCb_wrote h.wrote hs
    exact ⟨hwrote, hsame ▸ h.received.grow hgrow⟩
  | complete =>
    obtain ⟨⟨hphase, hdone⟩, rfl⟩ := Run.of_guard hs
    exact ⟨complete_wrote h.wrote hphase hdone, h.received⟩
  | removed =>
    obtain ⟨hphase, rfl⟩ := Run.of_guard hs
    have hdead := h.wrote.phase hphase
    exact ⟨Wrote.of_dead h.wrote.isPrefix hdead, h.received⟩
  | closeSender =>
    cases hs
    exact ⟨Wrote.of_dead h.wrote.isPrefix rfl, h.received⟩
  | readCb r r' accept =>
    obtain ⟨rc, hr, rfl⟩ := Option.map_eq_some_iff.mp hs
    exact ⟨h.wrote, readCb_received h.received hr⟩
  | closeReceiver =>
    cases hs
    exact ⟨h.wrote, Received.of_dead h.received.isFrame h.received.isPrefix rfl⟩

/-- What `got_pdu` has accepted are the first of the PDUs that took the
channel, in that order and whole. -/
theorem accepted_in_order {s : Sys} (h : Reach Sys.step (fun _ _ => True) Sys.new s) :
    s.receiver.accepted <+: s.taken.map Pdu.frame := by
  have hreliable : s.Reliable :=
    h.invariant Sys.Reliable reliable_new fun _ _ _ hs _ => step_reliable hs
  have hframes : ∀ c ∈ s.taken.map Pdu.frame, IsFrame 4 frameSize c := by
    intro c hc
    obtain ⟨b, -, rfl⟩ := List.mem_map.mp hc
    exact b.isFrame
  apply isPrefix_of_flatten (by decide) hreliable.received.isFrame hframes
  exact hreliable.received.isPrefix.trans hreliable.wrote.isPrefix

/-- Two sends wait; the second takes the channel first. Its PDU goes out in
pieces, comes in in pieces, and is refused once. -/
def twoSends : List Event :=
  let pdu (x : Byte) : Pdu := ⟨List.replicate 24 x, by simp [rpcHeaderSz], by simp [maxPdu]⟩
  [.call (pdu 1), .call (pdu 2), .take 1 (.wrote 10), .readCb (.got 4) (.got 6) true,
    .writeCb .again, .writeCb (.wrote 14), .complete, .readCb .fail .again true,
    .readCb .fail (.got 14) false, .readCb .fail .fail true, .take 0 (.wrote 24),
    .readCb (.got 4) (.got 20) true]

theorem accepted_in_order_twoSends :
    ∃ s, Reach Sys.step (fun _ _ => True) Sys.new s ∧ s.receiver.accepted.length = 2 ∧
      s.receiver.accepted <+: s.taken.map Pdu.frame := by
  exact (Run.exists_reach twoSends (by decide +kernel)).imp
    fun _ ⟨hreach, htwo⟩ => ⟨hreach, htwo, accepted_in_order hreach⟩

end Yfs.Rpc.Connection
