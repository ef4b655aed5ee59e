/-
Yfs.Wire.Marshall — the byte buffers behind RPC messages (rpc/marshall.h,
rpc/rpc.cc): `marshall` with its growing buffer, `unmarshall` with its
sticky `_ok`, the operators for the basic types and the message headers.

`Writes put bytes` is the specification of a writer: from any buffer with
room up to `maxBuf` it puts `bytes` at the write position and moves behind
them. Readers are specified by `Decode.Decodes`. The two meet in the bytes.

`_capa` is an `int` that is doubled when the buffer is full; a buffer that
would have to grow past `2³¹ - 1` is a failed VERIFY of `realloc`. That is
why `maxBuf` is `2³⁰`.
-/
import Yfs.Lib.Decode

namespace Yfs.Wire

open Yfs.Decode

abbrev Byte := BitVec 8

def defaultRpcSz : Nat := 1024

def rpcSzSz : Nat := 4

/-- `RPC_HEADER_SZ`, without checksums: the larger header, `req_header`, and
the size of the packet. -/
def rpcHeaderSz : Nat := 24

/-- One more than the largest `int`. -/
def intMax : Nat := 2 ^ 31

/-! ## Writing -/

/-- `marshall`: memory, its size and the write position. What has not been
written is whatever the memory held. -/
structure Marshall where
  buf : Nat → Byte
  capa : Nat
  ind : Nat

/-- `marshall::marshall`. -/
def Marshall.new (memory : Nat → Byte) : Marshall := ⟨memory, defaultRpcSz, rpcHeaderSz⟩

def patch (f : Nat → Byte) (i : Nat) (bytes : List Byte) : Nat → Byte :=
  fun k => if i ≤ k then bytes.getD (k - i) (f k) else f k

/-- `realloc` to the new capacity, which must be an `int`. -/
def Marshall.realloc (m : Marshall) (capa : Nat) : Option Marshall :=
  if capa < intMax then some { m with capa := capa } else none

def Marshall.rawbyte (x : Byte) (m : Marshall) : Option Marshall :=
  (if m.capa ≤ m.ind then m.realloc (m.capa * 2) else some m).map fun m =>
    { m with buf := patch m.buf m.ind [x], ind := m.ind + 1 }

/-- `marshall::rawbytes`; the position behind the bytes must be an `int`. -/
def Marshall.rawbytes (s : List Byte) (m : Marshall) : Option Marshall :=
  if m.ind + s.length < intMax then
    (if m.capa < m.ind + s.length then
      m.realloc (if s.length < m.capa then 2 * m.capa else m.capa + s.length)
    else some m).map fun m =>
      { m with buf := patch m.buf m.ind s, ind := m.ind + s.length }
  else none

/-- `marshall::take_buf`: what has been written, the header area included. -/
def Marshall.takeBuf (m : Marshall) : List Byte := (List.range m.ind).map m.buf

def Marshall.str (m : Marshall) : List Byte := m.takeBuf.drop rpcHeaderSz

abbrev Put := Marshall → Option Marshall

def Put.andThen (p q : Put) : Put := fun m => (p m).bind q

def putEach : List Byte → Put
  | [] => some
  | x :: xs => Put.andThen (Marshall.rawbyte x) (putEach xs)

def low {w : Nat} (x : BitVec w) : Byte := x.setWidth 8

def bytes16 (x : BitVec 16) : List Byte := [low ((x >>> 8) &&& 0xff), low (x &&& 0xff)]

def bytes32 (x : BitVec 32) : List Byte :=
  [low ((x >>> 24) &&& 0xff), low ((x >>> 16) &&& 0xff), low ((x >>> 8) &&& 0xff), low (x &&& 0xff)]

def putBool (x : Bool) : Put := Marshall.rawbyte (if x then 1 else 0)

def putUchar (x : BitVec 8) : Put := Marshall.rawbyte x

def putChar (x : BitVec 8) : Put := putUchar x

def putUshort (x : BitVec 16) : Put := putEach (bytes16 x)

def putShort (x : BitVec 16) : Put := putUshort x

def putUint (x : BitVec 32) : Put := putEach (bytes32 x)

def putInt (x : BitVec 32) : Put := putUint x

def putUll (x : BitVec 64) : Put :=
  Put.andThen (putUint ((x >>> 32).setWidth 32)) (putUint (x.setWidth 32))

def putString (s : List Byte) : Put :=
  Put.andThen (putUint (BitVec.ofNat 32 s.length)) (Marshall.rawbytes s)

/-! ## Reading -/

abbrev Unmarshall := Input Byte

abbrev Get (α : Type) := Decoder Byte α

def Unmarshall.ofBuf (b : List Byte) : Unmarshall := ⟨b, 0, true⟩

/-- `unmarshall::unmarshall(const std::string &)`, `take_content`: the header
area is left as the memory was. -/
def Unmarshall.ofContent (memory : Nat → Byte) (s : List Byte) : Unmarshall :=
  ⟨(List.range rpcHeaderSz).map memory ++ s, rpcHeaderSz, true⟩

def Unmarshall.okdone (u : Unmarshall) : Bool := u.ok && u.ind == u.buf.length

/-- `unmarshall::rawbyte`: a `char`, converted to `unsigned int`. -/
def getRawbyte : Get (BitVec 32) := fun u =>
  if u.buf.length ≤ u.ind then some (0, { u with ok := false })
  else some ((u.buf.getD u.ind 0).signExtend 32, { u with ind := u.ind + 1 })

/-- `unmarshall::rawbytes`: the bound is compared modulo 2³²; `none` when the
bytes read are not all in the buffer. -/
def getRawbytes (n : BitVec 32) : Get (List Byte) := fun u =>
  if u.buf.length < (u.ind + n.toNat) % 2 ^ 32 then some ([], { u with ok := false })
  else if u.ind + n.toNat ≤ u.buf.length then
    some ((u.buf.drop u.ind).take n.toNat, { u with ind := u.ind + n.toNat })
  else none

def getOk : Get Bool := fun u => some (u.ok, u)

def seek (i : Nat) : Get Unit := fun u => some ((), { u with ind := i })

/-! ## Headers -/

structure ReqHeader where
  xid : BitVec 32
  proc : BitVec 32
  cltNonce : BitVec 32
  srvNonce : BitVec 32
  xidRep : BitVec 32
  deriving DecidableEq, Repr

structure ReplyHeader where
  xid : BitVec 32
  ret : BitVec 32
  deriving DecidableEq, Repr

def pack (x : BitVec 32) : Put := putEach (bytes32 x)

def packAll : List (BitVec 32) → Put
  | [] => some
  | x :: xs => Put.andThen (pack x) (packAll xs)

/-- The fields are packed behind the size of the packet, and the write
position is put back. -/
def packHeader (fields : List (BitVec 32)) (m : Marshall) : Option Marshall :=
  (packAll fields { m with ind := rpcSzSz }).map fun m' => { m' with ind := m.ind }

def ReqHeader.fields (h : ReqHeader) : List (BitVec 32) :=
  [h.xid, h.proc, h.cltNonce, h.srvNonce, h.xidRep]

def ReplyHeader.fields (h : ReplyHeader) : List (BitVec 32) := [h.xid, h.ret]

def packReqHeader (h : ReqHeader) : Put := packHeader h.fields

def packReplyHeader (h : ReplyHeader) : Put := packHeader h.fields

/-! ## The operators that read

They are written over any `Source` of bytes. `inputSource` is the buffer;
`Yfs.Wire.Bounds` has another one. -/

/-- What the operators need of `unmarshall`. -/
structure Source (m : Type → Type) where
  rawbyte : m (BitVec 32)
  rawbytes : BitVec 32 → m (List Byte)
  ok : m Bool
  seek : Nat → m Unit

namespace Source

variable {m : Type → Type} [Monad m] (src : Source m)

def bool : m Bool := do
  let a ← src.rawbyte
  pure (a != 0)

/-- `operator>>(unsigned char)` and `operator>>(char)`. -/
def char : m (BitVec 8) := do
  let a ← src.rawbyte
  pure (low a)

/-- `operator>>(unsigned short)` and `operator>>(short)`, which differ in how
the first half is promoted. -/
def short (promote : BitVec 16 → BitVec 32) : m (BitVec 16) := do
  let a ← src.rawbyte
  let x : BitVec 16 := ((a &&& 0xff) <<< 8).setWidth 16
  let b ← src.rawbyte
  pure ((promote x ||| (b &&& 0xff)).setWidth 16)

def uint : m (BitVec 32) := do
  let a ← src.rawbyte
  let b ← src.rawbyte
  let c ← src.rawbyte
  let d ← src.rawbyte
  pure ((((a &&& 0xff) <<< 24 ||| (b &&& 0xff) <<< 16) ||| (c &&& 0xff) <<< 8) ||| (d &&& 0xff))

def ull : m (BitVec 64) := do
  let h ← src.uint
  let l ← src.uint
  pure (l.setWidth 64 ||| h.setWidth 64 <<< 32)

/-- `operator>>(std::string &)`, into an empty string. -/
def string : m (List Byte) := do
  let sz ← src.uint
  let ok ← src.ok
  if ok then src.rawbytes sz else pure []

def unpackReqFields : m ReqHeader := do
  let xid ← src.uint
  let proc ← src.uint
  let cltNonce ← src.uint
  let srvNonce ← src.uint
  let xidRep ← src.uint
  pure ⟨xid, proc, cltNonce, srvNonce, xidRep⟩

def unpackReplyFields : m ReplyHeader := do
  let xid ← src.uint
  let ret ← src.uint
  pure ⟨xid, ret⟩

/-- The fields are behind the size of the packet, the content behind the
header area. -/
def unpackHeader {α : Type} (fields : m α) : m α := do
  src.seek rpcSzSz
  let h ← fields
  src.seek rpcHeaderSz
  pure h

end Source

def inputSource : Source (StateT Unmarshall Option) := ⟨getRawbyte, getRawbytes, getOk, seek⟩

def getBool : Get Bool := inputSource.bool

def getUchar : Get (BitVec 8) := inputSource.char

def getChar : Get (BitVec 8) := inputSource.char

def getUshort : Get (BitVec 16) := inputSource.short (BitVec.setWidth 32)

def getShort : Get (BitVec 16) := inputSource.short (BitVec.signExtend 32)

def getUint : Get (BitVec 32) := inputSource.uint

def getInt : Get (BitVec 32) := getUint

def getUll : Get (BitVec 64) := inputSource.ull

def getString : Get (List Byte) := inputSource.string

def unpackReqFields : Get ReqHeader := inputSource.unpackReqFields

def unpackReplyFields : Get ReplyHeader := inputSource.unpackReplyFields

def unpackReqHeader : Get ReqHeader := inputSource.unpackHeader unpackReqFields

def unpackReplyHeader : Get ReplyHeader := inputSource.unpackHeader unpackReplyFields

/-! ## The buffer as a function -/

@[simp] theorem patch_nil (f : Nat → Byte) (i : Nat) : patch f i [] = f := by
  funext k
  simp [patch]

theorem patch_append (f : Nat → Byte) (i : Nat) (a b : List Byte) :
    patch (patch f i a) (i + a.length) b = patch f i (a ++ b) := by
  funext k
  unfold patch
  by_cases hi : i ≤ k
  · by_cases ha : i + a.length ≤ k
    · have hge : a.length ≤ k - i := by omega
      simp only [hi, ha, if_true, List.getD_append_right _ _ _ _ hge]
      rw [List.getD_eq_default _ _ hge, Nat.sub_sub]
    · have hlt : k - i < a.length := by omega
      simp only [hi, ha, if_true, if_false, List.getD_append _ _ _ _ hlt]
  · have ha : ¬ i + a.length ≤ k := by omega
    simp only [hi, ha, if_false]

/-- A patch seen from another origin. -/
theorem patch_shift (f : Nat → Byte) (c i : Nat) (bytes : List Byte) :
    (fun j => patch f (c + i) bytes (c + j)) = patch (fun j => f (c + j)) i bytes := by
  funext j
  simp [patch, Nat.add_sub_add_left]

/-- What is read from a patched function: the part before, the bytes, and
the part after. -/
theorem map_range_patch (f : Nat → Byte) (i : Nat) (bytes : List Byte) (k : Nat) :
    (List.range (i + (bytes.length + k))).map (patch f i bytes) =
      (List.range i).map f ++
        (bytes ++ (List.range k).map fun j => f (i + (bytes.length + j))) := by
  rw [List.range_add, List.map_append, List.map_map, List.range_add, List.map_append, List.map_map]
  congr 1
  · refine List.map_congr_left fun j hj => ?_
    have hlt : ¬ i ≤ j := by simpa using hj
    simp [patch, hlt]
  · congr 1
    · refine List.ext_getElem (by simp) fun j hj _ => ?_
      simp only [List.length_map, List.length_range] at hj
      simp [patch, hj]
    · refine List.map_congr_left fun j _ => ?_
      simp [patch]

/-! ## Writers -/

structure Marshall.Ready (m : Marshall) : Prop where
  room : m.ind ≤ m.capa
  grown : defaultRpcSz ≤ m.capa
  isInt : m.capa < intMax

theorem Marshall.ready_new (memory : Nat → Byte) : (Marshall.new memory).Ready :=
  ⟨show 24 ≤ 1024 by decide, le_rfl, show 1024 < 2 ^ 31 by decide⟩

def maxBuf : Nat := 2 ^ 30

/-- `m'` is `m` with `bytes` appended. -/
structure Appended (m m' : Marshall) (bytes : List Byte) : Prop where
  ready : m'.Ready
  ind : m'.ind = m.ind + bytes.length
  buf : m'.buf = patch m.buf m.ind bytes

/-- The writer appends `bytes` or nothing comes of it; and up to `maxBuf` it
does append them. -/
structure Writes (p : Put) (bytes : List Byte) : Prop where
  only : ∀ m m', m.Ready → p m = some m' → Appended m m' bytes
  total : ∀ m, m.Ready → m.ind + bytes.length ≤ maxBuf → ∃ m', p m = some m'

theorem Writes.nil : Writes some [] := by
  constructor
  · intro m m' hm h
    cases h
    exact ⟨hm, rfl, (patch_nil _ _).symm⟩
  · intro m _ _
    exact ⟨m, rfl⟩

theorem Writes.andThen {p q : Put} {a b : List Byte} (hp : Writes p a) (hq : Writes q b) :
    Writes (Put.andThen p q) (a ++ b) := by
  constructor
  · intro m m₂ hm h
    obtain ⟨m₁, h₁, h₂⟩ := Option.bind_eq_some_iff.mp h
    have ha := hp.only m m₁ hm h₁
    have hb := hq.only m₁ m₂ ha.ready h₂
    refine ⟨hb.ready, ?_, ?_⟩
    · rw [hb.ind, ha.ind, List.length_append, Nat.add_assoc]
    · rw [hb.buf, ha.buf, ha.ind, patch_append]
  · intro m hm hsize
    rw [List.length_append] at hsize
    obtain ⟨m₁, h₁⟩ := hp.total m hm (by omega)
    have ha := hp.only m m₁ hm h₁
    obtain ⟨m₂, h₂⟩ := hq.total m₁ ha.ready (by rw [ha.ind]; omega)
    exact ⟨m₂, Option.bind_eq_some_iff.mpr ⟨m₁, h₁, h₂⟩⟩

theorem realloc_some {m m' : Marshall} {capa : Nat} (h : m.realloc capa = some m') :
    capa < intMax ∧ m' = { m with capa := capa } := by
  unfold Marshall.realloc at h
  split at h
  · rename_i hint
    exact ⟨hint, (Option.some.inj h).symm⟩
  · cases h

theorem writes_rawbyte (x : Byte) : Writes (Marshall.rawbyte x) [x] := by
  constructor
  · intro m m' hm h
    obtain ⟨hroom, hgrown, hint⟩ := hm
    obtain ⟨m₀, h₀, rfl⟩ := Option.map_eq_some_iff.mp h
    simp only [defaultRpcSz] at hgrown
    split at h₀
    · rename_i hfull
      obtain ⟨hcapa, rfl⟩ := realloc_some h₀
      refine ⟨⟨?_, ?_, hcapa⟩, rfl, rfl⟩
      · show m.ind + 1 ≤ m.capa * 2
        omega
      · show 1024 ≤ m.capa * 2
        omega
    · rename_i hfull
      cases h₀
      exact ⟨⟨Nat.lt_of_not_le hfull, hgrown, hint⟩, rfl, rfl⟩
  · intro m hm hsize
    simp only [List.length_singleton, maxBuf] at hsize
    unfold Marshall.rawbyte
    split
    · have hcapa : m.capa * 2 < intMax := by
        simp only [intMax]
        omega
      exact ⟨_, by rw [Marshall.realloc, if_pos hcapa]; rfl⟩
    · exact ⟨_, rfl⟩

theorem writes_rawbytes (s : List Byte) : Writes (Marshall.rawbytes s) s := by
  constructor
  · intro m m' hm h
    obtain ⟨hroom, hgrown, hint⟩ := hm
    simp only [defaultRpcSz] at hgrown
    unfold Marshall.rawbytes at h
    split at h
    · obtain ⟨m₀, h₀, rfl⟩ := Option.map_eq_some_iff.mp h
      split at h₀
      · rename_i hfull
        obtain ⟨hcapa, rfl⟩ := realloc_some h₀
        refine ⟨⟨?_, ?_, hcapa⟩, rfl, rfl⟩
        · show m.ind + s.length ≤ if s.length < m.capa then 2 * m.capa else m.capa + s.length
          split <;> omega
        · show 1024 ≤ if s.length < m.capa then 2 * m.capa else m.capa + s.length
          split <;> omega
      · rename_i hfull
        cases h₀
        exact ⟨⟨Nat.le_of_not_lt hfull, hgrown, hint⟩, rfl, rfl⟩
    · cases h
  · intro m hm hsize
    simp only [maxBuf] at hsize
    have hind : m.ind + s.length < intMax := by
      simp only [intMax]
      omega
    rw [Marshall.rawbytes, if_pos hind]
    split
    · have hcapa : (if s.length < m.capa then 2 * m.capa else m.capa + s.length) < intMax := by
        simp only [intMax]
        split <;> omega
      exact ⟨_, by rw [Marshall.realloc, if_pos hcapa]; rfl⟩
    · exact ⟨_, rfl⟩

theorem writes_putEach (bytes : List Byte) : Writes (putEach bytes) bytes := by
  induction bytes with
  | nil => exact Writes.nil
  | cons x bytes ih => exact (writes_rawbyte x).andThen ih

theorem writes_packAll (fields : List (BitVec 32)) :
    Writes (packAll fields) (fields.flatMap bytes32) := by
  induction fields with
  | nil => exact Writes.nil
  | cons x fields ih => exact (writes_putEach (bytes32 x)).andThen ih

/-- What a writer leaves behind in a new buffer is its bytes. -/
theorem Writes.str {p : Put} {bytes : List Byte} (hp : Writes p bytes) {memory : Nat → Byte}
    {m : Marshall} (h : p (Marshall.new memory) = some m) :
    m.str = bytes ∧ rpcHeaderSz + bytes.length < intMax := by
  have ha := hp.only _ m (Marshall.ready_new memory) h
  have hind : m.ind = rpcHeaderSz + (bytes.length + 0) := ha.ind
  have hbuf : m.buf = patch memory rpcHeaderSz bytes := ha.buf
  constructor
  · rw [Marshall.str, Marshall.takeBuf, hind, hbuf, map_range_patch]
    have harea : ((List.range rpcHeaderSz).map memory).length = rpcHeaderSz := by simp
    rw [List.drop_append_of_le_length harea.ge, List.drop_of_length_le harea.le]
    simp
  · have hroom := ha.ready.room.trans_lt ha.ready.isInt
    rwa [hind] at hroom

end Yfs.Wire
