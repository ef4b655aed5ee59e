/-
Yfs.Wire.RoundTrip — what is marshalled is unmarshalled, for every type,
every list of values and either header.

Writers and readers meet in `Ty.bytes`: `writes_put` says that the
operators `<<` write them, `decodes_get` that `>>` reads them. Both follow
the type. A message then is the size of the packet, a header, what the
header leaves of its area, and the bytes of the values; `receive` reads it,
and a message that was cut or has something behind it is not `okdone`.

The capacity of the buffer is doubled as an `int`, so all this is for
messages of at most `maxBuf` bytes; `two_strings_overflow` is a message
below `2³¹` bytes that cannot be written.
-/
import Yfs.Wire.Types

namespace Yfs.Wire

open Yfs.Decode

/-! ## One value -/

theorem writes_putList {α : Type} {put : α → Put} {bytes : α → List Byte} {xs : List α}
    (h : ∀ x ∈ xs, Writes (put x) (bytes x)) : Writes (putList put xs) (xs.flatMap bytes) := by
  induction xs with
  | nil => exact Writes.nil
  | cons x xs ih =>
    exact (h x List.mem_cons_self).andThen (ih fun y hy => h y (List.mem_cons_of_mem x hy))

/-- `<<` writes the bytes of a value. -/
theorem writes_put (t : Ty) (x : t.carrier) : Writes (t.put x) (t.bytes x) := by
  induction t with
  | bool | char | uchar => exact writes_rawbyte _
  | short | ushort | int | uint => exact writes_putEach _
  | ull => exact (writes_putEach _).andThen (writes_putEach _)
  | string => exact writes_string x
  | vec t ih => exact (writes_putEach _).andThen (writes_putList fun y _ => ih y)
  | map k v ihk ihv =>
    exact (writes_putEach _).andThen (writes_putList fun p _ => (ihk p.1).andThen (ihv p.2))
  | pair a b iha ihb => exact (iha x.1).andThen (ihb x.2)

theorem sticky_get (t : Ty) : Sticky t.get := by
  induction t with
  | bool => exact sticky_bool
  | char | uchar => exact sticky_uchar
  | short => exact sticky_short
  | ushort => exact sticky_ushort
  | int | uint => exact sticky_uint
  | ull => exact sticky_ull
  | string => exact sticky_string
  | vec t ih =>
    exact sticky_uint.bind fun n => Sticky.iterate (fun _ => ih.bind fun _ => Sticky.pure _) _ _
  | map k v ihk ihv =>
    exact sticky_uint.bind fun n =>
      Sticky.iterate (fun _ => ihk.bind fun _ => ihv.bind fun _ => Sticky.pure _) _ _
  | pair a b iha ihb => exact iha.bind fun _ => ihb.bind fun _ => Sticky.pure _

/-- No value is written as nothing. -/
theorem bytes_pos (t : Ty) (x : t.carrier) : 0 < (t.bytes x).length := by
  induction t with
  | pair a b iha _ =>
    have ha := iha x.1
    show 0 < (a.bytes x.1 ++ b.bytes x.2).length
    rw [List.length_append]
    omega
  | _ => exact Nat.succ_pos _

theorem length_le_flatMap {α : Type} {bytes : α → List Byte} (xs : List α)
    (h : ∀ x, 0 < (bytes x).length) : xs.length ≤ (xs.flatMap bytes).length := by
  induction xs with
  | nil => exact le_rfl
  | cons x xs ih =>
    have hx := h x
    simp only [List.flatMap_cons, List.length_cons, List.length_append]
    omega

theorem length_le_of_mem_flatMap {α : Type} {bytes : α → List Byte} {xs : List α} {x : α}
    (h : x ∈ xs) : (bytes x).length ≤ (xs.flatMap bytes).length := by
  obtain ⟨l, r, rfl⟩ := List.append_of_mem h
  simp only [List.flatMap_append, List.flatMap_cons, List.length_append]
  omega

/-- A number of elements that fits in what it announces. -/
theorem toNat_ofNat_length {n : Nat} (h : n < intMax) : (BitVec.ofNat 32 n).toNat = n := by
  simp only [intMax] at h
  rw [BitVec.toNat_ofNat]
  exact Nat.mod_eq_of_lt (by omega)

theorem length_le_bytesString (s : List Byte) : s.length ≤ (bytesString s).length := by
  rw [bytesString, List.length_append]
  exact Nat.le_add_left _ _

theorem foldl_concat {α : Type} (xs acc : List α) :
    xs.foldl (fun v z => v ++ [z]) acc = acc ++ xs := by
  induction xs generalizing acc with
  | nil => simp
  | cons x xs ih => simp [ih]

theorem decodes_vec {N : Nat} {t : Ty} {v : List t.carrier}
    (hv : ((Ty.vec t).bytes v).length < intMax)
    (ih : ∀ x, (t.bytes x).length < intMax → Decodes N t.get (t.bytes x) x) :
    Decodes N (Ty.vec t).get ((Ty.vec t).bytes v) v := by
  replace hv : (bytes32 (BitVec.ofNat 32 v.length) ++ v.flatMap t.bytes).length < intMax := hv
  rw [List.length_append] at hv
  have hlen : (v.flatMap t.bytes).length < intMax := by omega
  have hn : (BitVec.ofNat 32 v.length).toNat = v.length :=
    toNat_ofNat_length ((length_le_flatMap v (bytes_pos t)).trans_lt hlen)
  have hsticky : ∀ acc : List t.carrier, Sticky (t.get >>= fun z => pure (acc ++ [z])) :=
    fun _ => (sticky_get t).bind fun _ => Sticky.pure _
  have hturn : ∀ acc : List t.carrier, ∀ x ∈ v,
      Decodes N (t.get >>= fun z => pure (acc ++ [z])) (t.bytes x) (acc ++ [x]) :=
    fun acc x hx => (ih x ((length_le_of_mem_flatMap hx).trans_lt hlen)).map fun z => acc ++ [z]
  have hloop := Decodes.iterate hsticky hturn []
  rw [foldl_concat, List.nil_append, ← hn] at hloop
  exact (decodes_uint _).bind (fun n => Sticky.iterate hsticky _ _) hloop

theorem decodes_map {N : Nat} {k v : Ty} {d : OrdMap k.carrier v.carrier}
    (hd : ((Ty.map k v).bytes d).length < intMax)
    (ihk : ∀ x, (k.bytes x).length < intMax → Decodes N k.get (k.bytes x) x)
    (ihv : ∀ x, (v.bytes x).length < intMax → Decodes N v.get (v.bytes x) x) :
    Decodes N (Ty.map k v).get ((Ty.map k v).bytes d) d := by
  let enc : k.carrier × v.carrier → List Byte := fun p => k.bytes p.1 ++ v.bytes p.2
  replace hd : (bytes32 (BitVec.ofNat 32 d.entries.length) ++ d.entries.flatMap enc).length <
    intMax := hd
  rw [List.length_append] at hd
  have hlen : (d.entries.flatMap enc).length < intMax := by omega
  have henc : ∀ p, (enc p).length = (k.bytes p.1).length + (v.bytes p.2).length := fun p =>
    List.length_append
  have hpos : ∀ p, 0 < (enc p).length := by
    intro p
    have hk := bytes_pos k p.1
    rw [henc]
    omega
  have hn : (BitVec.ofNat 32 d.entries.length).toNat = d.entries.length :=
    toNat_ofNat_length ((length_le_flatMap d.entries hpos).trans_lt hlen)
  have hsticky : ∀ acc : OrdMap k.carrier v.carrier,
      Sticky (k.get >>= fun a => v.get >>= fun b => pure (acc.insert a b)) :=
    fun _ => (sticky_get k).bind fun _ => (sticky_get v).bind fun _ => Sticky.pure _
  have hturn : ∀ acc : OrdMap k.carrier v.carrier, ∀ p ∈ d.entries,
      Decodes N (k.get >>= fun a => v.get >>= fun b => pure (acc.insert a b)) (enc p)
        (acc.insert p.1 p.2) := by
    intro acc p hp
    have hle : (enc p).length ≤ (d.entries.flatMap enc).length := length_le_of_mem_flatMap hp
    rw [henc] at hle
    exact (ihk p.1 (by omega)).bind (fun _ => (sticky_get v).bind fun _ => Sticky.pure _)
      ((ihv p.2 (by omega)).map fun b => acc.insert p.1 b)
  have hloop := Decodes.iterate hsticky hturn OrdMap.empty
  rw [OrdMap.foldl_insert, ← hn] at hloop
  exact (decodes_uint _).bind (fun n => Sticky.iterate hsticky _ _) hloop

/-- `>>` reads the bytes of a value. -/
theorem decodes_get {N : Nat} (hN : N ≤ intMax) (t : Ty) (x : t.carrier)
    (hx : (t.bytes x).length < intMax) : Decodes N t.get (t.bytes x) x := by
  induction t with
  | bool => exact decodes_bool x
  | char | uchar => exact decodes_uchar x
  | short => exact decodes_short x
  | ushort => exact decodes_ushort x
  | int | uint => exact decodes_uint x
  | ull => exact decodes_ull x
  | string =>
    exact decodes_string hN ((length_le_bytesString x).trans_lt hx)
  | vec t ih => exact decodes_vec hx ih
  | map k v ihk ihv => exact decodes_map hx ihk ihv
  | pair a b iha ihb =>
    have hlen : (a.bytes x.1 ++ b.bytes x.2).length < intMax := hx
    rw [List.length_append] at hlen
    exact (iha x.1 (by omega)).bind (fun _ => (sticky_get b).bind fun _ => Sticky.pure _)
      ((ihb x.2 (by omega)).map fun y => (x.1, y))

/-! ## Lists of values -/

abbrev Value := (t : Ty) × t.carrier

/-- `m << x₁ << x₂ …`. -/
def putAll : List Value → Put := putList fun x => x.1.put x.2

def getAll : List Ty → Get (List Value)
  | [] => pure []
  | t :: ts => do
    let x ← t.get
    let xs ← getAll ts
    pure (⟨t, x⟩ :: xs)

def Value.bytes (x : Value) : List Byte := x.1.bytes x.2

def payload (xs : List Value) : List Byte := xs.flatMap Value.bytes

theorem writes_putAll (xs : List Value) : Writes (putAll xs) (payload xs) :=
  writes_putList fun x _ => writes_put x.1 x.2

theorem sticky_getAll (ts : List Ty) : Sticky (getAll ts) := by
  induction ts with
  | nil => exact Sticky.pure _
  | cons t ts ih => exact (sticky_get t).bind fun _ => ih.bind fun _ => Sticky.pure _

theorem decodes_getAll {N : Nat} (hN : N ≤ intMax) {xs : List Value}
    (hxs : (payload xs).length < intMax) :
    Decodes N (getAll (xs.map Sigma.fst)) (payload xs) xs := by
  induction xs with
  | nil => exact Decodes.pure _
  | cons x xs ih =>
    replace hxs : (x.1.bytes x.2 ++ payload xs).length < intMax := hxs
    rw [List.length_append] at hxs
    exact (decodes_get hN x.1 x.2 (by omega)).bind
      (fun _ => (sticky_getAll _).bind fun _ => Sticky.pure _)
      ((ih (by omega)).map fun ys => x :: ys)

/-! ## Messages -/

inductive Header where
  | req (h : ReqHeader)
  | reply (h : ReplyHeader)
  deriving DecidableEq, Repr

def Header.pack : Header → Put
  | .req h => packReqHeader h
  | .reply h => packReplyHeader h

inductive Kind where
  | req
  | reply
  deriving DecidableEq, Repr

def Header.kind : Header → Kind
  | .req _ => .req
  | .reply _ => .reply

def Kind.unpack : Kind → Get Header
  | .req => do
    let h ← unpackReqHeader
    pure (.req h)
  | .reply => do
    let h ← unpackReplyHeader
    pure (.reply h)

def send (memory : Nat → Byte) (h : Header) (xs : List Value) : Option Marshall :=
  Put.andThen (putAll xs) h.pack (Marshall.new memory)

def receive (k : Kind) (ts : List Ty) (message : List Byte) :
    Option ((Header × List Value) × Unmarshall) :=
  (do
    let h ← k.unpack
    let xs ← getAll ts
    pure (h, xs) : Get (Header × List Value)) (Unmarshall.ofBuf message)

def Header.fields : Header → List (BitVec 32)
  | .req h => h.fields
  | .reply h => h.fields

def Header.bytes (h : Header) : List Byte := h.fields.flatMap bytes32

theorem Header.bytes_length (h : Header) : rpcSzSz + h.bytes.length ≤ rpcHeaderSz := by
  cases h with
  | req h => exact le_of_eq rfl
  | reply h => exact show 12 ≤ 24 by decide

theorem unpack_ofBuf {N : Nat} (h : Header) {pre : List Byte} (hpre : pre.length = rpcSzSz)
    (post : List Byte) (hN : (pre ++ (h.bytes ++ post)).length < N) :
    h.kind.unpack (Unmarshall.ofBuf (pre ++ (h.bytes ++ post))) =
      some (h, ⟨pre ++ (h.bytes ++ post), rpcHeaderSz, true⟩) := by
  cases h with
  | req h =>
    have hrun : unpackReqHeader (Unmarshall.ofBuf (pre ++ ((Header.req h).bytes ++ post))) = _ :=
      unpackHeader_ofBuf (decodes_reqFields h) hpre post hN
    show (unpackReqHeader _).bind _ = _
    rw [hrun]
    rfl
  | reply h =>
    have hrun :
        unpackReplyHeader (Unmarshall.ofBuf (pre ++ ((Header.reply h).bytes ++ post))) = _ :=
      unpackHeader_ofBuf (decodes_replyFields h) hpre post hN
    show (unpackReplyHeader _).bind _ = _
    rw [hrun]
    rfl

/-- A message: the place for the size of the packet, the header, what it
leaves of the header area, and the values. -/
structure Message (h : Header) (xs : List Value) (message : List Byte) : Prop where
  split : ∃ pre gap, message = pre ++ (h.bytes ++ (gap ++ payload xs)) ∧ pre.length = rpcSzSz ∧
    h.bytes.length + gap.length = rpcHeaderSz - rpcSzSz

/-- Packing the header leaves the values where they are. -/
theorem send_message (memory : Nat → Byte) (h : Header) {xs : List Value}
    (hsize : rpcHeaderSz + (payload xs).length ≤ maxBuf) :
    ∃ m, send memory h xs = some m ∧ Message h xs m.takeBuf := by
  have hnew := Marshall.ready_new memory
  obtain ⟨m, hput⟩ := (writes_putAll xs).total _ hnew hsize
  obtain ⟨hm, hind, hbuf⟩ := (writes_putAll xs).only _ m hnew hput
  have hfit := h.bytes_length
  have hroom : rpcSzSz + h.bytes.length ≤ maxBuf := hfit.trans (by decide)
  have hready : Marshall.Ready { m with ind := rpcSzSz } :=
    ⟨(show rpcSzSz ≤ defaultRpcSz by decide).trans hm.grown, hm.grown, hm.isInt⟩
  obtain ⟨m', hpack⟩ := (writes_packAll h.fields).total _ hready hroom
  obtain ⟨-, -, hbuf'⟩ := (writes_packAll h.fields).only _ m' hready hpack
  have hsend : send memory h xs = some { m' with ind := m.ind } := by
    have hheader : h.pack m = some { m' with ind := m.ind } := by
      cases h with
      | req h =>
        show (packAll h.fields _).map _ = _
        rw [show packAll h.fields _ = _ from hpack]
        rfl
      | reply h =>
        show (packAll h.fields _).map _ = _
        rw [show packAll h.fields _ = _ from hpack]
        rfl
    rw [send, Put.andThen, hput]
    exact hheader
  -- the header area ends where the values begin
  obtain ⟨k, hk⟩ := Nat.exists_eq_add_of_le hfit
  refine ⟨_, hsend, (List.range rpcSzSz).map memory,
    (List.range k).map fun j => memory (rpcSzSz + (h.bytes.length + j)), ?_, by simp, ?_⟩
  · have hbytes : m'.buf = patch (patch memory rpcHeaderSz (payload xs)) rpcSzSz h.bytes := by
      rw [hbuf', hbuf]
      rfl
    have hlen : m.ind = rpcSzSz + (h.bytes.length + (k + ((payload xs).length + 0))) := by
      rw [hind, Nat.add_zero, ← Nat.add_assoc rpcSzSz, ← Nat.add_assoc (rpcSzSz + _), ← hk]
      rfl
    show (List.range m.ind).map m'.buf = _
    have harea : (fun j => patch memory rpcHeaderSz (payload xs) (rpcSzSz + (h.bytes.length + j))) =
        patch (fun j => memory (rpcSzSz + (h.bytes.length + j))) k (payload xs) := by
      simp only [hk, ← Nat.add_assoc]
      exact patch_shift memory (rpcSzSz + h.bytes.length) k (payload xs)
    rw [hbytes, hlen, map_range_patch, harea, map_range_patch]
    simp only [List.range_zero, List.map_nil, List.append_nil]
    rfl
  · rw [List.length_map, List.length_range]
    omega

section Received

variable {h : Header} {pre gap message : List Byte} {xs : List Value}

/-- The values begin where the header area ends. -/
theorem length_area (hpre : pre.length = rpcSzSz)
    (hgap : h.bytes.length + gap.length = rpcHeaderSz - rpcSzSz) (rest : List Byte) :
    ((pre ++ (h.bytes ++ gap)) ++ rest).length = rpcHeaderSz + rest.length := by
  have hfit := h.bytes_length
  simp only [List.length_append, hpre]
  omega

theorem Message.length (hm : Message h xs message) :
    message.length = rpcHeaderSz + (payload xs).length := by
  obtain ⟨pre, gap, rfl, hpre, hgap⟩ := hm.split
  rw [← length_area hpre hgap]
  simp

/-- Reading a message that begins as one with header `h`, when the rest of
it reads as `r`. -/
theorem receive_of_getAll {rest : List Byte} {ts : List Ty}
    {r : List Value × Unmarshall} (hpre : pre.length = rpcSzSz)
    (hgap : h.bytes.length + gap.length = rpcHeaderSz - rpcSzSz)
    (hget : getAll ts ⟨(pre ++ (h.bytes ++ gap)) ++ rest, (pre ++ (h.bytes ++ gap)).length, true⟩ =
      some r) :
    receive h.kind ts (pre ++ (h.bytes ++ (gap ++ rest))) = some ((h, r.1), r.2) := by
  have harea := length_area hpre hgap []
  rw [List.append_nil, List.length_nil, Nat.add_zero] at harea
  have hassoc : (pre ++ (h.bytes ++ gap)) ++ rest = pre ++ (h.bytes ++ (gap ++ rest)) := by simp
  rw [harea, hassoc] at hget
  show (h.kind.unpack _).bind _ = _
  rw [unpack_ofBuf h hpre (gap ++ rest) (Nat.lt_succ_self _)]
  show (getAll ts _).bind _ = _
  rw [hget]
  rfl

/-- A message, with or without something behind it, gives back the header
and the values. Only if there is nothing has everything been read. -/
theorem Message.receive_append (hm : Message h xs message)
    (extra : List Byte) (hshort : (message ++ extra).length < intMax) :
    ∃ u, receive h.kind (xs.map Sigma.fst) (message ++ extra) = some ((h, xs), u) ∧
      (u.okdone = true ↔ extra = []) := by
  have hlen := hm.length
  obtain ⟨pre, gap, rfl, hpre, hgap⟩ := hm.split
  rw [List.length_append, hlen] at hshort
  have hdec : Decodes intMax (getAll (xs.map Sigma.fst)) (payload xs) xs :=
    decodes_getAll le_rfl (by omega)
  have hget := hdec.whole (pre ++ (h.bytes ++ gap)) extra (by
    rw [length_area hpre hgap, List.length_append]
    omega)
  have hassoc : (pre ++ (h.bytes ++ (gap ++ payload xs))) ++ extra =
      pre ++ (h.bytes ++ (gap ++ (payload xs ++ extra))) := by simp
  rw [hassoc]
  refine ⟨_, receive_of_getAll hpre hgap hget, ?_⟩
  simp only [Unmarshall.okdone, List.length_append, Bool.true_and, beq_iff_eq,
    ← List.length_eq_zero_iff]
  omega

/-- A message whose values have lost their end gives back the header only. -/
theorem Message.receive_take (hm : Message h xs message)
    (hshort : message.length < intMax) {cut : Nat} (hpos : 0 < cut)
    (hle : cut ≤ (payload xs).length) :
    ∃ ys u, receive h.kind (xs.map Sigma.fst) (message.take (message.length - cut)) =
      some ((h, ys), u) ∧ u.okdone = false := by
  have hlen := hm.length
  obtain ⟨pre, gap, hbuf, hpre, hgap⟩ := hm.split
  have hdec : Decodes intMax (getAll (xs.map Sigma.fst)) (payload xs) xs :=
    decodes_getAll le_rfl (by omega)
  have htake : message.take (message.length - cut) =
      pre ++ (h.bytes ++ (gap ++ (payload xs).take ((payload xs).length - cut))) := by
    have harea := length_area hpre hgap []
    rw [List.append_nil] at harea
    have hassoc : message = (pre ++ (h.bytes ++ gap)) ++ payload xs := by
      rw [hbuf]
      simp
    have hk : message.length - cut = (pre ++ (h.bytes ++ gap)).length +
        ((payload xs).length - cut) := by
      rw [hlen, harea, List.length_nil]
      omega
    rw [hk, hassoc, List.take_length_add_append]
    simp
  have hsplit := (List.take_append_drop ((payload xs).length - cut) (payload xs)).symm
  obtain ⟨ys, j, hget⟩ := hdec.cut (pre ++ (h.bytes ++ gap)) _ _ hsplit (by
    rw [Ne, List.drop_eq_nil_iff]
    omega) (by
    rw [length_area hpre hgap, List.length_take]
    omega)
  rw [htake]
  exact ⟨ys, _, receive_of_getAll hpre hgap hget, rfl⟩

end Received

/-- **Round trip.** Whatever list of values is marshalled behind a header,
up to `maxBuf` bytes in all: it can be written, the header and the values
come back and everything has been read; and a message from whose end
something is missing, or behind whose end there is something, is not
`okdone`. -/
theorem wire_round_trip (memory : Nat → Byte) (h : Header) {xs : List Value}
    (hsize : rpcHeaderSz + (payload xs).length ≤ maxBuf) :
    ∃ m, send memory h xs = some m ∧
      (∃ u, receive h.kind (xs.map Sigma.fst) m.takeBuf = some ((h, xs), u) ∧ u.okdone = true) ∧
      (∀ cut, 0 < cut → cut ≤ (payload xs).length → ∃ ys u,
        receive h.kind (xs.map Sigma.fst) (m.takeBuf.take (m.takeBuf.length - cut)) =
          some ((h, ys), u) ∧ u.okdone = false) ∧
      ∀ extra, extra ≠ [] → (m.takeBuf ++ extra).length < intMax → ∃ u,
        receive h.kind (xs.map Sigma.fst) (m.takeBuf ++ extra) = some ((h, xs), u) ∧
          u.okdone = false := by
  obtain ⟨m, hsend, hm⟩ := send_message memory h hsize
  have hmax : maxBuf < intMax := by decide
  have hshort : m.takeBuf.length < intMax := hm.length ▸ hsize.trans_lt hmax
  refine ⟨m, hsend, ?_, ?_, ?_⟩
  · obtain ⟨u, hread, hdone⟩ := hm.receive_append [] (by rwa [List.append_nil])
    rw [List.append_nil] at hread
    exact ⟨u, hread, hdone.mpr rfl⟩
  · intro cut hpos hle
    exact hm.receive_take hshort hpos hle
  · intro extra hne hlong
    obtain ⟨u, hread, hdone⟩ := hm.receive_append extra hlong
    exact ⟨u, hread, Bool.eq_false_iff.mpr fun hok => hne (hdone.mp hok)⟩

/-- The values of `testmarshall`. -/
def testmarshall : List Value :=
  [⟨.int, (12345 : BitVec 32)⟩, ⟨.ull, (1223344455 : BitVec 64)⟩,
    ⟨.string, ([104, 97, 108, 108, 111, 46, 46, 46, 46] : List Byte)⟩]

theorem wire_round_trip_testmarshall :
    rpcHeaderSz + (payload testmarshall).length ≤ maxBuf ∧
    ∃ m, send (fun _ => 0) (.req ⟨1, 2, 3, 4, 5⟩) testmarshall = some m ∧
      ∃ u, receive .req [.int, .ull, .string] m.takeBuf =
        some ((.req ⟨1, 2, 3, 4, 5⟩, testmarshall), u) ∧ u.okdone = true := by
  have hsize : rpcHeaderSz + (payload testmarshall).length ≤ maxBuf := show 49 ≤ 2 ^ 30 by decide
  obtain ⟨m, hsend, hread, _⟩ := wire_round_trip (fun _ => 0) (.req ⟨1, 2, 3, 4, 5⟩) hsize
  exact ⟨hsize, m, hsend, hread⟩

/-! ## The capacity -/

/-- Without growth. -/
theorem putEach_of_room {bytes : List Byte} {m : Marshall} (h : m.ind + bytes.length ≤ m.capa) :
    putEach bytes m =
      some { m with buf := patch m.buf m.ind bytes, ind := m.ind + bytes.length } := by
  induction bytes generalizing m with
  | nil => simp [putEach]
  | cons x bytes ih =>
    rw [List.length_cons] at h
    have hfree : ¬ m.capa ≤ m.ind := by omega
    have hx : Marshall.rawbyte x m =
        some { m with buf := patch m.buf m.ind [x], ind := m.ind + 1 } := by
      rw [Marshall.rawbyte, if_neg hfree]
      rfl
    rw [putEach, Put.andThen, hx, Option.bind_some,
      ih (show m.ind + 1 + bytes.length ≤ m.capa by omega)]
    have happend := patch_append m.buf m.ind [x] bytes
    simp only [List.length_singleton, List.singleton_append] at happend
    simp only [List.length_cons, happend]
    congr 2
    omega

/-- A string longer than the capacity is added to it. -/
theorem rawbytes_long {s : List Byte} {m : Marshall} (hlong : m.capa ≤ s.length)
    (hfull : m.capa < m.ind + s.length) (hind : m.ind + s.length < intMax)
    (hcapa : m.capa + s.length < intMax) :
    Marshall.rawbytes s m =
      some ⟨patch m.buf m.ind s, m.capa + s.length, m.ind + s.length⟩ := by
  rw [Marshall.rawbytes, if_pos hind, if_pos hfull, if_neg (Nat.not_lt.mpr hlong),
    Marshall.realloc, if_pos hcapa]
  rfl

/-- A capacity of `2³⁰` or more is not doubled. -/
theorem rawbytes_overflow {s : List Byte} {m : Marshall} (hshort : s.length < m.capa)
    (hfull : m.capa < m.ind + s.length) (hcapa : intMax ≤ 2 * m.capa) :
    Marshall.rawbytes s m = none := by
  by_cases hind : m.ind + s.length < intMax
  · rw [Marshall.rawbytes, if_pos hind, if_pos hfull, if_pos hshort, Marshall.realloc,
      if_neg (Nat.not_lt.mpr hcapa)]
    rfl
  · rw [Marshall.rawbytes, if_neg hind]

/-- A string of `2³⁰` bytes makes the capacity `2³⁰ + 1024`, which cannot be
doubled for the next one. -/
theorem two_strings_not_written (memory : Nat → Byte) {s₁ s₂ : List Byte}
    (h₁ : s₁.length = 2 ^ 30) (h₂ : s₂.length = 1100) :
    putAll [⟨.string, s₁⟩, ⟨.string, s₂⟩] (Marshall.new memory) = none := by
  let b₁ := bytes32 (BitVec.ofNat 32 s₁.length)
  let b₂ := bytes32 (BitVec.ofNat 32 s₂.length)
  let m₁ : Marshall := ⟨patch memory 24 b₁, 1024, 28⟩
  let m₂ : Marshall := ⟨patch m₁.buf 28 s₁, 1024 + s₁.length, 28 + s₁.length⟩
  let m₃ : Marshall := { m₂ with buf := patch m₂.buf m₂.ind b₂, ind := m₂.ind + 4 }
  have hput₁ : putUint (BitVec.ofNat 32 s₁.length) (Marshall.new memory) = some m₁ :=
    putEach_of_room (show 24 + 4 ≤ 1024 by decide)
  have hbody₁ : Marshall.rawbytes s₁ m₁ = some m₂ := by
    refine rawbytes_long ?_ ?_ ?_ ?_
    · show 1024 ≤ s₁.length
      omega
    · show 1024 < 28 + s₁.length
      omega
    · show 28 + s₁.length < intMax
      rw [h₁]
      decide
    · show 1024 + s₁.length < intMax
      rw [h₁]
      decide
  have hput₂ : putUint (BitVec.ofNat 32 s₂.length) m₂ = some m₃ :=
    putEach_of_room (show 28 + s₁.length + 4 ≤ 1024 + s₁.length by omega)
  have hbody₂ : Marshall.rawbytes s₂ m₃ = none := by
    refine rawbytes_overflow ?_ ?_ ?_
    · show s₂.length < 1024 + s₁.length
      omega
    · show 1024 + s₁.length < 28 + s₁.length + 4 + s₂.length
      omega
    · show intMax ≤ 2 * (1024 + s₁.length)
      rw [h₁]
      decide
  show ((putString s₁ (Marshall.new memory)).bind fun m => (putString s₂ m).bind some) = none
  rw [putString, Put.andThen, hput₁, Option.bind_some, hbody₁, Option.bind_some, putString,
    Put.andThen, hput₂, Option.bind_some, hbody₂]
  rfl

/-- **Not up to `2³¹` bytes**: two strings of a little more than `2³⁰` bytes
together are not written at all. -/
theorem two_strings_overflow :
    ¬ ∀ (memory : Nat → Byte) (h : Header) (xs : List Value),
      rpcHeaderSz + (payload xs).length < intMax →
      ∃ m, send memory h xs = some m ∧
        ∃ u, receive h.kind (xs.map Sigma.fst) m.takeBuf = some ((h, xs), u) ∧
          u.okdone = true := by
  intro hall
  obtain ⟨s₁, h₁⟩ : ∃ s : List Byte, s.length = 2 ^ 30 :=
    ⟨List.replicate (2 ^ 30) 0, List.length_replicate⟩
  obtain ⟨s₂, h₂⟩ : ∃ s : List Byte, s.length = 1100 :=
    ⟨List.replicate 1100 0, List.length_replicate⟩
  have hsize : rpcHeaderSz + (payload [⟨.string, s₁⟩, ⟨.string, s₂⟩]).length < intMax := by
    show 24 + ((bytes32 _ ++ s₁) ++ ((bytes32 _ ++ s₂) ++ [])).length < 2 ^ 31
    simp only [List.length_append, h₁, h₂, List.length_nil]
    decide
  obtain ⟨m, hsend, _⟩ := hall (fun _ => 0) (.req ⟨1, 2, 3, 4, 5⟩) _ hsize
  rw [send, Put.andThen, two_strings_not_written _ h₁ h₂] at hsend
  cases hsend

end Yfs.Wire
