/-
Yfs.Wire.Scalars — the readers of the basic types against what the writers
put: numbers byte by byte, strings with their length, headers in front.

A byte comes out of `rawbyte` with its sign extended, so each reader masks
it; `join16`, `join32` and `join64` put a number together again from the
pieces its writer cut it into.
-/
import Yfs.Wire.Marshall

namespace Yfs.Wire

open Yfs.Decode

/-! ## Numbers from bytes -/

/-- The mask takes the sign off again. -/
theorem signExtend_and_ff (b : Byte) : b.signExtend 32 &&& 0xff = b.setWidth 32 := by
  refine BitVec.eq_of_getLsbD_eq fun i hi => ?_
  interval_cases i <;> simp [BitVec.getElem_signExtend]

theorem low_signExtend (b : Byte) : low (b.signExtend 32) = b := by
  refine BitVec.eq_of_getLsbD_eq fun i hi => ?_
  unfold low
  interval_cases i <;> simp [BitVec.getElem_signExtend]

theorem getLsbD_ff {w i : Nat} (hw : 8 ≤ w) (hi : i < 8) : (0xff : BitVec w).getLsbD i = true := by
  have hmask : Nat.testBit 255 i = true := by
    interval_cases i <;> rfl
  show (BitVec.ofNat w 255).getLsbD i = true
  rw [BitVec.getLsbD_ofNat, hmask, decide_eq_true (by omega), Bool.and_self]

/-- The bits of the byte that is cut off at `k` and put back there. -/
theorem getLsbD_piece {w : Nat} (hw : 8 ≤ w) (x : BitVec w) (k i : Nat) :
    ((low ((x >>> k) &&& 0xff)).setWidth 32 <<< k).getLsbD i =
      (decide (i < 32 ∧ k ≤ i ∧ i < k + 8) && x.getLsbD i) := by
  rw [BitVec.getLsbD_shiftLeft, BitVec.getLsbD_setWidth, low, BitVec.getLsbD_setWidth,
    BitVec.getLsbD_and, BitVec.getLsbD_ushiftRight]
  by_cases h : i < 32 ∧ k ≤ i ∧ i < k + 8
  · have h32 : i - k < 32 := by omega
    have h8 : i - k < 8 := by omega
    rw [getLsbD_ff hw h8, Nat.add_sub_cancel' h.2.1]
    simp [h, h32, h8, Nat.not_lt.mpr h.2.1]
  · by_cases hk : k ≤ i
    · have h8 : i < 32 → ¬ i - k < 8 := by omega
      by_cases h32 : i < 32
      · simp [h, h8 h32]
      · simp [h32]
    · simp [hk, Nat.lt_of_not_le hk]

/-- The same for the lowest byte, which is not shifted. -/
theorem getLsbD_piece_zero {w : Nat} (hw : 8 ≤ w) (x : BitVec w) (i : Nat) :
    ((low (x &&& 0xff)).setWidth 32).getLsbD i = (decide (i < 8) && x.getLsbD i) := by
  have hpiece := getLsbD_piece hw x 0 i
  rw [BitVec.ushiftRight_zero, BitVec.shiftLeft_zero, Nat.zero_add] at hpiece
  rw [hpiece]
  congr 1
  rw [decide_eq_decide]
  omega

theorem join16 (x : BitVec 16) :
    (((((low ((x >>> 8) &&& 0xff)).setWidth 32 <<< 8).setWidth 16).setWidth 32 |||
      (low (x &&& 0xff)).setWidth 32) : BitVec 32).setWidth 16 = x := by
  refine BitVec.eq_of_getLsbD_eq fun i hi => ?_
  simp only [BitVec.getLsbD_setWidth, BitVec.getLsbD_or, getLsbD_piece (w := 16) (by decide),
    getLsbD_piece_zero (w := 16) (by decide)]
  have h32 : i < 32 := by omega
  rcases Nat.lt_or_ge i 8 with h8 | h8
  · simp [hi, h8]
  · simp [hi, h8, h32]

theorem join16_signed (x : BitVec 16) :
    (((((low ((x >>> 8) &&& 0xff)).setWidth 32 <<< 8).setWidth 16).signExtend 32 |||
      (low (x &&& 0xff)).setWidth 32) : BitVec 32).setWidth 16 = x := by
  refine BitVec.eq_of_getLsbD_eq fun i hi => ?_
  simp only [BitVec.getLsbD_setWidth, BitVec.getLsbD_or, BitVec.getLsbD_signExtend,
    getLsbD_piece (w := 16) (by decide), getLsbD_piece_zero (w := 16) (by decide)]
  have h32 : i < 32 := by omega
  rcases Nat.lt_or_ge i 8 with h8 | h8
  · simp [hi, h8]
  · simp [hi, h8, h32]

theorem join32 (x : BitVec 32) :
    (((low ((x >>> 24) &&& 0xff)).setWidth 32 <<< 24 |||
      (low ((x >>> 16) &&& 0xff)).setWidth 32 <<< 16) |||
      (low ((x >>> 8) &&& 0xff)).setWidth 32 <<< 8) |||
      (low (x &&& 0xff)).setWidth 32 = x := by
  refine BitVec.eq_of_getLsbD_eq fun i hi => ?_
  simp only [BitVec.getLsbD_or, getLsbD_piece (w := 32) (by decide),
    getLsbD_piece_zero (w := 32) (by decide), ← Bool.and_or_distrib_right]
  rw [← Bool.decide_or, ← Bool.decide_or, ← Bool.decide_or, decide_eq_true (by omega),
    Bool.true_and]

theorem join64 (x : BitVec 64) :
    (x.setWidth 32).setWidth 64 ||| ((x >>> 32).setWidth 32).setWidth 64 <<< 32 = x := by
  refine BitVec.eq_of_getLsbD_eq fun i hi => ?_
  by_cases h : i < 32
  · simp [h, hi]
  · have hsub : i - 32 < 32 := by omega
    have hadd : 32 + (i - 32) = i := by omega
    simp [h, hi, hsub, hadd]

/-! ## Readers -/

variable {N : Nat}

theorem sticky_rawbyte : Sticky getRawbyte := by
  intro buf i
  unfold getRawbyte
  split
  · exact ⟨_, _, rfl⟩
  · exact ⟨_, _, rfl⟩

theorem decodes_rawbyte (b : Byte) : Decodes N getRawbyte [b] (b.signExtend 32) := by
  constructor
  · intro pre post _
    simp [getRawbyte]
  · intro pre p t hsplit ht _
    have hp : p = [] := by
      cases p with
      | nil => rfl
      | cons x p =>
        have hnil : [] = p ++ t := (List.cons.inj hsplit).2
        exact absurd (List.append_eq_nil_iff.mp hnil.symm).2 ht
    subst hp
    simp [getRawbyte]

theorem sticky_bool : Sticky getBool := sticky_rawbyte.bind fun _ => Sticky.pure _

theorem decodes_bool (x : Bool) : Decodes N getBool [if x then 1 else 0] x := by
  have h := (decodes_rawbyte (N := N) (if x then 1 else 0)).map fun a => a != 0
  cases x <;> exact h

theorem sticky_uchar : Sticky getUchar := sticky_rawbyte.bind fun _ => Sticky.pure _

theorem decodes_uchar (x : BitVec 8) : Decodes N getUchar [x] x := by
  have h := (decodes_rawbyte (N := N) x).map fun a => low a
  rwa [low_signExtend] at h

theorem sticky_ushort : Sticky getUshort :=
  sticky_rawbyte.bind fun _ => sticky_rawbyte.bind fun _ => Sticky.pure _

theorem decodes_ushort (x : BitVec 16) : Decodes N getUshort (bytes16 x) x := by
  have h : Decodes N getUshort (bytes16 x) _ :=
    (decodes_rawbyte (low ((x >>> 8) &&& 0xff))).bind
      (fun _ => sticky_rawbyte.bind fun _ => Sticky.pure _)
      ((decodes_rawbyte (low (x &&& 0xff))).bind (fun _ => Sticky.pure _) (Decodes.pure _))
  simp only [signExtend_and_ff] at h
  rwa [join16] at h

theorem sticky_short : Sticky getShort :=
  sticky_rawbyte.bind fun _ => sticky_rawbyte.bind fun _ => Sticky.pure _

theorem decodes_short (x : BitVec 16) : Decodes N getShort (bytes16 x) x := by
  have h : Decodes N getShort (bytes16 x) _ :=
    (decodes_rawbyte (low ((x >>> 8) &&& 0xff))).bind
      (fun _ => sticky_rawbyte.bind fun _ => Sticky.pure _)
      ((decodes_rawbyte (low (x &&& 0xff))).bind (fun _ => Sticky.pure _) (Decodes.pure _))
  simp only [signExtend_and_ff] at h
  rwa [join16_signed] at h

theorem sticky_uint : Sticky getUint :=
  sticky_rawbyte.bind fun _ => sticky_rawbyte.bind fun _ => sticky_rawbyte.bind fun _ =>
    sticky_rawbyte.bind fun _ => Sticky.pure _

theorem decodes_uint (x : BitVec 32) : Decodes N getUint (bytes32 x) x := by
  have h : Decodes N getUint (bytes32 x) _ :=
    (decodes_rawbyte (low ((x >>> 24) &&& 0xff))).bind
      (fun _ => sticky_rawbyte.bind fun _ => sticky_rawbyte.bind fun _ =>
        sticky_rawbyte.bind fun _ => Sticky.pure _)
      ((decodes_rawbyte (low ((x >>> 16) &&& 0xff))).bind
        (fun _ => sticky_rawbyte.bind fun _ => sticky_rawbyte.bind fun _ => Sticky.pure _)
        ((decodes_rawbyte (low ((x >>> 8) &&& 0xff))).bind
          (fun _ => sticky_rawbyte.bind fun _ => Sticky.pure _)
          ((decodes_rawbyte (low (x &&& 0xff))).bind (fun _ => Sticky.pure _) (Decodes.pure _))))
  simp only [signExtend_and_ff] at h
  rwa [join32] at h

theorem sticky_ull : Sticky getUll :=
  sticky_uint.bind fun _ => sticky_uint.bind fun _ => Sticky.pure _

def bytes64 (x : BitVec 64) : List Byte :=
  bytes32 ((x >>> 32).setWidth 32) ++ bytes32 (x.setWidth 32)

theorem decodes_ull (x : BitVec 64) : Decodes N getUll (bytes64 x) x := by
  have h : Decodes N getUll (bytes64 x) _ :=
    (decodes_uint ((x >>> 32).setWidth 32)).bind
      (fun _ => sticky_uint.bind fun _ => Sticky.pure _)
      ((decodes_uint (x.setWidth 32)).map fun l => _)
  rwa [join64] at h

/-! ## Strings -/

def getBody (sz : BitVec 32) : Get (List Byte) := do
  let ok ← getOk
  if ok then getRawbytes sz else pure []

theorem sticky_body (sz : BitVec 32) : Sticky (getBody sz) := fun _ i => ⟨[], i, rfl⟩

theorem sticky_string : Sticky getString := sticky_uint.bind sticky_body

def bytesString (s : List Byte) : List Byte := bytes32 (BitVec.ofNat 32 s.length) ++ s

theorem decodes_body (hN : N ≤ intMax) {s : List Byte} (hs : s.length < intMax) :
    Decodes N (getBody (BitVec.ofNat 32 s.length)) s s := by
  simp only [intMax] at hN hs
  have hn : (BitVec.ofNat 32 s.length).toNat = s.length := by
    rw [BitVec.toNat_ofNat]
    exact Nat.mod_eq_of_lt (by omega)
  constructor
  · intro pre post hlen
    show getRawbytes _ _ = _
    simp only [List.length_append] at hlen
    simp only [getRawbytes, hn, List.length_append, List.drop_left, List.take_left]
    rw [if_neg (by omega), if_pos (by omega)]
  · intro pre p t hsplit ht hlen
    refine ⟨[], pre.length, ?_⟩
    show getRawbytes _ _ = _
    have htpos : 0 < t.length := List.length_pos_iff.mpr ht
    have hslen : s.length = p.length + t.length := by rw [hsplit, List.length_append]
    rw [List.length_append] at hlen
    have hmod : (pre.length + s.length) % 2 ^ 32 = pre.length + s.length :=
      Nat.mod_eq_of_lt (by omega)
    have hbeyond : (pre ++ p).length < (pre.length + s.length) % 2 ^ 32 := by
      rw [hmod, List.length_append]
      omega
    simp only [getRawbytes, hn, if_pos hbeyond]

theorem decodes_string (hN : N ≤ intMax) {s : List Byte} (hs : s.length < intMax) :
    Decodes N getString (bytesString s) s :=
  (decodes_uint _).bind sticky_body (decodes_body hN hs)

theorem writes_string (s : List Byte) : Writes (putString s) (bytesString s) :=
  (writes_putEach _).andThen (writes_rawbytes s)

/-! ## Headers -/

theorem decodes_reqFields (h : ReqHeader) :
    Decodes N unpackReqFields (h.fields.flatMap bytes32) h := by
  have sticky4 : ∀ a b c, Sticky (getUint >>= fun d => getUint >>= fun e =>
      pure (⟨a, b, c, d, e⟩ : ReqHeader)) := fun _ _ _ =>
    sticky_uint.bind fun _ => sticky_uint.bind fun _ => Sticky.pure _
  exact (decodes_uint h.xid).bind
    (fun _ => sticky_uint.bind fun _ => sticky_uint.bind fun _ => sticky4 _ _ _)
    ((decodes_uint h.proc).bind (fun _ => sticky_uint.bind fun _ => sticky4 _ _ _)
      ((decodes_uint h.cltNonce).bind (fun _ => sticky4 _ _ _)
        ((decodes_uint h.srvNonce).bind (fun _ => sticky_uint.bind fun _ => Sticky.pure _)
          ((decodes_uint h.xidRep).bind (fun _ => Sticky.pure _) (Decodes.pure h)))))

theorem decodes_replyFields (h : ReplyHeader) :
    Decodes N unpackReplyFields (h.fields.flatMap bytes32) h :=
  (decodes_uint h.xid).bind (fun _ => sticky_uint.bind fun _ => Sticky.pure _)
    ((decodes_uint h.ret).bind (fun _ => Sticky.pure _) (Decodes.pure h))

/-- A header is found behind the size of the packet, and the content starts
behind the header area. -/
theorem unpackHeader_ofBuf {α : Type} {fields : Get α} {bytes : List Byte} {h : α}
    (hf : Decodes N fields bytes h) {pre : List Byte} (hpre : pre.length = rpcSzSz)
    (post : List Byte) (hN : (pre ++ (bytes ++ post)).length < N) :
    inputSource.unpackHeader fields (Unmarshall.ofBuf (pre ++ (bytes ++ post))) =
      some (h, ⟨pre ++ (bytes ++ post), rpcHeaderSz, true⟩) := by
  have hrun := hf.whole pre post hN
  rw [hpre] at hrun
  show (fields ⟨pre ++ (bytes ++ post), rpcSzSz, true⟩).bind _ = _
  rw [hrun]
  rfl

end Yfs.Wire
