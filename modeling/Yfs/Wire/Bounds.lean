/-
Yfs.Wire.Bounds — which bytes of memory `unmarshall` looks at when it reads
arbitrary input (rpc/rpc.cc, rpc/marshall.h).

The readers of `Yfs.Wire.Types` are run here on another source than the
buffer: on memory, with a record of every access (`Reading`). Memory does
not end where the buffer does.

`rawbytes` compares `_ind + n` with `_sz` in 32-bit arithmetic. A length
prefix that makes the sum wrap passes the check, and the string is then
taken from beyond the buffer. That is the only way out of the buffer:
`reads_in_bounds_iff`.
-/
import Yfs.Wire.Types

namespace Yfs.Wire

open Yfs.Decode

/-! ## Memory -/

/-- A string that has been taken: where it began, how long its prefix says it
is, and the bytes. -/
structure Taken where
  pos : Nat
  n : Nat
  str : List Byte

/-- `unmarshall` over the memory from `_buf` on. The rest is history: the
stretches of memory that were read, as position and length; the length
prefixes that came to `rawbytes`, with the position behind them; the strings
it returned. -/
structure Reading where
  mem : Nat → Byte
  sz : Fin intMax
  ind : Nat
  ok : Bool
  touched : List (Nat × Nat)
  prefixes : List (Nat × Nat)
  strings : List Taken

namespace Reading

/-- `unmarshall` with a buffer of `sz` bytes, before anything is read. A new
one is at position 0, one made from a string behind the header area. -/
def new (mem : Nat → Byte) (sz : Fin intMax) (ind : Nat) : Reading :=
  ⟨mem, sz, ind, true, [], [], []⟩

def rawbyte (r : Reading) : BitVec 32 × Reading :=
  if r.sz.val ≤ r.ind then (0, { r with ok := false })
  else ((r.mem r.ind).signExtend 32,
    { r with ind := r.ind + 1, touched := (r.ind, 1) :: r.touched })

/-- `unmarshall::rawbytes`; `_ind` is an `int` again after the addition. -/
def rawbytes (n : BitVec 32) (r : Reading) : List Byte × Reading :=
  let r := { r with prefixes := (r.ind, n.toNat) :: r.prefixes }
  if r.sz.val < (r.ind + n.toNat) % 2 ^ 32 then ([], { r with ok := false })
  else
    let str := (List.range n.toNat).map fun j => r.mem (r.ind + j)
    (str, { r with
      ind := (r.ind + n.toNat) % 2 ^ 32
      touched := (r.ind, n.toNat) :: r.touched
      strings := ⟨r.ind, n.toNat, str⟩ :: r.strings })

def takeIn (r : Reading) : Reading :=
  { r with ind := rpcHeaderSz, ok := decide (rpcHeaderSz ≤ r.sz) }

def source : Source (StateM Reading) where
  rawbyte := rawbyte
  rawbytes := rawbytes
  ok := fun r => (r.ok, r)
  seek := fun i r => ((), { r with ind := i })

/-- No byte at or behind `_sz` was read. -/
def InBounds (r : Reading) : Prop := ∀ p ∈ r.touched, ∀ i, p.1 ≤ i → i < p.1 + p.2 → i < r.sz

/-- Every string is the bytes behind its prefix, and ends in the buffer. -/
def Exact (r : Reading) : Prop := ∀ t ∈ r.strings,
  t.pos + t.n ≤ r.sz ∧ t.str = (List.range t.n).map fun j => r.mem (t.pos + j)

/-- No length prefix makes the sum with its position wrap. -/
def NoWrap (r : Reading) : Prop := ∀ p ∈ r.prefixes, p.1 + p.2 < 2 ^ 32

instance (r : Reading) : Decidable r.NoWrap := List.decidableBAll _ _

end Reading

/-- One use of `unmarshall`. -/
inductive Op where
  | read (t : Ty)
  | reqHeader
  | replyHeader
  | takeIn

def Op.run : Op → Reading → Reading
  | .read t, r => (t.read Reading.source r).2
  | .reqHeader, r => (Reading.source.unpackHeader Reading.source.unpackReqFields r).2
  | .replyHeader, r => (Reading.source.unpackHeader Reading.source.unpackReplyFields r).2
  | .takeIn, r => r.takeIn

/-! ## Every reader keeps to the prefixes -/

/-- What is true of `unmarshall` all the time: it has stayed in its buffer as
long as no prefix has wrapped. -/
def Reading.Honest (r : Reading) : Prop := r.InBounds ∧ r.Exact ↔ r.NoWrap

def Keeps {α : Type} (f : StateM Reading α) : Prop := ∀ r, r.Honest → (f r).2.Honest

theorem Keeps.pure {α : Type} (x : α) : Keeps (pure x : StateM Reading α) := fun _ h => h

theorem Keeps.bind {α β : Type} {f : StateM Reading α} {k : α → StateM Reading β} (hf : Keeps f)
    (hk : ∀ x, Keeps (k x)) : Keeps (f >>= k) := fun r h => hk (f r).1 (f r).2 (hf r h)

theorem Keeps.iterate {σ : Type} {f : σ → StateM Reading σ} (hf : ∀ acc, Keeps (f acc)) (n : Nat)
    (acc : σ) : Keeps (iterate f n acc) := by
  induction n generalizing acc with
  | zero => exact Keeps.pure acc
  | succ n ih => exact (hf acc).bind ih

theorem keeps_rawbyte : Keeps Reading.source.rawbyte := by
  intro r h
  show (Reading.rawbyte r).2.Honest
  unfold Reading.rawbyte
  split
  · exact h
  · rename_i hlt
    -- one more byte, and it is in the buffer
    have hin : Reading.InBounds { r with ind := r.ind + 1, touched := (r.ind, 1) :: r.touched } ↔
        r.InBounds := by
      simp only [Reading.InBounds, List.mem_cons, forall_eq_or_imp, and_iff_right_iff_imp]
      intro _ i h₁ h₂
      omega
    exact (and_congr_left' hin).trans h

/-- A number that has been read whole ends in the buffer. -/
theorem ind_le_of_rawbyte {r : Reading} (h : (Reading.rawbyte r).2.ok = true) :
    (Reading.rawbyte r).2.ind ≤ (Reading.rawbyte r).2.sz := by
  unfold Reading.rawbyte at h ⊢
  split
  · rename_i hle
    simp [hle] at h
  · rename_i hlt
    exact Nat.lt_of_not_le hlt

theorem bind_apply {α β : Type} (f : StateM Reading α) (k : α → StateM Reading β) (r : Reading) :
    (f >>= k) r = k (f r).1 (f r).2 := rfl

theorem ind_le_of_uint (r : Reading) (h : (Reading.source.uint r).2.ok = true) :
    (Reading.source.uint r).2.ind ≤ (Reading.source.uint r).2.sz := by
  simp only [Source.uint, bind_apply] at h ⊢
  exact ind_le_of_rawbyte h

theorem keeps_uint : Keeps Reading.source.uint :=
  keeps_rawbyte.bind fun _ => keeps_rawbyte.bind fun _ => keeps_rawbyte.bind fun _ =>
    keeps_rawbyte.bind fun _ => Keeps.pure _

theorem keeps_short (promote : BitVec 16 → BitVec 32) : Keeps (Reading.source.short promote) :=
  keeps_rawbyte.bind fun _ => keeps_rawbyte.bind fun _ => Keeps.pure _

/-- The check of `rawbytes`, from a position in the buffer: without a wrap it
is the check that was meant, with one it lets everything through. -/
theorem honest_rawbytes {r : Reading} (h : r.Honest) (hind : r.ind ≤ r.sz) (n : BitVec 32) :
    (r.rawbytes n).2.Honest := by
  have hsz : r.sz.val < 2 ^ 31 := r.sz.isLt
  have hn : n.toNat < 2 ^ 32 := n.isLt
  unfold Reading.rawbytes
  dsimp only
  by_cases hwrap : r.ind + n.toNat < 2 ^ 32
  · have hnowrap : Reading.NoWrap { r with prefixes := (r.ind, n.toNat) :: r.prefixes } ↔
        r.NoWrap := by
      simp only [Reading.NoWrap, List.mem_cons, forall_eq_or_imp, and_iff_right_iff_imp]
      exact fun _ => hwrap
    rw [Nat.mod_eq_of_lt hwrap]
    split
    · exact Iff.trans h hnowrap.symm
    · rename_i hfit
      have hfit' : r.ind + n.toNat ≤ r.sz := Nat.le_of_not_lt hfit
      refine Iff.trans (and_congr ?_ ?_) (Iff.trans h hnowrap.symm)
      · simp only [Reading.InBounds, List.mem_cons, forall_eq_or_imp, and_iff_right_iff_imp]
        intro _ i _ hi
        omega
      · simp only [Reading.Exact, List.mem_cons, forall_eq_or_imp, and_iff_right_iff_imp]
        exact fun _ => ⟨hfit', trivial⟩
  · have hmod : (r.ind + n.toNat) % 2 ^ 32 = r.ind + n.toNat - 2 ^ 32 := by
      rw [Nat.mod_eq_sub_mod (by omega), Nat.mod_eq_of_lt (by omega)]
    rw [if_neg (by rw [hmod]; omega)]
    -- the byte at `_sz` is among those taken
    constructor
    · rintro ⟨hin, _⟩
      have hbeyond := hin (r.ind, n.toNat) List.mem_cons_self r.sz hind
        (show r.sz.val < r.ind + n.toNat by omega)
      exact absurd hbeyond (lt_irrefl _)
    · intro hno
      exact absurd (hno (r.ind, n.toNat) List.mem_cons_self) hwrap

theorem keeps_string : Keeps Reading.source.string := by
  intro r h
  have hnum := keeps_uint r h
  rw [Source.string, bind_apply, bind_apply]
  generalize hread : Reading.source.uint r = num at hnum ⊢
  show (((if num.2.ok = true then Reading.rawbytes num.1 else pure []) : StateM Reading _)
    num.2).2.Honest
  split
  · rename_i hok
    rw [← hread] at hok hnum ⊢
    exact honest_rawbytes hnum (ind_le_of_uint r hok) _
  · exact hnum

/-- **Every type.** -/
theorem keeps_read (t : Ty) : Keeps (t.read Reading.source) := by
  induction t with
  | bool | char | uchar => exact keeps_rawbyte.bind fun _ => Keeps.pure _
  | short | ushort => exact keeps_short _
  | int => exact keeps_uint
  | uint => exact keeps_uint
  | ull => exact keeps_uint.bind fun _ => keeps_uint.bind fun _ => Keeps.pure _
  | string => exact keeps_string
  | vec t ih =>
    exact keeps_uint.bind fun n => Keeps.iterate (fun v => ih.bind fun _ => Keeps.pure _) _ _
  | map k v ihk ihv =>
    exact keeps_uint.bind fun n =>
      Keeps.iterate (fun d => ihk.bind fun _ => ihv.bind fun _ => Keeps.pure _) _ _
  | pair a b iha ihb => exact iha.bind fun _ => ihb.bind fun _ => Keeps.pure _

theorem keeps_header {α : Type} {fields : StateM Reading α} (h : Keeps fields) :
    Keeps (Reading.source.unpackHeader fields) := by
  have hseek : ∀ i, Keeps (Reading.source.seek i) := fun _ _ h => h
  exact (hseek _).bind fun _ => h.bind fun _ => (hseek _).bind fun _ => Keeps.pure _

theorem keeps_reqFields : Keeps Reading.source.unpackReqFields :=
  keeps_uint.bind fun _ => keeps_uint.bind fun _ => keeps_uint.bind fun _ =>
    keeps_uint.bind fun _ => keeps_uint.bind fun _ => Keeps.pure _

theorem keeps_replyFields : Keeps Reading.source.unpackReplyFields :=
  keeps_uint.bind fun _ => keeps_uint.bind fun _ => Keeps.pure _

theorem honest_run (op : Op) {r : Reading} (h : r.Honest) : (op.run r).Honest := by
  cases op with
  | read t => exact keeps_read t r h
  | reqHeader => exact keeps_header keeps_reqFields r h
  | replyHeader => exact keeps_header keeps_replyFields r h
  | takeIn => exact h

/-- **Reading arbitrary bytes.** Whatever is in memory and whatever is read,
no byte behind the buffer is looked at and every string is the bytes behind
its prefix, exactly as long as no prefix wraps. -/
theorem reads_in_bounds_iff (mem : Nat → Byte) (sz : Fin intMax) (ind : Nat) (ops : List Op) :
    (ops.foldl (fun r op => op.run r) (Reading.new mem sz ind)).InBounds ∧
    (ops.foldl (fun r op => op.run r) (Reading.new mem sz ind)).Exact ↔
      (ops.foldl (fun r op => op.run r) (Reading.new mem sz ind)).NoWrap := by
  have hnew : (Reading.new mem sz ind).Honest :=
    iff_of_true ⟨List.forall_mem_nil _, List.forall_mem_nil _⟩ (List.forall_mem_nil _)
  show (ops.foldl (fun r op => op.run r) (Reading.new mem sz ind)).Honest
  generalize Reading.new mem sz ind = r at hnew
  induction ops generalizing r with
  | nil => exact hnew
  | cons op ops ih => exact ih _ (honest_run op hnew)

def longPrefix : List Byte := [0xff, 0xff, 0xff, 0xf0]

/-- **The buffer is left**: the sum of position and length wraps to 12. -/
theorem long_prefix_out_of_bounds :
    ¬ ∀ (mem : Nat → Byte) (sz : Fin intMax) (ind : Nat) (ops : List Op),
      (ops.foldl (fun r op => op.run r) (Reading.new mem sz ind)).InBounds ∧
      (ops.foldl (fun r op => op.run r) (Reading.new mem sz ind)).Exact := by
  intro hall
  have hin := (hall (patch (fun _ => 0) rpcHeaderSz longPrefix) ⟨28, by decide⟩ rpcHeaderSz
    [.read .string]).1
  have hread : ((28, 2 ^ 32 - 16) : Nat × Nat) ∈
      (Op.run (.read .string) (Reading.new (patch (fun _ => 0) rpcHeaderSz longPrefix)
        ⟨28, by decide⟩ rpcHeaderSz)).touched := by decide +kernel
  exact absurd (hin _ hread 28 (by decide) (by decide)) (by decide)

/-! ## The buffer and memory -/

def Reading.toInput (r : Reading) : Unmarshall := ⟨(List.range r.sz).map r.mem, r.ind, r.ok⟩

/-- As long as no prefix wraps, `f` reads from memory what `d` reads from the
buffer. -/
def Follows {α : Type} (d : Get α) (f : StateM Reading α) : Prop :=
  ∀ r, (f r).2.NoWrap → r.NoWrap ∧ d r.toInput = some ((f r).1, (f r).2.toInput)

theorem Follows.pure {α : Type} (x : α) : Follows (pure x) (pure x) := fun _ h => ⟨h, rfl⟩

theorem Follows.bind {α β : Type} {d : Get α} {f : StateM Reading α} {k : α → Get β}
    {k' : α → StateM Reading β} (hf : Follows d f) (hk : ∀ x, Follows (k x) (k' x)) :
    Follows (d >>= k) (f >>= k') := by
  intro r h
  obtain ⟨hmid, hrest⟩ := hk (f r).1 (f r).2 h
  obtain ⟨hr, hfirst⟩ := hf r hmid
  refine ⟨hr, ?_⟩
  show (d r.toInput).bind (fun p => k p.1 p.2) = _
  rw [hfirst]
  exact hrest

theorem Follows.iterate {σ : Type} {d : σ → Get σ} {f : σ → StateM Reading σ}
    (h : ∀ acc, Follows (d acc) (f acc)) (n : Nat) (acc : σ) :
    Follows (iterate d n acc) (iterate f n acc) := by
  induction n generalizing acc with
  | zero => exact Follows.pure acc
  | succ n ih => exact (h acc).bind ih

theorem follows_rawbyte : Follows inputSource.rawbyte Reading.source.rawbyte := by
  intro r h
  refine ⟨?_, ?_⟩
  · change (Reading.rawbyte r).2.NoWrap at h
    unfold Reading.rawbyte at h
    split at h <;> exact h
  · show getRawbyte r.toInput = some ((Reading.rawbyte r).1, (Reading.rawbyte r).2.toInput)
    unfold getRawbyte Reading.rawbyte
    simp only [Reading.toInput, List.length_map, List.length_range]
    split
    · rfl
    · rename_i hlt
      have hlt' : r.ind < r.sz := Nat.lt_of_not_le hlt
      simp [hlt']

theorem follows_rawbytes (n : BitVec 32) :
    Follows (inputSource.rawbytes n) (Reading.source.rawbytes n) := by
  intro r h
  change (r.rawbytes n).2.NoWrap at h
  have hmem : (r.ind, n.toNat) ∈ (r.rawbytes n).2.prefixes ∧
      ∀ p ∈ r.prefixes, p ∈ (r.rawbytes n).2.prefixes := by
    unfold Reading.rawbytes
    dsimp only
    split <;> exact ⟨List.mem_cons_self, fun p hp => List.mem_cons_of_mem _ hp⟩
  have hfit : r.ind + n.toNat < 2 ^ 32 := h _ hmem.1
  refine ⟨fun p hp => h p (hmem.2 p hp), ?_⟩
  show getRawbytes n r.toInput = some ((r.rawbytes n).1, (r.rawbytes n).2.toInput)
  unfold getRawbytes Reading.rawbytes
  simp only [Reading.toInput, List.length_map, List.length_range, Nat.mod_eq_of_lt hfit]
  split
  · rfl
  · rename_i hin
    rw [if_pos (Nat.le_of_not_lt hin)]
    have hbytes : (((List.range r.sz).map r.mem).drop r.ind).take n.toNat =
        (List.range n.toNat).map fun j => r.mem (r.ind + j) := by
      refine List.ext_getElem (by simp; omega) fun j h₁ h₂ => ?_
      simp
    rw [hbytes]

/-- **Memory is read as the buffer is**, for every type, until a prefix wraps. -/
theorem follows_read (t : Ty) : Follows t.get (t.read Reading.source) := by
  have huint : Follows inputSource.uint Reading.source.uint :=
    follows_rawbyte.bind fun _ => follows_rawbyte.bind fun _ => follows_rawbyte.bind fun _ =>
      follows_rawbyte.bind fun _ => Follows.pure _
  have hshort : ∀ promote, Follows (inputSource.short promote) (Reading.source.short promote) :=
    fun _ => follows_rawbyte.bind fun _ => follows_rawbyte.bind fun _ => Follows.pure _
  induction t with
  | bool | char | uchar => exact follows_rawbyte.bind fun _ => Follows.pure _
  | short => exact hshort _
  | ushort => exact hshort _
  | int => exact huint
  | uint => exact huint
  | ull => exact huint.bind fun _ => huint.bind fun _ => Follows.pure _
  | string =>
    refine huint.bind fun n => Follows.bind (fun _ h => ⟨h, rfl⟩) fun ok => ?_
    cases ok with
    | true => exact follows_rawbytes n
    | false => exact Follows.pure _
  | vec t ih =>
    exact huint.bind fun n => Follows.iterate (fun v => ih.bind fun _ => Follows.pure _) _ _
  | map k v ihk ihv =>
    exact huint.bind fun n =>
      Follows.iterate (fun d => ihk.bind fun _ => ihv.bind fun _ => Follows.pure _) _ _
  | pair a b iha ihb => exact iha.bind fun _ => ihb.bind fun _ => Follows.pure _

end Yfs.Wire
