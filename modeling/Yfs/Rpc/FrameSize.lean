/-
Yfs.Rpc.FrameSize — the length word of an incoming frame and the memory it
is used for (rpc/connection.cc: `readpdu`, `read_cb`).

The word is a signed `int` from the peer, and is only compared with MAX_PDU.
It then becomes the argument of `malloc` and, less what is there already, the
count of `read`: both are `size_t`, so both wrap modulo `2⁶⁴`.

`Frame` is `rpdu_` with the size of its block. `Frame.reads` lists the
states in which `read` is called, whatever the reads return. From a length of
5 on every read is in bounds; below that the first one is not
(`reads_inBounds_iff`), and nothing below MAX_PDU is refused.
-/
import Yfs.Rpc.Connection

namespace Yfs.Rpc.Connection

open Yfs.Wire (Byte rpcHeaderSz)

/-! ## The buffer of a frame -/

structure Frame where
  sz : Int
  solong : Int
  alloc : Nat

def Frame.asks (f : Frame) : Nat := ((f.sz - f.solong) % 2 ^ 64).toNat

inductive Length where
  | refused
  | aborted
  | accepted (f : Frame)

/-- The first half of `readpdu`; `malloc` says for which sizes there is
memory. -/
def readLength (word : BitVec 32) (malloc : Nat → Bool) : Length :=
  let sz := word.toInt
  if maxPdu < sz then .refused
  else
    let n := ((sz + 4) % 2 ^ 64).toNat
    if malloc n then .accepted ⟨sz, 4, n⟩ else .aborted

/-- The states in which `read` is called. The first read comes in the same
`readpdu` as the length; `read_cb` makes another one while `solong < sz`. -/
def Frame.reads (f : Frame) : List ReadResult → List Frame
  | [] => [f]
  | .got n :: rs =>
    -- `read` returns at most what it was asked for
    if n = 0 ∨ f.asks < n then [f]
    else if f.solong + n < f.sz then f :: Frame.reads { f with solong := f.solong + n } rs
    else [f]
  | .again :: rs => if f.solong < f.sz then f :: f.reads rs else [f]
  | .fail :: _ => [f]

/-- It is the buffer of `readSize`. -/
theorem readSize_eq {stream : List Byte} (h : 4 ≤ stream.length) :
    readSize stream Charbuf.empty (.got 4) =
      match readLength (ntohl (stream.take 4)) (fun _ => true) with
      | .refused => some (false, 4, Charbuf.empty)
      | .aborted => none
      | .accepted f => some (true, 4, ⟨some (stream.take 4), f.sz, f.solong⟩) := by
  have hno : ¬ (4 = 0 ∨ 4 < 4 ∨ stream.length < 4) := by omega
  simp only [readSize, readLength, if_neg hno]
  by_cases hbig : (maxPdu : Int) < (ntohl (stream.take 4)).toInt
  · simp [hbig]
  · simp [hbig, Charbuf.empty]

/-- And `readBody` asks for as much. -/
theorem missing_eq_asks (f : Frame) (buf : Option (List Byte)) :
    Charbuf.missing ⟨buf, f.sz, f.solong⟩ = f.asks := rfl

/-! ## Reads in bounds -/

/-- The read asks for something, for no more than is to come, and for no
more than there is room for. -/
structure Frame.InBounds (f : Frame) : Prop where
  positive : 1 ≤ f.asks
  rest : (f.asks : Int) ≤ f.sz - 4
  room : f.solong + f.asks ≤ f.alloc

structure Frame.Underway (f : Frame) : Prop where
  header : 4 ≤ f.solong
  more : f.solong < f.sz
  small : f.sz ≤ maxPdu
  alloc : (f.alloc : Int) = f.sz + 4

variable {f g : Frame}

theorem Frame.Underway.asks_eq (h : f.Underway) : (f.asks : Int) = f.sz - f.solong := by
  have hheader := h.header
  have hmore := h.more
  have hsmall : f.sz ≤ 10 * 2 ^ 20 := h.small
  rw [Frame.asks, Int.emod_eq_of_lt (by omega) (by omega)]
  omega

theorem Frame.Underway.inBounds (h : f.Underway) : f.InBounds := by
  have hasks := h.asks_eq
  have hheader := h.header
  have hmore := h.more
  have halloc := h.alloc
  exact ⟨by omega, by omega, by omega⟩

/-- Whatever the reads return, the frame stays of that kind until it is
complete or given up. -/
theorem Frame.Underway.reads (h : f.Underway) (rs : List ReadResult) (hg : g ∈ f.reads rs) :
    g.Underway := by
  induction rs generalizing f with
  | nil =>
    rw [List.mem_singleton.mp hg]
    exact h
  | cons r rs ih =>
    cases r with
    | got n =>
      simp only [Frame.reads] at hg
      split at hg
      · rw [List.mem_singleton.mp hg]
        exact h
      · split at hg
        · rename_i hmore
          have hheader := h.header
          rcases List.mem_cons.mp hg with rfl | hg
          · exact h
          · have hnext : Frame.Underway { f with solong := f.solong + n } :=
              ⟨by dsimp only; omega, hmore, h.small, h.alloc⟩
            exact ih hnext hg
        · rw [List.mem_singleton.mp hg]
          exact h
    | again =>
      simp only [Frame.reads, if_pos h.more] at hg
      rcases List.mem_cons.mp hg with rfl | hg
      · exact h
      · exact ih h hg
    | fail =>
      rw [List.mem_singleton.mp hg]
      exact h

/-- `read` is called at least once. -/
theorem Frame.mem_reads (f : Frame) (rs : List ReadResult) : f ∈ f.reads rs := by
  cases rs with
  | nil => exact List.mem_singleton_self f
  | cons r rs =>
    cases r with
    | got n =>
      simp only [Frame.reads]
      split
      · exact List.mem_singleton_self f
      · split
        · exact List.mem_cons_self
        · exact List.mem_singleton_self f
    | again =>
      simp only [Frame.reads]
      split
      · exact List.mem_cons_self
      · exact List.mem_singleton_self f
    | fail => exact List.mem_singleton_self f

/-! ## Length words -/

variable {word : BitVec 32} {malloc : Nat → Bool}

theorem accepted_cases (h : readLength word malloc = .accepted f) :
    word.toInt ≤ maxPdu ∧ f = ⟨word.toInt, 4, ((word.toInt + 4) % 2 ^ 64).toNat⟩ := by
  simp only [readLength] at h
  split at h
  · cases h
  · rename_i hsmall
    split at h
    · cases h
      exact ⟨Int.not_lt.mp hsmall, rfl⟩
    · cases h

/-- **The lengths that are safe once they are accepted**, for any sequence of
reads. -/
theorem reads_inBounds_iff (h : readLength word malloc = .accepted f) (rs : List ReadResult) :
    (4 ≤ f.alloc ∧ ∀ g ∈ f.reads rs, g.InBounds) ↔ 5 ≤ word.toInt := by
  obtain ⟨hsmall, rfl⟩ := accepted_cases h
  constructor
  · rintro ⟨-, hall⟩
    -- the first read is the one that goes wrong
    have hfirst := hall _ (Frame.mem_reads _ rs)
    have hsome := hfirst.positive
    have hrest := hfirst.rest
    dsimp only at hrest
    omega
  · intro hfive
    have hsmall' : word.toInt ≤ 10 * 2 ^ 20 := hsmall
    have halloc : ((((word.toInt + 4) % 2 ^ 64).toNat : Nat) : Int) = word.toInt + 4 := by
      rw [Int.emod_eq_of_lt (by omega) (by omega)]
      omega
    refine ⟨by dsimp only; omega, fun g hg => ?_⟩
    have hpart : Frame.Underway ⟨word.toInt, 4, ((word.toInt + 4) % 2 ^ 64).toNat⟩ :=
      ⟨le_refl _, by dsimp only; omega, hsmall, halloc⟩
    exact (hpart.reads rs hg).inBounds

/-- The reads that follow an accepted length are in bounds. -/
def SafeReads (word : BitVec 32) (malloc : Nat → Bool) (rs : List ReadResult) : Prop :=
  ∀ f, readLength word malloc = .accepted f → 4 ≤ f.alloc ∧ ∀ g ∈ f.reads rs, g.InBounds

/-- Lengths below `least` are refused. -/
def RefusesBelow (least : Int) (word : BitVec 32) (malloc : Nat → Bool) : Prop :=
  word.toInt < least → readLength word malloc = .refused

theorem refused_iff : readLength word malloc = .refused ↔ (maxPdu : Int) < word.toInt := by
  simp only [readLength]
  split
  · simp_all
  · split <;> simp_all

/-- From 5 up to MAX_PDU, whatever one takes for the least length of a frame,
exactly the lengths from there on are treated as they should. -/
theorem safe_and_refuses_iff {least : Int} (hfive : 5 ≤ least) (hmax : least ≤ maxPdu)
    (rs : List ReadResult) :
    SafeReads word malloc rs ∧ RefusesBelow least word malloc ↔ least ≤ word.toInt := by
  constructor
  · rintro ⟨-, hrefuses⟩
    by_contra hsmall
    have hbig := refused_iff.mp (hrefuses (Int.not_le.mp hsmall))
    omega
  · intro hle
    refine ⟨fun f hf => (reads_inBounds_iff hf rs).mpr (hfive.trans hle), fun hlt => ?_⟩
    exact absurd hlt (Int.not_lt.mpr hle)

/-- **Incoming frame sizes.** Reads are in bounds and shorter frames are
refused exactly for the words from the least length on: that of a packet with
its header, or, if only the reads count, 5. -/
theorem frame_sizes_safe_iff (word : BitVec 32) (malloc : Nat → Bool) (rs : List ReadResult) :
    (SafeReads word malloc rs ∧ RefusesBelow rpcHeaderSz word malloc ↔
      (rpcHeaderSz : Int) ≤ word.toInt) ∧
    (SafeReads word malloc rs ∧ RefusesBelow 5 word malloc ↔ 5 ≤ word.toInt) := by
  constructor
  · exact safe_and_refuses_iff (by decide) (by decide) rs
  · exact safe_and_refuses_iff (by decide) (by decide) rs

/-- **Small and negative lengths get through**: for a length of 2 the first
read asks for `2⁶⁴ - 2` bytes, and a length of -5 ends the process. -/
theorem small_length_accepted :
    ¬ SafeReads 2 (fun _ => true) [] ∧
      readLength (-5) (fun n => decide (n < 2 ^ 63)) = .aborted ∧
      ¬ RefusesBelow 5 (-5) (fun n => decide (n < 2 ^ 63)) := by
  have haborted : readLength (-5) (fun n => decide (n < 2 ^ 63)) = .aborted := rfl
  refine ⟨fun h => ?_, haborted, fun h => ?_⟩
  · have haccepted : readLength 2 (fun _ => true) = .accepted ⟨2, 4, 6⟩ := rfl
    have hfive := (reads_inBounds_iff haccepted []).mp (h _ haccepted)
    revert hfive
    decide
  · have hrefused := h (by decide)
    rw [haborted] at hrefused
    cases hrefused

end Yfs.Rpc.Connection
