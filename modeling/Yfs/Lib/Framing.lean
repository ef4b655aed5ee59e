/-
Yfs.Lib.Framing — messages in a stream, each with its length in front.

The first `k` symbols of a frame say how long the frame is, so a stream is
cut into frames in one way only: frames that make up the beginning of a
stream of frames are the first of them (`isPrefix_of_flatten`). Whoever
writes frames one after the other and whoever cuts them off again need not
know anything else of each other.
-/
import Mathlib

namespace Yfs.Framing

variable {α : Type*} {k : Nat} {size : List α → Nat}

/-- As long as its first `k` symbols say. -/
structure IsFrame (k : Nat) (size : List α → Nat) (x : List α) : Prop where
  header : k ≤ x.length
  whole : size (x.take k) = x.length

/-- Two frames at the start of one stream are the same. -/
theorem IsFrame.unique {x y s t : List α} (hx : IsFrame k size x) (hy : IsFrame k size y)
    (h : x ++ s = y ++ t) : x = y ∧ s = t := by
  have hheader : x.take k = y.take k := by
    have htake := congrArg (List.take k) h
    rwa [List.take_append_of_le_length hx.header, List.take_append_of_le_length hy.header] at htake
  have hlength : x.length = y.length := by
    rw [← hx.whole, hheader, hy.whole]
  exact List.append_inj h hlength

theorem isPrefix_of_flatten (hk : 0 < k) {xs ys : List (List α)}
    (hxs : ∀ x ∈ xs, IsFrame k size x) (hys : ∀ y ∈ ys, IsFrame k size y)
    (h : xs.flatten <+: ys.flatten) : xs <+: ys := by
  induction xs generalizing ys with
  | nil => exact List.nil_prefix
  | cons x xs ih =>
    obtain ⟨t, ht⟩ := h
    rw [List.flatten_cons, List.append_assoc] at ht
    have hx := hxs x List.mem_cons_self
    cases ys with
    | nil =>
      have hnil : x = [] := (List.append_eq_nil_iff.mp ht).1
      have hheader := hx.header
      rw [hnil, List.length_nil] at hheader
      omega
    | cons y ys =>
      rw [List.flatten_cons] at ht
      obtain ⟨rfl, hrest⟩ := hx.unique (hys y List.mem_cons_self) ht
      have hprefix := ih (fun z hz => hxs z (List.mem_cons_of_mem x hz))
        (fun z hz => hys z (List.mem_cons_of_mem x hz)) ⟨t, hrest⟩
      exact (List.prefix_cons_inj x).mpr hprefix

end Yfs.Framing
