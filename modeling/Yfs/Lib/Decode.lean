/-
Yfs.Lib.Decode — decoders over a buffer with a read position and a flag
that says whether everything asked for was there.

A decoder goes on after a failure: the flag is down and stays down, and
what comes out does not matter (`Sticky`). `Decodes d bytes v` says what a
decoder owes to an encoding: where `bytes` stand at the read position,
`v` comes out and the position is behind them, whatever is around; where
the buffer ends inside `bytes`, the flag goes down. A decoder may also have
no outcome (`none`); the two laws say that it has one.

The laws compose along `>>=` (`Decodes.bind`) and along a loop
(`Decodes.iterate`), so a format is proved by following its decoder. Both
laws are for buffers below a bound, since a position may be a machine
integer.
-/
import Mathlib

namespace Yfs.Decode

structure Input (β : Type) where
  buf : List β
  ind : Nat
  ok : Bool
  deriving DecidableEq, Repr

abbrev Decoder (β α : Type) := StateT (Input β) Option α

variable {β α γ σ : Type}

def Sticky (d : Decoder β α) : Prop :=
  ∀ buf i, ∃ x j, d ⟨buf, i, false⟩ = some (x, ⟨buf, j, false⟩)

/-- In buffers shorter than `N`, the decoder reads `v` from `bytes`. -/
structure Decodes (N : Nat) (d : Decoder β α) (bytes : List β) (v : α) : Prop where
  whole : ∀ pre post, (pre ++ (bytes ++ post)).length < N →
    d ⟨pre ++ (bytes ++ post), pre.length, true⟩ =
      some (v, ⟨pre ++ (bytes ++ post), pre.length + bytes.length, true⟩)
  cut : ∀ pre p t, bytes = p ++ t → t ≠ [] → (pre ++ p).length < N →
    ∃ x j, d ⟨pre ++ p, pre.length, true⟩ = some (x, ⟨pre ++ p, j, false⟩)

theorem Sticky.pure (v : α) : Sticky (pure v : Decoder β α) := fun _ i => ⟨v, i, rfl⟩

variable {d : Decoder β α} {N : Nat} {bytes : List β} {v : α}

theorem Sticky.bind {k : α → Decoder β γ} (hd : Sticky d) (hk : ∀ x, Sticky (k x)) :
    Sticky (d >>= k) := by
  intro buf i
  obtain ⟨x, j, hx⟩ := hd buf i
  obtain ⟨y, l, hy⟩ := hk x buf j
  refine ⟨y, l, ?_⟩
  show (d ⟨buf, i, false⟩).bind (fun r => k r.1 r.2) = _
  rw [hx]
  exact hy

theorem Decodes.pure (v : α) : Decodes N (pure v : Decoder β α) [] v := by
  constructor
  · intro pre post _
    rfl
  · intro pre p t hsplit ht _
    exact absurd (List.append_eq_nil_iff.mp hsplit.symm).2 ht

theorem Decodes.bind {k : α → Decoder β γ} {bytes' : List β} {w : γ} (hd : Decodes N d bytes v)
    (hs : ∀ x, Sticky (k x)) (hk : Decodes N (k v) bytes' w) :
    Decodes N (d >>= k) (bytes ++ bytes') w := by
  -- the continuation, where the first part has been read and `post` is left
  have hnext : ∀ pre post, (pre ++ (bytes ++ post)).length < N →
      (d >>= k) ⟨pre ++ (bytes ++ post), pre.length, true⟩ =
        k v ⟨(pre ++ bytes) ++ post, (pre ++ bytes).length, true⟩ := by
    intro pre post hN
    show (d ⟨_, _, _⟩).bind (fun r => k r.1 r.2) = _
    rw [hd.whole pre post hN, List.append_assoc, List.length_append]
    rfl
  constructor
  · intro pre post hN
    rw [List.append_assoc] at hN ⊢
    rw [hnext pre (bytes' ++ post) hN]
    rw [← List.append_assoc] at hN
    rw [hk.whole (pre ++ bytes) post hN]
    simp [Nat.add_assoc]
  · intro pre p t hsplit ht hN
    -- the end of the buffer is in the second part, or in the first
    rcases List.append_eq_append_iff.mp hsplit with ⟨c, rfl, hc⟩ | ⟨c, hb, rfl⟩
    · rw [hnext pre c hN]
      rw [← List.append_assoc] at hN ⊢
      exact hk.cut (pre ++ bytes) c t hc ht hN
    · cases c with
      | nil =>
        rw [List.append_nil] at hb
        subst hb
        have hfirst := hnext pre [] (by simpa using hN)
        simp only [List.append_nil] at hfirst
        rw [hfirst]
        obtain ⟨x, j, hx⟩ := hk.cut (pre ++ bytes) [] bytes' rfl ht (by simpa using hN)
        simp only [List.append_nil] at hx
        exact ⟨x, j, hx⟩
      | cons y c =>
        obtain ⟨x, j, hx⟩ := hd.cut pre p (y :: c) hb (List.cons_ne_nil y c) hN
        obtain ⟨z, l, hz⟩ := hs x (pre ++ p) j
        refine ⟨z, l, ?_⟩
        show (d ⟨_, _, _⟩).bind (fun r => k r.1 r.2) = _
        rw [hx]
        exact hz

/-- A decoder whose result is only repackaged. -/
theorem Decodes.map (hd : Decodes N d bytes v) (f : α → γ) :
    Decodes N (d >>= fun x => Pure.pure (f x)) bytes (f v) := by
  have h := hd.bind (k := fun x => Pure.pure (f x)) (fun x => Sticky.pure (f x))
    (Decodes.pure (f v))
  rwa [List.append_nil] at h

/-- A decoder into a variable that keeps its value `old` when not everything
was there. -/
def into (d : Decoder β α) (old : α) : Decoder β α := fun u =>
  (d u).map fun r => (if r.2.ok then r.1 else old, r.2)

theorem Sticky.into (hd : Sticky d) (old : α) : Sticky (into d old) := by
  intro buf i
  obtain ⟨x, j, hx⟩ := hd buf i
  exact ⟨old, j, by rw [Decode.into, hx]; rfl⟩

theorem Decodes.into (hd : Decodes N d bytes v) (old : α) :
    Decodes N (Decode.into d old) bytes v := by
  constructor
  · intro pre post hN
    rw [Decode.into, hd.whole pre post hN]
    rfl
  · intro pre p t hsplit ht hN
    obtain ⟨x, j, hx⟩ := hd.cut pre p t hsplit ht hN
    exact ⟨old, j, by rw [Decode.into, hx]; rfl⟩

/-! ## Loops -/

def iterate {m : Type → Type} [Monad m] (f : σ → m σ) : Nat → σ → m σ
  | 0, acc => pure acc
  | n + 1, acc => f acc >>= iterate f n

theorem Sticky.iterate {f : σ → Decoder β σ} (hf : ∀ acc, Sticky (f acc)) (n : Nat) (acc : σ) :
    Sticky (iterate f n acc) := by
  induction n generalizing acc with
  | zero => exact Sticky.pure acc
  | succ n ih => exact (hf acc).bind ih

/-- The loop reads the encodings of `xs` one after the other. -/
theorem Decodes.iterate {f : σ → Decoder β σ} {enc : α → List β} {next : σ → α → σ} {xs : List α}
    (hf : ∀ acc, Sticky (f acc)) (h : ∀ acc, ∀ x ∈ xs, Decodes N (f acc) (enc x) (next acc x))
    (acc : σ) :
    Decodes N (Decode.iterate f xs.length acc) (xs.flatMap enc) (xs.foldl next acc) := by
  induction xs generalizing acc with
  | nil => exact Decodes.pure acc
  | cons x xs ih =>
    have hrest := ih (fun acc y hy => h acc y (List.mem_cons_of_mem _ hy)) (next acc x)
    exact (h acc x List.mem_cons_self).bind (Sticky.iterate hf xs.length) hrest

end Yfs.Decode
