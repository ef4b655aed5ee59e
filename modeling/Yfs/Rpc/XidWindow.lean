/-
Yfs.Rpc.XidWindow — the client's window of answered calls
(`rpcc::xid_rep_window_`, `rpcc::update_xid_rep` in rpc/rpc.cc).

The window is a list that starts as `[0]`. Its front is sent with every
request as `xid_rep`: "the client says it has received a reply for every
RPC up through xid_rep". `update_xid_rep` inserts an xid in order and
then drops the front while the next xids follow it without a gap.

`WindowInv acked w` is what the header sent with a request rests on:
every xid up to the front has been passed to `update_xid_rep`. Nothing
here says that the call was ANSWERED; `rpcc::call1` passes the xid of a
call that timed out as well.

`acknowledged_prefix` says what the window is after any calls: the front is
as far as it can go, and the rest is what has occurred above it. `got_pdu`
and `call1` report an xid twice, so an element may be there more than once,
the front too (`front_stays_twice`): the loop drops a copy only when the next
number comes.
-/
import Yfs.Lib.Run

namespace Yfs.Rpc

/-- The insertion loop of `update_xid_rep`: before the first larger
element, at the end if there is none. -/
def insertXid : List Nat → Nat → List Nat
  | [], xid => [xid]
  | y :: ys, xid => if y > xid then xid :: y :: ys else y :: insertXid ys xid

/-- `while (front() + 1 == *it) pop_front();` on the elements in front of
the iterator. Once they are all gone the iterator is the front. -/
def popWhile : List Nat → Nat → List Nat
  | [], _ => []
  | f :: pre, it => if f + 1 = it then popWhile pre it else f :: pre

def compressFrom : List Nat → List Nat → List Nat
  | pre, [] => pre
  | pre, it :: rest => compressFrom (popWhile pre it ++ [it]) rest

def compress : List Nat → List Nat
  | [] => []
  | f :: rest => compressFrom [f] rest

/-- `xid_rep_window_.front()`; the window is never empty. -/
def front (w : List Nat) : Nat := w.headD 0

def updateXidRep (w : List Nat) (xid : Nat) : List Nat :=
  if xid ≤ front w then w else compress (insertXid w xid)

/-! ## The window invariant -/

/-- The window is sorted and holds acknowledged xids only, and every xid
up to its front is acknowledged. Xids start at 1; the initial 0 stands
for "none". -/
structure WindowInv (acked : Nat → Prop) (w : List Nat) : Prop where
  ne_nil : w ≠ []
  sorted : w.Pairwise (· ≤ ·)
  mem : ∀ x ∈ w, x = 0 ∨ acked x
  acked_upto : ∀ x, 0 < x → x ≤ front w → acked x

theorem windowInv_init (acked : Nat → Prop) : WindowInv acked [0] := by
  refine ⟨by simp, by simp, by simp, fun x hx hle => ?_⟩
  simp only [front, List.headD_cons] at hle
  omega

variable {acked : Nat → Prop} {w : List Nat} {it : Nat}

theorem WindowInv.mono {acked' : Nat → Prop} (h : WindowInv acked w)
    (hle : ∀ x, acked x → acked' x) : WindowInv acked' w :=
  ⟨h.ne_nil, h.sorted, fun x hx => (h.mem x hx).imp_right (hle x),
    fun x h0 hx => hle x (h.acked_upto x h0 hx)⟩

theorem mem_insertXid {xid x : Nat} : x ∈ insertXid w xid ↔ x = xid ∨ x ∈ w := by
  induction w with
  | nil => simp [insertXid]
  | cons y ys ih =>
    rw [insertXid]
    split
    · simp
    · rw [List.mem_cons, ih, List.mem_cons]
      tauto

theorem exists_insertXid (w : List Nat) (xid : Nat) : ∃ f rest, insertXid w xid = f :: rest :=
  List.exists_cons_of_ne_nil (List.ne_nil_of_mem (mem_insertXid.mpr (.inl rfl)))

theorem insertXid_sorted (xid : Nat) (h : w.Pairwise (· ≤ ·)) :
    (insertXid w xid).Pairwise (· ≤ ·) := by
  induction w with
  | nil => simp [insertXid]
  | cons y ys ih =>
    rw [List.pairwise_cons] at h
    simp only [insertXid]
    split
    · rename_i hgt
      refine List.pairwise_cons.mpr ⟨fun z hz => ?_, List.pairwise_cons.mpr h⟩
      rcases List.mem_cons.mp hz with rfl | hz
      · omega
      · have := h.1 z hz
        omega
    · rename_i hle
      refine List.pairwise_cons.mpr ⟨fun z hz => ?_, ih h.2⟩
      rcases mem_insertXid.mp hz with rfl | hz
      · omega
      · exact h.1 z hz

/-- Inserting a larger xid does not change the front. -/
theorem front_insertXid {xid : Nat} (hne : w ≠ []) (h : front w < xid) :
    front (insertXid w xid) = front w := by
  cases w with
  | nil => exact absurd rfl hne
  | cons y ys =>
    simp only [front, List.headD_cons] at h
    have hny : ¬ y > xid := by omega
    simp [insertXid, hny, front]

/-- Elements are dropped from the front only. -/
theorem popWhile_sublist (it : Nat) : ∀ pre : List Nat, (popWhile pre it).Sublist pre
  | [] => List.Sublist.refl _
  | f :: pre => by
      rw [popWhile]
      split
      · exact (popWhile_sublist it pre).cons f
      · exact List.Sublist.refl _

theorem front_popWhile_le {pre : List Nat} (hle : ∀ x ∈ pre, x ≤ it) :
    front (popWhile pre it ++ [it]) ≤ it := by
  cases hp : popWhile pre it with
  | nil => simp [front]
  | cons g rest =>
    have hgmem : g ∈ pre := (popWhile_sublist it pre).subset (by simp [hp])
    simpa [front] using hle g hgmem

/-- An element is dropped when its successor comes. `pre` are the elements in
front of the iterator. -/
theorem acked_upto_popWhile {pre : List Nat} (hit : it = 0 ∨ acked it) (hne : pre ≠ [])
    (hle : ∀ x ∈ pre, x ≤ it) (hf : ∀ x, 0 < x → x ≤ front pre → acked x) :
    ∀ x, 0 < x → x ≤ front (popWhile pre it ++ [it]) → acked x := by
  intro x h0 hx
  cases pre with
  | nil => exact absurd rfl hne
  | cons f pre =>
    have hxit : x ≤ it := hx.trans (front_popWhile_le hle)
    simp only [front, List.headD_cons] at hf
    by_cases hnext : f + 1 = it
    · -- `f` and its successor `it` are acknowledged, and nothing lies between
      by_cases hxf : x ≤ f
      · exact hf x h0 hxf
      · obtain rfl : x = it := by omega
        exact hit.resolve_left (by omega)
    · rw [popWhile, if_neg hnext] at hx
      exact hf x h0 (by simpa [front] using hx)

theorem compressFrom_inv :
    ∀ (rest pre : List Nat), pre ≠ [] → (pre ++ rest).Pairwise (· ≤ ·) →
      (∀ x ∈ pre ++ rest, x = 0 ∨ acked x) → (∀ x, 0 < x → x ≤ front pre → acked x) →
      WindowInv acked (compressFrom pre rest)
  | [], pre, hne, hsort, hmem, hf => by
      rw [List.append_nil] at hsort hmem
      exact ⟨hne, hsort, hmem, hf⟩
  | it :: rest, pre, hne, hsort, hmem, hf => by
      have hle : ∀ x ∈ pre, x ≤ it := fun x hx =>
        (List.pairwise_append.mp hsort).2.2 x hx it (by simp)
      have hsub : ((popWhile pre it ++ [it]) ++ rest).Sublist (pre ++ it :: rest) := by
        simpa using (popWhile_sublist it pre).append (List.Sublist.refl (it :: rest))
      rw [compressFrom]
      exact compressFrom_inv rest (popWhile pre it ++ [it]) (by simp) (hsort.sublist hsub)
        (fun x hx => hmem x (hsub.subset hx)) (acked_upto_popWhile (hmem it (by simp)) hne hle hf)

/-- `update_xid_rep` keeps the window invariant, for any xid. -/
theorem WindowInv.update {xid : Nat} (h : WindowInv acked w) (hx : acked xid) :
    WindowInv acked (updateXidRep w xid) := by
  unfold updateXidRep
  split
  · exact h
  · rename_i hgt
    have hfront := front_insertXid h.ne_nil (by omega : front w < xid)
    have hsort := insertXid_sorted xid h.sorted
    have hmem : ∀ x ∈ insertXid w xid, x = 0 ∨ acked x := by
      intro x hxm
      rcases mem_insertXid.mp hxm with rfl | hxm
      · exact .inr hx
      · exact h.mem x hxm
    obtain ⟨f, rest, hw⟩ := exists_insertXid w xid
    rw [hw] at hfront hsort hmem ⊢
    refine compressFrom_inv rest [f] (by simp) (by simpa using hsort) (by simpa using hmem) ?_
    intro x h0 hxf
    exact h.acked_upto x h0 (hfront ▸ hxf)

example : updateXidRep (updateXidRep [0] 2) 1 = [2] := by decide

/-! ## What the window holds -/

/-- Nothing that matters has been dropped, and the front is as far as it can
go. -/
structure WindowExact (seen : Nat → Prop) (w : List Nat) : Prop extends WindowInv seen w where
  kept : ∀ x, seen x → front w < x → x ∈ w
  gap : front w + 1 ∉ w

theorem popWhile_replicate {f : Nat} (h : f + 1 = it) :
    ∀ {pre : List Nat}, (∀ x ∈ pre, x = f) → popWhile pre it = [] 
  | [], _ => rfl
  | g :: pre, hall => by
      obtain rfl := hall g (by simp)
      rw [popWhile, if_pos h]
      exact popWhile_replicate h fun x hx => hall x (List.mem_cons_of_mem g hx)

/-- One turn of the compress loop. As long as the number after the front is
not in front of the iterator, all that is there when it comes is copies of
the front, and they all go. -/
theorem popWhile_eq {pre : List Nat} (hne : pre ≠ []) (hsort : pre.Pairwise (· ≤ ·))
    (hle : ∀ x ∈ pre, x ≤ it) (hgap : front pre + 1 ∉ pre) :
    popWhile pre it = if front pre + 1 = it then [] else pre := by
  cases pre with
  | nil => exact absurd rfl hne
  | cons f pre =>
    have hfront : front (f :: pre) = f := rfl
    rw [hfront] at hgap ⊢
    by_cases hit : f + 1 = it
    · rw [if_pos hit]
      refine popWhile_replicate hit fun x hx => ?_
      have hx' : x ≤ f + 1 := hit ▸ hle x hx
      have hxne : x ≠ f + 1 := fun heq => hgap (heq ▸ hx)
      have hxf : f ≤ x := by
        rcases List.mem_cons.mp hx with rfl | hx
        · exact le_rfl
        · exact (List.pairwise_cons.mp hsort).1 x hx
      omega
    · rw [if_neg hit, popWhile, if_neg hit]

/-- The whole loop: the front only goes up, ends before a gap, and what is
above it has stayed. -/
theorem compressFrom_spec :
    ∀ (rest pre : List Nat), pre ≠ [] → (pre ++ rest).Pairwise (· ≤ ·) → front pre + 1 ∉ pre →
      front pre ≤ front (compressFrom pre rest) ∧
      front (compressFrom pre rest) + 1 ∉ compressFrom pre rest ∧
      ∀ x ∈ pre ++ rest, front (compressFrom pre rest) < x → x ∈ compressFrom pre rest
  | [], pre, _, _, hgap => by
      rw [compressFrom, List.append_nil]
      exact ⟨le_rfl, hgap, fun x hx _ => hx⟩
  | it :: rest, pre, hne, hsort, hgap => by
      obtain ⟨hpre, hrest, hle⟩ := List.pairwise_append.mp hsort
      have hit : ∀ x ∈ pre, x ≤ it := fun x hx => hle x hx it (by simp)
      rw [compressFrom, popWhile_eq hne hpre hit hgap]
      split
      · rename_i hnext
        -- the iterator is the new front
        obtain ⟨hup, hgap', hkept⟩ :=
          compressFrom_spec rest [it] (by simp) hrest (by simp [front])
        rw [List.nil_append]
        simp only [front, List.headD_cons] at hup hnext
        refine ⟨by simp only [front]; omega, hgap', fun x hx hlt => ?_⟩
        rcases List.mem_append.mp hx with hx | hx
        · have hxit := hit x hx
          simp only [front] at hlt
          omega
        · exact hkept x hx hlt
      · rename_i hnext
        have hfront : front (pre ++ [it]) = front pre := by
          cases pre with
          | nil => exact absurd rfl hne
          | cons f pre => rfl
        have hgap₁ : front (pre ++ [it]) + 1 ∉ pre ++ [it] := by
          rw [hfront, List.mem_append, List.mem_singleton]
          rintro (h | h)
          · exact hgap h
          · exact hnext h
        have happ : pre ++ it :: rest = (pre ++ [it]) ++ rest := by simp
        rw [happ] at hsort ⊢
        rw [← hfront]
        exact compressFrom_spec rest (pre ++ [it]) (by simp) hsort hgap₁

theorem windowExact_init : WindowExact (fun _ => False) [0] :=
  ⟨windowInv_init _, fun _ h => h.elim, by simp [front]⟩

/-- `update_xid_rep` records the xid, whatever it is. -/
theorem WindowExact.update {seen : Nat → Prop} (h : WindowExact seen w) (xid : Nat) :
    WindowExact (fun x => x = xid ∨ seen x) (updateXidRep w xid) := by
  have hinv : WindowInv (fun x => x = xid ∨ seen x) (updateXidRep w xid) :=
    (h.toWindowInv.mono fun x hx => .inr hx).update (.inl rfl)
  by_cases hle : xid ≤ front w
  · rw [updateXidRep, if_pos hle] at hinv ⊢
    refine ⟨hinv, ?_, h.gap⟩
    rintro x (rfl | hx) hlt
    · omega
    · exact h.kept x hx hlt
  · have hfront := front_insertXid h.ne_nil (by omega : front w < xid)
    have hsort := insertXid_sorted xid h.sorted
    obtain ⟨f, rest, hw⟩ := exists_insertXid w xid
    have hnew : updateXidRep w xid = compressFrom [f] rest := by
      rw [updateXidRep, if_neg hle, hw]
      rfl
    rw [hw] at hfront hsort
    rw [hnew] at hinv ⊢
    obtain ⟨hup, hgap, hkept⟩ := compressFrom_spec rest [f] (by simp) hsort (by simp [front])
    refine ⟨hinv, ?_, hgap⟩
    intro x hx hlt
    refine hkept x ?_ hlt
    have hfx : front w < x := by
      have hf : front w ≤ front (compressFrom [f] rest) := hfront ▸ hup
      omega
    rw [List.singleton_append, ← hw, mem_insertXid]
    rcases hx with rfl | hx
    · exact .inl rfl
    · exact .inr (h.kept x hx hfx)

theorem WindowExact.foldl {seen : Nat → Prop} (h : WindowExact seen w) (xids : List Nat) :
    WindowExact (fun x => x ∈ xids ∨ seen x) (xids.foldl updateXidRep w) := by
  induction xids generalizing seen w with
  | nil => simpa using h
  | cons xid xids ih =>
    have hrest := ih (h.update xid)
    have hseen : (fun x => x ∈ xids ∨ x = xid ∨ seen x) = fun x => x ∈ xid :: xids ∨ seen x := by
      funext x
      rw [List.mem_cons, eq_iff_iff]
      tauto
    rwa [hseen] at hrest

/-- The window after these calls of `update_xid_rep`. -/
def windowAfter (xids : List Nat) : List Nat := xids.foldl updateXidRep [0]

theorem windowExact_after (xids : List Nat) : WindowExact (· ∈ xids) (windowAfter xids) := by
  have hall := windowExact_init.foldl xids
  simp only [or_false] at hall
  exact hall

/-- **Acknowledged prefix**: for any calls in any order, the window is sorted,
its front is the end of the longest run of xids from 1 that have occurred,
and behind the front are the larger ones that have; a copy of the front may
be there too. -/
theorem acknowledged_prefix (xids : List Nat) :
    (windowAfter xids).Pairwise (· ≤ ·) ∧
    IsGreatest { n | ∀ x, 1 ≤ x → x ≤ n → x ∈ xids } (front (windowAfter xids)) ∧
    (∀ x ∈ (windowAfter xids).tail,
      x = front (windowAfter xids) ∨ front (windowAfter xids) < x ∧ x ∈ xids) ∧
    ∀ x ∈ xids, front (windowAfter xids) < x → x ∈ (windowAfter xids).tail := by
  have h := windowExact_after xids
  obtain ⟨f, rest, hw⟩ : ∃ f rest, windowAfter xids = f :: rest :=
    List.exists_cons_of_ne_nil h.ne_nil
  have hsort := h.sorted
  have hmem := h.mem
  have hupto := h.acked_upto
  have hkept := h.kept
  have hgap := h.gap
  rw [hw] at hsort hmem hupto hkept hgap ⊢
  simp only [front, List.headD_cons, List.tail_cons] at hupto hkept hgap ⊢
  refine ⟨hsort, ⟨hupto, ?_⟩, ?_, ?_⟩
  · intro n hn
    by_contra hlt
    -- the number after the front has occurred, so it would be in the window
    have hnext : f + 1 ∈ xids := hn (f + 1) (by omega) (by omega)
    exact hgap (hkept (f + 1) hnext (by omega))
  · intro x hx
    have hfx : f ≤ x := (List.pairwise_cons.mp hsort).1 x hx
    rcases hfx.eq_or_lt with heq | hlt
    · exact .inl heq.symm
    · exact .inr ⟨hlt, (hmem x (List.mem_cons_of_mem f hx)).resolve_left (by omega)⟩
  · intro x hx hlt
    rcases List.mem_cons.mp (hkept x hx hlt) with rfl | hx
    · omega
    · exact hx

/-- A call is reported twice before the one in front of it: the second 2 is
still there when 2 is the front. -/
theorem front_stays_twice :
    windowAfter [2, 2, 1] = [2, 2] ∧
    ¬ ∀ xids x, x ∈ (windowAfter xids).tail ↔ x ∈ xids ∧ front (windowAfter xids) < x := by
  have hw : windowAfter [2, 2, 1] = [2, 2] := by decide
  refine ⟨hw, fun hall => ?_⟩
  have htail := (hall [2, 2, 1] 2).mp (by rw [hw]; simp)
  rw [hw] at htail
  exact absurd htail.2 (by decide)

end Yfs.Rpc
