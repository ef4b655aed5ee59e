/-
Yfs.Lib.Refs — objects that count the references to them.

A heap maps places to objects, and `none` where there is none (any more). An
object has a count `cnt`. `Balanced cnt heap refs`: the count of every place
is the number of times it occurs in `refs`, the list of references that
exist. A place without an object counts as 0, so a reference to it cannot be
in the list: from the balance it follows that no reference dangles
(`Balanced.exists_of_mem`).

Each rule is one thing code does to one object: take a reference, drop one,
change something else in it, make it, free it.
-/
import Mathlib

namespace Yfs.Refs

variable {ι α : Type*}

def countAt (cnt : α → Nat) (heap : ι → Option α) (p : ι) : Nat := (heap p).elim 0 cnt

variable [DecidableEq ι]

def Balanced (cnt : α → Nat) (heap : ι → Option α) (refs : List ι) : Prop :=
  ∀ p, countAt cnt heap p = refs.count p

variable {cnt : α → Nat} {heap : ι → Option α} {refs refs' : List ι} {p : ι} {o o' : α}

theorem Balanced.count_eq (h : Balanced cnt heap refs) (hp : heap p = some o) :
    cnt o = refs.count p := by
  rw [← h p, countAt, hp]
  rfl

/-- A reference points to an object, which knows of it. -/
theorem Balanced.exists_of_mem (h : Balanced cnt heap refs) (hp : p ∈ refs) :
    ∃ o, heap p = some o ∧ 0 < cnt o := by
  have hpos : 0 < countAt cnt heap p := by
    rw [h p]
    exact List.count_pos_iff.mpr hp
  cases ho : heap p with
  | none => simp [countAt, ho] at hpos
  | some o => exact ⟨o, rfl, by simpa [countAt, ho] using hpos⟩

/-- The order of the references does not matter. -/
theorem Balanced.perm (h : Balanced cnt heap refs) (hperm : refs.Perm refs') :
    Balanced cnt heap refs' :=
  fun p => (h p).trans (hperm.count_eq p)

/-- One place changes, and so do the references to it. -/
theorem Balanced.update (h : Balanced cnt heap refs) {x : Option α}
    (hx : x.elim 0 cnt = refs'.count p) (hother : ∀ q, q ≠ p → refs'.count q = refs.count q) :
    Balanced cnt (Function.update heap p x) refs' := by
  intro q
  rcases eq_or_ne q p with rfl | hne
  · rw [countAt, Function.update_self, hx]
  · rw [countAt, Function.update_of_ne hne, hother q hne]
    exact h q

theorem Balanced.take (h : Balanced cnt heap refs) (hp : heap p = some o)
    (hcnt : cnt o' = cnt o + 1) :
    Balanced cnt (Function.update heap p (some o')) (p :: refs) := by
  refine h.update ?_ fun q hne => List.count_cons_of_ne hne.symm
  rw [List.count_cons_self, ← h.count_eq hp]
  exact hcnt

theorem Balanced.drop (h : Balanced cnt heap (p :: refs)) (hp : heap p = some o)
    (hcnt : cnt o' = cnt o - 1) : Balanced cnt (Function.update heap p (some o')) refs := by
  refine h.update ?_ fun q hne => (List.count_cons_of_ne hne.symm).symm
  have hold := h.count_eq hp
  rw [List.count_cons_self] at hold
  show cnt o' = _
  omega

theorem Balanced.change (h : Balanced cnt heap refs) (hp : heap p = some o)
    (hcnt : cnt o' = cnt o) : Balanced cnt (Function.update heap p (some o')) refs :=
  h.update (hcnt.trans (h.count_eq hp)) fun _ _ => rfl

/-- A new object has one reference, to who made it. -/
theorem Balanced.make (h : Balanced cnt heap refs) (hp : heap p = none) (hcnt : cnt o' = 1) :
    Balanced cnt (Function.update heap p (some o')) (p :: refs) := by
  refine h.update ?_ fun q hne => List.count_cons_of_ne hne.symm
  have hzero : refs.count p = 0 := by
    rw [← h p, countAt, hp]
    rfl
  rw [List.count_cons_self, hzero]
  exact hcnt

theorem Balanced.free (h : Balanced cnt heap refs) (hp : heap p = some o) (hcnt : cnt o = 0) :
    Balanced cnt (Function.update heap p none) refs :=
  h.update (hcnt.symm.trans (h.count_eq hp)) fun _ _ => rfl

/-! ## References in the entries of a list -/

section Entries

variable {β : Type*} {f : β → ι} {l : List β} {i : Nat} {a : β}

omit [DecidableEq ι] in
/-- One entry has one of the references. -/
theorem perm_eraseIdx (h : l[i]? = some a) :
    (l.map f).Perm (f a :: (l.eraseIdx i).map f) := by
  obtain ⟨hlt, hget⟩ := List.getElem?_eq_some_iff.mp h
  have hperm := (List.getElem_cons_eraseIdx_perm hlt).map f
  rw [hget] at hperm
  exact hperm.symm

omit [DecidableEq ι] in
/-- The reference of an entry is exchanged for another. -/
theorem perm_set (h : l[i]? = some a) (b : β) :
    ((l.set i b).map f).Perm (f b :: (l.eraseIdx i).map f) := by
  obtain ⟨hlt, _⟩ := List.getElem?_eq_some_iff.mp h
  have hperm := perm_eraseIdx (f := f) (List.getElem?_set_self (a := b) hlt)
  rwa [List.eraseIdx_set_eq] at hperm

end Entries

end Yfs.Refs
