/-
Yfs.Lib.OrdMap — finite maps as lists of pairs with increasing keys, the
way an ordered map is walked.

The order of the keys is part of the type, so a map has one list and two
maps with the same entries are equal. `insert` is `m[k] = v`. Building a
map by inserting the entries of another in their order gives it back
(`foldl_insert`).
-/
import Mathlib

namespace Yfs

/-- A map from `K` to `V`. -/
structure OrdMap (K V : Type) [LinearOrder K] where
  entries : List (K × V)
  sorted : entries.Pairwise fun p q => p.1 < q.1

namespace OrdMap

variable {K V : Type} [LinearOrder K]

def empty : OrdMap K V := ⟨[], List.Pairwise.nil⟩

variable {m : OrdMap K V} {k : K} {v : V} {l : List (K × V)} {q : K × V}

theorem ext {n : OrdMap K V} (h : m.entries = n.entries) : m = n := by
  cases m
  cases n
  simpa using h

def find? (m : OrdMap K V) (k : K) : Option V :=
  (m.entries.find? fun p => decide (p.1 = k)).map Prod.snd

def insertList (k : K) (v : V) : List (K × V) → List (K × V)
  | [] => [(k, v)]
  | p :: l =>
    if k < p.1 then (k, v) :: p :: l
    else if p.1 < k then p :: insertList k v l
    else (k, v) :: l

theorem mem_insertList (h : q ∈ insertList k v l) : q = (k, v) ∨ q ∈ l := by
  induction l with
  | nil => exact .inl (List.mem_singleton.mp h)
  | cons p l ih =>
    unfold insertList at h
    split at h
    · exact List.mem_cons.mp h
    · split at h
      · rcases List.mem_cons.mp h with rfl | h
        · exact .inr List.mem_cons_self
        · exact (ih h).imp id (List.mem_cons_of_mem p)
      · exact (List.mem_cons.mp h).imp id (List.mem_cons_of_mem p)

theorem insertList_sorted (h : l.Pairwise fun p q => p.1 < q.1) :
    (insertList k v l).Pairwise fun p q => p.1 < q.1 := by
  induction l with
  | nil => exact List.pairwise_singleton _ _
  | cons p l ih =>
    obtain ⟨hp, hl⟩ := List.pairwise_cons.mp h
    unfold insertList
    split
    · rename_i hk
      refine List.pairwise_cons.mpr ⟨?_, h⟩
      intro q hq
      rcases List.mem_cons.mp hq with rfl | hq
      · exact hk
      · exact hk.trans (hp q hq)
    · split
      · rename_i hk
        refine List.pairwise_cons.mpr ⟨?_, ih hl⟩
        intro q hq
        rcases mem_insertList hq with rfl | hq
        · exact hk
        · exact hp q hq
      · rename_i h₁ h₂
        have hk : k = p.1 := le_antisymm (not_lt.mp h₂) (not_lt.mp h₁)
        refine List.pairwise_cons.mpr ⟨?_, hl⟩
        intro q hq
        show k < q.1
        rw [hk]
        exact hp q hq

def insert (m : OrdMap K V) (k : K) (v : V) : OrdMap K V :=
  ⟨insertList k v m.entries, insertList_sorted m.sorted⟩

theorem find?_insertList (k k' : K) (v : V) (h : l.Pairwise fun p q => p.1 < q.1) :
    ((insertList k v l).find? fun p => decide (p.1 = k')).map Prod.snd =
      if k' = k then some v else (l.find? fun p => decide (p.1 = k')).map Prod.snd := by
  induction l with
  | nil =>
    by_cases hk : k' = k
    · subst hk
      simp [insertList]
    · simp [insertList, hk, Ne.symm hk]
  | cons p l ih =>
    obtain ⟨_, hl⟩ := List.pairwise_cons.mp h
    have ih := ih hl
    unfold insertList
    split
    · by_cases hk : k' = k
      · subst hk
        simp
      · simp [hk, List.find?_cons, Ne.symm hk]
    · split
      · rename_i hlt
        by_cases hp : p.1 = k'
        · have hne : k' ≠ k := hp ▸ hlt.ne
          simp [hp, hne]
        · simp only [List.find?_cons, hp, decide_false]
          exact ih
      · rename_i h₁ h₂
        have hpk : p.1 = k := le_antisymm (not_lt.mp h₁) (not_lt.mp h₂)
        by_cases hk : k' = k
        · subst hk
          simp
        · simp [hpk, hk, Ne.symm hk]

/-- Reading a map after `m[k] = v`. -/
theorem find?_insert (m : OrdMap K V) (k k' : K) (v : V) :
    (m.insert k v).find? k' = if k' = k then some v else m.find? k' :=
  find?_insertList k k' v m.sorted

@[simp] theorem find?_empty (k : K) : (empty : OrdMap K V).find? k = none := rfl

/-- A key above all others goes to the end. -/
theorem insertList_append (h : ∀ p ∈ l, p.1 < k) : insertList k v l = l ++ [(k, v)] := by
  induction l with
  | nil => rfl
  | cons p l ih =>
    have hp : p.1 < k := h p List.mem_cons_self
    simp [insertList, hp, hp.asymm, ih fun q hq => h q (List.mem_cons_of_mem p hq)]

theorem entries_foldl_insert (h : (m.entries ++ l).Pairwise fun p q => p.1 < q.1) :
    (l.foldl (fun m p => m.insert p.1 p.2) m).entries = m.entries ++ l := by
  induction l generalizing m with
  | nil => simp
  | cons p l ih =>
    have hlast : (m.insert p.1 p.2).entries = m.entries ++ [p] := by
      refine insertList_append fun q hq => ?_
      exact (List.pairwise_append.mp h).2.2 q hq p List.mem_cons_self
    rw [List.foldl_cons, ih]
    · rw [hlast, List.append_assoc, List.singleton_append]
    · rw [hlast, List.append_assoc, List.singleton_append]
      exact h

/-- Inserting the entries of a map in order builds the map. -/
theorem foldl_insert (m : OrdMap K V) :
    m.entries.foldl (fun m p => m.insert p.1 p.2) empty = m :=
  ext (entries_foldl_insert (m := empty) m.sorted)

/-! ## Entries and keys -/

theorem find?_of_mem (h : l.Pairwise fun p q => p.1 < q.1) (hmem : (k, v) ∈ l) :
    l.find? (fun p => decide (p.1 = k)) = some (k, v) := by
  induction l with
  | nil => cases hmem
  | cons p l ih =>
    obtain ⟨hp, hl⟩ := List.pairwise_cons.mp h
    rcases List.mem_cons.mp hmem with rfl | hmem
    · simp
    · have hne : p.1 ≠ k := (hp (k, v) hmem).ne
      simp [hne, ih hl hmem]

/-- A key has one value. -/
theorem mem_entries_iff (m : OrdMap K V) : (k, v) ∈ m.entries ↔ m.find? k = some v := by
  constructor
  · intro hmem
    rw [find?, find?_of_mem m.sorted hmem]
    rfl
  · intro h
    obtain ⟨p, hp, rfl⟩ := Option.map_eq_some_iff.mp h
    have hkey : p.1 = k := by simpa using List.find?_some hp
    exact hkey ▸ List.mem_of_find?_eq_some hp

theorem nodup_keys (m : OrdMap K V) : (m.entries.map Prod.fst).Nodup :=
  List.pairwise_map.mpr (m.sorted.imp fun h => h.ne)

theorem find?_eq_none_of_lt (h : ∀ p ∈ m.entries, p.1 < k) : m.find? k = none := by
  rw [find?, Option.map_eq_none_iff, List.find?_eq_none]
  intro p hp
  simpa using (h p hp).ne

theorem length_insertList (h : ∀ p ∈ l, p.1 ≠ k) : (insertList k v l).length = l.length + 1 := by
  induction l with
  | nil => rfl
  | cons p l ih =>
    have hl := ih fun q hq => h q (List.mem_cons_of_mem p hq)
    unfold insertList
    split
    · rfl
    · split
      · simp [hl]
      · rename_i h₁ h₂
        exact absurd (le_antisymm (not_lt.mp h₁) (not_lt.mp h₂)) (h p List.mem_cons_self)

theorem length_insert (h : m.find? k = none) (v : V) :
    (m.insert k v).entries.length = m.entries.length + 1 := by
  refine length_insertList fun p hp hk => ?_
  have hfound := m.mem_entries_iff.mp hp
  rw [hk, h] at hfound
  cases hfound

def erase (m : OrdMap K V) (k : K) : OrdMap K V :=
  ⟨m.entries.filter fun p => decide (p.1 ≠ k), m.sorted.filter _⟩

theorem find?_erase (m : OrdMap K V) (k k' : K) :
    (m.erase k).find? k' = if k' = k then none else m.find? k' := by
  rw [find?, erase, List.find?_filter]
  split
  · rename_i h
    subst h
    simp
  · rename_i h
    rw [find?]
    congr 2
    funext p
    by_cases hp : p.1 = k'
    · simp [hp, h]
    · simp [hp]

def insertNew (m : OrdMap K V) (k : K) (v : V) : OrdMap K V :=
  if (m.find? k).isSome then m else m.insert k v

theorem mem_insert (h : q ∈ (m.insert k v).entries) : q = (k, v) ∨ q ∈ m.entries := mem_insertList h

theorem mem_insertNew (h : q ∈ (m.insertNew k v).entries) : q = (k, v) ∨ q ∈ m.entries := by
  unfold insertNew at h
  split at h
  · exact .inr h
  · exact mem_insert h

theorem length_insertNew_le (m : OrdMap K V) (k : K) (v : V) :
    (m.insertNew k v).entries.length ≤ m.entries.length + 1 := by
  unfold insertNew
  split
  · exact Nat.le_succ _
  · rename_i h
    have hnone : m.find? k = none := by simpa using h
    exact (length_insert hnone v).le

theorem find?_insertNew (m : OrdMap K V) (k k' : K) (v : V) :
    (m.insertNew k v).find? k' = if k' = k then some ((m.find? k).getD v) else m.find? k' := by
  unfold insertNew
  cases hk : m.find? k with
  | none => simp [find?_insert]
  | some w =>
    simp only [Option.isSome_some, if_true, Option.getD_some]
    split
    · rename_i heq
      rw [heq, hk]
    · rfl

/-- What is in a map that was read entry by entry. -/
theorem mem_foldl_insertNew (h : q ∈ (l.foldl (fun m p => m.insertNew p.1 p.2) m).entries) :
    q ∈ l ∨ q ∈ m.entries := by
  induction l generalizing m with
  | nil => exact .inr h
  | cons p l ih =>
    rcases ih h with hl | hm
    · exact .inl (List.mem_cons_of_mem _ hl)
    · rcases mem_insertNew hm with rfl | hold
      · exact .inl List.mem_cons_self
      · exact .inr hold

theorem isSome_find?_foldl_insertNew (h : (∃ p ∈ l, p.1 = k) ∨ (m.find? k).isSome = true) :
    ((l.foldl (fun m p => m.insertNew p.1 p.2) m).find? k).isSome = true := by
  induction l generalizing m with
  | nil => simpa using h
  | cons p l ih =>
    refine ih ?_
    rw [find?_insertNew]
    by_cases hk : k = p.1
    · right
      rw [if_pos hk]
      rfl
    · rw [if_neg hk]
      rcases h with ⟨q, hq, rfl⟩ | hm
      · rcases List.mem_cons.mp hq with rfl | hq
        · exact absurd rfl hk
        · exact .inl ⟨q, hq, rfl⟩
      · exact .inr hm

/-- The entries that were read are the entries of the map, unless there are
two for one key. -/
theorem mem_foldl_insertNew_iff (l : List (K × V)) :
    (∀ q, q ∈ (l.foldl (fun m p => m.insertNew p.1 p.2) (empty : OrdMap K V)).entries ↔ q ∈ l) ↔
      ∀ p ∈ l, ∀ q ∈ l, p.1 = q.1 → p.2 = q.2 := by
  constructor
  · intro hall p hp q hq hkey
    have hpm := (mem_entries_iff _).mp ((hall p).mpr hp)
    have hqm := (mem_entries_iff _).mp ((hall q).mpr hq)
    rw [hkey] at hpm
    exact Option.some.inj (hpm.symm.trans hqm)
  · intro hfun q
    refine ⟨fun hq => ?_, fun hq => ?_⟩
    · exact (mem_foldl_insertNew hq).resolve_right (by simp [empty])
    · obtain ⟨v, hv⟩ := Option.isSome_iff_exists.mp
        (isSome_find?_foldl_insertNew (m := (empty : OrdMap K V)) (.inl ⟨q, hq, rfl⟩))
      have hmem := (mem_entries_iff _).mpr hv
      have hlist := (mem_foldl_insertNew hmem).resolve_right (by simp [empty])
      have hval : v = q.2 := hfun _ hlist q hq rfl
      rwa [hval] at hmem

theorem foldl_insertNew (h : (m.entries ++ l).Pairwise fun p q => p.1 < q.1) :
    l.foldl (fun m p => m.insertNew p.1 p.2) m = l.foldl (fun m p => m.insert p.1 p.2) m := by
  induction l generalizing m with
  | nil => rfl
  | cons p l ih =>
    have habove : ∀ q ∈ m.entries, q.1 < p.1 := fun q hq =>
      (List.pairwise_append.mp h).2.2 q hq p List.mem_cons_self
    have hp : m.insertNew p.1 p.2 = m.insert p.1 p.2 := by
      simp [insertNew, find?_eq_none_of_lt habove]
    have hlast : (m.insert p.1 p.2).entries = m.entries ++ [p] := insertList_append habove
    rw [List.foldl_cons, List.foldl_cons, hp, ih]
    rwa [hlast, List.append_assoc, List.singleton_append]

/-- Maps are compared as their lists of entries. -/
instance [LinearOrder V] : LinearOrder (OrdMap K V) :=
  LinearOrder.lift' (fun m => m.entries.map fun p => (toLex p : K ×ₗ V)) (by
    intro m n h
    refine ext ?_
    exact List.map_injective_iff.mpr toLex.injective h)

end OrdMap

end Yfs
