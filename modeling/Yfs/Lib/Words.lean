/-
Yfs.Lib.Words — the words of a text.

A word is a longest run of characters that are not separators; `words`
lists them in order, as reading a stream word by word does. Which
characters separate is a parameter.

Words are never empty and hold no separator (`mem_words`), and any list of
such words, each followed by a separator, is read back as it was written
(`words_flatMap`).

Texts are compared character by character; that this is equality is given a
name here, for those who look for one among others.
-/
import Mathlib

namespace Yfs.Words

instance instLawfulBEqText : LawfulBEq (List Char) := inferInstance

variable {α : Type*} (sep : α → Bool)

def IsWord (w : List α) : Prop := w ≠ [] ∧ ∀ c ∈ w, sep c = false

instance (w : List α) : Decidable (IsWord sep w) := by
  unfold IsWord
  infer_instance

def wordsFrom (cur : List α) : List α → List (List α)
  | [] => if cur.isEmpty then [] else [cur]
  | c :: cs =>
    if sep c then
      if cur.isEmpty then wordsFrom [] cs else cur :: wordsFrom [] cs
    else wordsFrom (cur ++ [c]) cs

def words (text : List α) : List (List α) := wordsFrom sep [] text

variable {sep}

theorem mem_wordsFrom {cur text w : List α} (hcur : ∀ c ∈ cur, sep c = false)
    (h : w ∈ wordsFrom sep cur text) : IsWord sep w := by
  induction text generalizing cur with
  | nil =>
    by_cases hc : cur = []
    · simp [wordsFrom, hc] at h
    · obtain rfl : w = cur := by simpa [wordsFrom, hc] using h
      exact ⟨hc, hcur⟩
  | cons c cs ih =>
    have hnil : ∀ x ∈ ([] : List α), sep x = false := by simp
    by_cases hs : sep c = true
    · by_cases hc : cur = []
      · exact ih hnil (by simpa [wordsFrom, hs, hc] using h)
      · replace h : w = cur ∨ w ∈ wordsFrom sep [] cs := by simpa [wordsFrom, hs, hc] using h
        rcases h with rfl | h
        · exact ⟨hc, hcur⟩
        · exact ih hnil h
    · replace h : w ∈ wordsFrom sep (cur ++ [c]) cs := by simpa [wordsFrom, hs] using h
      refine ih ?_ h
      intro x hx
      rcases List.mem_append.mp hx with hx | hx
      · exact hcur x hx
      · rw [List.mem_singleton.mp hx]
        simpa using hs

/-- Words are words. -/
theorem mem_words {text w : List α} (h : w ∈ words sep text) : IsWord sep w :=
  mem_wordsFrom (by simp) h

/-- The rest of a word is read before anything else. -/
theorem wordsFrom_append {cur w rest : List α} (hw : ∀ c ∈ w, sep c = false) :
    wordsFrom sep cur (w ++ rest) = wordsFrom sep (cur ++ w) rest := by
  induction w generalizing cur with
  | nil => simp
  | cons c w ih =>
    have hc : sep c = false := hw c List.mem_cons_self
    have hrest : ∀ x ∈ w, sep x = false := fun x hx => hw x (List.mem_cons_of_mem _ hx)
    simp [wordsFrom, hc, ih hrest]

/-- A word alone. -/
theorem words_word {w : List α} (h : IsWord sep w) : words sep w = [w] := by
  have hread : wordsFrom sep [] (w ++ []) = wordsFrom sep ([] ++ w) [] := wordsFrom_append h.2
  simpa [words, wordsFrom, h.1] using hread

/-- A word and a separator. -/
theorem words_append_sep {w rest : List α} {c : α} (h : IsWord sep w) (hc : sep c = true) :
    words sep (w ++ c :: rest) = w :: words sep rest := by
  have hread : wordsFrom sep [] (w ++ c :: rest) = wordsFrom sep ([] ++ w) (c :: rest) :=
    wordsFrom_append h.2
  simpa [words, wordsFrom, h.1, hc] using hread

/-- Reading is left inverse to writing. -/
theorem words_flatMap {ws : List (List α)} {c : α} (hc : sep c = true)
    (h : ∀ w ∈ ws, IsWord sep w) : words sep (ws.flatMap fun w => w ++ [c]) = ws := by
  induction ws with
  | nil => rfl
  | cons w ws ih =>
    have hw : IsWord sep w := h w List.mem_cons_self
    have hrest := ih fun x hx => h x (List.mem_cons_of_mem _ hx)
    simp only [List.flatMap_cons, List.append_assoc, List.cons_append, List.nil_append]
    rw [words_append_sep hw hc, hrest]

end Yfs.Words
