/-
Yfs.Config.Views — views as the config layer writes and reads them
(config.cc: `members`, `value`, `add`, `remove_wo`, `heartbeater`).

A view is a list of node names; the value Paxos decides is the text of it.
`value` ends every name with a blank, `members` reads white-space separated
words. The value of instance 1 is the first node's name alone, which reads
as the same one-element list.
-/
import Yfs.Paxos.Proposer

namespace Yfs.Config

open Yfs.Paxos (NodeId Value isspace IsName)

def members (value : Value) : List NodeId := Words.words isspace value

def value (m : List NodeId) : Value := m.flatMap fun n => n ++ [' ']

theorem isName_of_mem {v : Value} {m : NodeId} (h : m ∈ members v) : IsName m :=
  Words.mem_words h

theorem members_value {m : List NodeId} (h : ∀ n ∈ m, IsName n) : members (value m) = m :=
  Words.words_flatMap rfl h

theorem members_name {m : NodeId} (h : IsName m) : members m = [m] := Words.words_word h

theorem value_ne_nil {m : List NodeId} (h : m ≠ []) : value m ≠ [] := by
  cases m with
  | nil => exact absurd rfl h
  | cons n m => simp [value]

/-! ## Changes of a view -/

/-- What somebody has decided to do about the view `vid`: `joinreq` has seen
that `m` is not in it, or the heartbeater that `m` does not answer. -/
inductive Change where
  | add (m : NodeId) (vid : Nat)
  | remove (m : NodeId) (vid : Nat)
  deriving DecidableEq, Repr

def Change.vid : Change → Nat
  | .add _ vid => vid
  | .remove _ vid => vid

/-- The members `config::add` and `config::remove_wo` propose. -/
def Change.apply (mems : List NodeId) : Change → List NodeId
  | .add m _ => mems ++ [m]
  | .remove m _ => mems.filter fun n => decide (n ≠ m)

/-- The smallest name of `me` and the members. -/
def smallest (me : NodeId) (mems : List NodeId) : NodeId :=
  mems.foldl (fun m n => if m > n then n else m) me

/-- The nodes that the heartbeater of `me` pings: the smallest member pings
the others, the others ping the smallest. -/
def pinged (me : NodeId) (mems : List NodeId) : List NodeId :=
  if me ∈ mems then
    if smallest me mems = me then mems.filter fun n => decide (n ≠ me) else [smallest me mems]
  else []

theorem smallest_mem (me : NodeId) (mems : List NodeId) :
    smallest me mems = me ∨ smallest me mems ∈ mems := by
  unfold smallest
  induction mems generalizing me with
  | nil => exact .inl rfl
  | cons n mems ih =>
    simp only [List.foldl_cons]
    rcases ih (if me > n then n else me) with heq | hmem
    · rw [heq]
      split
      · exact .inr List.mem_cons_self
      · exact .inl rfl
    · exact .inr (List.mem_cons_of_mem _ hmem)

/-- Whoever is pinged is another member, and so is who pings. -/
theorem mem_pinged {me m : NodeId} {mems : List NodeId} (h : m ∈ pinged me mems) :
    m ∈ mems ∧ m ≠ me ∧ me ∈ mems := by
  unfold pinged at h
  split at h
  · rename_i hme
    split at h
    · obtain ⟨hmem, hne⟩ := List.mem_filter.mp h
      exact ⟨hmem, of_decide_eq_true hne, hme⟩
    · rename_i hne
      obtain rfl := List.mem_singleton.mp h
      rcases smallest_mem me mems with heq | hmem
      · exact absurd heq hne
      · exact ⟨hmem, hne, hme⟩
  · cases h

def Change.Due (me : NodeId) (mems : List NodeId) : Change → Prop
  | .add m _ => m ∉ mems
  | .remove m _ => m ∈ pinged me mems

instance (me : NodeId) (mems : List NodeId) (c : Change) : Decidable (c.Due me mems) := by
  rcases c <;> unfold Change.Due <;> infer_instance

/-! ## One view after another -/

/-- The next view: one new node at the end, or one node less. -/
def NextView (old new : List NodeId) : Prop :=
  (∃ m, m ∉ old ∧ new = old ++ [m]) ∨ ∃ m ∈ old, new = old.erase m

/-- A change that is due makes a next view, and does not empty it. -/
theorem Change.nextView {me : NodeId} {mems : List NodeId} {c : Change} (hnd : mems.Nodup)
    (h : c.Due me mems) :
    NextView mems (c.apply mems) ∧ (c.apply mems).Nodup ∧ c.apply mems ≠ [] := by
  cases c with
  | add m vid =>
    replace h : m ∉ mems := h
    refine ⟨.inl ⟨m, h, rfl⟩, ?_, by simp [Change.apply]⟩
    show (mems ++ [m]).Nodup
    rw [List.nodup_append]
    simp only [List.mem_singleton, List.nodup_cons, List.not_mem_nil, not_false_eq_true,
      List.nodup_nil, and_true, true_and]
    refine ⟨hnd, ?_⟩
    rintro a ha b rfl rfl
    exact h ha
  | remove m vid =>
    obtain ⟨hm, hne, hme⟩ := mem_pinged (show m ∈ pinged me mems from h)
    have herase : Change.apply mems (.remove m vid) = mems.erase m := by
      rw [hnd.erase_eq_filter]
      refine List.filter_congr ?_
      intro n _
      by_cases hn : n = m <;> simp [hn]
    rw [herase]
    refine ⟨.inr ⟨m, hm, rfl⟩, hnd.erase m, ?_⟩
    exact List.ne_nil_of_mem ((List.mem_erase_of_ne hne.symm).mpr hme)

theorem Change.isName_apply {mems : List NodeId} {c : Change} (hmems : ∀ n ∈ mems, IsName n)
    (hnew : ∀ m vid, c = .add m vid → IsName m) : ∀ n ∈ c.apply mems, IsName n := by
  intro n hn
  cases c with
  | add m vid =>
    rcases List.mem_append.mp hn with hn | hn
    · exact hmems n hn
    · rw [List.mem_singleton.mp hn]
      exact hnew m vid rfl
  | remove m vid => exact hmems n (List.mem_filter.mp hn).1

end Yfs.Config
