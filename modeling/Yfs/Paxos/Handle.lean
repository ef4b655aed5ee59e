/-
Yfs.Paxos.Handle — the shared cache of connections (handle.cc).

`handle_mgr` has one `hinfo` for a name, in `hmap`. A `handle` object is a
pointer to it, counted in `refcnt`. Whoever wants an `hinfo` gone marks it
(`del`): `delete_handle` of a name that is in use, or a `safebind` whose
`bind` failed. From then on every `handle` for the name is NULL, and so is
every `safebind` of those that exist, until the last one is given up.

`safebind` holds `cl_mutex` while it binds, for up to a second, and nobody
else looks at that mutex; so it is cut there, with `binding` for the mutex.

The functions return `none` when they use an `hinfo` that has been deleted.
`Mgr.Ok` says that this does not happen: an `hinfo` is deleted when it has no
reference, and from `hmap` at the same time.
-/
import Yfs.Lib.Refs
import Yfs.Paxos.Proposer

namespace Yfs.Paxos

open Function
open Yfs.Refs (Balanced)

/-! ## The manager -/

structure HInfo where
  m : NodeId
  /-- There is a client, and it is bound. -/
  cl : Bool
  refcnt : Nat
  del : Bool
  /-- A thread holds `cl_mutex` and binds. -/
  binding : Bool
  deriving DecidableEq, Repr

abbrev Ptr := Nat

structure Mgr where
  hmap : NodeId → Option Ptr
  heap : Ptr → Option HInfo
  /-- What `new` returns next. -/
  next : Ptr

namespace Mgr

def empty : Mgr := { hmap := fun _ => none, heap := fun _ => none, next := 0 }

def set (s : Mgr) (p : Ptr) (h : HInfo) : Mgr :=
  { s with heap := update s.heap p (some h) }

def make (s : Mgr) (m : NodeId) : Mgr :=
  { hmap := update s.hmap m (some s.next)
    heap := update s.heap s.next (some ⟨m, false, 1, false, false⟩)
    next := s.next + 1 }

def erase (s : Mgr) (m : NodeId) (p : Ptr) : Mgr :=
  { s with hmap := update s.hmap m none, heap := update s.heap p none }

def getHandle (s : Mgr) (m : NodeId) : Option (Option Ptr × Mgr) :=
  match s.hmap m with
  | none => some (some s.next, s.make m)
  | some p => (s.heap p).map fun h =>
    if h.del then (none, s) else (some p, s.set p { h with refcnt := h.refcnt + 1 })

def deleteHandleWo (s : Mgr) (m : NodeId) : Option Mgr :=
  match s.hmap m with
  | none => some s
  | some p => (s.heap p).map fun h =>
    if h.refcnt = 0 then s.erase m p else s.set p { h with del := true }

def doneHandle (s : Mgr) (p : Ptr) : Option Mgr :=
  (s.heap p).bind fun h =>
    let s' := s.set p { h with refcnt := h.refcnt - 1 }
    if h.refcnt - 1 = 0 ∧ h.del = true then s'.deleteHandleWo h.m else some s'

inductive Safebind where
  /-- somebody else holds `cl_mutex` -/
  | blocked
  | null
  | client
  | binds

def safebind (s : Mgr) (p : Ptr) : Option Safebind :=
  (s.heap p).map fun h =>
    if h.binding then .blocked else if h.del then .null else if h.cl then .client else .binds

def startBind (s : Mgr) (p : Ptr) : Option Mgr :=
  (s.heap p).map fun h => s.set p { h with binding := true }

def endBind (s : Mgr) (p : Ptr) (ok : Bool) : Option Mgr :=
  (s.heap p).map fun h => s.set p
    (if ok then { h with cl := true, binding := false }
     else { h with del := true, binding := false })

def marked (s : Mgr) (m : NodeId) : Bool :=
  ((s.hmap m).bind s.heap).any HInfo.del

/-! ## References -/

/-- `hmap` and the `hinfo`s there are belong together, and `live` are the
pointers to them that `handle` objects have. -/
structure Ok (s : Mgr) (live : List Ptr) : Prop where
  balanced : Balanced HInfo.refcnt s.heap live
  mapped : ∀ m p, s.hmap m = some p → ∃ h, s.heap p = some h ∧ h.m = m
  listed : ∀ p h, s.heap p = some h → s.hmap h.m = some p
  fresh : ∀ p, s.next ≤ p → s.heap p = none

def Keeps (s s' : Mgr) (live : List Ptr) : Prop :=
  ∀ m, ∀ p ∈ live, s.hmap m = some p → s'.hmap m = some p

theorem ok_empty : Ok empty [] := by
  refine ⟨fun p => rfl, ?_, ?_, fun _ _ => rfl⟩
  · nofun
  · nofun

section Rules

variable {s s' : Mgr} {live : List Ptr} {p q : Ptr} {m n : NodeId} {h h' : HInfo}

@[simp] theorem heap_set_self : (s.set p h).heap p = some h := update_self ..

theorem heap_set_of_ne (hne : q ≠ p) : (s.set p h).heap q = s.heap q :=
  update_of_ne hne _ _

@[simp] theorem hmap_make_self : (s.make m).hmap m = some s.next := update_self ..

theorem hmap_make_of_ne (hne : n ≠ m) : (s.make m).hmap n = s.hmap n :=
  update_of_ne hne _ _

@[simp] theorem heap_make_next : (s.make m).heap s.next = some ⟨m, false, 1, false, false⟩ :=
  update_self ..

theorem heap_make_of_ne (hne : q ≠ s.next) : (s.make m).heap q = s.heap q :=
  update_of_ne hne _ _

@[simp] theorem hmap_erase_self : (s.erase m p).hmap m = none := update_self ..

theorem hmap_erase_of_ne (hne : n ≠ m) : (s.erase m p).hmap n = s.hmap n :=
  update_of_ne hne _ _

@[simp] theorem heap_erase_self : (s.erase m p).heap p = none := update_self ..

theorem heap_erase_of_ne (hne : q ≠ p) : (s.erase m p).heap q = s.heap q :=
  update_of_ne hne _ _

theorem Ok.perm (hok : s.Ok live) {live' : List Ptr} (hperm : live.Perm live') : s.Ok live' :=
  ⟨hok.balanced.perm hperm, hok.mapped, hok.listed, hok.fresh⟩

theorem Ok.exists_of_mem (hok : s.Ok live) (hp : p ∈ live) : ∃ h, s.heap p = some h := by
  obtain ⟨h, hh, _⟩ := hok.balanced.exists_of_mem hp
  exact ⟨h, hh⟩

theorem Ok.ne_of_next_le (hok : s.Ok live) (hp : s.heap p = some h) (hq : s.next ≤ q) :
    q ≠ p := by
  rintro rfl
  cases hp.symm.trans (hok.fresh _ hq)

/-- An `hinfo` keeps its name; its references are the caller's business. -/
theorem Ok.set (hok : s.Ok live) (hp : s.heap p = some h) (hm : h'.m = h.m) {live' : List Ptr}
    (hbal : Balanced HInfo.refcnt (s.set p h').heap live') : (s.set p h').Ok live' := by
  refine ⟨hbal, ?_, ?_, ?_⟩
  · intro n q hq
    obtain ⟨g, hg, hn⟩ := hok.mapped n q hq
    rcases eq_or_ne q p with rfl | hne
    · cases hp.symm.trans hg
      exact ⟨h', heap_set_self, hm.trans hn⟩
    · exact ⟨g, (heap_set_of_ne hne).trans hg, hn⟩
  · intro q g hg
    rcases eq_or_ne q p with rfl | hne
    · obtain rfl : h' = g := by simpa using hg
      rw [hm]
      exact hok.listed _ h hp
    · exact hok.listed q g ((heap_set_of_ne hne).symm.trans hg)
  · intro q hq
    exact (heap_set_of_ne (hok.ne_of_next_le hp hq)).trans (hok.fresh q hq)

theorem Ok.change (hok : s.Ok live) (hp : s.heap p = some h) (hm : h'.m = h.m)
    (hcnt : h'.refcnt = h.refcnt) : (s.set p h').Ok live :=
  hok.set hp hm (hok.balanced.change hp hcnt)

theorem Ok.make (hok : s.Ok live) (hm : s.hmap m = none) : (s.make m).Ok (s.next :: live) := by
  have hfree : s.heap s.next = none := hok.fresh _ le_rfl
  refine ⟨hok.balanced.make hfree rfl, ?_, ?_, ?_⟩
  · intro n q hq
    rcases eq_or_ne n m with rfl | hne
    · obtain rfl : s.next = q := by simpa using hq
      exact ⟨_, heap_make_next, rfl⟩
    · obtain ⟨g, hg, hn⟩ := hok.mapped n q ((hmap_make_of_ne hne).symm.trans hq)
      exact ⟨g, (heap_make_of_ne (hok.ne_of_next_le hg le_rfl).symm).trans hg, hn⟩
  · intro q g hg
    rcases eq_or_ne q s.next with rfl | hne
    · cases heap_make_next.symm.trans hg
      exact hmap_make_self
    · have hold := hok.listed q g ((heap_make_of_ne hne).symm.trans hg)
      have hname : g.m ≠ m := by
        rintro rfl
        cases hm.symm.trans hold
      exact (hmap_make_of_ne hname).trans hold
  · intro q hq
    have hlt : s.next < q := Nat.lt_of_succ_le hq
    exact (heap_make_of_ne hlt.ne').trans (hok.fresh q hlt.le)

theorem Ok.erase (hok : s.Ok live) (hp : s.heap p = some h) (hcnt : h.refcnt = 0) :
    (s.erase h.m p).Ok live := by
  refine ⟨hok.balanced.free hp hcnt, ?_, ?_, ?_⟩
  · intro n q hq
    have hn : n ≠ h.m := by
      rintro rfl
      simp at hq
    obtain ⟨g, hg, hgn⟩ := hok.mapped n q ((hmap_erase_of_ne hn).symm.trans hq)
    have hne : q ≠ p := by
      rintro rfl
      cases hp.symm.trans hg
      exact hn hgn.symm
    exact ⟨g, (heap_erase_of_ne hne).trans hg, hgn⟩
  · intro q g hg
    have hne : q ≠ p := by
      rintro rfl
      simp at hg
    have hold := hok.listed q g ((heap_erase_of_ne hne).symm.trans hg)
    have hname : g.m ≠ h.m := by
      intro heq
      rw [heq, hok.listed p h hp] at hold
      exact hne (Option.some.inj hold).symm
    exact (hmap_erase_of_ne hname).trans hold
  · intro q hq
    exact (heap_erase_of_ne (hok.ne_of_next_le hp hq)).trans (hok.fresh q hq)

theorem Keeps.rfl : s.Keeps s live := fun _ _ _ hm => hm

theorem Keeps.set : s.Keeps (s.set p h) live := fun _ _ _ hm => hm

/-- What is erased is nobody's. -/
theorem Ok.keeps_erase (hok : s.Ok live) (hp : s.heap p = some h) (hcnt : h.refcnt = 0) :
    s.Keeps (s.erase h.m p) live := by
  intro n q hq hn
  have hne : n ≠ h.m := by
    rintro rfl
    cases hn.symm.trans (hok.listed p h hp)
    obtain ⟨g, hg, hpos⟩ := hok.balanced.exists_of_mem hq
    cases hp.symm.trans hg
    omega
  exact (hmap_erase_of_ne hne).trans hn

end Rules

/-! ## What each function does -/

section Specs

variable {s : Mgr} {live : List Ptr}

/-- A new reference to the `hinfo` of the name, unless this is marked. -/
theorem Ok.getHandle (hok : s.Ok live) (m : NodeId) :
    ∃ r s', s.getHandle m = some (r, s') ∧ s'.Ok (r.toList ++ live) ∧ s.Keeps s' live ∧
      (∀ p ∈ r, s'.hmap m = some p) ∧ (r = none → s.marked m = true) := by
  cases hm : s.hmap m with
  | none =>
    refine ⟨some s.next, s.make m, by simp [Mgr.getHandle, hm], hok.make hm, ?_, ?_, by simp⟩
    · intro n q _ hn
      have hne : n ≠ m := by
        rintro rfl
        cases hm.symm.trans hn
      exact (hmap_make_of_ne hne).trans hn
    · rintro q ⟨⟩
      exact hmap_make_self
  | some p =>
    obtain ⟨h, hp, rfl⟩ := hok.mapped m p hm
    cases hdel : h.del with
    | true =>
      exact ⟨none, s, by simp [Mgr.getHandle, hm, hp, hdel], hok, Keeps.rfl, by simp,
        fun _ => by simp [marked, hm, hp, hdel]⟩
    | false =>
      refine ⟨some p, s.set p { h with refcnt := h.refcnt + 1 },
        by simp [Mgr.getHandle, hm, hp, hdel], ?_, Keeps.set, ?_, by simp⟩
      · refine hok.set hp ?_ (hok.balanced.take hp ?_) <;> rfl
      · rintro q ⟨⟩
        exact hm

theorem Ok.deleteHandleWo (hok : s.Ok live) (m : NodeId) :
    ∃ s', s.deleteHandleWo m = some s' ∧ s'.Ok live ∧ s.Keeps s' live := by
  cases hm : s.hmap m with
  | none => exact ⟨s, by simp [Mgr.deleteHandleWo, hm], hok, Keeps.rfl⟩
  | some p =>
    obtain ⟨h, hp, rfl⟩ := hok.mapped m p hm
    by_cases hcnt : h.refcnt = 0
    · exact ⟨s.erase h.m p, by simp [Mgr.deleteHandleWo, hm, hp, hcnt], hok.erase hp hcnt,
        hok.keeps_erase hp hcnt⟩
    · exact ⟨s.set p { h with del := true }, by simp [Mgr.deleteHandleWo, hm, hp, hcnt],
        hok.change hp rfl rfl, Keeps.set⟩

theorem Ok.doneHandle {p : Ptr} (hok : s.Ok (p :: live)) :
    ∃ s', s.doneHandle p = some s' ∧ s'.Ok live ∧ s.Keeps s' live := by
  obtain ⟨h, hp⟩ := hok.exists_of_mem List.mem_cons_self
  have hdrop : (s.set p { h with refcnt := h.refcnt - 1 }).Ok live := by
    refine hok.set hp ?_ (hok.balanced.drop hp ?_) <;> rfl
  by_cases hlast : h.refcnt - 1 = 0 ∧ h.del = true
  · obtain ⟨s', hs', hok', hkeeps⟩ := hdrop.deleteHandleWo h.m
    exact ⟨s', by simpa only [Mgr.doneHandle, hp, Option.bind_some, if_pos hlast], hok', hkeeps⟩
  · exact ⟨_, by simp only [Mgr.doneHandle, hp, Option.bind_some, if_neg hlast], hdrop, Keeps.set⟩

theorem Ok.startBind {p : Ptr} (hok : s.Ok live) (hp : p ∈ live) :
    ∃ s', s.startBind p = some s' ∧ s'.Ok live ∧ s.Keeps s' live := by
  obtain ⟨h, hp⟩ := hok.exists_of_mem hp
  exact ⟨s.set p { h with binding := true }, by simp [Mgr.startBind, hp],
    hok.change hp rfl rfl, Keeps.set⟩

theorem Ok.endBind {p : Ptr} (hok : s.Ok live) (hp : p ∈ live) (ok : Bool) :
    ∃ s', s.endBind p ok = some s' ∧ s'.Ok live ∧ s.Keeps s' live := by
  obtain ⟨h, hp⟩ := hok.exists_of_mem hp
  refine ⟨_, congrArg (Option.map _) hp, hok.change hp ?_ ?_, Keeps.set⟩ <;> cases ok <;> rfl

/-- The `hinfo` of a live handle is there, and `safebind` of an unmarked name
is not NULL. -/
theorem Ok.safebind {p : Ptr} {m : NodeId} (hok : s.Ok live) (hp : p ∈ live)
    (hm : s.hmap m = some p) :
    ∃ b, s.safebind p = some b ∧ (b = .null → s.marked m = true) := by
  obtain ⟨h, hp⟩ := hok.exists_of_mem hp
  refine ⟨_, congrArg (Option.map _) hp, ?_⟩
  intro hb
  have hdel : h.del = true := by
    by_contra hdel
    simp only [hdel] at hb
    split at hb
    · cases hb
    · simp only [if_false] at hb
      split at hb <;> cases hb
  simp [marked, hm, hp, hdel]

end Specs

end Mgr

end Yfs.Paxos
