/-
Yfs.Paxos.HandleTable — the table of connections under any use of it
(handle.cc).

Threads make `handle` objects, call `safebind` on them, destroy them, and ask
for names to be deleted, in any order. A `safebind` is cut while it binds; the
object cannot be destroyed before it returns.

What a function of the manager may do is said once (`Change`): nothing, a new
`hinfo`, a change of one that keeps it marked, or the removal of one without
references. Marked `hinfo`s are in use (`MarkedUsed`), and a removed one was
not: both are read off the change, whichever function made it.
`handle_table_inv` puts this together with the balance of references of
`Mgr.Ok`.
-/
import Yfs.Lib.Run
import Yfs.Paxos.Handle

namespace Yfs.Paxos

namespace Mgr

def MarkedUsed (s : Mgr) : Prop :=
  ∀ p h, s.heap p = some h → h.del = true → 0 < h.refcnt

/-- What a call can do to the manager; `given` is the pointer whose reference
the caller gives up. -/
inductive Change (given : Option Ptr) (s : Mgr) : Mgr → Prop
  | same : Change given s s
  | make {m : NodeId} : s.hmap m = none → Change given s (s.make m)
  | set {p : Ptr} {h h' : HInfo} : s.heap p = some h → (h.del = true → h'.del = true) →
      (h'.del = true → 0 < h'.refcnt) → Change given s (s.set p h')
  | erase {p : Ptr} {h : HInfo} : s.heap p = some h →
      (h.refcnt = 0 ∨ h.refcnt = 1 ∧ given = some p) → Change given s (s.erase h.m p)

section Changes

variable {s s' : Mgr} {live : List Ptr} {given : Option Ptr} {p : Ptr} {h h' : HInfo}

theorem Change.markedUsed (hc : Change given s s') (hs : s.MarkedUsed) : s'.MarkedUsed := by
  intro q g hq hdel
  cases hc with
  | same => exact hs q g hq hdel
  | make =>
    rcases eq_or_ne q s.next with rfl | hne
    · cases heap_make_next.symm.trans hq
      cases hdel
    · exact hs q g ((heap_make_of_ne hne).symm.trans hq) hdel
  | @set p _ h' _ _ hused =>
    rcases eq_or_ne q p with rfl | hne
    · cases heap_set_self.symm.trans hq
      exact hused hdel
    · exact hs q g ((heap_set_of_ne hne).symm.trans hq) hdel
  | @erase p _ _ _ =>
    rcases eq_or_ne q p with rfl | hne
    · cases heap_erase_self.symm.trans hq
    · exact hs q g ((heap_erase_of_ne hne).symm.trans hq) hdel

/-- What there is stays, with its mark, or is removed: then it has no reference
but the one given up, and its name is free. -/
theorem Change.stays_or_removed (hc : Change given s s') (hok : s.Ok live)
    (hp : s.heap p = some h) :
    (∃ h', s'.heap p = some h' ∧ (h.del = true → h'.del = true)) ∨
      s'.heap p = none ∧ (h.refcnt = 0 ∨ h.refcnt = 1 ∧ given = some p) ∧
        s'.hmap h.m = none := by
  cases hc with
  | same => exact .inl ⟨h, hp, id⟩
  | make =>
    have hne := (hok.ne_of_next_le hp le_rfl).symm
    exact .inl ⟨h, (heap_make_of_ne hne).trans hp, id⟩
  | @set q g g' hq hkeep _ =>
    rcases eq_or_ne p q with rfl | hne
    · cases hp.symm.trans hq
      exact .inl ⟨g', heap_set_self, hkeep⟩
    · exact .inl ⟨h, (heap_set_of_ne hne).trans hp, id⟩
  | @erase q g hq hcnt =>
    rcases eq_or_ne p q with rfl | hne
    · cases hp.symm.trans hq
      exact .inr ⟨heap_erase_self, hcnt, hmap_erase_self⟩
    · exact .inl ⟨h, (heap_erase_of_ne hne).trans hp, id⟩

/-! ## What each function changes -/

theorem change_getHandle {m : NodeId} {r : Option Ptr} (h : s.getHandle m = some (r, s')) :
    Change none s s' := by
  unfold Mgr.getHandle at h
  split at h
  · rename_i hm
    cases h
    exact .make hm
  · obtain ⟨g, hg, heq⟩ := Option.map_eq_some_iff.mp h
    split at heq
    · obtain ⟨-, rfl⟩ := Prod.mk.inj heq
      exact .same
    · obtain ⟨-, rfl⟩ := Prod.mk.inj heq
      exact .set hg id fun _ => Nat.succ_pos _

theorem Ok.change_deleteHandleWo (hok : s.Ok live) {m : NodeId}
    (h : s.deleteHandleWo m = some s') : Change none s s' := by
  unfold Mgr.deleteHandleWo at h
  split at h
  · cases h
    exact .same
  · rename_i p hm
    obtain ⟨g, hg, rfl⟩ := Option.map_eq_some_iff.mp h
    split
    · rename_i hcnt
      obtain ⟨g', hg', rfl⟩ := hok.mapped m p hm
      cases hg.symm.trans hg'
      exact .erase hg (.inl hcnt)
    · rename_i hcnt
      exact .set hg (fun _ => rfl) fun _ => Nat.pos_of_ne_zero hcnt

theorem erase_set {m : NodeId} : (s.set p h).erase m p = s.erase m p := by
  simp only [Mgr.erase, Mgr.set, Function.update_idem]

/-- The count goes down; what is marked and has none left is removed. -/
theorem Ok.change_doneHandle (hok : s.Ok live) (hlive : p ∈ live)
    (h : s.doneHandle p = some s') : Change (some p) s s' := by
  obtain ⟨g, hg, hdone⟩ := Option.bind_eq_some_iff.mp h
  obtain ⟨g', hg', hpos⟩ := hok.balanced.exists_of_mem hlive
  cases hg.symm.trans hg'
  dsimp only at hdone
  split at hdone
  · rename_i hlast
    have hmap : (s.set p { g with refcnt := g.refcnt - 1 }).hmap g.m = some p :=
      hok.listed p g hg
    rw [Mgr.deleteHandleWo, hmap] at hdone
    simp only [heap_set_self, Option.map_some, hlast.1, if_true, erase_set] at hdone
    cases hdone
    exact .erase hg (.inr ⟨by omega, rfl⟩)
  · rename_i hmore
    cases hdone
    exact .set hg id fun hdel => Nat.pos_of_ne_zero fun hzero => hmore ⟨hzero, hdel⟩

theorem change_startBind (hs : s.MarkedUsed) (h : s.startBind p = some s') :
    Change none s s' := by
  obtain ⟨g, hg, rfl⟩ := Option.map_eq_some_iff.mp h
  exact .set hg id (hs p g hg)

theorem Ok.change_endBind (hok : s.Ok live) (hlive : p ∈ live) {ok : Bool}
    (h : s.endBind p ok = some s') : Change none s s' := by
  obtain ⟨g, hg, rfl⟩ := Option.map_eq_some_iff.mp h
  obtain ⟨g', hg', hpos⟩ := hok.balanced.exists_of_mem hlive
  cases hg.symm.trans hg'
  cases ok with
  | true => exact .set hg id fun _ => hpos
  | false => exact .set hg (fun _ => rfl) fun _ => hpos

end Changes

end Mgr

/-! ## The table -/

namespace HandleTable

open Yfs.Run

/-- A `handle` object; `binding`: its `safebind` holds `cl_mutex` and binds. -/
structure Handle where
  h : Option Ptr
  binding : Bool
  deriving DecidableEq, Repr

/-- The manager and the objects there are; `freed`: an `hinfo` was used that
had been deleted. -/
structure Table where
  mgr : Mgr
  handles : List Handle
  freed : Bool

inductive Event where
  /-- `handle h(m)`. -/
  | construct (m : NodeId)
  /-- `safebind`, to its end or to `bind`. -/
  | safebind (i : Nat)
  /-- `bind` returns, and `safebind`. -/
  | bound (i : Nat) (ok : Bool)
  | destroy (i : Nat)
  | deleteHandle (m : NodeId)
  deriving DecidableEq, Repr

def init : Table := ⟨.empty, [], false⟩

def Table.lost (t : Table) : Table := { t with freed := true }

def step (t : Table) : Event → Option Table
  | .construct m => some ((t.mgr.getHandle m).elim t.lost fun g =>
      { t with mgr := g.2, handles := ⟨g.1, false⟩ :: t.handles })
  | .safebind i =>
    match t.handles[i]? with
    | none => none
    | some ⟨none, _⟩ => some t
    | some ⟨some p, _⟩ =>
      match t.mgr.safebind p with
      | none => some t.lost
      | some .blocked => none
      | some .null => some t
      | some .client => some t
      | some .binds => some ((t.mgr.startBind p).elim t.lost fun mgr =>
          { t with mgr := mgr, handles := t.handles.set i ⟨some p, true⟩ })
  | .bound i ok =>
    match t.handles[i]? with
    | some ⟨some p, true⟩ => some ((t.mgr.endBind p ok).elim t.lost fun mgr =>
        { t with mgr := mgr, handles := t.handles.set i ⟨some p, false⟩ })
    | _ => none
  | .destroy i =>
    match t.handles[i]? with
    | some ⟨none, false⟩ => some { t with handles := t.handles.eraseIdx i }
    | some ⟨some p, false⟩ => some ((t.mgr.doneHandle p).elim t.lost fun mgr =>
        { t with mgr := mgr, handles := t.handles.eraseIdx i })
    | _ => none
  | .deleteHandle m => some ((t.mgr.deleteHandleWo m).elim t.lost fun mgr => { t with mgr := mgr })

def Table.live (t : Table) : List Ptr := t.handles.filterMap Handle.h

/-- The pointer of the object that the step destroys. -/
def given (t : Table) : Event → Option Ptr
  | .destroy i => (t.handles[i]?).bind Handle.h
  | _ => none

structure Inv (t : Table) : Prop where
  ok : t.mgr.Ok t.live
  marked : t.mgr.MarkedUsed
  freed : t.freed = false

theorem inv_init : Inv init := ⟨Mgr.ok_empty, nofun, rfl⟩

section Lists

variable {l : List Handle} {i : Nat} {a : Handle}

/-- One object's pointer, and the others'. -/
theorem perm_live (h : l[i]? = some a) :
    (l.filterMap Handle.h).Perm (a.h.toList ++ (l.eraseIdx i).filterMap Handle.h) := by
  obtain ⟨hlt, hget⟩ := List.getElem?_eq_some_iff.mp h
  have hperm := (List.getElem_cons_eraseIdx_perm hlt).filterMap Handle.h
  rw [hget] at hperm
  refine hperm.symm.trans ?_
  cases ha : a.h with
  | none => simp [ha]
  | some p => simp [ha]

theorem mem_live {p : Ptr} {b : Bool} (h : l[i]? = some ⟨some p, b⟩) :
    p ∈ l.filterMap Handle.h :=
  List.mem_filterMap.mpr ⟨_, List.mem_of_getElem? h, rfl⟩

/-- Setting the flag of an object leaves the pointers. -/
theorem live_set {p : Ptr} {b : Bool} (h : l[i]? = some ⟨some p, b⟩) (c : Bool) :
    (l.set i ⟨some p, c⟩).filterMap Handle.h = l.filterMap Handle.h := by
  induction l generalizing i with
  | nil => rfl
  | cons x l ih =>
    cases i with
    | zero =>
      cases h
      rfl
    | succ i => simp only [List.set_cons_succ, List.filterMap_cons, ih h]

end Lists

section Steps

variable {t t' : Table} {i : Nat}

/-- The other manager and objects of a step: references in balance and an
allowed change are enough. -/
theorem Inv.changed {given : Option Ptr} {mgr : Mgr} {handles : List Handle} (hi : Inv t)
    (hok : mgr.Ok (handles.filterMap Handle.h)) (hc : Mgr.Change given t.mgr mgr) :
    Inv { t with mgr := mgr, handles := handles } ∧ Mgr.Change given t.mgr mgr :=
  ⟨⟨hok, hc.markedUsed hi.marked, hi.freed⟩, hc⟩

theorem Inv.construct {m : NodeId} (hi : Inv t) (hs : step t (.construct m) = some t') :
    Inv t' ∧ Mgr.Change none t.mgr t'.mgr := by
  cases hs
  obtain ⟨r, mgr, hget, hok, -⟩ := hi.ok.getHandle m
  simp only [Option.elim_some, hget]
  refine hi.changed ?_ (Mgr.change_getHandle hget)
  cases r with
  | none => exact hok
  | some p => exact hok

theorem Inv.deleteHandle {m : NodeId} (hi : Inv t)
    (hs : step t (.deleteHandle m) = some t') : Inv t' ∧ Mgr.Change none t.mgr t'.mgr := by
  cases hs
  obtain ⟨mgr, hdel, hok, -⟩ := hi.ok.deleteHandleWo m
  simp only [Option.elim_some, hdel]
  exact hi.changed hok (hi.ok.change_deleteHandleWo hdel)

theorem Inv.safebind (hi : Inv t) (hs : step t (.safebind i) = some t') :
    Inv t' ∧ Mgr.Change none t.mgr t'.mgr := by
  simp only [HandleTable.step] at hs
  split at hs
  · cases hs
  · cases hs
    exact ⟨hi, .same⟩
  · rename_i p b hget
    obtain ⟨g, hg⟩ := hi.ok.exists_of_mem (mem_live hget)
    split at hs
    · rename_i hnone
      simp [Mgr.safebind, hg] at hnone
    · cases hs
    · cases hs
      exact ⟨hi, .same⟩
    · cases hs
      exact ⟨hi, .same⟩
    · cases hs
      obtain ⟨mgr, hbind, hok, -⟩ := hi.ok.startBind (mem_live hget)
      simp only [Option.elim_some, hbind]
      refine hi.changed ?_ (Mgr.change_startBind hi.marked hbind)
      rw [live_set hget]
      exact hok

theorem Inv.bound {ok : Bool} (hi : Inv t) (hs : step t (.bound i ok) = some t') :
    Inv t' ∧ Mgr.Change none t.mgr t'.mgr := by
  simp only [HandleTable.step] at hs
  split at hs
  · rename_i p hget
    cases hs
    obtain ⟨mgr, hbind, hok, -⟩ := hi.ok.endBind (mem_live hget) ok
    simp only [Option.elim_some, hbind]
    refine hi.changed ?_ (hi.ok.change_endBind (mem_live hget) hbind)
    rw [live_set hget]
    exact hok
  · cases hs

theorem Inv.destroy (hi : Inv t) (hs : step t (.destroy i) = some t') :
    Inv t' ∧ Mgr.Change (given t (.destroy i)) t.mgr t'.mgr := by
  simp only [HandleTable.step] at hs
  split at hs
  · rename_i hget
    cases hs
    exact hi.changed (hi.ok.perm (perm_live hget)) .same
  · rename_i p hget
    cases hs
    obtain ⟨mgr, hput, hok, -⟩ := (hi.ok.perm (perm_live hget)).doneHandle
    simp only [Option.elim_some, hput]
    refine hi.changed hok ?_
    have hgiven : given t (.destroy i) = some p := by simp [given, hget]
    rw [hgiven]
    exact hi.ok.change_doneHandle (mem_live hget) hput
  · cases hs

/-- One step: the invariant, and a change that the step is entitled to. -/
theorem Inv.step {e : Event} (hi : Inv t) (hs : step t e = some t') :
    Inv t' ∧ Mgr.Change (given t e) t.mgr t'.mgr := by
  cases e with
  | construct m => exact hi.construct hs
  | safebind i => exact hi.safebind hs
  | bound i ok => exact hi.bound hs
  | destroy i => exact hi.destroy hs
  | deleteHandle m => exact hi.deleteHandle hs

end Steps

theorem inv_of_reach {t : Table} (h : Reach step (fun _ _ => True) init t) : Inv t :=
  h.invariant Inv inv_init fun _ _ _ hi _ hs => (hi.step hs).1

/-- An unused name: its `hinfo`, if there is one, has no reference, so it is not
marked, and a new object gets it. -/
theorem exists_construct {t : Table} (hi : Inv t) {m : NodeId}
    (hm : ∀ p ∈ t.live, t.mgr.hmap m ≠ some p) :
    ∃ t' p g, step t (.construct m) = some t' ∧ t'.handles = ⟨some p, false⟩ :: t.handles ∧
      t'.mgr.heap p = some g ∧ g.m = m ∧ g.del = false ∧ g.refcnt = 1 := by
  cases hp : t.mgr.hmap m with
  | none =>
    refine ⟨⟨t.mgr.make m, ⟨some t.mgr.next, false⟩ :: t.handles, t.freed⟩, t.mgr.next,
      ⟨m, false, 1, false, false⟩, ?_, rfl, Mgr.heap_make_next, rfl, rfl, rfl⟩
    simp [step, Mgr.getHandle, hp]
  | some p =>
    obtain ⟨g, hg, rfl⟩ := hi.ok.mapped m p hp
    have hunused : g.refcnt = 0 := by
      rw [hi.ok.balanced.count_eq hg]
      exact List.count_eq_zero.mpr fun hmem => hm p hmem hp
    have hdel : g.del = false := by
      by_contra hdel
      have hpos := hi.marked p g hg (by simpa using hdel)
      omega
    refine ⟨⟨t.mgr.set p { g with refcnt := g.refcnt + 1 }, ⟨some p, false⟩ :: t.handles, t.freed⟩,
      p, { g with refcnt := g.refcnt + 1 }, ?_, rfl, Mgr.heap_set_self, rfl, hdel, ?_⟩
    · simp [step, Mgr.getHandle, hp, hg, hdel]
    · show g.refcnt + 1 = 1
      omega

/-- **Handle table**: under any interleaving no deleted `hinfo` is used; each
count is the number of objects that point there, and what is marked has one;
every pointer of an object is to an `hinfo` in the table. A step removes an
`hinfo` only with no reference left but the one it gives up. Once nobody points
to a marked `hinfo` it is out of the table, and a name nobody uses gives a new
object an unmarked `hinfo` of its own. -/
theorem handle_table_inv {t : Table} (h : Reach step (fun _ _ => True) init t) :
    t.freed = false ∧
    (∀ p g, t.mgr.heap p = some g → g.refcnt = t.live.count p ∧ (g.del = true → 0 < g.refcnt)) ∧
    (∀ p ∈ t.live, ∃ g, t.mgr.heap p = some g ∧ t.mgr.hmap g.m = some p) ∧
    (∀ e t', step t e = some t' → ∀ p g, t.mgr.heap p = some g →
      (t'.mgr.heap p = none →
        (g.refcnt = 0 ∨ g.refcnt = 1 ∧ given t e = some p) ∧ p ∉ t'.live) ∧
      (g.del = true → p ∉ t'.live → t'.mgr.heap p = none ∧ t'.mgr.hmap g.m = none)) ∧
    ∀ m, (∀ p ∈ t.live, t.mgr.hmap m ≠ some p) →
      ∃ t' p g, step t (.construct m) = some t' ∧ t'.handles = ⟨some p, false⟩ :: t.handles ∧
        t'.mgr.heap p = some g ∧ g.m = m ∧ g.del = false ∧ g.refcnt = 1 := by
  have hi := inv_of_reach h
  refine ⟨hi.freed, ?_, ?_, ?_, fun m hm => exists_construct hi hm⟩
  · exact fun p g hg => ⟨hi.ok.balanced.count_eq hg, hi.marked p g hg⟩
  · intro p hp
    obtain ⟨g, hg⟩ := hi.ok.exists_of_mem hp
    exact ⟨g, hg, hi.ok.listed p g hg⟩
  · intro e t' hs p g hg
    obtain ⟨hi', hc⟩ := hi.step hs
    rcases hc.stays_or_removed hi.ok hg with ⟨g', hg', hkeep⟩ | ⟨hgone, hcnt, hfree⟩
    · refine ⟨fun hgone => absurd (hgone.symm.trans hg') (by simp), fun hdel hp => ?_⟩
      -- still there it is marked, and so has a reference
      have hpos := hi'.marked p g' hg' (hkeep hdel)
      rw [hi'.ok.balanced.count_eq hg'] at hpos
      exact absurd (List.count_pos_iff.mp hpos) hp
    · refine ⟨fun _ => ⟨hcnt, fun hp => ?_⟩, fun _ _ => ⟨hgone, hfree⟩⟩
      obtain ⟨g', hg'⟩ := hi'.ok.exists_of_mem hp
      cases hgone.symm.trans hg'

/-- Two objects for one name; the `safebind` of one fails, and it is destroyed. -/
theorem handle_table_inv_marked :
    ∃ t, Reach step (fun _ _ => True) init t ∧
      t.mgr.heap 0 = some ⟨['a'], false, 1, true, false⟩ ∧ t.live.count 0 = 1 := by
  exact (exists_reach
    [.construct ['a'], .construct ['a'], .safebind 0, .bound 0 false, .destroy 0] (by decide)).imp
    fun _ ⟨hreach, hheap⟩ => ⟨hreach, hheap, ((handle_table_inv hreach).2.1 0 _ hheap).1.symm⟩

end HandleTable

end Yfs.Paxos
