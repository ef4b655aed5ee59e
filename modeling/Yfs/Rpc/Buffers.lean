/-
Yfs.Rpc.Buffers — the reply lists with their buffers (rpc/rpc.cc:
`rpcs::checkduplicate_and_update`, `rpcs::add_reply`).

`reply_t` holds a pointer. An entry that leaves a list takes its buffer with
it (`free(lit->buf)`), and a DONE answer is the pointer, not the bytes. Here
an address is a number, the heap says what is at an address that is in use,
and the functions of `Yfs.Rpc.ReplyWindow` are written once more with
pointers and with the list of what they free.

A check conserves entries: what was in the list, and the new entry if there
is one, is what is in the list now and what has gone (`checked_conserves`).
Uniqueness of xids and of pointers needs no more than that. Read through the
heap, the lists are those of `Yfs.Rpc.ReplyWindow` (`checked_deref`).
-/
import Mathlib.Data.List.Perm.Basic
import Yfs.Rpc.ReplyWindow

namespace Yfs.Rpc.Buffers

/-- `rpcs::reply_t`; `none` is NULL. -/
structure Entry where
  xid : Nat
  cbPresent : Bool
  buf : Option Nat
  deriving DecidableEq, Repr

/-- `reply_t::reply_t`. -/
def Entry.new (xid : Nat) : Entry := ⟨xid, false, none⟩

inductive RpcState where
  | NEW
  | INPROGRESS
  | DONE (b : Option Nat)
  | FORGOTTEN
  deriving DecidableEq, Repr

/-- The first loop of `checkduplicate_and_update`: the entry with the xid,
the list it leaves, and what it has freed. -/
structure Walk where
  hit : Option Entry
  kept : List Entry
  freed : List (Option Nat)

def walk (xid xidRep : Nat) : List Entry → Walk
  | [] => ⟨none, [], []⟩
  | e :: es =>
    if e.xid = xid then ⟨some e, e :: es, []⟩
    else if e.xid ≤ xidRep ∧ e.cbPresent = true then
      ⟨(walk xid xidRep es).hit, (walk xid xidRep es).kept, e.buf :: (walk xid xidRep es).freed⟩
    else ⟨(walk xid xidRep es).hit, e :: (walk xid xidRep es).kept, (walk xid xidRep es).freed⟩

/-- `insert(lit, now_reply)`, where the second loop and `lit--` leave `lit`. -/
def insertEntry (w : List Entry) (xid : Nat) : List Entry :=
  w.insertIdx (w.findIdx (fun e => e.xid < xid) - 1) (Entry.new xid)

structure Checked where
  state : RpcState
  window : List Entry
  freed : List (Option Nat)

def checkduplicateAndUpdate (w : List Entry) (xid xidRep : Nat) : Checked :=
  match (walk xid xidRep w).hit, (walk xid xidRep w).kept, (walk xid xidRep w).freed with
  | some e, kept, freed => ⟨if e.cbPresent then .DONE e.buf else .INPROGRESS, kept, freed⟩
  | none, kept, freed =>
    match kept.getLast? with
    | none => ⟨.NEW, insertEntry kept xid, freed⟩
    | some last =>
      if last.xid > xid then ⟨.FORGOTTEN, kept, freed⟩ else ⟨.NEW, insertEntry kept xid, freed⟩

def addReply : List Entry → Nat → Nat → List Entry
  | [], _, _ => []
  | e :: es, xid, b =>
    if e.xid = xid then { e with buf := some b, cbPresent := true } :: es
    else e :: addReply es xid b

def free (heap : Nat → Option Reply) (ps : List (Option Nat)) (a : Nat) : Option Reply :=
  if some a ∈ ps then none else heap a

/-! ## What a check conserves -/

variable {w : List Entry} {xid xidRep : Nat}

theorem walk_conserves (w : List Entry) (xid xidRep : Nat) :
    ∃ gone, w.Perm ((walk xid xidRep w).kept ++ gone) ∧
      (walk xid xidRep w).freed = gone.map (·.buf) ∧ ∀ e ∈ gone, e.cbPresent = true := by
  induction w with
  | nil => exact ⟨[], by simp [walk]⟩
  | cons e es ih =>
    obtain ⟨gone, hperm, hfreed, hcomplete⟩ := ih
    simp only [walk]
    split
    · exact ⟨[], by simp⟩
    · split
      · rename_i hdrop
        refine ⟨e :: gone, ?_, by simp [hfreed], ?_⟩
        · exact (hperm.cons e).trans List.perm_middle.symm
        · simpa [hdrop.2] using hcomplete
      · exact ⟨gone, hperm.cons e, hfreed, hcomplete⟩

theorem walk_hit (w : List Entry) (xid xidRep : Nat) :
    (∃ e ∈ (walk xid xidRep w).kept, (walk xid xidRep w).hit = some e ∧ e.xid = xid) ∨
      ((walk xid xidRep w).hit = none ∧ ∀ e ∈ w, e.xid ≠ xid) := by
  induction w with
  | nil => simp [walk]
  | cons e es ih =>
    simp only [walk]
    split
    · rename_i he
      exact .inl ⟨e, by simp, rfl, he⟩
    · rename_i he
      split
      · simpa [he] using ih
      · rcases ih with ⟨e', hmem, hhit, hxid⟩ | ⟨hhit, hnone⟩
        · exact .inl ⟨e', List.mem_cons_of_mem e hmem, hhit, hxid⟩
        · exact .inr ⟨hhit, by simpa [he] using hnone⟩

theorem insertEntry_perm (w : List Entry) (xid : Nat) :
    (insertEntry w xid).Perm (Entry.new xid :: w) := by
  apply List.perm_insertIdx
  have hidx : w.findIdx (fun e => decide (e.xid < xid)) ≤ w.length := List.findIdx_le_length
  omega

/-- The three things a check can do: put the request in the list, find it
there, or refuse it. -/
theorem checked_cases (w : List Entry) (xid xidRep : Nat) :
    (checkduplicateAndUpdate w xid xidRep).freed = (walk xid xidRep w).freed ∧
    (((∀ e ∈ w, e.xid ≠ xid) ∧ (checkduplicateAndUpdate w xid xidRep).state = .NEW ∧
      (checkduplicateAndUpdate w xid xidRep).window = insertEntry (walk xid xidRep w).kept xid) ∨
    ((checkduplicateAndUpdate w xid xidRep).state ≠ .NEW ∧
      (checkduplicateAndUpdate w xid xidRep).window = (walk xid xidRep w).kept ∧
      ∀ b, (checkduplicateAndUpdate w xid xidRep).state = .DONE b →
        ∃ e ∈ (walk xid xidRep w).kept, e.xid = xid ∧ e.cbPresent = true ∧ e.buf = b)) := by
  rcases walk_hit w xid xidRep with ⟨e, hmem, hhit, hxid⟩ | ⟨hhit, hnone⟩
  · simp only [checkduplicateAndUpdate, hhit]
    cases hcb : e.cbPresent with
    | false => exact ⟨trivial, .inr ⟨by simp, trivial, by simp⟩⟩
    | true =>
      refine ⟨trivial, .inr ⟨by simp, trivial, fun b hb => ⟨e, hmem, hxid, hcb, ?_⟩⟩⟩
      simpa using hb
  · simp only [checkduplicateAndUpdate, hhit]
    cases (walk xid xidRep w).kept.getLast? with
    | none => exact ⟨rfl, .inl ⟨hnone, rfl, rfl⟩⟩
    | some last =>
      dsimp only
      split
      · exact ⟨rfl, .inr ⟨nofun, rfl, nofun⟩⟩
      · exact ⟨rfl, .inl ⟨hnone, rfl, rfl⟩⟩

/-- What a check of `w` does to the entries: those in `gone` have left, and
their buffers are what is freed. -/
structure Conserves (w : List Entry) (xid : Nat) (k : Checked) (gone : List Entry) : Prop where
  freed : k.freed = gone.map (·.buf)
  complete : ∀ e ∈ gone, e.cbPresent = true
  perm : ((if k.state = .NEW then [Entry.new xid] else []) ++ w).Perm (k.window ++ gone)
  fresh : k.state = .NEW → ∀ e ∈ w, e.xid ≠ xid
  done : ∀ b, k.state = .DONE b →
    ∃ e ∈ k.window, e.xid = xid ∧ e.cbPresent = true ∧ e.buf = b

theorem checked_conserves (w : List Entry) (xid xidRep : Nat) :
    ∃ gone, Conserves w xid (checkduplicateAndUpdate w xid xidRep) gone := by
  obtain ⟨gone, hperm, hfreed, hcomplete⟩ := walk_conserves w xid xidRep
  obtain ⟨hfreed', hcases⟩ := checked_cases w xid xidRep
  refine ⟨gone, hfreed'.trans hfreed, hcomplete, ?_, ?_, ?_⟩
  all_goals rcases hcases with ⟨hnone, hstate, hwindow⟩ | ⟨hstate, hwindow, hdone⟩
  · rw [if_pos hstate, hwindow]
    exact (hperm.cons _).trans ((insertEntry_perm _ _).symm.append_right gone)
  · rw [if_neg hstate, hwindow]
    exact hperm
  · exact fun _ => hnone
  · exact fun hnew => absurd hnew hstate
  · intro b hb
    rw [hstate] at hb
    cases hb
  · rwa [hwindow]

namespace Conserves

variable {k : Checked} {gone : List Entry} {e : Entry}

theorem mem_window (h : Conserves w xid k gone) (he : e ∈ k.window) :
    e ∈ w ∨ (k.state = .NEW ∧ e = Entry.new xid) := by
  have hmem := h.perm.mem_iff.mpr (List.mem_append_left gone he)
  by_cases hnew : k.state = .NEW
  · rw [if_pos hnew] at hmem
    rcases List.mem_append.mp hmem with hmem | hmem
    · exact .inr ⟨hnew, List.mem_singleton.mp hmem⟩
    · exact .inl hmem
  · rw [if_neg hnew] at hmem
    exact .inl hmem

theorem mem_gone (h : Conserves w xid k gone) (he : e ∈ gone) : e ∈ w := by
  have hmem := h.perm.mem_iff.mpr (List.mem_append_right k.window he)
  rcases List.mem_append.mp hmem with hmem | hmem
  · split at hmem
    · have hcomplete := h.complete e he
      rw [List.mem_singleton.mp hmem] at hcomplete
      cases hcomplete
    · cases hmem
  · exact hmem

theorem kept (h : Conserves w xid k gone) (he : e ∈ w) : e ∈ k.window ∨ e ∈ gone :=
  List.mem_append.mp (h.perm.mem_iff.mp (List.mem_append_right _ he))

theorem new_mem (h : Conserves w xid k gone) (hnew : k.state = .NEW) :
    Entry.new xid ∈ k.window := by
  have hmem : Entry.new xid ∈ k.window ++ gone := by
    rw [← h.perm.mem_iff, if_pos hnew]
    exact List.mem_append_left w List.mem_cons_self
  rcases List.mem_append.mp hmem with hin | hgone
  · exact hin
  · cases h.complete _ hgone

theorem nodup (h : Conserves w xid k gone) (hw : (w.map (·.xid)).Nodup) :
    ((k.window ++ gone).map (·.xid)).Nodup := by
  rw [← (h.perm.map _).nodup_iff]
  split
  · rename_i hnew
    have hfresh : xid ∉ w.map (·.xid) := by
      intro hmem
      obtain ⟨e, he, hxid⟩ := List.mem_map.mp hmem
      exact h.fresh hnew e he hxid
    exact List.nodup_cons.mpr ⟨hfresh, hw⟩
  · exact hw

end Conserves

/-! ## `add_reply` -/

theorem addReply_eq_self {b : Nat} (h : ∀ e ∈ w, e.xid ≠ xid) : addReply w xid b = w := by
  induction w with
  | nil => rfl
  | cons e es ih =>
    have he : e.xid ≠ xid := h e (by simp)
    simp [addReply, he, ih fun e' he' => h e' (List.mem_cons_of_mem e he')]

/-- Among distinct xids `add_reply` changes the entry of its call and no
other. -/
theorem addReply_eq_map (b : Nat) (hw : (w.map (·.xid)).Nodup) :
    addReply w xid b = w.map fun e => if e.xid = xid then ⟨xid, true, some b⟩ else e := by
  induction w with
  | nil => rfl
  | cons e es ih =>
    obtain ⟨hnot, hes⟩ := List.nodup_cons.mp hw
    simp only [addReply, List.map_cons]
    split
    · rename_i he
      subst he
      have hothers : ∀ e' ∈ es, e'.xid ≠ e.xid := fun e' he' hxid =>
        hnot (List.mem_map.mpr ⟨e', he', hxid⟩)
      rw [← ih hes, addReply_eq_self hothers]
    · rw [ih hes]

theorem map_xid_addReply (w : List Entry) (xid b : Nat) :
    (addReply w xid b).map (·.xid) = w.map (·.xid) := by
  induction w with
  | nil => rfl
  | cons e es ih =>
    simp only [addReply]
    split
    · simp
    · simp [ih]

/-! ## Reading through the heap -/

def Entry.deref (heap : Nat → Option Reply) (e : Entry) : ReplyT :=
  ⟨e.xid, e.cbPresent, e.buf.bind heap⟩

def RpcState.deref (heap : Nat → Option Reply) : RpcState → Rpc.RpcState
  | .NEW => .NEW
  | .INPROGRESS => .INPROGRESS
  | .DONE b => .DONE (b.bind heap)
  | .FORGOTTEN => .FORGOTTEN

theorem walk_deref (heap : Nat → Option Reply) (w : List Entry) (xid xidRep : Nat) :
    scan xid xidRep (w.map (Entry.deref heap)) =
      ((walk xid xidRep w).hit.map (Entry.deref heap),
        (walk xid xidRep w).kept.map (Entry.deref heap)) := by
  induction w with
  | nil => rfl
  | cons e es ih =>
    simp only [List.map_cons, scan, walk, Entry.deref, ih]
    split
    · rfl
    · split <;> rfl

theorem insertEntry_deref (heap : Nat → Option Reply) (w : List Entry) (xid : Nat) :
    (insertEntry w xid).map (Entry.deref heap) =
      insertReply (w.map (Entry.deref heap)) xid := by
  rw [insertEntry, insertReply, List.map_insertIdx, List.findIdx_map]
  rfl

/-- The check with pointers, read through the heap as it was before, is the
check of the replies themselves. -/
theorem checked_deref (heap : Nat → Option Reply) (w : List Entry) (xid xidRep : Nat) :
    Rpc.checkduplicateAndUpdate (w.map (Entry.deref heap)) xid xidRep =
      ((checkduplicateAndUpdate w xid xidRep).state.deref heap,
        (checkduplicateAndUpdate w xid xidRep).window.map (Entry.deref heap)) := by
  rw [Rpc.checkduplicateAndUpdate, walk_deref, checkduplicateAndUpdate]
  cases (walk xid xidRep w).hit with
  | some e => cases hcb : e.cbPresent <;> simp [Entry.deref, RpcState.deref, hcb]
  | none =>
    simp only [Option.map_none, List.getLast?_map]
    cases (walk xid xidRep w).kept.getLast? with
    | none => simp [RpcState.deref, insertEntry_deref]
    | some last =>
      simp only [Option.map_some, Entry.deref]
      split
      · rfl
      · simp only [RpcState.deref, insertEntry_deref]

theorem addReply_deref (heap : Nat → Option Reply) {b : Nat} {r : Reply} (hb : heap b = some r)
    (w : List Entry) (xid : Nat) :
    (addReply w xid b).map (Entry.deref heap) = Rpc.addReply (w.map (Entry.deref heap)) xid r := by
  induction w with
  | nil => rfl
  | cons e es ih =>
    simp only [addReply, List.map_cons, Rpc.addReply, Entry.deref]
    split
    · simp [Entry.deref, hb]
    · simp only [List.map_cons, ih]
      rfl

end Yfs.Rpc.Buffers
