/-
Yfs.Rpc.ReplyWindow — the server's list of remembered replies for one
client (`rpcs::reply_window_`, `checkduplicate_and_update` and
`add_reply` in rpc/rpc.cc).

The list is walked once. An entry with the xid of the request answers at
once; a completed entry with xid at most `xid_rep` is erased on the way;
an entry still in progress is kept whatever its xid. If nothing matched,
the LAST entry decides between FORGOTTEN and NEW, and a new entry goes
in front of the last entry at the latest: `insert` is made one position
before the first smaller xid. So the list is not sorted, and its last
element is whatever has been in it longest.

`survivors` names what the walk leaves when nothing matches;
`checkduplicate_cases` says everything the function can do.
-/
import Yfs.Lib.Run

namespace Yfs.Rpc

/-- A marshalled reply: `reply_header` and what the handler packed. -/
structure Reply where
  xid : Nat
  ret : Int
  body : List UInt8
  deriving DecidableEq, Repr

/-- `rpcs::reply_t`. The buffer carries its own size; `none` is NULL. -/
structure ReplyT where
  xid : Nat
  cbPresent : Bool
  buf : Option Reply
  deriving DecidableEq, Repr

/-- `reply_t::reply_t`. -/
def ReplyT.new (xid : Nat) : ReplyT := { xid := xid, cbPresent := false, buf := none }

inductive RpcState where
  | NEW
  | INPROGRESS
  | DONE (buf : Option Reply)
  | FORGOTTEN
  deriving DecidableEq, Repr

/-- The erasing walk: the entry with the xid if there is one, and the
list the walk leaves. -/
def scan (xid xidRep : Nat) : List ReplyT → Option ReplyT × List ReplyT
  | [] => (none, [])
  | e :: es =>
    if e.xid = xid then (some e, e :: es)
    else if e.xid ≤ xidRep ∧ e.cbPresent = true then scan xid xidRep es
    else ((scan xid xidRep es).1, e :: (scan xid xidRep es).2)

/-- `insert(lit, now_reply)` at the place the second loop and `lit--` leave. -/
def insertReply (w : List ReplyT) (xid : Nat) : List ReplyT :=
  w.insertIdx (w.findIdx (fun e => e.xid < xid) - 1) (ReplyT.new xid)

def checkduplicateAndUpdate (w : List ReplyT) (xid xidRep : Nat) : RpcState × List ReplyT :=
  match scan xid xidRep w with
  | (some e, w') => (if e.cbPresent then .DONE e.buf else .INPROGRESS, w')
  | (none, w') =>
    match w'.getLast? with
    | none => (.NEW, insertReply w' xid)
    | some last => if last.xid > xid then (.FORGOTTEN, w') else (.NEW, insertReply w' xid)

def addReply : List ReplyT → Nat → Reply → List ReplyT
  | [], _, _ => []
  | e :: es, xid, b =>
    if e.xid = xid then { e with buf := some b, cbPresent := true } :: es
    else e :: addReply es xid b

/-! ## What the functions do -/

/-- The entries an `xid_rep` leaves: in progress, or not acknowledged. -/
def survivors (w : List ReplyT) (xidRep : Nat) : List ReplyT :=
  w.filter fun e => !(decide (e.xid ≤ xidRep) && e.cbPresent)

variable {w : List ReplyT} {e : ReplyT} {xid : Nat}

theorem mem_survivors {xidRep : Nat} :
    e ∈ survivors w xidRep ↔ e ∈ w ∧ (e.xid ≤ xidRep → e.cbPresent = false) := by
  simp only [survivors, List.mem_filter, Bool.not_eq_true', Bool.and_eq_false_iff,
    decide_eq_false_iff_not, not_le]
  constructor
  · rintro ⟨hm, h | h⟩
    · exact ⟨hm, fun hle => by omega⟩
    · exact ⟨hm, fun _ => h⟩
  · rintro ⟨hm, h⟩
    rcases Nat.lt_or_ge xidRep e.xid with hlt | hge
    · exact ⟨hm, .inl hlt⟩
    · exact ⟨hm, .inr (h hge)⟩

theorem scan_none (xidRep : Nat) (h : ∀ e ∈ w, e.xid ≠ xid) :
    scan xid xidRep w = (none, survivors w xidRep) := by
  induction w with
  | nil => rfl
  | cons e es ih =>
    have he : e.xid ≠ xid := h e (by simp)
    have ih' := ih fun e' he' => h e' (List.mem_cons_of_mem e he')
    by_cases hdrop : e.xid ≤ xidRep ∧ e.cbPresent = true
    · simp [scan, he, hdrop, ih', survivors]
    · have hkeep : (!(decide (e.xid ≤ xidRep) && e.cbPresent)) = true := by
        by_cases hle : e.xid ≤ xidRep <;> simp_all
      simp only [scan, if_neg he, if_neg hdrop, ih', survivors, List.filter_cons, hkeep, if_true]

/-- A matching entry is found, and what the walk leaves contains every
entry it did not have to erase. -/
theorem scan_some (xidRep : Nat) (h : ∃ e ∈ w, e.xid = xid) :
    ∃ e w', scan xid xidRep w = (some e, w') ∧ e ∈ w ∧ e.xid = xid ∧ e ∈ w' ∧
      w'.Sublist w ∧ ∀ e' ∈ w, e' ∉ w' → e'.xid ≤ xidRep ∧ e'.cbPresent = true := by
  induction w with
  | nil => simp at h
  | cons e es ih =>
    by_cases he : e.xid = xid
    · exact ⟨e, e :: es, by simp [scan, he], by simp, he, by simp, List.Sublist.refl _,
        fun e' he' hne => absurd he' hne⟩
    · obtain ⟨e₁, w', hscan, hmem, hxid, hmem', hsub, hgone⟩ := ih (by
        obtain ⟨e₁, h₁, h₂⟩ := h
        rcases List.mem_cons.mp h₁ with rfl | h₁
        · exact absurd h₂ he
        · exact ⟨e₁, h₁, h₂⟩)
      by_cases hdrop : e.xid ≤ xidRep ∧ e.cbPresent = true
      · refine ⟨e₁, w', by simp [scan, he, hdrop, hscan], List.mem_cons_of_mem e hmem, hxid, hmem',
          hsub.cons e, fun e' he' hne => ?_⟩
        rcases List.mem_cons.mp he' with rfl | he'
        · exact hdrop
        · exact hgone e' he' hne
      · refine ⟨e₁, e :: w', by simp [scan, he, hdrop, hscan], List.mem_cons_of_mem e hmem, hxid,
          List.mem_cons_of_mem e hmem', hsub.cons_cons e, fun e' he' hne => ?_⟩
        rcases List.mem_cons.mp he' with rfl | he'
        · exact absurd (by simp) hne
        · exact hgone e' he' fun hin => hne (List.mem_cons_of_mem e hin)

theorem mem_insertReply : e ∈ insertReply w xid ↔ e = ReplyT.new xid ∨ e ∈ w := by
  refine List.mem_insertIdx ?_
  have hidx : w.findIdx (fun e => decide (e.xid < xid)) ≤ w.length := List.findIdx_le_length
  omega

/-- Everything `checkduplicate_and_update` can do: a known xid is never
NEW and never FORGOTTEN; an unknown one is FORGOTTEN exactly when the
last survivor has a larger xid. -/
theorem checkduplicate_cases (w : List ReplyT) (xid xidRep : Nat) :
    (∃ e w', e ∈ w ∧ e.xid = xid ∧ e ∈ w' ∧ w'.Sublist w ∧
      (∀ e' ∈ w, e' ∉ w' → e'.xid ≤ xidRep ∧ e'.cbPresent = true) ∧
      checkduplicateAndUpdate w xid xidRep
        = (if e.cbPresent then .DONE e.buf else .INPROGRESS, w')) ∨
    ((∀ e ∈ w, e.xid ≠ xid) ∧ (∃ last, (survivors w xidRep).getLast? = some last ∧
      last.xid > xid) ∧
      checkduplicateAndUpdate w xid xidRep = (.FORGOTTEN, survivors w xidRep)) ∨
    ((∀ e ∈ w, e.xid ≠ xid) ∧ (∀ last, (survivors w xidRep).getLast? = some last →
      last.xid < xid) ∧
      checkduplicateAndUpdate w xid xidRep = (.NEW, insertReply (survivors w xidRep) xid)) := by
  by_cases hex : ∃ e ∈ w, e.xid = xid
  · obtain ⟨e, w', hscan, hmem, hxid, hmem', hsub, hgone⟩ := scan_some xidRep hex
    exact .inl ⟨e, w', hmem, hxid, hmem', hsub, hgone, by simp [checkduplicateAndUpdate, hscan]⟩
  · have hne : ∀ e ∈ w, e.xid ≠ xid := fun e he hx => hex ⟨e, he, hx⟩
    have hscan := scan_none xidRep hne
    right
    cases hlast : (survivors w xidRep).getLast? with
    | none => exact .inr ⟨hne, by simp, by simp [checkduplicateAndUpdate, hscan, hlast]⟩
    | some last =>
      have hlw : last ∈ w := (mem_survivors.mp (List.mem_of_getLast? hlast)).1
      by_cases hgt : last.xid > xid
      · exact .inl ⟨hne, ⟨last, rfl, hgt⟩, by simp [checkduplicateAndUpdate, hscan, hlast, hgt]⟩
      · refine .inr ⟨hne, ?_, by simp [checkduplicateAndUpdate, hscan, hlast, hgt]⟩
        intro l hl
        obtain rfl : last = l := Option.some.inj hl
        have := hne last hlw
        omega

section Effects

variable {w : List ReplyT} {xid xidRep : Nat}

/-- Only completed entries with xid at most `xid_rep` leave the list. -/
theorem checkduplicate_gone {e : ReplyT} (he : e ∈ w)
    (hgone : e ∉ (checkduplicateAndUpdate w xid xidRep).2) :
    e.xid ≤ xidRep ∧ e.cbPresent = true := by
  have hsurv : e ∉ survivors w xidRep → e.xid ≤ xidRep ∧ e.cbPresent = true := by
    intro hns
    by_contra hn
    refine hns (mem_survivors.mpr ⟨he, fun hle => ?_⟩)
    exact Bool.eq_false_iff.mpr fun hcb => hn ⟨hle, hcb⟩
  obtain ⟨_, w', _, _, _, _, hkeep, heq⟩ | ⟨_, _, heq⟩ | ⟨_, _, heq⟩ :=
    checkduplicate_cases w xid xidRep
  · rw [heq] at hgone
    exact hkeep e he hgone
  · rw [heq] at hgone
    exact hsurv hgone
  · rw [heq] at hgone
    exact hsurv fun hin => hgone (mem_insertReply.mpr (.inr hin))

/-- Only a NEW request puts an entry in the list, and it is its own. -/
theorem checkduplicate_mem {e : ReplyT} (he : e ∈ (checkduplicateAndUpdate w xid xidRep).2) :
    e ∈ w ∨ ((checkduplicateAndUpdate w xid xidRep).1 = .NEW ∧ e = ReplyT.new xid) := by
  obtain ⟨_, w', _, _, _, hsub, _, heq⟩ | ⟨_, _, heq⟩ | ⟨_, _, heq⟩ :=
    checkduplicate_cases w xid xidRep
  · rw [heq] at he
    exact .inl (hsub.subset he)
  · rw [heq] at he
    exact .inl (mem_survivors.mp he).1
  · rw [heq] at he ⊢
    rcases mem_insertReply.mp he with rfl | hin
    · exact .inr ⟨rfl, rfl⟩
    · exact .inl (mem_survivors.mp hin).1

/-- A NEW xid was not in the list, and is in it afterwards. -/
theorem checkduplicate_new (h : (checkduplicateAndUpdate w xid xidRep).1 = .NEW) :
    (∀ e ∈ w, e.xid ≠ xid) ∧ ReplyT.new xid ∈ (checkduplicateAndUpdate w xid xidRep).2 ∧
      ∀ last, (survivors w xidRep).getLast? = some last → last.xid < xid := by
  obtain ⟨e, _, _, _, _, _, _, heq⟩ | ⟨_, _, heq⟩ | ⟨hne, hlast, heq⟩ :=
    checkduplicate_cases w xid xidRep
  · rw [heq] at h
    cases hcb : e.cbPresent <;> simp [hcb] at h
  · simp [heq] at h
  · rw [heq]
    exact ⟨hne, mem_insertReply.mpr (.inl rfl), hlast⟩

/-- A DONE request gets the buffer of an entry. -/
theorem checkduplicate_done {b : Option Reply}
    (h : (checkduplicateAndUpdate w xid xidRep).1 = .DONE b) : ∃ e ∈ w, e.buf = b := by
  obtain ⟨e, _, he, _, _, _, _, heq⟩ | ⟨_, _, heq⟩ | ⟨_, _, heq⟩ :=
    checkduplicate_cases w xid xidRep
  · rw [heq] at h
    cases hcb : e.cbPresent <;> simp [hcb] at h
    exact ⟨e, he, h⟩
  · simp [heq] at h
  · simp [heq] at h

end Effects

/-- What `add_reply` leaves are the old entries, one of them possibly
completed with the reply. -/
theorem mem_addReply {b : Reply} (h : e ∈ addReply w xid b) :
    e ∈ w ∨ ∃ e₀ ∈ w, e₀.xid = xid ∧ e = { e₀ with buf := some b, cbPresent := true } := by
  induction w with
  | nil => simp [addReply] at h
  | cons a es ih =>
    simp only [addReply] at h
    split at h
    · rename_i ha
      rcases List.mem_cons.mp h with rfl | h
      · exact .inr ⟨a, by simp, ha, rfl⟩
      · exact .inl (List.mem_cons_of_mem a h)
    · rcases List.mem_cons.mp h with rfl | h
      · exact .inl (by simp)
      · rcases ih h with h | ⟨e₀, h₀, hx, he⟩
        · exact .inl (List.mem_cons_of_mem a h)
        · exact .inr ⟨e₀, List.mem_cons_of_mem a h₀, hx, he⟩

/-- `add_reply` changes no xid. -/
theorem map_xid_addReply (w : List ReplyT) (xid : Nat) (b : Reply) :
    (addReply w xid b).map (·.xid) = w.map (·.xid) := by
  induction w with
  | nil => rfl
  | cons e es ih =>
    simp only [addReply]
    split
    · simp
    · simp [ih]

end Yfs.Rpc
