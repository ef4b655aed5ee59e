/-
Yfs.Fs.Store — the operations of the client against a store of extents
whose calls may fail, and what `create` and `mkdir` leave there when they
do (yfs_client.cc).

`World` is the extents and, for the calls to come, whether each goes
through. A call that fails does nothing; one that goes through does what
the extent server does with it (extent_server.cc). A number from `getinode`
is one that no extent has.

A failed operation is clean if all extents are as they were. It is when it
fails before there is a number for the new inode. After that, the only call
whose failure leaves the parent alone is the first `put`, and then
`RestoreInum` removes extent 1 (`create`) or 0 (`mkdir`), whichever inode
was to be restored; extent 1 is the root directory.
-/
import Yfs.Fs.Client

namespace Yfs.Fs

open Yfs.Effect Yfs.Effect.Prog Function
open Yfs.Extent (Bytes Attr)

/-! ## The extents -/

abbrev Store := Inum → Option Bytes

/-- What happens to a call: whether it goes through, the number `getinode`
finds and the times `getattr` reports. -/
structure Fate where
  ok : Bool
  ino : Inum
  attr : Attr

structure World where
  store : Store
  fates : Nat → Fate

def World.next (w : World) : World := { w with fates := fun n => w.fates (n + 1) }

def serve : (c : Call) → World → c.Reply × World
  | .acquire _, w => ((), w)
  | .release _, w => ((), w)
  | .get eid, w => (if (w.fates 0).ok then w.store eid else none, w.next)
  | .getattr eid, w =>
    (if (w.fates 0).ok then
      (w.store eid).map fun data => { (w.fates 0).attr with size := data.length % 2 ^ 32 }
    else none, w.next)
  | .put eid buf, w =>
    if (w.fates 0).ok then (true, { w.next with store := update w.store eid (some buf) })
    else (false, w.next)
  | .remove eid, w =>
    if (w.fates 0).ok = true ∧ (w.store eid).isSome = true then
      (true, { w.next with store := update w.store eid none })
    else (false, w.next)
  | .getinode _, w =>
    (if (w.fates 0).ok = true ∧ w.store (w.fates 0).ino = none then some (w.fates 0).ino else none,
      w.next)

@[simp] theorem next_store (w : World) : w.next.store = w.store := rfl

@[simp] theorem next_fates (w : World) (n : Nat) : w.next.fates n = w.fates (n + 1) := rfl

section
variable {w w' : World} {es : List (Σ c, Call.Reply c)} {eid : Inum}

/-! What a reply says about the fate of a call. -/

@[simp] theorem answered_nil : Answered serve w [] w' ↔ w' = w := Iff.rfl

@[simp] theorem answered_acquire {u : Unit} :
    Answered serve w (⟨.acquire eid, u⟩ :: es) w' ↔ Answered serve w es w' := by
  simp [Answered, serve]

@[simp] theorem answered_release {u : Unit} :
    Answered serve w (⟨.release eid, u⟩ :: es) w' ↔ Answered serve w es w' := by
  simp [Answered, serve]

@[simp] theorem answered_get {r : Option Bytes} :
    Answered serve w (⟨.get eid, r⟩ :: es) w' ↔
      r = (if (w.fates 0).ok then w.store eid else none) ∧ Answered serve w.next es w' := Iff.rfl

@[simp] theorem answered_getattr {r : Option Attr} :
    Answered serve w (⟨.getattr eid, r⟩ :: es) w' ↔
      r = (serve (.getattr eid) w).1 ∧ Answered serve w.next es w' := Iff.rfl

@[simp] theorem answered_put_true {buf : Bytes} :
    Answered serve w (⟨.put eid buf, true⟩ :: es) w' ↔ (w.fates 0).ok = true ∧
      Answered serve { w.next with store := update w.store eid (some buf) } es w' := by
  by_cases h : (w.fates 0).ok = true <;> simp [Answered, serve, h]

@[simp] theorem answered_put_false {buf : Bytes} :
    Answered serve w (⟨.put eid buf, false⟩ :: es) w' ↔
      (w.fates 0).ok = false ∧ Answered serve w.next es w' := by
  by_cases h : (w.fates 0).ok = true <;> simp [Answered, serve, h]

@[simp] theorem answered_remove {b : Bool} :
    Answered serve w (⟨.remove eid, b⟩ :: es) w' ↔
      b = (serve (.remove eid) w).1 ∧ Answered serve (serve (.remove eid) w).2 es w' := Iff.rfl

@[simp] theorem answered_getinode {isFile : Bool} {r : Option Inum} :
    Answered serve w (⟨.getinode isFile, r⟩ :: es) w' ↔
      r = (serve (.getinode isFile) w).1 ∧ Answered serve w.next es w' := Iff.rfl

theorem getinode_some_iff {isFile : Bool} {ino : Inum} :
    some ino = (serve (.getinode isFile) w).1 ↔
      (w.fates 0).ok = true ∧ w.store (w.fates 0).ino = none ∧ ino = (w.fates 0).ino := by
  simp [serve, and_assoc]

/-- A removal leaves the other extents alone, and nothing in its own. -/
theorem remove_store (eid' : Inum) {data : Bytes}
    (h : (serve (.remove eid) w).2.store eid' = some data) : w.store eid' = some data := by
  simp only [serve] at h
  split at h
  · by_cases he : eid' = eid
    · simp [he] at h
    · simpa [he] using h
  · exact h

end

/-! ## Failed operations -/

/-- Nothing that was there has changed, and no entry of a directory names
the number `ino` now that did not before. -/
def Clean (beyond : Nat → UInt8) (before after : Store) (ino : Option Inum) : Prop :=
  (∀ eid data, before eid = some data → after eid = some data) ∧
  ∀ i ∈ ino, ∀ eid data name, after eid = some data → (dirOf beyond data).find? name = some i →
    ∃ data₀, before eid = some data₀ ∧ (dirOf beyond data₀).find? name = some i

theorem Clean.refl (beyond : Nat → UInt8) (store : Store) (ino : Option Inum) :
    Clean beyond store store ino :=
  ⟨fun _ _ h => h, fun _ _ _ data _ h hi => ⟨data, h, hi⟩⟩

/-- The operation gets as far as entering a new inode: the parent is read,
the name is not there and `getinode` has a number other than 0. -/
def GetsInode (beyond : Nat → UInt8) (w : World) (parent : Inum) (name : Bytes) : Prop :=
  (w.fates 0).ok = true ∧
  (∃ data, w.store parent = some data ∧ (dirOf beyond data).find? (strName name) = none) ∧
  (w.fates 1).ok = true ∧ w.store (w.fates 1).ino = none ∧ (w.fates 1).ino ≠ 0

/-- The put of the parent fails, and what is removed then is not there or
the removal fails as well. -/
def Harmless (isFile : Bool) (w : World) : Prop :=
  (w.fates 2).ok = false ∧ (w.store (restored isFile) = none ∨ (w.fates 3).ok = false)

/-- A removal takes nothing away exactly if it fails. -/
theorem clean_remove_iff (beyond : Nat → UInt8) (w : World) (eid : Inum) (ino : Option Inum) :
    Clean beyond w.store (serve (.remove eid) w).2.store ino ↔
      w.store eid = none ∨ (w.fates 0).ok = false := by
  by_cases h : (w.fates 0).ok = true ∧ (w.store eid).isSome = true
  · obtain ⟨data, hdata⟩ := Option.isSome_iff_exists.mp h.2
    refine iff_of_false (fun hclean => ?_) (by simp [h.1, hdata])
    have hkept := hclean.1 eid data hdata
    simp [serve, h.1, hdata] at hkept
  · have hsame : (serve (.remove eid) w).2.store = w.store := by
      simp only [serve, if_neg h, next_store]
    rw [hsame]
    refine iff_of_true (Clean.refl _ _ _) ?_
    by_cases hok : (w.fates 0).ok = true
    · left
      simpa [hok] using h
    · right
      simpa using hok

variable {beyond : Nat → UInt8} {parent : Inum} {data name : Bytes}

/-- Once the parent has its new contents, nothing brings the old ones
back. -/
theorem not_clean_of_linked {before after : Store} {out : Option Inum} (ino : Inum)
    (hparent : before parent = some data)
    (hfree : (dirOf beyond data).find? (strName name) = none)
    (hafter : ∀ d, after parent = some d → d = linked beyond data name ino) :
    ¬ Clean beyond before after out := by
  intro hclean
  have hkept := hclean.1 parent data hparent
  exact dirBytes_insert_ne hfree ino (hafter data hkept).symm

theorem answered_entered {w w' : World} {isFile : Bool} {ino : Inum}
    {es : List (Σ c, Call.Reply c)} (hfree : (dirOf beyond data).find? (strName name) = none)
    (hino : ino ≠ 0)
    (h : Answered serve w (⟨.get parent, some data⟩ :: ⟨.getinode isFile, some ino⟩ :: es) w') :
    w.store parent = some data ∧ w.store ino = none ∧ GetsInode beyond w parent name ∧
      Answered serve w.next.next es w' := by
  obtain ⟨hget, hgetinode, hrest⟩ := h
  obtain ⟨hok, hnone, hfate⟩ := getinode_some_iff.mp hgetinode
  replace hfate : ino = (w.fates 1).ino := hfate
  obtain ⟨hread, hdata⟩ : (w.fates 0).ok = true ∧ some data = w.store parent := by
    simpa [serve] using hget
  refine ⟨hdata.symm, hfate ▸ hnone, ?_, hrest⟩
  exact ⟨hread, ⟨data, hdata.symm, hfree⟩, hok, hnone, hfate ▸ hino⟩

/-- The three ways in which entering a new inode fails. -/
theorem clean_enterPath_iff {w w' : World} {isFile : Bool} {ino : Inum}
    {es : List (Σ c, Call.Reply c)} {st : Status} (hparent : w.store parent = some data)
    (hfresh : w.store ino = none) (hfree : (dirOf beyond data).find? (strName name) = none)
    (henter : EnterPath isFile parent (linked beyond data name ino) ino es st) (hfail : st ≠ .OK)
    (hanswered : Answered serve w.next.next (es ++ [⟨.release parent, ()⟩]) w')
    (out : Option Inum) : Clean beyond w.store w'.store out ↔ Harmless isFile w := by
  have hne : parent ≠ ino := by
    rintro rfl
    rw [hparent] at hfresh
    cases hfresh
  -- with the first put, the parent has other contents or none
  have hlinked : ∀ w₁ : World, w₁.store parent = some (linked beyond data name ino) →
      (w.fates 2).ok = true →
      (Clean beyond w.store (serve (.remove (restored isFile)) w₁).2.store out ↔
        Harmless isFile w) := by
    intro w₁ hw₁ hok
    refine iff_of_false (not_clean_of_linked ino hparent hfree fun d hd => ?_)
      (by simp [Harmless, hok])
    have hbefore := remove_store parent hd
    rw [hw₁] at hbefore
    exact (Option.some.inj hbefore).symm
  cases henter with
  | parentPut b =>
    simp at hanswered
    obtain ⟨hput, -, rfl⟩ := hanswered
    rw [← next_store w, ← next_store w.next, ← next_store w.next.next, clean_remove_iff]
    simp [Harmless, hput]
  | inodePut b =>
    simp at hanswered
    obtain ⟨hput, -, -, rfl⟩ := hanswered
    exact hlinked _ (by simp) hput
  | getattr b =>
    simp at hanswered
    obtain ⟨hput, -, -, -, rfl⟩ := hanswered
    exact hlinked _ (by simp [hne]) hput
  | done a => exact absurd rfl hfail

/-- **Failed create and mkdir.** When one of them returns a status other
than OK, everything is as before exactly if it never got a number for the
new inode, or the put of the parent failed and the removal that follows it
did nothing. -/
theorem failed_create_clean_iff (beyond : Nat → UInt8) (isFile : Bool) (parent : Inum)
    (name : Bytes) (w : World)
    (hfail : (run serve (createNew beyond isFile parent name) w).1.1 ≠ .OK) :
    Clean beyond w.store (run serve (createNew beyond isFile parent name) w).2.store
        (run serve (createNew beyond isFile parent name) w).1.2 ↔
      (GetsInode beyond w parent name → Harmless isFile w) := by
  obtain ⟨es, hpath, hanswered⟩ : ∃ es, Path (createNew beyond isFile parent name) es
      (run serve (createNew beyond isFile parent name) w).1 ∧
      Answered serve w es (run serve (createNew beyond isFile parent name) w).2 :=
    exists_path_run _ w
  generalize (run serve (createNew beyond isFile parent name) w).1 = out at hpath hfail ⊢
  generalize (run serve (createNew beyond isFile parent name) w).2 = w' at hanswered ⊢
  obtain ⟨es', rfl, hcreate⟩ := createPath_of_path beyond hpath
  generalize out.1 = st at hcreate hfail
  cases hcreate with
  | noParent =>
    simp at hanswered
    obtain ⟨hno, rfl⟩ := hanswered
    refine iff_of_true (Clean.refl _ _ _) fun ⟨hok, ⟨data, hdata, _⟩, _⟩ => ?_
    rw [hdata] at hno
    cases hno hok
  | bound data hbound =>
    simp at hanswered
    obtain ⟨⟨-, hdata⟩, rfl⟩ := hanswered
    refine iff_of_true (Clean.refl _ _ _) fun ⟨_, ⟨data', hdata', hfree⟩, _⟩ => ?_
    cases hdata.trans hdata'
    rw [hfree] at hbound
    cases hbound
  | noInode data r hfree hr =>
    simp at hanswered
    obtain ⟨-, hino, rfl⟩ := hanswered
    refine iff_of_true (Clean.refl _ _ _) fun ⟨_, _, hok, hnone, hne⟩ => ?_
    have hgot : some (w.fates 1).ino = (serve (.getinode isFile) w.next).1 :=
      getinode_some_iff.mpr ⟨hok, hnone, rfl⟩
    exact absurd (hr _ (hino.trans hgot.symm)) hne
  | enter data ino hfree hino henter =>
    obtain ⟨hparent, hfresh, hgets, hrest⟩ :=
      answered_entered hfree hino (answered_acquire.mp hanswered)
    rw [clean_enterPath_iff hparent hfresh hfree henter hfail hrest]
    exact ⟨fun h _ => h, fun h => h hgets⟩

def putFails : World :=
  { store := update (fun _ => none) 1 (some [])
    fates := fun n => ⟨decide (n ≠ 2), 0x80000005, ⟨0, 0, 0, 0⟩⟩ }

/-- A `mkdir` that only wanted to remove extent 0. -/
theorem failed_create_clean_iff_mkdir :
    (run serve (mkdir (fun _ => 0) 1 [97]) putFails).1.1 = .IOERR ∧
      Clean (fun _ => 0) putFails.store (run serve (mkdir (fun _ => 0) 1 [97]) putFails).2.store
        (run serve (mkdir (fun _ => 0) 1 [97]) putFails).1.2 := by
  have hstatus : (run serve (mkdir (fun _ => 0) 1 [97]) putFails).1.1 = .IOERR := by
    decide +kernel
  refine ⟨hstatus, (failed_create_clean_iff (fun _ => 0) false 1 [97] putFails ?_).mpr ?_⟩
  · show (run serve (mkdir (fun _ => 0) 1 [97]) putFails).1.1 ≠ .OK
    rw [hstatus]
    decide
  · intro _
    exact ⟨by decide, .inl (by decide)⟩

/-- **The root is gone**: `create` cannot write the root directory, returns
IOERR and has removed extent 1. -/
theorem failed_create_removes_root :
    ¬ ∀ (beyond : Nat → UInt8) (isFile : Bool) (parent : Inum) (name : Bytes) (w : World),
      (run serve (createNew beyond isFile parent name) w).1.1 ≠ .OK →
      Clean beyond w.store (run serve (createNew beyond isFile parent name) w).2.store
        (run serve (createNew beyond isFile parent name) w).1.2 := by
  intro hall
  have hstatus : (run serve (createNew (fun _ => 0) true 1 [97]) putFails).1.1 ≠ .OK := by
    decide +kernel
  have hgone : (run serve (createNew (fun _ => 0) true 1 [97]) putFails).2.store 1 = none := by
    decide +kernel
  have hkept := (hall _ _ _ _ _ hstatus).1 1 [] rfl
  rw [hgone] at hkept
  cases hkept

end Yfs.Fs
