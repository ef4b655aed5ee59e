/-
Yfs.Fs.Directories — directories as maps from names to inode numbers, and
as the extents the client keeps them in (yfs_client.cc).

* `Dirs` is what the operations are for: a map for each extent there is,
  and a step that adds a binding, removes one, or looks.
* `calm` is the store the operations run against when every call goes
  through; the code's step runs the programs of `Yfs.Fs.Client` there.
* `IsDir` ties the bytes of an extent to a map. Names are NUL-free, so
  padding them with NULs loses nothing (`strName_injective`).

An unlinked file is gone because nothing else names it: every inode number
that was handed out had no extent, and a bound one has (`Sound`).
-/
import Yfs.Fs.Store

namespace Yfs.Fs

open Yfs.Effect Yfs.Effect.Prog Function
open Yfs.Extent (Bytes Attr)

/-! ## Names -/

structure Name where
  bytes : Bytes
  short : bytes.length ≤ maxItemNameLen
  nulFree : 0 ∉ bytes

variable {n : Name} {block : OrdMap Bytes Inum} {m : Bindings} {d : Dirs} {parent : Inum}

@[ext] theorem Name.ext {m : Name} (h : n.bytes = m.bytes) : n = m := by
  cases n
  cases m
  simpa using h

instance : DecidableEq Name := fun n m =>
  decidable_of_iff (n.bytes = m.bytes) ⟨Name.ext, congrArg Name.bytes⟩

def Name.key (n : Name) : Bytes := strName n.bytes

theorem takeWhile_append_replicate {s : Bytes} (h : 0 ∉ s) (k : Nat) :
    (s ++ List.replicate k 0).takeWhile (fun b => decide (b ≠ 0)) = s := by
  induction s with
  | nil => cases k <;> simp [List.replicate_succ]
  | cons b s ih =>
    have hb : b ≠ 0 := fun hb => h (by simp [hb])
    have hs : 0 ∉ s := fun hs => h (by simp [hs])
    rw [List.cons_append, List.takeWhile_cons_of_pos (by simpa using hb), ih hs]

/-- The NULs at the end are all that padding adds. -/
theorem strName_injective {m : Name} (h : n.key = m.key) : n = m := by
  have hstrip : ∀ n : Name, n.key.takeWhile (fun b => decide (b ≠ 0)) = n.bytes := by
    intro n
    rw [Name.key, strName, resize, List.take_of_length_le n.short]
    exact takeWhile_append_replicate n.nulFree _
  exact Name.ext (by rw [← hstrip n, h, hstrip m])

/-! ## Directories as maps -/

abbrev Bindings := Name → Option Inum

/-- The extents there are, each as a directory; an empty file is an empty
one. -/
abbrev Dirs := Inum → Option Bindings

inductive Request where
  | create (parent : Inum) (name : Name)
  | mkdir (parent : Inum) (name : Name)
  | unlink (parent : Inum) (name : Name)
  | lookup (parent : Inum) (name : Name)
  | readdir (inum : Inum)

def Request.dir : Request → Inum
  | .create parent _ => parent
  | .mkdir parent _ => parent
  | .unlink parent _ => parent
  | .lookup parent _ => parent
  | .readdir inum => inum

/-- What a request answers; `ls` is what `readdir` lists. -/
inductive Answer (ls : Type) where
  | made (st : Status) (ino : Option Inum)
  | unlinked (st : Status)
  | found (st : Status) (ino : Option Inum)
  | listed (st : Status) (entries : ls)

def Dirs.linked (d : Dirs) (parent : Inum) (m : Bindings) (name : Name) (new : Inum) : Dirs :=
  update (update d parent (some (update m name (some new))))
    new (some fun _ => none)

def Dirs.unlinked (d : Dirs) (parent : Inum) (m : Bindings) (name : Name) (ino : Inum) : Dirs :=
  update (update d parent (some (update m name none))) ino none

def Dirs.add (d : Dirs) (parent : Inum) (name : Name) (new : Inum) : Answer Bindings × Dirs :=
  match d parent with
  | none => (.made .NOENT none, d)
  | some m =>
    match m name with
    | some _ => (.made .EXIST none, d)
    | none => (.made .OK (some new), d.linked parent m name new)

def Dirs.unlink (d : Dirs) (parent : Inum) (name : Name) : Answer Bindings × Dirs :=
  match d parent with
  | none => (.unlinked .NOENT, d)
  | some m =>
    match m name with
    | none => (.unlinked .NOENT, d)
    | some ino =>
      if isfile ino then (.unlinked .OK, d.unlinked parent m name ino)
      else (.unlinked .NOENT, d)

/-- A request of the map model; `new` is the inode number it gets if it
needs one. -/
def Dirs.step (d : Dirs) (new : Inum) : Request → Answer Bindings × Dirs
  | .create parent name => d.add parent name new
  | .mkdir parent name => d.add parent name new
  | .unlink parent name => d.unlink parent name
  | .lookup parent name =>
    match d parent with
    | none => (.found .NOENT none, d)
    | some m => (.found .OK (m name), d)
  | .readdir inum =>
    match d inum with
    | none => (.listed .IOERR fun _ => none, d)
    | some m => (.listed .OK m, d)

/-! ## The operations when every call goes through -/

def calm (s : Store) (f : Fate) : World := ⟨s, fun _ => f⟩

/-- What a request meets: the number and the times its calls are answered
with, and the memory behind the strings it reads. -/
structure Luck where
  new : Inum
  attr : Attr
  beyond : Nat → UInt8

def Luck.fate (l : Luck) : Fate := ⟨true, l.new, l.attr⟩

def serveRequest (s : Store) (l : Luck) : Request → Answer (List (Bytes × Inum)) × Store
  | .create parent name =>
    let r := run serve (create l.beyond parent name.bytes) (calm s l.fate)
    (.made r.1.1 r.1.2, r.2.store)
  | .mkdir parent name =>
    let r := run serve (mkdir l.beyond parent name.bytes) (calm s l.fate)
    (.made r.1.1 r.1.2, r.2.store)
  | .unlink parent name =>
    let r := run serve (unlink l.beyond parent name.bytes) (calm s l.fate)
    (.unlinked r.1, r.2.store)
  | .lookup parent name =>
    let r := run serve (lookup l.beyond parent name.bytes) (calm s l.fate)
    (.found r.1.1 r.1.2, r.2.store)
  | .readdir inum =>
    let r := run serve (readdir l.beyond DirForm.new inum) (calm s l.fate)
    (.listed r.1.1 r.1.2.dirBlock.entries, r.2.store)

section
variable (s : Store) (l : Luck) (eid : Inum)

@[simp] theorem calm_store (f : Fate) : (calm s f).store = s := rfl

@[simp] theorem serve_acquire_calm : serve (.acquire eid) (calm s l.fate) = ((), calm s l.fate) :=
  rfl

@[simp] theorem serve_release_calm : serve (.release eid) (calm s l.fate) = ((), calm s l.fate) :=
  rfl

@[simp] theorem serve_get_calm : serve (.get eid) (calm s l.fate) = (s eid, calm s l.fate) := rfl

@[simp] theorem serve_put_calm (buf : Bytes) : serve (.put eid buf) (calm s l.fate) =
    (true, calm (update s eid (some buf)) l.fate) := rfl

@[simp] theorem serve_getattr_calm : serve (.getattr eid) (calm s l.fate) =
    ((s eid).map fun data => { l.attr with size := data.length % 2 ^ 32 }, calm s l.fate) := rfl

theorem serve_getinode_calm (isFile : Bool) (h : s l.new = none) :
    serve (.getinode isFile) (calm s l.fate) = (some l.new, calm s l.fate) := by
  have hfresh : (calm s l.fate).store ((calm s l.fate).fates 0).ino = none := h
  simp only [serve, hfresh]
  rfl

theorem serve_remove_calm (h : (s eid).isSome = true) : serve (.remove eid) (calm s l.fate) =
    (true, calm (update s eid none) l.fate) := by
  simp only [serve, calm_store, h]
  rfl

end

/-- Taking and dropping a lock does nothing to the store. -/
@[simp] theorem run_withLock {α : Type} (lid : Inum) (body : Op α) (w : World) :
    run serve (withLock lid body) w = run serve body w := by
  simp only [withLock, acquire, release, ask_bind, ret_bind, run_ask, run_bind]
  rfl

section
variable (beyond : Nat → UInt8) {s : Store} {l : Luck} {parent : Inum} {name : Bytes}

theorem run_getdata_none (h : s parent = none) :
    run serve (getdata parent) (calm s l.fate) = ((.IOERR, []), calm s l.fate) := by
  simp [getdata, ecGet, h]

theorem run_getdata_some {data : Bytes} (h : s parent = some data) :
    run serve (getdata parent) (calm s l.fate) = ((.OK, data), calm s l.fate) := by
  simp [getdata, ecGet, h]

theorem run_createNew_none (isFile : Bool) (h : s parent = none) :
    run serve (createNew beyond isFile parent name) (calm s l.fate) =
      ((.NOENT, none), calm s l.fate) := by
  simp [createNew, run_getdata_none h]

theorem run_createNew_bound (isFile : Bool) {data : Bytes} (h : s parent = some data)
    (hbound : ((dirOf beyond data).find? (strName name)).isSome = true) :
    run serve (createNew beyond isFile parent name) (calm s l.fate) =
      ((.EXIST, none), calm s l.fate) := by
  simp [createNew, run_getdata_some h, hbound]

/-- The way to OK. -/
theorem run_createNew_free (isFile : Bool) {data : Bytes} (h : s parent = some data)
    (hfree : (dirOf beyond data).find? (strName name) = none) (hnew : s l.new = none)
    (hne : l.new ≠ 0) :
    run serve (createNew beyond isFile parent name) (calm s l.fate) =
      ((.OK, some l.new),
        calm (update (update s parent (some (linked beyond data name l.new)))
          l.new (some [])) l.fate) := by
  have hinum : run serve (getAvailInum isFile) (calm s l.fate) = (l.new, calm s l.fate) := by
    simp [getAvailInum, ecGetinode, serve_getinode_calm s l isFile hnew]
  have henter : ∀ s' : Store, run serve (enterNew isFile parent (linked beyond data name l.new)
      l.new) (calm s' l.fate) = (.OK, calm (update (update s' parent
        (some (linked beyond data name l.new))) l.new (some [])) l.fate) := by
    intro s'
    simp [enterNew, putdata, ecPut, getfile, ecGetattr]
  replace hne : ¬ l.new = 0#64 := hne
  simp [createNew, run_getdata_some h, hfree, hinum, hne, henter]

theorem run_lookup (parent : Inum) :
    run serve (lookup beyond parent name) (calm s l.fate) =
      match s parent with
      | none => ((.NOENT, none), calm s l.fate)
      | some data => ((.OK, (dirOf beyond data).find? (strName name)), calm s l.fate) := by
  cases h : s parent with
  | none => simp [lookup, run_getdata_none h]
  | some data => simp [lookup, run_getdata_some h]

theorem run_readdir (inum : Inum) :
    run serve (readdir beyond DirForm.new inum) (calm s l.fate) =
      match s inum with
      | none => ((.IOERR, DirForm.new), calm s l.fate)
      | some data => ((.OK, DirForm.new.stringToDirForm beyond data), calm s l.fate) := by
  cases h : s inum with
  | none => simp [readdir, run_getdata_none h]
  | some data => simp [readdir, run_getdata_some h]

theorem run_unlink_none (h : s parent = none) :
    run serve (unlink beyond parent name) (calm s l.fate) = (.NOENT, calm s l.fate) := by
  simp [unlink, run_getdata_none h]

/-- A name that is missing, or that of a directory. -/
theorem run_unlink_noent {data : Bytes} (h : s parent = some data)
    (hno : ∀ ino, (dirOf beyond data).find? (strName name) = some ino → isfile ino = false) :
    run serve (unlink beyond parent name) (calm s l.fate) = (.NOENT, calm s l.fate) := by
  cases hfind : (dirOf beyond data).find? (strName name) with
  | none => simp [unlink, run_getdata_some h, hfind]
  | some ino => simp [unlink, run_getdata_some h, hfind, hno ino hfind]

theorem run_unlink_file {data : Bytes} {ino : Inum} (h : s parent = some data)
    (hfind : (dirOf beyond data).find? (strName name) = some ino) (hfile : isfile ino = true)
    (hino : (s ino).isSome = true) :
    run serve (unlink beyond parent name) (calm s l.fate) =
      (.OK, calm (update (update s parent
        (some (dirBytes ((dirOf beyond data).erase (strName name))))) ino none) l.fate) := by
  have hthere : ∀ d, (update s parent (some d) ino).isSome = true := by
    intro d
    by_cases he : ino = parent
    · simp [he]
    · simpa [he] using hino
  have hremove := fun d => serve_remove_calm (update s parent (some d)) l ino (hthere d)
  simp [unlink, run_getdata_some h, hfind, hfile, putdata, ecPut, ecRemove, hremove]

end

/-! ## Bytes and bindings -/

structure Holds (block : OrdMap Bytes Inum) (m : Bindings) : Prop where
  keys : ∀ p ∈ block.entries, ∃ name : Name, p.1 = name.key
  find : ∀ name : Name, block.find? name.key = m name

theorem Holds.length_key (h : Holds block m) :
    ∀ p ∈ block.entries, p.1.length = maxItemNameLen := by
  intro p hp
  obtain ⟨name, hname⟩ := h.keys p hp
  rw [hname]
  exact length_resize _ _

theorem holds_empty : Holds OrdMap.empty fun _ => none :=
  ⟨fun _ hp => absurd hp List.not_mem_nil, fun _ => rfl⟩

theorem Holds.insert (h : Holds block m) (name : Name) (ino : Inum) :
    Holds (block.insert name.key ino) (update m name (some ino)) := by
  constructor
  · intro p hp
    rcases OrdMap.mem_insert hp with rfl | hp
    · exact ⟨name, rfl⟩
    · exact h.keys p hp
  · intro name'
    rw [OrdMap.find?_insert]
    by_cases hn : name' = name
    · simp [hn]
    · rw [if_neg fun hkey => hn (strName_injective hkey), h.find, update_of_ne hn]

theorem Holds.erase (h : Holds block m) (name : Name) :
    Holds (block.erase name.key) (update m name none) := by
  constructor
  · intro p hp
    exact h.keys p (List.mem_of_mem_filter hp)
  · intro name'
    rw [OrdMap.find?_erase]
    by_cases hn : name' = name
    · simp [hn]
    · rw [if_neg fun hkey => hn (strName_injective hkey), h.find, update_of_ne hn]

/-- As many entries as bound names. -/
theorem Holds.length (h : Holds block m) : block.entries.length = {name | m name ≠ none}.ncard := by
  have hkeys : Name.key '' {name | m name ≠ none} = ↑(block.entries.map Prod.fst).toFinset := by
    ext key
    simp only [Set.mem_image, Set.mem_ofPred_eq, List.coe_toFinset, List.mem_map, Prod.exists,
      exists_and_right, exists_eq_right]
    constructor
    · rintro ⟨name, hbound, rfl⟩
      obtain ⟨ino, hino⟩ := Option.ne_none_iff_exists'.mp hbound
      exact ⟨ino, block.mem_entries_iff.mpr ((h.find name).trans hino)⟩
    · rintro ⟨ino, hmem⟩
      obtain ⟨name, rfl⟩ := h.keys _ hmem
      have hfind := block.mem_entries_iff.mp hmem
      rw [h.find] at hfind
      exact ⟨name, by simp [hfind], rfl⟩
  rw [← Set.ncard_image_of_injective _ fun _ _ => strName_injective, hkeys, Set.ncard_coe_finset,
    List.toFinset_card_of_nodup block.nodup_keys, List.length_map]

/-- An extent with these bindings: what was written for them, or nothing
yet. -/
def IsDir (data : Bytes) (m : Bindings) : Prop :=
  ∃ block, Holds block m ∧ block.entries.length < 2 ^ 31 ∧
    (data = dirBytes block ∨ data = [] ∧ block = OrdMap.empty)

/-- It is read as it was written. -/
theorem IsDir.holds {data : Bytes} (h : IsDir data m) (beyond : Nat → UInt8) :
    Holds (dirOf beyond data) m := by
  obtain ⟨block, hholds, hlen, rfl | ⟨rfl, rfl⟩⟩ := h
  · rwa [dirOf_dirBytes_of_lt beyond hholds.length_key hlen]
  · rwa [dirOf_nil]

theorem isDir_nil : IsDir [] fun _ => none :=
  ⟨OrdMap.empty, holds_empty, by decide, .inr ⟨rfl, rfl⟩⟩

/-- A directory that fits an `int` again after the change. -/
theorem Holds.isDir (h : Holds block m) (hsmall : {name | m name ≠ none}.ncard < 2 ^ 31) :
    IsDir (dirBytes block) m :=
  ⟨block, h, h.length ▸ hsmall, .inl rfl⟩

/-- The store has an extent for each directory of the model, with its
bindings, and no other. -/
def Represents (s : Store) (d : Dirs) : Prop := ∀ q, Option.Rel IsDir (s q) (d q)

theorem Represents.update {s : Store} (h : Represents s d) (q : Inum) {a : Option Bytes}
    {b : Option Bindings} (hab : Option.Rel IsDir a b) :
    Represents (update s q a) (update d q b) := by
  intro q'
  by_cases hq : q' = q
  · subst hq
    simpa using hab
  · simpa [hq] using h q'

theorem Represents.none_iff {s : Store} (h : Represents s d) (q : Inum) :
    s q = none ↔ d q = none := by
  have hq := h q
  generalize s q = a at hq
  generalize d q = b at hq
  cases hq <;> simp

theorem Represents.some {s : Store} (h : Represents s d) {q : Inum} (hm : d q = some m) :
    ∃ data, s q = some data ∧ IsDir data m := by
  have hq := h q
  rw [hm] at hq
  generalize s q = a at hq
  cases hq with
  | some hdir => exact ⟨_, rfl, hdir⟩

/-! ## Bindings across directories -/

/-- Directory `p` binds `name` to `i`. -/
def Bound (d : Dirs) (p : Inum) (name : Name) (i : Inum) : Prop :=
  ∃ m, d p = some m ∧ m name = some i

structure Sound (d : Dirs) : Prop where
  there : ∀ p name i, Bound d p name i → (d i).isSome = true
  once : ∀ p name p' name' i, Bound d p name i → Bound d p' name' i → p = p' ∧ name = name'

theorem bound_linked {name : Name} {new : Inum} (hparent : d parent = some m) {p : Inum}
    {i : Inum} (h : Bound (d.linked parent m name new) p n i) :
    (p = parent ∧ n = name ∧ i = new) ∨ Bound d p n i := by
  obtain ⟨m', hm', hi⟩ := h
  unfold Dirs.linked at hm'
  by_cases hnew : p = new
  · rw [hnew, update_self] at hm'
    cases hm'
    cases hi
  rw [update_of_ne hnew] at hm'
  by_cases hp : p = parent
  · rw [hp, update_self] at hm'
    cases hm'
    by_cases hn : n = name
    · rw [hn, update_self] at hi
      exact .inl ⟨hp, hn, (Option.some.inj hi).symm⟩
    · rw [update_of_ne hn] at hi
      exact .inr ⟨m, hp ▸ hparent, hi⟩
  · rw [update_of_ne hp] at hm'
    exact .inr ⟨m', hm', hi⟩

theorem bound_unlinked {name : Name} {ino : Inum} (hparent : d parent = some m) {p : Inum}
    {i : Inum} (h : Bound (d.unlinked parent m name ino) p n i) :
    ¬ (p = parent ∧ n = name) ∧ Bound d p n i := by
  obtain ⟨m', hm', hi⟩ := h
  unfold Dirs.unlinked at hm'
  by_cases hino : p = ino
  · rw [hino, update_self] at hm'
    cases hm'
  rw [update_of_ne hino] at hm'
  by_cases hp : p = parent
  · rw [hp, update_self] at hm'
    cases hm'
    by_cases hn : n = name
    · rw [hn, update_self] at hi
      cases hi
    · rw [update_of_ne hn] at hi
      exact ⟨fun h => hn h.2, m, hp ▸ hparent, hi⟩
  · rw [update_of_ne hp] at hm'
    exact ⟨fun h => hp h.1, m', hm', hi⟩

/-- A number without a directory is bound nowhere. -/
theorem Sound.not_bound (h : Sound d) {i : Inum} (hi : d i = none) (p : Inum) (n : Name) :
    ¬ Bound d p n i := by
  intro hb
  have hthere := h.there p n i hb
  rw [hi] at hthere
  cases hthere

theorem Sound.linked (h : Sound d) (name : Name) {new : Inum} (hparent : d parent = some m)
    (hnew : d new = none) : Sound (d.linked parent m name new) := by
  constructor
  · intro p n i hb
    by_cases hinew : i = new
    · simp [Dirs.linked, hinew]
    · rcases bound_linked hparent hb with ⟨-, -, hi⟩ | hb
      · exact absurd hi hinew
      · have hi := h.there p n i hb
        by_cases hip : i = parent
        · subst hip
          simp [Dirs.linked, hinew]
        · simpa [Dirs.linked, hinew, hip] using hi
  · intro p n p' n' i hb hb'
    rcases bound_linked hparent hb with ⟨rfl, rfl, hi⟩ | hold
    · rcases bound_linked hparent hb' with ⟨rfl, rfl, -⟩ | hold'
      · exact ⟨rfl, rfl⟩
      · exact absurd (hi ▸ hold') (h.not_bound hnew p' n')
    · rcases bound_linked hparent hb' with ⟨-, -, hi⟩ | hold'
      · exact absurd (hi ▸ hold) (h.not_bound hnew p n)
      · exact h.once p n p' n' i hold hold'

theorem Sound.unlinked (h : Sound d) {name : Name} {ino : Inum} (hparent : d parent = some m)
    (hino : m name = some ino) : Sound (d.unlinked parent m name ino) := by
  constructor
  · intro p n i hb
    obtain ⟨hother, hold⟩ := bound_unlinked hparent hb
    -- the binding that went was the only one of `ino`
    have hi : i ≠ ino := by
      rintro rfl
      exact hother (h.once p n parent name i hold ⟨m, hparent, hino⟩)
    have hthere := h.there p n i hold
    by_cases hip : i = parent
    · subst hip
      simp [Dirs.unlinked, hi]
    · simpa [Dirs.unlinked, hi, hip] using hthere
  · intro p n p' n' i hb hb'
    exact h.once p n p' n' i (bound_unlinked hparent hb).2 (bound_unlinked hparent hb').2

end Yfs.Fs
