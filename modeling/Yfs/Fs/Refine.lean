/-
Yfs.Fs.Refine — the directory operations are those of a map for each
directory (yfs_client.cc), as long as the number of entries of a directory
is an `int`.

`step_refines` is one request from any state in which the extents represent
the maps; `directories_refine_maps` is every sequence of requests from an
empty root. The numbers `getinode` gives are part of the requests, and
assumed to be fresh.

With `2³¹` entries the count in front of them is negative and the directory
reads as empty (`full_directory_forgets`). The run that gets there is made
one file at a time, through the refinement itself.
-/
import Yfs.Fs.Directories
import Yfs.Lib.Run

namespace Yfs.Fs

open Yfs.Effect Yfs.Effect.Prog Yfs.Run Function
open Yfs.Extent (Bytes Attr)

/-! ## One request -/

def Lists (entries : List (Bytes × Inum)) (m : Bindings) : Prop :=
  (entries.map Prod.fst).Nodup ∧
    ∀ p, p ∈ entries ↔ ∃ name : Name, p.1 = name.key ∧ m name = some p.2

variable {m : Bindings} {d : Dirs} {j k : Nat}

theorem Holds.lists {block : OrdMap Bytes Inum} (h : Holds block m) : Lists block.entries m := by
  refine ⟨block.nodup_keys, fun p => ?_⟩
  rw [block.mem_entries_iff]
  constructor
  · intro hp
    obtain ⟨name, hname⟩ := h.keys p (block.mem_entries_iff.mpr hp)
    exact ⟨name, hname, by rw [← h.find, ← hname, hp]⟩
  · rintro ⟨name, hname, hp⟩
    rw [hname, h.find, hp]

def Answer.Matches : Answer (List (Bytes × Inum)) → Answer Bindings → Prop
  | .made st ino, .made st' ino' => st = st' ∧ ino = ino'
  | .unlinked st, .unlinked st' => st = st'
  | .found st ino, .found st' ino' => st = st' ∧ ino = ino'
  | .listed st entries, .listed st' m => st = st' ∧ Lists entries m
  | _, _ => False

/-- Every directory has fewer than `2³¹` names. -/
def Small (d : Dirs) : Prop := ∀ q m, d q = some m → {name | m name ≠ none}.ncard < 2 ^ 31

structure Refines (code : Answer (List (Bytes × Inum)) × Store) (model : Answer Bindings × Dirs) :
    Prop where
  answer : code.1.Matches model.1
  sound : Sound model.2
  store : Small model.2 → Represents code.2 model.2

section
variable {s : Store} {d : Dirs} (hrep : Represents s d) (hsound : Sound d) {l : Luck}
include hrep hsound

theorem createNew_refines (isFile : Bool) (parent : Inum) (name : Name) (hnew : s l.new = none)
    (hne : l.new ≠ 0) :
    Refines
      (.made (run serve (createNew l.beyond isFile parent name.bytes) (calm s l.fate)).1.1
          (run serve (createNew l.beyond isFile parent name.bytes) (calm s l.fate)).1.2,
        (run serve (createNew l.beyond isFile parent name.bytes) (calm s l.fate)).2.store)
      (d.add parent name l.new) := by
  have hdnew : d l.new = none := (hrep.none_iff _).mp hnew
  cases hparent : d parent with
  | none =>
    have hmodel : d.add parent name l.new = (.made .NOENT none, d) := by
      simp [Dirs.add, hparent]
    rw [run_createNew_none l.beyond isFile ((hrep.none_iff parent).mpr hparent), hmodel]
    exact ⟨⟨rfl, rfl⟩, hsound, fun _ => hrep⟩
  | some m =>
    obtain ⟨data, hdata, hdir⟩ := hrep.some hparent
    have hholds := hdir.holds l.beyond
    have hfind : (dirOf l.beyond data).find? (strName name.bytes) = m name := hholds.find name
    cases hname : m name with
    | some ino =>
      have hmodel : d.add parent name l.new = (.made .EXIST none, d) := by
        simp [Dirs.add, hparent, hname]
      rw [run_createNew_bound l.beyond isFile hdata (by rw [hfind, hname]; rfl), hmodel]
      exact ⟨⟨rfl, rfl⟩, hsound, fun _ => hrep⟩
    | none =>
      have hmodel : d.add parent name l.new =
          (.made .OK (some l.new), d.linked parent m name l.new) := by
        simp [Dirs.add, hparent, hname]
      rw [run_createNew_free l.beyond isFile hdata (hfind.trans hname) hnew hne, hmodel]
      refine ⟨⟨rfl, rfl⟩, hsound.linked name hparent hdnew, fun hsmall => ?_⟩
      have hpn : parent ≠ l.new := by
        rintro rfl
        rw [hdnew] at hparent
        cases hparent
      have hlinked : d.linked parent m name l.new parent =
          some (update m name (some l.new)) := by
        simp [Dirs.linked, hpn]
      have hbytes : IsDir (linked l.beyond data name.bytes l.new)
          (update m name (some l.new)) :=
        (hholds.insert name l.new).isDir (hsmall parent _ hlinked)
      exact (hrep.update parent (.some hbytes)).update l.new (.some isDir_nil)

theorem unlink_refines (parent : Inum) (name : Name) :
    Refines
      (.unlinked (run serve (unlink l.beyond parent name.bytes) (calm s l.fate)).1,
        (run serve (unlink l.beyond parent name.bytes) (calm s l.fate)).2.store)
      (d.unlink parent name) := by
  cases hparent : d parent with
  | none =>
    have hmodel : d.unlink parent name = (.unlinked .NOENT, d) := by
      simp [Dirs.unlink, hparent]
    rw [run_unlink_none l.beyond ((hrep.none_iff parent).mpr hparent), hmodel]
    exact ⟨rfl, hsound, fun _ => hrep⟩
  | some m =>
    obtain ⟨data, hdata, hdir⟩ := hrep.some hparent
    have hholds := hdir.holds l.beyond
    have hfind : (dirOf l.beyond data).find? (strName name.bytes) = m name := hholds.find name
    by_cases hfile : ∃ ino, m name = some ino ∧ isfile ino = true
    · obtain ⟨ino, hname, hfile⟩ := hfile
      have hmodel : d.unlink parent name = (.unlinked .OK, d.unlinked parent m name ino) := by
        simp [Dirs.unlink, hparent, hname, hfile]
      have hthere : (s ino).isSome = true := by
        have hino := hsound.there parent name ino ⟨m, hparent, hname⟩
        rw [← Option.ne_none_iff_isSome] at hino ⊢
        exact fun h => hino ((hrep.none_iff ino).mp h)
      rw [run_unlink_file l.beyond hdata (hfind.trans hname) hfile hthere, hmodel]
      refine ⟨rfl, hsound.unlinked hparent hname, fun _ => ?_⟩
      have hbytes : IsDir (dirBytes ((dirOf l.beyond data).erase name.key))
          (update m name none) :=
        ⟨_, hholds.erase name, (List.length_filter_le _ _).trans_lt (length_dirOf_lt _ _),
          .inl rfl⟩
      exact (hrep.update parent (.some hbytes)).update ino .none
    · have hno : ∀ ino, m name = some ino → isfile ino = false := by
        simpa using hfile
      have hmodel : d.unlink parent name = (.unlinked .NOENT, d) := by
        cases hname : m name with
        | none => simp [Dirs.unlink, hparent, hname]
        | some ino => simp [Dirs.unlink, hparent, hname, hno ino hname]
      rw [run_unlink_noent l.beyond hdata (by rwa [hfind]), hmodel]
      exact ⟨rfl, hsound, fun _ => hrep⟩

end

/-- `getinode` gives a number that is free, not 0 and of the right type to
the requests that ask for one. -/
def Fresh (s : Store) (l : Luck) : Request → Prop
  | .create _ _ => s l.new = none ∧ l.new ≠ 0 ∧ isfile l.new = true
  | .mkdir _ _ => s l.new = none ∧ l.new ≠ 0 ∧ isfile l.new = false
  | _ => True

theorem step_refines {s : Store} (hrep : Represents s d) (hsound : Sound d) {l : Luck}
    {q : Request} (hfresh : Fresh s l q) : Refines (serveRequest s l q) (d.step l.new q) := by
  cases q with
  | create parent name => exact createNew_refines hrep hsound true parent name hfresh.1 hfresh.2.1
  | mkdir parent name => exact createNew_refines hrep hsound false parent name hfresh.1 hfresh.2.1
  | unlink parent name => exact unlink_refines hrep hsound parent name
  | lookup parent name =>
    simp only [serveRequest, Dirs.step, run_lookup]
    cases hparent : d parent with
    | none =>
      rw [(hrep.none_iff parent).mpr hparent]
      exact ⟨⟨rfl, rfl⟩, hsound, fun _ => hrep⟩
    | some m =>
      obtain ⟨data, hdata, hdir⟩ := hrep.some hparent
      have hfind : (dirOf l.beyond data).find? (strName name.bytes) = m name :=
        (hdir.holds l.beyond).find name
      simp only [hdata, hfind]
      exact ⟨⟨rfl, rfl⟩, hsound, fun _ => hrep⟩
  | readdir inum =>
    simp only [serveRequest, Dirs.step, run_readdir]
    cases hinum : d inum with
    | none =>
      rw [(hrep.none_iff inum).mpr hinum]
      exact ⟨⟨rfl, holds_empty.lists⟩, hsound, fun _ => hrep⟩
    | some m =>
      obtain ⟨data, hdata, hdir⟩ := hrep.some hinum
      rw [hdata]
      exact ⟨⟨rfl, (hdir.holds l.beyond).lists⟩, hsound, fun _ => hrep⟩

/-- Another directory stays as it is; only a file can be unlinked. -/
theorem step_other {s : Store} (hrep : Represents s d) {l : Luck} {q : Request}
    (hfresh : Fresh s l q) {p : Inum} (hp : p ≠ q.dir) (hdir : isfile p = false)
    (hthere : d p ≠ none) : (d.step l.new q).2 p = d p := by
  have hadd : ∀ parent name, p ≠ parent → s l.new = none →
      (d.add parent name l.new).2 p = d p := by
    intro parent name hp hnone
    have hnew : p ≠ l.new := by
      rintro rfl
      exact hthere ((hrep.none_iff _).mp hnone)
    unfold Dirs.add
    split
    · rfl
    · split
      · rfl
      · simp [Dirs.linked, hp, hnew]
  cases q with
  | create parent name | mkdir parent name => exact hadd parent name hp hfresh.1
  | unlink parent name =>
    replace hp : p ≠ parent := hp
    simp only [Dirs.step, Dirs.unlink]
    split
    · rfl
    · split
      · rfl
      · split
        · rename_i ino _ hfile
          have hino : p ≠ ino := by
            rintro rfl
            rw [hdir] at hfile
            cases hfile
          simp [Dirs.unlinked, hp, hino]
        · rfl
  | lookup parent name =>
    simp only [Dirs.step]
    split <;> rfl
  | readdir inum =>
    simp only [Dirs.step]
    split <;> rfl

/-! ## Sequences of requests -/

structure Both where
  store : Store
  dirs : Dirs

def Both.step (b : Both) (e : Request × Luck) : Option Both :=
  some ⟨(serveRequest b.store e.2 e.1).2, (b.dirs.step e.2.new e.1).2⟩

def Both.root : Both :=
  ⟨update (fun _ => none) 1 (some []),
    update (fun _ => none) 1 (some fun _ => none)⟩

/-- The number is fresh, and no directory gets `2³¹` names. -/
def Both.Sized (b : Both) (e : Request × Luck) : Prop :=
  Fresh b.store e.2 e.1 ∧ Small (b.dirs.step e.2.new e.1).2

theorem represents_root : Represents Both.root.store Both.root.dirs := by
  have hempty : Represents (fun _ => none) fun _ => none := fun _ => .none
  exact hempty.update 1 (.some isDir_nil)

theorem sound_root : Sound Both.root.dirs := by
  have hnone : ∀ p name i, ¬ Bound Both.root.dirs p name i := by
    rintro p name i ⟨m, hm, hi⟩
    by_cases hp : p = 1#64
    · obtain rfl : (fun _ => none) = m := by simpa [Both.root, hp] using hm
      cases hi
    · simp [Both.root, hp] at hm
  exact ⟨fun p n i h => absurd h (hnone p n i), fun p n _ _ i h => absurd h (hnone p n i)⟩

theorem represents_of_reach {b : Both} (h : Reach Both.step Both.Sized Both.root b) :
    Represents b.store b.dirs ∧ Sound b.dirs := by
  refine Reach.invariant (fun b => Represents b.store b.dirs ∧ Sound b.dirs)
    ⟨represents_root, sound_root⟩ ?_ h
  rintro b e b' ⟨hrep, hsound⟩ ⟨hfresh, hsmall⟩ hstep
  cases hstep
  have href := step_refines hrep hsound hfresh
  exact ⟨href.store hsmall, href.sound⟩

/-! ## A root with many files -/

def manyName (j : Nat) : Name where
  bytes := (List.range 31).map fun i => if j.testBit i then 50 else 49
  short := by simp [maxItemNameLen]
  nulFree := by
    simp only [List.mem_map, not_exists, not_and]
    intro i _
    split <;> decide

def manyInum (j : Nat) : Inum := BitVec.ofNat 64 (2 ^ 31 + j)

theorem manyName_injective (hj : j < 2 ^ 31) (hk : k < 2 ^ 31) (h : manyName j = manyName k) :
    j = k := by
  have hbytes : (manyName j).bytes = (manyName k).bytes := congrArg Name.bytes h
  refine Nat.eq_of_testBit_eq fun i => ?_
  by_cases hi : i < 31
  · have hget := congrArg (fun l : Bytes => l[i]?) hbytes
    have hbit : (if j.testBit i then (50 : UInt8) else 49) = if k.testBit i then 50 else 49 := by
      simpa [manyName, hi] using hget
    cases hj : j.testBit i <;> cases hk : k.testBit i <;> simp_all
  · have hpow : 2 ^ 31 ≤ 2 ^ i := Nat.pow_le_pow_right (by decide) (by omega)
    rw [Nat.testBit_lt_two_pow (hj.trans_le hpow), Nat.testBit_lt_two_pow (hk.trans_le hpow)]

theorem manyInum_injective (hj : j < 2 ^ 31) (hk : k < 2 ^ 31) (h : manyInum j = manyInum k) :
    j = k := by
  have hnat := congrArg BitVec.toNat h
  simp only [manyInum, BitVec.toNat_ofNat] at hnat
  omega

theorem manyInum_ne_one (hj : j < 2 ^ 31) : manyInum j ≠ 1 := by
  intro h
  have hnat := congrArg BitVec.toNat h
  have hone : (1 : Inum).toNat = 1 := rfl
  simp only [manyInum, BitVec.toNat_ofNat, hone] at hnat
  omega

theorem isfile_manyInum (hj : j < 2 ^ 31) : isfile (manyInum j) = true := by
  rw [isfile_eq, manyInum, BitVec.getLsbD_ofNat, Nat.testBit_two_pow_add_eq,
    Nat.testBit_lt_two_pow hj]
  rfl

def manyRequest (j : Nat) : Request × Luck :=
  (.create 1 (manyName j), ⟨manyInum j, ⟨0, 0, 0, 0⟩, fun _ => 0⟩)

/-- The root binds the first `k` names, and there is nothing else but the
files they name. -/
structure Filled (k : Nat) (d : Dirs) (m : Bindings) : Prop where
  root : d 1 = some m
  names : ∀ name, m name ≠ none ↔ ∃ j < k, name = manyName j
  others : ∀ q, q ≠ 1 → d q ≠ none → (∃ j < k, q = manyInum j) ∧ d q = some fun _ => none

theorem Filled.ncard (h : Filled k d m) (hk : k ≤ 2 ^ 31) : {name | m name ≠ none}.ncard = k := by
  have himage : {name | m name ≠ none} = manyName '' Set.Iio k := by
    ext name
    simp only [Set.mem_ofPred_eq, h.names, Set.mem_image, Set.mem_Iio, eq_comm]
  have hinj : Set.InjOn manyName (Set.Iio k) := fun i hi j hj =>
    manyName_injective (lt_of_lt_of_le hi hk) (lt_of_lt_of_le hj hk)
  rw [himage, hinj.ncard_image, Set.ncard_eq_toFinset_card', Set.toFinset_Iio,
    Nat.card_Iio]

theorem Filled.small (h : Filled k d m) (hk : k < 2 ^ 31) : Small d := by
  intro q m' hm'
  by_cases hq : q = 1
  · rw [hq, h.root] at hm'
    cases hm'
    rwa [h.ncard hk.le]
  · obtain ⟨-, hnone⟩ := h.others q hq (by rw [hm']; exact Option.some_ne_none m')
    rw [hm'] at hnone
    cases hnone
    simp

/-- The next name and number are free. -/
theorem Filled.free (h : Filled k d m) (hk : k < 2 ^ 31) :
    m (manyName k) = none ∧ d (manyInum k) = none := by
  constructor
  · by_contra hbound
    obtain ⟨j, hj, hname⟩ := (h.names _).mp hbound
    have := manyName_injective hk (hj.trans hk) hname
    omega
  · by_contra hthere
    obtain ⟨⟨j, hj, hinum⟩, -⟩ := h.others _ (manyInum_ne_one hk) hthere
    have := manyInum_injective hk (hj.trans hk) hinum
    omega

theorem Filled.step (h : Filled k d m) (hk : k < 2 ^ 31) :
    (d.step (manyInum k) (.create 1 (manyName k))).2 = d.linked 1 m (manyName k) (manyInum k) ∧
      Filled (k + 1) (d.linked 1 m (manyName k) (manyInum k))
        (update m (manyName k) (some (manyInum k))) := by
  have hne := manyInum_ne_one hk
  refine ⟨?_, ?_, ?_, ?_⟩
  · simp only [Dirs.step, Dirs.add, h.root, (h.free hk).1]
  · rw [Dirs.linked, update_of_ne hne.symm, update_self]
  · intro name
    by_cases hname : name = manyName k
    · subst hname
      simp only [update_self, ne_eq, reduceCtorEq, not_false_eq_true, true_iff]
      exact ⟨k, Nat.lt_succ_self k, rfl⟩
    · rw [update_of_ne hname, h.names]
      constructor
      · rintro ⟨j, hj, rfl⟩
        exact ⟨j, by omega, rfl⟩
      · rintro ⟨j, hj, rfl⟩
        have : j ≠ k := fun hjk => hname (by rw [hjk])
        exact ⟨j, by omega, rfl⟩
  · intro q hq hthere
    by_cases hnew : q = manyInum k
    · subst hnew
      exact ⟨⟨k, Nat.lt_succ_self k, rfl⟩, update_self _ _ _⟩
    · rw [Dirs.linked, update_of_ne hnew, update_of_ne hq] at hthere ⊢
      obtain ⟨⟨j, hj, rfl⟩, hnone⟩ := h.others q hq hthere
      exact ⟨⟨j, by omega, rfl⟩, hnone⟩

theorem fresh_manyRequest {b : Both} (hrep : Represents b.store b.dirs) (h : Filled k b.dirs m)
    (hk : k < 2 ^ 31) : Fresh b.store (manyRequest k).2 (manyRequest k).1 := by
  refine ⟨(hrep.none_iff _).mpr (h.free hk).2, fun hzero => ?_, isfile_manyInum hk⟩
  have hfile := isfile_manyInum hk
  replace hzero : manyInum k = 0 := hzero
  rw [hzero] at hfile
  revert hfile
  decide

/-- One file after the other, as long as they can be counted. -/
theorem exists_filled (hk : k < 2 ^ 31) :
    ∃ b m, Reach Both.step Both.Sized Both.root b ∧ Filled k b.dirs m := by
  induction k with
  | zero =>
    refine ⟨Both.root, fun _ => none, .init, rfl, by simp, fun q hq hthere => ?_⟩
    have hnone : Both.root.dirs q = none := by
      show update (fun _ => none) (1 : Inum) (some fun _ => none) q = none
      rw [update_of_ne hq]
    exact absurd hnone hthere
  | succ k ih =>
    obtain ⟨b, m, hreach, hfilled⟩ := ih (by omega)
    obtain ⟨hstep, hnext⟩ := hfilled.step (by omega)
    have hfresh := fresh_manyRequest (represents_of_reach hreach).1 hfilled (by omega)
    have hsmall : Small (b.dirs.step (manyInum k) (.create 1 (manyName k))).2 := by
      rw [hstep]
      exact hnext.small hk
    rw [← hstep] at hnext
    exact ⟨_, _, hreach.step (e := manyRequest k) ⟨hfresh, hsmall⟩ rfl, hnext⟩

/-- **Directories are maps.** After any sequence of requests with fresh
inode numbers in which no directory got `2³¹` entries, every extent holds
the bindings of the model, the next request is answered as the model
answers it, and it changes no other directory. -/
theorem directories_refine_maps {b : Both} (h : Reach Both.step Both.Sized Both.root b)
    {q : Request} {l : Luck} (hfresh : Fresh b.store l q) :
    Represents b.store b.dirs ∧
    (serveRequest b.store l q).1.Matches (b.dirs.step l.new q).1 ∧
    ∀ p, p ≠ q.dir → isfile p = false → b.dirs p ≠ none → (b.dirs.step l.new q).2 p = b.dirs p := by
  obtain ⟨hrep, hsound⟩ := represents_of_reach h
  exact ⟨hrep, (step_refines hrep hsound hfresh).answer, fun p => step_other hrep hfresh⟩

/-- In a root with three files a fourth is made, a name that is taken is
refused, and `readdir` lists the three. -/
theorem directories_refine_maps_threeFiles :
    ∃ b m, Reach Both.step Both.Sized Both.root b ∧ {name | m name ≠ none}.ncard = 3 ∧
      (serveRequest b.store (manyRequest 3).2 (manyRequest 3).1).1.Matches
        (.made .OK (some (manyInum 3))) ∧
      (serveRequest b.store (manyRequest 3).2 (.create 1 (manyName 0))).1.Matches
        (.made .EXIST none) ∧
      (serveRequest b.store (manyRequest 3).2 (.readdir 1)).1.Matches (.listed .OK m) := by
  obtain ⟨b, m, hreach, hfilled⟩ := exists_filled (k := 3) (by decide)
  have hfresh := fresh_manyRequest (represents_of_reach hreach).1 hfilled (by decide)
  have hroot := hfilled.root
  obtain ⟨i, hi⟩ : ∃ i, m (manyName 0) = some i :=
    Option.ne_none_iff_exists'.mp ((hfilled.names _).mpr ⟨0, by decide, rfl⟩)
  have hmade := (directories_refine_maps hreach hfresh).2.1
  have htaken := (directories_refine_maps hreach (q := .create 1 (manyName 0)) hfresh).2.1
  have hlisted := (directories_refine_maps hreach (q := .readdir 1) (l := (manyRequest 3).2)
    trivial).2.1
  simp only [manyRequest, Dirs.step, Dirs.add, hroot, (hfilled.free (by decide)).1] at hmade
  simp only [Dirs.step, Dirs.add, hroot, hi] at htaken
  simp only [Dirs.step, hroot] at hlisted
  exact ⟨b, m, hreach, hfilled.ncard (by decide), hmade, htaken, hlisted⟩

/-! ## A full directory -/

theorem serveRequest_lookup {s : Store} {l : Luck} {parent : Inum} {data : Bytes}
    (h : s parent = some data) (name : Name) :
    (serveRequest s l (.lookup parent name)).1 =
      .found .OK ((dirOf l.beyond data).find? name.key) := by
  simp only [serveRequest, run_lookup, h]
  rfl

theorem Dirs.step_lookup {parent : Inum} (h : d parent = some m) (new : Inum) (name : Name) :
    (d.step new (.lookup parent name)).1 = .found .OK (m name) := by
  simp only [Dirs.step, h]

/-- The last file that makes the root overflow leaves nothing to be read. -/
theorem root_overflows (hk : k + 1 = 2 ^ 31) {b : Both} (hrep : Represents b.store b.dirs)
    (hfilled : Filled k b.dirs m) :
    ∃ data, (serveRequest b.store (manyRequest k).2 (manyRequest k).1).2 1 = some data ∧
      dirOf (fun _ => 0) data = OrdMap.empty := by
  have hlt : k < 2 ^ 31 := by omega
  obtain ⟨hnew, hne, -⟩ := fresh_manyRequest hrep hfilled hlt
  obtain ⟨data, hdata, hdir⟩ := hrep.some hfilled.root
  have hholds := hdir.holds fun _ => 0
  have hfree : (dirOf (fun _ => 0) data).find? (manyName k).key = none :=
    (hholds.find _).trans (hfilled.free hlt).1
  have hrun := run_createNew_free (fun _ => 0) true hdata hfree hnew hne
  refine ⟨linked (fun _ => 0) data (manyName k).bytes (manyInum k), ?_, ?_⟩
  · show (run serve (createNew (fun _ => 0) true 1 (manyName k).bytes)
      (calm b.store (manyRequest k).2.fate)).2.store 1 = _
    have hother : 1 ≠ (manyRequest k).2.new := (manyInum_ne_one hlt).symm
    rw [hrun, calm_store, update_of_ne hother, update_self]
    rfl
  · refine dirBlock_of_overflow _ (keys_insert (keys_dirOf _ _) _ _) ?_
    have hlength := OrdMap.length_insert hfree (manyInum k)
    rw [hholds.length, hfilled.ncard hlt.le, hk] at hlength
    exact hlength

/-- **Not with `2³¹` entries**: after that many files have been made in the
root, a lookup of the first one does not find it. -/
theorem full_directory_forgets :
    ¬ ∀ b, Reach Both.step (fun b e => Fresh b.store e.2 e.1) Both.root b →
      ∀ q l, Fresh b.store l q →
        (serveRequest b.store l q).1.Matches (b.dirs.step l.new q).1 := by
  intro hall
  obtain ⟨k, hk⟩ : ∃ k, k + 1 = 2 ^ 31 := ⟨2 ^ 31 - 1, by decide⟩
  have hlt : k < 2 ^ 31 := by omega
  obtain ⟨b, m, hreach, hfilled⟩ := exists_filled hlt
  obtain ⟨hrep, -⟩ := represents_of_reach hreach
  obtain ⟨hstep, hfull⟩ := hfilled.step hlt
  obtain ⟨data, hdata, hempty⟩ := root_overflows hk hrep hfilled
  have hreach' := (hreach.mono fun _ _ h => h.1).step (e := manyRequest k)
    (fresh_manyRequest hrep hfilled hlt) rfl
  have hmatch := hall _ hreach' (.lookup 1 (manyName 0)) ⟨0, ⟨0, 0, 0, 0⟩, fun _ => 0⟩ trivial
  -- the code finds nothing, the model the first file
  have hmodel : (b.dirs.step (manyInum k) (.create 1 (manyName k))).2 1 =
      some (update m (manyName k) (some (manyInum k))) := hstep ▸ hfull.root
  have hcode : (serveRequest (serveRequest b.store (manyRequest k).2 (manyRequest k).1).2
      ⟨0, ⟨0, 0, 0, 0⟩, fun _ => 0⟩ (.lookup 1 (manyName 0))).1 = .found .OK none := by
    rw [serveRequest_lookup hdata, hempty]
    rfl
  have hspec : ((b.dirs.step (manyInum k) (.create 1 (manyName k))).2.step 0
      (.lookup 1 (manyName 0))).1 = .found .OK (update m (manyName k)
        (some (manyInum k)) (manyName 0)) := by
    rw [Dirs.step_lookup hmodel]
  replace hmatch : Answer.Matches (.found .OK none) (.found .OK (update m (manyName k)
      (some (manyInum k)) (manyName 0))) := by
    rw [← hcode, ← hspec]
    exact hmatch
  exact (hfull.names (manyName 0)).mpr ⟨0, by omega, rfl⟩ hmatch.2.symm

end Yfs.Fs
