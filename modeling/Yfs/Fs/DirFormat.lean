/-
Yfs.Fs.DirFormat — which bytes `StringToDirForm` reads, and that it reads
back what `DirFormToString` writes (yfs_client.cc).

`DirForm.parse` is run here with the bytes of the string only: it fails
where another byte is asked for, and so says whether the string was enough.

The count is taken from the first four bytes without a look at the size,
and a record is taken when it BEGINS inside the string. So the string must
hold the count, and either it ends with a record or the count stops the loop
before the piece that is left over (`isSome_parseIn_iff`). The empty string,
which `mkdir` writes, has no count.

Of two records with one name the map keeps the first.
-/
import Yfs.Fs.Directories

namespace Yfs.Fs

open Yfs.Extent (Bytes)

/-! ## With the bytes of the string -/

def inString (data : Bytes) (pos n : Nat) : Option Bytes :=
  if pos + n ≤ data.length then some ((data.drop pos).take n) else none

def parseIn (data : Bytes) (form : DirForm) : Option DirForm :=
  form.parse (inString data) data.length

section InBounds

variable {data : Bytes} {pos n : Nat}

theorem inString_eq_none (h : data.length < pos + n) : inString data pos n = none :=
  if_neg (by omega)

def itemSize : Nat := maxItemNameLen + 8

def recordAt (data : Bytes) (pos : Nat) : Bytes × Inum :=
  ((data.drop pos).take maxItemNameLen,
    BitVec.ofNat 64 (ofLe ((data.drop (pos + maxItemNameLen)).take 8)))

def recordsFrom (data : Bytes) : Nat → Nat → List (Bytes × Inum)
  | _, 0 => []
  | pos, n + 1 => recordAt data pos :: recordsFrom data (pos + itemSize) n

theorem take_recordsFrom (data : Bytes) (pos n k : Nat) :
    (recordsFrom data pos k).take n = recordsFrom data pos (min n k) := by
  induction k generalizing pos n with
  | zero => simp [recordsFrom]
  | succ k ih =>
    cases n with
    | zero => simp [recordsFrom]
    | succ n => rw [recordsFrom, List.take_succ_cons, ih, Nat.succ_min_succ, recordsFrom]

/-- A turn of the loop that finds a whole record. -/
theorem readItems_record (h : pos + itemSize ≤ data.length) (block : OrdMap Bytes Inum) :
    readItems (inString data) data.length (n + 1) pos block =
      readItems (inString data) data.length n (pos + itemSize)
        (block.insertNew (recordAt data pos).1 (recordAt data pos).2) := by
  simp only [itemSize] at h ⊢
  have hpos : pos < data.length := by omega
  have hname : inString data pos maxItemNameLen = some _ := if_pos (by omega)
  have hnum : inString data (pos + maxItemNameLen) 8 = some _ := if_pos (by omega)
  rw [readItems, if_pos hpos, hname, hnum]
  rfl

/-- A turn that finds a piece of one. -/
theorem readItems_piece (hpos : pos < data.length) (h : data.length < pos + itemSize)
    (block : OrdMap Bytes Inum) :
    readItems (inString data) data.length (n + 1) pos block = none := by
  simp only [itemSize] at h
  have hnum : inString data (pos + maxItemNameLen) 8 = none := inString_eq_none (by omega)
  rw [readItems, if_pos hpos, hnum]
  cases inString data pos maxItemNameLen with
  | none => rfl
  | some name => rfl

/-- The loop, from a place inside the string: it stays inside if the count
stops it in time or the string ends with a record. -/
theorem readItems_eq (hpos : pos ≤ data.length) (block : OrdMap Bytes Inum) :
    readItems (inString data) data.length n pos block =
      if n ≤ (data.length - pos) / itemSize ∨ itemSize ∣ data.length - pos then
        some ((recordsFrom data pos (min n ((data.length - pos) / itemSize))).foldl
          (fun m p => m.insertNew p.1 p.2) block)
      else none := by
  have hsize : 0 < itemSize := by decide
  induction n generalizing pos block with
  | zero =>
    rw [if_pos (.inl (Nat.zero_le _)), Nat.zero_min]
    rfl
  | succ n ih =>
    rcases Nat.lt_or_ge data.length (pos + itemSize) with hpiece | hrecord
    · have hnone : (data.length - pos) / itemSize = 0 := Nat.div_eq_of_lt (by omega)
      rcases Nat.lt_or_ge pos data.length with hin | hend
      · have hdvd : ¬ itemSize ∣ data.length - pos := fun hdvd => by
          have := Nat.le_of_dvd (by omega) hdvd
          omega
        rw [readItems_piece hin hpiece, if_neg]
        rintro (hle | h)
        · omega
        · exact hdvd h
      · have hzero : data.length - pos = 0 := by omega
        rw [readItems, if_neg (by omega), if_pos (.inr (by rw [hzero]; exact dvd_zero _)),
          hnone, Nat.min_zero]
        rfl
    · -- one record, and the rest is one record shorter
      have hrest : data.length - pos = (data.length - (pos + itemSize)) + itemSize := by omega
      have hdiv : (data.length - pos) / itemSize =
          (data.length - (pos + itemSize)) / itemSize + 1 := by
        rw [hrest, Nat.add_div_right _ hsize]
      have hdvd : itemSize ∣ data.length - pos ↔ itemSize ∣ data.length - (pos + itemSize) := by
        rw [hrest, Nat.dvd_add_self_right]
      rw [readItems_record hrecord, ih hrecord, hdiv, Nat.succ_min_succ, recordsFrom,
        List.foldl_cons]
      simp only [hdvd, Nat.succ_le_succ_iff]

/-! What was read inside the string does not depend on what lies behind it. -/

theorem window_of_inString (beyond : Nat → UInt8) {bs : Bytes}
    (h : inString data pos n = some bs) : window (memory beyond data) pos n = bs := by
  obtain ⟨hin, rfl⟩ := Run.of_guard h
  refine List.ext_getElem (by simp; omega) fun i h₁ h₂ => ?_
  have hlt : pos + i < data.length := by
    rw [length_window] at h₁
    omega
  simp [window, memory, List.getElem?_eq_getElem hlt]

theorem readItems_of_inString (beyond : Nat → UInt8) {block block' : OrdMap Bytes Inum}
    (h : readItems (inString data) data.length n pos block = some block') :
    readItems (m := Id) (window (memory beyond data)) data.length n pos block = block' := by
  induction n generalizing pos block with
  | zero => exact Option.some.inj h
  | succ n ih =>
    rw [readItems] at h
    rw [readItems_succ]
    split at h
    · rename_i hpos
      obtain ⟨name, hname, h⟩ := Option.bind_eq_some_iff.mp h
      obtain ⟨num, hnum, h⟩ := Option.bind_eq_some_iff.mp h
      rw [if_pos hpos, window_of_inString beyond hname, window_of_inString beyond hnum]
      exact ih h
    · rename_i hpos
      rw [if_neg hpos]
      exact Option.some.inj h

theorem stringToDirForm_of_parseIn (beyond : Nat → UInt8) {form form' : DirForm}
    (h : parseIn data form = some form') : form.stringToDirForm beyond data = form' := by
  obtain ⟨count, hcount, h⟩ := Option.bind_eq_some_iff.mp h
  obtain ⟨block, hblock, h⟩ := Option.bind_eq_some_iff.mp h
  cases h
  have hcount' := window_of_inString beyond hcount
  subst hcount'
  exact congrArg (DirForm.mk · _) (readItems_of_inString beyond hblock)

end InBounds

/-! ## What a string has to be like -/

def countOf (data : Bytes) : Nat := (BitVec.ofNat 32 (ofLe (data.take 4)) : BitVec 32).toInt.toNat

def records (data : Bytes) : List (Bytes × Inum) :=
  recordsFrom data 4 ((data.length - 4) / itemSize)

/-- The string holds a count, and every record that the count lets the loop
begin. -/
def Whole (data : Bytes) : Prop :=
  4 ≤ data.length ∧
    (countOf data ≤ (data.length - 4) / itemSize ∨ itemSize ∣ data.length - 4)

instance (data : Bytes) : Decidable (Whole data) := by
  unfold Whole
  infer_instance

theorem parseIn_short {data : Bytes} (h : data.length < 4) (form : DirForm) :
    parseIn data form = none := by
  rw [parseIn, DirForm.parse, inString_eq_none (by omega)]
  rfl

theorem parseIn_eq {data : Bytes} (h : 4 ≤ data.length) (form : DirForm) :
    parseIn data form =
      if Whole data then
        some ⟨((records data).take (countOf data)).foldl (fun m p => m.insertNew p.1 p.2)
          form.dirBlock, BitVec.ofNat 32 (ofLe (data.take 4))⟩
      else none := by
  have hwhole : Whole data ↔
      countOf data ≤ (data.length - 4) / itemSize ∨ itemSize ∣ data.length - 4 :=
    ⟨fun hw => hw.2, fun hor => ⟨h, hor⟩⟩
  have hcount : inString data 0 4 = some _ := if_pos (by omega)
  rw [parseIn, DirForm.parse, hcount, records, take_recordsFrom]
  show (readItems (inString data) data.length (countOf data) 4 form.dirBlock).bind _ = _
  rw [readItems_eq h]
  simp only [hwhole]
  split
  · rfl
  · rfl

/-- The reads stay inside the string. -/
theorem isSome_parseIn_iff (data : Bytes) (form : DirForm) :
    (parseIn data form).isSome = true ↔ Whole data := by
  rcases Nat.lt_or_ge data.length 4 with hshort | hlong
  · rw [parseIn_short hshort]
    exact ⟨nofun, fun hw => absurd hw.1 (by omega)⟩
  · rw [parseIn_eq hlong]
    split
    · rename_i hw
      exact ⟨fun _ => hw, fun _ => rfl⟩
    · rename_i hw
      exact ⟨nofun, fun h => absurd h hw⟩

theorem dirOf_of_whole (beyond : Nat → UInt8) {data : Bytes} (h : Whole data) :
    dirOf beyond data =
      ((records data).take (countOf data)).foldl (fun m p => m.insertNew p.1 p.2)
        OrdMap.empty := by
  have hparse := parseIn_eq h.1 DirForm.new
  rw [if_pos h] at hparse
  rw [dirOf, stringToDirForm_of_parseIn beyond hparse]
  rfl

/-- `StringToDirForm` reads bytes of the string only, and its entries are the
whole records, as many as the count says. -/
def ReadsRecords (data : Bytes) : Prop :=
  (parseIn data DirForm.new).isSome = true ∧
    ∀ beyond p, p ∈ (dirOf beyond data).entries ↔ p ∈ (records data).take (countOf data)

/-- **Parsing in bounds**, for every string: exactly when it is whole, and no
name stands for two numbers among the records that are counted. -/
theorem reads_records_iff (data : Bytes) :
    ReadsRecords data ↔ Whole data ∧
      ∀ p ∈ (records data).take (countOf data), ∀ q ∈ (records data).take (countOf data),
        p.1 = q.1 → p.2 = q.2 := by
  rw [ReadsRecords, isSome_parseIn_iff]
  refine and_congr_right fun hw => ?_
  rw [← OrdMap.mem_foldl_insertNew_iff]
  constructor
  · intro hall
    rw [← dirOf_of_whole (fun _ => 0) hw]
    exact hall _
  · intro hall beyond
    rw [dirOf_of_whole beyond hw]
    exact hall

/-- `mkdir` writes the empty string, and the count is read from behind it. A
directory with an entry that `setattr` has cut to five bytes has its name
read from behind it. -/
theorem short_directories_overread :
    ¬ ReadsRecords [] ∧ ¬ ReadsRecords (resize (toLe 4 1 ++ List.replicate itemSize 120) 5) := by
  have hempty : ¬ Whole [] := by decide
  have hcut : ¬ Whole (resize (toLe 4 1 ++ List.replicate itemSize 120) 5) := by
    decide +kernel
  refine ⟨fun h => hempty ?_, fun h => hcut ?_⟩
  · exact (isSome_parseIn_iff _ _).mp h.1
  · exact (isSome_parseIn_iff _ _).mp h.1

/-! ## Round trip -/

/-- **Round trip of the format**: the map and the count come back, and names
that differ have keys that do. -/
theorem directory_round_trip :
    (∀ (beyond : Nat → UInt8) (form : DirForm),
      (∀ p ∈ form.dirBlock.entries, p.1.length = maxItemNameLen) →
      form.dirBlock.entries.length < 2 ^ 31 →
      DirForm.new.stringToDirForm beyond form.dirFormToString.2 = form.dirFormToString.1 ∧
      form.dirFormToString.1.dirBlock = form.dirBlock ∧
      form.dirFormToString.1.dirItemNum.toInt = form.dirBlock.entries.length) ∧
    ∀ name name' : Bytes, 0 ∉ name → 0 ∉ name' → name.length ≤ maxItemNameLen →
      name'.length ≤ maxItemNameLen → name ≠ name' → strName name ≠ strName name' := by
  refine ⟨fun beyond form hkeys hlen => ⟨?_, rfl, ?_⟩, ?_⟩
  · have hblock := dirOf_dirBytes_of_lt beyond hkeys hlen
    have hnum := dirItemNum_dirBytes beyond DirForm.new form.dirBlock
    exact congrArg₂ DirForm.mk hblock hnum
  · show (BitVec.ofNat 32 form.dirBlock.entries.length).toInt = _
    rw [BitVec.toInt_ofNat', Int.bmod_eq_of_le] <;> omega
  · intro name name' hnul hnul' hlen hlen' hne heq
    exact hne (congrArg Name.bytes
      (strName_injective (n := ⟨name, hlen, hnul⟩) (m := ⟨name', hlen', hnul'⟩) heq))

/-- A directory with two entries. -/
theorem directory_round_trip_two :
    ∃ block : OrdMap Bytes Inum, block.entries.length = 2 ∧
      (DirForm.new.stringToDirForm (fun _ => 0) (DirForm.mk block 0).dirFormToString.2).dirBlock =
        block := by
  let block : OrdMap Bytes Inum :=
    (OrdMap.empty.insert (strName [97]) 0x80000007).insert (strName [98]) 5
  have hne := directory_round_trip.2 [97] [98] (by decide) (by decide) (by decide) (by decide)
    (by decide)
  have hlen : block.entries.length = 2 := by
    refine OrdMap.length_insert ?_ 5
    rw [OrdMap.find?_insert, if_neg hne.symm]
    rfl
  have hkeys : ∀ p ∈ block.entries, p.1.length = maxItemNameLen := by
    refine keys_insert (keys_insert ?_ [97] 0x80000007) [98] 5
    nofun
  have hsmall : block.entries.length < 2 ^ 31 := by omega
  have htrip := directory_round_trip.1 (fun _ => 0) ⟨block, 0⟩ hkeys hsmall
  exact ⟨block, hlen, by rw [htrip.1]; exact htrip.2.1⟩

end Yfs.Fs
