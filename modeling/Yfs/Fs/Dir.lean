/-
Yfs.Fs.Dir — the contents of a directory extent (yfs_client.cc, DirForm).

A directory is an `int` with the number of entries, and for each entry the
name in 1024 bytes and the inode number in 8, both numbers as they lie in
the memory of a little-endian machine. The empty string is the empty
directory.

`StringToDirForm` reads through a pointer into the string and only looks at
its size between two entries, so what lies behind the string can matter; it
is the argument `beyond`. On what `DirFormToString` wrote it does not
(`readItems_items`): as many entries come back as the number in front says.
That number is an `int`, so with `2³¹` entries it is negative and nothing
comes back (`dirBlock_of_overflow`).
-/
import Yfs.Extent.Server
import Yfs.Lib.OrdMap

namespace Yfs.Fs

open Yfs.Extent (Bytes)

abbrev Inum := BitVec 64

instance instLawfulBEqInum : LawfulBEq Inum := inferInstance

/-- Strings are compared as `memcmp` does. -/
instance instLinearOrderByte : LinearOrder UInt8 where
  le_refl := UInt8.le_refl
  le_trans _ _ _ := UInt8.le_trans
  lt_iff_le_not_ge _ _ := by
    simp only [UInt8.lt_iff_toNat_lt, UInt8.le_iff_toNat_le]
    omega
  le_antisymm _ _ := UInt8.le_antisymm
  le_total := UInt8.le_total
  toDecidableLE := inferInstance
  toDecidableLT := inferInstance

/-! ## Numbers and strings in memory -/

/-- The low `k` bytes of a number, lowest first. -/
def toLe : Nat → Nat → Bytes
  | 0, _ => []
  | k + 1, n => UInt8.ofNat n :: toLe k (n / 256)

def ofLe : Bytes → Nat
  | [] => 0
  | b :: bs => b.toNat + 256 * ofLe bs

@[simp] theorem length_toLe (k n : Nat) : (toLe k n).length = k := by
  induction k generalizing n with
  | zero => rfl
  | succ k ih => simp [toLe, ih]

theorem ofLe_toLe (k n : Nat) : ofLe (toLe k n) = n % 256 ^ k := by
  induction k generalizing n with
  | zero => simp [toLe, ofLe, Nat.mod_one]
  | succ k ih =>
    have hbyte : (UInt8.ofNat n).toNat = n % 256 := by simp
    rw [toLe, ofLe, ih, hbyte, pow_succ, mul_comm (256 ^ k), Nat.mod_mul]

def resize (s : Bytes) (n : Nat) : Bytes := s.take n ++ List.replicate (n - s.length) 0

@[simp] theorem length_resize (s : Bytes) (n : Nat) : (resize s n).length = n := by
  simp only [resize, List.length_append, List.length_take, List.length_replicate]
  omega

theorem resize_of_length {s : Bytes} {n : Nat} (h : s.length = n) : resize s n = s := by
  simp [resize, ← h]

def memory (beyond : Nat → UInt8) (data : Bytes) (i : Nat) : UInt8 := data[i]?.getD (beyond i)

def window (mem : Nat → UInt8) (pos n : Nat) : Bytes := (List.range n).map fun i => mem (pos + i)

@[simp] theorem length_window (mem : Nat → UInt8) (pos n : Nat) :
    (window mem pos n).length = n := by
  simp [window]

theorem window_append (beyond : Nat → UInt8) (pre bytes post : Bytes) {n : Nat}
    (hn : bytes.length = n) :
    window (memory beyond (pre ++ (bytes ++ post))) pre.length n = bytes := by
  subst hn
  refine List.ext_getElem (length_window _ _ _) fun i h₁ h₂ => ?_
  simp [window, memory, List.getElem?_append_right, List.getElem?_append_left h₂,
    List.getElem?_eq_getElem h₂]

/-! ## DirForm -/

def maxItemNameLen : Nat := 1024

def strName (name : Bytes) : Bytes := resize name maxItemNameLen

structure DirForm where
  dirBlock : OrdMap Bytes Inum
  dirItemNum : BitVec 32

section Parser

variable {m : Type → Type} [Monad m] (read : Nat → Nat → m Bytes)

/-- The loop of `StringToDirForm`, with the turns it has left. `read pos n`
are the `n` bytes at `pos`. -/
def readItems (size : Nat) : Nat → Nat → OrdMap Bytes Inum → m (OrdMap Bytes Inum)
  | 0, _, block => pure block
  | n + 1, pos, block =>
    if pos < size then do
      let itemName ← read pos maxItemNameLen
      let itemNum ← read (pos + maxItemNameLen) 8
      readItems size n (pos + maxItemNameLen + 8)
        (block.insertNew itemName (BitVec.ofNat 64 (ofLe itemNum)))
    else pure block

/-- `StringToDirForm`, over any way to read bytes. -/
def DirForm.parse (size : Nat) (form : DirForm) : m DirForm := do
  let count ← read 0 4
  let dirItemNum : BitVec 32 := BitVec.ofNat 32 (ofLe count)
  let block ← readItems read size dirItemNum.toInt.toNat 4 form.dirBlock
  pure ⟨block, dirItemNum⟩

end Parser

/-- In memory, which does not end with the string. -/
def DirForm.stringToDirForm (beyond : Nat → UInt8) (form : DirForm) (data : Bytes) : DirForm :=
  form.parse (m := Id) (window (memory beyond data)) data.length

def itemBytes (p : Bytes × Inum) : Bytes := resize p.1 maxItemNameLen ++ toLe 8 p.2.toNat

def DirForm.dirFormToString (form : DirForm) : DirForm × Bytes :=
  let dirItemNum := BitVec.ofNat 32 form.dirBlock.entries.length
  (⟨form.dirBlock, dirItemNum⟩,
    toLe 4 dirItemNum.toNat ++ form.dirBlock.entries.flatMap itemBytes)

def DirForm.new : DirForm := ⟨OrdMap.empty, 0⟩

def dirOf (beyond : Nat → UInt8) (data : Bytes) : OrdMap Bytes Inum :=
  (DirForm.new.stringToDirForm beyond data).dirBlock

def dirBytes (block : OrdMap Bytes Inum) : Bytes :=
  toLe 4 (BitVec.ofNat 32 block.entries.length).toNat ++ block.entries.flatMap itemBytes

theorem dirFormToString_snd (form : DirForm) :
    form.dirFormToString.2 = dirBytes form.dirBlock := rfl

/-! ## What is read -/

theorem readItems_succ (mem : Nat → UInt8) (size n pos : Nat) (block : OrdMap Bytes Inum) :
    readItems (m := Id) (window mem) size (n + 1) pos block =
      if pos < size then
        readItems (m := Id) (window mem) size n (pos + maxItemNameLen + 8)
          (block.insertNew (window mem pos maxItemNameLen)
            (BitVec.ofNat 64 (ofLe (window mem (pos + maxItemNameLen) 8))))
      else block := rfl

variable {block : OrdMap Bytes Inum}

theorem keys_readItems (mem : Nat → UInt8) (size n pos : Nat)
    (h : ∀ p ∈ block.entries, p.1.length = maxItemNameLen) :
    ∀ p ∈ (readItems (m := Id) (window mem) size n pos block).entries,
      p.1.length = maxItemNameLen := by
  induction n generalizing pos block with
  | zero => exact h
  | succ n ih =>
    rw [readItems_succ]
    split
    · refine ih _ fun p hp => ?_
      rcases OrdMap.mem_insertNew hp with hnew | hp
      · rw [hnew, length_window]
      · exact h p hp
    · exact h

theorem length_readItems_le (mem : Nat → UInt8) (size n pos : Nat) (block : OrdMap Bytes Inum) :
    (readItems (m := Id) (window mem) size n pos block).entries.length ≤
      block.entries.length + n := by
  induction n generalizing pos block with
  | zero => exact le_rfl
  | succ n ih =>
    rw [readItems_succ]
    split
    · refine (ih _ _).trans ?_
      have hone := OrdMap.length_insertNew_le block (window mem pos maxItemNameLen)
        (BitVec.ofNat 64 (ofLe (window mem (pos + maxItemNameLen) 8)))
      omega
    · exact Nat.le_add_right _ _

/-- The names in a directory have all their bytes. -/
theorem keys_dirOf (beyond : Nat → UInt8) (data : Bytes) :
    ∀ p ∈ (dirOf beyond data).entries, p.1.length = maxItemNameLen :=
  keys_readItems _ _ _ _ fun _ hp => by cases hp

/-- No more entries than an `int` counts. -/
theorem length_dirOf_lt (beyond : Nat → UInt8) (data : Bytes) :
    (dirOf beyond data).entries.length < 2 ^ 31 := by
  let num : BitVec 32 := BitVec.ofNat 32 (ofLe (window (memory beyond data) 0 4))
  have hle : (dirOf beyond data).entries.length ≤ 0 + num.toInt.toNat :=
    length_readItems_le _ _ _ _ _
  have hnum : num.toInt < 2 ^ 31 := BitVec.toInt_lt
  omega

/-- The empty string is the empty directory, whatever lies behind it. -/
theorem dirOf_nil (beyond : Nat → UInt8) : dirOf beyond [] = OrdMap.empty := by
  show readItems (m := Id) (window (memory beyond [])) 0
    (BitVec.ofNat 32 (ofLe (window (memory beyond []) 0 4))).toInt.toNat 4 OrdMap.empty = _
  cases (BitVec.ofNat 32 (ofLe (window (memory beyond []) 0 4))).toInt.toNat with
  | zero => rfl
  | succ n => rfl

/-! ## Reading what was written -/

theorem length_itemBytes (p : Bytes × Inum) : (itemBytes p).length = maxItemNameLen + 8 := by
  simp [itemBytes]

/-- Of the entries `es` behind `pre`, the loop takes as many as it has
turns. -/
theorem readItems_items (beyond : Nat → UInt8) {es : List (Bytes × Inum)}
    (hkeys : ∀ p ∈ es, p.1.length = maxItemNameLen) (pre : Bytes) (n : Nat)
    (block : OrdMap Bytes Inum) :
    readItems (m := Id) (window (memory beyond (pre ++ es.flatMap itemBytes)))
      (pre ++ es.flatMap itemBytes).length n pre.length block =
      (es.take n).foldl (fun m p => m.insertNew p.1 p.2) block := by
  induction es generalizing pre n block with
  | nil =>
    cases n with
    | zero => rfl
    | succ n => simp [readItems_succ]
  | cons p es ih =>
    cases n with
    | zero => rfl
    | succ n =>
      have hp : p.1.length = maxItemNameLen := hkeys p List.mem_cons_self
      have hlt : pre.length < (pre ++ (p :: es).flatMap itemBytes).length := by
        simp only [List.flatMap_cons, List.length_append, length_itemBytes]
        omega
      -- the entry, cut where the loop cuts it
      have hdata : pre ++ (p :: es).flatMap itemBytes =
          pre ++ (p.1 ++ (toLe 8 p.2.toNat ++ es.flatMap itemBytes)) := by
        simp [itemBytes, resize_of_length hp]
      have hname : window (memory beyond (pre ++ (p :: es).flatMap itemBytes)) pre.length
          maxItemNameLen = p.1 := by
        rw [hdata]
        exact window_append beyond pre p.1 _ hp
      have hnum : window (memory beyond (pre ++ (p :: es).flatMap itemBytes))
          (pre.length + maxItemNameLen) 8 = toLe 8 p.2.toNat := by
        rw [hdata, ← hp, ← List.length_append, ← List.append_assoc]
        exact window_append beyond (pre ++ p.1) _ _ (length_toLe 8 _)
      have hino : BitVec.ofNat 64 (ofLe (toLe 8 p.2.toNat)) = p.2 := by
        have hlt : p.2.toNat < 256 ^ 8 := p.2.isLt
        rw [ofLe_toLe, Nat.mod_eq_of_lt hlt, BitVec.ofNat_toNat, BitVec.setWidth_eq]
      have hrest := ih (fun q hq => hkeys q (List.mem_cons_of_mem p hq)) (pre ++ itemBytes p) n
        (block.insertNew p.1 p.2)
      have hpos : (pre ++ itemBytes p).length = pre.length + maxItemNameLen + 8 := by
        rw [List.length_append, length_itemBytes, Nat.add_assoc]
      rw [hpos, List.append_assoc, ← List.flatMap_cons] at hrest
      rw [readItems_succ, if_pos hlt, hname, hnum, hino, hrest, List.take_succ_cons,
        List.foldl_cons]

/-- The count comes back. -/
theorem dirItemNum_dirBytes (beyond : Nat → UInt8) (form : DirForm) (block : OrdMap Bytes Inum) :
    (form.stringToDirForm beyond (dirBytes block)).dirItemNum =
      BitVec.ofNat 32 block.entries.length := by
  have hcount : window (memory beyond (dirBytes block)) 0 4 =
      toLe 4 (BitVec.ofNat 32 block.entries.length).toNat :=
    window_append beyond [] _ _ (length_toLe 4 _)
  show BitVec.ofNat 32 (ofLe (window (memory beyond (dirBytes block)) 0 4)) = _
  rw [hcount, ofLe_toLe]
  exact BitVec.eq_of_toNat_eq (by simp)

theorem dirOf_dirBytes (beyond : Nat → UInt8)
    (hkeys : ∀ p ∈ block.entries, p.1.length = maxItemNameLen) :
    (dirOf beyond (dirBytes block)) =
      (block.entries.take (BitVec.ofNat 32 block.entries.length).toInt.toNat).foldl
        (fun m p => m.insertNew p.1 p.2) OrdMap.empty := by
  have hnum := dirItemNum_dirBytes beyond DirForm.new block
  have hitems := readItems_items beyond hkeys
    (toLe 4 (BitVec.ofNat 32 block.entries.length).toNat)
    (BitVec.ofNat 32 block.entries.length).toInt.toNat OrdMap.empty
  rw [length_toLe] at hitems
  show readItems (m := Id) _ _
    (DirForm.new.stringToDirForm beyond (dirBytes block)).dirItemNum.toInt.toNat 4 OrdMap.empty = _
  rw [hnum]
  exact hitems

/-- A directory is read back as it was written, if the number of its entries
is an `int`. -/
theorem dirOf_dirBytes_of_lt (beyond : Nat → UInt8)
    (hkeys : ∀ p ∈ block.entries, p.1.length = maxItemNameLen)
    (hlen : block.entries.length < 2 ^ 31) : dirOf beyond (dirBytes block) = block := by
  have hcount : (BitVec.ofNat 32 block.entries.length).toInt.toNat = block.entries.length := by
    rw [BitVec.toInt_ofNat', Int.bmod_eq_of_le] <;> omega
  rw [dirOf_dirBytes beyond hkeys, hcount, List.take_length, OrdMap.foldl_insertNew block.sorted,
    OrdMap.foldl_insert]

theorem dirBlock_of_overflow (beyond : Nat → UInt8)
    (hkeys : ∀ p ∈ block.entries, p.1.length = maxItemNameLen)
    (hlen : block.entries.length = 2 ^ 31) : dirOf beyond (dirBytes block) = OrdMap.empty := by
  have hcount : (BitVec.ofNat 32 (2 ^ 31)).toInt.toNat = 0 := by decide
  rw [dirOf_dirBytes beyond hkeys, hlen, hcount]
  rfl

theorem keys_insert (h : ∀ p ∈ block.entries, p.1.length = maxItemNameLen) (name : Bytes)
    (ino : Inum) :
    ∀ p ∈ (block.insert (strName name) ino).entries, p.1.length = maxItemNameLen := by
  intro p hp
  rcases OrdMap.mem_insert hp with rfl | hp
  · exact length_resize _ _
  · exact h p hp

/-- A new entry changes the contents: otherwise the name had been there. -/
theorem dirBytes_insert_ne {beyond : Nat → UInt8} {data name : Bytes}
    (hfree : (dirOf beyond data).find? (strName name) = none) (ino : Inum) :
    dirBytes ((dirOf beyond data).insert (strName name) ino) ≠ data := by
  intro heq
  have hkeys := keys_insert (keys_dirOf beyond data) name ino
  have hlen := OrdMap.length_insert hfree ino
  have hlt := length_dirOf_lt beyond data
  rcases Nat.lt_or_ge ((dirOf beyond data).insert (strName name) ino).entries.length (2 ^ 31) with
    hsmall | hlarge
  · have hread := dirOf_dirBytes_of_lt beyond hkeys hsmall
    rw [heq] at hread
    rw [hread, OrdMap.find?_insert, if_pos rfl] at hfree
    cases hfree
  · have hread := dirBlock_of_overflow beyond hkeys (by omega)
    rw [heq] at hread
    have hzero : (dirOf beyond data).entries.length = 0 := by rw [hread]; rfl
    omega

end Yfs.Fs
