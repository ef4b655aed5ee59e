/-
Yfs.Fs.Files — the contents of files as arrays of bytes (yfs_client.cc:
`read`, `write`, `setattr`).

`Contents` is the model: a length, and a byte at every position, 0 from the
end on. `Contents.ofBytes` reads an extent as one. `write` cuts the old
string, pads it or not, and puts the pieces together in one of two ways;
`written_eq` is what these have in common, and with it each operation is the
one of the model (`ofBytes_written`, `ofBytes_resize`, `read_ofBytes`).

`files_follow_byte_arrays` is any sequence of requests to any files. Offsets
are `off_t` and sizes `size_t`; their sum is below `2⁶³`, so it does not wrap.
-/
import Yfs.Fs.Directories

namespace Yfs.Fs

open Yfs.Effect Yfs.Effect.Prog Function
open Yfs.Extent (Bytes Attr)

/-! ## Arrays of bytes -/

@[ext] structure Contents where
  length : Nat
  byte : Nat → UInt8
  past : ∀ k, length ≤ k → byte k = 0

namespace Contents

/-- `size` bytes of `buf` at `off`; what was not there before is 0. -/
def write (c : Contents) (size off : Nat) (buf : Nat → UInt8) : Contents where
  length := max c.length (off + size)
  byte k :=
    if off ≤ k ∧ k < off + size then buf (k - off) else if k < c.length then c.byte k else 0
  past k h := by
    rw [if_neg (by omega), if_neg (by omega)]

def setSize (c : Contents) (n : Nat) : Contents where
  length := n
  byte k := if k < min c.length n then c.byte k else 0
  past k h := by rw [if_neg (by omega)]

def read (c : Contents) (size off : Nat) : Bytes :=
  (List.range (min (off + size) c.length - off)).map fun j => c.byte (off + j)

theorem getElem?_getD_of_le {data : Bytes} {k : Nat} (h : data.length ≤ k) :
    data[k]?.getD 0 = 0 := by
  rw [List.getElem?_eq_none h]
  rfl

def ofBytes (data : Bytes) : Contents where
  length := data.length
  byte k := data[k]?.getD 0
  past _ h := getElem?_getD_of_le h

end Contents

/-! ## Strings -/

theorem getElem?_resize (data : Bytes) (n k : Nat) :
    (resize data n)[k]?.getD 0 = if k < n then data[k]?.getD 0 else 0 := by
  rw [resize, List.getElem?_append]
  by_cases hk : k < n
  · by_cases hd : k < data.length
    · have htake : k < (data.take n).length := by simp [hk, hd]
      rw [if_pos htake, if_pos hk, List.getElem?_take_of_lt hk]
    · have htake : ¬ k < (data.take n).length := by simp; omega
      rw [if_neg htake, if_pos hk, List.getElem?_eq_none (Nat.le_of_not_lt hd),
        List.getElem?_replicate]
      split <;> rfl
  · have htake : ¬ k < (data.take n).length := by simp; omega
    rw [if_neg htake, if_neg hk, List.getElem?_replicate]
    split <;> rfl

theorem getElem?_resize_min (data : Bytes) (n k : Nat) :
    (resize data n)[k]?.getD 0 = if k < min data.length n then data[k]?.getD 0 else 0 := by
  rw [getElem?_resize]
  by_cases hd : k < data.length
  · simp [hd]
  · rw [Contents.getElem?_getD_of_le (Nat.le_of_not_lt hd)]
    simp

/-- The end of a request, when it can be counted. -/
theorem toNat_off_add {size off : Inum} (h : off.toNat + size.toNat < 2 ^ 64) :
    (off + size).toNat = off.toNat + size.toNat := by
  rw [BitVec.toNat_add, Nat.mod_eq_of_lt h]

theorem getElem?_window (mem : Nat → UInt8) {n k : Nat} (h : k < n) :
    (window mem 0 n)[k]? = some (mem k) := by
  simp [window, h]

/-- `write`, in one piece: the string, padded up to `off` if it is shorter,
with `size` bytes replaced or added. -/
theorem written_eq {size off : Inum} (h : off.toNat + size.toNat < 2 ^ 64) (buf : Nat → UInt8)
    (data : Bytes) :
    written size off buf data =
      (resize data (max data.length off.toNat)).take off.toNat ++ window buf 0 size.toNat ++
        (resize data (max data.length off.toNat)).drop (off.toNat + size.toNat) := by
  have hpad : (if data.length < off.toNat then resize data off.toNat else data) =
      resize data (max data.length off.toNat) := by
    split
    · rename_i hlt
      rw [max_eq_right hlt.le]
    · rename_i hge
      rw [max_eq_left (Nat.le_of_not_lt hge), resize_of_length rfl]
  simp only [written, hpad, toNat_off_add h]
  split
  · rename_i hlt
    rw [List.drop_eq_nil_of_le hlt.le, List.append_nil]
  · rfl

theorem Contents.ofBytes_resize (data : Bytes) (n : Nat) :
    ofBytes (resize data n) = (ofBytes data).setSize n := by
  refine Contents.ext (length_resize data n) (funext fun k => ?_)
  exact getElem?_resize_min data n k

theorem Contents.ofBytes_written {size off : Inum} (h : off.toNat + size.toNat < 2 ^ 64)
    (buf : Nat → UInt8) (data : Bytes) :
    ofBytes (written size off buf data) =
      (ofBytes data).write size.toNat off.toNat buf := by
  rw [written_eq h]
  generalize off.toNat = o
  generalize size.toNat = n
  have hlen : (resize data (max data.length o)).length = max data.length o := length_resize _ _
  have htake : ((resize data (max data.length o)).take o).length = o := by
    rw [List.length_take, hlen]
    omega
  refine Contents.ext ?_ (funext fun k => ?_)
  · show (_ ++ _ ++ _ : Bytes).length = max data.length (o + n)
    rw [List.length_append, List.length_append, htake, length_window, List.length_drop, hlen]
    omega
  · show (_ ++ _ ++ _ : Bytes)[k]?.getD 0 = if o ≤ k ∧ k < o + n then buf (k - o) else
      if k < data.length then data[k]?.getD 0 else 0
    have hold : (resize data (max data.length o))[k]?.getD 0 =
        if k < data.length then data[k]?.getD 0 else 0 := by
      rw [getElem?_resize_min, min_eq_left (le_max_left _ _)]
    -- in front of the bytes written, among them, behind them
    rcases Nat.lt_or_ge k o with hk | hk
    · have hout : ¬ (o ≤ k ∧ k < o + n) := by omega
      rw [List.append_assoc, List.getElem?_append_left (by rw [htake]; exact hk),
        List.getElem?_take_of_lt hk, hold, if_neg hout]
    · rcases Nat.lt_or_ge k (o + n) with hk' | hk'
      · rw [List.getElem?_append_left (by rw [List.length_append, htake, length_window]; omega),
          List.getElem?_append_right (by rw [htake]; exact hk), htake,
          getElem?_window buf (by omega), if_pos ⟨hk, hk'⟩]
        rfl
      · have hfront : ((resize data (max data.length o)).take o ++ window buf 0 n).length =
            o + n := by
          rw [List.length_append, htake, length_window]
        have hout : ¬ (o ≤ k ∧ k < o + n) := by omega
        rw [List.getElem?_append_right (by rw [hfront]; exact hk'), hfront, List.getElem?_drop,
          Nat.add_sub_cancel' hk', hold, if_neg hout]

/-- The three ways out of `read` are one. -/
theorem Contents.read_ofBytes {size off : Inum} (h : off.toNat + size.toNat < 2 ^ 64)
    (data : Bytes) :
    (if data.length ≤ off.toNat then []
      else if data.length < (off + size).toNat then data.drop off.toNat
      else (data.drop off.toNat).take size.toNat) =
      (ofBytes data).read size.toNat off.toNat := by
  rw [toNat_off_add h]
  generalize off.toNat = o
  generalize size.toNat = n
  have hread : (ofBytes data).read n o = (data.drop o).take n := by
    refine List.ext_getElem ?_ fun j h₁ h₂ => ?_
    · simp only [read, ofBytes, List.length_map, List.length_range, List.length_take,
        List.length_drop]
      omega
    · have hj : o + j < data.length := by
        simp only [List.length_take, List.length_drop] at h₂
        omega
      simp [read, ofBytes, List.getElem?_eq_getElem hj]
  rw [hread]
  split
  · rename_i hend
    rw [List.drop_eq_nil_of_le hend, List.take_nil]
  · split
    · rename_i hlong
      rw [List.take_of_length_le (by rw [List.length_drop]; omega)]
    · rfl

/-! ## Requests -/

inductive FileRequest where
  | read (ino size off : Inum)
  | write (ino size off : Inum) (buf : Nat → UInt8)
  | setattr (ino stSize : Inum)

/-- Offsets and sizes are not negative, and neither is their sum. -/
def FileRequest.Valid : FileRequest → Prop
  | .read _ size off => off.toNat + size.toNat < 2 ^ 63
  | .write _ size off _ => off.toNat + size.toNat < 2 ^ 63
  | .setattr _ stSize => stSize.toNat < 2 ^ 63

inductive FileAnswer where
  | got (st : Status) (buf : Bytes)
  | done (st : Status)

def serveFile (s : Store) (l : Luck) : FileRequest → FileAnswer × Store
  | .read ino size off =>
    let r := run serve (read ino size off) (calm s l.fate)
    (.got r.1.1 r.1.2, r.2.store)
  | .write ino size off buf =>
    let r := run serve (write ino size off buf) (calm s l.fate)
    (.done r.1, r.2.store)
  | .setattr ino stSize =>
    let r := run serve (setattr ino stSize) (calm s l.fate)
    (.done r.1, r.2.store)

abbrev Files := Inum → Option Contents

def files (s : Store) : Files := fun ino => (s ino).map Contents.ofBytes

def Files.step (f : Files) : FileRequest → FileAnswer × Files
  | .read ino size off =>
    match f ino with
    | none => (.got .NOENT [], f)
    | some c => (.got .OK (c.read size.toNat off.toNat), f)
  | .write ino size off buf =>
    match f ino with
    | none => (.done .IOERR, f)
    | some c => (.done .OK, update f ino (some (c.write size.toNat off.toNat buf)))
  | .setattr ino stSize =>
    match f ino with
    | none => (.done .IOERR, f)
    | some c => (.done .OK, update f ino (some (c.setSize stSize.toNat)))

theorem files_some {s : Store} {ino : Inum} {data : Bytes} (h : s ino = some data) :
    files s ino = some (Contents.ofBytes data) := by
  rw [files, h]
  rfl

theorem files_update (s : Store) (ino : Inum) (data : Bytes) :
    files (update s ino (some data)) =
      update (files s) ino (some (Contents.ofBytes data)) := by
  funext ino'
  by_cases h : ino' = ino
  · subst h
    simp [files]
  · simp [files, h]

/-- One request: the same answer, and the files of the store are those of
the model. -/
theorem serveFile_step (s : Store) (l : Luck) {q : FileRequest} (hq : q.Valid) :
    (serveFile s l q).1 = ((files s).step q).1 ∧
      files (serveFile s l q).2 = ((files s).step q).2 := by
  cases q with
  | read ino size off =>
    have hsum : off.toNat + size.toNat < 2 ^ 64 := lt_trans hq (by decide)
    cases hdata : s ino with
    | none => simp [serveFile, Files.step, files, hdata, read, run_getdata_none hdata]
    | some data =>
      have hrun : run serve (read ino size off) (calm s l.fate) =
          ((.OK, (Contents.ofBytes data).read size.toNat off.toNat), calm s l.fate) := by
        rw [← Contents.read_ofBytes hsum]
        simp only [read, run_withLock, run_bind, run_getdata_some hdata]
        simp only [ne_eq, not_true_eq_false, if_false]
        split
        · rfl
        · split <;> rfl
      simp [serveFile, Files.step, files_some hdata, hrun]
  | write ino size off buf =>
    have hsum : off.toNat + size.toNat < 2 ^ 64 := lt_trans hq (by decide)
    cases hdata : s ino with
    | none => simp [serveFile, Files.step, files, hdata, write, run_getdata_none hdata]
    | some data =>
      have hrun : run serve (write ino size off buf) (calm s l.fate) =
          (.OK, calm (update s ino (some (written size off buf data))) l.fate) := by
        simp [write, run_getdata_some hdata, putdata, ecPut]
      simp [serveFile, Files.step, files_some hdata, hrun, files_update,
        Contents.ofBytes_written hsum]
  | setattr ino stSize =>
    cases hdata : s ino with
    | none => simp [serveFile, Files.step, files, hdata, setattr, run_getdata_none hdata]
    | some data =>
      have hrun : run serve (setattr ino stSize) (calm s l.fate) =
          (.OK, calm (update s ino (some (resize data stSize.toNat))) l.fate) := by
        simp [setattr, run_getdata_some hdata, putdata, ecPut]
      simp [serveFile, Files.step, files_some hdata, hrun, files_update, Contents.ofBytes_resize]

/-! ## Sequences -/

def serveFiles (s : Store) : List (Luck × FileRequest) → List FileAnswer × Store
  | [] => ([], s)
  | (l, q) :: qs =>
    let r := serveFiles (serveFile s l q).2 qs
    ((serveFile s l q).1 :: r.1, r.2)

def Files.run (f : Files) : List FileRequest → List FileAnswer × Files
  | [] => ([], f)
  | q :: qs =>
    let r := Files.run (f.step q).2 qs
    ((f.step q).1 :: r.1, r.2)

/-- **Files are arrays of bytes**: any sequence of reads, writes and changes
of size gets the answers of the model, and leaves its contents behind. -/
theorem files_follow_byte_arrays (s : Store) (qs : List (Luck × FileRequest))
    (hvalid : ∀ q ∈ qs, q.2.Valid) :
    (serveFiles s qs).1 = ((files s).run (qs.map Prod.snd)).1 ∧
      files (serveFiles s qs).2 = ((files s).run (qs.map Prod.snd)).2 := by
  induction qs generalizing s with
  | nil => exact ⟨rfl, rfl⟩
  | cons q qs ih =>
    obtain ⟨l, q⟩ := q
    obtain ⟨hanswer, hfiles⟩ := serveFile_step s l (hvalid (l, q) List.mem_cons_self)
    have hrest := ih (serveFile s l q).2 fun q' hq' => hvalid q' (List.mem_cons_of_mem _ hq')
    rw [hfiles] at hrest
    simp only [serveFiles, List.map_cons, Files.run]
    exact ⟨by rw [hanswer, hrest.1], hrest.2⟩

def holeAndCut : List (Luck × FileRequest) :=
  let l : Luck := ⟨0, ⟨0, 0, 0, 0⟩, fun _ => 0⟩
  [(l, .write 2 2 5 fun i => UInt8.ofNat (10 + i)), (l, .read 2 9 1), (l, .setattr 2 3)]

theorem files_follow_byte_arrays_hole :
    (∀ q ∈ holeAndCut, q.2.Valid) ∧
    ∃ s : Store, s 2 = some [1, 2, 3] ∧
      (serveFiles s holeAndCut).1 = ((files s).run (holeAndCut.map Prod.snd)).1 ∧
      files (serveFiles s holeAndCut).2 = ((files s).run (holeAndCut.map Prod.snd)).2 := by
  have hvalid : ∀ q ∈ holeAndCut, q.2.Valid := by
    simp only [holeAndCut, List.mem_cons, List.not_mem_nil, or_false, forall_eq_or_imp, forall_eq,
      FileRequest.Valid]
    decide
  exact ⟨hvalid, fun ino => if ino = 2 then some [1, 2, 3] else none, rfl,
    files_follow_byte_arrays _ holeAndCut hvalid⟩

end Yfs.Fs
