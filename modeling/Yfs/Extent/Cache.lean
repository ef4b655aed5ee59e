/-
Yfs.Extent.Cache — the caching extent client (extent_client_cache.cc).

A cache entry is in one of three conditions: ABSENT from
`extent_file_cache_`, in the map but not present, present (clean or
dirty). `operator[]` of `std::map` inserts a default entry, so every
call but `remove` and `flush` leaves an entry behind, and `flush` takes
the absence of one for a pending remove.

The calls to the server go through `Rpc`, so that the same functions
serve a reliable server (`Rpc.direct`) and one whose calls may fail.
-/
import Yfs.Extent.Server

namespace Yfs.Extent

open Function

/-- The four RPCs the client makes, over a server state `S`. -/
structure Rpc (S : Type) where
  get : S → Eid → (Status × Option Bytes) × S
  getattr : S → Eid → (Status × Option Attr) × S
  put : S → Eid → Bytes → Status × S
  remove : S → Eid → Status × S

/-- Every call reaches the server at time `now` and its reply comes back. -/
def Rpc.direct (now : Nat) : Rpc FileBlock where
  get fb id := Server.get fb now id
  getattr fb id := Server.getattr fb id
  put fb id buf := Server.put fb now id buf
  remove fb id := Server.remove fb id

structure FileData where
  attr : Attr
  content : Bytes
  isPresent : Bool
  isDirty : Bool
  deriving DecidableEq, Repr

/-- `FileData::FileData`; the pair `file_content_` is value-initialised. -/
def FileData.new : FileData :=
  { attr := { atime := 0, mtime := 0, ctime := 0, size := 0 }
    content := [], isPresent := false, isDirty := false }

/-- `extent_file_cache_`. -/
abbrev Cache := Eid → Option FileData

namespace Cache

/-- What `extent_file_cache_[eid]` refers to: a new entry if there is none. -/
def entry (c : Cache) (eid : Eid) : FileData := (c eid).getD FileData.new

def set (c : Cache) (eid : Eid) (d : FileData) : Cache := update c eid (some d)

variable {S : Type} (rpc : Rpc S)

/-- `extent_client_cache::get`; `buf` is the caller's buffer. The status
of the first RPC is overwritten by that of the second. -/
def get (now : Nat) (srv : S) (c : Cache) (eid : Eid) (buf : Bytes) :
    (Status × Bytes) × Cache × S :=
  let d := c.entry eid
  if d.isPresent then
    ((.OK, d.content), c.set eid { d with attr := { d.attr with atime := now } }, srv)
  else
    let r₁ := rpc.get srv eid
    let buf' := r₁.1.2.getD buf
    let r₂ := rpc.getattr r₁.2 eid
    ((r₂.1.1, buf'),
      c.set eid { d with attr := r₂.1.2.getD d.attr, content := buf', isPresent := true }, r₂.2)

/-- `extent_client_cache::getattr`: attributes fetched from the server
are not cached, but the lookup leaves an entry behind. -/
def getattr (srv : S) (c : Cache) (eid : Eid) (attr : Attr) : (Status × Attr) × Cache × S :=
  let d := c.entry eid
  if d.isPresent then
    ((.OK, d.attr), c.set eid d, srv)
  else
    let r := rpc.getattr srv eid
    ((r.1.1, r.1.2.getD attr), c.set eid d, r.2)

def put (now : Nat) (c : Cache) (eid : Eid) (buf : Bytes) : Status × Cache :=
  let d := c.entry eid
  let atime := if (c eid).isNone then now else d.attr.atime
  (.OK, c.set eid
    { attr := { atime := atime, mtime := now, ctime := now, size := buf.length % 2 ^ 32 }
      content := buf, isPresent := true, isDirty := true })

def remove (srv : S) (c : Cache) (eid : Eid) : Status × Cache × S :=
  match c eid with
  | some _ => (.OK, update c eid none, srv)
  | none => ((rpc.remove srv eid).1, c, (rpc.remove srv eid).2)

def flush (srv : S) (c : Cache) (eid : Eid) : Status × Cache × S :=
  match c eid with
  | none => ((rpc.remove srv eid).1, c, (rpc.remove srv eid).2)
  | some d =>
    -- the write-back; a clean entry makes no call
    let r := if d.isDirty then rpc.put srv eid d.content else (.OK, srv)
    (r.1, c.set eid { d with isDirty := false, isPresent := false }, r.2)

/-! ## Equations, one for each way a call can go -/

variable {rpc} {c : Cache} {eid : Eid}

theorem get_hit (now : Nat) (srv : S) (buf : Bytes) (h : (c.entry eid).isPresent = true) :
    c.get rpc now srv eid buf = ((.OK, (c.entry eid).content),
      c.set eid { c.entry eid with attr := { (c.entry eid).attr with atime := now } }, srv) := by
  simp [get, h]

theorem get_miss (now : Nat) (srv : S) (buf : Bytes) (h : (c.entry eid).isPresent = false) :
    c.get rpc now srv eid buf =
      (((rpc.getattr (rpc.get srv eid).2 eid).1.1, (rpc.get srv eid).1.2.getD buf),
        c.set eid { c.entry eid with
          attr := (rpc.getattr (rpc.get srv eid).2 eid).1.2.getD (c.entry eid).attr
          content := (rpc.get srv eid).1.2.getD buf, isPresent := true },
        (rpc.getattr (rpc.get srv eid).2 eid).2) := by
  simp [get, h]

theorem flush_absent (srv : S) (h : c eid = none) :
    c.flush rpc srv eid = ((rpc.remove srv eid).1, c, (rpc.remove srv eid).2) := by
  simp [flush, h]

theorem flush_dirty (srv : S) {d : FileData} (h : c eid = some d) (hd : d.isDirty = true) :
    c.flush rpc srv eid = ((rpc.put srv eid d.content).1,
      c.set eid { d with isDirty := false, isPresent := false },
      (rpc.put srv eid d.content).2) := by
  simp [flush, h, hd]

theorem flush_clean (srv : S) {d : FileData} (h : c eid = some d) (hd : d.isDirty = false) :
    c.flush rpc srv eid =
      (.OK, c.set eid { d with isDirty := false, isPresent := false }, srv) := by
  simp [flush, h, hd]

/-- What a flush that finds an entry does: the server gets the dirty
contents, and the entry is neither present nor dirty. -/
theorem flush_spec (now : Nat) (fb : FileBlock) {d : FileData} (hd : c eid = some d) :
    (c.flush (Rpc.direct now) fb eid).2.1
        = c.set eid { d with isDirty := false, isPresent := false } ∧
      ∀ e, Server.contents (c.flush (Rpc.direct now) fb eid).2.2 e
        = if e = eid ∧ d.isDirty = true then some d.content else Server.contents fb e := by
  cases hdd : d.isDirty with
  | true =>
    rw [flush_dirty fb hd hdd]
    simp [Rpc.direct]
  | false =>
    rw [flush_clean fb hd hdd]
    simp

theorem entry_of_some {d : FileData} (h : c eid = some d) : c.entry eid = d := by
  simp [entry, h]

@[simp] theorem set_self (d : FileData) : c.set eid d eid = some d := update_self ..

theorem set_of_ne {eid' : Eid} (h : eid' ≠ eid) (d : FileData) : c.set eid d eid' = c eid' :=
  update_of_ne h ..

end Cache

/-- Who has the lock of an extent: a call at the client, the client after
the call, or a client whose release is on its way. -/
inductive Hold where
  | free
  | held (c : Nat)
  | cached (c : Nat)
  | returning (c : Nat)
  deriving DecidableEq, Repr

end Yfs.Extent
