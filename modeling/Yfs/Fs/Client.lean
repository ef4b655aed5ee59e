/-
Yfs.Fs.Client — the operations of the file system client (yfs_client.cc).

An operation is a program over the calls it makes: to the lock client and to
the extent client. What the environment does with them is left open; the
three modules above this one answer the calls in their own way.

A `YfsLock` object holds its lock until its scope ends, on every way out
(`withLock`). In `getfile` and `getdir` the object has no name, so its
scope is the one statement it stands in.

`create` and `mkdir` are the same but for the type of the new inode. Both
call `RestoreInum(ret_ino, true)` or `(ret_ino, false)`, where the
declaration has the type first and the number second.
-/
import Yfs.Fs.Dir
import Yfs.Lib.Effect

namespace Yfs.Fs

open Yfs.Effect
open Yfs.Extent (Bytes Attr)

/-- `yfs_client::xxstatus`. -/
inductive Status where
  | OK
  | RPCERR
  | NOENT
  | IOERR
  | EXIST
  deriving DecidableEq, Repr

/-! ## Calls -/

/-- What an operation asks of `lc` and `ec`. -/
inductive Call where
  | acquire (lid : Inum)
  | release (lid : Inum)
  | get (eid : Inum)
  | getattr (eid : Inum)
  | put (eid : Inum) (buf : Bytes)
  | remove (eid : Inum)
  | getinode (isFile : Bool)
  deriving DecidableEq

/-- The reply; `none` and `false` are a status other than OK. -/
abbrev Call.Reply : Call → Type
  | .acquire _ => Unit
  | .release _ => Unit
  | .get _ => Option Bytes
  | .getattr _ => Option Attr
  | .put _ _ => Bool
  | .remove _ => Bool
  | .getinode _ => Option Inum

abbrev Op := Prog Call Call.Reply

def acquire (lid : Inum) : Op Unit := .ask (.acquire lid) .ret

def release (lid : Inum) : Op Unit := .ask (.release lid) .ret

def ecGet (eid : Inum) : Op (Option Bytes) := .ask (.get eid) .ret

def ecGetattr (eid : Inum) : Op (Option Attr) := .ask (.getattr eid) .ret

def ecPut (eid : Inum) (buf : Bytes) : Op Bool := .ask (.put eid buf) .ret

def ecRemove (eid : Inum) : Op Bool := .ask (.remove eid) .ret

def ecGetinode (isFile : Bool) : Op (Option Inum) := .ask (.getinode isFile) .ret

def withLock {α : Type} (lid : Inum) (body : Op α) : Op α := do
  acquire lid
  let a ← body
  release lid
  return a

/-! ## The operations -/

structure Fileinfo where
  size : Nat
  atime : Nat
  mtime : Nat
  ctime : Nat
  deriving DecidableEq, Repr

structure Dirinfo where
  atime : Nat
  mtime : Nat
  ctime : Nat
  deriving DecidableEq, Repr

def isfile (inum : Inum) : Bool := inum &&& 0x80000000 != 0

theorem isfile_eq (ino : Inum) : isfile ino = ino.getLsbD 31 := by
  have hmask : (0x80000000 : Inum) = BitVec.twoPow 64 31 := by decide
  rw [isfile, hmask, BitVec.and_twoPow]
  cases ino.getLsbD 31 <;> decide

def getdata (ino : Inum) : Op (Status × Bytes) := do
  match ← ecGet ino with
  | some data => return (.OK, data)
  | none => return (.IOERR, [])

def putdata (ino : Inum) (data : Bytes) : Op Status := do
  if ← ecPut ino data then return .OK else return .IOERR

def getfile (inum : Inum) : Op (Status × Option Fileinfo) := do
  withLock inum (return ())
  match ← ecGetattr inum with
  | some a => return (.OK, some ⟨a.size, a.atime, a.mtime, a.ctime⟩)
  | none => return (.IOERR, none)

def getdir (inum : Inum) : Op (Status × Option Dirinfo) := do
  withLock inum (return ())
  match ← ecGetattr inum with
  | some a => return (.OK, some ⟨a.atime, a.mtime, a.ctime⟩)
  | none => return (.IOERR, none)

/-- `read`. The sum is one of 64 bits. -/
def read (ino size off : Inum) : Op (Status × Bytes) :=
  withLock ino do
    let (ret, data) ← getdata ino
    if ret ≠ .OK then return (.NOENT, [])
    if data.length ≤ off.toNat then return (.OK, [])
    else if data.length < (off + size).toNat then return (.OK, data.drop off.toNat)
    else return (.OK, (data.drop off.toNat).take size.toNat)

/-- The contents `write` makes of `data`; `buf` is what the pointer reads. -/
def written (size off : Inum) (buf : Nat → UInt8) (data : Bytes) : Bytes :=
  let data := if data.length < off.toNat then resize data off.toNat else data
  let writeData := data.take off.toNat ++ window buf 0 size.toNat
  if data.length < (off + size).toNat then writeData
  else writeData ++ data.drop (off + size).toNat

def write (ino size off : Inum) (buf : Nat → UInt8) : Op Status :=
  withLock ino do
    let (ret, data) ← getdata ino
    if ret ≠ .OK then return ret
    putdata ino (written size off buf data)

def setattr (ino stSize : Inum) : Op Status :=
  withLock ino do
    let (ret, data) ← getdata ino
    if ret ≠ .OK then return ret
    putdata ino (resize data stSize.toNat)

def getAvailInum (isFileType : Bool) : Op Inum := do
  match ← ecGetinode isFileType with
  | some inode => return inode
  | none => return 0

def restoreInum (isFileType : Bool) (inum : Inum) : Op Unit := do
  let _ ← ecRemove (if isFileType then inum &&& ~~~0x80000000 else inum)
  return ()

/-- The end of `create` and `mkdir`, when there is a number for the new
inode: `data` goes into the parent, the new extent is made and looked at.
What fails is undone, as far as it is, by `RestoreInum(ret_ino, isFile)`. -/
def enterNew (isFile : Bool) (parent : Inum) (data : Bytes) (retIno : Inum) : Op Status := do
  let ret ← putdata parent data
  if ret ≠ .OK then
    restoreInum (retIno ≠ 0) (if isFile then 1 else 0)
    return ret
  let ret ← putdata retIno []
  if ret ≠ .OK then
    restoreInum (retIno ≠ 0) (if isFile then 1 else 0)
    return ret
  let (ret, _) ← getfile retIno
  if ret ≠ .OK then
    restoreInum (retIno ≠ 0) (if isFile then 1 else 0)
    return ret
  return .OK

section
variable (beyond : Nat → UInt8)

def linked (data name : Bytes) (ino : Inum) : Bytes :=
  dirBytes ((dirOf beyond data).insert (strName name) ino)

/-- `create` and `mkdir`, with the number they give back. -/
def createNew (isFile : Bool) (parent : Inum) (name : Bytes) : Op (Status × Option Inum) :=
  withLock parent do
    let (ret, data) ← getdata parent
    if ret ≠ .OK then return (.NOENT, none)
    if ((dirOf beyond data).find? (strName name)).isSome then return (.EXIST, none)
    let retIno ← getAvailInum isFile
    if retIno = 0 then return (.NOENT, some 0)
    let ret ← enterNew isFile parent (linked beyond data name retIno) retIno
    return (ret, some retIno)

def create (parent : Inum) (name : Bytes) : Op (Status × Option Inum) :=
  createNew beyond true parent name

def mkdir (parent : Inum) (name : Bytes) : Op (Status × Option Inum) :=
  createNew beyond false parent name

def readdir (dirinfo : DirForm) (inum : Inum) : Op (Status × DirForm) :=
  withLock inum do
    let (ret, data) ← getdata inum
    if ret ≠ .OK then return (ret, dirinfo)
    return (.OK, dirinfo.stringToDirForm beyond data)

def lookup (parent : Inum) (name : Bytes) : Op (Status × Option Inum) :=
  withLock parent do
    let (ret, data) ← getdata parent
    if ret ≠ .OK then return (.NOENT, none)
    return (.OK, (dirOf beyond data).find? (strName name))

def unlink (parent : Inum) (name : Bytes) : Op Status :=
  withLock parent do
    let (ret, data) ← getdata parent
    if ret ≠ .OK then return .NOENT
    match (dirOf beyond data).find? (strName name) with
    | none => return .NOENT
    | some ino =>
      if !isfile ino then return .NOENT
      let ret ← putdata parent (dirBytes ((dirOf beyond data).erase (strName name)))
      if ret ≠ .OK then return ret
      withLock ino do
        if ← ecRemove ino then return .OK else return .NOENT

end

/-! ## The ways through create and mkdir -/

def restored (isFile : Bool) : Inum := if isFile then 1 else 0

theorem restoreInum_eq (isFileType isFile : Bool) :
    restoreInum isFileType (if isFile then 1 else 0) =
      .ask (.remove (restored isFile)) fun _ => .ret () := by
  cases isFileType <;> cases isFile <;> rfl

theorem path_withLock {α : Type} {lid : Inum} {body : Op α} {es : List (Σ c, Call.Reply c)} {a : α}
    (h : Prog.Path (withLock lid body) es a) :
    ∃ es', es = ⟨.acquire lid, ()⟩ :: (es' ++ [⟨.release lid, ()⟩]) ∧ Prog.Path body es' a := by
  simp only [withLock, acquire, release, Prog.ask_bind, Prog.ret_bind, Prog.path_ask_iff] at h
  obtain ⟨⟨⟩, es, rfl, h⟩ := h
  obtain ⟨es₁, es₂, b, rfl, hbody, hrest⟩ := h.of_bind
  simp only [Prog.pure_eq, Prog.path_ask_iff, Prog.path_ret_iff] at hrest
  obtain ⟨⟨⟩, es, rfl, rfl, rfl⟩ := hrest
  exact ⟨es₁, rfl, hbody⟩

/-- The calls of `enterNew`, and the status. -/
inductive EnterPath (isFile : Bool) (parent : Inum) (data : Bytes) (ino : Inum) :
    List (Σ c, Call.Reply c) → Status → Prop
  | parentPut (b : Bool) :
      EnterPath isFile parent data ino
        [⟨.put parent data, false⟩, ⟨.remove (restored isFile), b⟩] .IOERR
  | inodePut (b : Bool) :
      EnterPath isFile parent data ino
        [⟨.put parent data, true⟩, ⟨.put ino [], false⟩, ⟨.remove (restored isFile), b⟩] .IOERR
  | getattr (b : Bool) :
      EnterPath isFile parent data ino
        [⟨.put parent data, true⟩, ⟨.put ino [], true⟩, ⟨.acquire ino, ()⟩, ⟨.release ino, ()⟩,
          ⟨.getattr ino, none⟩, ⟨.remove (restored isFile), b⟩] .IOERR
  | done (a : Attr) :
      EnterPath isFile parent data ino
        [⟨.put parent data, true⟩, ⟨.put ino [], true⟩, ⟨.acquire ino, ()⟩, ⟨.release ino, ()⟩,
          ⟨.getattr ino, some a⟩] .OK

theorem enterPath_of_path {isFile : Bool} {parent : Inum} {data : Bytes} {ino : Inum}
    {es : List (Σ c, Call.Reply c)} {st : Status}
    (h : Prog.Path (enterNew isFile parent data ino) es st) :
    EnterPath isFile parent data ino es st := by
  simp only [enterNew, putdata, ecPut, restoreInum_eq, getfile, withLock, acquire, release,
    ecGetattr, Prog.ask_bind, Prog.ret_bind, Prog.pure_eq, Prog.path_ask_iff] at h
  obtain ⟨ok, es, rfl, h⟩ := h
  cases ok with
  | false =>
    simp [-Bool.exists_bool] at h
    obtain ⟨⟨b, rfl⟩, rfl⟩ := h
    exact .parentPut b
  | true =>
    simp [-Bool.exists_bool] at h
    obtain ⟨ok, es, rfl, h⟩ := h
    cases ok with
    | false =>
      simp [-Bool.exists_bool] at h
      obtain ⟨⟨b, rfl⟩, rfl⟩ := h
      exact .inodePut b
    | true =>
      simp [-Bool.exists_bool] at h
      obtain ⟨⟨⟩, ⟨⟩, r, es, rfl, h⟩ := h
      cases r with
      | none =>
        simp [-Bool.exists_bool] at h
        obtain ⟨⟨b, rfl⟩, rfl⟩ := h
        exact .getattr b
      | some a =>
        simp [-Bool.exists_bool] at h
        obtain ⟨rfl, rfl⟩ := h
        exact .done a

section
variable (beyond : Nat → UInt8)

/-- The calls of `create` and `mkdir` between taking and dropping the lock,
and the status. -/
inductive CreatePath (isFile : Bool) (parent : Inum) (name : Bytes) :
    List (Σ c, Call.Reply c) → Status → Prop
  | noParent : CreatePath isFile parent name [⟨.get parent, none⟩] .NOENT
  | bound (data : Bytes) : ((dirOf beyond data).find? (strName name)).isSome = true →
      CreatePath isFile parent name [⟨.get parent, some data⟩] .EXIST
  | noInode (data : Bytes) (r : Option Inum) : (dirOf beyond data).find? (strName name) = none →
      (∀ ino ∈ r, ino = 0) →
      CreatePath isFile parent name [⟨.get parent, some data⟩, ⟨.getinode isFile, r⟩] .NOENT
  | enter (data : Bytes) (ino : Inum) {es : List (Σ c, Call.Reply c)} {st : Status} :
      (dirOf beyond data).find? (strName name) = none → ino ≠ 0 →
      EnterPath isFile parent (linked beyond data name ino) ino es st →
      CreatePath isFile parent name
        (⟨.get parent, some data⟩ :: ⟨.getinode isFile, some ino⟩ :: es) st

theorem createPath_of_path {isFile : Bool} {parent : Inum} {name : Bytes}
    {es : List (Σ c, Call.Reply c)} {out : Status × Option Inum}
    (h : Prog.Path (createNew beyond isFile parent name) es out) :
    ∃ es', es = ⟨.acquire parent, ()⟩ :: (es' ++ [⟨.release parent, ()⟩]) ∧
      CreatePath beyond isFile parent name es' out.1 := by
  obtain ⟨es', rfl, hbody⟩ := path_withLock h
  refine ⟨es', rfl, ?_⟩
  clear h
  simp only [getdata, ecGet, getAvailInum, ecGetinode, Prog.ask_bind, Prog.ret_bind, Prog.pure_eq,
    Prog.path_ask_iff] at hbody
  obtain ⟨r, es, rfl, hget⟩ := hbody
  cases r with
  | none =>
    simp at hget
    obtain ⟨rfl, rfl⟩ := hget
    exact .noParent
  | some data =>
    by_cases hbound : ((dirOf beyond data).find? (strName name)).isSome = true
    · simp [hbound] at hget
      obtain ⟨rfl, rfl⟩ := hget
      exact .bound data hbound
    · have hfree : (dirOf beyond data).find? (strName name) = none := by simpa using hbound
      simp [hbound] at hget
      obtain ⟨r, es, rfl, hinode⟩ := hget
      cases r with
      | none =>
        simp at hinode
        obtain ⟨rfl, rfl⟩ := hinode
        exact .noInode data none hfree (by simp)
      | some ino =>
        by_cases hino : ino = 0#64
        · simp [hino] at hinode
          obtain ⟨rfl, rfl⟩ := hinode
          exact .noInode data (some ino) hfree (by simp [hino])
        · rw [Prog.ret_bind, if_neg hino] at hinode
          obtain ⟨es₁, es₂, st, rfl, henter, hret⟩ := hinode.of_bind
          rw [Prog.path_ret_iff] at hret
          obtain ⟨rfl, rfl⟩ := hret
          rw [List.append_nil]
          exact .enter data ino hfree hino (enterPath_of_path henter)

end

end Yfs.Fs
