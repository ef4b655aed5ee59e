/-
Yfs.Cluster.System — a running yfs: `yfs_client` processes with any number of
threads each, over the caching lock client, the caching extent client and the
two servers (yfs_client.cc, lock_client_cache.cc, lock_server_cache.cc,
extent_client_cache.cc, extent_server.cc).

A thread runs one operation of `Yfs.Fs.Client` call by call, and every call is
cut at its RPCs. A call to the lock client takes as many steps of the protocol
as it takes (`Yfs.Lock.FlushSys`). A `get` that misses the cache makes two calls
to the extent server and fills the cache afterwards; a flush writes back, and
clears its flags afterwards. All other steps may come in between.

The extent client has no mutex: what protects an entry is the lock of its
extent. The extent server takes its mutex in `GetInodeNum` only. So a step is
the code of the client between two RPCs, or one handler of the server; two
threads inside the same `std::map` at the same time are a data race, and the
model says nothing about it. Calls to the extent server are not lost.
-/
import Yfs.Lib.Atomic
import Yfs.Lock.Tenure
import Yfs.Fs.Making
import Yfs.Fs.Files

namespace Yfs.Cluster

open Yfs.Effect Function
open Yfs.Fs (Inum Op Call DirForm FileRequest FileAnswer Fileinfo Dirinfo getInodeNum)
open Yfs.Extent (Bytes Attr Cache FileBlock FileData)
open Yfs.Lock (UserId ThreadId FlushSys FlushEvent flushStep)
open Yfs.Atomic (Action)

/-! ## Operations -/

/-- A call of an operation of `yfs_client`. `beyond` is the memory behind the
string that `StringToDirForm` parses. -/
inductive Request where
  | file (q : FileRequest)
  | lookup (parent : Inum) (name : Bytes) (beyond : Nat → UInt8)
  | readdir (inum : Inum) (dirinfo : DirForm) (beyond : Nat → UInt8)
  | create (parent : Inum) (name : Bytes) (beyond : Nat → UInt8)
  | mkdir (parent : Inum) (name : Bytes) (beyond : Nat → UInt8)
  | unlink (parent : Inum) (name : Bytes) (beyond : Nat → UInt8)
  | getfile (inum : Inum)
  | getdir (inum : Inum)

inductive Answer where
  | file (a : FileAnswer)
  | entry (st : Fs.Status) (ino : Option Inum)
  | dir (st : Fs.Status) (dirinfo : DirForm)
  | status (st : Fs.Status)
  | fileinfo (st : Fs.Status) (info : Option Fileinfo)
  | dirinfo (st : Fs.Status) (info : Option Dirinfo)

def fileProg : FileRequest → Op FileAnswer
  | .read ino size off => do
    let r ← Fs.read ino size off
    return .got r.1 r.2
  | .write ino size off buf => do
    let st ← Fs.write ino size off buf
    return .done st
  | .setattr ino stSize => do
    let st ← Fs.setattr ino stSize
    return .done st

def Request.prog : Request → Op Answer
  | .file q => do
    let a ← fileProg q
    return .file a
  | .lookup parent name beyond => do
    let r ← Fs.lookup beyond parent name
    return .entry r.1 r.2
  | .readdir inum dirinfo beyond => do
    let r ← Fs.readdir beyond dirinfo inum
    return .dir r.1 r.2
  | .create parent name beyond => do
    let r ← Fs.create beyond parent name
    return .entry r.1 r.2
  | .mkdir parent name beyond => do
    let r ← Fs.mkdir beyond parent name
    return .entry r.1 r.2
  | .unlink parent name beyond => do
    let st ← Fs.unlink beyond parent name
    return .status st
  | .getfile inum => do
    let r ← Fs.getfile inum
    return .fileinfo r.1 r.2
  | .getdir inum => do
    let r ← Fs.getdir inum
    return .dirinfo r.1 r.2

/-! ## The state -/

inductive Doing where
  | start
  /-- Inside the lock client. -/
  | inLock
  /-- The RPC of `getattr` or `remove` or the first one of `get` is out. -/
  | rpc
  /-- The second RPC of `get` is out. -/
  | attrRpc (ret : Extent.Status × Option Bytes)
  /-- `get` has both replies. -/
  | fill (ret : Extent.Status × Option Bytes) (attr : Extent.Status × Option Attr)

structure Thread where
  prog : Op Answer
  doing : Doing

inductive Flushing where
  | start
  | putRpc (buf : Bytes)
  | removeRpc
  | clear

structure Sys where
  lock : Inum → FlushSys
  cache : UserId → Cache
  srv : FileBlock
  thread : UserId → ThreadId → Option Thread
  flushing : Inum → Nat → Flushing

def Sys.init (fb : FileBlock) : Sys :=
  { lock := fun _ => FlushSys.init
    cache := fun _ _ => none
    srv := fb
    thread := fun _ _ => none
    flushing := fun _ _ => .start }

inductive Event where
  | call (c : UserId) (t : ThreadId) (q : Request)
  | go (c : UserId) (t : ThreadId) (now : Nat) (rands : List Nat)
  | ret (c : UserId) (t : ThreadId)
  | lock (lid : Inum) (e : Lock.Event)
  | dorelease (lid : Inum) (call : Nat) (now : Nat)

/-! ## The steps -/

def Sys.setThread (s : Sys) (c : UserId) (t : ThreadId) (th : Option Thread) : Sys :=
  { s with thread := update s.thread c (update (s.thread c) t th) }

def Sys.runLock (s : Sys) (lid : Inum) (e : FlushEvent) : Option Sys :=
  (flushStep (s.lock lid) e).map fun l => { s with lock := update s.lock lid l }

def Sys.setEntry (s : Sys) (c : UserId) (eid : Inum) (d : FileData) : Sys :=
  { s with cache := update s.cache c ((s.cache c).set eid.toNat d) }

def Sys.eraseEntry (s : Sys) (c : UserId) (eid : Inum) : Sys :=
  { s with cache := update s.cache c (update (s.cache c) eid.toNat none) }

def Sys.setSrv (s : Sys) (srv : FileBlock) : Sys := { s with srv := srv }

def Sys.setFlushing (s : Sys) (lid : Inum) (k : Nat) (f : Flushing) : Sys :=
  { s with flushing := update s.flushing lid (update (s.flushing lid) k f) }

def okOnly {α : Type} (ret : Extent.Status) (a : α) : Option α := if ret = .OK then some a else none

/-- The next step of a thread. A lock call begins with a step of the protocol
and is over when the thread holds the lock, or does not hold it any more. -/
def Sys.go (s : Sys) (c : UserId) (t : ThreadId) (now : Nat) (rands : List Nat) :
    Thread → Option Sys
  | ⟨.ask (.acquire lid) k, .start⟩ =>
    (s.runLock lid (.run (.acquire c t))).map fun s' =>
      s'.setThread c t (some ⟨.ask (.acquire lid) k, .inLock⟩)
  | ⟨.ask (.acquire lid) k, .inLock⟩ =>
    if (s.lock lid).sys.pc c t = .holding then some (s.setThread c t (some ⟨k (), .start⟩))
    else none
  | ⟨.ask (.release lid) k, .start⟩ =>
    (s.runLock lid (.run (.release c t))).map fun s' =>
      s'.setThread c t (some ⟨.ask (.release lid) k, .inLock⟩)
  | ⟨.ask (.release lid) k, .inLock⟩ =>
    if (s.lock lid).sys.pc c t = .idle then some (s.setThread c t (some ⟨k (), .start⟩)) else none
  | ⟨.ask (.get eid) k, .start⟩ =>
    let d := (s.cache c).entry eid.toNat
    if d.isPresent then
      some ((s.setEntry c eid { d with attr := { d.attr with atime := now } }).setThread c t
        (some ⟨k (some d.content), .start⟩))
    else some ((s.setEntry c eid d).setThread c t (some ⟨.ask (.get eid) k, .rpc⟩))
  | ⟨.ask (.get eid) k, .rpc⟩ =>
    let r := Extent.Server.get s.srv now eid.toNat
    some ((s.setSrv r.2).setThread c t (some ⟨.ask (.get eid) k, .attrRpc r.1⟩))
  | ⟨.ask (.get eid) k, .attrRpc ret⟩ =>
    let r := Extent.Server.getattr s.srv eid.toNat
    some ((s.setSrv r.2).setThread c t (some ⟨.ask (.get eid) k, .fill ret r.1⟩))
  | ⟨.ask (.get eid) k, .fill ret attr⟩ =>
    let d := (s.cache c).entry eid.toNat
    let buf := ret.2.getD []
    -- the status of the first RPC is overwritten by that of the second
    some ((s.setEntry c eid
      { d with attr := attr.2.getD d.attr, content := buf, isPresent := true }).setThread c t
        (some ⟨k (okOnly attr.1 buf), .start⟩))
  | ⟨.ask (.getattr eid) k, .start⟩ =>
    let d := (s.cache c).entry eid.toNat
    if d.isPresent then
      some ((s.setEntry c eid d).setThread c t (some ⟨k (some d.attr), .start⟩))
    else some ((s.setEntry c eid d).setThread c t (some ⟨.ask (.getattr eid) k, .rpc⟩))
  | ⟨.ask (.getattr eid) k, .rpc⟩ =>
    let r := Extent.Server.getattr s.srv eid.toNat
    some ((s.setSrv r.2).setThread c t
      (some ⟨k (okOnly r.1.1 (r.1.2.getD ⟨0, 0, 0, 0⟩)), .start⟩))
  | ⟨.ask (.put eid buf) k, .start⟩ =>
    let r := (s.cache c).put now eid.toNat buf
    some ({ s with cache := update s.cache c r.2 }.setThread c t
      (some ⟨k (decide (r.1 = Extent.Status.OK)), .start⟩))
  | ⟨.ask (.remove eid) k, .start⟩ =>
    if (s.cache c eid.toNat).isSome then
      some ((s.eraseEntry c eid).setThread c t (some ⟨k true, .start⟩))
    else some (s.setThread c t (some ⟨.ask (.remove eid) k, .rpc⟩))
  | ⟨.ask (.remove eid) k, .rpc⟩ =>
    let r := Extent.Server.remove s.srv eid.toNat
    some ((s.setSrv r.2).setThread c t (some ⟨k (decide (r.1 = Extent.Status.OK)), .start⟩))
  | ⟨.ask (.getinode isFile) k, .start⟩ =>
    (getInodeNum s.srv isFile rands).map fun ino =>
      s.setThread c t (some ⟨k (some ino), .start⟩)
  | _ => none

def Sys.goFlush (s : Sys) (c : UserId) (lid : Inum) (k now : Nat) : Option Sys :=
  if (s.lock lid).flushed k then none
  else
    match s.flushing lid k with
    | .start =>
      match s.cache c lid.toNat with
      | none => some (s.setFlushing lid k .removeRpc)
      | some d => some (s.setFlushing lid k (if d.isDirty then .putRpc d.content else .clear))
    | .putRpc buf =>
      some ((s.setSrv (Extent.Server.put s.srv now lid.toNat buf).2).setFlushing lid k .clear)
    | .removeRpc => (s.setSrv (Extent.Server.remove s.srv lid.toNat).2).runLock lid (.dorelease k)
    | .clear =>
      let d := (s.cache c).entry lid.toNat
      (s.setEntry c lid { d with isDirty := false, isPresent := false }).runLock lid (.dorelease k)

def isCall : Lock.Event → Bool
  | .acquire _ _ => true
  | .release _ _ => true
  | _ => false

def step (s : Sys) : Event → Option Sys
  | .call c t q =>
    if (s.thread c t).isNone then some (s.setThread c t (some ⟨q.prog, .start⟩)) else none
  | .go c t now rands => (s.thread c t).bind (s.go c t now rands)
  | .ret c t =>
    match s.thread c t with
    | some ⟨.ret _, _⟩ => some (s.setThread c t none)
    | _ => none
  | .lock lid e => if isCall e then none else s.runLock lid (.run e)
  | .dorelease lid k now =>
    match (s.lock lid).sys.relCalls k with
    | .sent c => s.goFlush c lid k now
    | _ => none

def shown (s : Sys) : Event → Option (Action (UserId × ThreadId) Request Answer)
  | .call c t q => some (.call (c, t) q)
  | .ret c t =>
    match s.thread c t with
    | some ⟨.ret a, _⟩ => some (.ret (c, t) a)
    | _ => none
  | _ => none

end Yfs.Cluster
