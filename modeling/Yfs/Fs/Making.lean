/-
Yfs.Fs.Making — `create` and `mkdir` of several clients, over their caches and
one extent server (yfs_client.cc, extent_client_cache.cc, extent_server.cc:
`GetInodeNum`).

An operation is cut at its calls. `Task.ask` says which call comes at which
place and where the reply leads; `createNew_eq_prog` is that these calls,
with these ways on, are `create` and `mkdir` of `Yfs.Fs.Client`. The values of
`rand()` and the clock are in the events.

A lock that an operation has released stays with its client until it is
revoked, and the extent is flushed then (`lock_client_cache`, `dorelease`). It
is a lock: of all operations at most one has it.
-/
import Yfs.Extent.Cache
import Yfs.Fs.Client

namespace Yfs.Fs

open Yfs.Effect Function
open Yfs.Extent (Bytes Attr FileBlock FileData Cache Hold Rpc)

/-! ## The server -/

/-- One turn of the loop. The `continue` after 1 goes to the test of the
loop, past the file bit. -/
def candidate (isFile : Bool) (rand : Nat) : Inum :=
  let ino : Inum := BitVec.ofNat 64 (rand % 0x80000000)
  if ino = 1 then 1 else if isFile then ino ||| 0x80000000 else ino

/-- `extent_server::GetInodeNum`, with the values `rand()` gives it. -/
def getInodeNum (fb : FileBlock) (isFile : Bool) : List Nat → Option Inum
  | [] => none
  | r :: rs =>
    if (fb (candidate isFile r).toNat).isSome then getInodeNum fb isFile rs
    else if rs = [] then some (candidate isFile r)
    else none

theorem getInodeNum_eq {fb : FileBlock} {isFile : Bool} {rs : List Nat} {ino : Inum}
    (h : getInodeNum fb isFile rs = some ino) :
    fb ino.toNat = none ∧ ∃ r ∈ rs, ino = candidate isFile r := by
  induction rs with
  | nil => cases h
  | cons r rs ih =>
    unfold getInodeNum at h
    split at h
    · obtain ⟨hfb, r', hr', heq⟩ := ih h
      exact ⟨hfb, r', List.mem_cons_of_mem _ hr', heq⟩
    · rename_i hfree
      split at h
      · cases h
        exact ⟨by simpa using hfree, r, List.mem_cons_self, rfl⟩
      · cases h

/-- The file bit is the type, but for the number 1. -/
theorem isfile_candidate {isFile : Bool} {r : Nat} (h : candidate isFile r ≠ 1) :
    isfile (candidate isFile r) = isFile := by
  have hlow : (BitVec.ofNat 64 (r % 0x80000000)).getLsbD 31 = false := by
    have hlt : r % 0x80000000 < 2 ^ 31 := Nat.mod_lt _ (by decide)
    rw [BitVec.getLsbD_ofNat, Nat.testBit_lt_two_pow hlt, Bool.and_false]
  unfold candidate at h ⊢
  dsimp only at h ⊢
  split
  · rename_i hone
    rw [if_pos hone] at h
    exact absurd rfl h
  · cases isFile with
    | true =>
      rw [if_pos rfl, isfile_eq, BitVec.getLsbD_or, hlow]
      decide
    | false => rw [if_neg (by decide), isfile_eq, hlow]

/-! ## Operations, call by call -/

inductive Pc where
  | acquire
  | get
  | getinode (data : Bytes)
  | putParent (data : Bytes) (ino : Inum)
  | putInode (ino : Inum)
  | lockInode (ino : Inum)
  | unlockInode (ino : Inum)
  | getattr (ino : Inum)
  | restore (ino : Inum)
  | release (out : Status × Option Inum)
  | done (out : Status × Option Inum)
  deriving DecidableEq

/-- `create` or `mkdir`, at a client. -/
structure Task where
  client : Nat
  isFile : Bool
  parent : Inum
  name : Bytes
  pc : Pc

section
variable (beyond : Nat → UInt8)

def Task.ask (t : Task) : Pc → Option (Σ c : Call, c.Reply → Pc)
  | .acquire => some ⟨.acquire t.parent, fun _ => .get⟩
  | .get => some ⟨.get t.parent, fun
    | none => .release (.NOENT, none)
    | some data =>
      if ((dirOf beyond data).find? (strName t.name)).isSome then .release (.EXIST, none)
      else .getinode data⟩
  | .getinode data => some ⟨.getinode t.isFile, fun r =>
      if r.getD 0 = 0 then .release (.NOENT, some 0) else .putParent data (r.getD 0)⟩
  | .putParent data ino => some ⟨.put t.parent (linked beyond data t.name ino), fun ok =>
      if ok then .putInode ino else .restore ino⟩
  | .putInode ino => some ⟨.put ino [], fun ok => if ok then .lockInode ino else .restore ino⟩
  | .lockInode ino => some ⟨.acquire ino, fun _ => .unlockInode ino⟩
  | .unlockInode ino => some ⟨.release ino, fun _ => .getattr ino⟩
  | .getattr ino => some ⟨.getattr ino, fun
    | some _ => .release (.OK, some ino)
    | none => .restore ino⟩
  | .restore ino => some ⟨.remove (restored t.isFile), fun _ => .release (.IOERR, some ino)⟩
  | .release out => some ⟨.release t.parent, fun _ => .done out⟩
  | .done _ => none

/-- The rest of the operation, as a program of at most `n` calls. -/
def Task.prog (t : Task) : Nat → Pc → Op (Status × Option Inum)
  | _, .done out => .ret out
  | 0, _ => .ret (.IOERR, none)
  | n + 1, pc =>
    match t.ask beyond pc with
    | some ⟨c, k⟩ => .ask c fun r => t.prog n (k r)
    | none => .ret (.IOERR, none)

/-- The calls of `enterNew` and the release of the parent. -/
theorem enterNew_eq_prog (t : Task) (data : Bytes) (ino : Inum) :
    (do
      let ret ← enterNew t.isFile t.parent (linked beyond data t.name ino) ino
      release t.parent
      return (ret, some ino)) = t.prog beyond 7 (.putParent data ino) := by
  simp only [enterNew, putdata, ecPut, restoreInum_eq, getfile, withLock, acquire, release,
    ecGetattr, Prog.ask_bind, Prog.ret_bind, Prog.pure_eq, Task.prog, Task.ask]
  congr 1
  funext ok
  cases ok with
  | false => rfl
  | true =>
    refine congrArg (Prog.ask (Call.put ino [])) (funext fun ok => ?_)
    cases ok with
    | false => rfl
    | true =>
      refine congrArg (Prog.ask (Call.acquire ino)) (funext fun _ => ?_)
      refine congrArg (Prog.ask (Call.release ino)) (funext fun _ => ?_)
      refine congrArg (Prog.ask (Call.getattr ino)) (funext fun r => ?_)
      cases r with
      | none => rfl
      | some a => rfl

/-- The table is `create` and `mkdir`. -/
theorem createNew_eq_prog (t : Task) :
    createNew beyond t.isFile t.parent t.name = t.prog beyond 10 .acquire := by
  refine congrArg (Prog.ask (Call.acquire t.parent)) (funext fun _ => ?_)
  refine congrArg (Prog.ask (Call.get t.parent)) (funext fun r => ?_)
  cases r with
  | none => rfl
  | some data =>
    by_cases hbound : ((dirOf beyond data).find? (strName t.name)).isSome = true
    · simp only [Prog.pure_eq, Prog.bind, ne_eq, not_true_eq_false, if_false, if_pos hbound,
        Task.prog, Task.ask]
      rfl
    · simp only [Prog.pure_eq, Prog.bind, ne_eq, not_true_eq_false, if_false, if_neg hbound,
        Task.prog, Task.ask]
      refine congrArg (Prog.ask (Call.getinode t.isFile)) (funext fun r => ?_)
      by_cases hzero : r.getD 0 = 0
      · rw [if_pos hzero]
        cases r with
        | none => rfl
        | some ino =>
          obtain rfl : ino = 0 := hzero
          rfl
      · rw [if_neg hzero, ← enterNew_eq_prog]
        cases r with
        | none => exact absurd rfl hzero
        | some ino =>
          replace hzero : ino ≠ 0 := hzero
          simp only [Prog.bind, Prog.pure_eq, if_neg hzero, Option.getD_some]
          exact Prog.bind_assoc _ _ _

end

/-! ## Clients, caches and locks -/

structure Shared where
  srv : FileBlock
  cache : Nat → Cache
  lock : Inum → Hold

/-- A call of client `c`, at time `now`; `acquire` waits while the lock is not
to be had. -/
def Shared.serve (w : Shared) (c now : Nat) (rands : List Nat) :
    (call : Call) → Option (call.Reply × Shared)
  | .acquire lid =>
    if w.lock lid = .free ∨ w.lock lid = .cached c then
      some ((), { w with lock := update w.lock lid (.held c) })
    else none
  | .release lid => some ((), { w with lock := update w.lock lid (.cached c) })
  | .get eid =>
    let out := (w.cache c).get (Rpc.direct now) now w.srv eid.toNat []
    some (if out.1.1 = .OK then some out.1.2 else none,
      { w with cache := update w.cache c out.2.1, srv := out.2.2 })
  | .getattr eid =>
    let out := (w.cache c).getattr (Rpc.direct now) w.srv eid.toNat ⟨0, 0, 0, 0⟩
    some (if out.1.1 = .OK then some out.1.2 else none,
      { w with cache := update w.cache c out.2.1, srv := out.2.2 })
  | .put eid buf =>
    let out := (w.cache c).put now eid.toNat buf
    some (decide (out.1 = .OK), { w with cache := update w.cache c out.2 })
  | .remove eid =>
    let out := (w.cache c).remove (Rpc.direct now) w.srv eid.toNat
    some (decide (out.1 = .OK),
      { w with cache := update w.cache c out.2.1, srv := out.2.2 })
  | .getinode isFile => (getInodeNum w.srv isFile rands).map fun ino => (some ino, w)

def Shared.revoke (w : Shared) (lid : Inum) (now : Nat) : Option Shared :=
  match w.lock lid with
  | .cached c =>
    let out := (w.cache c).flush (Rpc.direct now) w.srv lid.toNat
    some { srv := out.2.2, cache := update w.cache c out.2.1
           lock := update w.lock lid .free }
  | _ => none

/-- `given` are the numbers the server has given out, `entered` those that
have been put into a directory; nothing reads them. -/
structure Making where
  shared : Shared
  tasks : List Task
  given : List Inum
  entered : List Inum

def Making.init : Making :=
  { shared :=
      { srv := (Extent.Server.put (fun _ => none) 0 1 []).2, cache := fun _ _ => none
        lock := fun _ => .free }
    tasks := [], given := [], entered := [] }

inductive Event where
  | start (client : Nat) (isFile : Bool) (parent : Inum) (name : Bytes)
  | call (i now : Nat) (rands : List Nat)
  | revoke (lid : Inum) (now : Nat)
  deriving DecidableEq

def Making.note (s : Making) : Pc → Making
  | .putParent _ ino => { s with given := ino :: s.given }
  | .putInode ino => { s with entered := ino :: s.entered }
  | _ => s

section
variable (beyond : Nat → UInt8)

def Making.step (s : Making) : Event → Option Making
  | .start client isFile parent name =>
    some { s with tasks := s.tasks ++ [⟨client, isFile, parent, name, .acquire⟩] }
  | .call i now rands =>
    s.tasks[i]?.bind fun t => (t.ask beyond t.pc).bind fun a =>
      (s.shared.serve t.client now rands a.1).map fun out =>
        Making.note
          { s with shared := out.2, tasks := s.tasks.set i { t with pc := a.2 out.1 } }
          (a.2 out.1)
  | .revoke lid now => (s.shared.revoke lid now).map fun w => { s with shared := w }

def numbers (data : Bytes) : List Inum := (dirOf beyond data).entries.map Prod.snd

end

/-- The contents of an extent, on the server or in a cache. -/
def Shared.Copy (w : Shared) (data : Bytes) : Prop :=
  (∃ eid, Extent.Server.contents w.srv eid = some data) ∨
  ∃ c eid d, w.cache c eid = some d ∧ d.content = data

end Yfs.Fs
