/-
Yfs.Cluster.Operations — the operations that work on one extent in place:
`read`, `write`, `setattr`, `lookup` and `readdir` (yfs_client.cc).

They are one program (`single`): take the lock, get the contents, put new ones
or none, drop the lock. `Request.work` is the part in which they differ, and
`prog_eq_single` says that the rest is the same. `apply` is what they are for:
a request to a file is one to an array of bytes, and the directory operations
read the entries.
-/
import Yfs.Cluster.Extents

namespace Yfs.Cluster

open Yfs.Effect Function
open Yfs.Fs
open Yfs.Extent (Bytes FileBlock)

/-! ## One program -/

def leave (ino : Inum) (a : Answer) : Op Answer := .ask (.release ino) fun _ => .ret a

def store (ino : Inum) (bad a : Answer) (buf : Bytes) : Op Answer :=
  .ask (.put ino buf) fun ok => leave ino (if ok then a else bad)

def finish (ino : Inum) (bad : Answer) (r : Answer × Option Bytes) : Op Answer :=
  match r.2 with
  | none => leave ino r.1
  | some buf => store ino bad r.1 buf

def fetch (ino : Inum) (miss bad : Answer) (work : Bytes → Answer × Option Bytes) : Op Answer :=
  .ask (.get ino) fun r =>
    match r with
    | none => leave ino miss
    | some data => finish ino bad (work data)

def single (ino : Inum) (miss bad : Answer) (work : Bytes → Answer × Option Bytes) : Op Answer :=
  .ask (.acquire ino) fun _ => fetch ino miss bad work

/-! ## What the operations do with the contents -/

def target : FileRequest → Inum
  | .read ino _ _ => ino
  | .write ino _ _ _ => ino
  | .setattr ino _ => ino

def Request.ino : Request → Inum
  | .file q => target q
  | .lookup parent _ _ => parent
  | .readdir inum _ _ => inum
  | .create parent _ _ => parent
  | .mkdir parent _ _ => parent
  | .unlink parent _ _ => parent
  | .getfile inum => inum
  | .getdir inum => inum

def Request.OnContents : Request → Prop
  | .file q => q.Valid
  | .lookup _ _ _ => True
  | .readdir _ _ _ => True
  | _ => False

def Request.InPlace (fb : FileBlock) (q : Request) : Prop :=
  (fb q.ino.toNat).isSome = true ∧ q.OnContents

def Request.miss : Request → Answer
  | .file (.read _ _ _) => .file (.got .NOENT [])
  | .file _ => .file (.done .IOERR)
  | .readdir _ dirinfo _ => .dir .IOERR dirinfo
  | _ => .entry .NOENT none

def Request.work : Request → Bytes → Answer × Option Bytes
  | .file (.read _ size off), data =>
    (.file (.got .OK (if data.length ≤ off.toNat then []
      else if data.length < (off + size).toNat then data.drop off.toNat
      else (data.drop off.toNat).take size.toNat)), none)
  | .file (.write _ size off buf), data => (.file (.done .OK), some (written size off buf data))
  | .file (.setattr _ stSize), data => (.file (.done .OK), some (resize data stSize.toNat))
  | .lookup _ name beyond, data => (.entry .OK ((dirOf beyond data).find? (strName name)), none)
  | .readdir _ dirinfo beyond, data => (.dir .OK (dirinfo.stringToDirForm beyond data), none)
  | q, _ => (q.miss, none)

def badPut : Answer := .file (.done .IOERR)

def Request.single (q : Request) : Op Answer := Cluster.single q.ino q.miss badPut q.work

/-- Two operations that start with the same lock and the same `get`. -/
theorem ask_get_congr {ino : Inum} {k k' : Option Bytes → Op Answer} (h : ∀ r, k r = k' r) :
    (Prog.ask (.acquire ino) fun _ => Prog.ask (.get ino) k : Op Answer) =
      .ask (.acquire ino) fun _ => .ask (.get ino) k' := by
  rw [funext h]

theorem prog_eq_single {fb : FileBlock} {q : Request} (h : q.InPlace fb) : q.prog = q.single := by
  obtain ⟨_, h⟩ := h
  cases q with
  | file q =>
    cases q with
    | read ino size off =>
      simp only [Request.prog, fileProg, Fs.read, withLock, acquire, release, getdata, ecGet,
        Prog.ask_bind, Prog.ret_bind, Prog.pure_eq]
      refine ask_get_congr fun r => ?_
      cases r with
      | none => rfl
      | some data =>
        simp only [Prog.ret_bind, Request.work, finish, leave, ne_eq, not_true_eq_false, if_false]
        -- the three ways out leave with the same call
        by_cases hend : data.length ≤ off.toNat
        · simp only [if_pos hend]
          rfl
        · by_cases hlong : data.length < (off + size).toNat
          · simp only [if_neg hend, if_pos hlong]
            rfl
          · simp only [if_neg hend, if_neg hlong]
            rfl
    | write ino size off buf =>
      refine ask_get_congr fun r => ?_
      cases r with
      | none => rfl
      | some data =>
        refine congrArg (Prog.ask (Call.put ino _)) (funext fun ok => ?_)
        cases ok with
        | true => rfl
        | false => rfl
    | setattr ino stSize =>
      refine ask_get_congr fun r => ?_
      cases r with
      | none => rfl
      | some data =>
        refine congrArg (Prog.ask (Call.put ino _)) (funext fun ok => ?_)
        cases ok with
        | true => rfl
        | false => rfl
  | lookup parent name beyond =>
    refine ask_get_congr fun r => ?_
    cases r with
    | none => rfl
    | some data => rfl
  | readdir inum dirinfo beyond =>
    refine ask_get_congr fun r => ?_
    cases r with
    | none => rfl
    | some data => rfl
  | create parent name beyond | mkdir parent name beyond | unlink parent name beyond
  | getfile inum | getdir inum => exact h.elim

/-! ## What they are for -/

/-- The operations on files that are arrays of bytes, each in one step; none
on a file that is not there. -/
def apply (f : Files) : Request → Option (Answer × Files)
  | .file q => (f (target q)).map fun _ => (.file (f.step q).1, (f.step q).2)
  | .lookup parent name beyond =>
    (f parent).map fun c => (.entry .OK ((dirOf beyond (bytesOf c)).find? (strName name)), f)
  | .readdir inum dirinfo beyond =>
    (f inum).map fun c => (.dir .OK (dirinfo.stringToDirForm beyond (bytesOf c)), f)
  | _ => none

/-- The work of an operation on the contents is its meaning. -/
theorem apply_eq_work {fb : FileBlock} {q : Request} (h : q.InPlace fb) {f : Files} {data : Bytes}
    (hdata : f q.ino = some (Contents.ofBytes data)) :
    apply f q = some ((q.work data).1,
      update f q.ino (some (Contents.ofBytes ((q.work data).2.getD data)))) := by
  have hself : update f q.ino (some (Contents.ofBytes data)) = f := by
    rw [← hdata]
    exact update_eq_self q.ino f
  obtain ⟨_, h⟩ := h
  cases q with
  | file q =>
    cases q with
    | read ino size off =>
      have hsum : off.toNat + size.toNat < 2 ^ 64 := lt_trans h (by decide)
      replace hdata : f ino = some (Contents.ofBytes data) := hdata
      replace hself : update f ino (some (Contents.ofBytes data)) = f := hself
      simp only [Request.work, Contents.read_ofBytes hsum]
      simp [apply, target, Files.step, Request.ino, hdata, hself]
    | write ino size off buf =>
      have hsum : off.toNat + size.toNat < 2 ^ 64 := lt_trans h (by decide)
      replace hdata : f ino = some (Contents.ofBytes data) := hdata
      simp [apply, target, Files.step, Request.work, Request.ino, hdata,
        Contents.ofBytes_written hsum]
    | setattr ino stSize =>
      replace hdata : f ino = some (Contents.ofBytes data) := hdata
      simp [apply, target, Files.step, Request.work, Request.ino, hdata, Contents.ofBytes_resize]
  | lookup parent name beyond =>
    replace hdata : f parent = some (Contents.ofBytes data) := hdata
    simpa [apply, Request.work, hdata] using hself.symm
  | readdir inum dirinfo beyond =>
    replace hdata : f inum = some (Contents.ofBytes data) := hdata
    simpa [apply, Request.work, hdata] using hself.symm
  | create parent name beyond | mkdir parent name beyond | unlink parent name beyond
  | getfile inum | getdir inum => exact h.elim

end Yfs.Cluster
