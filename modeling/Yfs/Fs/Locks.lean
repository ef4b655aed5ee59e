/-
Yfs.Fs.Locks — the locks an operation of the file system client holds when
it uses an extent ("The calls assume that the caller holds a lock on the
extent", extent_client.cc).

`lockRun` follows the locks along the calls of an operation; it stops at a
call for an extent whose lock is not held. What a `YfsLock` with a name
encloses is fine (`Keeps.withLock`), and six operations are nothing else.

`getfile` and `getdir` drop their lock before they look at the extent.
`create` and `mkdir` hold the lock of the parent only, and use the extent of
the new inode, and the one that `RestoreInum` picks, as well.
-/
import Yfs.Fs.Client

namespace Yfs.Fs

open Yfs.Effect Yfs.Effect.Prog
open Yfs.Extent (Bytes Attr)

/-! ## Following the locks -/

/-- The locks after a call, if it may be made with the locks `held`. -/
def lockStep (held : List Inum) : Call → Option (List Inum)
  | .acquire lid => some (lid :: held)
  | .release lid => if lid ∈ held then some (held.erase lid) else none
  | .get eid => if eid ∈ held then some held else none
  | .getattr eid => if eid ∈ held then some held else none
  | .put eid _ => if eid ∈ held then some held else none
  | .remove eid => if eid ∈ held then some held else none
  | .getinode _ => some held

def lockRun : List Inum → List (Σ c, Call.Reply c) → Option (List Inum)
  | held, [] => some held
  | held, e :: es => (lockStep held e.1).bind fun held' => lockRun held' es

/-- Every extent was used under its lock, and every lock that was taken is
released, once. -/
def Disciplined (es : List (Σ c, Call.Reply c)) : Prop := lockRun [] es = some []

instance (es : List (Σ c, Call.Reply c)) : Decidable (Disciplined es) :=
  inferInstanceAs (Decidable (_ = _))

theorem lockRun_append (held : List Inum) (es es' : List (Σ c, Call.Reply c)) :
    lockRun held (es ++ es') = (lockRun held es).bind fun held' => lockRun held' es' := by
  induction es generalizing held with
  | nil => rfl
  | cons e es ih => simp [lockRun, ih, Option.bind_assoc]

/-! ## Operations that keep to it -/

def Keeps {α : Type} (held : List Inum) (p : Op α) : Prop :=
  ∀ es a, Path p es a → lockRun held es = some held

section
variable {α β : Type} {held : List Inum}

theorem Keeps.ret (a : α) : Keeps held (Prog.ret a) := by
  intro es b h
  obtain ⟨rfl, -⟩ := path_ret_iff.mp h
  rfl

theorem Keeps.bind {p : Op α} {f : α → Op β} (hp : Keeps held p) (hf : ∀ a, Keeps held (f a)) :
    Keeps held (p >>= f) := by
  intro es b h
  obtain ⟨es₁, es₂, a, rfl, h₁, h₂⟩ := h.of_bind
  rw [lockRun_append, hp es₁ a h₁]
  exact hf a es₂ b h₂

theorem Keeps.ask {c : Call} (hc : lockStep held c = some held) :
    Keeps held (Prog.ask c Prog.ret) := by
  intro es b h
  obtain ⟨r, es', rfl, hret⟩ := path_ask_iff.mp h
  obtain ⟨rfl, -⟩ := path_ret_iff.mp hret
  simp [lockRun, hc]

theorem Keeps.ite {c : Prop} [Decidable c] {p q : Op α} (hp : Keeps held p) (hq : Keeps held q) :
    Keeps held (if c then p else q) := by
  split
  · exact hp
  · exact hq

/-- The scope of a lock. -/
theorem Keeps.withLock {lid : Inum} {body : Op α} (h : Keeps (lid :: held) body) :
    Keeps held (withLock lid body) := by
  intro es a hpath
  obtain ⟨es', rfl, hbody⟩ := path_withLock hpath
  simp [lockRun, lockStep, lockRun_append, h es' a hbody]

theorem keeps_getdata {ino : Inum} (h : ino ∈ held) : Keeps held (getdata ino) := by
  refine Keeps.bind (Keeps.ask (if_pos h)) fun r => ?_
  cases r <;> exact Keeps.ret _

theorem keeps_putdata {ino : Inum} (h : ino ∈ held) (data : Bytes) :
    Keeps held (putdata ino data) :=
  Keeps.bind (Keeps.ask (if_pos h)) fun _ => Keeps.ite (Keeps.ret _) (Keeps.ret _)

end

theorem keeps_read (ino size off : Inum) : Keeps [] (read ino size off) :=
  Keeps.withLock <| (keeps_getdata (by simp)).bind fun _ =>
    Keeps.ite (Keeps.ret _) (Keeps.ite (Keeps.ret _) (Keeps.ite (Keeps.ret _) (Keeps.ret _)))

theorem keeps_write (ino size off : Inum) (buf : Nat → UInt8) : Keeps [] (write ino size off buf) :=
  Keeps.withLock <| (keeps_getdata (by simp)).bind fun _ =>
    Keeps.ite (Keeps.ret _) (keeps_putdata (by simp) _)

theorem keeps_setattr (ino stSize : Inum) : Keeps [] (setattr ino stSize) :=
  Keeps.withLock <| (keeps_getdata (by simp)).bind fun _ =>
    Keeps.ite (Keeps.ret _) (keeps_putdata (by simp) _)

section
variable (beyond : Nat → UInt8)

theorem keeps_readdir (dirinfo : DirForm) (inum : Inum) : Keeps [] (readdir beyond dirinfo inum) :=
  Keeps.withLock <| (keeps_getdata (by simp)).bind fun _ => Keeps.ite (Keeps.ret _) (Keeps.ret _)

theorem keeps_lookup (parent : Inum) (name : Bytes) : Keeps [] (lookup beyond parent name) :=
  Keeps.withLock <| (keeps_getdata (by simp)).bind fun _ => Keeps.ite (Keeps.ret _) (Keeps.ret _)

/-- `unlink` takes the lock of the file while it holds that of the
directory. -/
theorem keeps_unlink (parent : Inum) (name : Bytes) : Keeps [] (unlink beyond parent name) := by
  refine Keeps.withLock ((keeps_getdata (by simp)).bind fun r => Keeps.ite (Keeps.ret _) ?_)
  split
  · exact Keeps.ret _
  · rename_i ino _
    have hremove : Keeps [ino, parent] (ecRemove ino) := Keeps.ask (if_pos (by simp))
    exact Keeps.ite (Keeps.ret _) ((keeps_putdata (by simp) _).bind fun _ =>
      Keeps.ite (Keeps.ret _) (Keeps.withLock (hremove.bind fun _ =>
        Keeps.ite (Keeps.ret _) (Keeps.ret _))))

end

/-! ## The operations -/

inductive Operation where
  | getfile (inum : Inum)
  | getdir (inum : Inum)
  | read (ino size off : Inum)
  | write (ino size off : Inum) (buf : Nat → UInt8)
  | create (parent : Inum) (name : Bytes)
  | readdir (dirinfo : DirForm) (inum : Inum)
  | lookup (parent : Inum) (name : Bytes)
  | setattr (ino stSize : Inum)
  | mkdir (parent : Inum) (name : Bytes)
  | unlink (parent : Inum) (name : Bytes)

def Operation.prog (beyond : Nat → UInt8) : Operation → Op Status
  | .getfile inum => do return (← Fs.getfile inum).1
  | .getdir inum => do return (← Fs.getdir inum).1
  | .read ino size off => do return (← Fs.read ino size off).1
  | .write ino size off buf => Fs.write ino size off buf
  | .create parent name => do return (← Fs.create beyond parent name).1
  | .readdir dirinfo inum => do return (← Fs.readdir beyond dirinfo inum).1
  | .lookup parent name => do return (← Fs.lookup beyond parent name).1
  | .setattr ino stSize => Fs.setattr ino stSize
  | .mkdir parent name => do return (← Fs.mkdir beyond parent name).1
  | .unlink parent name => Fs.unlink beyond parent name

def newInode : List (Σ c, Call.Reply c) → Option Inum
  | [] => none
  | ⟨.getinode _, r⟩ :: es => r.or (newInode es)
  | _ :: es => newInode es

def putSucceeded (eid : Inum) : List (Σ c, Call.Reply c) → Bool
  | [] => false
  | ⟨.put eid' _, ok⟩ :: es => (decide (eid' = eid) && ok) || putSucceeded eid es
  | _ :: es => putSucceeded eid es

/-- A `put` or `getattr` was answered with an error. -/
def callFailed : List (Σ c, Call.Reply c) → Bool
  | [] => false
  | ⟨.put _ _, ok⟩ :: es => !ok || callFailed es
  | ⟨.getattr _, r⟩ :: es => r.isNone || callFailed es
  | _ :: es => callFailed es

/-- The replies on a way through `create` or `mkdir` that only touches the
parent: no new inode was to be had, or it is the parent, and what
`RestoreInum` removes after a failed call is the parent. -/
def ParentOnly (isFile : Bool) (parent : Inum) (es : List (Σ c, Call.Reply c)) : Prop :=
  ∀ ino ∈ newInode es, ino ≠ 0 →
    (putSucceeded parent es = true → ino = parent) ∧
    (callFailed es = true → parent = restored isFile)

/-- When an operation keeps to the locks, by the replies it got. -/
def Operation.Covered : Operation → List (Σ c, Call.Reply c) → Prop
  | .getfile _, _ => False
  | .getdir _, _ => False
  | .create parent _, es => ParentOnly true parent es
  | .mkdir parent _, es => ParentOnly false parent es
  | _, _ => True

/-! ## The operations that do not -/

/-- The temporary `YfsLock` is gone when the extent is asked for. -/
theorem not_disciplined_unnamed {α : Type} {inum : Inum} {f : Option Attr → Op α}
    {es : List (Σ c, Call.Reply c)} {a : α}
    (h : Path (withLock inum (Prog.ret ()) >>= fun _ => ecGetattr inum >>= f) es a) :
    ¬ Disciplined es := by
  simp only [withLock, acquire, release, ecGetattr, ask_bind, ret_bind, pure_eq, path_ask_iff] at h
  obtain ⟨_, _, rfl, _, _, rfl, _, _, rfl, -⟩ := h
  simp [Disciplined, lockRun, lockStep]

theorem disciplined_createPath_iff {beyond : Nat → UInt8} {isFile : Bool} {parent : Inum}
    {name : Bytes} {es : List (Σ c, Call.Reply c)} {st : Status}
    (h : CreatePath beyond isFile parent name es st) :
    Disciplined (⟨.acquire parent, ()⟩ :: (es ++ [⟨.release parent, ()⟩])) ↔
      ParentOnly isFile parent (⟨.acquire parent, ()⟩ :: (es ++ [⟨.release parent, ()⟩])) := by
  cases h with
  | noParent | bound data _ => simp [Disciplined, lockRun, lockStep, ParentOnly, newInode]
  | noInode data r _ hr =>
    refine iff_of_true (by simp [Disciplined, lockRun, lockStep]) fun ino hmem hne => ?_
    have hino : ino ∈ r := by simpa [newInode] using hmem
    exact absurd (hr ino hino) hne
  | enter data ino hfree hino henter =>
    replace hino : ¬ ino = 0#64 := hino
    have hcomm : parent = restored isFile ↔ restored isFile = parent := eq_comm
    by_cases hremove : restored isFile = parent
    all_goals
      by_cases hparent : ino = parent
      · subst hparent
        cases henter <;> simp [Disciplined, lockRun, lockStep, ParentOnly, newInode, putSucceeded,
          callFailed, hino, hcomm, hremove]
      · cases henter <;> simp [Disciplined, lockRun, lockStep, ParentOnly, newInode, putSucceeded,
          callFailed, hino, hcomm, hremove, hparent]

/-- **Lock discipline.** On every way through an operation, each extent is
used under its lock and the locks are given back, exactly if the operation
is not `getfile` or `getdir` and, for `create` and `mkdir`, nothing but the
parent is touched. -/
theorem lock_discipline_iff (beyond : Nat → UInt8) (op : Operation)
    {es : List (Σ c, Call.Reply c)} {st : Status} (h : Path (op.prog beyond) es st) :
    Disciplined es ↔ op.Covered es := by
  have hkeeps : ∀ {p : Op Status}, Keeps [] p → Path p es st → (Disciplined es ↔ True) :=
    fun hp hpath => iff_true_intro (hp es st hpath)
  have hstatus : ∀ {α : Type} {p : Op (Status × α)}, Keeps [] p →
      Keeps [] (p >>= fun out => Prog.ret out.1) := fun hp => hp.bind fun _ => Keeps.ret _
  have hcreate : ∀ {isFile : Bool} {parent : Inum} {name : Bytes},
      Path (createNew beyond isFile parent name >>= fun out => Prog.ret out.1) es st →
        (Disciplined es ↔ ParentOnly isFile parent es) := by
    intro isFile parent name hpath
    obtain ⟨es₁, es₂, out, rfl, hnew, hret⟩ := hpath.of_bind
    obtain ⟨rfl, rfl⟩ := path_ret_iff.mp hret
    obtain ⟨es', rfl, hes'⟩ := createPath_of_path beyond hnew
    rw [List.append_nil]
    exact disciplined_createPath_iff hes'
  cases op with
  | getfile inum | getdir inum => exact iff_false_intro (not_disciplined_unnamed h)
  | read ino size off => exact hkeeps (hstatus (keeps_read ino size off)) h
  | write ino size off buf => exact hkeeps (keeps_write ino size off buf) h
  | create parent name => exact hcreate h
  | readdir dirinfo inum => exact hkeeps (hstatus (keeps_readdir beyond dirinfo inum)) h
  | lookup parent name => exact hkeeps (hstatus (keeps_lookup beyond parent name)) h
  | setattr ino stSize => exact hkeeps (keeps_setattr ino stSize) h
  | mkdir parent name => exact hcreate h
  | unlink parent name => exact hkeeps (keeps_unlink beyond parent name) h

/-- `create` in the root, with the number 0x80000007 for the new file. -/
def createInRoot (rest : List (Σ c, Call.Reply c)) : List (Σ c, Call.Reply c) :=
  [⟨.acquire 1, ()⟩, ⟨.get 1, some []⟩, ⟨.getinode true, some 0x80000007⟩] ++ rest ++
    [⟨.release 1, ()⟩]

/-- The put of the root fails, and `RestoreInum` removes the root. -/
def rootPutFails : List (Σ c, Call.Reply c) :=
  createInRoot [⟨.put 1 (linked (fun _ => 0) [] [97] 0x80000007), false⟩, ⟨.remove 1, true⟩]

/-- All calls succeed. -/
def createdInRoot : List (Σ c, Call.Reply c) :=
  createInRoot [⟨.put 1 (linked (fun _ => 0) [] [97] 0x80000007), true⟩, ⟨.put 0x80000007 [], true⟩,
    ⟨.acquire 0x80000007, ()⟩, ⟨.release 0x80000007, ()⟩, ⟨.getattr 0x80000007, some ⟨0, 0, 0, 0⟩⟩]

theorem lock_discipline_iff_createInRoot :
    (Path ((Operation.create 1 [97]).prog fun _ => 0) rootPutFails .IOERR ∧
      Disciplined rootPutFails) ∧
    Path ((Operation.create 1 [97]).prog fun _ => 0) createdInRoot .OK ∧
      ¬ Disciplined createdInRoot := by
  have hfree : (dirOf (fun _ => 0) []).find? (strName [97]) = none := by
    rw [dirOf_nil]
    rfl
  have hfails : Path ((Operation.create 1 [97]).prog fun _ => 0) rootPutFails .IOERR := by
    simp [Operation.prog, create, createNew, withLock, acquire, release, getdata, ecGet,
      rootPutFails, createInRoot, hfree, getAvailInum, ecGetinode, enterNew, putdata, ecPut,
      restoreInum, ecRemove]
  have hdone : Path ((Operation.create 1 [97]).prog fun _ => 0) createdInRoot .OK := by
    simp [Operation.prog, create, createNew, withLock, acquire, release, getdata, ecGet,
      createdInRoot, createInRoot, hfree, getAvailInum, ecGetinode, enterNew, putdata, ecPut,
      getfile, ecGetattr]
  refine ⟨⟨hfails, (lock_discipline_iff _ _ hfails).mpr ?_⟩, hdone,
    mt (lock_discipline_iff _ _ hdone).mp ?_⟩
  · intro ino hmem hne
    exact ⟨fun hput => absurd hput (by decide), fun _ => rfl⟩
  · intro hcov
    cases (hcov 0x80000007 (by rfl) (by decide)).1 (by rfl)

/-- **Not every operation**: `getfile` asks for the attributes of the root
after it has released the lock of the root. -/
theorem getfile_without_lock :
    ¬ ∀ (beyond : Nat → UInt8) (op : Operation) (es : List (Σ c, Call.Reply c)) (st : Status),
      Path (op.prog beyond) es st → Disciplined es := by
  intro hall
  have hpath : Path ((Operation.getfile 1).prog fun _ => 0)
      [⟨.acquire 1, ()⟩, ⟨.release 1, ()⟩, ⟨.getattr 1, none⟩] .IOERR := by
    simp [Operation.prog, getfile, withLock, acquire, release, ecGetattr]
  cases hall _ _ _ _ hpath

end Yfs.Fs
