/-
Yfs.Lock.ServerMutex — `m_lock_mutex_` of the replicated lock server
(lock_server_cache_rsm.cc).

`acquire` and `release` lock and unlock by hand, `marshal_state` and
`unmarshal_state` by a guard object. The bodies are those of `Replica`,
with the locking around them as the source has it. One way out misses the
unlock: a release of a lock id that no `acquire` has put into `map_lock_`.
The call returns, and every later one waits.

`mutex_given_back_iff` says that this is the only one, for any sequence of
calls from any state of the server.
-/
import Yfs.Lib.Mutex
import Yfs.Lock.Transfer

namespace Yfs.Lock.Replicated

open Yfs.Mutex Yfs.Mutex.Code
open Yfs.Lock.Rsm (Answer)
open Yfs.Wire (Byte)

/-! ## The four functions -/

def acquireCode (lid : LockId) (id : UserId) (xid : Xid) : Code Replica Answer := do
  lock
  let r ← read
  write (r.acquire lid id xid).2
  unlock
  return (r.acquire lid id xid).1

/-- `lock_server_cache_rsm::release`. The first return is the one without
an unlock. -/
def releaseCode (lid : LockId) (id : UserId) (xid : Xid) : Code Replica Answer := do
  lock
  let r ← read
  match r.release lid id xid with
  | none => return ⟨0, 0⟩
  | some (answer, r') =>
    write r'
    unlock
    return answer

def marshalStateCode (memory : Nat → Byte) : Code Replica (List Byte) :=
  scopeLock do
    let r ← read
    verify (r.marshalState memory)

def unmarshalStateCode (memory : Nat → Byte) (state : List Byte) : Code Replica Unit :=
  scopeLock do
    let r ← read
    let r' ← verify (r.unmarshalState memory state)
    write r'

inductive ServerCall where
  | acquire (lid : LockId) (id : UserId) (xid : Xid)
  | release (lid : LockId) (id : UserId) (xid : Xid)
  | marshalState (memory : Nat → Byte)
  | unmarshalState (memory : Nat → Byte) (state : List Byte)

/-- The server after the call; the answers do not matter here. -/
def ServerCall.run (s : Guarded Replica) : ServerCall → Ending (Guarded Replica)
  | .acquire lid id xid => (acquireCode lid id xid s).map Prod.snd
  | .release lid id xid => (releaseCode lid id xid s).map Prod.snd
  | .marshalState memory => (marshalStateCode memory s).map Prod.snd
  | .unmarshalState memory state => (unmarshalStateCode memory state s).map Prod.snd

/-! ## What each of them does to the mutex -/

variable (r : Replica)

def ServerCall.Known (r : Replica) : ServerCall → Prop
  | .release lid _ _ => (r.mapLock.find? lid).isSome = true
  | _ => True

theorem run_acquire (lid : LockId) (id : UserId) (xid : Xid) :
    (ServerCall.acquire lid id xid).run ⟨false, r⟩ =
      .returned ⟨false, (r.acquire lid id xid).2⟩ := rfl

variable {lid : LockId} {id : UserId} {xid : Xid}

theorem run_release_known {a : Answer} {r' : Replica} (h : r.release lid id xid = some (a, r')) :
    (ServerCall.release lid id xid).run ⟨false, r⟩ = .returned ⟨false, r'⟩ := by
  simp [ServerCall.run, releaseCode, bind_run, h, Ending.map]

theorem run_release_unknown (h : r.release lid id xid = none) :
    (ServerCall.release lid id xid).run ⟨false, r⟩ = .returned ⟨true, r⟩ := by
  simp [ServerCall.run, releaseCode, bind_run, h, Ending.map]

theorem run_marshalState (memory : Nat → Byte) :
    (ServerCall.marshalState memory).run ⟨false, r⟩ = .returned ⟨false, r⟩ ∨
      (ServerCall.marshalState memory).run ⟨false, r⟩ = .aborted := by
  cases h : r.marshalState memory with
  | none | some state =>
    simp [ServerCall.run, marshalStateCode, scopeLock_run, bind_run, h, Ending.map]

theorem run_unmarshalState (memory : Nat → Byte) (state : List Byte) :
    (∃ r', (ServerCall.unmarshalState memory state).run ⟨false, r⟩ = .returned ⟨false, r'⟩) ∨
      (ServerCall.unmarshalState memory state).run ⟨false, r⟩ = .aborted := by
  cases h : r.unmarshalState memory state with
  | none | some r' =>
    simp [ServerCall.run, unmarshalStateCode, scopeLock_run, bind_run, h, Ending.map]

/-- Every call waits for ever once the mutex is not given back. -/
theorem run_held (c : ServerCall) : c.run ⟨true, r⟩ = .blocked := by
  cases c <;> rfl

theorem release_eq_none_iff :
    r.release lid id xid = none ↔ (r.mapLock.find? lid).isSome = false := by
  unfold Replica.release
  split
  · rename_i h
    simp [h]
  · rename_i h
    simpa using h

/-! ## Sequences of calls -/

/-- `is_locked` and `user_id` of every lock are as they were. -/
def SameHolds (r r' : Replica) : Prop :=
  ∀ l, (r'.item l).isLocked = (r.item l).isLocked ∧ (r'.item l).userId = (r.item l).userId

def Frees (r r' : Replica) : Prop :=
  ∃ l, (r.item l).isLocked = true ∧ (r'.item l).isLocked = false

def ServerCall.Respects (r r' : Replica) : ServerCall → Prop
  | .release _ _ _ => Frees r r' ∨ SameHolds r r'
  | _ => True

/-- Each call of the sequence is answered, unless the process stops, and the
mutex is free when it returns. -/
def GivenBack : Guarded Replica → List ServerCall → Prop
  | _, [] => True
  | s, c :: cs =>
    match c.run s with
    | .returned s' => s'.held = false ∧ c.Respects s.data s'.data ∧ GivenBack s' cs
    | .blocked => False
    | .aborted => True

/-- Each release of the sequence names a lock that is in the map by then. -/
def AllKnown : Guarded Replica → List ServerCall → Prop
  | _, [] => True
  | s, c :: cs =>
    c.Known s.data ∧ match c.run s with
    | .returned s' => AllKnown s' cs
    | .blocked => True
    | .aborted => True

theorem respects_release {a : Answer} {r' : Replica} (h : r.release lid id xid = some (a, r')) :
    (ServerCall.release lid id xid).Respects r r' := by
  have hmap : r'.mapLock = r.mapLock.insert lid ((r.item lid).release id xid).1 := by
    rw [release_eq h]
    rfl
  have hitem := item_insert hmap
  rcases release_cases (r.item lid) id xid with ⟨hheld, -, -, hfree, -⟩ | hsame
  · refine .inl ⟨lid, hheld, ?_⟩
    rw [hitem, if_pos rfl]
    exact hfree
  · refine .inr fun l => ?_
    rw [hitem]
    split
    · rename_i hl
      rw [hl]
      exact ⟨hsame.isLocked, hsame.userId⟩
    · exact ⟨rfl, rfl⟩

/-- One call from a state where the mutex is free: what a known one does,
and what the other one does. -/
theorem run_cases (c : ServerCall) :
    (c.Known r ∧ ((∃ r', c.run ⟨false, r⟩ = .returned ⟨false, r'⟩ ∧ c.Respects r r') ∨
      c.run ⟨false, r⟩ = .aborted)) ∨
    (¬ c.Known r ∧ c.run ⟨false, r⟩ = .returned ⟨true, r⟩) := by
  cases c with
  | acquire lid id xid => exact .inl ⟨trivial, .inl ⟨_, run_acquire r lid id xid, trivial⟩⟩
  | release lid id xid =>
    cases h : r.release lid id xid with
    | none =>
      refine .inr ⟨?_, run_release_unknown r h⟩
      rw [ServerCall.Known, (release_eq_none_iff r).mp h]
      exact Bool.false_ne_true
    | some p =>
      have hknown : (r.mapLock.find? lid).isSome = true := by
        by_contra hno
        rw [(release_eq_none_iff r).mpr (Bool.eq_false_iff.mpr hno)] at h
        cases h
      exact .inl ⟨hknown, .inl ⟨_, run_release_known r h, respects_release r h⟩⟩
  | marshalState memory =>
    rcases run_marshalState r memory with hret | habort
    · exact .inl ⟨trivial, .inl ⟨_, hret, trivial⟩⟩
    · exact .inl ⟨trivial, .inr habort⟩
  | unmarshalState memory state =>
    rcases run_unmarshalState r memory state with ⟨r', hret⟩ | habort
    · exact .inl ⟨trivial, .inl ⟨r', hret, trivial⟩⟩
    · exact .inl ⟨trivial, .inr habort⟩

/-- **When the mutex is given back**: along a sequence of calls, exactly as
long as every release is of a lock in the map. -/
theorem mutex_given_back_iff (calls : List ServerCall) (r : Replica) :
    GivenBack ⟨false, r⟩ calls ↔ AllKnown ⟨false, r⟩ calls := by
  induction calls generalizing r with
  | nil => exact Iff.rfl
  | cons c cs ih =>
    rw [GivenBack, AllKnown]
    rcases run_cases r c with ⟨hknown, ⟨r', hret, hresp⟩ | habort⟩ | ⟨hunknown, hret⟩
    · rw [hret]
      simp only [hknown, hresp, ih r', true_and]
    · rw [habort]
      simp only [hknown, true_and]
    · rw [hret]
      simp [hunknown]

/-- **A release of an unknown lock keeps the mutex**: the call returns, and
no later one does. -/
theorem unknown_release_keeps_mutex :
    ¬ GivenBack ⟨false, Replica.new⟩
      [.release (1 : BitVec 64) ([97] : List Byte) (1 : BitVec 64)] ∧
    ∃ s, (ServerCall.release (1 : BitVec 64) ([97] : List Byte) (1 : BitVec 64)).run
      ⟨false, Replica.new⟩ = .returned s ∧ ∀ c : ServerCall, c.run s = .blocked := by
  constructor
  · rw [mutex_given_back_iff]
    rintro ⟨hknown, -⟩
    cases hknown
  · exact ⟨_, run_release_unknown Replica.new rfl, run_held Replica.new⟩

end Yfs.Lock.Replicated
