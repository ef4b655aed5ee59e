/-
Yfs.Lock.ClientCache — `lock_client_cache` (lock_client_cache.cc): what
the handlers of one client do to the `ClientLock` of one lock id.

A thread in `acquire` holds `lock_map_mutex_` except while it waits on a
condition variable or is inside an RPC. So `acquire` is cut at these
points: `switch` runs the loop of `acquire` from its head up to the next
one, and `waitAcqWhile`, `waitFreeWhile` and `sendAcqReturn` are what runs
when the thread comes back from one. `again` is the way back to the head
of the loop.
-/
import Mathlib

namespace Yfs.Lock

/-- `std::string id`, the address the client listens on. -/
abbrev UserId := List Char

inductive LockStatus where
  | NONE
  | FREE
  | LOCK
  | RELEASING
  | ACQING
  deriving DecidableEq, Repr

/-- `ClientLock`, without its condition variables. -/
structure ClientLock where
  isRetried : Bool
  isRevoked : Bool
  isFinished : Bool
  status : LockStatus
  deriving DecidableEq, Repr

def ClientLock.new : ClientLock :=
  { isRetried := false, isRevoked := false, isFinished := false, status := .NONE }

inductive CallSite where
  | statusNONE
  | retried1
  | retried2
  deriving DecidableEq, Repr

/-- How far a thread in `acquire` gets. -/
inductive Outcome where
  | sendAcq (site : CallSite)
  | waitAcq
  | waitFree
  | locked
  | again
  | abort
  deriving DecidableEq, Repr

/-! ## acquire -/

def ClientLock.sendAcqToSvr (item : ClientLock) : ClientLock := { item with isRetried := false }

/-- `SendAcqToSvr` after the RPC. Every value but OK is a RETRY here, the
errors of the RPC layer included. -/
def ClientLock.sendAcqReturn (item : ClientLock) (ret : Int) : ClientLock :=
  if ret = 0 then { item with status := .FREE } else { item with status := .ACQING }

def dealWithStatusNONE (item : ClientLock) : Outcome × ClientLock :=
  (.sendAcq .statusNONE, item.sendAcqToSvr)

def dealWithStatusFREE (item : ClientLock) : Outcome × ClientLock :=
  (.locked, { item with isFinished := false, status := .LOCK })

def waitFreeWhile (item : ClientLock) : Outcome × ClientLock :=
  if item.status = .LOCK then (.waitFree, item) else (.again, item)

def waitAcqWhile (item : ClientLock) : Outcome × ClientLock :=
  if item.status = .ACQING ∧ item.isRetried = false then (.waitAcq, item)
  else if item.isRetried = true ∧ item.status = .ACQING then
    (.sendAcq .retried2, item.sendAcqToSvr)
  else (.again, item)

def dealWithStatusACQ (item : ClientLock) : Outcome × ClientLock :=
  if item.isRetried then (.sendAcq .retried1, item.sendAcqToSvr) else waitAcqWhile item

def switch (item : ClientLock) : Outcome × ClientLock :=
  match item.status with
  | .NONE => dealWithStatusNONE item
  | .FREE => dealWithStatusFREE item
  | .LOCK => waitFreeWhile item
  | .ACQING => dealWithStatusACQ item
  | .RELEASING => (.abort, item)

/-- `while(!is_used)`: back to the head of the loop, whose body is `body`. -/
def loopAgain (body : ClientLock → Outcome × ClientLock) (r : Outcome × ClientLock) :
    Outcome × ClientLock :=
  if r.1 = .again then body r.2 else r

/-- Where the loop goes on with the item that `SendAcqToSvr` left. -/
def resumeAt (body : ClientLock → Outcome × ClientLock) (site : CallSite) (item : ClientLock) :
    Outcome × ClientLock :=
  match site with
  | .statusNONE => body item
  | .retried1 => loopAgain body (waitAcqWhile item)
  | .retried2 => body item

def resumeSend (site : CallSite) (item : ClientLock) (ret : Int) : Outcome × ClientLock :=
  resumeAt switch site (item.sendAcqReturn ret)

/-! ## release and the handlers -/

inductive ReleaseAct where
  | nothing
  | freed
  | callServer
  deriving DecidableEq, Repr

def dealRelease (item : ClientLock) : ReleaseAct × ClientLock :=
  if item.status = .NONE then (.nothing, item)
  else if item.isRevoked then
    (.callServer, { item with status := .NONE, isFinished := false, isRevoked := false })
  else (.freed, { item with status := .FREE, isFinished := true })

def revokeHandler (item : ClientLock) : ReleaseAct × ClientLock :=
  if item.isFinished then dealRelease { item with isRevoked := true }
  else (.nothing, { item with isRevoked := true })

def retryHandler (item : ClientLock) : ClientLock := { item with isRetried := true }

/-! ## What a run of `acquire` up to its next block can do -/

/-- The lock is taken from a FREE item, or status and `is_finished` stay. -/
def Advances (item : ClientLock) (r : Outcome × ClientLock) : Prop :=
  (r.1 = .locked ∧ item.status = .FREE ∧ r.2.status = .LOCK ∧ r.2.isFinished = false) ∨
    (r.1 ≠ .locked ∧ r.2.status = item.status ∧ r.2.isFinished = item.isFinished)

theorem waitFreeWhile_advances (item : ClientLock) : Advances item (waitFreeWhile item) := by
  unfold waitFreeWhile
  split <;> simp [Advances]

theorem waitAcqWhile_advances (item : ClientLock) : Advances item (waitAcqWhile item) := by
  unfold waitAcqWhile
  split
  · simp [Advances]
  · split <;> simp [Advances, ClientLock.sendAcqToSvr]

theorem switch_advances (item : ClientLock) : Advances item (switch item) := by
  unfold switch
  cases hst : item.status with
  | NONE => simp [Advances, dealWithStatusNONE, ClientLock.sendAcqToSvr, hst]
  | FREE => simp [Advances, dealWithStatusFREE, hst]
  | LOCK => exact waitFreeWhile_advances item
  | RELEASING => simp [Advances, hst]
  | ACQING =>
    show Advances item (dealWithStatusACQ item)
    unfold dealWithStatusACQ
    split
    · simp [Advances, ClientLock.sendAcqToSvr]
    · exact waitAcqWhile_advances item

section Body

variable {body : ClientLock → Outcome × ClientLock} (hbody : ∀ item, Advances item (body item))

include hbody

/-- `again` leaves the item as it was, so the next round starts from it. -/
theorem loopAgain_advances {item : ClientLock} {r : Outcome × ClientLock}
    (h : Advances item r) (hagain : r.1 = .again → r.2 = item) :
    Advances item (loopAgain body r) := by
  unfold loopAgain
  split
  · rename_i ha
    rw [hagain ha]
    exact hbody item
  · exact h

theorem loopAgain_waitFree_advances (item : ClientLock) :
    Advances item (loopAgain body (waitFreeWhile item)) := by
  refine loopAgain_advances hbody (waitFreeWhile_advances item) ?_
  unfold waitFreeWhile
  split <;> simp

theorem loopAgain_waitAcq_advances (item : ClientLock) :
    Advances item (loopAgain body (waitAcqWhile item)) := by
  refine loopAgain_advances hbody (waitAcqWhile_advances item) ?_
  unfold waitAcqWhile
  split
  · simp
  · split <;> simp

theorem resumeAt_advances (site : CallSite) (item : ClientLock) :
    Advances item (resumeAt body site item) := by
  cases site with
  | statusNONE => exact hbody _
  | retried1 => exact loopAgain_waitAcq_advances hbody _
  | retried2 => exact hbody _

end Body

theorem resumeSend_advances (site : CallSite) (item : ClientLock) (ret : Int) :
    Advances (item.sendAcqReturn ret) (resumeSend site item ret) :=
  resumeAt_advances switch_advances site _

/-- A thread that was granted the lock takes it before it lets go of the
mutex, whichever call it was in. -/
theorem resumeSend_ok (site : CallSite) (item : ClientLock) :
    resumeSend site item 0 = (.locked, { item with isFinished := false, status := .LOCK }) := by
  cases site with
  | statusNONE => rfl
  | retried1 =>
    simp [resumeSend, resumeAt, ClientLock.sendAcqReturn, waitAcqWhile, loopAgain, switch,
      dealWithStatusFREE]
  | retried2 => rfl

/-- Everything `DealRelease` can do. -/
theorem dealRelease_cases (item : ClientLock) :
    ((dealRelease item).1 = .nothing ∧ (dealRelease item).2 = item) ∨
    ((dealRelease item).1 = .freed ∧ (dealRelease item).2.isFinished = true) ∨
    ((dealRelease item).1 = .callServer ∧ (dealRelease item).2.status = .NONE ∧
      (dealRelease item).2.isFinished = false) := by
  unfold dealRelease
  split
  · simp
  · split <;> simp

/-- Everything `revoke_handler` can do: a lock that is not cached stays
with the client. -/
theorem revokeHandler_cases (item : ClientLock) :
    ((revokeHandler item).1 = .nothing ∧ (revokeHandler item).2.status = item.status ∧
      (revokeHandler item).2.isFinished = item.isFinished) ∨
    ((revokeHandler item).1 = .callServer ∧ item.isFinished = true ∧
      (revokeHandler item).2.status = .NONE ∧ (revokeHandler item).2.isFinished = false) := by
  unfold revokeHandler dealRelease
  split
  · split <;> simp_all
  · simp

end Yfs.Lock
