/-
Yfs.Lock.ClientCacheRsm — `lock_client_cache_rsm`
(lock_client_cache_rsm.cc): what the handlers of one client do to the
`ClientLockRSM` of one lock id.

The loop of `acquire` is the one of `lock_client_cache` with three
changes. Every acquire request takes a new xid; a thread that finds the
lock RELEASING waits; and an RPC that returns an error leaves status
alone. Releases are not sent by the thread that gives the lock up but by
the releaser thread, from a queue of items: whoever queues an item only
says THAT it is to be released, and the xid that goes to the server is
read from the item when the releaser gets to it.
-/
import Yfs.Lock.ClientCache

namespace Yfs.Lock.Rsm

/-- `ClientLockRSM`, without its condition variables and its `lid`, which
is the key it is stored under. -/
structure ClientLockRSM where
  lock : ClientLock
  xid : Nat
  deriving DecidableEq, Repr

def ClientLockRSM.new : ClientLockRSM := { lock := ClientLock.new, xid := 0 }

/-! ## acquire -/

def switch (item : ClientLock) : Outcome × ClientLock :=
  if item.status = .RELEASING then (.waitFree, item) else Lock.switch item

def timedOut (item : ClientLock) : ClientLock := { item with isRetried := true }

/-- `SendAcqToSvr` after the RPC: `ret` is what the RPC returned, `r` the
answer of the server. -/
def sendAcqReturn (item : ClientLock) (ret r : Int) : ClientLock :=
  if ret ≠ 0 then item
  else if r = 0 then { item with status := .FREE }
  else if r = 1 then { item with status := .ACQING }
  else item

def resumeSend (site : CallSite) (item : ClientLock) (ret r : Int) : Outcome × ClientLock :=
  resumeAt switch site (sendAcqReturn item ret r)

/-! ## release and the handlers -/

def dealRelease (item : ClientLock) : Bool × ClientLock :=
  if item.status = .NONE then (false, item)
  else if item.isRevoked then (true, { item with status := .RELEASING })
  else (false, { item with status := .FREE, isFinished := true })

def revokeHandler (item : ClientLockRSM) (xid : Nat) : Bool × ClientLock :=
  if item.xid = xid then
    if item.lock.isFinished then dealRelease { item.lock with isRevoked := true }
    else (false, { item.lock with isRevoked := true })
  else if item.xid > xid then
    if item.lock.status = .ACQING ∨ item.lock.status = .NONE then (true, item.lock)
    else (false, { item.lock with isRevoked := true })
  else (false, item.lock)

def retryHandler (item : ClientLockRSM) (xid : Nat) : ClientLock :=
  if item.xid ≤ xid then { item.lock with isRetried := true } else item.lock

def releaserDone (item : ClientLock) : ClientLock :=
  { item with isFinished := false, isRevoked := false, status := .NONE }

/-! ## What they can do to the lock -/

theorem switch_advances (item : ClientLock) : Advances item (switch item) := by
  unfold switch
  split
  · simp [Advances]
  · exact Lock.switch_advances item

theorem resumeSend_advances (site : CallSite) (item : ClientLock) (ret r : Int) :
    Advances (sendAcqReturn item ret r) (resumeSend site item ret r) :=
  resumeAt_advances switch_advances site _

/-- Status becomes FREE only by an OK of the server. -/
theorem sendAcqReturn_free {item : ClientLock} {ret r : Int}
    (h : (sendAcqReturn item ret r).status = .FREE) :
    item.status = .FREE ∨ (ret = 0 ∧ r = 0) := by
  unfold sendAcqReturn at h
  split at h
  · exact .inl h
  · rename_i hret
    split at h
    · rename_i hr
      exact .inr ⟨not_not.mp hret, hr⟩
    · split at h
      · simp at h
      · exact .inl h

theorem dealRelease_free {item : ClientLock} (hrev : item.isRevoked = true)
    (h : (dealRelease item).2.status = .FREE) : item.status = .FREE := by
  unfold dealRelease at h
  split at h
  · exact h
  · cases h

theorem revokeHandler_free {item : ClientLockRSM} {xid : Nat}
    (h : (revokeHandler item xid).2.status = .FREE) : item.lock.status = .FREE := by
  unfold revokeHandler at h
  split at h
  · split at h
    · have hrev : ({ item.lock with isRevoked := true } : ClientLock).isRevoked = true := rfl
      have hfree := dealRelease_free hrev h
      exact hfree
    · exact h
  · split at h
    · split at h
      · exact h
      · exact h
    · exact h

end Yfs.Lock.Rsm
