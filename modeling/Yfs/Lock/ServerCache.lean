/-
Yfs.Lock.ServerCache — `lock_server_cache` (lock_server_cache.cc): what
`acquire` and `release` do to one lock id.

`acquire` of a taken lock queues the caller, drops the mutex, and only
then reads `user_id_` to know whom to revoke; `release` frees the lock
whoever calls it, pops one waiter, and after the retry call looks at the
queue again. Both are cut where the mutex is dropped.
-/
import Yfs.Lock.ClientCache

namespace Yfs.Lock

structure ServerLock where
  isLocked : Bool
  userId : UserId
  retryQueue : List UserId
  deriving DecidableEq, Repr

def ServerLock.new : ServerLock := { isLocked := false, userId := [], retryQueue := [] }

/-- What `acquire` goes on to do: reply OK, revoke the holder, or fail its
VERIFY. -/
inductive AcquireAct where
  | ok
  | revoke
  | abort
  deriving DecidableEq, Repr

/-- `lock_server_cache::acquire`, up to the point where it drops the mutex. -/
def ServerLock.acquire (srv : ServerLock) (id : UserId) : AcquireAct × ServerLock :=
  if srv.isLocked = false then (.ok, { srv with isLocked := true, userId := id })
  else if srv.userId = [] then (.abort, srv)
  else (.revoke, { srv with retryQueue := srv.retryQueue ++ [id] })

/-- `lock_server_cache::release`, up to the point where it drops the
mutexes: the waiter to send a retry to, if there is one. -/
def ServerLock.release (srv : ServerLock) : Option UserId × ServerLock :=
  match srv.retryQueue with
  | [] => (none, { srv with isLocked := false })
  | user :: rest => (some user, { srv with isLocked := false, retryQueue := rest })

def ServerLock.revokesAgain (srv : ServerLock) : Bool := !srv.retryQueue.isEmpty

end Yfs.Lock
