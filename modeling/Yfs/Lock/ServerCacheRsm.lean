/-
Yfs.Lock.ServerCacheRsm — `lock_server_cache_rsm`
(lock_server_cache_rsm.cc): what `acquire`, `release`, the revoker and
the retryer do to one lock id.

The server remembers, for every client, the xid of the last acquire it
GRANTED (`lock_info_`). An acquire with an xid that is not larger is an
old one and gets RPCERR; a release with a smaller xid is an old one and
is ignored.
-/
import Mathlib

namespace Yfs.Lock.Rsm

/-- `CondLockCacheRSM` of one lock id, for any type of client names and of
xids. `present` says that `map_lock_` has an entry for it; `revokeQueue` and
`retryQueue` count the pointers to it in the two fifos, and `retrying` says
that the retryer is in its loop. -/
structure ServerLock (υ ξ : Type) where
  present : Bool
  isLocked : Bool
  lockInfo : υ → ξ
  userId : υ
  waitRetryQueue : List υ
  waitRevokeQueue : List υ
  revokeQueue : Nat
  retryQueue : Nat
  retrying : Bool

variable {υ ξ : Type}

/-- A lock nobody has asked for; strings are empty and xids 0 then. -/
def ServerLock.new (user : υ) (xid : ξ) : ServerLock υ ξ :=
  { present := false, isLocked := false, lockInfo := fun _ => xid, userId := user
    waitRetryQueue := [], waitRevokeQueue := [], revokeQueue := 0, retryQueue := 0
    retrying := false }

/-- What an RPC handler returns: its own return value and `r`. -/
structure Answer where
  ret : Int
  r : Int
  deriving DecidableEq, Repr

def ServerLock.acquire [DecidableEq υ] [LinearOrder ξ] (srv : ServerLock υ ξ) (id : υ) (xid : ξ) :
    Answer × ServerLock υ ξ :=
  if srv.lockInfo id < xid then
    if srv.isLocked = false then
      (⟨0, 0⟩, { srv with
        present := true
        isLocked := true
        lockInfo := Function.update srv.lockInfo id xid
        userId := id })
    else
      (⟨0, 1⟩, { srv with
        present := true
        waitRetryQueue := srv.waitRetryQueue ++ [id]
        waitRevokeQueue := srv.waitRevokeQueue ++ [srv.userId]
        revokeQueue := srv.revokeQueue + 1 })
  else (⟨2, 1⟩, { srv with present := true })

/-- `lock_server_cache_rsm::release`. With no entry it returns WITHOUT
unlocking its mutex, and the server does nothing any more. -/
def ServerLock.release [DecidableEq υ] [LinearOrder ξ] (srv : ServerLock υ ξ) (id : υ)
    (xid : ξ) : Option (ServerLock υ ξ) :=
  if srv.present = false then none
  else if srv.lockInfo id ≤ xid ∧ srv.isLocked = true then
    some { srv with
      isLocked := if srv.userId = id then false else srv.isLocked
      retryQueue := srv.retryQueue + 1 }
  else some srv

def ServerLock.revoker (srv : ServerLock υ ξ) (amiprimary : Bool) :
    Option (Option (υ × ξ) × ServerLock υ ξ) :=
  if srv.revokeQueue = 0 then none
  else if amiprimary then
    match srv.waitRevokeQueue with
    | [] => none
    | user :: rest =>
      some (some (user, srv.lockInfo user),
        { srv with revokeQueue := srv.revokeQueue - 1, waitRevokeQueue := rest })
  else some (none, { srv with revokeQueue := srv.revokeQueue - 1 })

def ServerLock.retryerDeq (srv : ServerLock υ ξ) (amiprimary : Bool) :
    Option (ServerLock υ ξ) :=
  if srv.retryQueue = 0 ∨ srv.retrying = true then none
  else some { srv with retryQueue := srv.retryQueue - 1, retrying := amiprimary }

/-- One turn of the loop of `retryer`; `none` for the client when the
loop is over. -/
def ServerLock.retryerTurn (srv : ServerLock υ ξ) : Option (Option (υ × ξ) × ServerLock υ ξ) :=
  if srv.retrying = false then none
  else match srv.waitRetryQueue with
    | [] => some (none, { srv with retrying := false })
    | user :: rest =>
      some (some (user, srv.lockInfo user), { srv with waitRetryQueue := rest })

/-! ## What stays -/

variable {srv srv' : ServerLock υ ξ} {m : Option (υ × ξ)} {b : Bool}

def ServerLock.sameGrant (srv srv' : ServerLock υ ξ) : Prop :=
  srv'.isLocked = srv.isLocked ∧ srv'.lockInfo = srv.lockInfo ∧ srv'.userId = srv.userId

/-- `acquire` grants a free lock to a newer xid, and changes nothing about
the grant otherwise. -/
theorem ServerLock.acquire_cases [DecidableEq υ] [LinearOrder ξ] (srv : ServerLock υ ξ) (id : υ)
    (xid : ξ) :
    (srv.isLocked = false ∧ (srv.acquire id xid).1 = ⟨0, 0⟩ ∧
      (srv.acquire id xid).2.isLocked = true ∧ (srv.acquire id xid).2.userId = id ∧
      (srv.acquire id xid).2.lockInfo = Function.update srv.lockInfo id xid) ∨
    ((srv.acquire id xid).1 ≠ ⟨0, 0⟩ ∧ srv.sameGrant (srv.acquire id xid).2) := by
  unfold ServerLock.acquire
  split
  · split
    · rename_i hfree
      exact .inl ⟨hfree, rfl, rfl, rfl, rfl⟩
    · exact .inr ⟨by simp, rfl, rfl, rfl⟩
  · exact .inr ⟨by simp, rfl, rfl, rfl⟩

/-- `release` frees the lock only for the client that has it, and only
with an xid that is not older than its grant. -/
theorem ServerLock.release_cases [DecidableEq υ] [LinearOrder ξ] {id : υ} {xid : ξ}
    (h : srv.release id xid = some srv') :
    srv.sameGrant srv' ∨ (srv.userId = id ∧ srv.lockInfo id ≤ xid ∧
      srv'.isLocked = false ∧ srv'.lockInfo = srv.lockInfo) := by
  unfold ServerLock.release at h
  split at h
  · simp at h
  · split at h
    · rename_i hx
      cases h
      by_cases hu : srv.userId = id
      · exact .inr ⟨hu, hx.1, by simp [hu], rfl⟩
      · exact .inl ⟨by simp [hu], rfl, rfl⟩
    · cases h
      exact .inl ⟨rfl, rfl, rfl⟩

theorem ServerLock.revoker_sameGrant (h : srv.revoker b = some (m, srv')) :
    srv.sameGrant srv' := by
  unfold ServerLock.revoker at h
  split at h
  · simp at h
  · split at h
    · split at h
      · simp at h
      · cases h
        exact ⟨rfl, rfl, rfl⟩
    · cases h
      exact ⟨rfl, rfl, rfl⟩

theorem ServerLock.retryerDeq_sameGrant (h : srv.retryerDeq b = some srv') :
    srv.sameGrant srv' := by
  unfold ServerLock.retryerDeq at h
  split at h
  · simp at h
  · cases h
    exact ⟨rfl, rfl, rfl⟩

theorem ServerLock.retryerTurn_sameGrant (h : srv.retryerTurn = some (m, srv')) :
    srv.sameGrant srv' := by
  unfold ServerLock.retryerTurn at h
  split at h
  · simp at h
  · split at h
    · cases h
      exact ⟨rfl, rfl, rfl⟩
    · cases h
      exact ⟨rfl, rfl, rfl⟩

end Yfs.Lock.Rsm
