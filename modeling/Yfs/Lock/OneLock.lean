/-
Yfs.Lock.OneLock — every lock of a replica is the lock of
`Yfs.Lock.ServerCacheRsm` (lock_server_cache_rsm.cc).

`Yfs.Lock.MutexRsm` has a server with one lock id; `Replica` has all locks.
What a replica does to one of them is what the server of that lock does,
with the same answers, revokes and retries, and what it does to the others
is nothing there (`lock_step`). So each lock of a replica is in a state that
such a server can reach (`lock_of_reach`).
-/
import Yfs.Lock.Transfer

namespace Yfs.Lock.Rsm

/-! ## The server of one lock -/

inductive ServerEvent (υ ξ : Type) where
  | acquire (id : υ) (xid : ξ)
  | release (id : υ) (xid : ξ)
  | revoker (amiprimary : Bool)
  | retryerDeq (amiprimary : Bool)
  | retryerTurn

def ServerLock.step {υ ξ : Type} [DecidableEq υ] [LinearOrder ξ] (srv : ServerLock υ ξ) :
    ServerEvent υ ξ → Option (ServerLock υ ξ)
  | .acquire id xid => some (srv.acquire id xid).2
  | .release id xid => srv.release id xid
  | .revoker amiprimary => (srv.revoker amiprimary).map Prod.snd
  | .retryerDeq amiprimary => srv.retryerDeq amiprimary
  | .retryerTurn => srv.retryerTurn.map Prod.snd

end Yfs.Lock.Rsm

namespace Yfs.Lock.Replicated

open Function Yfs.Wire Yfs.Run
open Yfs.Lock.Rsm (Answer ServerEvent)

variable {r r' : Replica} {item : CondLockCacheRSM} {l lid : LockId} {id : UserId} {xid : Xid}
  {amiprimary : Bool}

/-! ## The lock in its replica -/

/-- What the replica has of the lock `lid`. A lock the revoker has taken and
has not looked at still counts as queued. -/
def Replica.lock (lid : LockId) (r : Replica) : Rsm.ServerLock UserId Xid where
  present := (r.mapLock.find? lid).isSome
  isLocked := (r.item lid).isLocked
  lockInfo := (r.item lid).info
  userId := (r.item lid).userId
  waitRetryQueue := (r.item lid).waitRetryQueue
  waitRevokeQueue := (r.item lid).waitRevokeQueue
  revokeQueue := (r.revoking.toList ++ r.revokeQueue).count lid
  retryQueue := r.retryQueue.count lid
  retrying := decide (r.retrying = some lid)

/-- The entry of the lock has been written. -/
theorem lock_of_insert (h : r'.mapLock = r.mapLock.insert lid item) :
    r'.lock lid =
      { present := true, isLocked := item.isLocked, lockInfo := item.info, userId := item.userId
        waitRetryQueue := item.waitRetryQueue, waitRevokeQueue := item.waitRevokeQueue
        revokeQueue := (r'.revoking.toList ++ r'.revokeQueue).count lid
        retryQueue := r'.retryQueue.count lid, retrying := decide (r'.retrying = some lid) } := by
  simp only [Replica.lock, item_insert h, h, OrdMap.find?_insert, if_true, Option.isSome_some]

/-- Nothing about the lock has changed. -/
theorem lock_congr (hmap : r'.mapLock.find? lid = r.mapLock.find? lid)
    (hrevoke : (r'.revoking.toList ++ r'.revokeQueue).count lid =
      (r.revoking.toList ++ r.revokeQueue).count lid)
    (hretry : r'.retryQueue.count lid = r.retryQueue.count lid)
    (hretrying : r'.retrying = some lid ↔ r.retrying = some lid) : r'.lock lid = r.lock lid := by
  simp only [Replica.lock, Replica.item, hmap, hrevoke, hretry, hretrying]

section Info

variable (m : OrdMap UserId Xid) (locked : Bool) (retry revoke : List UserId) (user : UserId)

@[simp] theorem info_mk :
    (CondLockCacheRSM.mk locked item.lockInfo retry revoke lid user).info = item.info := rfl

@[simp] theorem info_mk_insert (id : UserId) (xid : Xid) :
    (CondLockCacheRSM.mk locked (m.insert id xid) retry revoke lid user).info =
      update (CondLockCacheRSM.mk locked m retry revoke lid user).info id xid := by
  funext id'
  simp only [CondLockCacheRSM.info, OrdMap.find?_insert, update_apply]
  split <;> rfl

end Info

theorem lock_acquire (r : Replica) (lid : LockId) (id : UserId) (xid : Xid) :
    (r.lock lid).acquire id xid =
      ((r.acquire lid id xid).1, (r.acquire lid id xid).2.lock lid) := by
  have hmap : (r.acquire lid id xid).2.mapLock =
      r.mapLock.insert lid ((r.item lid).acquire lid id xid).2.1 := rfl
  rw [lock_of_insert hmap]
  by_cases hnew : (r.item lid).info id < xid <;> by_cases hlocked : (r.item lid).isLocked = true <;>
    simp [Replica.acquire, CondLockCacheRSM.acquire, Rsm.ServerLock.acquire, CondLockCacheRSM.touch,
      Replica.lock, Replica.setItem, hnew, hlocked, Nat.add_assoc]

theorem lock_release {a : Answer} (h : r.release lid id xid = some (a, r')) :
    (r.lock lid).release id xid = some (r'.lock lid) := by
  obtain ⟨hfound, -⟩ := Option.ite_none_right_eq_some.mp h
  have hmap : r'.mapLock = r.mapLock.insert lid ((r.item lid).release id xid).1 := by
    rw [release_eq h]
    rfl
  rw [lock_of_insert hmap, release_eq h]
  by_cases hheld : (r.item lid).info id ≤ xid ∧ (r.item lid).isLocked = true <;>
    simp [CondLockCacheRSM.release, Rsm.ServerLock.release, CondLockCacheRSM.touch, Replica.lock,
      Replica.setItem, hfound, hheld]

/-- The revoker at a backup drops a lock; at the primary it only takes it. -/
theorem lock_revokerDeq (h : r.revokerDeq amiprimary = some r') :
    r'.lock lid = r.lock lid ∨ (r.lock lid).revoker amiprimary = some (none, r'.lock lid) := by
  unfold Replica.revokerDeq at h
  split at h
  · rename_i l rest hidle hqueue
    cases h
    cases amiprimary
    · by_cases hl : l = lid
      · exact .inr (by simp [Rsm.ServerLock.revoker, Replica.lock, Replica.item, hidle, hqueue, hl])
      · exact .inl (lock_congr rfl (by simp [hidle, hqueue, hl]) rfl .rfl)
    · exact .inl (lock_congr rfl (by simp [hidle, hqueue]) rfl .rfl)
  · cases h

theorem isSome_of_waits (h : (r.item lid).waitRevokeQueue ≠ [] ∨ (r.item lid).waitRetryQueue ≠ []) :
    (r.mapLock.find? lid).isSome = true := by
  by_contra hnone
  rw [Replica.item, Option.not_isSome_iff_eq_none.mp hnone] at h
  rcases h with h | h <;> exact h rfl

/-- The revoke is the one the server of the lock sends. -/
theorem lock_revokerTake {m : UserId × LockId × Xid} (hl : r.revoking = some lid)
    (h : r.revokerTake = some (m, r')) :
    (r.lock lid).revoker true = some (some (m.1, m.2.2), r'.lock lid) := by
  rw [Replica.revokerTake, hl, Option.bind_some] at h
  split at h
  · cases h
  · rename_i user rest hwait
    have hfound : (r.mapLock.find? lid).isSome = true := isSome_of_waits (.inl (by simp [hwait]))
    have hmap : r'.mapLock = r.mapLock.insert lid
        { (r.item lid).touch user with waitRevokeQueue := rest } := by
      cases h
      rfl
    rw [lock_of_insert hmap]
    cases h
    simp [Rsm.ServerLock.revoker, Replica.lock, Replica.setItem, CondLockCacheRSM.touch, hl, hwait,
      hfound]

/-- So is the retry. -/
theorem lock_retryerTurn {m : Option (UserId × LockId × Xid)} (hl : r.retrying = some lid)
    (h : r.retryerTurn = some (m, r')) :
    (r.lock lid).retryerTurn = some (m.map fun p => (p.1, p.2.2), r'.lock lid) := by
  rw [Replica.retryerTurn, hl, Option.bind_some] at h
  split at h
  · rename_i hwait
    cases h
    have hitem : Replica.item { r with retrying := none } lid = r.item lid := rfl
    simp [Rsm.ServerLock.retryerTurn, Replica.lock, hitem, hl, hwait]
  · rename_i user rest hwait
    have hfound : (r.mapLock.find? lid).isSome = true := isSome_of_waits (.inr (by simp [hwait]))
    have hmap : r'.mapLock = r.mapLock.insert lid
        { (r.item lid).touch user with waitRetryQueue := rest } := by
      cases h
      rfl
    rw [lock_of_insert hmap]
    cases h
    simp [Rsm.ServerLock.retryerTurn, Replica.lock, Replica.setItem, CondLockCacheRSM.touch, hl,
      hwait, hfound]

theorem lock_retryerDeq (h : r.retryerDeq amiprimary = some r') :
    r'.lock lid = r.lock lid ∨ (r.lock lid).retryerDeq amiprimary = some (r'.lock lid) := by
  unfold Replica.retryerDeq at h
  split at h
  · rename_i l rest hidle hqueue
    cases h
    by_cases hl : l = lid
    · exact .inr (by
        cases amiprimary <;>
          simp [Rsm.ServerLock.retryerDeq, Replica.lock, Replica.item, hidle, hqueue, hl])
    · refine .inl (lock_congr rfl rfl (by simp [hqueue, hl]) ?_)
      cases amiprimary <;> simp [hidle, hl]
  · cases h

/-! ## Runs -/

/-- **A step of a replica is a step of the lock or nothing to it.** -/
theorem lock_step {e : Step} (h : step r e = some r') :
    r'.lock lid = r.lock lid ∨ ∃ d, (r.lock lid).step d = some (r'.lock lid) := by
  have hother : ∀ {l item}, l ≠ lid →
      (r.setItem l item).mapLock.find? lid = r.mapLock.find? lid := by
    intro l item hl
    rw [Replica.setItem, OrdMap.find?_insert, if_neg hl.symm]
  cases e with
  | request q =>
    cases q with
    | acquire l id xid =>
      cases h
      by_cases hl : l = lid
      · subst hl
        exact .inr ⟨.acquire id xid, by rw [Rsm.ServerLock.step, lock_acquire]⟩
      · refine .inl (lock_congr (hother hl) ?_ rfl .rfl)
        show (r.revoking.toList ++ if _ then _ else _).count lid = _
        split <;> simp [hl]
    | release l id xid =>
      obtain ⟨⟨a, r'⟩, hrel, rfl⟩ := Option.map_eq_some_iff.mp h
      by_cases hl : l = lid
      · subst hl
        exact .inr ⟨.release id xid, lock_release hrel⟩
      · rw [release_eq hrel]
        refine .inl (lock_congr (hother hl) rfl ?_ .rfl)
        show (if _ then _ else _ : List LockId).count lid = _
        split <;> simp [hl]
  | revokerDeq amiprimary =>
    refine (lock_revokerDeq h).imp_right fun hsrv => ⟨.revoker amiprimary, ?_⟩
    rw [Rsm.ServerLock.step, hsrv, Option.map_some]
  | revokerTake =>
    obtain ⟨⟨m, r'⟩, htake, rfl⟩ := Option.map_eq_some_iff.mp h
    by_cases hl : r.revoking = some lid
    · refine .inr ⟨.revoker true, ?_⟩
      rw [Rsm.ServerLock.step, lock_revokerTake hl htake, Option.map_some]
    · obtain ⟨l, hrev, hbody⟩ := Option.bind_eq_some_iff.mp htake
      have hne : l ≠ lid := fun hne => hl (hne ▸ hrev)
      split at hbody
      · cases hbody
      · cases hbody
        exact .inl (lock_congr (hother hne) (by simp [hrev, hne, Replica.setItem]) rfl .rfl)
  | retryerDeq amiprimary =>
    exact (lock_retryerDeq h).imp_right fun hsrv => ⟨.retryerDeq amiprimary, hsrv⟩
  | retryerTurn =>
    obtain ⟨⟨m, r'⟩, hturn, rfl⟩ := Option.map_eq_some_iff.mp h
    by_cases hl : r.retrying = some lid
    · refine .inr ⟨.retryerTurn, ?_⟩
      rw [Rsm.ServerLock.step, lock_retryerTurn hl hturn, Option.map_some]
    · obtain ⟨l, hret, hbody⟩ := Option.bind_eq_some_iff.mp hturn
      have hne : l ≠ lid := fun hne => hl (hne ▸ hret)
      split at hbody
      · cases hbody
        exact .inl (lock_congr rfl rfl rfl (by simp [hl]))
      · cases hbody
        exact .inl (lock_congr (hother hne) rfl rfl .rfl)

/-- In every run of a replica each of its locks is in a state that its
server can reach. -/
theorem lock_of_reach (h : Reach step (fun _ _ => True) Replica.new r) (lid : LockId) :
    Reach (Rsm.ServerLock.step (υ := UserId) (ξ := Xid)) (fun _ _ => True)
      (Rsm.ServerLock.new ([] : List Byte) (0 : BitVec 64)) (r.lock lid) :=
  h.simulate (Replica.lock lid) fun _ _ _ _ hs =>
    (lock_step hs).imp_right fun ⟨d, hd⟩ => ⟨d, trivial, hd⟩

end Yfs.Lock.Replicated
