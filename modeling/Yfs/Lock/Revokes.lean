/-
Yfs.Lock.Revokes — to whom the revoker sends (lock_server_cache_rsm.cc:
`acquire`, `revoker`).

An acquire that finds its lock taken puts the lock on `revoke_queue_` and the
holder on the lock's own `wait_revoke_queue_`. The revoker takes the one at
the primary and the other under the mutex: the two belong together only as
long as nothing is taken from one of them alone. A backup does just that. It
drops what comes off `revoke_queue_`, and the holder stays in front of the
lock's queue for when the node is a primary.

`Traced` runs the server with a record of what it owes: which lock, and who
held it when the acquire was executed. For a lock of which nothing was
dropped the queue of holders is that record (`Paired`), so the revoke goes
where it should (`revokes_reach_holder`).
-/
import Yfs.Lock.Transfer

namespace Yfs.Lock.Replicated

open Yfs.Run
open Yfs.Wire (Byte)

/-! ## The server and what it owes -/

/-- `owed` goes with `revoke_queue_` and `taking` with the lock the revoker
is at; `dropped` are the locks that were taken off the queue at a backup. -/
structure Traced where
  replica : Replica
  owed : List (LockId × UserId)
  taking : Option (LockId × UserId)
  dropped : List LockId

def Traced.new : Traced := ⟨Replica.new, [], none, []⟩

def Traced.step (s : Traced) (e : Step) : Option Traced :=
  (Replicated.step s.replica e).map fun r =>
    match e with
    | .request (.acquire lid id xid) =>
      -- who holds the lock now is who has to give it back
      if ((s.replica.item lid).acquire lid id xid).2.2 then
        { s with replica := r, owed := s.owed ++ [(lid, (s.replica.item lid).userId)] }
      else { s with replica := r }
    | .revokerDeq true => { s with replica := r, owed := s.owed.tail, taking := s.owed.head? }
    | .revokerDeq false =>
      { s with
        replica := r
        owed := s.owed.tail
        dropped := (s.owed.head?.map Prod.fst).toList ++ s.dropped }
    | .revokerTake => { s with replica := r, taking := none }
    | _ => { s with replica := r }

/-- What the primary takes off its queue is a lock of which nothing was
dropped. -/
def NoneDropped (s : Traced) : Step → Prop
  | .revokerDeq true => ∀ lid ∈ s.replica.revokeQueue.head?, lid ∉ s.dropped
  | _ => True

instance (s : Traced) (e : Step) : Decidable (NoneDropped s e) := by
  unfold NoneDropped
  split <;> infer_instance

/-- The revoker finds somebody in the lock's queue, and it is the client
that held the lock. -/
def RevokesHolder (s : Traced) : Prop :=
  ∀ lid user, s.taking = some (lid, user) →
    ∃ lid' xid r', s.replica.revokerTake = some ((user, lid', xid), r')

/-! ## The queue of holders -/

def owedFor (lid : LockId) (owed : List (LockId × UserId)) : List UserId :=
  (owed.filter fun p => decide (p.1 = lid)).map Prod.snd

theorem owedFor_append (lid : LockId) (l l' : List (LockId × UserId)) :
    owedFor lid (l ++ l') = owedFor lid l ++ owedFor lid l' := by
  simp [owedFor]

theorem owedFor_cons_self (lid : LockId) (user : UserId) (l : List (LockId × UserId)) :
    owedFor lid ((lid, user) :: l) = user :: owedFor lid l := by
  simp [owedFor]

theorem owedFor_cons_ne {lid lid' : LockId} (h : lid' ≠ lid) (user : UserId)
    (l : List (LockId × UserId)) : owedFor lid ((lid', user) :: l) = owedFor lid l := by
  simp [owedFor, h]

/-- An acquire adds the holder to the queue when it adds the lock to the
other one, and not otherwise. -/
theorem waitRevokeQueue_acquire (item : CondLockCacheRSM) (lid : LockId) (id : UserId)
    (xid : Xid) :
    ((item.acquire lid id xid).2.2 = true ∧ item.isLocked = true ∧
      (item.acquire lid id xid).2.1.waitRevokeQueue = item.waitRevokeQueue ++ [item.userId]) ∨
    ((item.acquire lid id xid).2.2 = false ∧
      (item.acquire lid id xid).2.1.waitRevokeQueue = item.waitRevokeQueue) := by
  unfold CondLockCacheRSM.acquire
  dsimp only
  split
  · split
    · exact .inr ⟨rfl, rfl⟩
    · rename_i hheld
      exact .inl ⟨rfl, Bool.not_eq_false _ ▸ hheld, rfl⟩
  · exact .inr ⟨rfl, rfl⟩

theorem waitRevokeQueue_release (item : CondLockCacheRSM) (id : UserId) (xid : Xid) :
    (item.release id xid).1.waitRevokeQueue = item.waitRevokeQueue := by
  unfold CondLockCacheRSM.release
  dsimp only
  split <;> rfl

/-! ## Both queues -/

/-- The queues are what is owed. -/
structure Paired (s : Traced) : Prop where
  queue : s.replica.revokeQueue = s.owed.map Prod.fst
  revoking : s.replica.revoking = s.taking.map Prod.fst
  holders : ∀ lid, lid ∉ s.dropped →
    (s.replica.item lid).waitRevokeQueue = owedFor lid (s.taking.toList ++ s.owed)
  clean : ∀ p ∈ s.taking, p.1 ∉ s.dropped

theorem paired_new : Paired Traced.new := ⟨rfl, rfl, fun _ _ => rfl, fun _ h => nomatch h⟩

variable {s s' : Traced}

/-- A step that leaves the queues alone, and every lock's queue of
holders. -/
theorem Paired.same (h : Paired s) {r : Replica} (hq : r.revokeQueue = s.replica.revokeQueue)
    (hr : r.revoking = s.replica.revoking)
    (hw : ∀ lid, (r.item lid).waitRevokeQueue = (s.replica.item lid).waitRevokeQueue) :
    Paired { s with replica := r } := by
  refine ⟨hq.trans h.queue, hr.trans h.revoking, fun lid hlid => ?_, h.clean⟩
  rw [← h.holders lid hlid]
  exact hw lid

/-- A lock is written, its queue of holders left alone. -/
theorem waitRevokeQueue_insert {r r' : Replica} {lid : LockId} {item : CondLockCacheRSM}
    (hmap : r'.mapLock = r.mapLock.insert lid item)
    (hw : item.waitRevokeQueue = (r.item lid).waitRevokeQueue) (l : LockId) :
    (r'.item l).waitRevokeQueue = (r.item l).waitRevokeQueue := by
  rw [item_insert hmap]
  split
  · rename_i hlid
    rw [hlid, hw]
  · rfl

theorem Paired.acquire (h : Paired s) {lid : LockId} {id : UserId} {xid : Xid}
    (hs : s.step (.request (.acquire lid id xid)) = some s') : Paired s' := by
  have hmap : (s.replica.acquire lid id xid).2.mapLock =
      s.replica.mapLock.insert lid ((s.replica.item lid).acquire lid id xid).2.1 := rfl
  have hitem := item_insert hmap
  cases hs
  rcases waitRevokeQueue_acquire (s.replica.item lid) lid id xid with
    ⟨hqueued, -, hwait⟩ | ⟨hnot, hwait⟩
  · simp only [hqueued, if_true]
    refine ⟨?_, h.revoking, fun l hl => ?_, h.clean⟩
    · show (if _ then _ else _) = _
      rw [if_pos hqueued, h.queue, List.map_append]
      rfl
    · rw [hitem, ← List.append_assoc, owedFor_append]
      split
      · rename_i hlid
        subst hlid
        rw [hwait, h.holders l hl, owedFor_cons_self]
        rfl
      · rename_i hne
        rw [h.holders l hl, owedFor_cons_ne (Ne.symm hne)]
        exact (List.append_nil _).symm
  · simp only [hnot]
    refine h.same ?_ rfl (waitRevokeQueue_insert hmap hwait)
    show (if _ then _ else _) = _
    rw [hnot]
    rfl

theorem Paired.release (h : Paired s) {lid : LockId} {id : UserId} {xid : Xid}
    (hs : s.step (.request (.release lid id xid)) = some s') : Paired s' := by
  obtain ⟨r, hr, rfl⟩ := Option.map_eq_some_iff.mp hs
  obtain ⟨⟨a, r⟩, hrel, rfl⟩ := Option.map_eq_some_iff.mp hr
  have heq := release_eq hrel
  have hmap : r.mapLock =
      s.replica.mapLock.insert lid ((s.replica.item lid).release id xid).1 := by
    rw [heq]
    rfl
  exact h.same (by rw [heq]; rfl) (by rw [heq]; rfl)
    (waitRevokeQueue_insert hmap (waitRevokeQueue_release _ id xid))

/-- The revoker takes the next lock, at the primary or not. -/
theorem revokerDeq_eq {r r' : Replica} {amiprimary : Bool}
    (h : r.revokerDeq amiprimary = some r') :
    ∃ lid rest, r.revoking = none ∧ r.revokeQueue = lid :: rest ∧
      r' = { r with revokeQueue := rest, revoking := if amiprimary then some lid else none } := by
  unfold Replica.revokerDeq at h
  split at h
  · rename_i lid rest hidle hqueue
    exact ⟨lid, rest, hidle, hqueue, (Option.some.inj h).symm⟩
  · cases h

theorem Paired.revokerDeq (h : Paired s) {amiprimary : Bool}
    (hok : NoneDropped s (.revokerDeq amiprimary))
    (hs : s.step (.revokerDeq amiprimary) = some s') : Paired s' := by
  obtain ⟨r, hr, rfl⟩ := Option.map_eq_some_iff.mp hs
  obtain ⟨lid, rest, hidle, hqueue, rfl⟩ := revokerDeq_eq hr
  have hnone : s.taking = none := by
    rw [h.revoking] at hidle
    exact Option.map_eq_none_iff.mp hidle
  have howed := h.queue
  rw [hqueue] at howed
  -- the record has the same lock in front
  cases hlist : s.owed with
  | nil =>
    rw [hlist] at howed
    cases howed
  | cons p owed =>
    obtain ⟨lid', user⟩ := p
    rw [hlist, List.map_cons] at howed
    obtain ⟨rfl, rfl⟩ := List.cons.inj howed
    have hholders : ∀ l, l ∉ s.dropped →
        (s.replica.item l).waitRevokeQueue = owedFor l ((lid, user) :: owed) := by
      intro l hl
      rw [h.holders l hl, hnone, hlist]
      rfl
    cases amiprimary with
    | true =>
      have hclean : lid ∉ s.dropped := hok lid (by rw [hqueue]; rfl)
      exact ⟨rfl, rfl, hholders, fun q hq => by obtain rfl := Option.mem_some.mp hq; exact hclean⟩
    | false =>
      refine ⟨rfl, ?_, fun l hl => ?_, fun q hq => ?_⟩
      · rw [hnone]
        rfl
      · obtain ⟨hne, hl⟩ := not_or.mp (List.mem_cons.not.mp hl)
        show (s.replica.item l).waitRevokeQueue = owedFor l (s.taking.toList ++ owed)
        rw [hholders l hl, hnone, owedFor_cons_ne (Ne.symm hne)]
        rfl
      · rw [hnone] at hq
        cases hq

theorem Paired.revokerTake (h : Paired s) (hs : s.step .revokerTake = some s') : Paired s' := by
  obtain ⟨r, hr, rfl⟩ := Option.map_eq_some_iff.mp hs
  obtain ⟨⟨msg, r⟩, htake, rfl⟩ := Option.map_eq_some_iff.mp hr
  obtain ⟨lid, hlid, hbody⟩ := Option.bind_eq_some_iff.mp htake
  cases htaking : s.taking with
  | none =>
    rw [h.revoking, htaking] at hlid
    cases hlid
  | some p =>
    obtain ⟨lid', user⟩ := p
    rw [h.revoking, htaking] at hlid
    obtain rfl : lid' = lid := Option.some.inj hlid
    have hclean : lid' ∉ s.dropped := h.clean (lid', user) htaking
    have hwait := h.holders lid' hclean
    rw [htaking, Option.toList_some, List.singleton_append, owedFor_cons_self] at hwait
    rw [hwait] at hbody
    obtain ⟨-, heq⟩ := Prod.mk.inj (Option.some.inj hbody)
    have hmap : r.mapLock = s.replica.mapLock.insert lid'
        { (s.replica.item lid').touch user with waitRevokeQueue := owedFor lid' s.owed } := by
      rw [← heq]
      rfl
    have hqueue : r.revokeQueue = s.replica.revokeQueue := by
      rw [← heq]
      rfl
    have hidle : r.revoking = none := by rw [← heq]
    refine ⟨hqueue.trans h.queue, hidle, fun l hl => ?_, fun q hq => nomatch hq⟩
    show (r.item l).waitRevokeQueue = owedFor l s.owed
    rw [item_insert hmap]
    split
    · rename_i hl'
      rw [hl']
    · rename_i hne
      rw [h.holders l hl, htaking, Option.toList_some, List.singleton_append,
        owedFor_cons_ne (Ne.symm hne)]

/-- The retryer has its own queues. -/
theorem Paired.retryer (h : Paired s) {e : Step}
    (he : (∃ p, e = .retryerDeq p) ∨ e = .retryerTurn) (hs : s.step e = some s') : Paired s' := by
  rcases he with ⟨p, rfl⟩ | rfl
  · obtain ⟨r, hr, rfl⟩ := Option.map_eq_some_iff.mp hs
    replace hr : s.replica.retryerDeq p = some r := hr
    unfold Replica.retryerDeq at hr
    split at hr
    · cases hr
      exact h.same rfl rfl fun _ => rfl
    · cases hr
  · obtain ⟨r, hr, rfl⟩ := Option.map_eq_some_iff.mp hs
    obtain ⟨⟨msg, r⟩, hturn, rfl⟩ := Option.map_eq_some_iff.mp hr
    obtain ⟨lid, hlid, hbody⟩ := Option.bind_eq_some_iff.mp hturn
    split at hbody
    · cases hbody
      exact h.same rfl rfl fun _ => rfl
    · rename_i user rest hwait
      obtain ⟨-, heq⟩ := Prod.mk.inj (Option.some.inj hbody)
      have hmap : r.mapLock = s.replica.mapLock.insert lid
          { (s.replica.item lid).touch user with waitRetryQueue := rest } := by
        rw [← heq]
        rfl
      exact h.same (by rw [← heq]; rfl) (by rw [← heq]; rfl) (waitRevokeQueue_insert hmap rfl)

theorem Paired.step (h : Paired s) {e : Step} (hok : NoneDropped s e) (hs : s.step e = some s') :
    Paired s' := by
  cases e with
  | request q =>
    cases q with
    | acquire lid id xid => exact h.acquire hs
    | release lid id xid => exact h.release hs
  | revokerDeq amiprimary => exact h.revokerDeq hok hs
  | revokerTake => exact h.revokerTake hs
  | retryerDeq amiprimary => exact h.retryer (.inl ⟨amiprimary, rfl⟩) hs
  | retryerTurn => exact h.retryer (.inr rfl) hs

/-- A lock that is being taken has its holder in front. -/
theorem Paired.revokesHolder (h : Paired s) : RevokesHolder s := by
  intro lid user htaking
  have hwait := h.holders lid (h.clean (lid, user) htaking)
  rw [htaking, Option.toList_some, List.singleton_append, owedFor_cons_self] at hwait
  have hrevoking : s.replica.revoking = some lid := by
    rw [h.revoking, htaking]
    rfl
  simp only [Replica.revokerTake, hrevoking, Option.bind_some, hwait]
  exact ⟨_, _, _, rfl⟩

/-- **Revokes reach the holder.** In every run in which the primary only
takes locks of which no backup has dropped one, whatever is interleaved: the
lock's queue is not empty when the revoker comes to it, and the revoke goes
to the client that held the lock when the acquire was executed. -/
theorem revokes_reach_holder (h : Reach Traced.step NoneDropped Traced.new s) :
    RevokesHolder s :=
  (h.invariant Paired paired_new fun _ _ _ hp hok hs => hp.step hok hs).revokesHolder

/-- One client waits for another, and the node is the primary. -/
theorem revokes_reach_holder_contended :
    ∃ s, Reach Traced.step NoneDropped Traced.new s ∧ s.taking.isSome = true ∧
      RevokesHolder s := by
  exact (exists_reach (contended ++ [.revokerDeq true]) (by decide +kernel)).imp
    fun _ ⟨hs, htaking⟩ => ⟨hs, htaking, revokes_reach_holder hs⟩

/-- The node is a backup while `b` waits for `a`, and the primary when `c`
waits for `b`. -/
def promoted : List Step :=
  contended ++ [.revokerDeq false,
    .request (.release (1 : BitVec 64) ([97] : List Byte) (1 : BitVec 64)),
    .request (.acquire (1 : BitVec 64) ([98] : List Byte) (2 : BitVec 64)),
    .request (.acquire (1 : BitVec 64) ([99] : List Byte) (1 : BitVec 64)), .revokerDeq true]

def sentTo (s : Traced) : Option UserId := s.replica.revokerTake.map fun p => p.1.1

/-- **After a change of roles they do not**: the revoke that is meant for `b`
goes to `a`, which has given the lock back. -/
theorem stale_holder_revoked :
    ¬ ∀ s, Reach Traced.step (fun _ _ => True) Traced.new s → RevokesHolder s := by
  intro hall
  obtain ⟨s, hs, htaking, hsent⟩ : ∃ s, Reach Traced.step (fun _ _ => True) Traced.new s ∧
      s.taking = some (show LockId × UserId from ((1 : BitVec 64), ([98] : List Byte))) ∧
      sentTo s = some (show UserId from ([97] : List Byte)) :=
    exists_reach promoted (by decide +kernel)
  obtain ⟨lid, xid, r, htake⟩ := hall s hs _ _ htaking
  simp only [sentTo, htake] at hsent
  cases hsent

end Yfs.Lock.Replicated
