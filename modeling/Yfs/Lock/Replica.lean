/-
Yfs.Lock.Replica — one replica of the lock service with all its locks
(lock_server_cache_rsm.cc), as far as its marshalled state goes.

`Yfs.Lock.ServerCacheRsm` follows one lock id and what it grants
(`Yfs.Lock.OneLock` says that every lock here moves like that). Here is
the whole map, with what `operator[]` leaves behind when it is only read,
the two fifos, and the revoker and retryer threads, cut where they take or
drop `m_lock_mutex_`. The wait queues of a lock are part of the state that
`marshal_state` sends to other replicas; requests push onto them, and the
two threads pop from them, but only at the replica that is the primary.

So replicas that execute the same requests stay equal as long as no thread
pops anything (`same_requests_same_state`), and differ after the first
revoke (`revoke_changes_marshalled_state`).
-/
import Yfs.Lib.Run
import Yfs.Lock.ServerCacheRsm
import Yfs.Wire.RoundTrip

namespace Yfs.Lock.Replicated

open Yfs.Wire Yfs.Run
open Yfs.Lock.Rsm (Answer)

/-- `lockid_t`. -/
abbrev LockId := Ty.carrier .ull

abbrev Xid := Ty.carrier .ull

/-- `std::string`. -/
abbrev UserId := Ty.carrier .string

/-! ## The locks -/

structure CondLockCacheRSM where
  isLocked : Bool
  lockInfo : OrdMap UserId Xid
  waitRetryQueue : List UserId
  waitRevokeQueue : List UserId
  lid : LockId
  userId : UserId

/-- A new entry of `map_lock_`. -/
def CondLockCacheRSM.new : CondLockCacheRSM :=
  { isLocked := false, lockInfo := OrdMap.empty, waitRetryQueue := [], waitRevokeQueue := []
    lid := (0 : BitVec 64), userId := ([] : List Byte) }

def CondLockCacheRSM.info (item : CondLockCacheRSM) (id : UserId) : Xid :=
  (item.lockInfo.find? id).getD (0 : BitVec 64)

def CondLockCacheRSM.touch (item : CondLockCacheRSM) (id : UserId) : CondLockCacheRSM :=
  { item with lockInfo := item.lockInfo.insert id (item.info id) }

/-- `acquire`, on the lock's entry; the last part says whether the lock is
put on `revoke_queue_`. -/
def CondLockCacheRSM.acquire (item : CondLockCacheRSM) (lid : LockId) (id : UserId) (xid : Xid) :
    Answer × CondLockCacheRSM × Bool :=
  let item := item.touch id
  if item.info id < xid then
    if item.isLocked = false then
      (⟨0, 0⟩, { item with
        isLocked := true, lockInfo := item.lockInfo.insert id xid, userId := id,
        lid := lid }, false)
    else
      (⟨0, 1⟩, { item with
        waitRetryQueue := item.waitRetryQueue ++ [id]
        waitRevokeQueue := item.waitRevokeQueue ++ [item.userId] }, true)
  else (⟨2, 1⟩, item, false)

/-- `release`, on the lock's entry; the last part says whether the lock is
put on `retry_queue_`. -/
def CondLockCacheRSM.release (item : CondLockCacheRSM) (id : UserId) (xid : Xid) :
    CondLockCacheRSM × Bool :=
  let item := item.touch id
  if item.info id ≤ xid ∧ item.isLocked = true then
    ({ item with isLocked := if item.userId = id then false else item.isLocked }, true)
  else (item, false)

/-! ## A replica -/

/-- `lock_server_cache_rsm`. A pointer to an entry of `map_lock_` is its
key; `revoking` and `retrying` are the pointers the threads hold when they
have found themselves at the primary. -/
structure Replica where
  mapLock : OrdMap LockId CondLockCacheRSM
  revokeQueue : List LockId
  retryQueue : List LockId
  revoking : Option LockId
  retrying : Option LockId

def Replica.item (r : Replica) (lid : LockId) : CondLockCacheRSM :=
  (r.mapLock.find? lid).getD CondLockCacheRSM.new

def Replica.setItem (r : Replica) (lid : LockId) (item : CondLockCacheRSM) : Replica :=
  { r with mapLock := r.mapLock.insert lid item }

def Replica.acquire (r : Replica) (lid : LockId) (id : UserId) (xid : Xid) : Answer × Replica :=
  let a := (r.item lid).acquire lid id xid
  (a.1, { r.setItem lid a.2.1 with
    revokeQueue := if a.2.2 then r.revokeQueue ++ [lid] else r.revokeQueue })

/-- `lock_server_cache_rsm::release`. For a lock without an entry it returns
with its mutex locked, and the replica never does anything again. -/
def Replica.release (r : Replica) (lid : LockId) (id : UserId) (xid : Xid) :
    Option (Answer × Replica) :=
  if (r.mapLock.find? lid).isSome then
    let a := (r.item lid).release id xid
    some (⟨0, 0⟩, { r.setItem lid a.1 with
      retryQueue := if a.2 then r.retryQueue ++ [lid] else r.retryQueue })
  else none

/-- `revoker` takes a lock off its queue and asks whether it is at the
primary. -/
def Replica.revokerDeq (r : Replica) (amiprimary : Bool) : Option Replica :=
  match r.revoking, r.revokeQueue with
  | none, lid :: rest =>
    some { r with revokeQueue := rest, revoking := if amiprimary then some lid else none }
  | _, _ => none

def Replica.revokerTake (r : Replica) : Option ((UserId × LockId × Xid) × Replica) :=
  r.revoking.bind fun lid =>
    match (r.item lid).waitRevokeQueue with
    | [] => none
    | user :: rest =>
      some ((user, (r.item lid).lid, (r.item lid).info user),
        { r.setItem lid { (r.item lid).touch user with waitRevokeQueue := rest } with
          revoking := none })

def Replica.retryerDeq (r : Replica) (amiprimary : Bool) : Option Replica :=
  match r.retrying, r.retryQueue with
  | none, lid :: rest =>
    some { r with retryQueue := rest, retrying := if amiprimary then some lid else none }
  | _, _ => none

/-- One turn of the loop of `retryer`, with the retry it then sends; none
when the loop is over. -/
def Replica.retryerTurn (r : Replica) : Option (Option (UserId × LockId × Xid) × Replica) :=
  r.retrying.bind fun lid =>
    match (r.item lid).waitRetryQueue with
    | [] => some (none, { r with retrying := none })
    | user :: rest =>
      some (some (user, (r.item lid).lid, (r.item lid).info user),
        r.setItem lid { (r.item lid).touch user with waitRetryQueue := rest })

/-! ## The marshalled state -/

def putItem (p : LockId × CondLockCacheRSM) : Put :=
  Put.andThen (Ty.put .ull p.1) <|
  Put.andThen (Ty.put .bool p.2.isLocked) <|
  Put.andThen (Ty.put .ull p.2.lid) <|
  Put.andThen (Ty.put .string p.2.userId) <|
  Put.andThen (Ty.put (.map .string .ull) p.2.lockInfo) <|
  Put.andThen (Ty.put (.vec .string) p.2.waitRetryQueue) <|
  Ty.put (.vec .string) p.2.waitRevokeQueue

def Replica.marshalState (memory : Nat → Byte) (r : Replica) : Option (List Byte) :=
  (Put.andThen (putUint (BitVec.ofNat 32 r.mapLock.entries.length))
    (putList putItem r.mapLock.entries) (Marshall.new memory)).map Marshall.str

/-! ## Runs -/

inductive Request where
  | acquire (lid : LockId) (id : UserId) (xid : Xid)
  | release (lid : LockId) (id : UserId) (xid : Xid)

/-- A request is executed, or a thread goes on; `amiprimary` is what
`rsm->amiprimary()` answers. -/
inductive Step where
  | request (q : Request)
  | revokerDeq (amiprimary : Bool)
  | revokerTake
  | retryerDeq (amiprimary : Bool)
  | retryerTurn

def step (r : Replica) : Step → Option Replica
  | .request (.acquire lid id xid) => some (r.acquire lid id xid).2
  | .request (.release lid id xid) => (r.release lid id xid).map Prod.snd
  | .revokerDeq amiprimary => r.revokerDeq amiprimary
  | .revokerTake => r.revokerTake.map Prod.snd
  | .retryerDeq amiprimary => r.retryerDeq amiprimary
  | .retryerTurn => r.retryerTurn.map Prod.snd

def requests (es : List Step) : List Request :=
  es.filterMap fun
    | .request q => some q
    | _ => none

/-- The threads pop nothing: the revoker finds that it is not at the
primary, and the retryer that nobody waits. -/
def PopsNothing (r : Replica) : Step → Prop
  | .revokerDeq amiprimary => amiprimary = false
  | .retryerTurn => ∀ lid ∈ r.retrying, (r.item lid).waitRetryQueue = []
  | _ => True

instance (r : Replica) (e : Step) : Decidable (PopsNothing r e) := by
  rcases e <;> unfold PopsNothing <;> infer_instance

def serve (m : OrdMap LockId CondLockCacheRSM) : Request → Option (OrdMap LockId CondLockCacheRSM)
  | .acquire lid id xid =>
    some (m.insert lid (((m.find? lid).getD CondLockCacheRSM.new).acquire lid id xid).2.1)
  | .release lid id xid =>
    if (m.find? lid).isSome then
      some (m.insert lid (((m.find? lid).getD CondLockCacheRSM.new).release id xid).1)
    else none

/-- A request changes the map by itself, and leaves the threads where they
are. -/
theorem step_request {r r' : Replica} {q : Request} (h : step r (.request q) = some r') :
    serve r.mapLock q = some r'.mapLock ∧ r'.revoking = r.revoking := by
  cases q with
  | acquire lid id xid =>
    cases h
    exact ⟨rfl, rfl⟩
  | release lid id xid =>
    obtain ⟨⟨a, r₁⟩, hrel, rfl⟩ := Option.map_eq_some_iff.mp h
    obtain ⟨hfound, hrel⟩ := Option.ite_none_right_eq_some.mp hrel
    cases hrel
    exact ⟨if_pos hfound, rfl⟩

/-- A thread that pops nothing changes no lock. -/
theorem step_thread {r r' : Replica} {e : Step} (hthread : ∀ q, e ≠ .request q)
    (hidle : r.revoking = none) (hpop : PopsNothing r e) (h : step r e = some r') :
    r'.mapLock = r.mapLock ∧ r'.revoking = none := by
  cases e with
  | request q => exact absurd rfl (hthread q)
  | revokerDeq amiprimary =>
    obtain rfl : amiprimary = false := hpop
    replace h : r.revokerDeq false = some r' := h
    unfold Replica.revokerDeq at h
    split at h
    · cases h
      exact ⟨rfl, rfl⟩
    · cases h
  | revokerTake =>
    obtain ⟨x, htake, -⟩ := Option.map_eq_some_iff.mp h
    rw [Replica.revokerTake, hidle] at htake
    cases htake
  | retryerDeq amiprimary =>
    replace h : r.retryerDeq amiprimary = some r' := h
    unfold Replica.retryerDeq at h
    split at h
    · cases h
      exact ⟨rfl, hidle⟩
    · cases h
  | retryerTurn =>
    obtain ⟨⟨m, r₁⟩, hturn, rfl⟩ := Option.map_eq_some_iff.mp h
    obtain ⟨lid, hlid, hbody⟩ := Option.bind_eq_some_iff.mp hturn
    rw [hpop lid hlid] at hbody
    cases hbody
    exact ⟨rfl, hidle⟩

/-- The locks after a run are those its requests make of the locks before
it. -/
theorem mapLock_run {r r' : Replica} {es : List Step} (hidle : r.revoking = none)
    (h : execIf step PopsNothing r es = some r') :
    (requests es).foldlM serve r.mapLock = some r'.mapLock := by
  induction es generalizing r with
  | nil =>
    cases h
    rfl
  | cons e es ih =>
    obtain ⟨hpop, h⟩ := Option.ite_none_right_eq_some.mp h
    obtain ⟨r₁, hstep, hrest⟩ := Option.bind_eq_some_iff.mp h
    cases e with
    | request q =>
      obtain ⟨hserve, hrev⟩ := step_request hstep
      show (serve r.mapLock q).bind _ = _
      rw [hserve]
      exact ih (hrev.trans hidle) hrest
    | _ =>
      obtain ⟨hmap, hrev⟩ := step_thread (by simp) hidle hpop hstep
      rw [← hmap]
      exact ih hrev hrest

/-- **Replicated state.** Replicas with the same locks that execute the same
requests, with whatever steps of their threads in between, marshal to the
same string, if no thread pops a wait queue. -/
theorem same_requests_same_state {r₁ r₂ r₁' r₂' : Replica} (hsame : r₁.mapLock = r₂.mapLock)
    (hidle₁ : r₁.revoking = none) (hidle₂ : r₂.revoking = none) {es₁ es₂ : List Step}
    (hreq : requests es₁ = requests es₂)
    (h₁ : execIf step PopsNothing r₁ es₁ = some r₁')
    (h₂ : execIf step PopsNothing r₂ es₂ = some r₂') (memory : Nat → Byte) :
    r₁'.marshalState memory = r₂'.marshalState memory := by
  have hmap : some r₁'.mapLock = some r₂'.mapLock := by
    rw [← mapLock_run hidle₁ h₁, ← mapLock_run hidle₂ h₂, hsame, hreq]
  rw [Replica.marshalState, Replica.marshalState, Option.some.inj hmap]

/-! ## Two replicas -/

def Replica.new : Replica := ⟨OrdMap.empty, [], [], none, none⟩

def contended : List Step :=
  [.request (.acquire (1 : BitVec 64) ([97] : List Byte) (1 : BitVec 64)),
    .request (.acquire (1 : BitVec 64) ([98] : List Byte) (1 : BitVec 64))]

/-- At the backups the revoker drops the lock it is given. -/
theorem same_requests_same_state_backups :
    ∃ r₁ r₂, execIf step PopsNothing Replica.new contended = some r₁ ∧
      execIf step PopsNothing Replica.new (contended ++ [.revokerDeq false]) = some r₂ ∧
      r₁.revokeQueue ≠ r₂.revokeQueue ∧
      r₁.marshalState (fun _ => 0) = r₂.marshalState (fun _ => 0) := by
  obtain ⟨r₁, h₁, r₂, h₂, hq₁, hq₂⟩ :
      ∃ r₁, execIf step PopsNothing Replica.new contended = some r₁ ∧
      ∃ r₂, execIf step PopsNothing Replica.new (contended ++ [.revokerDeq false]) = some r₂ ∧
        r₁.revokeQueue.length = 1 ∧ r₂.revokeQueue.length = 0 := by
    decide +kernel
  refine ⟨r₁, r₂, h₁, h₂, ?_, ?_⟩
  · intro heq
    rw [heq, hq₂] at hq₁
    cases hq₁
  · have hreq : requests contended = requests (contended ++ [.revokerDeq false]) := rfl
    exact same_requests_same_state rfl rfl rfl hreq h₁ h₂ _

/-- **The primary differs from its backups**: its revoker has popped the
queue of waiting revokes, theirs have not. -/
theorem revoke_changes_marshalled_state :
    ¬ ∀ (r r₁ r₂ : Replica) (es₁ es₂ : List Step), r.revoking = none →
      requests es₁ = requests es₂ → exec step r es₁ = some r₁ → exec step r es₂ = some r₂ →
      ∀ memory, r₁.marshalState memory = r₂.marshalState memory := by
  intro hall
  obtain ⟨r₁, h₁, r₂, h₂, hne⟩ :
      ∃ r₁, exec step Replica.new (contended ++ [.revokerDeq true, .revokerTake]) = some r₁ ∧
      ∃ r₂, exec step Replica.new (contended ++ [.revokerDeq false]) = some r₂ ∧
        r₁.marshalState (fun _ => 0) ≠ r₂.marshalState (fun _ => 0) := by
    decide +kernel
  have hreq : requests (contended ++ [.revokerDeq true, .revokerTake]) =
      requests (contended ++ [.revokerDeq false]) := rfl
  exact hne (hall Replica.new r₁ r₂ _ _ rfl hreq h₁ h₂ _)

end Yfs.Lock.Replicated
