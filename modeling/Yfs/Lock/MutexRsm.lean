/-
Yfs.Lock.MutexRsm — the lock service over the replicated state machine:
any number of `lock_client_cache_rsm` clients with any number of threads,
and one logical `lock_server_cache_rsm`.

The replicated server is one server whose requests may be executed
SEVERAL times: `rsm_client::invoke` sends a request again after BUSY or a
timeout, and an execution may come arbitrarily late. So a request, once
sent, stays, every execution of it adds an answer, and the caller takes
any of them. Revokes and retries are delivered at any time after they
were sent.

The locks of one client share two things: the counter `xid`, which
`SendAcqToSvr` reads a SECOND time after it has dropped the mutex, and
the releaser thread. They are in `Shared`; everything else belongs to one
lock id (`LockSys`).

The defect. `revoke_handler` queues an item whose xid is newer than the
revoke and whose status is NONE or ACQING, and the releaser sends the xid
the item has WHEN IT GETS THERE. A second revoke for an earlier grant can
so release a lock that was granted again in the meantime
(`stale_revoke_releases_new_grant`). The condition of
`rsm_locks_exclude` is on the releaser alone: it takes an item only while
its client does not have the lock and is not asking for it.
-/
import Yfs.Lib.Run
import Yfs.Lib.Exclusive
import Yfs.Lock.ClientCacheRsm
import Yfs.Lock.ServerCacheRsm

namespace Yfs.Lock.Rsm

open Run Function

abbrev LockId := Nat
abbrev ThreadId := Nat

/-! ## State -/

/-- Where a thread stands, as far as one lock id is concerned. In `toSend`
it has taken xid `own` and dropped the mutex, and has not yet read the
counter for the request. -/
inductive Pc where
  | idle
  | toSend (site : CallSite) (own : Nat)
  | waiting (site : CallSite) (call : Nat)
  | waitAcq
  | waitFree
  | holding
  deriving DecidableEq, Repr

structure AcqReq where
  id : UserId
  thread : ThreadId
  xid : Nat
  deriving DecidableEq, Repr

structure RelReq where
  id : UserId
  xid : Nat
  deriving DecidableEq, Repr

structure Shared where
  xid : UserId → Nat
  releaserBusy : UserId → Bool

structure LockSys where
  item : UserId → ClientLockRSM
  pc : UserId → ThreadId → Pc
  releaseQueue : UserId → Nat
  releasing : UserId → Option Nat
  srv : ServerLock UserId Nat
  acqReqs : Nat → Option AcqReq
  acqAnswers : Nat → List Answer
  relReqs : Nat → Option RelReq
  relAnswered : Nat → Bool
  nextCall : Nat
  revokes : List (UserId × Nat)
  retries : List (UserId × Nat)

def Shared.init : Shared := { xid := fun _ => 0, releaserBusy := fun _ => false }

def LockSys.init : LockSys :=
  { item := fun _ => ClientLockRSM.new
    pc := fun _ _ => .idle
    releaseQueue := fun _ => 0
    releasing := fun _ => none
    srv := ServerLock.new [] 0
    acqReqs := fun _ => none
    acqAnswers := fun _ => []
    relReqs := fun _ => none
    relAnswered := fun _ => false
    nextCall := 0
    revokes := []
    retries := [] }

inductive Event where
  | acquire (c : UserId) (t : ThreadId)
  | wake (c : UserId) (t : ThreadId)
  | timeout (c : UserId) (t : ThreadId)
  | sendAcq (c : UserId) (t : ThreadId)
  | acqReturn (c : UserId) (t : ThreadId) (a : Answer)
  | release (c : UserId) (t : ThreadId)
  | releaserDeq (c : UserId)
  | releaserReturn (c : UserId)
  | revokeHandler (c : UserId) (xid : Nat)
  | retryHandler (c : UserId) (xid : Nat)
  | srvAcquire (call : Nat)
  | srvRelease (call : Nat)
  | revoker (amiprimary : Bool)
  | retryerDeq (amiprimary : Bool)
  | retryerTurn
  deriving DecidableEq, Repr

def LockSys.setLock (s : LockSys) (c : UserId) (lock : ClientLock) : LockSys :=
  { s with item := update s.item c { s.item c with lock := lock } }

def LockSys.setPc (s : LockSys) (c : UserId) (t : ThreadId) (pc : Pc) : LockSys :=
  { s with pc := update s.pc c (update (s.pc c) t pc) }

def LockSys.enqIf (s : LockSys) (c : UserId) (b : Bool) : LockSys :=
  if b then { s with releaseQueue := update s.releaseQueue c (s.releaseQueue c + 1) }
  else s

/-! ## The steps -/

/-- A thread has run `acquire` up to its next block. `SendAcqToSvr` takes
the next xid, also for the item, before it drops the mutex. -/
def blocked (sh : Shared) (s : LockSys) (c : UserId) (t : ThreadId) (r : Outcome × ClientLock) :
    Option (Shared × LockSys) :=
  match r.1 with
  | .sendAcq site =>
    let own := sh.xid c + 1
    some ({ sh with xid := update sh.xid c own },
      { s.setPc c t (.toSend site own) with
        item := update s.item c { lock := r.2, xid := own } })
  | .waitAcq => some (sh, (s.setLock c r.2).setPc c t .waitAcq)
  | .waitFree => some (sh, (s.setLock c r.2).setPc c t .waitFree)
  | .locked => some (sh, (s.setLock c r.2).setPc c t .holding)
  | .again => none
  | .abort => none

/-- The RPC of `SendAcqToSvr`, with the counter as it is now. -/
def sendAcq (sh : Shared) (s : LockSys) (c : UserId) (t : ThreadId) (site : CallSite) : LockSys :=
  { s.setPc c t (.waiting site s.nextCall) with
    acqReqs := update s.acqReqs s.nextCall (some ⟨c, t, sh.xid c⟩)
    nextCall := s.nextCall + 1 }

/-- `releaser` takes the item off the queue and sends the release with
the xid the item has now. -/
def releaserDeq (s : LockSys) (c : UserId) : LockSys :=
  { s with
    releaseQueue := update s.releaseQueue c (s.releaseQueue c - 1)
    releasing := update s.releasing c (some s.nextCall)
    relReqs := update s.relReqs s.nextCall (some ⟨c, (s.item c).xid⟩)
    nextCall := s.nextCall + 1 }

def serveAcquire (s : LockSys) (k : Nat) (q : AcqReq) : LockSys :=
  { s with
    srv := (s.srv.acquire q.id q.xid).2
    acqAnswers := update s.acqAnswers k
      ((s.srv.acquire q.id q.xid).1 :: s.acqAnswers k) }

def lockStep (sh : Shared) (s : LockSys) : Event → Option (Shared × LockSys)
  | .acquire c t =>
    if s.pc c t = .idle then blocked sh s c t (switch (s.item c).lock) else none
  | .wake c t =>
    match s.pc c t with
    | .waitAcq => blocked sh s c t (loopAgain switch (waitAcqWhile (s.item c).lock))
    | .waitFree => blocked sh s c t (loopAgain switch (waitFreeWhile (s.item c).lock))
    | _ => none
  | .timeout c t =>
    match s.pc c t with
    | .waitAcq => blocked sh s c t (loopAgain switch (waitAcqWhile (timedOut (s.item c).lock)))
    | _ => none
  | .sendAcq c t =>
    match s.pc c t with
    | .toSend site _ => some (sh, sendAcq sh s c t site)
    | _ => none
  | .acqReturn c t a =>
    match s.pc c t with
    | .waiting site k =>
      if a ∈ s.acqAnswers k then blocked sh s c t (resumeSend site (s.item c).lock a.ret a.r)
      else none
    | _ => none
  | .release c t =>
    if s.pc c t = .holding then
      let r := dealRelease (s.item c).lock
      some (sh, ((s.setLock c r.2).enqIf c r.1).setPc c t .idle)
    else none
  | .releaserDeq c =>
    if sh.releaserBusy c = false ∧ s.releaseQueue c ≠ 0 then
      some ({ sh with releaserBusy := update sh.releaserBusy c true }, releaserDeq s c)
    else none
  | .releaserReturn c =>
    match s.releasing c with
    | some j =>
      if s.relAnswered j = true then
        some ({ sh with releaserBusy := update sh.releaserBusy c false },
          { s.setLock c (releaserDone (s.item c).lock) with
            releasing := update s.releasing c none })
      else none
    | none => none
  | .revokeHandler c xid =>
    if (c, xid) ∈ s.revokes then
      let r := revokeHandler (s.item c) xid
      some (sh, ({ s with revokes := s.revokes.erase (c, xid) }.setLock c r.2).enqIf c r.1)
    else none
  | .retryHandler c xid =>
    if (c, xid) ∈ s.retries then
      some (sh, { s with retries := s.retries.erase (c, xid) }.setLock c
        (retryHandler (s.item c) xid))
    else none
  | .srvAcquire k =>
    match s.acqReqs k with
    | some q => some (sh, serveAcquire s k q)
    | none => none
  | .srvRelease k =>
    match s.relReqs k with
    | some q =>
      match s.srv.release q.id q.xid with
      | some srv =>
        some (sh, { s with srv := srv, relAnswered := update s.relAnswered k true })
      | none => none
    | none => none
  | .revoker p =>
    match s.srv.revoker p with
    | some r => some (sh, { s with srv := r.2, revokes := r.1.toList ++ s.revokes })
    | none => none
  | .retryerDeq p =>
    match s.srv.retryerDeq p with
    | some srv => some (sh, { s with srv := srv })
    | none => none
  | .retryerTurn =>
    match s.srv.retryerTurn with
    | some r => some (sh, { s with srv := r.2, retries := r.1.toList ++ s.retries })
    | none => none

structure Sys where
  sh : Shared
  locks : LockId → LockSys

def Sys.init : Sys := { sh := Shared.init, locks := fun _ => LockSys.init }

def step (s : Sys) (e : LockId × Event) : Option Sys :=
  match lockStep s.sh (s.locks e.1) e.2 with
  | some r => some { sh := r.1, locks := update s.locks e.1 r.2 }
  | none => none

/-! ## Mutual exclusion, and when it holds -/

/-- A thread of the client is between `acquire` and `release`. -/
def LockSys.holds (s : LockSys) (c : UserId) (t : ThreadId) : Prop := s.pc c t = .holding

/-- A thread of the client is inside `SendAcqToSvr`. -/
def LockSys.asking (s : LockSys) (c : UserId) (t : ThreadId) : Prop :=
  ∃ site n, s.pc c t = .toSend site n ∨ s.pc c t = .waiting site n

/-- The releaser takes an item only when no thread of its client holds the
lock or is inside `SendAcqToSvr` for it, and the lock is not cached. -/
def LockSys.ReleasesNothingHeld (s : LockSys) : Event → Prop
  | .releaserDeq c => (∀ t, ¬ s.holds c t ∧ ¬ s.asking c t) ∧ (s.item c).lock.status ≠ .FREE
  | _ => True

def ReleasesNothingHeld (s : Sys) (e : LockId × Event) : Prop :=
  (s.locks e.1).ReleasesNothingHeld e.2

/-! ## The invariant -/

/-- `x` is newer than every release the client has sent. -/
def LockSys.newer (s : LockSys) (c : UserId) (x : Nat) : Prop :=
  ∀ j q, s.relReqs j = some q → q.id = c → q.xid < x

/-- Where the right to the lock can be: in an OK answer that a thread is
waiting for, cached, or with a thread. A release on its way is none, since
the condition keeps it from being sent while one of these exists. -/
inductive Tok where
  | answer (call : Nat) (c : UserId) (t : ThreadId)
  | free (c : UserId)
  | holder (c : UserId) (t : ThreadId)

def Tok.owner : Tok → UserId
  | .answer _ c _ => c
  | .free c => c
  | .holder c _ => c

def LockSys.tok (s : LockSys) : Tok → Prop
  | .answer k c t => (∃ site, s.pc c t = .waiting site k) ∧ ⟨0, 0⟩ ∈ s.acqAnswers k
  | .free c => (s.item c).lock.status = .FREE
  | .holder c t => s.pc c t = .holding

/-- The server has granted the lock to the client, and no release of the
client can undo it. -/
def LockSys.granted (s : LockSys) (c : UserId) : Prop :=
  s.srv.isLocked = true ∧ s.srv.userId = c ∧ s.newer c (s.srv.lockInfo c)

structure Inv (sh : Shared) (s : LockSys) : Prop where
  token : Exclusive s.tok Tok.owner s.granted
  itemXid : ∀ c, (s.item c).xid ≤ sh.xid c
  relXid : ∀ j q, s.relReqs j = some q → q.xid ≤ sh.xid q.id
  toSend : ∀ c t site own, s.pc c t = .toSend site own → own ≤ sh.xid c ∧ s.newer c own
  waiting : ∀ c t site k, s.pc c t = .waiting site k →
    ∃ x, s.acqReqs k = some ⟨c, t, x⟩ ∧ s.newer c x
  fresh : ∀ k, s.nextCall ≤ k → s.acqReqs k = none ∧ s.acqAnswers k = []

theorem inv_init : Inv Shared.init LockSys.init := by
  refine ⟨⟨?_, ?_⟩, ?_, ?_, ?_, ?_, ?_⟩
  · rintro (_ | _ | _) y hx _ <;>
      simp [LockSys.tok, LockSys.init, ClientLockRSM.new, ClientLock.new] at hx
  · rintro (_ | _ | _) hx <;>
      simp [LockSys.tok, LockSys.init, ClientLockRSM.new, ClientLock.new] at hx
  all_goals simp [LockSys.init, ClientLockRSM.new]

variable {sh sh' : Shared} {s s' : LockSys} {c : UserId} {t : ThreadId} {r : Outcome × ClientLock}

/-- The counters only grow, whichever lock id a step is about. -/
theorem Inv.mono (h : Inv sh s) (hxid : ∀ c, sh.xid c ≤ sh'.xid c) : Inv sh' s :=
  { h with
    itemXid := fun c => (h.itemXid c).trans (hxid c)
    relXid := fun j q hq => (h.relXid j q hq).trans (hxid q.id)
    toSend := fun c t site own hpc =>
      ⟨(h.toSend c t site own hpc).1.trans (hxid c), (h.toSend c t site own hpc).2⟩ }

/-- An item that changes without becoming FREE. -/
theorem Inv.setLock (h : Inv sh s) {lock : ClientLock}
    (hfree : lock.status = .FREE → (s.item c).lock.status = .FREE) : Inv sh (s.setLock c lock) := by
  refine { h with token := h.token.sub fun z hz => ?_, itemXid := fun d => ?_ }
  · cases z with
    | free d =>
      rcases eq_or_ne d c with rfl | hne
      · exact hfree (by simpa [LockSys.tok, LockSys.setLock] using hz)
      · simpa [LockSys.tok, LockSys.setLock, hne] using hz
    | answer k d t => exact hz
    | holder d t => exact hz
  · rcases eq_or_ne d c with rfl | hne
    · simpa [LockSys.setLock] using h.itemXid d
    · simpa [LockSys.setLock, hne] using h.itemXid d

theorem Inv.enqIf (h : Inv sh s) (c : UserId) (b : Bool) : Inv sh (s.enqIf c b) := by
  unfold LockSys.enqIf
  split
  · exact { h with }
  · exact h

/-! ## The steps of a thread in `acquire` -/

theorem setPc_self (s : LockSys) (c : UserId) (t : ThreadId) (pc : Pc) :
    (s.setPc c t pc).pc c t = pc := by
  simp [LockSys.setPc]

theorem setPc_of_ne {d : UserId} {u : ThreadId} {pc : Pc} (h : ¬ (d = c ∧ u = t)) :
    (s.setPc c t pc).pc d u = s.pc d u := by
  rcases eq_or_ne d c with rfl | hne
  · have hu : u ≠ t := fun hut => h ⟨rfl, hut⟩
    simp [LockSys.setPc, hu]
  · simp [LockSys.setPc, hne]

/-- What a thread `t` of client `c` leaves behind when it gives the mutex
up, with `r` as far as it got. -/
structure Blocked (sh : Shared) (s : LockSys) (c : UserId) (t : ThreadId)
    (r : Outcome × ClientLock) (sh' : Shared) (s' : LockSys) : Prop where
  srv : s'.srv = s.srv
  rel : s'.relReqs = s.relReqs
  calls : s'.acqReqs = s.acqReqs ∧ s'.acqAnswers = s.acqAnswers ∧ s'.nextCall = s.nextCall
  xid : ∀ d, sh.xid d ≤ sh'.xid d
  item : ∀ d, d ≠ c → s'.item d = s.item d
  itemSelf : (s'.item c).lock = r.2 ∧
    ((s'.item c).xid = (s.item c).xid ∨ (s'.item c).xid = sh'.xid c)
  pc : ∀ d u, ¬ (d = c ∧ u = t) → s'.pc d u = s.pc d u
  pcSelf : (s'.pc c t = .holding ∧ r.1 = .locked) ∨ s'.pc c t = .idle ∨ s'.pc c t = .waitAcq ∨
    s'.pc c t = .waitFree ∨ ∃ site, s'.pc c t = .toSend site (sh.xid c + 1) ∧
      sh'.xid c = sh.xid c + 1

theorem blocked_spec (hs : blocked sh s c t r = some (sh', s')) : Blocked sh s c t r sh' s' := by
  -- every outcome but `sendAcq` leaves the counter alone
  have hplain : ∀ pc, ((pc = .holding ∧ r.1 = .locked) ∨ pc = .waitAcq ∨ pc = .waitFree) →
      Blocked sh s c t r sh ((s.setLock c r.2).setPc c t pc) := by
    intro pc hpc
    refine ⟨rfl, rfl, ⟨rfl, rfl, rfl⟩, fun _ => le_rfl, fun d hd => ?_, ?_,
      fun d u hdu => setPc_of_ne hdu, ?_⟩
    · simp [LockSys.setLock, LockSys.setPc, hd]
    · simp [LockSys.setLock, LockSys.setPc]
    · rw [setPc_self]
      rcases hpc with h | h | h
      · exact .inl h
      · exact .inr (.inr (.inl h))
      · exact .inr (.inr (.inr (.inl h)))
  unfold blocked at hs
  cases hr : r.1 with
  | sendAcq site =>
    simp only [hr, Option.some.injEq, Prod.mk.injEq] at hs
    obtain ⟨rfl, rfl⟩ := hs
    refine ⟨rfl, rfl, ⟨rfl, rfl, rfl⟩, fun d => ?_, fun d hd => ?_, ?_, fun d u hdu => ?_, ?_⟩
    · rcases eq_or_ne d c with rfl | hne
      · simp
      · simp [hne]
    · simp [hd]
    · simp
    · exact setPc_of_ne hdu
    · exact .inr (.inr (.inr (.inr ⟨site, setPc_self _ _ _ _, by simp⟩)))
  | waitAcq =>
    simp only [hr, Option.some.injEq, Prod.mk.injEq] at hs
    obtain ⟨rfl, rfl⟩ := hs
    exact hplain _ (.inr (.inl rfl))
  | waitFree =>
    simp only [hr, Option.some.injEq, Prod.mk.injEq] at hs
    obtain ⟨rfl, rfl⟩ := hs
    exact hplain _ (.inr (.inr rfl))
  | locked =>
    simp only [hr, Option.some.injEq, Prod.mk.injEq] at hs
    obtain ⟨rfl, rfl⟩ := hs
    exact hplain _ (.inl ⟨rfl, hr⟩)
  | again => simp [hr] at hs
  | abort => simp [hr] at hs

/-- The tokens after a thread has blocked. -/
theorem Blocked.tok (hb : Blocked sh s c t r sh' s') {z : Tok} (hz : s'.tok z) :
    (z = .holder c t ∧ r.1 = .locked) ∨ (z = .free c ∧ r.2.status = .FREE) ∨
      (s.tok z ∧ z ≠ .free c ∧ z ≠ .holder c t ∧ ∀ k, z ≠ .answer k c t) := by
  cases z with
  | free d =>
    rcases eq_or_ne d c with rfl | hne
    · exact .inr (.inl ⟨rfl, by rw [← hb.itemSelf.1]; exact hz⟩)
    · refine .inr (.inr ⟨?_, by simp [hne], by simp, by simp⟩)
      show (s.item d).lock.status = .FREE
      rw [← hb.item d hne]
      exact hz
  | holder d u =>
    by_cases hdu : d = c ∧ u = t
    · obtain ⟨rfl, rfl⟩ := hdu
      replace hz : s'.pc d u = .holding := hz
      rcases hb.pcSelf with ⟨_, hl⟩ | hp | hp | hp | ⟨site, hp, _⟩
      · exact .inl ⟨rfl, hl⟩
      all_goals simp [hp] at hz
    · refine .inr (.inr ⟨?_, by simp, by simpa using hdu, by simp⟩)
      show s.pc d u = .holding
      rw [← hb.pc d u hdu]
      exact hz
  | answer k d u =>
    obtain ⟨⟨site, hpc⟩, hans⟩ := hz
    by_cases hdu : d = c ∧ u = t
    · obtain ⟨rfl, rfl⟩ := hdu
      rcases hb.pcSelf with ⟨hp, _⟩ | hp | hp | hp | ⟨_, hp, _⟩ <;> simp [hp] at hpc
    · refine .inr (.inr ⟨⟨⟨site, ?_⟩, ?_⟩, by simp, by simp, ?_⟩)
      · rw [← hb.pc d u hdu]
        exact hpc
      · rw [← hb.calls.2.1]
        exact hans
      · rintro j heq
        injection heq with _ hd hu
        exact hdu ⟨hd, hu⟩

/-- A thread that blocks keeps the invariant, if the tokens are in order. -/
theorem Inv.blocked (h : Inv sh s) (hb : Blocked sh s c t r sh' s')
    (htok : Exclusive s'.tok Tok.owner s.granted) : Inv sh' s' := by
  have hnewer : ∀ d x, s'.newer d x ↔ s.newer d x := fun d x => by
    unfold LockSys.newer
    rw [hb.rel]
  have hgranted : s'.granted = s.granted := by
    funext d
    unfold LockSys.granted
    rw [hb.srv, hnewer]
  refine ⟨hgranted ▸ htok, fun d => ?_, fun j q hq => ?_, fun d u site own hpc => ?_,
    fun d u site k hpc => ?_, ?_⟩
  · rcases eq_or_ne d c with rfl | hne
    · rcases hb.itemSelf.2 with hx | hx
      · rw [hx]
        exact (h.itemXid d).trans (hb.xid d)
      · exact hx.le
    · rw [hb.item d hne]
      exact (h.itemXid d).trans (hb.xid d)
  · rw [hb.rel] at hq
    exact (h.relXid j q hq).trans (hb.xid q.id)
  · rw [hnewer]
    by_cases hdu : d = c ∧ u = t
    · obtain ⟨rfl, rfl⟩ := hdu
      rcases hb.pcSelf with ⟨hp, _⟩ | hp | hp | hp | ⟨site', hp, hx⟩
      · simp [hp] at hpc
      · simp [hp] at hpc
      · simp [hp] at hpc
      · simp [hp] at hpc
      · -- the new xid is above the counter, and every release is at most that
        obtain ⟨_, rfl⟩ : site' = site ∧ sh.xid d + 1 = own := by simpa [hp] using hpc
        refine ⟨hx.ge, fun j q hq hqc => ?_⟩
        have := h.relXid j q hq
        rw [hqc] at this
        omega
    · rw [hb.pc d u hdu] at hpc
      obtain ⟨hle, hnew⟩ := h.toSend d u site own hpc
      exact ⟨hle.trans (hb.xid d), hnew⟩
  · by_cases hdu : d = c ∧ u = t
    · obtain ⟨rfl, rfl⟩ := hdu
      rcases hb.pcSelf with ⟨hp, _⟩ | hp | hp | hp | ⟨_, hp, _⟩ <;> simp [hp] at hpc
    · rw [hb.pc d u hdu] at hpc
      obtain ⟨x, hx, hnew⟩ := h.waiting d u site k hpc
      exact ⟨x, by rw [hb.calls.1]; exact hx, (hnewer d x).mpr hnew⟩
  · rw [hb.calls.1, hb.calls.2.1, hb.calls.2.2]
    exact h.fresh

/-- A thread that finds the lock FREE takes the token from there; any
other outcome makes no token. `item` is the item as the thread finds it
when it gets the mutex back. -/
theorem Inv.advance {item : ClientLock} (h : Inv sh s)
    (hfree : item.status = .FREE → (s.item c).lock.status = .FREE) (hadv : Advances item r)
    (hs : Rsm.blocked sh s c t r = some (sh', s')) : Inv sh' s' := by
  have hb := blocked_spec hs
  refine h.blocked hb ?_
  rcases hadv with ⟨_, hitem, hst, _⟩ | ⟨hr, hst, _⟩
  · refine h.token.move (x := .free c) (hfree hitem) (y := .holder c t) rfl fun z hz => ?_
    rcases hb.tok hz with ⟨rfl, _⟩ | ⟨_, hf⟩ | ⟨hz, hne, _⟩
    · exact .inl rfl
    · simp [hst] at hf
    · exact .inr ⟨hz, hne⟩
  · refine h.token.sub fun z hz => ?_
    rcases hb.tok hz with ⟨_, hl⟩ | ⟨rfl, hf⟩ | ⟨hz, _⟩
    · exact absurd hl hr
    · exact hfree (hst ▸ hf)
    · exact hz

/-- A thread that gets an answer. An OK is a token, and the thread takes
it; after any other answer status is FREE only if it was before. -/
theorem Inv.acqReturn {site : CallSite} {k : Nat} {a : Answer} (h : Inv sh s)
    (hpc : s.pc c t = .waiting site k) (ha : a ∈ s.acqAnswers k)
    (hs : Rsm.blocked sh s c t (resumeSend site (s.item c).lock a.ret a.r) = some (sh', s')) :
    Inv sh' s' := by
  have hadv := resumeSend_advances site (s.item c).lock a.ret a.r
  by_cases hok : a = ⟨0, 0⟩
  · subst hok
    have hb := blocked_spec hs
    refine h.blocked hb ?_
    have hx : s.tok (.answer k c t) := ⟨⟨site, hpc⟩, ha⟩
    rcases hadv with ⟨_, _, hst, _⟩ | ⟨hr, hst, _⟩
    · refine h.token.move hx (y := .holder c t) rfl fun z hz => ?_
      rcases hb.tok hz with ⟨rfl, _⟩ | ⟨_, hf⟩ | ⟨hz, _, _, hne⟩
      · exact .inl rfl
      · simp [hst] at hf
      · exact .inr ⟨hz, hne k⟩
    · refine h.token.move hx (y := .free c) rfl fun z hz => ?_
      rcases hb.tok hz with ⟨_, hl⟩ | ⟨rfl, _⟩ | ⟨hz, _, _, hne⟩
      · exact absurd hl hr
      · exact .inl rfl
      · exact .inr ⟨hz, hne k⟩
  · refine h.advance (fun hf => ?_) hadv hs
    rcases sendAcqReturn_free hf with hf | ⟨hret, hr⟩
    · exact hf
    · exact absurd (show a = ⟨0, 0⟩ by cases a; simp_all) hok

/-- The request goes out, with an xid that is at least the thread's own. -/
theorem Inv.sendAcq {site : CallSite} {own : Nat} (h : Inv sh s)
    (hpc : s.pc c t = .toSend site own) : Inv sh (sendAcq sh s c t site) := by
  obtain ⟨hle, hnew⟩ := h.toSend c t site own hpc
  have hpcs : ∀ d u, ¬ (d = c ∧ u = t) → (Rsm.sendAcq sh s c t site).pc d u = s.pc d u :=
    fun d u hdu => setPc_of_ne hdu
  have hself : (Rsm.sendAcq sh s c t site).pc c t = .waiting site s.nextCall :=
    setPc_self _ _ _ _
  have hreq : ∀ k, k ≠ s.nextCall → (Rsm.sendAcq sh s c t site).acqReqs k = s.acqReqs k :=
    fun k hk => update_of_ne hk _ _
  refine { h with
    token := h.token.sub fun z hz => ?_
    toSend := fun d u site' own' hp => ?_
    waiting := fun d u site' k hp => ?_
    fresh := fun k hk => ?_ }
  · cases z with
    | free d => exact hz
    | holder d u =>
      by_cases hdu : d = c ∧ u = t
      · obtain ⟨rfl, rfl⟩ := hdu
        replace hz : (Rsm.sendAcq sh s d u site).pc d u = .holding := hz
        simp [hself] at hz
      · show s.pc d u = .holding
        rw [← hpcs d u hdu]
        exact hz
    | answer k d u =>
      obtain ⟨⟨site', hp⟩, hans⟩ := hz
      by_cases hdu : d = c ∧ u = t
      · -- the new call has no answer yet
        obtain ⟨rfl, rfl⟩ := hdu
        obtain ⟨_, rfl⟩ : site = site' ∧ s.nextCall = k := by simpa [hself] using hp
        replace hans : (⟨0, 0⟩ : Answer) ∈ s.acqAnswers s.nextCall := hans
        simp [(h.fresh _ le_rfl).2] at hans
      · exact ⟨⟨site', by rw [← hpcs d u hdu]; exact hp⟩, hans⟩
  · by_cases hdu : d = c ∧ u = t
    · obtain ⟨rfl, rfl⟩ := hdu
      simp [hself] at hp
    · rw [hpcs d u hdu] at hp
      exact h.toSend d u site' own' hp
  · by_cases hdu : d = c ∧ u = t
    · obtain ⟨rfl, rfl⟩ := hdu
      obtain ⟨_, rfl⟩ : site = site' ∧ s.nextCall = k := by simpa [hself] using hp
      refine ⟨sh.xid d, update_self _ _ _, fun j q hq hqc => ?_⟩
      exact (hnew j q hq hqc).trans_le hle
    · rw [hpcs d u hdu] at hp
      obtain ⟨x, hx, hxn⟩ := h.waiting d u site' k hp
      have hne : k ≠ s.nextCall := fun hk => by
        rw [hk, (h.fresh _ le_rfl).1] at hx
        cases hx
      exact ⟨x, by rw [hreq k hne]; exact hx, hxn⟩
  · replace hk : s.nextCall + 1 ≤ k := hk
    refine ⟨?_, (h.fresh k (by omega)).2⟩
    rw [hreq k (by omega)]
    exact (h.fresh k (by omega)).1

/-! ## Giving the lock back -/

theorem released_spec (sh : Shared) (s : LockSys) (c : UserId) (t : ThreadId) (b : Bool)
    (lock : ClientLock) :
    Blocked sh s c t (.again, lock) sh (((s.setLock c lock).enqIf c b).setPc c t .idle) := by
  cases b <;> exact {
    srv := rfl
    rel := rfl
    calls := ⟨rfl, rfl, rfl⟩
    xid := fun _ => le_rfl
    item := fun d hd => by simp [LockSys.setPc, LockSys.enqIf, LockSys.setLock, hd]
    itemSelf := by simp [LockSys.setPc, LockSys.enqIf, LockSys.setLock]
    pc := fun d u hdu => setPc_of_ne hdu
    pcSelf := .inr (.inl (setPc_self _ _ _ _)) }

/-- `release`: the token goes to the item if it becomes FREE, and is given
up otherwise. -/
theorem Inv.release (h : Inv sh s) (hpc : s.pc c t = .holding) {b : Bool} (lock : ClientLock) :
    Inv sh (((s.setLock c lock).enqIf c b).setPc c t .idle) := by
  have hb := released_spec sh s c t b lock
  have hx : s.tok (.holder c t) := hpc
  refine h.blocked hb (h.token.move hx (y := .free c) rfl fun z hz => ?_)
  rcases hb.tok hz with ⟨_, hl⟩ | ⟨rfl, _⟩ | ⟨hz, _, hne, _⟩
  · cases hl
  · exact .inl rfl
  · exact .inr ⟨hz, hne⟩

/-- The releaser sends a release for a client that has no token. -/
theorem Inv.releaserDeq (h : Inv sh s) (hidle : ∀ t, ¬ s.holds c t ∧ ¬ s.asking c t)
    (hfree : (s.item c).lock.status ≠ .FREE) : Inv sh (releaserDeq s c) := by
  have hreq : ∀ j, j ≠ s.nextCall → (Rsm.releaserDeq s c).relReqs j = s.relReqs j :=
    fun j hj => update_of_ne hj _ _
  have hself : (Rsm.releaserDeq s c).relReqs s.nextCall = some ⟨c, (s.item c).xid⟩ :=
    update_self _ _ _
  -- only releases of client `c` are new
  have hnewer : ∀ d x, d ≠ c → s.newer d x → (Rsm.releaserDeq s c).newer d x := by
    intro d x hd hn j q hq hqd
    rcases eq_or_ne j s.nextCall with rfl | hne
    · rw [hself] at hq
      cases hq
      exact absurd hqd.symm hd
    · rw [hreq j hne] at hq
      exact hn j q hq hqd
  have howner : ∀ z, s.tok z → z.owner ≠ c := by
    intro z hz hzc
    cases z with
    | free d => exact hfree (hzc ▸ hz)
    | holder d t => exact (hidle t).1 (hzc ▸ hz)
    | answer k d t =>
      obtain ⟨⟨site, hp⟩, _⟩ := hz
      exact (hidle t).2 ⟨site, k, .inr (hzc ▸ hp)⟩
  refine { h with
    token := ?_
    relXid := fun j q hq => ?_
    toSend := fun d t site own hp => ?_
    waiting := fun d t site k hp => ?_
    fresh := fun k hk => h.fresh k (Nat.le_of_succ_le hk) }
  · have hsub : Exclusive (Rsm.releaserDeq s c).tok Tok.owner s.granted :=
      h.token.sub fun z hz => by cases z <;> exact hz
    refine hsub.register fun z hz hg => ?_
    have hz' : s.tok z := by cases z <;> exact hz
    exact ⟨hg.1, hg.2.1, hnewer _ _ (howner z hz') hg.2.2⟩
  · rcases eq_or_ne j s.nextCall with rfl | hne
    · rw [hself] at hq
      cases hq
      exact h.itemXid c
    · rw [hreq j hne] at hq
      exact h.relXid j q hq
  · have hd : d ≠ c := fun hdc => (hidle t).2 ⟨site, own, .inl (hdc ▸ hp)⟩
    obtain ⟨hle, hn⟩ := h.toSend d t site own hp
    exact ⟨hle, hnewer d own hd hn⟩
  · have hd : d ≠ c := fun hdc => (hidle t).2 ⟨site, k, .inr (hdc ▸ hp)⟩
    obtain ⟨x, hx, hn⟩ := h.waiting d t site k hp
    exact ⟨x, hx, hnewer d x hd hn⟩

/-! ## The server -/

/-- A step of the server that leaves the grant alone. -/
theorem Inv.sameGrant {srv : ServerLock UserId Nat} (h : Inv sh s) (hsame : s.srv.sameGrant srv) :
    Inv sh { s with srv := srv } := by
  obtain ⟨hl, hi, hu⟩ := hsame
  refine { h with token := h.token.register fun z _ hg => ?_ }
  exact ⟨hl.trans hg.1, hu.trans hg.2.1, by rw [hi]; exact hg.2.2⟩

theorem Inv.serveAcquire {k : Nat} {q : AcqReq} (h : Inv sh s) (hq : s.acqReqs k = some q) :
    Inv sh (serveAcquire s k q) := by
  have hk : k < s.nextCall := Nat.lt_of_not_le fun hle => by simp [(h.fresh k hle).1] at hq
  have hfresh : ∀ j, s.nextCall ≤ j → (Rsm.serveAcquire s k q).acqReqs j = none ∧
      (Rsm.serveAcquire s k q).acqAnswers j = [] := by
    intro j hj
    refine ⟨(h.fresh j hj).1, ?_⟩
    have hne : j ≠ k := by omega
    show update s.acqAnswers k _ j = []
    rw [update_of_ne hne]
    exact (h.fresh j hj).2
  -- a token is an old one, or the answer to the request if it is an OK
  have htok : ∀ z, (Rsm.serveAcquire s k q).tok z → s.tok z ∨
      ((s.srv.acquire q.id q.xid).1 = ⟨0, 0⟩ ∧ z = .answer k q.id q.thread ∧
        s.newer q.id q.xid) := by
    intro z hz
    cases z with
    | free d => exact .inl hz
    | holder d t => exact .inl hz
    | answer j d t =>
      obtain ⟨⟨site, hp⟩, ha⟩ := hz
      replace ha : (⟨0, 0⟩ : Answer) ∈ update s.acqAnswers k _ j := ha
      replace hp : s.pc d t = .waiting site j := hp
      rcases eq_or_ne j k with rfl | hne
      · rw [update_self] at ha
        rcases List.mem_cons.mp ha with ha | ha
        · obtain ⟨x, hx, hn⟩ := h.waiting d t site j hp
          cases hq.symm.trans hx
          exact .inr ⟨ha.symm, rfl, hn⟩
        · exact .inl ⟨⟨site, hp⟩, ha⟩
      · rw [update_of_ne hne] at ha
        exact .inl ⟨⟨site, hp⟩, ha⟩
  rcases s.srv.acquire_cases q.id q.xid with ⟨hfree, _, hl, hu, hi⟩ | ⟨hno, hsame⟩
  · -- the lock was free, so there was no token
    have hnone : ∀ z, ¬ s.tok z := fun z hz => by
      have := (h.token.held z hz).1
      simp [hfree] at this
    have honly : ∀ z, (Rsm.serveAcquire s k q).tok z →
        z = .answer k q.id q.thread ∧ s.newer q.id q.xid := fun z hz =>
      ((htok z hz).resolve_left (hnone z)).2
    refine { h with token := ⟨fun x y hx hy => ?_, fun z hz => ?_⟩, fresh := hfresh }
    · exact (honly x hx).1.trans (honly y hy).1.symm
    · obtain ⟨rfl, hn⟩ := honly z hz
      refine ⟨hl, hu, ?_⟩
      show s.newer q.id ((s.srv.acquire q.id q.xid).2.lockInfo q.id)
      rw [hi, update_self]
      exact hn
  · obtain ⟨hl, hi, hu⟩ := hsame
    have hsub : Exclusive (Rsm.serveAcquire s k q).tok Tok.owner s.granted :=
      h.token.sub fun z hz => (htok z hz).resolve_right fun hans => hno hans.1
    refine { h with token := hsub.register fun z _ hg => ?_, fresh := hfresh }
    refine ⟨hl.trans hg.1, hu.trans hg.2.1, ?_⟩
    show s.newer _ ((s.srv.acquire q.id q.xid).2.lockInfo _)
    rw [hi]
    exact hg.2.2

/-- A release of a client is older than every grant it could undo, as long
as the right to that grant exists anywhere. -/
theorem Inv.serveRelease {k : Nat} {q : RelReq} {srv : ServerLock UserId Nat} (h : Inv sh s)
    (hq : s.relReqs k = some q) (hs : s.srv.release q.id q.xid = some srv) :
    Inv sh { s with srv := srv, relAnswered := update s.relAnswered k true } := by
  rcases ServerLock.release_cases hs with hsame | ⟨hu, hle, _, _⟩
  · exact { h.sameGrant hsame with }
  · have hnone : ∀ z, ¬ s.tok z := by
      intro z hz
      obtain ⟨_, huser, hn⟩ := h.token.held z hz
      have hzq : q.id = z.owner := hu.symm.trans huser
      have := hn k q hq hzq
      rw [← hzq] at this
      omega
    refine { h with token := ⟨fun x _ hx _ => ?_, fun z hz => ?_⟩ }
    · exact absurd (show s.tok x by cases x <;> exact hx) (hnone x)
    · exact absurd (show s.tok z by cases z <;> exact hz) (hnone z)

/-! ## All steps, all runs -/

/-- A step of a thread in `acquire`, with what it leaves to the others. -/
theorem Inv.blocked_mono (hs : Rsm.blocked sh s c t r = some (sh', s')) (hinv : Inv sh' s') :
    Inv sh' s' ∧ ∀ d, sh.xid d ≤ sh'.xid d :=
  ⟨hinv, (blocked_spec hs).xid⟩

theorem inv_lockStep {e : Event} (h : Inv sh s) (hok : s.ReleasesNothingHeld e)
    (hs : lockStep sh s e = some (sh', s')) : Inv sh' s' ∧ ∀ d, sh.xid d ≤ sh'.xid d := by
  cases e with
  | acquire c t =>
    obtain ⟨_, hs⟩ := Option.ite_none_right_eq_some.mp hs
    exact Inv.blocked_mono hs (h.advance id (switch_advances _) hs)
  | wake c t =>
    simp only [lockStep] at hs
    split at hs
    · exact Inv.blocked_mono hs (h.advance id (loopAgain_waitAcq_advances switch_advances _) hs)
    · exact Inv.blocked_mono hs (h.advance id (loopAgain_waitFree_advances switch_advances _) hs)
    · simp at hs
  | timeout c t =>
    simp only [lockStep] at hs
    split at hs
    · have hadv := loopAgain_waitAcq_advances switch_advances (timedOut (s.item c).lock)
      exact Inv.blocked_mono hs (h.advance (fun hf => hf) hadv hs)
    · simp at hs
  | sendAcq c t =>
    simp only [lockStep] at hs
    split at hs
    · rename_i hpc
      cases hs
      exact ⟨h.sendAcq hpc, fun _ => le_rfl⟩
    · simp at hs
  | acqReturn c t a =>
    simp only [lockStep] at hs
    split at hs
    · rename_i hpc
      split at hs
      · rename_i ha
        exact Inv.blocked_mono hs (h.acqReturn hpc ha hs)
      · simp at hs
    · simp at hs
  | release c t =>
    obtain ⟨hpc, hs⟩ := Option.ite_none_right_eq_some.mp hs
    cases hs
    exact ⟨h.release hpc _, fun _ => le_rfl⟩
  | releaserDeq c =>
    simp only [lockStep] at hs
    split at hs
    · cases hs
      exact ⟨(h.releaserDeq hok.1 hok.2).mono fun _ => le_rfl, fun _ => le_rfl⟩
    · simp at hs
  | releaserReturn c =>
    simp only [lockStep] at hs
    split at hs
    · split at hs
      · cases hs
        have hset : Inv sh (s.setLock c (releaserDone (s.item c).lock)) :=
          h.setLock fun hf => by cases hf
        exact ⟨{ hset.mono fun _ => le_rfl with }, fun _ => le_rfl⟩
      · simp at hs
    · simp at hs
  | revokeHandler c xid =>
    obtain ⟨_, hs⟩ := Option.ite_none_right_eq_some.mp hs
    cases hs
    have herase : Inv sh { s with revokes := s.revokes.erase (c, xid) } := { h with }
    exact ⟨(herase.setLock revokeHandler_free).enqIf c _, fun _ => le_rfl⟩
  | retryHandler c xid =>
    simp only [lockStep] at hs
    split at hs
    · cases hs
      have herase : Inv sh { s with retries := s.retries.erase (c, xid) } := { h with }
      refine ⟨herase.setLock fun hf => ?_, fun _ => le_rfl⟩
      unfold retryHandler at hf
      split at hf <;> exact hf
    · simp at hs
  | srvAcquire k =>
    simp only [lockStep] at hs
    split at hs
    · rename_i hq
      cases hs
      exact ⟨h.serveAcquire hq, fun _ => le_rfl⟩
    · simp at hs
  | srvRelease k =>
    simp only [lockStep] at hs
    split at hs
    · rename_i hq
      split at hs
      · rename_i hrel
        cases hs
        exact ⟨h.serveRelease hq hrel, fun _ => le_rfl⟩
      · simp at hs
    · simp at hs
  | revoker p =>
    simp only [lockStep] at hs
    split at hs
    · rename_i hr
      cases hs
      exact ⟨{ h.sameGrant (ServerLock.revoker_sameGrant hr) with }, fun _ => le_rfl⟩
    · simp at hs
  | retryerDeq p =>
    simp only [lockStep] at hs
    split at hs
    · rename_i hr
      cases hs
      exact ⟨h.sameGrant (ServerLock.retryerDeq_sameGrant hr), fun _ => le_rfl⟩
    · simp at hs
  | retryerTurn =>
    simp only [lockStep] at hs
    split at hs
    · rename_i hr
      cases hs
      exact ⟨{ h.sameGrant (ServerLock.retryerTurn_sameGrant hr) with }, fun _ => le_rfl⟩
    · simp at hs

/-- The invariant of every lock id; a step on one of them only moves the
counters of the others forward. -/
theorem inv_step {s s' : Sys} {e : LockId × Event} (h : ∀ lid, Inv s.sh (s.locks lid))
    (hok : ReleasesNothingHeld s e) (hs : step s e = some s') :
    ∀ lid, Inv s'.sh (s'.locks lid) := by
  unfold step at hs
  split at hs
  · rename_i r hr
    cases hs
    obtain ⟨hinv, hmono⟩ := inv_lockStep (h e.1) hok hr
    intro lid
    rcases eq_or_ne lid e.1 with rfl | hne
    · simpa using hinv
    · simpa [hne] using (h lid).mono hmono
  · simp at hs

/-- **Mutual exclusion of the RSM lock service.** In every run in which the
releaser takes an item off its queue only while its client neither has
the lock nor is asking for it, at most one thread overall holds each
lock, in every state reached. -/
theorem rsm_locks_exclude {s : Sys} (h : Reach step ReleasesNothingHeld Sys.init s)
    (lid : LockId) (c c' : UserId) (t t' : ThreadId)
    (hc : (s.locks lid).holds c t) (hc' : (s.locks lid).holds c' t') : c = c' ∧ t = t' := by
  have hinv : ∀ lid, Inv s.sh (s.locks lid) :=
    h.invariant (fun s => ∀ lid, Inv s.sh (s.locks lid)) (fun _ => inv_init)
      fun _ _ _ hi hok hs => inv_step hi hok hs
  have heq := (hinv lid).token.unique (.holder c t) (.holder c' t') hc hc'
  injection heq with hcc htt
  exact ⟨hcc, htt⟩

def Event.isReleaserDeq : Event → Bool
  | .releaserDeq _ => true
  | _ => false

/-- Only the releaser's step can break the condition. -/
theorem releasesNothingHeld_of_not_releaserDeq (s : Sys) (e : LockId × Event)
    (h : e.2.isReleaserDeq = false) : ReleasesNothingHeld s e := by
  obtain ⟨lid, e⟩ := e
  cases e with
  | releaserDeq c => cases h
  | _ => trivial

def queueRelease : List (LockId × Event) :=
  [(1, .acquire ['a'] 0), (1, .sendAcq ['a'] 0), (1, .srvAcquire 0),
    (1, .acqReturn ['a'] 0 ⟨0, 0⟩), (1, .acquire ['b'] 0), (1, .sendAcq ['b'] 0),
    (1, .srvAcquire 1), (1, .acqReturn ['b'] 0 ⟨0, 1⟩), (1, .revoker true),
    (1, .revokeHandler ['a'] 1), (1, .release ['a'] 0)]

def releaseQueued : Sys :=
  (execIf step (fun _ e => e.2.isReleaserDeq = false) Sys.init queueRelease).getD Sys.init

/-- A handover: the releaser takes the item when "a" has given the lock up
and asks for nothing, and then "b" is the only holder. -/
theorem rsm_locks_handover :
    ∃ s, Reach step ReleasesNothingHeld Sys.init s ∧ (s.locks 1).holds ['b'] 0 ∧
      ∀ c t, (s.locks 1).holds c t → c = ['b'] ∧ t = 0 := by
  have h₀ : execIf step (fun _ e => e.2.isReleaserDeq = false) Sys.init queueRelease
      = some releaseQueued := rfl
  have h₁ : Reach step ReleasesNothingHeld Sys.init releaseQueued :=
    (Reach.init.execIf h₀).mono releasesNothingHeld_of_not_releaserDeq
  have hidle : ReleasesNothingHeld releaseQueued (1, .releaserDeq ['a']) := by
    have hpc : ∀ t, (releaseQueued.locks 1).pc ['a'] t = .idle := by
      intro t
      cases t <;> rfl
    refine ⟨fun t => ⟨fun hh => ?_, ?_⟩, by decide⟩
    · rw [LockSys.holds, hpc] at hh
      cases hh
    · rintro ⟨site, n, hh | hh⟩ <;> rw [hpc] at hh <;> cases hh
  obtain ⟨s₂, h₂, s, hs, hb⟩ : ∃ s₂, step releaseQueued (1, .releaserDeq ['a']) = some s₂ ∧
      ∃ s, execIf step (fun _ e => e.2.isReleaserDeq = false) s₂
        [(1, .srvRelease 2), (1, .releaserReturn ['a']), (1, .timeout ['b'] 0),
          (1, .sendAcq ['b'] 0), (1, .srvAcquire 3), (1, .acqReturn ['b'] 0 ⟨0, 0⟩)] = some s ∧
        (s.locks 1).pc ['b'] 0 = .holding := by
    decide
  have hreach := (h₁.step hidle h₂).trans
    ((Reach.init.execIf hs).mono releasesNothingHeld_of_not_releaserDeq)
  exact ⟨s, hreach, hb, fun c t hc => rsm_locks_exclude hreach 1 c ['b'] t 0 hc hb⟩

/-- A second revoke for a grant that "a" has given back arrives while "a"
asks for the lock again; it queues a release, which goes out with the xid
of the NEW grant. The server gives the lock to "b", and both hold it. -/
theorem stale_revoke_releases_new_grant :
    ∃ s, Reach step (fun _ _ => True) Sys.init s ∧ (s.locks 1).holds ['a'] 0 ∧
      (s.locks 1).holds ['b'] 0 := by
  obtain ⟨s, hs, ha, hb⟩ : ∃ s, Reach step (fun _ _ => True) Sys.init s ∧
      (s.locks 1).pc ['a'] 0 = .holding ∧ (s.locks 1).pc ['b'] 0 = .holding :=
    Run.exists_reach
      [(1, .acquire ['a'] 0), (1, .sendAcq ['a'] 0), (1, .srvAcquire 0),
        (1, .acqReturn ['a'] 0 ⟨0, 0⟩),
        -- "b" asks twice, so the holder is revoked twice
        (1, .acquire ['b'] 0), (1, .sendAcq ['b'] 0), (1, .srvAcquire 1),
        (1, .acqReturn ['b'] 0 ⟨0, 1⟩), (1, .timeout ['b'] 0), (1, .sendAcq ['b'] 0),
        (1, .srvAcquire 2), (1, .acqReturn ['b'] 0 ⟨0, 1⟩), (1, .revoker true),
        (1, .revoker true),
        -- the first revoke: "a" gives the lock back
        (1, .revokeHandler ['a'] 1), (1, .release ['a'] 0), (1, .releaserDeq ['a']),
        (1, .srvRelease 3), (1, .releaserReturn ['a']),
        -- "a" asks again; the second revoke finds status NONE
        (1, .acquire ['a'] 0), (1, .sendAcq ['a'] 0), (1, .revokeHandler ['a'] 1),
        (1, .srvAcquire 4), (1, .acqReturn ['a'] 0 ⟨0, 0⟩), (1, .releaserDeq ['a']),
        (1, .srvRelease 5),
        (1, .timeout ['b'] 0), (1, .sendAcq ['b'] 0), (1, .srvAcquire 6),
        (1, .acqReturn ['b'] 0 ⟨0, 0⟩)]
      (by decide)
  exact ⟨s, hs, ha, hb⟩

end Yfs.Lock.Rsm
