/-
Yfs.Lock.Tenure — how long a client may work on what a lock protects
(lock_client_cache.cc, lock_server_cache.cc).

`DealRelease` gives the lock back in two steps. It drops the mutex and lets the
`lock_release_user` flush the extent (`dorelease`); then it sends the release.
`FlushSys` is the protocol with these steps apart: `flushed` says of which
release calls the first one is done, and the server cannot serve a call before.

A client HAS the lock while a thread of it holds it, while it is cached, and
after that until the flush. This is narrower than the token of `Inv`, which
also lies in replies and in releases on their way. `turn_of_lockStep` says once
what a step does to these tokens; from it, a client that has the lock keeps
having it until its flush (`FlushSys.Ok.has_run`).
-/
import Yfs.Lock.Stranded

namespace Yfs.Lock

structure FlushSys where
  sys : LockSys
  flushed : Nat → Bool

def FlushSys.init : FlushSys := ⟨LockSys.init, fun _ => false⟩

inductive FlushEvent where
  | run (e : Event)
  | dorelease (call : Nat)
  deriving DecidableEq, Repr

def FlushSys.mayRun (s : FlushSys) : Event → Bool
  | .srvRelease k => s.flushed k
  | _ => true

def flushStep (s : FlushSys) : FlushEvent → Option FlushSys
  | .run e =>
    if s.mayRun e then (lockStep s.sys e).map fun sys => { s with sys := sys } else none
  | .dorelease k =>
    match s.sys.relCalls k with
    | .sent _ =>
      if s.flushed k then none else some { s with flushed := Function.update s.flushed k true }
    | _ => none

/-! ## What a step does to the tokens -/

/-- The tokens other than replies, before and after: `x` goes, `y` comes. -/
def Shift (s s' : LockSys) (x y : Option Tok) : Prop :=
  ∀ z, (∀ k c, z ≠ .reply k c) → (s'.tok z ↔ some z = y ∨ (s.tok z ∧ some z ≠ x))

inductive Turn (s s' : LockSys) : Event → Prop
  | stays {e : Event} : Shift s s' none none → Turn s s' e
  | got {e : Event} {c : UserId} {t : ThreadId} :
      s.tok (.finished c) ∨ (∃ k, s.tok (.reply k c)) →
      Shift s s' (some (.finished c)) (some (.holder c t)) → Turn s s' e
  | gave {c : UserId} {t : ThreadId} {y : Tok} :
      s.tok (.holder c t) → y = .finished c ∨ y = .release s.nextCall c →
      Shift s s' (some (.holder c t)) (some y) → Turn s s' (.release c t)
  | revoked {c : UserId} :
      s.tok (.finished c) → Shift s s' (some (.finished c)) (some (.release s.nextCall c)) →
      Turn s s' (.revokeHandler c)
  | served {k : Nat} {c : UserId} :
      s.tok (.release k c) → Shift s s' (some (.release k c)) none → Turn s s' (.srvRelease k)

section Shifts

variable {s s₀ s' : LockSys} {c : UserId} {t : ThreadId} {k : Nat}

/-- Where the three kinds of tokens are read off. -/
theorem Shift.intro {x y : Option Tok}
    (hfin : ∀ d, (s'.item d).isFinished = true ↔
      some (.finished d) = y ∨ ((s.item d).isFinished = true ∧ some (.finished d) ≠ x))
    (hpc : ∀ d u, s'.pc d u = .holding ↔
      some (.holder d u) = y ∨ (s.pc d u = .holding ∧ some (.holder d u) ≠ x))
    (hrel : ∀ j d, s'.relCalls j = .sent d ↔
      some (.release j d) = y ∨ (s.relCalls j = .sent d ∧ some (.release j d) ≠ x)) :
    Shift s s' x y := by
  intro z hz
  cases z with
  | reply k d => exact absurd rfl (hz k d)
  | finished d => exact hfin d
  | holder d u => exact hpc d u
  | release j d => exact hrel j d

/-- A step that touches calls of the acquire kind and messages only. -/
theorem Shift.of_eq (hitem : s'.item = s.item) (hpc : s'.pc = s.pc)
    (hrel : s'.relCalls = s.relCalls) : Shift s s' none none :=
  .intro (by simp [hitem]) (by simp [hpc]) (by simp [hrel])

theorem Shift.setItem {item : ClientLock} (h : item.isFinished = (s.item c).isFinished) :
    Shift s (s.setItem c item) none none := by
  refine .intro (fun d => ?_) (by simp [LockSys.setItem]) (by simp [LockSys.setItem])
  rcases eq_or_ne d c with rfl | hne
  · simp [LockSys.setItem, h]
  · simp [LockSys.setItem, hne]

theorem Shift.setPc {p : Pc} (h : s.pc c t ≠ .holding) (hp : p ≠ .holding) :
    Shift s (s.setPc c t p) none none := by
  refine .intro (by simp [LockSys.setPc]) (fun d u => ?_) (by simp [LockSys.setPc])
  by_cases hne : (c, t) = (d, u)
  · cases hne
    simp [LockSys.setPc, h, hp]
  · simp [setPc_of_ne hne]

theorem Shift.setRel {r : RelCall} (h : ∀ d, s.relCalls k ≠ .sent d) (hr : ∀ d, r ≠ .sent d) :
    Shift s (s.setRel k r) none none := by
  refine .intro (by simp [LockSys.setRel]) (by simp [LockSys.setRel]) fun j d => ?_
  rcases eq_or_ne j k with rfl | hne
  · simp [LockSys.setRel, h, hr]
  · simp [LockSys.setRel, hne]

theorem Shift.new {x y : Option Tok} {z : Tok} (h : Shift s s' x y) (hne : ∀ k c, z ≠ .reply k c)
    (hz : s'.tok z) (hnot : ¬ s.tok z) : some z = y :=
  ((h z hne).mp hz).resolve_right fun hold => hnot hold.1

theorem Shift.trans {x y : Option Tok} (h : Shift s s₀ none none) (h' : Shift s₀ s' x y) :
    Shift s s' x y := by
  intro z hz
  rw [h' z hz, h z hz]
  simp

/-- A thread that blocks without the lock. -/
theorem Shift.blocked {r : Outcome × ClientLock} (hs : s.blocked c t r = some s')
    (hr : r.1 ≠ .locked) (hpc : s.pc c t ≠ .holding)
    (hfin : r.2.isFinished = (s.item c).isFinished) : Shift s s' none none := by
  have hitem := Shift.setItem (s := s) hfin
  rcases blocked_some hs with ⟨site, _, rfl⟩ | ⟨p, hp, rfl⟩
  · exact (hitem.trans (Shift.setPc hpc (by simp))).trans (Shift.of_eq rfl rfl rfl)
  · refine hitem.trans (Shift.setPc hpc ?_)
    rintro rfl
    simp [hr] at hp

/-- A refused or failed call: status is ACQING after it, so the thread does
not take the lock. -/
theorem Shift.refused {site : CallSite} {ret : Int} (hret : ret ≠ 0) (hpc : s.pc c t ≠ .holding)
    (hs : s.blocked c t (resumeSend site (s.item c) ret) = some s') : Shift s s' none none := by
  have hadv := resumeSend_advances site (s.item c) ret
  rw [ClientLock.sendAcqReturn, if_neg hret] at hadv
  rcases hadv with ⟨_, hfree, _⟩ | ⟨hr, _, hfin⟩
  · cases hfree
  · exact Shift.blocked hs hr hpc hfin

/-- A thread that takes the lock. -/
theorem Shift.locked {r : Outcome × ClientLock} (hs : s.blocked c t r = some s')
    (hr : r.1 = .locked) (hfin : r.2.isFinished = false) :
    Shift s s' (some (.finished c)) (some (.holder c t)) := by
  have hs' : s' = (s.setItem c r.2).setPc c t .holding := by
    rcases blocked_some hs with ⟨site, h, _⟩ | ⟨p, hp, rfl⟩
    · simp [hr] at h
    · obtain rfl : p = .holding := by simpa [hr] using hp
      rfl
  subst hs'
  refine .intro (fun d => ?_) (fun d u => ?_) (by simp [LockSys.setItem, LockSys.setPc])
  · rcases eq_or_ne d c with rfl | hne
    · simp [LockSys.setItem, LockSys.setPc, hfin]
    · simp [LockSys.setItem, LockSys.setPc, hne]
  · by_cases hne : (c, t) = (d, u)
    · cases hne
      simp [LockSys.setPc]
    · have hne' : ¬ (d = c ∧ u = t) := fun h => hne (by rw [h.1, h.2])
      simp [setPc_of_ne hne, LockSys.setItem, hne']

/-- `DealRelease` of the holder that leaves the lock with the client. -/
theorem Shift.freed {item : ClientLock} {p : Pc} (hp : p ≠ .holding)
    (hfin : item.isFinished = true) :
    Shift s ((s.setItem c item).setPc c t p) (some (.holder c t)) (some (.finished c)) := by
  refine .intro (fun d => ?_) (fun d u => ?_) (by simp [LockSys.setItem, LockSys.setPc])
  · rcases eq_or_ne d c with rfl | hne
    · simp [LockSys.setItem, LockSys.setPc, hfin]
    · simp [LockSys.setItem, LockSys.setPc, hne]
  · by_cases hne : (c, t) = (d, u)
    · cases hne
      simp [LockSys.setPc, hp]
    · have hne' : d = c → u ≠ t := fun h h' => hne (by rw [h, h'])
      simpa [setPc_of_ne hne, LockSys.setItem] using fun _ => hne'

/-- A release call from where the lock was cached. -/
theorem Shift.callServer {item : ClientLock} (hfresh : s.Fresh) (hfin : item.isFinished = false) :
    Shift s { (s.setItem c item).setRel s.nextCall (.sent c) with nextCall := s.nextCall + 1 }
      (some (.finished c)) (some (.release s.nextCall c)) := by
  have hunused : s.relCalls s.nextCall = .unused := (hfresh _ le_rfl).2
  refine .intro (fun d => ?_) (by simp [LockSys.setItem, LockSys.setRel]) fun j d => ?_
  · rcases eq_or_ne d c with rfl | hne
    · simp [LockSys.setItem, LockSys.setRel, hfin]
    · simp [LockSys.setItem, LockSys.setRel, hne]
  · rcases eq_or_ne j s.nextCall with rfl | hne
    · simp [LockSys.setRel, hunused, eq_comm]
    · simp [LockSys.setItem, LockSys.setRel, hne]

/-- The same from the holder, with whom no other token is. -/
theorem Shift.returned {item : ClientLock} {p : Pc} (hfresh : s.Fresh) (hp : p ≠ .holding)
    (hnot : ¬ s.tok (.finished c)) (hfin : item.isFinished = false) :
    Shift s ({ (s.setItem c item).setRel s.nextCall (.sent c) with
      nextCall := s.nextCall + 1 }.setPc c t p)
      (some (.holder c t)) (some (.release s.nextCall c)) := by
  have hcall := Shift.callServer (c := c) hfresh hfin
  refine .intro (fun d => ?_) (fun d u => ?_) fun j d => ?_
  · rcases eq_or_ne d c with rfl | hne
    · simpa [LockSys.setItem, LockSys.setRel, LockSys.setPc, hfin, LockSys.tok] using hnot
    · simp [LockSys.setItem, LockSys.setRel, LockSys.setPc, hne]
  · by_cases hne : (c, t) = (d, u)
    · cases hne
      simp [LockSys.setPc, hp]
    · have hne' : d = c → u ≠ t := fun h h' => hne (by rw [h, h'])
      simpa [setPc_of_ne hne, LockSys.setItem, LockSys.setRel] using fun _ => hne'
  · simpa [LockSys.tok, LockSys.setPc] using hcall (.release j d) (by simp)

theorem Shift.serveRelease (hk : s.relCalls k = .sent c) :
    Shift s (s.serveRelease k) (some (.release k c)) none := by
  have hset : ∀ r : RelCall, (∀ d, r ≠ .sent d) →
      Shift s (s.setRel k r) (some (.release k c)) none := by
    intro r hr
    refine .intro (by simp [LockSys.setRel]) (by simp [LockSys.setRel]) fun j d => ?_
    rcases eq_or_ne j k with rfl | hne
    · simp [LockSys.setRel, hr, hk, eq_comm]
    · simp [LockSys.setRel, hne]
  rcases serveRelease_cases s k with ⟨_, he⟩ | ⟨user, rest, _, he⟩
  · rw [he]
    exact hset .replied (by simp)
  · rw [he]
    exact hset (.retrying user) (by simp)

end Shifts

/-- Whoever holds the lock has a status that `DealRelease` does not skip. -/
def Armed (s : LockSys) : Prop := ∀ c t, s.pc c t = .holding → (s.item c).status ≠ .NONE

theorem dealRelease_ne_nothing {item : ClientLock} (h : item.status ≠ .NONE) :
    (dealRelease item).1 ≠ .nothing := by
  unfold dealRelease
  rw [if_neg h]
  split <;> simp

section Turns

variable {s s' : LockSys} {e : Event} {c : UserId} {t : ThreadId}

theorem Turn.advance (h : Inv s) {r : Outcome × ClientLock} (hadv : Advances (s.item c) r)
    (hpc : s.pc c t ≠ .holding) (hs : s.blocked c t r = some s') : Turn s s' e := by
  rcases hadv with ⟨hr, hfree, _, hfin⟩ | ⟨hr, _, hfin⟩
  · exact .got (.inl (h.free c hfree)) (Shift.locked hs hr hfin)
  · exact .stays (Shift.blocked hs hr hpc hfin)

theorem turn_of_lockStep (h : Inv s) (harmed : Armed s) (hfresh : s.Fresh)
    (hs : lockStep s e = some s') : Turn s s' e := by
  cases trans_of_lockStep hs with
  | acquire hpc hb => exact .advance h (switch_advances _) (by simp [hpc]) hb
  | wakeAcq hpc hb =>
    exact .advance h (loopAgain_waitAcq_advances switch_advances _) (by simp [hpc]) hb
  | wakeFree hpc hb =>
    exact .advance h (loopAgain_waitFree_advances switch_advances _) (by simp [hpc]) hb
  | @acqReturn c t site k ret _ hpc hk hb =>
    have hshift : Shift s (s.setAcq k .done) none none := Shift.of_eq rfl rfl rfl
    have hnot : s.pc c t ≠ .holding := by simp [hpc]
    by_cases hret : ret = 0
    · subst hret
      rw [resumeSend_ok] at hb
      exact .got (.inr ⟨k, hk⟩) (hshift.trans (Shift.locked hb rfl rfl))
    · exact .stays (hshift.trans (Shift.refused hret hnot hb))
  | acqFails hpc hb => exact .stays (Shift.refused (by omega) (by simp [hpc]) hb)
  | @release c t hold =>
    -- no other token beside the holder's
    have hnot : ¬ s.tok (.finished c) := fun hf => by
      cases h.token.unique (.finished c) (.holder c t) hf hold
    unfold LockSys.sendRelease
    rcases dealRelease_cases (s.item c) with ⟨ha, _⟩ | ⟨ha, hfin⟩ | ⟨ha, _, hfin⟩
    · exact absurd ha (dealRelease_ne_nothing (harmed c t hold))
    · simp only [ha]
      exact .gave hold (.inl rfl) (Shift.freed (by simp) hfin)
    · simp only [ha]
      exact .gave hold (.inr rfl) (Shift.returned hfresh (by simp) hnot hfin)
  | relReturn hpc hk =>
    exact .stays ((Shift.setRel (by simp [hk]) (by simp)).trans
      (Shift.setPc (by simp [LockSys.setRel, hpc]) (by simp)))
  | @revokeHandler c hmem =>
    unfold LockSys.sendRelease
    rcases revokeHandler_cases (s.item c) with ⟨ha, _, hfin⟩ | ⟨ha, hcached, _, hfin⟩
    · simp only [ha]
      exact .stays (Shift.trans (Shift.of_eq rfl rfl rfl) (Shift.setItem hfin))
    · simp only [ha]
      exact .revoked hcached
        (Shift.trans (Shift.of_eq rfl rfl rfl) (Shift.callServer hfresh hfin))
  | retryHandler hmem => exact .stays (Shift.trans (Shift.of_eq rfl rfl rfl) (Shift.setItem rfl))
  | srvAcquire hk hb =>
    rcases serveAcquire_some hb with ⟨_, rfl⟩ | ⟨_, rfl⟩
    · exact .stays (Shift.of_eq rfl rfl rfl)
    · exact .stays (Shift.of_eq rfl rfl rfl)
  | srvRevoke hk => exact .stays (Shift.of_eq rfl rfl rfl)
  | srvRelease hk => exact .served hk (Shift.serveRelease hk)
  | srvRetried hk =>
    exact .stays ((Shift.setRel (by simp [hk]) (by simp)).trans (Shift.of_eq rfl rfl rfl))

/-! The holder stays armed: NONE is set by `DealRelease` only, with nobody
holding the lock any more. -/

theorem Armed.setItem (h : Armed s) {item : ClientLock}
    (hitem : ∀ t, s.pc c t = .holding → item.status ≠ .NONE) : Armed (s.setItem c item) := by
  intro d u hd
  rcases eq_or_ne d c with rfl | hne
  · simpa [LockSys.setItem] using hitem u hd
  · simpa [LockSys.setItem, hne] using h d u hd

theorem Armed.setPc (h : Armed s) {p : Pc} (hp : p = .holding → (s.item c).status ≠ .NONE) :
    Armed (s.setPc c t p) := by
  intro d u hd
  by_cases hne : (c, t) = (d, u)
  · cases hne
    exact hp (by simpa [LockSys.setPc] using hd)
  · rw [setPc_of_ne hne] at hd
    exact h d u hd

theorem Armed.blocked (h : Armed s) {r : Outcome × ClientLock} (hs : s.blocked c t r = some s')
    (hst : r.2.status ≠ .NONE ∨ r.1 ≠ .locked ∧ r.2.status = (s.item c).status) : Armed s' := by
  have hitem : Armed (s.setItem c r.2) := by
    refine h.setItem fun u hu => ?_
    rcases hst with hst | ⟨_, hst⟩
    · exact hst
    · rw [hst]
      exact h c u hu
  rcases blocked_some hs with ⟨site, _, rfl⟩ | ⟨p, hp, rfl⟩
  · exact hitem.setPc (p := .sending site s.nextCall) (by simp)
  · refine hitem.setPc ?_
    rintro rfl
    rcases hst with hst | ⟨hr, _⟩
    · simpa [LockSys.setItem] using hst
    · simp [hr] at hp

theorem Armed.advance (h : Armed s) {r : Outcome × ClientLock} (hadv : Advances (s.item c) r)
    (hs : s.blocked c t r = some s') : Armed s' := by
  rcases hadv with ⟨_, _, hst, _⟩ | ⟨hr, hst, _⟩
  · exact h.blocked hs (.inl (by simp [hst]))
  · exact h.blocked hs (.inr ⟨hr, hst⟩)

/-- After `SendAcqToSvr` status is FREE or ACQING, and LOCK if it was FREE. -/
theorem Armed.resumeSend (h : Armed s) {site : CallSite} {ret : Int}
    (hs : s.blocked c t (resumeSend site (s.item c) ret) = some s') : Armed s' := by
  refine h.blocked hs (.inl ?_)
  rcases resumeSend_advances site (s.item c) ret with ⟨_, _, hst, _⟩ | ⟨_, hst, _⟩
  · simp [hst]
  · rw [hst, ClientLock.sendAcqReturn]
    split <;> simp

theorem armed_step (h : Inv s) (harmed : Armed s) (hs : lockStep s e = some s') : Armed s' := by
  cases trans_of_lockStep hs with
  | acquire hpc hb => exact harmed.advance (switch_advances _) hb
  | wakeAcq hpc hb => exact harmed.advance (loopAgain_waitAcq_advances switch_advances _) hb
  | wakeFree hpc hb => exact harmed.advance (loopAgain_waitFree_advances switch_advances _) hb
  | @acqReturn c t site k ret _ hpc hk hb =>
    exact Armed.resumeSend (s := s.setAcq k .done) harmed hb
  | acqFails hpc hb => exact harmed.resumeSend hb
  | @release c t hold =>
    intro d u hd
    by_cases hne : (c, t) = (d, u)
    · cases hne
      simp [LockSys.setPc] at hd
      split at hd <;> simp at hd
    · rw [setPc_of_ne hne, sendRelease_pc] at hd
      cases h.token.unique (.holder d u) (.holder c t) hd hold
      exact absurd rfl hne
  | relReturn hpc hk => exact Armed.setPc (s := s.setRel _ .done) harmed (by simp)
  | @revokeHandler c hmem =>
    unfold LockSys.sendRelease
    rcases revokeHandler_cases (s.item c) with ⟨ha, hst, _⟩ | ⟨ha, hcached, _, _⟩
    · simp only [ha]
      exact Armed.setItem harmed fun u hu => hst ▸ harmed c u hu
    · simp only [ha]
      refine Armed.setItem harmed fun u hu => ?_
      cases h.token.unique (.finished c) (.holder c u) hcached hu
  | @retryHandler c hmem => exact Armed.setItem harmed (harmed c)
  | srvAcquire hk hb =>
    rcases serveAcquire_some hb with ⟨_, rfl⟩ | ⟨_, rfl⟩
    · exact harmed
    · exact harmed
  | srvRevoke hk => exact harmed
  | @srvRelease k id hk =>
    rcases serveRelease_cases s k with ⟨_, he⟩ | ⟨user, rest, _, he⟩
    · rw [he]
      exact harmed
    · rw [he]
      exact harmed
  | srvRetried hk => exact harmed

theorem setRel_used {j k : Nat} {r : RelCall} (hr : r ≠ .unused) (hk : s.relCalls k ≠ .unused) :
    (s.setRel j r).relCalls k ≠ .unused := by
  rcases eq_or_ne k j with rfl | hne
  · simpa [LockSys.setRel] using hr
  · simpa [LockSys.setRel, hne] using hk

theorem sendRelease_used {k : Nat} (r : ReleaseAct × ClientLock) (hk : s.relCalls k ≠ .unused) :
    (s.sendRelease c r).relCalls k ≠ .unused := by
  unfold LockSys.sendRelease
  split
  · exact setRel_used (s := s.setItem c r.2) (by simp) hk
  · exact hk
  · exact hk

/-- A release call that was made is never unmade. -/
theorem lockStep_used {k : Nat} (hk : s.relCalls k ≠ .unused) (hs : lockStep s e = some s') :
    s'.relCalls k ≠ .unused := by
  have hblocked : ∀ {x : LockSys} {d : UserId} {u : ThreadId} {r : Outcome × ClientLock},
      x.relCalls = s.relCalls → x.blocked d u r = some s' → s'.relCalls k ≠ .unused := by
    intro x d u r heq hb
    rcases blocked_some hb with ⟨site, _, rfl⟩ | ⟨p, _, rfl⟩
    · simpa [LockSys.setPc, LockSys.setItem, LockSys.setAcq, heq] using hk
    · simpa [LockSys.setPc, LockSys.setItem, heq] using hk
  cases trans_of_lockStep hs with
  | acquire hpc hb | wakeAcq hpc hb | wakeFree hpc hb => exact hblocked rfl hb
  | @acqReturn _ _ _ j _ _ hpc hk' hb => exact hblocked (x := s.setAcq j .done) rfl hb
  | acqFails hpc hb => exact hblocked rfl hb
  | release hold => exact sendRelease_used _ hk
  | relReturn hpc hk' => exact setRel_used (by simp) hk
  | @revokeHandler c hmem =>
    exact sendRelease_used (s := { s with revokes := s.revokes.erase c }) _ hk
  | retryHandler hmem => exact hk
  | srvAcquire hk' hb =>
    rcases serveAcquire_some hb with ⟨_, rfl⟩ | ⟨_, rfl⟩
    · exact hk
    · exact hk
  | srvRevoke hk' => exact hk
  | @srvRelease j id hk' =>
    rcases serveRelease_cases s j with ⟨_, he⟩ | ⟨user, rest, _, he⟩
    · rw [he]
      exact setRel_used (by simp) hk
    · rw [he]
      exact setRel_used (by simp) hk
  | srvRetried hk' => exact setRel_used (by simp) hk

end Turns

/-! ## Where a thread goes -/

section Own

variable {s s' : LockSys} {e : Event} {c : UserId} {t : ThreadId}

theorem blocked_own {r : Outcome × ClientLock} (hs : s.blocked c t r = some s') :
    (s'.pc c t).inAcquire = true ∨ s'.pc c t = .holding := by
  rcases blocked_some hs with ⟨site, _, rfl⟩ | ⟨p, hp, rfl⟩
  · left
    simp [LockSys.setAcq, LockSys.setPc, Pc.inAcquire]
  · rcases hp with ⟨_, rfl⟩ | ⟨_, rfl⟩ | ⟨_, rfl⟩
    · left
      simp [LockSys.setPc, Pc.inAcquire]
    · left
      simp [LockSys.setPc, Pc.inAcquire]
    · right
      simp [LockSys.setPc]

/-- A thread goes into `acquire`, or on in it, until it holds the lock; and the
holder goes into `release`, or on in it, until it is out. -/
theorem lockStep_own (hs : lockStep s e = some s') (he : e.thread = some (c, t)) :
    ((e = .acquire c t ∧ s.pc c t = .idle ∨ (s.pc c t).inAcquire = true) ∧
      ((s'.pc c t).inAcquire = true ∨ s'.pc c t = .holding)) ∨
    ((e = .release c t ∧ s.pc c t = .holding ∨ ∃ k, s.pc c t = .releasing k) ∧
      (s'.pc c t = .idle ∨ ∃ k, s'.pc c t = .releasing k)) := by
  cases trans_of_lockStep hs with
  | acquire hpc hb =>
    cases he
    exact .inl ⟨.inl ⟨rfl, hpc⟩, blocked_own hb⟩
  | wakeAcq hpc hb =>
    cases he
    exact .inl ⟨.inr (by simp [hpc, Pc.inAcquire]), blocked_own hb⟩
  | wakeFree hpc hb =>
    cases he
    exact .inl ⟨.inr (by simp [hpc, Pc.inAcquire]), blocked_own hb⟩
  | acqReturn hpc hk hb =>
    cases he
    exact .inl ⟨.inr (by simp [hpc, Pc.inAcquire]), blocked_own hb⟩
  | acqFails hpc hb =>
    cases he
    exact .inl ⟨.inr (by simp [hpc, Pc.inAcquire]), blocked_own hb⟩
  | release hold =>
    cases he
    refine .inr ⟨.inl ⟨rfl, hold⟩, ?_⟩
    simp only [LockSys.setPc, Function.update_self]
    split
    · exact .inr ⟨_, rfl⟩
    · exact .inl rfl
  | @relReturn _ _ k hpc hk =>
    cases he
    refine .inr ⟨.inr ⟨k, hpc⟩, .inl ?_⟩
    simp [LockSys.setPc]
  | revokeHandler hmem | retryHandler hmem | srvAcquire hk hb | srvRevoke hk | srvRelease hk
  | srvRetried hk => cases he

end Own

/-! ## Who has the lock -/

def Tok.here (flushed : Nat → Bool) : Tok → Prop
  | .reply _ _ => False
  | .finished _ => True
  | .holder _ _ => True
  | .release k _ => flushed k = false

def Tok.left (flushed : Nat → Bool) : Tok → Prop
  | .reply _ _ => False
  | .finished _ => True
  | .holder _ _ => False
  | .release k _ => flushed k = false

namespace FlushSys

def has (s : FlushSys) (c : UserId) : Prop :=
  ∃ z, s.sys.tok z ∧ z.here s.flushed ∧ z.owner = c

def left (s : FlushSys) (c : UserId) : Prop :=
  ∃ z, s.sys.tok z ∧ z.left s.flushed ∧ z.owner = c

structure Ok (s : FlushSys) : Prop where
  inv : Inv s.sys
  armed : Armed s.sys
  fresh : s.sys.Fresh
  used : ∀ k, s.flushed k = true → s.sys.relCalls k ≠ .unused

theorem ok_init : FlushSys.init.Ok where
  inv := inv_init
  armed := by simp [Armed, FlushSys.init, LockSys.init]
  fresh := by simp [LockSys.Fresh, FlushSys.init, LockSys.init]
  used := by simp [FlushSys.init]

variable {s s' : FlushSys} {e : Event} {c d : UserId} {t : ThreadId} {k : Nat}

theorem run_iff : flushStep s (.run e) = some s' ↔
    s.mayRun e = true ∧ lockStep s.sys e = some s'.sys ∧ s'.flushed = s.flushed := by
  obtain ⟨sys', flushed'⟩ := s'
  simp only [flushStep]
  split
  · rename_i hmay
    simp only [Option.map_eq_some_iff, FlushSys.mk.injEq]
    constructor
    · rintro ⟨sys, hl, rfl, rfl⟩
      exact ⟨hmay, hl, rfl⟩
    · rintro ⟨_, hl, rfl⟩
      exact ⟨sys', hl, rfl, rfl⟩
  · rename_i hmay
    simp [hmay]

theorem dorelease_iff : flushStep s (.dorelease k) = some s' ↔
    (∃ c, s.sys.relCalls k = .sent c) ∧ s.flushed k = false ∧
      s' = { s with flushed := Function.update s.flushed k true } := by
  simp only [flushStep]
  split
  · rename_i c hk
    by_cases hf : s.flushed k = true
    · simp [hf]
    · simp [hf, hk, eq_comm]
  · rename_i hk
    simpa using fun c hc => (hk c hc).elim

theorem Ok.step {e : FlushEvent} (h : s.Ok) (hs : flushStep s e = some s') : s'.Ok := by
  cases e with
  | run e =>
    obtain ⟨_, hl, hfl⟩ := run_iff.mp hs
    exact
      { inv := inv_step h.inv hl
        armed := armed_step h.inv h.armed hl
        fresh := fresh_step h.fresh hl
        used := fun k hk => lockStep_used (h.used k (hfl ▸ hk)) hl }
  | dorelease k =>
    obtain ⟨⟨c, hc⟩, _, rfl⟩ := dorelease_iff.mp hs
    refine { inv := h.inv, armed := h.armed, fresh := h.fresh, used := fun j hj => ?_ }
    rcases eq_or_ne j k with rfl | hne
    · simp [hc]
    · exact h.used j (by simpa [hne] using hj)

theorem Ok.flushed_nextCall (h : s.Ok) : s.flushed s.sys.nextCall = false := by
  by_contra hf
  exact h.used _ (by simpa using hf) (h.fresh _ le_rfl).2

theorem has_of_holding (h : s.sys.pc c t = .holding) : s.has c := ⟨.holder c t, h, trivial, rfl⟩

theorem left.has (h : s.left c) : s.has c := by
  obtain ⟨z, hz, hleft, hown⟩ := h
  refine ⟨z, hz, ?_, hown⟩
  cases z with
  | finished d => exact hleft
  | release k d => exact hleft
  | reply k d => exact hleft.elim
  | holder d t => exact hleft.elim

theorem Ok.has_unique (h : s.Ok) (hc : s.has c) (hd : s.has d) : c = d := by
  obtain ⟨z, hz, _, rfl⟩ := hc
  obtain ⟨w, hw, _, rfl⟩ := hd
  rw [h.inv.token.unique z w hz hw]

theorem here_ne_reply {z : Tok} {f : Nat → Bool} (h : z.here f) (k : Nat) (c : UserId) :
    z ≠ .reply k c := by
  rintro rfl
  exact h

/-- Whoever has the lock still has it after any step of the protocol. -/
theorem Ok.has_run (h : s.Ok) (hs : flushStep s (.run e) = some s') (hc : s.has c) :
    s'.has c := by
  obtain ⟨hmay, hl, hfl⟩ := run_iff.mp hs
  obtain ⟨z, hz, hhere, rfl⟩ := hc
  have hne := here_ne_reply hhere
  have hnew : ∀ c, (Tok.release s.sys.nextCall c).here s'.flushed := by
    intro c
    rw [hfl]
    exact h.flushed_nextCall
  cases turn_of_lockStep h.inv h.armed h.fresh hl with
  | stays hshift => exact ⟨z, (hshift z hne).mpr (.inr ⟨hz, by simp⟩), hfl ▸ hhere, rfl⟩
  | @got _ d t hx hshift =>
    have hy := (hshift (.holder d t) (by simp)).mpr (.inl rfl)
    rcases hx with hx | ⟨k, hx⟩
    · obtain rfl := h.inv.token.unique z _ hz hx
      exact ⟨.holder d t, hy, trivial, rfl⟩
    · exact absurd (h.inv.token.unique z _ hz hx) (hne k d)
  | @gave d t y hx hy hshift =>
    obtain rfl := h.inv.token.unique z _ hz hx
    rcases hy with rfl | rfl
    · exact ⟨_, (hshift _ (by simp)).mpr (.inl rfl), trivial, rfl⟩
    · exact ⟨_, (hshift _ (by simp)).mpr (.inl rfl), hnew _, rfl⟩
  | @revoked d hx hshift =>
    obtain rfl := h.inv.token.unique z _ hz hx
    exact ⟨_, (hshift _ (by simp)).mpr (.inl rfl), hnew _, rfl⟩
  | @served k d hx hshift =>
    -- the call is served after its flush
    obtain rfl := h.inv.token.unique z _ hz hx
    have hflushed : s.flushed k = true := hmay
    have hnot : s.flushed k = false := hhere
    simp [hflushed] at hnot

/-- What is left behind with a client was left there by a thread that held it. -/
theorem Ok.left_of_run (h : s.Ok) (hs : flushStep s (.run e) = some s') (hc : s'.left c) :
    s.left c ∨ ∃ t, e = .release c t ∧ s.sys.pc c t = .holding := by
  obtain ⟨_, hl, hfl⟩ := run_iff.mp hs
  obtain ⟨z, hz, hleft, rfl⟩ := hc
  have hne : ∀ k c, z ≠ .reply k c := by
    rintro k c rfl
    exact hleft
  rw [hfl] at hleft
  by_cases hold : s.sys.tok z
  · exact .inl ⟨z, hold, hleft, rfl⟩
  cases turn_of_lockStep h.inv h.armed h.fresh hl with
  | stays hshift => cases hshift.new hne hz hold
  | got hx hshift =>
    cases hshift.new hne hz hold
    exact hleft.elim
  | @gave d t y hx hy hshift =>
    cases hshift.new hne hz hold
    rcases hy with rfl | rfl
    · exact .inr ⟨t, rfl, hx⟩
    · exact .inr ⟨t, rfl, hx⟩
  | @revoked d hx hshift =>
    cases hshift.new hne hz hold
    exact .inl ⟨.finished d, hx, trivial, rfl⟩
  | served hx hshift => cases hshift.new hne hz hold

/-- A release call on its way is one that was, or a new one. -/
theorem Ok.sent_of_run (h : s.Ok) (hs : flushStep s (.run e) = some s')
    (hk : s'.sys.relCalls k = .sent c) :
    s.sys.relCalls k = .sent c ∨ s.sys.relCalls k = .unused := by
  obtain ⟨_, hl, _⟩ := run_iff.mp hs
  by_cases hold : s.sys.tok (.release k c)
  · exact .inl hold
  right
  have hne : ∀ j d, Tok.release k c ≠ .reply j d := by simp
  have hunused : s.sys.relCalls s.sys.nextCall = .unused := (h.fresh _ le_rfl).2
  cases turn_of_lockStep h.inv h.armed h.fresh hl with
  | stays hshift | got hx hshift => cases hshift.new hne hk hold
  | gave hx hy hshift =>
    cases hshift.new hne hk hold
    rcases hy with hy | hy
    · cases hy
    · cases hy
      exact hunused
  | revoked hx hshift =>
    cases hshift.new hne hk hold
    exact hunused
  | served hx hshift => cases hshift.new hne hk hold

/-- A flush is by a client that was left with the lock, and then nobody has it. -/
theorem Ok.dorelease (h : s.Ok) (hs : flushStep s (.dorelease k) = some s')
    (hk : s.sys.relCalls k = .sent c) : s.left c ∧ ∀ d, ¬ s'.has d := by
  obtain ⟨_, hnot, rfl⟩ := dorelease_iff.mp hs
  refine ⟨⟨.release k c, hk, hnot, rfl⟩, ?_⟩
  rintro d ⟨z, hz, hhere, _⟩
  obtain rfl := h.inv.token.unique z (.release k c) hz hk
  simp [Tok.here] at hhere

end FlushSys

end Yfs.Lock
