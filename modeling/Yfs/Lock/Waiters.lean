/-
Yfs.Lock.Waiters — the condition variables of the caching lock protocol.

`LockSys` lets a waiting thread wake up at any time, which is what mutual
exclusion has to withstand. Whether a waiter can be left behind depends on
who is woken, so `WaitSys` adds the threads blocked on `wait_acq_` and on
`wait_free_`, one set per client:

* `pthread_cond_wait` puts the thread in; it comes out by a signal, by a
  broadcast, or spuriously when it is woken for nothing.
* `pthread_cond_signal` (`retry_handler`) takes out one of the blocked
  threads, whichever, and does nothing if there is none.
* `pthread_cond_broadcast` (the end of `DealRelease`) takes out all. In a
  `DealRelease` that calls the server the end comes after the call, and a
  `revoke_handler` may be the one that makes it, so the calls of the
  handlers are kept too.

A thread whose pc says that it waits but which is in neither set has been
woken and is about to run (`runnable`).
-/
import Yfs.Lock.Mutex

namespace Yfs.Lock

open Run Function

structure WaitSys where
  sys : LockSys
  /-- The threads blocked on `wait_acq_`. -/
  waitAcq : UserId → Finset ThreadId
  /-- The threads blocked on `wait_free_`. -/
  waitFree : UserId → Finset ThreadId
  /-- The release calls that a `revoke_handler` of the client is in. -/
  handlers : UserId → List Nat

def WaitSys.init : WaitSys :=
  { sys := LockSys.init
    waitAcq := fun _ => ∅
    waitFree := fun _ => ∅
    handlers := fun _ => [] }

inductive WaitEvent where
  | run (e : Event)
  | retryHandler (c : UserId) (acq free : Option ThreadId)
  | handlerReturn (c : UserId) (call : Nat)
  deriving DecidableEq, Repr

/-! ## The steps -/

def signal (blocked : Finset ThreadId) : Option ThreadId → Option (Finset ThreadId)
  | some t => if t ∈ blocked then some (blocked.erase t) else none
  | none => if blocked = ∅ then some ∅ else none

def place (sleeps : Bool) (t : ThreadId) (blocked : Finset ThreadId) : Finset ThreadId :=
  if sleeps then insert t blocked else blocked.erase t

theorem mem_place {sleeps : Bool} {t u : ThreadId} {blocked : Finset ThreadId} :
    u ∈ place sleeps t blocked ↔ (u = t ∧ sleeps = true) ∨ (u ≠ t ∧ u ∈ blocked) := by
  unfold place
  rcases eq_or_ne u t with rfl | hne
  · cases sleeps <;> simp
  · cases sleeps <;> simp [hne]

/-- A signal finds nobody, or wakes one of those it finds. -/
theorem signal_cases {blocked rest : Finset ThreadId} {woken : Option ThreadId}
    (h : signal blocked woken = some rest) :
    rest ⊆ blocked ∧ (blocked = ∅ ∨ ∃ t ∈ blocked, t ∉ rest) := by
  cases woken with
  | none =>
    obtain ⟨hempty, rfl⟩ := of_guard h
    exact ⟨Finset.empty_subset _, .inl hempty⟩
  | some t =>
    obtain ⟨hmem, rfl⟩ := of_guard h
    exact ⟨Finset.erase_subset _ _, .inr ⟨t, hmem, Finset.notMem_erase _ _⟩⟩

def WaitSys.park (s : WaitSys) (c : UserId) (t : ThreadId) : WaitSys :=
  { s with
    waitAcq := update s.waitAcq c (place (s.sys.pc c t = .waitAcq) t (s.waitAcq c))
    waitFree := update s.waitFree c (place (s.sys.pc c t = .waitFree) t (s.waitFree c)) }

def WaitSys.broadcast (s : WaitSys) (c : UserId) : WaitSys :=
  { s with
    waitAcq := update s.waitAcq c ∅
    waitFree := update s.waitFree c ∅ }

/-- What a step of the protocol does to the condition variables; `sys` is
the state after it. -/
def WaitSys.after (s : WaitSys) (sys : LockSys) : Event → Option WaitSys
  | .acquire c t => some ({ s with sys := sys }.park c t)
  | .wake c t => some ({ s with sys := sys }.park c t)
  | .acqReturn c t => some ({ s with sys := sys }.park c t)
  | .acqFails c t _ => some ({ s with sys := sys }.park c t)
  | .release c _ =>
    match (dealRelease (s.sys.item c)).1 with
    | .freed => some ({ s with sys := sys }.broadcast c)
    | .nothing => some { s with sys := sys }
    | .callServer => some { s with sys := sys }
  | .relReturn c _ => some ({ s with sys := sys }.broadcast c)
  | .revokeHandler c =>
    match (revokeHandler (s.sys.item c)).1 with
    | .freed => some ({ s with sys := sys }.broadcast c)
    | .nothing => some { s with sys := sys }
    | .callServer =>
      some { s with
        sys := sys
        handlers := update s.handlers c (s.sys.nextCall :: s.handlers c) }
  -- it has an event of its own, with the threads it signals
  | .retryHandler _ => none
  | .srvAcquire _ => some { s with sys := sys }
  | .srvRevoke _ => some { s with sys := sys }
  | .srvRelease _ => some { s with sys := sys }
  | .srvRetried _ => some { s with sys := sys }

def waitStep (s : WaitSys) : WaitEvent → Option WaitSys
  | .run e => (lockStep s.sys e).bind fun sys => s.after sys e
  | .retryHandler c acq free =>
    (lockStep s.sys (.retryHandler c)).bind fun sys =>
      (signal (s.waitAcq c) acq).bind fun acqs =>
        (signal (s.waitFree c) free).map fun frees =>
          { s with
            sys := sys
            waitAcq := update s.waitAcq c acqs
            waitFree := update s.waitFree c frees }
  | .handlerReturn c k =>
    if k ∈ s.handlers c ∧ s.sys.relCalls k = .replied then
      some ({ s with
        sys := s.sys.setRel k .done
        handlers := update s.handlers c ((s.handlers c).filter (· ≠ k)) }.broadcast c)
    else none

def waitSysStep : (LockId → WaitSys) → LockId × WaitEvent → Option (LockId → WaitSys) :=
  stepAt waitStep

def waitSysInit : LockId → WaitSys := fun _ => WaitSys.init

/-! ## Calls on their way -/

def AcqCall.inFlight : AcqCall → Bool
  | .unused => false
  | .sent _ => true
  | .revoking _ => true
  | .replied _ _ => true
  | .done => false

def RelCall.inFlight : RelCall → Bool
  | .unused => false
  | .sent _ => true
  | .retrying _ => true
  | .replied => true
  | .done => false

/-- No message in flight: no call without its reply consumed, no revoke
and no retry on its way. -/
structure LockSys.Silent (s : LockSys) : Prop where
  acq : ∀ k, (s.acqCalls k).inFlight = false
  rel : ∀ k, (s.relCalls k).inFlight = false
  revokes : s.revokes = []
  retries : s.retries = []

def WaitSys.runnable (s : WaitSys) (c : UserId) (t : ThreadId) : Prop :=
  (s.sys.pc c t = .waitAcq ∧ t ∉ s.waitAcq c) ∨ (s.sys.pc c t = .waitFree ∧ t ∉ s.waitFree c)

/-- Nothing is on its way, nobody holds the lock and nobody can take a
step for it. -/
structure WaitSys.Quiet (s : WaitSys) : Prop where
  silent : s.sys.Silent
  unheld : ∀ c t, ¬ s.sys.holds c t
  stopped : ∀ c t, ¬ s.runnable c t

def Pc.inAcquire : Pc → Bool
  | .idle => false
  | .sending _ _ => true
  | .waitAcq => true
  | .waitFree => true
  | .holding => false
  | .releasing _ => false

/-! ## The condition on runs -/

/-- A thread in `acquire` that finds the item like this calls the server. -/
def ClientLock.asks (item : ClientLock) : Prop :=
  item.status = .NONE ∨ (item.status = .ACQING ∧ item.isRetried = true)

instance (item : ClientLock) : Decidable item.asks :=
  inferInstanceAs (Decidable (_ ∨ (_ ∧ _)))

def AcqCall.asker : AcqCall → Option UserId
  | .unused => none
  | .sent id => some id
  | .revoking id => some id
  | .replied id _ => some id
  | .done => none

def LockSys.asking (s : LockSys) (c : UserId) : Prop :=
  ∃ k < s.nextCall, (s.acqCalls k).asker = some c

instance (s : LockSys) (c : UserId) : Decidable (s.asking c) :=
  inferInstanceAs (Decidable (∃ k < s.nextCall, _))

/-- No acquire call fails, and no thread calls `acquire` at the server
while another thread of its client is inside such a call. -/
def SoleCaller (s : WaitSys) : WaitEvent → Prop
  | .run (.acquire c _) => (s.sys.item c).asks → ¬ s.sys.asking c
  | .run (.wake c _) => (s.sys.item c).asks → ¬ s.sys.asking c
  | .run (.acqFails _ _ _) => False
  | _ => True

instance (s : WaitSys) (e : WaitEvent) : Decidable (SoleCaller s e) := by
  unfold SoleCaller
  split <;> infer_instance

end Yfs.Lock
