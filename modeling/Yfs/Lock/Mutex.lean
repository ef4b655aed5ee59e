/-
Yfs.Lock.Mutex — the caching lock protocol: any number of
`lock_client_cache` clients with any number of threads, and one
`lock_server_cache`.

Every handler touches the entry of ONE lock id, on the client and on the
server, so the system is a family of independent systems, one per lock id
(`Run.stepAt`), and `LockSys` is one of them.

An RPC goes through a life of its own: `sent`, executed by the server at
most once, `replied`, and consumed by the thread that waits for it. Every
stage may last arbitrarily long, so messages are delayed and reordered
freely; a call may also fail at the client at any time while the server
still executes it later. A waiting thread may be woken at any time.

The right to the lock is a token (`Tok`): an OK reply on its way, a
client with `is_finished`, a thread between `acquire` and `release`, or a
release on its way. `Inv` says that there is at most one and that the
server is locked in the name of its client; status plays no part in it
beyond "FREE only with `is_finished`", which is why a late RETRY that
overwrites status does no harm.
-/
import Yfs.Lib.Run
import Yfs.Lib.Exclusive
import Yfs.Lib.Words
import Yfs.Lock.ServerCache

namespace Yfs.Lock

open Run Function

abbrev LockId := Nat
abbrev ThreadId := Nat

inductive Pc where
  | idle
  | sending (site : CallSite) (call : Nat)
  | waitAcq
  | waitFree
  | holding
  | releasing (call : Nat)
  deriving DecidableEq, Repr

/-- An acquire RPC. In `revoking` the server has queued the caller and is
about to revoke the holder. -/
inductive AcqCall where
  | unused
  | sent (id : UserId)
  | revoking (id : UserId)
  | replied (id : UserId) (ret : Int)
  | done
  deriving DecidableEq, Repr

/-- A release RPC. In `retrying` the server has freed the lock and sent a
retry to `user`. -/
inductive RelCall where
  | unused
  | sent (id : UserId)
  | retrying (user : UserId)
  | replied
  | done
  deriving DecidableEq, Repr

structure LockSys where
  item : UserId → ClientLock
  pc : UserId → ThreadId → Pc
  srv : ServerLock
  acqCalls : Nat → AcqCall
  relCalls : Nat → RelCall
  nextCall : Nat
  revokes : List UserId
  retries : List UserId

def LockSys.init : LockSys :=
  { item := fun _ => ClientLock.new
    pc := fun _ _ => .idle
    srv := ServerLock.new
    acqCalls := fun _ => .unused
    relCalls := fun _ => .unused
    nextCall := 0
    revokes := []
    retries := [] }

inductive Event where
  | acquire (c : UserId) (t : ThreadId)
  | wake (c : UserId) (t : ThreadId)
  | acqReturn (c : UserId) (t : ThreadId)
  | acqFails (c : UserId) (t : ThreadId) (err : Nat)
  | release (c : UserId) (t : ThreadId)
  | relReturn (c : UserId) (t : ThreadId)
  | revokeHandler (c : UserId)
  | retryHandler (c : UserId)
  | srvAcquire (call : Nat)
  | srvRevoke (call : Nat)
  | srvRelease (call : Nat)
  | srvRetried (call : Nat)
  deriving DecidableEq, Repr

def LockSys.setItem (s : LockSys) (c : UserId) (item : ClientLock) : LockSys :=
  { s with item := update s.item c item }

def LockSys.setPc (s : LockSys) (c : UserId) (t : ThreadId) (pc : Pc) : LockSys :=
  { s with pc := update s.pc c (update (s.pc c) t pc) }

def LockSys.setAcq (s : LockSys) (k : Nat) (a : AcqCall) : LockSys :=
  { s with acqCalls := update s.acqCalls k a }

def LockSys.setRel (s : LockSys) (k : Nat) (r : RelCall) : LockSys :=
  { s with relCalls := update s.relCalls k r }

/-! ## The steps -/

/-- A thread of client `c` has run `acquire` up to its next block. -/
def LockSys.blocked (s : LockSys) (c : UserId) (t : ThreadId) (r : Outcome × ClientLock) :
    Option LockSys :=
  match r.1 with
  | .sendAcq site =>
    some { ((s.setItem c r.2).setPc c t (.sending site s.nextCall)).setAcq s.nextCall (.sent c) with
      nextCall := s.nextCall + 1 }
  | .waitAcq => some ((s.setItem c r.2).setPc c t .waitAcq)
  | .waitFree => some ((s.setItem c r.2).setPc c t .waitFree)
  | .locked => some ((s.setItem c r.2).setPc c t .holding)
  | .again => none
  | .abort => none

def LockSys.sendRelease (s : LockSys) (c : UserId) (r : ReleaseAct × ClientLock) : LockSys :=
  match r.1 with
  | .callServer =>
    { (s.setItem c r.2).setRel s.nextCall (.sent c) with nextCall := s.nextCall + 1 }
  | .nothing => s.setItem c r.2
  | .freed => s.setItem c r.2

def LockSys.serveAcquire (s : LockSys) (k : Nat) (id : UserId) : Option LockSys :=
  match (s.srv.acquire id).1 with
  | .ok => some { s.setAcq k (.replied id 0) with srv := (s.srv.acquire id).2 }
  | .revoke => some { s.setAcq k (.revoking id) with srv := (s.srv.acquire id).2 }
  | .abort => none

def LockSys.serveRelease (s : LockSys) (k : Nat) : LockSys :=
  match s.srv.release.1 with
  | none => { s.setRel k .replied with srv := s.srv.release.2 }
  | some user =>
    { s.setRel k (.retrying user) with
      srv := s.srv.release.2
      retries := user :: s.retries }

def lockStep (s : LockSys) : Event → Option LockSys
  | .acquire c t => if s.pc c t = .idle then s.blocked c t (switch (s.item c)) else none
  | .wake c t =>
    match s.pc c t with
    | .waitAcq => s.blocked c t (loopAgain switch (waitAcqWhile (s.item c)))
    | .waitFree => s.blocked c t (loopAgain switch (waitFreeWhile (s.item c)))
    | _ => none
  | .acqReturn c t =>
    match s.pc c t with
    | .sending site k =>
      match s.acqCalls k with
      | .replied id ret =>
        if id = c then (s.setAcq k .done).blocked c t (resumeSend site (s.item c) ret) else none
      | _ => none
    | _ => none
  | .acqFails c t err =>
    match s.pc c t with
    -- an error of the RPC layer is negative
    | .sending site _ => s.blocked c t (resumeSend site (s.item c) (-(err : Int) - 1))
    | _ => none
  | .release c t =>
    if s.pc c t = .holding then
      let r := dealRelease (s.item c)
      some ((s.sendRelease c r).setPc c t
        (if r.1 = .callServer then .releasing s.nextCall else .idle))
    else none
  | .relReturn c t =>
    match s.pc c t with
    | .releasing k =>
      if s.relCalls k = .replied then some ((s.setRel k .done).setPc c t .idle) else none
    | _ => none
  | .revokeHandler c =>
    if c ∈ s.revokes then
      some ({ s with revokes := s.revokes.erase c }.sendRelease c (revokeHandler (s.item c)))
    else none
  | .retryHandler c =>
    if c ∈ s.retries then
      some ({ s with retries := s.retries.erase c }.setItem c (retryHandler (s.item c)))
    else none
  | .srvAcquire k =>
    match s.acqCalls k with
    | .sent id => s.serveAcquire k id
    | _ => none
  | .srvRevoke k =>
    match s.acqCalls k with
    -- `user_id_` is read after the mutex was dropped; then RETRY goes back
    | .revoking id => some { s.setAcq k (.replied id 1) with revokes := s.srv.userId :: s.revokes }
    | _ => none
  | .srvRelease k =>
    match s.relCalls k with
    | .sent _ => some (s.serveRelease k)
    | _ => none
  | .srvRetried k =>
    match s.relCalls k with
    | .retrying user =>
      some { s.setRel k .replied with
        revokes := if s.srv.revokesAgain then user :: s.revokes else s.revokes }
    | _ => none

inductive Trans (s : LockSys) : Event → LockSys → Prop
  | acquire {c : UserId} {t : ThreadId} {s' : LockSys} :
      s.pc c t = .idle → s.blocked c t (switch (s.item c)) = some s' → Trans s (.acquire c t) s'
  | wakeAcq {c : UserId} {t : ThreadId} {s' : LockSys} :
      s.pc c t = .waitAcq → s.blocked c t (loopAgain switch (waitAcqWhile (s.item c))) = some s' →
      Trans s (.wake c t) s'
  | wakeFree {c : UserId} {t : ThreadId} {s' : LockSys} :
      s.pc c t = .waitFree → s.blocked c t (loopAgain switch (waitFreeWhile (s.item c))) = some s' →
      Trans s (.wake c t) s'
  | acqReturn {c : UserId} {t : ThreadId} {site : CallSite} {k : Nat} {ret : Int} {s' : LockSys} :
      s.pc c t = .sending site k → s.acqCalls k = .replied c ret →
      (s.setAcq k .done).blocked c t (resumeSend site (s.item c) ret) = some s' →
      Trans s (.acqReturn c t) s'
  | acqFails {c : UserId} {t : ThreadId} {err : Nat} {site : CallSite} {k : Nat} {s' : LockSys} :
      s.pc c t = .sending site k →
      s.blocked c t (resumeSend site (s.item c) (-(err : Int) - 1)) = some s' →
      Trans s (.acqFails c t err) s'
  | release {c : UserId} {t : ThreadId} :
      s.pc c t = .holding →
      Trans s (.release c t) ((s.sendRelease c (dealRelease (s.item c))).setPc c t
        (if (dealRelease (s.item c)).1 = .callServer then .releasing s.nextCall else .idle))
  | relReturn {c : UserId} {t : ThreadId} {k : Nat} :
      s.pc c t = .releasing k → s.relCalls k = .replied →
      Trans s (.relReturn c t) ((s.setRel k .done).setPc c t .idle)
  | revokeHandler {c : UserId} :
      c ∈ s.revokes →
      Trans s (.revokeHandler c)
        ({ s with revokes := s.revokes.erase c }.sendRelease c (revokeHandler (s.item c)))
  | retryHandler {c : UserId} :
      c ∈ s.retries →
      Trans s (.retryHandler c)
        ({ s with retries := s.retries.erase c }.setItem c (retryHandler (s.item c)))
  | srvAcquire {k : Nat} {id : UserId} {s' : LockSys} :
      s.acqCalls k = .sent id → s.serveAcquire k id = some s' → Trans s (.srvAcquire k) s'
  | srvRevoke {k : Nat} {id : UserId} :
      s.acqCalls k = .revoking id →
      Trans s (.srvRevoke k)
        { s.setAcq k (.replied id 1) with revokes := s.srv.userId :: s.revokes }
  | srvRelease {k : Nat} {id : UserId} :
      s.relCalls k = .sent id → Trans s (.srvRelease k) (s.serveRelease k)
  | srvRetried {k : Nat} {user : UserId} :
      s.relCalls k = .retrying user →
      Trans s (.srvRetried k) { s.setRel k .replied with
        revokes := if s.srv.revokesAgain then user :: s.revokes else s.revokes }

variable {s s' : LockSys} {c : UserId} {t : ThreadId} {r : Outcome × ClientLock}

theorem trans_of_lockStep {e : Event} (hs : lockStep s e = some s') : Trans s e s' := by
  cases e <;> simp only [lockStep] at hs
  case acquire c t =>
    split at hs
    · rename_i hpc
      exact .acquire hpc hs
    · simp at hs
  case wake c t =>
    split at hs
    · rename_i hpc
      exact .wakeAcq hpc hs
    · rename_i hpc
      exact .wakeFree hpc hs
    · simp at hs
  case acqReturn c t =>
    split at hs
    · rename_i hpc
      split at hs
      · rename_i hk
        split at hs
        · rename_i hid
          subst hid
          exact .acqReturn hpc hk hs
        · simp at hs
      · simp at hs
    · simp at hs
  case acqFails c t err =>
    split at hs
    · rename_i hpc
      exact .acqFails hpc hs
    · simp at hs
  case release c t =>
    obtain ⟨hpc, rfl⟩ := of_guard hs
    exact .release hpc
  case relReturn c t =>
    split at hs
    · rename_i hpc
      split at hs
      · rename_i hk
        cases hs
        exact .relReturn hpc hk
      · simp at hs
    · simp at hs
  case revokeHandler c =>
    obtain ⟨hmem, rfl⟩ := of_guard hs
    exact .revokeHandler hmem
  case retryHandler c =>
    obtain ⟨hmem, rfl⟩ := of_guard hs
    exact .retryHandler hmem
  case srvAcquire k =>
    split at hs
    · rename_i hk
      exact .srvAcquire hk hs
    · simp at hs
  case srvRevoke k =>
    split at hs
    · rename_i hk
      cases hs
      exact .srvRevoke hk
    · simp at hs
  case srvRelease k =>
    split at hs
    · rename_i hk
      cases hs
      exact .srvRelease hk
    · simp at hs
  case srvRetried k =>
    split at hs
    · rename_i hk
      cases hs
      exact .srvRetried hk
    · simp at hs

abbrev Sys := LockId → LockSys

def Sys.init : Sys := fun _ => LockSys.init

def step : Sys → LockId × Event → Option Sys := stepAt lockStep

/-! ## Who has the lock -/

/-- A thread of the client is between `acquire` and `release`. -/
def LockSys.holds (s : LockSys) (c : UserId) (t : ThreadId) : Prop := s.pc c t = .holding

/-- The client has the lock: FREE with `is_finished`, or held by one of
its threads. -/
def LockSys.cached (s : LockSys) (c : UserId) : Prop :=
  ((s.item c).status = .FREE ∧ (s.item c).isFinished = true) ∨ ∃ t, s.holds c t

/-! ## The token -/

inductive Tok where
  | reply (call : Nat) (c : UserId)
  | finished (c : UserId)
  | holder (c : UserId) (t : ThreadId)
  | release (call : Nat) (c : UserId)

def Tok.owner : Tok → UserId
  | .reply _ c => c
  | .finished c => c
  | .holder c _ => c
  | .release _ c => c

def LockSys.tok (s : LockSys) : Tok → Prop
  | .reply k c => s.acqCalls k = .replied c 0
  | .finished c => (s.item c).isFinished = true
  | .holder c t => s.pc c t = .holding
  | .release k c => s.relCalls k = .sent c

structure Inv (s : LockSys) : Prop where
  token : Exclusive s.tok Tok.owner fun c => s.srv.isLocked = true ∧ s.srv.userId = c
  free : ∀ c, (s.item c).status = .FREE → (s.item c).isFinished = true

theorem inv_init : Inv LockSys.init := by
  refine ⟨⟨?_, ?_⟩, by simp [LockSys.init, ClientLock.new]⟩
  · rintro (_ | _ | _ | _) y hx _ <;> simp [LockSys.tok, LockSys.init, ClientLock.new] at hx
  · rintro (_ | _ | _ | _) hx <;> simp [LockSys.tok, LockSys.init, ClientLock.new] at hx

/-! What the setters do to the tokens: each touches the tokens of its own
kind at its own place. -/

section Frame

variable {s : LockSys} {c : UserId} {z : Tok}

theorem tok_setItem {item : ClientLock} (hz : (s.setItem c item).tok z) :
    (z = .finished c ∧ item.isFinished = true) ∨ (s.tok z ∧ z ≠ .finished c) := by
  cases z with
  | finished d =>
    rcases eq_or_ne d c with rfl | hne
    · exact .inl ⟨rfl, by simpa [LockSys.tok, LockSys.setItem] using hz⟩
    · exact .inr ⟨by simpa [LockSys.tok, LockSys.setItem, hne] using hz, by simp [hne]⟩
  | reply k d | holder d t | release k d => exact .inr ⟨hz, by simp⟩

theorem tok_setPc {t : ThreadId} {pc : Pc} (hz : (s.setPc c t pc).tok z) :
    (z = .holder c t ∧ pc = .holding) ∨ (s.tok z ∧ z ≠ .holder c t) := by
  cases z with
  | holder d u =>
    rcases eq_or_ne d c with rfl | hne
    · rcases eq_or_ne u t with rfl | hnu
      · exact .inl ⟨rfl, by simpa [LockSys.tok, LockSys.setPc] using hz⟩
      · exact .inr ⟨by simpa [LockSys.tok, LockSys.setPc, hnu] using hz, by simp [hnu]⟩
    · exact .inr ⟨by simpa [LockSys.tok, LockSys.setPc, hne] using hz, by simp [hne]⟩
  | reply k d | finished d | release k d => exact .inr ⟨hz, by simp⟩

theorem tok_setAcq {k : Nat} {a : AcqCall} (hz : (s.setAcq k a).tok z) :
    (∃ d, z = .reply k d ∧ a = .replied d 0) ∨ (s.tok z ∧ ∀ d, z ≠ .reply k d) := by
  cases z with
  | reply j d =>
    rcases eq_or_ne j k with rfl | hne
    · exact .inl ⟨d, rfl, by simpa [LockSys.tok, LockSys.setAcq] using hz⟩
    · exact .inr ⟨by simpa [LockSys.tok, LockSys.setAcq, hne] using hz, by simp [hne]⟩
  | finished d | holder d t | release j d => exact .inr ⟨hz, by simp⟩

theorem tok_setRel {k : Nat} {r : RelCall} (hz : (s.setRel k r).tok z) :
    (∃ d, z = .release k d ∧ r = .sent d) ∨ (s.tok z ∧ ∀ d, z ≠ .release k d) := by
  cases z with
  | release j d =>
    rcases eq_or_ne j k with rfl | hne
    · exact .inl ⟨d, rfl, by simpa [LockSys.tok, LockSys.setRel] using hz⟩
    · exact .inr ⟨by simpa [LockSys.tok, LockSys.setRel, hne] using hz, by simp [hne]⟩
  | finished d | holder d t | reply j d => exact .inr ⟨hz, by simp⟩

theorem free_setItem {item : ClientLock}
    (hfree : ∀ d, (s.item d).status = .FREE → (s.item d).isFinished = true)
    (hitem : item.status = .FREE → item.isFinished = true) (d : UserId) :
    ((s.setItem c item).item d).status = .FREE →
      ((s.setItem c item).item d).isFinished = true := by
  rcases eq_or_ne d c with rfl | hne
  · simpa [LockSys.setItem] using hitem
  · simpa [LockSys.setItem, hne] using hfree d

end Frame

/-! ## The steps of a thread in `acquire` -/

/-- What a thread does to the state when it blocks: its client's item,
its own pc, possibly a new acquire call, and nothing else. -/
theorem blocked_spec (hs : s.blocked c t r = some s') :
    s'.srv = s.srv ∧ s'.item = (s.setItem c r.2).item ∧
      ∀ z, s'.tok z → (z = .holder c t ∧ r.1 = .locked) ∨
        (z = .finished c ∧ r.2.isFinished = true) ∨ (s.tok z ∧ z ≠ .finished c) := by
  -- the tokens of the item and the pc, whatever the pc becomes
  have hpc : ∀ pc z, ((s.setItem c r.2).setPc c t pc).tok z → (z = .holder c t ∧ pc = .holding) ∨
      (z = .finished c ∧ r.2.isFinished = true) ∨ (s.tok z ∧ z ≠ .finished c) := by
    intro pc z hz
    rcases tok_setPc hz with h | ⟨hz, _⟩
    · exact .inl h
    · exact .inr (tok_setItem hz)
  unfold LockSys.blocked at hs
  cases hr : r.1 with
  | sendAcq site =>
    simp only [hr, Option.some.injEq] at hs
    subst hs
    refine ⟨rfl, rfl, fun z hz => ?_⟩
    rcases tok_setAcq hz with ⟨d, _, hd⟩ | ⟨hz, _⟩
    · cases hd
    · rcases hpc _ z hz with ⟨_, h⟩ | h
      · cases h
      · exact .inr h
  | waitAcq =>
    simp only [hr, Option.some.injEq] at hs
    subst hs
    refine ⟨rfl, rfl, fun z hz => ?_⟩
    rcases hpc _ z hz with ⟨_, h⟩ | h
    · cases h
    · exact .inr h
  | waitFree =>
    simp only [hr, Option.some.injEq] at hs
    subst hs
    refine ⟨rfl, rfl, fun z hz => ?_⟩
    rcases hpc _ z hz with ⟨_, h⟩ | h
    · cases h
    · exact .inr h
  | locked =>
    simp only [hr, Option.some.injEq] at hs
    subst hs
    refine ⟨rfl, rfl, fun z hz => ?_⟩
    rcases hpc _ z hz with ⟨h, _⟩ | h
    · exact .inl ⟨h, rfl⟩
    · exact .inr h
  | again => simp [hr] at hs
  | abort => simp [hr] at hs

/-- A thread that does not get the lock. -/
theorem Inv.blocked (h : Inv s) (hs : s.blocked c t r = some s') (hr : r.1 ≠ .locked)
    (hfin : r.2.isFinished = (s.item c).isFinished)
    (hfree : r.2.status = .FREE → (s.item c).isFinished = true) : Inv s' := by
  obtain ⟨hsrv, hitem, htok⟩ := blocked_spec hs
  refine ⟨?_, ?_⟩
  · rw [hsrv]
    refine h.token.sub fun z hz => ?_
    rcases htok z hz with ⟨_, hl⟩ | ⟨rfl, hf⟩ | ⟨hz, _⟩
    · exact absurd hl hr
    · show (s.item c).isFinished = true
      rw [← hfin]
      exact hf
    · exact hz
  · rw [hitem]
    exact free_setItem h.free fun hst => hfin ▸ hfree hst

/-- A thread that gets the lock, from the place where the right to it was. -/
theorem Inv.granted {s₀ : LockSys} (h : Inv s) {x : Tok} (hx : s.tok x) (hown : x.owner = c)
    (hs : s₀.blocked c t r = some s') (hsrv₀ : s₀.srv = s.srv) (hitem₀ : s₀.item = s.item)
    (hst : r.2.status = .LOCK) (hfin : r.2.isFinished = false)
    (hrest : ∀ z, s₀.tok z → z ≠ .finished c → s.tok z ∧ z ≠ x) : Inv s' := by
  obtain ⟨hsrv, hitem, htok⟩ := blocked_spec hs
  refine ⟨?_, ?_⟩
  · rw [hsrv, hsrv₀]
    refine h.token.move hx (y := .holder c t) hown.symm fun z hz => ?_
    rcases htok z hz with ⟨rfl, _⟩ | ⟨_, hf⟩ | ⟨hz, hne⟩
    · exact .inl rfl
    · simp [hfin] at hf
    · exact .inr (hrest z hz hne)
  · rw [hitem]
    refine free_setItem (fun d => ?_) fun hf => by simp [hst] at hf
    rw [hitem₀]
    exact h.free d

/-- `acquire` and the wake-ups: FREE is only ever left with `is_finished`,
so a thread that finds it takes the token from there. -/
theorem Inv.advance (h : Inv s) (hadv : Advances (s.item c) r) (hs : s.blocked c t r = some s') :
    Inv s' := by
  rcases hadv with ⟨_, hfree, hst, hfin⟩ | ⟨hr, hst, hfin⟩
  · exact h.granted (x := .finished c) (h.free c hfree) rfl hs rfl rfl hst hfin
      fun z hz hne => ⟨hz, hne⟩
  · exact h.blocked hs hr hfin fun hf => h.free c (hst ▸ hf)

/-- A thread whose acquire call was refused or failed. -/
theorem Inv.refused {s₀ : LockSys} {site : CallSite} {ret : Int} (h : Inv s₀)
    (hitem : s₀.item = s.item) (hret : ret ≠ 0)
    (hs : s₀.blocked c t (resumeSend site (s.item c) ret) = some s') : Inv s' := by
  have hadv := resumeSend_advances site (s.item c) ret
  rw [ClientLock.sendAcqReturn, if_neg hret] at hadv
  rcases hadv with ⟨_, hfree, _⟩ | ⟨hr, hst, hfin⟩
  · cases hfree
  · refine h.blocked hs hr (by rw [hitem, hfin]) fun hf => ?_
    rw [hst] at hf
    cases hf

/-! ## Giving the lock back -/

theorem sendRelease_spec (s : LockSys) (c : UserId) (r : ReleaseAct × ClientLock) :
    (s.sendRelease c r).srv = s.srv ∧ (s.sendRelease c r).item = (s.setItem c r.2).item ∧
      ∀ z, (s.sendRelease c r).tok z → (z = .release s.nextCall c ∧ r.1 = .callServer) ∨
        (z = .finished c ∧ r.2.isFinished = true) ∨ (s.tok z ∧ z ≠ .finished c) := by
  unfold LockSys.sendRelease
  cases hr : r.1 with
  | nothing | freed => exact ⟨rfl, rfl, fun z hz => .inr (tok_setItem hz)⟩
  | callServer =>
    refine ⟨rfl, rfl, fun z hz => ?_⟩
    replace hz : ((s.setItem c r.2).setRel s.nextCall (.sent c)).tok z := hz
    rcases tok_setRel hz with ⟨d, rfl, hd⟩ | ⟨hz, _⟩
    · cases hd
      exact .inl ⟨rfl, rfl⟩
    · exact .inr (tok_setItem hz)

/-- `release` by the thread that holds the lock. -/
theorem Inv.release (h : Inv s) {pc : Pc} (hold : s.pc c t = .holding) (hpc : pc ≠ .holding) :
    Inv ((s.sendRelease c (dealRelease (s.item c))).setPc c t pc) := by
  obtain ⟨hsrv, hitem, htok⟩ := sendRelease_spec s c (dealRelease (s.item c))
  have hx : s.tok (.holder c t) := hold
  -- the pc is not `holding` any more, so only the other tokens are left
  have hall : ∀ z, ((s.sendRelease c (dealRelease (s.item c))).setPc c t pc).tok z →
      (z = .release s.nextCall c ∧ (dealRelease (s.item c)).1 = .callServer) ∨
      (z = .finished c ∧ (dealRelease (s.item c)).2.isFinished = true) ∨
      (s.tok z ∧ z ≠ .holder c t) := by
    intro z hz
    rcases tok_setPc hz with ⟨_, hp⟩ | ⟨hz, hne⟩
    · exact absurd hp hpc
    · rcases htok z hz with h | h | ⟨hz, _⟩
      · exact .inl h
      · exact .inr (.inl h)
      · exact .inr (.inr ⟨hz, hne⟩)
  have hheld : ((s.sendRelease c (dealRelease (s.item c))).setPc c t pc).srv = s.srv := hsrv
  have hitem' : ((s.sendRelease c (dealRelease (s.item c))).setPc c t pc).item
      = (s.setItem c (dealRelease (s.item c)).2).item := hitem
  refine ⟨?_, ?_⟩
  · rw [hheld]
    rcases dealRelease_cases (s.item c) with ⟨ha, hi⟩ | ⟨ha, _⟩ | ⟨ha, _, hf⟩
    · refine h.token.sub fun z hz => ?_
      rcases hall z hz with ⟨_, hc⟩ | ⟨rfl, hfin⟩ | ⟨hz, _⟩
      · simp [ha] at hc
      · show (s.item c).isFinished = true
        rw [← hi]
        exact hfin
      · exact hz
    · refine h.token.move hx (y := .finished c) rfl fun z hz => ?_
      rcases hall z hz with ⟨_, hc⟩ | ⟨rfl, _⟩ | hz
      · simp [ha] at hc
      · exact .inl rfl
      · exact .inr hz
    · refine h.token.move hx (y := .release s.nextCall c) rfl fun z hz => ?_
      rcases hall z hz with ⟨rfl, _⟩ | ⟨_, hfin⟩ | hz
      · exact .inl rfl
      · simp [hf] at hfin
      · exact .inr hz
  · rw [hitem']
    refine free_setItem h.free fun hst => ?_
    rcases dealRelease_cases (s.item c) with ⟨_, hi⟩ | ⟨_, hf⟩ | ⟨_, hn, _⟩
    · rw [hi] at hst ⊢
      exact h.free c hst
    · exact hf
    · simp [hn] at hst

/-- `revoke_handler`: the lock goes back at once if it is cached. -/
theorem Inv.revokeHandler (h : Inv s) (c : UserId) :
    Inv (s.sendRelease c (revokeHandler (s.item c))) := by
  obtain ⟨hsrv, hitem, htok⟩ := sendRelease_spec s c (Lock.revokeHandler (s.item c))
  rcases revokeHandler_cases (s.item c) with ⟨ha, hst, hfin⟩ | ⟨ha, hcached, hst, hfin⟩
  · refine ⟨?_, ?_⟩
    · rw [hsrv]
      refine h.token.sub fun z hz => ?_
      rcases htok z hz with ⟨_, hc⟩ | ⟨rfl, hf⟩ | ⟨hz, _⟩
      · simp [ha] at hc
      · show (s.item c).isFinished = true
        rw [← hfin]
        exact hf
      · exact hz
    · rw [hitem]
      refine free_setItem h.free fun hf => ?_
      rw [hfin]
      exact h.free c (hst ▸ hf)
  · refine ⟨?_, ?_⟩
    · rw [hsrv]
      refine h.token.move (x := .finished c) hcached (y := .release s.nextCall c) rfl
        fun z hz => ?_
      rcases htok z hz with ⟨rfl, _⟩ | ⟨_, hf⟩ | hz
      · exact .inl rfl
      · simp [hfin] at hf
      · exact .inr hz
    · rw [hitem]
      exact free_setItem h.free fun hf => by simp [hst] at hf

/-! ## The server -/

theorem Inv.serveAcquire (h : Inv s) {k : Nat} {id : UserId} (hs : s.serveAcquire k id = some s') :
    Inv s' := by
  unfold LockSys.serveAcquire ServerLock.acquire at hs
  by_cases hl : s.srv.isLocked = false
  · -- the lock was free, so there was no token; the OK reply is the new one
    simp only [if_pos hl, Option.some.injEq] at hs
    subst hs
    refine ⟨?_, h.free⟩
    refine h.token.mint (fun c hc => by simp [hl] at hc) (y := .reply k id) ⟨rfl, rfl⟩
      fun z hz => ?_
    rcases tok_setAcq hz with ⟨d, rfl, hd⟩ | ⟨hz, _⟩
    · cases hd
      exact .inl rfl
    · exact .inr hz
  · by_cases hu : s.srv.userId = []
    · simp [hl, hu] at hs
    · simp only [if_neg hl, if_neg hu, Option.some.injEq] at hs
      subst hs
      refine ⟨h.token.sub fun z hz => ?_, h.free⟩
      rcases tok_setAcq hz with ⟨d, _, hd⟩ | ⟨hz, _⟩
      · cases hd
      · exact hz

theorem Inv.serveRelease (h : Inv s) {k : Nat} {id : UserId} (hk : s.relCalls k = .sent id) :
    Inv (s.serveRelease k) := by
  -- the release is the only token, and it is gone once it has been served
  have hretire : ∀ (r : RelCall) (srv : ServerLock), (∀ d, r ≠ .sent d) →
      Exclusive (s.setRel k r).tok Tok.owner fun c => srv.isLocked = true ∧ srv.userId = c := by
    intro r srv hr
    refine h.token.retire (x := .release k id) hk fun z hz => ?_
    rcases tok_setRel hz with ⟨d, _, hd⟩ | ⟨hz, hne⟩
    · exact absurd hd (hr d)
    · exact ⟨hz, hne id⟩
  unfold LockSys.serveRelease
  split
  · exact ⟨hretire _ _ (by simp), h.free⟩
  · exact ⟨hretire _ _ (by simp), h.free⟩

/-! ## All steps, all runs -/

theorem inv_step {e : Event} (h : Inv s) (hs : lockStep s e = some s') : Inv s' := by
  cases trans_of_lockStep hs with
  | acquire hpc hb => exact h.advance (switch_advances _) hb
  | wakeAcq hpc hb => exact h.advance (loopAgain_waitAcq_advances switch_advances _) hb
  | wakeFree hpc hb => exact h.advance (loopAgain_waitFree_advances switch_advances _) hb
  | @acqReturn c t site k ret s' hpc hk hb =>
    have hdone : ∀ z, (s.setAcq k .done).tok z → s.tok z ∧ z ≠ .reply k c := by
      intro z hz
      rcases tok_setAcq hz with ⟨_, _, hd⟩ | ⟨hz, hne⟩
      · cases hd
      · exact ⟨hz, hne c⟩
    by_cases hret : ret = 0
    · subst hret
      rw [resumeSend_ok] at hb
      exact h.granted (x := .reply k c) hk rfl hb rfl rfl rfl rfl fun z hz _ => hdone z hz
    · have h' : Inv (s.setAcq k .done) := ⟨h.token.sub fun z hz => (hdone z hz).1, h.free⟩
      exact h'.refused rfl hret hb
  | acqFails hpc hb => exact h.refused rfl (by omega) hb
  | release hold =>
    refine h.release hold ?_
    split <;> simp
  | relReturn hpc hk =>
    refine ⟨h.token.sub fun z hz => ?_, h.free⟩
    rcases tok_setPc hz with ⟨_, hp⟩ | ⟨hz, _⟩
    · cases hp
    · rcases tok_setRel hz with ⟨_, _, hd⟩ | ⟨hz, _⟩
      · cases hd
      · exact hz
  | @revokeHandler c hmem =>
    exact Inv.revokeHandler (s := { s with revokes := s.revokes.erase c }) ⟨h.token, h.free⟩ c
  | @retryHandler c hmem =>
    refine ⟨h.token.sub fun z hz => ?_, free_setItem h.free (h.free c)⟩
    rcases tok_setItem hz with ⟨rfl, hf⟩ | ⟨hz, _⟩
    · exact hf
    · exact hz
  | srvAcquire hk hb => exact h.serveAcquire hb
  | srvRevoke hk =>
    refine ⟨h.token.sub fun z hz => ?_, h.free⟩
    rcases tok_setAcq hz with ⟨_, _, hd⟩ | ⟨hz, _⟩
    · simp at hd
    · exact hz
  | srvRelease hk => exact h.serveRelease hk
  | @srvRetried k user hk =>
    refine ⟨h.token.sub fun z hz => ?_, h.free⟩
    replace hz : (s.setRel k .replied).tok z := hz
    rcases tok_setRel hz with ⟨_, _, hd⟩ | ⟨hz, _⟩
    · cases hd
    · exact hz

/-- A client that has the lock cached has a token. -/
theorem LockSys.cached.tok (h : s.cached c) : ∃ x, s.tok x ∧ x.owner = c := by
  rcases h with ⟨_, hfin⟩ | ⟨t, ht⟩
  · exact ⟨.finished c, hfin, rfl⟩
  · exact ⟨.holder c t, ht, rfl⟩

/-- **Mutual exclusion of the caching locks.** In every reachable state of
any number of clients and threads, for every lock id: at most one thread
overall holds the lock, and whenever a client has it cached the server is
locked in the name of that client and no other client has it cached. -/
theorem caching_locks_exclude {s : Sys} (h : Reach step (fun _ _ => True) Sys.init s)
    (lid : LockId) :
    (∀ c t c' t', (s lid).holds c t → (s lid).holds c' t' → c = c' ∧ t = t') ∧
    ∀ c, (s lid).cached c → (s lid).srv.isLocked = true ∧ (s lid).srv.userId = c ∧
      ∀ c', c' ≠ c → ¬ (s lid).cached c' := by
  have hreach : Reach lockStep (fun _ _ => True) LockSys.init (s lid) :=
    Reach.component (fun _ _ => True) h lid
  have hinv : Inv (s lid) := hreach.invariant Inv inv_init fun _ _ _ hi _ hs => inv_step hi hs
  constructor
  · intro c t c' t' hc hc'
    have heq := hinv.token.unique (.holder c t) (.holder c' t') hc hc'
    injection heq with hcc htt
    exact ⟨hcc, htt⟩
  · intro c hc
    obtain ⟨x, hx, hxc⟩ := hc.tok
    obtain ⟨hl, hu⟩ := hinv.token.held x hx
    refine ⟨hl, hu.trans hxc, fun c' hne hc' => hne ?_⟩
    obtain ⟨y, hy, hyc⟩ := hc'.tok
    rw [← hyc, ← hxc, hinv.token.unique y x hy hx]

/-- Client "b" takes the lock while client "a" holds it: the revoke finds
the holder, and after its release "b" gets the lock. -/
theorem caching_locks_handover :
    ∃ s, Reach step (fun _ _ => True) Sys.init s ∧ (s 1).holds ['b'] 0 ∧
      (s 1).srv.userId = ['b'] ∧ ¬ (s 1).cached ['a'] := by
  obtain ⟨s, hs, hpc⟩ : ∃ s, Reach step (fun _ _ => True) Sys.init s ∧
      (s 1).pc ['b'] 0 = .holding :=
    Run.exists_reach
      [(1, .acquire ['a'] 0), (1, .srvAcquire 0), (1, .acqReturn ['a'] 0),
        (1, .acquire ['b'] 0), (1, .srvAcquire 1), (1, .srvRevoke 1), (1, .acqReturn ['b'] 0),
        (1, .revokeHandler ['a']), (1, .release ['a'] 0), (1, .srvRelease 2),
        (1, .retryHandler ['b']), (1, .wake ['b'] 0), (1, .srvAcquire 3),
        (1, .acqReturn ['b'] 0)]
      (by decide)
  have hold : (s 1).holds ['b'] 0 := hpc
  obtain ⟨_, hcached⟩ := caching_locks_exclude hs 1
  obtain ⟨_, huser, hother⟩ := hcached ['b'] (.inr ⟨0, hold⟩)
  exact ⟨s, hs, hold, huser, hother ['a'] (by decide)⟩

end Yfs.Lock
