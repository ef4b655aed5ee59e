/-
Yfs.Lock.ClientView — one client of the caching lock protocol, with what
the server and the network hold for it.

A `ClientView` is everything that concerns one client: its item and
threads, its condition variables, the acquire call it has out, its entries
in the retry queue and the retries and revokes on their way to it. As long
as a client has at most one acquire call out, its own steps are the
constructors of `ClientMove`.

The main notion is the ticket. A client that was refused is owed one retry,
and the retry is in exactly one place: an entry of the queue, a retry on
its way, or the flag `is_retried` (`tickets`). `Sound` says that there is
one ticket if the client waits and none otherwise, and that a thread is
there to act on it; everything else in `Sound` says what the status means.
-/
import Yfs.Lock.Waiters

namespace Yfs.Lock

open Function

inductive Stage where
  | sent
  | queued
  | refused
  | granted
  deriving DecidableEq, Repr

structure ClientView where
  item : ClientLock
  pc : ThreadId → Pc
  waitAcq : Finset ThreadId
  waitFree : Finset ThreadId
  handlers : List Nat
  /-- The acquire call on its way. -/
  ask : Option Stage
  /-- Entries in the server's retry queue. -/
  queued : Nat
  /-- Retries and revokes on their way to the client. -/
  retries : Nat
  revokes : Nat
  /-- A `release` popped the client and has yet to look at the queue again. -/
  rechecked : Prop
  /-- A release of the client is on its way. -/
  returning : Prop

namespace ClientView

variable {v v' : ClientView}

/-- Some thread or handler of the client is in a `DealRelease` that will
still broadcast. -/
def giving (v : ClientView) : Prop := (∃ t k, v.pc t = .releasing k) ∨ v.handlers ≠ []

/-- The client was refused and has not asked again. -/
def waiting (v : ClientView) : Prop :=
  v.ask = some .queued ∨ v.ask = some .refused ∨ (v.ask = none ∧ v.item.status = .ACQING)

instance (v : ClientView) : Decidable v.waiting := inferInstanceAs (Decidable (_ ∨ _ ∨ (_ ∧ _)))

def tickets (v : ClientView) : Nat := v.queued + v.retries + v.item.isRetried.toNat

/-! ## The moves of the client -/

def advance (v : ClientView) (t : ThreadId) (item : ClientLock) (pc : Pc) (ask : Option Stage) :
    ClientView :=
  { v with
    item := item
    pc := update v.pc t pc
    waitAcq := place (pc = .waitAcq) t v.waitAcq
    waitFree := place (pc = .waitFree) t v.waitFree
    ask := ask }

def broadcast (v : ClientView) : ClientView := { v with waitAcq := ∅, waitFree := ∅ }

/-- The thread is about to start `acquire` or is waiting in it. -/
def ready (v : ClientView) (t : ThreadId) : Prop :=
  v.pc t = .idle ∨ v.pc t = .waitAcq ∨ v.pc t = .waitFree

end ClientView

open ClientView in
inductive ClientMove (v : ClientView) : ClientView → Prop
  | ask (t : ThreadId) (site : CallSite) (k : Nat) :
      v.ready t → v.item.asks → v.ask = none →
      ClientMove v (v.advance t v.item.sendAcqToSvr (.sending site k) (some .sent))
  | waitAcq (t : ThreadId) :
      v.ready t → v.item.status = .ACQING → v.item.isRetried = false →
      ClientMove v (v.advance t v.item .waitAcq v.ask)
  | waitFree (t : ThreadId) :
      v.ready t → v.item.status = .LOCK → ClientMove v (v.advance t v.item .waitFree v.ask)
  | take (t : ThreadId) :
      v.ready t → v.item.status = .FREE →
      ClientMove v (v.advance t { v.item with isFinished := false, status := .LOCK } .holding v.ask)
  | granted (t : ThreadId) (site : CallSite) (k : Nat) :
      v.pc t = .sending site k → v.ask = some .granted →
      ClientMove v (v.advance t { v.item with isFinished := false, status := .LOCK } .holding none)
  | refused (t : ThreadId) (site : CallSite) (k : Nat) :
      v.pc t = .sending site k → v.ask = some .refused → v.item.isRetried = false →
      ClientMove v (v.advance t { v.item with status := .ACQING } .waitAcq none)
  | askAgain (t : ThreadId) (site site' : CallSite) (k k' : Nat) :
      v.pc t = .sending site k → v.ask = some .refused → v.item.isRetried = true →
      ClientMove v (v.advance t { v.item with isRetried := false, status := .ACQING }
        (.sending site' k') (some .sent))
  | free (t : ThreadId) :
      v.pc t = .holding → v.item.isRevoked = false →
      ClientMove v { v.broadcast with
        item := { v.item with status := .FREE, isFinished := true }
        pc := update v.pc t .idle }
  | giveBack (t : ThreadId) (k : Nat) :
      v.pc t = .holding →
      ClientMove v { v with
        item := { v.item with status := .NONE, isFinished := false, isRevoked := false }
        pc := update v.pc t (.releasing k)
        returning := True }
  | relReturn (t : ThreadId) (k : Nat) :
      v.pc t = .releasing k →
      ClientMove v { v.broadcast with pc := update v.pc t .idle }
  | revoke :
      v.item.isFinished = false →
      ClientMove v { v with item := { v.item with isRevoked := true }, revokes := v.revokes - 1 }
  | revokeCached (k : Nat) :
      v.item.isFinished = true →
      ClientMove v { v with
        item := { v.item with status := .NONE, isFinished := false, isRevoked := false }
        handlers := k :: v.handlers
        revokes := v.revokes - 1
        returning := True }
  | retry (acq free : Option ThreadId) (acqs frees : Finset ThreadId) :
      0 < v.retries → signal v.waitAcq acq = some acqs → signal v.waitFree free = some frees →
      ClientMove v { v with
        item := { v.item with isRetried := true }
        waitAcq := acqs
        waitFree := frees
        retries := v.retries - 1 }
  | handlerReturn (handlers : List Nat) :
      ClientMove v { v.broadcast with handlers := handlers }

namespace ClientView

variable {v v' : ClientView}

/-! ## The status -/

/-- What the status of the item means: LOCK with exactly one thread between
`acquire` and `release`, FREE with `is_finished`, and no right to the lock
otherwise. -/
structure Stated (v : ClientView) : Prop where
  hold : ∀ t, v.pc t = .holding → v.item.status = .LOCK
  one : ∀ t u, v.pc t = .holding → v.pc u = .holding → t = u
  lock : v.item.status = .LOCK → ∃ t, v.pc t = .holding
  free : v.item.status = .FREE ↔ v.item.isFinished = true
  kept : v.item.isFinished = true → v.item.isRevoked = false
  asks : v.ask ≠ none → v.item.status = .NONE ∨ v.item.status = .ACQING

theorem Stated.no_holder (h : v.Stated) (hst : v.item.status ≠ .LOCK) (t : ThreadId) :
    v.pc t ≠ .holding := fun ht => hst (h.hold t ht)

/-- A client that has a call out has no right to the lock. -/
theorem Stated.asker (h : v.Stated) (hask : v.ask ≠ none) :
    (∀ t, v.pc t ≠ .holding) ∧ v.item.isFinished = false := by
  have hst := h.asks hask
  refine ⟨h.no_holder ?_, ?_⟩
  · rcases hst with hst | hst <;> simp [hst]
  · by_contra hfin
    have hfree := h.free.mpr (by simpa using hfin)
    rcases hst with hst | hst <;> simp [hst] at hfree

/-- Nothing about the right to the lock changes. -/
theorem Stated.same (h : v.Stated) (hpc : ∀ t, v'.pc t = .holding ↔ v.pc t = .holding)
    (hst : v'.item.status = v.item.status) (hfin : v'.item.isFinished = v.item.isFinished)
    (hrev : v.item.isFinished = true → v'.item.isRevoked = v.item.isRevoked)
    (hask : v'.ask ≠ none → v.ask ≠ none ∨ v.item.asks) : v'.Stated := by
  refine ⟨?_, ?_, ?_, ?_, ?_, ?_⟩
  · intro t ht
    rw [hst]
    exact h.hold t ((hpc t).mp ht)
  · intro t u ht hu
    exact h.one t u ((hpc t).mp ht) ((hpc u).mp hu)
  · intro hl
    obtain ⟨t, ht⟩ := h.lock (hst ▸ hl)
    exact ⟨t, (hpc t).mpr ht⟩
  · rw [hst, hfin]
    exact h.free
  · intro hf
    rw [hfin] at hf
    rw [hrev hf]
    exact h.kept hf
  · intro ha
    rw [hst]
    rcases hask ha with ha | hn | ⟨hq, _⟩
    · exact h.asks ha
    · exact .inl hn
    · exact .inr hq

/-- The client has no right to the lock. -/
theorem Stated.away (hpc : ∀ t, v.pc t ≠ .holding) (hfin : v.item.isFinished = false)
    (hst : v.item.status = .NONE ∨ v.item.status = .ACQING) : v.Stated := by
  have hnl : v.item.status ≠ .LOCK := by rcases hst with hst | hst <;> simp [hst]
  have hnf : v.item.status ≠ .FREE := by rcases hst with hst | hst <;> simp [hst]
  refine ⟨fun t ht => absurd ht (hpc t), fun t _ ht => absurd ht (hpc t),
    fun hl => absurd hl hnl, ?_, ?_, fun _ => hst⟩
  · simp [hnf, hfin]
  · simp [hfin]

variable {t : ThreadId} {pc : Pc}

/-- A thread gets the lock when nobody had it. -/
theorem Stated.held (hpc : ∀ u, v.pc u = .holding ↔ u = t) (hfin : v.item.isFinished = false)
    (hst : v.item.status = .LOCK) (hask : v.ask = none) : v.Stated := by
  refine ⟨fun _ _ => hst, fun u w hu hw => ?_, fun _ => ⟨t, (hpc t).mpr rfl⟩, ?_, ?_, ?_⟩
  · exact ((hpc u).mp hu).trans ((hpc w).mp hw).symm
  · simp [hst, hfin]
  · simp [hfin]
  · simp [hask]

/-- The client has the lock cached. -/
theorem Stated.cached (hpc : ∀ t, v.pc t ≠ .holding) (hfin : v.item.isFinished = true)
    (hst : v.item.status = .FREE) (hrev : v.item.isRevoked = false) (hask : v.ask = none) :
    v.Stated := by
  refine ⟨fun t ht => absurd ht (hpc t), fun t _ ht => absurd ht (hpc t), ?_, ?_, fun _ => hrev, ?_⟩
  · simp [hst]
  · simp [hst, hfin]
  · simp [hask]

theorem ready.pc_ne (h : v.ready t) : v.pc t ≠ .holding ∧ ∀ k, v.pc t ≠ .releasing k := by
  rcases h with h | h | h <;> simp [h]

/-- A thread that moves from one pc to another, neither of them `holding`. -/
theorem holding_update (hold : v.pc t ≠ .holding) (hpc : pc ≠ .holding) (u : ThreadId) :
    update v.pc t pc u = .holding ↔ v.pc u = .holding := by
  rcases eq_or_ne u t with rfl | hne
  · simp [hold, hpc]
  · simp [hne]

/-- The only holder lets go. -/
theorem Stated.let_go (h : v.Stated) (hold : v.pc t = .holding) (hpc : pc ≠ .holding)
    (u : ThreadId) : update v.pc t pc u ≠ .holding := by
  rcases eq_or_ne u t with rfl | hne
  · simpa using hpc
  · intro hu
    rw [update_of_ne hne] at hu
    exact hne (h.one u t hu hold)

/-- A thread takes the lock when nobody has it. -/
theorem holding_update_iff (h : ∀ u, v.pc u ≠ .holding) (u : ThreadId) :
    update v.pc t .holding u = .holding ↔ u = t := by
  rcases eq_or_ne u t with rfl | hne
  · simp
  · simp [hne, h u]

theorem Stated.ask_eq_none (h : v.Stated) (hst : v.item.status ≠ .NONE)
    (hst' : v.item.status ≠ .ACQING) : v.ask = none := by
  by_contra hask
  rcases h.asks hask with h | h
  · exact hst h
  · exact hst' h

theorem Stated.move (h : v.Stated) (hm : ClientMove v v') : v'.Stated := by
  cases hm with
  | ask t site k hr ha hn =>
    exact h.same (holding_update hr.pc_ne.1 (by simp)) rfl rfl (fun _ => rfl) fun _ => .inr ha
  | waitAcq t hr hst hre =>
    exact h.same (holding_update hr.pc_ne.1 (by simp)) rfl rfl (fun _ => rfl) .inl
  | waitFree t hr hst =>
    exact h.same (holding_update hr.pc_ne.1 (by simp)) rfl rfl (fun _ => rfl) .inl
  | take t hr hst =>
    exact .held (holding_update_iff (h.no_holder (by simp [hst]))) rfl rfl
      (h.ask_eq_none (by simp [hst]) (by simp [hst]))
  | granted t site k hpc hask =>
    exact .held (holding_update_iff (h.asker (by simp [hask])).1) rfl rfl rfl
  | refused t site k hpc hask hre =>
    obtain ⟨hno, hfin⟩ := h.asker (by simp [hask])
    exact .away (fun u hu => hno u ((holding_update (hno t) (by simp) u).mp hu)) hfin (.inr rfl)
  | askAgain t site site' k k' hpc hask hre =>
    obtain ⟨hno, hfin⟩ := h.asker (by simp [hask])
    exact .away (fun u hu => hno u ((holding_update (hno t) (by simp) u).mp hu)) hfin (.inr rfl)
  | free t hold hrev =>
    have hst := h.hold t hold
    exact .cached (h.let_go hold (by simp)) rfl rfl hrev
      (h.ask_eq_none (by simp [hst]) (by simp [hst]))
  | giveBack t k hold =>
    exact .away (h.let_go hold (by simp)) rfl (.inl rfl)
  | relReturn t k hpc =>
    exact h.same (holding_update (by simp [hpc]) (by simp)) rfl rfl (fun _ => rfl) .inl
  | revoke hfin => exact h.same (fun _ => Iff.rfl) rfl rfl (fun hf => by simp [hfin] at hf) .inl
  | revokeCached k hfin =>
    have hst := h.free.mpr hfin
    exact .away (h.no_holder (by simp [hst])) rfl (.inl rfl)
  | retry acq free acqs frees hr ha hf =>
    exact h.same (fun _ => Iff.rfl) rfl rfl (fun _ => rfl) .inl
  | handlerReturn handlers => exact h.same (fun _ => Iff.rfl) rfl rfl (fun _ => rfl) .inl

/-! ## The ticket -/

def Owed (v : ClientView) : Prop := v.tickets = if v.waiting then 1 else 0

theorem Owed.no_ticket (h : v.Owed) (hw : ¬ v.waiting) :
    v.queued = 0 ∧ v.retries = 0 ∧ v.item.isRetried = false := by
  rw [Owed, if_neg hw, tickets] at h
  refine ⟨by omega, by omega, ?_⟩
  cases hr : v.item.isRetried with
  | false => rfl
  | true => simp [hr] at h

theorem Owed.waiting (h : v.Owed) (hpos : 0 < v.tickets) : v.waiting := by
  by_contra hw
  rw [Owed, if_neg hw] at h
  omega

theorem Owed.tickets_le (h : v.Owed) : v.tickets ≤ 1 := by
  rw [h]
  split <;> omega

/-- A client that was told to try again is not in the queue any more. -/
theorem Owed.told (h : v.Owed) (hr : v.item.isRetried = true) : v.queued = 0 ∧ v.retries = 0 := by
  have hle := h.tickets_le
  simp only [tickets, hr, Bool.toNat_true] at hle
  omega

theorem Owed.acqing (h : v.Owed) (hask : v.ask = .none) (hpos : 0 < v.tickets) :
    v.item.status = .ACQING := by
  rcases h.waiting hpos with hq | hq | ⟨_, hst⟩
  · simp [hask] at hq
  · simp [hask] at hq
  · exact hst

theorem tickets_pos (hr : v.item.isRetried = true) : 0 < v.tickets := by simp [tickets, hr]

theorem Owed.same (h : v.Owed) (ht : v'.tickets = v.tickets) (hw : v'.waiting ↔ v.waiting) :
    v'.Owed := by
  simp only [Owed, ht, hw]
  exact h

theorem Owed.clear (ht : v.tickets = 0) (hw : ¬ v.waiting) : v.Owed := by
  rw [Owed, if_neg hw, ht]

/-- A status that is not ACQING, and no call out. -/
theorem not_waiting (hask : v.ask = .none) (hst : v.item.status ≠ .ACQING) : ¬ v.waiting := by
  simp [ClientView.waiting, hask, hst]

theorem Owed.move (h : v.Owed) (hs : v.Stated) (hm : ClientMove v v') : v'.Owed := by
  cases hm with
  | ask t site k hr ha hn =>
    -- from NONE there was no ticket, from ACQING it is the flag, and the flag goes
    have hzero : v.queued = 0 ∧ v.retries = 0 := by
      rcases ha with hst | ⟨_, hre⟩
      · obtain ⟨hq, hy, _⟩ := h.no_ticket (not_waiting hn (by simp [hst]))
        exact ⟨hq, hy⟩
      · exact h.told hre
    refine .clear ?_ (by simp [ClientView.waiting, advance])
    simp [tickets, advance, ClientLock.sendAcqToSvr, hzero]
  | waitAcq t hr hst hre | waitFree t hr hst => exact h.same rfl Iff.rfl
  | take t hr hst =>
    have hask := hs.ask_eq_none (by simp [hst]) (by simp [hst])
    exact h.same rfl (iff_of_false (not_waiting hask (by simp [advance]))
      (not_waiting hask (by simp [hst])))
  | granted t site k hpc hask =>
    exact h.same rfl (iff_of_false (not_waiting rfl (by simp [advance]))
      (by simp [ClientView.waiting, hask]))
  | refused t site k hpc hask hre =>
    exact h.same rfl (iff_of_true (.inr (.inr ⟨rfl, rfl⟩)) (.inr (.inl hask)))
  | askAgain t site site' k k' hpc hask hre =>
    refine .clear ?_ (by simp [ClientView.waiting, advance])
    simp [tickets, advance, h.told hre]
  | free t hold hrev =>
    have hst := hs.hold t hold
    have hask := hs.ask_eq_none (by simp [hst]) (by simp [hst])
    exact h.same rfl (iff_of_false (not_waiting hask (by simp)) (not_waiting hask (by simp [hst])))
  | giveBack t k hold =>
    have hst := hs.hold t hold
    have hask := hs.ask_eq_none (by simp [hst]) (by simp [hst])
    exact h.same rfl (iff_of_false (not_waiting hask (by simp)) (not_waiting hask (by simp [hst])))
  | relReturn t k hpc | revoke hfin => exact h.same rfl Iff.rfl
  | revokeCached k hfin =>
    have hst := hs.free.mpr hfin
    have hask := hs.ask_eq_none (by simp [hst]) (by simp [hst])
    exact h.same rfl (iff_of_false (not_waiting hask (by simp)) (not_waiting hask (by simp [hst])))
  | retry acq free acqs frees hr ha hf =>
    -- the ticket goes from the message into the flag, which was not set
    have hre : v.item.isRetried = false := by
      by_contra hre
      have := (h.told (by simpa using hre)).2
      omega
    refine h.same ?_ Iff.rfl
    simp only [tickets, hre, Bool.toNat_true, Bool.toNat_false]
    omega
  | handlerReturn handlers => exact h.same rfl Iff.rfl

/-! ## The waiters -/

/-- A thread is there for every ticket, and every thread that sleeps has
somebody who will wake it: the ticket, the holder, or a `DealRelease` that
has still to broadcast. -/
structure Attended (v : ClientView) : Prop where
  parked : ∀ t ∈ v.waitAcq, v.pc t = .waitAcq
  acqing : v.ask = none → v.item.status = .ACQING → ∃ t, v.pc t = .waitAcq
  told : v.ask = none → v.item.isRetried = true → ∃ t, v.pc t = .waitAcq ∧ t ∉ v.waitAcq
  acq : ∀ t ∈ v.waitAcq, v.item.status = .ACQING ∨ v.item.status = .LOCK ∨ v.giving
  free : ∀ t ∈ v.waitFree, v.item.status = .LOCK ∨ v.giving

/-- A thread that is not in `DealRelease` moves. -/
theorem giving.advance {item : ClientLock} {ask : Option Stage} (h : v.giving)
    (hpc : ∀ k, v.pc t ≠ .releasing k) : (v.advance t item pc ask).giving := by
  rcases h with ⟨u, k, hu⟩ | h
  · refine .inl ⟨u, k, ?_⟩
    have hne : u ≠ t := fun he => hpc k (he ▸ hu)
    simpa [ClientView.advance, hne] using hu
  · exact .inr h

theorem parked_update (h : ∀ t ∈ v.waitAcq, v.pc t = .waitAcq) (ht : v.pc t ≠ .waitAcq) :
    ∀ u ∈ v.waitAcq, update v.pc t pc u = .waitAcq := by
  intro u hu
  have hne : u ≠ t := fun he => ht (he ▸ h u hu)
  rw [update_of_ne hne]
  exact h u hu

/-- A thread has run `acquire` up to its next block. It goes to sleep only
where the status says why, and with the flag `is_retried` down. -/
theorem Attended.advance (h : v.Attended) {item : ClientLock} {ask : Option Stage}
    (hpc : ∀ k, v.pc t ≠ .releasing k)
    (hacqing : ask = none → item.status = .ACQING → pc = .waitAcq)
    (htold : ask = none → item.isRetried = false) (hacq : pc = .waitAcq → item.status = .ACQING)
    (hfree : pc = .waitFree → item.status = .LOCK)
    (hst : item.status = .ACQING ∨ item.status = .LOCK ∨ item.status = v.item.status)
    (hst' : v.item.status = .LOCK → item.status = .LOCK) : (v.advance t item pc ask).Attended := by
  refine ⟨?_, ?_, ?_, ?_, ?_⟩
  · intro u hu
    rcases mem_place.mp hu with ⟨rfl, hp⟩ | ⟨hne, hu⟩
    · simpa [ClientView.advance] using hp
    · simpa [ClientView.advance, hne] using h.parked u hu
  · intro hn hq
    exact ⟨t, by simpa [ClientView.advance] using hacqing hn hq⟩
  · intro hn hr
    replace hr : item.isRetried = true := hr
    rw [htold hn] at hr
    cases hr
  · intro u hu
    show item.status = .ACQING ∨ item.status = .LOCK ∨ _
    rcases mem_place.mp hu with ⟨_, hp⟩ | ⟨_, hu⟩
    · exact .inl (hacq (by simpa using hp))
    · rcases hst with hst | hst | hst
      · exact .inl hst
      · exact .inr (.inl hst)
      · rw [hst]
        exact (h.acq u hu).imp_right (Or.imp_right fun hg => hg.advance hpc)
  · intro u hu
    show item.status = .LOCK ∨ _
    rcases mem_place.mp hu with ⟨_, hp⟩ | ⟨_, hu⟩
    · exact .inl (hfree (by simpa using hp))
    · exact (h.free u hu).imp hst' fun hg => hg.advance hpc

/-- After the broadcasts nobody sleeps. -/
theorem Attended.broadcast (hwa : v.waitAcq = ∅) (hwf : v.waitFree = ∅)
    (hacqing : v.ask = none → v.item.status = .ACQING → ∃ t, v.pc t = .waitAcq)
    (htold : v.ask = none → v.item.isRetried = true → v.item.status = .ACQING) :
    v.Attended := by
  refine ⟨by simp [hwa], hacqing, fun hn hr => ?_, by simp [hwa], by simp [hwf]⟩
  obtain ⟨t, ht⟩ := hacqing hn (htold hn hr)
  exact ⟨t, ht, by simp [hwa]⟩

theorem Attended.move (h : v.Attended) (hs : v.Stated) (ho : v.Owed) (hm : ClientMove v v') :
    v'.Attended := by
  -- with a right to the lock there is no ticket, so the flag is down
  have hflag : v.item.status = .LOCK ∨ v.item.status = .FREE →
      v.ask = none ∧ v.item.isRetried = false := by
    intro hst
    have hask : v.ask = none := by
      rcases hst with hst | hst <;> exact hs.ask_eq_none (by simp [hst]) (by simp [hst])
    refine ⟨hask, (ho.no_ticket (not_waiting hask ?_)).2.2⟩
    rcases hst with hst | hst <;> simp [hst]
  have htold : v.ask = none → v.item.isRetried = true → v.item.status = .ACQING :=
    fun hn hr => ho.acqing hn (tickets_pos hr)
  cases hm with
  | ask t site k hr ha hn =>
    exact h.advance hr.pc_ne.2 (by simp) (by simp) (by simp) (by simp) (.inr (.inr rfl)) id
  | waitAcq t hr hst hre =>
    exact h.advance hr.pc_ne.2 (fun _ _ => rfl) (fun _ => hre) (fun _ => hst) (by simp)
      (.inl hst) id
  | waitFree t hr hst =>
    exact h.advance hr.pc_ne.2 (by simp [hst]) (fun _ => (hflag (.inl hst)).2) (by simp)
      (fun _ => hst) (.inr (.inl hst)) id
  | take t hr hst =>
    exact h.advance hr.pc_ne.2 (by simp) (fun _ => (hflag (.inr hst)).2) (by simp) (by simp)
      (.inr (.inl rfl)) fun _ => rfl
  | granted t site k hpc hask =>
    have hre := (ho.no_ticket (by simp [waiting, hask])).2.2
    exact h.advance (by simp [hpc]) (by simp) (fun _ => hre) (by simp) (by simp)
      (.inr (.inl rfl)) fun _ => rfl
  | refused t site k hpc hask hre =>
    refine h.advance (by simp [hpc]) (fun _ _ => rfl) (fun _ => hre) (fun _ => rfl) (by simp)
      (.inl rfl) fun hl => ?_
    rcases hs.asks (by simp [hask]) with hst | hst <;> simp [hst] at hl
  | askAgain t site site' k k' hpc hask hre =>
    refine h.advance (by simp [hpc]) (by simp) (by simp) (by simp) (by simp)
      (.inl rfl) fun hl => ?_
    rcases hs.asks (by simp [hask]) with hst | hst <;> simp [hst] at hl
  | free t hold hrev =>
    obtain ⟨_, hre⟩ := hflag (.inl (hs.hold t hold))
    exact .broadcast rfl rfl (by simp) (by simp [ClientView.broadcast, hre])
  | giveBack t k hold =>
    obtain ⟨_, hre⟩ := hflag (.inl (hs.hold t hold))
    have hgiving : ∃ u j, update v.pc t (.releasing k) u = .releasing j :=
      ⟨t, k, update_self ..⟩
    exact ⟨parked_update h.parked (by simp [hold]), by simp, by simp [hre],
      fun _ _ => .inr (.inr (.inl hgiving)), fun _ _ => .inr (.inl hgiving)⟩
  | relReturn t k hpc =>
    refine .broadcast rfl rfl (fun hn hq => ?_) htold
    obtain ⟨u, hu⟩ := h.acqing hn hq
    have hne : u ≠ t := by
      rintro rfl
      simp [hpc] at hu
    exact ⟨u, by simpa [hne] using hu⟩
  | revoke hfin => exact ⟨h.parked, h.acqing, h.told, h.acq, h.free⟩
  | revokeCached k hfin =>
    obtain ⟨_, hre⟩ := hflag (.inr (hs.free.mpr hfin))
    have hgiving : k :: v.handlers ≠ [] := by simp
    exact ⟨h.parked, by simp, by simp [hre], fun _ _ => .inr (.inr (.inr hgiving)),
      fun _ _ => .inr (.inr hgiving)⟩
  | retry acq free acqs frees hr ha hf =>
    obtain ⟨hsub, hwoken⟩ := signal_cases ha
    refine ⟨fun t ht => h.parked t (hsub ht), h.acqing, fun hn _ => ?_,
      fun t ht => h.acq t (hsub ht), fun t ht => h.free t ((signal_cases hf).1 ht)⟩
    -- the signal wakes a sleeper; if there was none, the thread that waits is up already
    rcases hwoken with hempty | ⟨t, ht, hout⟩
    · have hpos : 0 < v.tickets := by
        unfold tickets
        omega
      obtain ⟨t, ht⟩ := h.acqing hn (ho.acqing hn hpos)
      exact ⟨t, ht, fun hin => by simpa [hempty] using hsub hin⟩
    · exact ⟨t, h.parked t ht, hout⟩
  | handlerReturn handlers => exact .broadcast rfl rfl h.acqing htold

structure Sound (v : ClientView) : Prop where
  stated : v.Stated
  owed : v.Owed
  attended : v.Attended

theorem Sound.move (h : v.Sound) (hm : ClientMove v v') : v'.Sound :=
  ⟨h.stated.move hm, h.owed.move h.stated hm, h.attended.move h.stated h.owed hm⟩

/-! ## What the server does to a client -/

/-- The server moves the client's call one stage further. -/
theorem Sound.serve (h : v.Sound) {st st' : Stage} {q : Nat} (hask : v.ask = some st)
    (howed : ({ v with ask := some st', queued := q } : ClientView).Owed) :
    ({ v with ask := some st', queued := q } : ClientView).Sound := by
  have hs := h.stated
  have ha := h.attended
  refine ⟨⟨hs.hold, hs.one, hs.lock, hs.free, hs.kept, fun _ => hs.asks (by simp [hask])⟩, howed,
    ⟨ha.parked, by simp, by simp, ha.acq, ha.free⟩⟩

/-- `acquire` of a free lock. -/
theorem Sound.grant (h : v.Sound) (hask : v.ask = some .sent) :
    ({ v with ask := some .granted } : ClientView).Sound :=
  h.serve hask (h.owed.same rfl (by simp [waiting, hask]))

/-- `acquire` of a taken lock: the ticket is an entry in the queue. -/
theorem Sound.enqueue (h : v.Sound) (hask : v.ask = some .sent) :
    ({ v with ask := some .queued, queued := v.queued + 1 } : ClientView).Sound := by
  obtain ⟨hq, hr, hre⟩ := h.owed.no_ticket (by simp [waiting, hask])
  refine h.serve hask ?_
  simp [Owed, tickets, waiting, hq, hr, hre]

/-- RETRY goes back. -/
theorem Sound.refuse (h : v.Sound) (hask : v.ask = some .queued) :
    ({ v with ask := some .refused } : ClientView).Sound :=
  h.serve hask (h.owed.same rfl (by simp [waiting, hask]))

/-- Messages to the client, and an entry that leaves the queue as a retry. -/
theorem Sound.notify (h : v.Sound) {q r n : Nat} {rechecked returning : Prop}
    (htickets : q + r = v.queued + v.retries) :
    ({ v with
      queued := q
      retries := r
      revokes := n
      rechecked := rechecked
      returning := returning } : ClientView).Sound := by
  have hs := h.stated
  have ha := h.attended
  refine ⟨⟨hs.hold, hs.one, hs.lock, hs.free, hs.kept, hs.asks⟩, h.owed.same ?_ Iff.rfl,
    ⟨ha.parked, ha.acqing, ha.told, ha.acq, ha.free⟩⟩
  simp only [tickets, htickets]

/-! ## What the server can rely on -/

/-- It is the client's turn, and it knows or will be told: a retry is on its
way, or the flag is up, or it has asked already. -/
def summoned (v : ClientView) : Prop :=
  0 < v.retries ∨ v.item.isRetried = true ∨ v.ask = some .sent

/-- The client will give the lock back as soon as it has done with it: it
knows that it must, or a revoke is on its way, or will be sent. -/
def recalled (v : ClientView) : Prop := v.rechecked ∨ 0 < v.revokes ∨ v.item.isRevoked = true

def entitled (v : ClientView) : Prop :=
  v.ask = some .granted ∨ v.item.isFinished = true ∨ (∃ t, v.pc t = .holding) ∨ v.returning

/-- A client whose turn has come has no right to the lock. -/
theorem Sound.summoned (h : v.Sound) (hsum : v.summoned) :
    v.item.status = .NONE ∨ v.item.status = .ACQING := by
  by_cases hask : v.ask = none
  · refine .inr (h.owed.acqing hask ?_)
    unfold tickets
    rcases hsum with hr | hr | ha
    · omega
    · simp [hr]
    · simp [hask] at ha
  · exact h.stated.asks hask

theorem summoned.move (h : v.summoned) (hm : ClientMove v v') : v'.summoned := by
  cases hm with
  | ask t site k hr ha hn => exact .inr (.inr rfl)
  | waitAcq t hr hst hre => exact h
  | waitFree t hr hst => exact h
  | take t hr hst => exact h
  | granted t site k hpc hask =>
    rcases h with h | h | h
    · exact .inl h
    · exact .inr (.inl h)
    · simp [hask] at h
  | refused t site k hpc hask hre =>
    rcases h with h | h | h
    · exact .inl h
    · exact .inr (.inl h)
    · simp [hask] at h
  | askAgain t site site' k k' hpc hask hre => exact .inr (.inr rfl)
  | free t hold hrev => exact h
  | giveBack t k hold => exact h
  | relReturn t k hpc => exact h
  | revoke hfin => exact h
  | revokeCached k hfin => exact h
  | retry acq free acqs frees hr ha hf => exact .inr (.inl rfl)
  | handlerReturn handlers => exact h

/-- What a client with the lock does about a revoke: it gives the lock back. -/
theorem recalled.move (h : v.recalled) (hm : ClientMove v v') :
    v'.recalled ∨ (v'.returning ∧ (v.item.isFinished = true ∨ ∃ t, v.pc t = .holding)) := by
  cases hm with
  | ask t site k hr ha hn | waitAcq t hr hst hre | waitFree t hr hst | take t hr hst
  | granted t site k hpc hask | refused t site k hpc hask hre
  | askAgain t site site' k k' hpc hask hre | free t hold hrev => exact .inl h
  | giveBack t k hold => exact .inr ⟨trivial, .inr ⟨t, hold⟩⟩
  | relReturn t k hpc => exact .inl h
  | revoke hfin => exact .inl (.inr (.inr rfl))
  | revokeCached k hfin => exact .inr ⟨trivial, .inl hfin⟩
  | retry acq free acqs frees hr ha hf => exact .inl h
  | handlerReturn handlers => exact .inl h

/-- A client whose turn has come keeps the revoke for later. -/
theorem recalled.move_of_summoned (h : v.recalled) (hv : v.Sound) (hsum : v.summoned)
    (hm : ClientMove v v') : v'.recalled := by
  rcases h.move hm with h' | ⟨_, hright⟩
  · exact h'
  · exfalso
    rcases hright with hfin | ⟨t, ht⟩
    · have hst := hv.stated.free.mpr hfin
      rcases hv.summoned hsum with h | h <;> simp [hst] at h
    · have hst := hv.stated.hold t ht
      rcases hv.summoned hsum with h | h <;> simp [hst] at h

theorem returning_move (h : v.returning) (hm : ClientMove v v') : v'.returning := by
  cases hm with
  | giveBack => exact trivial
  | revokeCached => exact trivial
  | _ => exact h

theorem queued_move (h : v.ask = some .queued) (hm : ClientMove v v') :
    v'.ask = some .queued := by
  cases hm with
  | ask t site k hr ha hn => simp [hn] at h
  | granted t site k hpc hask | refused t site k hpc hask hre
  | askAgain t site site' k k' hpc hask hre => simp [hask] at h
  | _ => exact h

/-- A thread without the lock moves. -/
theorem entitled.update (h : v.entitled) (hpc : v.pc t ≠ .holding)
    (hv : v'.pc = update v.pc t pc) (hfin : v'.item.isFinished = v.item.isFinished)
    (hask : v.ask = some .granted → v'.ask = some .granted) (hret : v'.returning = v.returning) :
    v'.entitled := by
  rcases h with h | h | ⟨u, hu⟩ | h
  · exact .inl (hask h)
  · exact .inr (.inl (hfin.trans h))
  · have hne : u ≠ t := fun he => hpc (he ▸ hu)
    refine .inr (.inr (.inl ⟨u, ?_⟩))
    rw [hv, update_of_ne hne]
    exact hu
  · exact .inr (.inr (.inr (hret ▸ h)))

/-- The right to the lock stays with the client until the server takes it. -/
theorem entitled.move (h : v.entitled) (hm : ClientMove v v') : v'.entitled := by
  cases hm with
  | ask t site k hr ha hn => exact h.update hr.pc_ne.1 rfl rfl (by simp [hn]) rfl
  | waitAcq t hr hst hre | waitFree t hr hst => exact h.update hr.pc_ne.1 rfl rfl id rfl
  | take t hr hst | granted t site k hpc hask => exact .inr (.inr (.inl ⟨t, update_self ..⟩))
  | refused t site k hpc hask hre => exact h.update (by simp [hpc]) rfl rfl (by simp [hask]) rfl
  | askAgain t site site' k k' hpc hask hre =>
    exact h.update (by simp [hpc]) rfl rfl (by simp [hask]) rfl
  | free t hold hrev => exact .inr (.inl rfl)
  | giveBack t k hold => exact .inr (.inr (.inr trivial))
  | relReturn t k hpc => exact h.update (by simp [hpc]) rfl rfl id rfl
  | revoke hfin => exact h
  | revokeCached k hfin => exact .inr (.inr (.inr trivial))
  | retry acq free acqs frees hr ha hf => exact h
  | handlerReturn handlers => exact h

end ClientView

end Yfs.Lock
