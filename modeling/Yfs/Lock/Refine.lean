/-
Yfs.Lock.Refine — the caching lock protocol is its clients' moves and the
server's steps.

While no client has two acquire calls out, `Asks` gives the one call of
each client: the thread that waits for it, its number and how far it is.
`Tracks` ties it to the calls and threads of the state, and `view` reads
off everything that concerns one client. The lemmas from
`client_continues` on are the refinement: a step of a client is a
`ClientMove` of its view and leaves the views of the others alone.
-/
import Yfs.Lock.Calls
import Yfs.Lock.ClientView

namespace Yfs.Lock

open Run Function

/-! ## One run of `acquire` up to its next block -/

/-- What a thread that finds `item` can do before it lets go of the mutex. -/
inductive Continues (item : ClientLock) : Outcome × ClientLock → Prop
  | send (site : CallSite) : item.asks → Continues item (.sendAcq site, item.sendAcqToSvr)
  | waitAcq : item.status = .ACQING → item.isRetried = false → Continues item (.waitAcq, item)
  | waitFree : item.status = .LOCK → Continues item (.waitFree, item)
  | locked : item.status = .FREE →
      Continues item (.locked, { item with isFinished := false, status := .LOCK })
  | abort : Continues item (.abort, item)

theorem switch_continues (item : ClientLock) : Continues item (switch item) := by
  unfold switch
  cases hst : item.status with
  | NONE => exact .send _ (.inl hst)
  | FREE => exact .locked hst
  | LOCK =>
    simp only [waitFreeWhile, if_pos hst]
    exact .waitFree hst
  | RELEASING => exact .abort
  | ACQING =>
    cases hre : item.isRetried with
    | true =>
      simp only [dealWithStatusACQ, hre, if_true]
      exact .send _ (.inr ⟨hst, hre⟩)
    | false =>
      simp only [dealWithStatusACQ, waitAcqWhile, hre, hst, and_self, if_true, Bool.false_eq_true,
        if_false]
      exact .waitAcq hst hre

theorem waitFreeWhile_continues (item : ClientLock) :
    Continues item (loopAgain switch (waitFreeWhile item)) := by
  by_cases hst : item.status = .LOCK
  · simp only [waitFreeWhile, if_pos hst, loopAgain, reduceCtorEq, if_false]
    exact .waitFree hst
  · simp only [waitFreeWhile, if_neg hst, loopAgain, if_true]
    exact switch_continues item

theorem waitAcqWhile_continues (item : ClientLock) :
    Continues item (loopAgain switch (waitAcqWhile item)) := by
  by_cases hst : item.status = .ACQING
  · cases hre : item.isRetried with
    | true =>
      simp only [waitAcqWhile, hst, hre, Bool.true_eq_false, and_false, if_false, and_self, if_true,
        loopAgain, reduceCtorEq]
      exact .send _ (.inr ⟨hst, hre⟩)
    | false =>
      simp only [waitAcqWhile, hst, hre, and_self, if_true, loopAgain, reduceCtorEq, if_false]
      exact .waitAcq hst hre
  · simp only [waitAcqWhile, hst, false_and, and_false, if_false, loopAgain, if_true]
    exact switch_continues item

theorem resumeSend_continues (site : CallSite) (item : ClientLock) (ret : Int) :
    Continues (item.sendAcqReturn ret) (resumeSend site item ret) := by
  cases site with
  | statusNONE => exact switch_continues _
  | retried1 => exact waitAcqWhile_continues _
  | retried2 => exact switch_continues _

/-! ## The call of each client -/

/-- The thread that waits for the client's acquire call, the number of the
call, and how far it is. -/
abbrev Asks := UserId → Option (ThreadId × Nat × Stage)

def AcqCall.stage : AcqCall → Option (UserId × Stage)
  | .unused => none
  | .sent id => some (id, .sent)
  | .revoking id => some (id, .queued)
  | .replied id ret => some (id, if ret = 0 then .granted else .refused)
  | .done => none

theorem AcqCall.asker_eq (a : AcqCall) : a.asker = a.stage.map Prod.fst := by
  cases a <;> rfl

/-- Each client has at most one acquire call out, and `ask` says which. -/
structure Tracks (pc : UserId → ThreadId → Pc) (calls : Nat → AcqCall) (ask : Asks) : Prop where
  sending : ∀ c t site k, pc c t = .sending site k → ∃ st, ask c = some (t, k, st)
  thread : ∀ c t k st, ask c = some (t, k, st) → ∃ site, pc c t = .sending site k
  call : ∀ c k st, (calls k).stage = some (c, st) ↔ ∃ t, ask c = some (t, k, st)

section Tracks

variable {pc : UserId → ThreadId → Pc} {calls : Nat → AcqCall} {ask : Asks} {c : UserId}
  {t : ThreadId} {k : Nat} {st : Stage}

theorem Tracks.init : Tracks (fun _ _ => .idle) (fun _ => .unused) fun _ => none := by
  refine ⟨?_, ?_, ?_⟩ <;> simp [AcqCall.stage]

/-- A thread that is in no call moves elsewhere. -/
theorem Tracks.moves (h : Tracks pc calls ask) {p : Pc} (hold : ∀ site k, pc c t ≠ .sending site k)
    (hp : ∀ site k, p ≠ .sending site k) :
    Tracks (update pc c (update (pc c) t p)) calls ask := by
  have hpc : ∀ d u site k, update pc c (update (pc c) t p) d u = .sending site k ↔
      pc d u = .sending site k := by
    intro d u site k
    rcases eq_or_ne d c with rfl | hd
    · rcases eq_or_ne u t with rfl | hu
      · simp [hold, hp]
      · simp [hu]
    · simp [hd]
  refine ⟨fun d u site j hu => h.sending d u site j ((hpc d u site j).mp hu), ?_, h.call⟩
  intro d u j st hu
  obtain ⟨site, hs⟩ := h.thread d u j st hu
  exact ⟨site, (hpc d u site j).mpr hs⟩

/-- A client that has no call out makes one. -/
theorem Tracks.asks (h : Tracks pc calls ask) (hc : ask c = none) (hk : calls k = .unused)
    (site : CallSite) :
    Tracks (update pc c (update (pc c) t (.sending site k)))
      (update calls k (.sent c)) (update ask c (some (t, k, .sent))) := by
  -- nobody else has call `k`
  have hfree : ∀ d u st, ask d ≠ some (u, k, st) := by
    intro d u st hd
    have hst := (h.call d k st).mpr ⟨u, hd⟩
    simp [hk, AcqCall.stage] at hst
  refine ⟨?_, ?_, ?_⟩
  · intro d u site' j hu
    rcases eq_or_ne d c with rfl | hd
    · rcases eq_or_ne u t with rfl | hne
      · simp only [update_self, Pc.sending.injEq] at hu
        exact ⟨.sent, by simp [hu.2]⟩
      · simp only [update_self, update_of_ne hne] at hu
        obtain ⟨st, hst⟩ := h.sending d u site' j hu
        simp [hc] at hst
    · simp only [update_of_ne hd] at hu ⊢
      exact h.sending d u site' j hu
  · intro d u j st hu
    rcases eq_or_ne d c with rfl | hd
    · simp only [update_self, Option.some.injEq, Prod.mk.injEq] at hu
      obtain ⟨rfl, rfl, _⟩ := hu
      exact ⟨site, by simp⟩
    · simp only [update_of_ne hd] at hu ⊢
      exact h.thread d u j st hu
  · intro d j st
    rcases eq_or_ne d c with rfl | hd
    · rcases eq_or_ne j k with rfl | hj
      · simp [AcqCall.stage]
      · simp [hj, h.call, hc, Ne.symm hj]
    · rw [update_of_ne hd]
      rcases eq_or_ne j k with rfl | hj
      · simp [AcqCall.stage, Ne.symm hd, hfree]
      · rw [update_of_ne hj]
        exact h.call d j st

/-- Only the call of the client changes. -/
theorem Tracks.serve (h : Tracks pc calls ask) {a : AcqCall} {st' : Stage}
    (hc : (calls k).stage = some (c, st)) (ha : a.stage = some (c, st')) :
    ∃ t, ask c = some (t, k, st) ∧
      Tracks pc (update calls k a) (update ask c (some (t, k, st'))) := by
  obtain ⟨t, ht⟩ := (h.call c k st).mp hc
  refine ⟨t, ht, ?_, ?_, ?_⟩
  · intro d u site j hu
    obtain ⟨sd, hsd⟩ := h.sending d u site j hu
    rcases eq_or_ne d c with rfl | hd
    · obtain ⟨rfl, rfl, _⟩ : t = u ∧ k = j ∧ st = sd := by simpa [ht] using hsd
      exact ⟨st', by simp⟩
    · exact ⟨sd, by rw [update_of_ne hd, hsd]⟩
  · intro d u j sd hu
    rcases eq_or_ne d c with rfl | hd
    · simp only [update_self, Option.some.injEq, Prod.mk.injEq] at hu
      obtain ⟨rfl, rfl, _⟩ := hu
      exact h.thread d t k st ht
    · rw [update_of_ne hd] at hu
      exact h.thread d u j sd hu
  · intro d j sd
    rcases eq_or_ne j k with rfl | hj
    · rw [update_self, ha]
      rcases eq_or_ne d c with rfl | hd
      · simp
      · rw [update_of_ne hd, ← h.call, hc]
        simp [Ne.symm hd]
    · rw [update_of_ne hj, h.call]
      rcases eq_or_ne d c with rfl | hd
      · simp [ht, Ne.symm hj]
      · rw [update_of_ne hd]

/-- The call of the client is over. -/
theorem Tracks.finish (h : Tracks pc calls ask) (hc : ask c = some (t, k, st)) {p : Pc}
    (hp : ∀ site k, p ≠ .sending site k) :
    Tracks (update pc c (update (pc c) t p)) (update calls k .done)
      (update ask c none) := by
  have hk : (calls k).stage = some (c, st) := (h.call c k st).mpr ⟨t, hc⟩
  refine ⟨?_, ?_, ?_⟩
  · intro d u site j hu
    rcases eq_or_ne d c with rfl | hd
    · rcases eq_or_ne u t with rfl | hne
      · simp only [update_self] at hu
        exact absurd hu (hp site j)
      · simp only [update_self, update_of_ne hne] at hu
        obtain ⟨sd, hsd⟩ := h.sending d u site j hu
        obtain ⟨rfl, _⟩ : t = u ∧ k = j ∧ st = sd := by simpa [hc] using hsd
        exact absurd rfl hne
    · simp only [update_of_ne hd] at hu ⊢
      exact h.sending d u site j hu
  · intro d u j sd hu
    rcases eq_or_ne d c with rfl | hd
    · simp at hu
    · simp only [update_of_ne hd] at hu ⊢
      exact h.thread d u j sd hu
  · intro d j sd
    rcases eq_or_ne j k with rfl | hj
    · rw [update_self]
      rcases eq_or_ne d c with rfl | hd
      · simp [AcqCall.stage]
      · rw [update_of_ne hd, ← h.call, hk]
        simp [AcqCall.stage, Ne.symm hd]
    · rw [update_of_ne hj, h.call]
      rcases eq_or_ne d c with rfl | hd
      · simp [hc, Ne.symm hj]
      · rw [update_of_ne hd]

end Tracks

/-! ## The views -/

def WaitSys.view (s : WaitSys) (ask : Asks) (c : UserId) : ClientView :=
  { item := s.sys.item c
    pc := s.sys.pc c
    waitAcq := s.waitAcq c
    waitFree := s.waitFree c
    handlers := s.handlers c
    ask := (ask c).map (·.2.2)
    queued := s.sys.srv.retryQueue.count c
    retries := s.sys.retries.count c
    revokes := s.sys.revokes.count c
    rechecked := ∃ k, s.sys.relCalls k = .retrying c
    returning := ∃ k, s.sys.relCalls k = .sent c }

def ClientStep (s : WaitSys) (ask : Asks) (s' : WaitSys) (ask' : Asks) (c : UserId) : Prop :=
  Tracks s'.sys.pc s'.sys.acqCalls ask' ∧ ClientMove (s.view ask c) (s'.view ask' c) ∧
    (∀ d, d ≠ c → s'.view ask' d = s.view ask d) ∧ s'.sys.srv = s.sys.srv

section Client

variable {s s' : WaitSys} {ask : Asks} {c : UserId} {t : ThreadId}

/-- A thread has run `acquire` up to its next block. -/
theorem ClientStep.park {sys : LockSys} {item : ClientLock} {p : Pc} {ask' : Asks}
    (htr : Tracks sys.pc sys.acqCalls ask') (hask : ∀ d, d ≠ c → ask' d = ask d)
    (hitem : sys.item = update s.sys.item c item)
    (hpc : sys.pc = update s.sys.pc c (update (s.sys.pc c) t p))
    (hsrv : sys.srv = s.sys.srv) (hrel : sys.relCalls = s.sys.relCalls)
    (hrevokes : sys.revokes = s.sys.revokes) (hretries : sys.retries = s.sys.retries)
    (hm : ClientMove (s.view ask c)
      ((s.view ask c).advance t item p ((ask' c).map (·.2.2)))) :
    ClientStep s ask ({ s with sys := sys }.park c t) ask' c := by
  refine ⟨htr, ?_, ?_, hsrv⟩
  · convert hm using 1
    simp [WaitSys.view, WaitSys.park, ClientView.advance, hitem, hpc, hsrv, hrel, hrevokes,
      hretries]
  · intro d hd
    simp [WaitSys.view, WaitSys.park, hitem, hpc, hsrv, hrel, hrevokes, hretries, hd, hask d hd]

/-- `acquire` from its start or from a condition variable. -/
theorem client_continues {r : Outcome × ClientLock} {sys : LockSys}
    (htr : Tracks s.sys.pc s.sys.acqCalls ask) (hfresh : s.sys.Fresh)
    (hready : (s.view ask c).ready t) (hr : Continues (s.sys.item c) r)
    (hsole : (s.sys.item c).asks → ask c = none) (hs : s.sys.blocked c t r = some sys) :
    ∃ ask', ClientStep s ask ({ s with sys := sys }.park c t) ask' c := by
  have hnot : ∀ site k, s.sys.pc c t ≠ .sending site k := by
    rcases hready with h | h | h <;> simp [show s.sys.pc c t = _ from h]
  rcases blocked_some hs with ⟨site, hsite, rfl⟩ | ⟨p, hp, rfl⟩
  · cases hr with
    | send _ ha =>
      refine ⟨_, .park (htr.asks (hsole ha) (hfresh _ le_rfl).1 site)
        (fun d hd => update_of_ne hd ..) rfl rfl rfl rfl rfl rfl ?_⟩
      rw [update_self]
      exact .ask t site _ hready ha (by simp [WaitSys.view, hsole ha])
    | _ => simp at hsite
  · have hnp : ∀ site k, p ≠ .sending site k := by
      rcases hp with ⟨_, rfl⟩ | ⟨_, rfl⟩ | ⟨_, rfl⟩ <;> simp
    refine ⟨ask, .park (htr.moves hnot hnp) (fun _ _ => rfl) rfl rfl rfl rfl rfl rfl ?_⟩
    cases hr with
    | send _ _ => simp at hp
    | waitAcq hst hre =>
      obtain rfl : p = .waitAcq := by simpa using hp
      exact .waitAcq t hready hst hre
    | waitFree hst =>
      obtain rfl : p = .waitFree := by simpa using hp
      exact .waitFree t hready hst
    | locked hst =>
      obtain rfl : p = .holding := by simpa using hp
      exact .take t hready hst
    | abort => simp at hp

/-- A call that is over leaves room for the next one of the same thread. -/
theorem Tracks.asksAgain {pc : UserId → ThreadId → Pc} {calls : Nat → AcqCall} {k n : Nat}
    {st : Stage} (h : Tracks pc calls ask) (hc : ask c = some (t, k, st))
    (hn : calls n = .unused) (site : CallSite) :
    Tracks (update pc c (update (pc c) t (.sending site n)))
      (update (update calls k .done) n (.sent c))
      (update ask c (some (t, n, .sent))) := by
  have hk : (calls k).stage = some (c, st) := (h.call c k st).mpr ⟨t, hc⟩
  have hne : n ≠ k := by
    rintro rfl
    simp [hn, AcqCall.stage] at hk
  have hover := h.finish hc (p := .idle) (by simp)
  have hnext := hover.asks (k := n) (t := t) (update_self ..)
    (by rw [update_of_ne hne, hn]) site
  simpa [update_idem] using hnext

/-- `acquire` from a call to the server that has come back. -/
theorem client_returns {site : CallSite} {k : Nat} {ret : Int} {sys : LockSys}
    (htr : Tracks s.sys.pc s.sys.acqCalls ask) (hfresh : s.sys.Fresh)
    (hpc : s.sys.pc c t = .sending site k) (hk : s.sys.acqCalls k = .replied c ret)
    (hs : (s.sys.setAcq k .done).blocked c t (resumeSend site (s.sys.item c) ret) = some sys) :
    ∃ ask', ClientStep s ask ({ s with sys := sys }.park c t) ask' c := by
  obtain ⟨st, hst⟩ := htr.sending c t site k hpc
  have hstage := (htr.call c k st).mpr ⟨t, hst⟩
  simp only [hk, AcqCall.stage, Option.some.injEq, Prod.mk.injEq, true_and] at hstage
  have hask : (s.view ask c).ask = some st := by simp [WaitSys.view, hst]
  by_cases hret : ret = 0
  · subst hret
    obtain rfl : Stage.granted = st := by simpa using hstage
    rw [resumeSend_ok] at hs
    cases hs
    refine ⟨_, .park (htr.finish hst (p := .holding) (by simp))
      (fun d hd => update_of_ne hd ..) rfl rfl rfl rfl rfl rfl ?_⟩
    rw [update_self]
    exact .granted t site k hpc hask
  · obtain rfl : Stage.refused = st := by simpa [hret] using hstage
    have hcont := resumeSend_continues site (s.sys.item c) ret
    rw [ClientLock.sendAcqReturn, if_neg hret] at hcont
    generalize resumeSend site (s.sys.item c) ret = r at hs hcont
    rcases blocked_some hs with ⟨site', hsite, rfl⟩ | ⟨p, hp, rfl⟩
    · cases hcont with
      | send _ ha =>
        -- the retry overtook the RETRY reply
        have hre : (s.sys.item c).isRetried = true := by simpa [ClientLock.asks] using ha
        refine ⟨_, .park (htr.asksAgain hst (hfresh _ le_rfl).1 site')
          (fun d hd => update_of_ne hd ..) rfl rfl rfl rfl rfl rfl ?_⟩
        rw [update_self]
        exact .askAgain t site site' k _ hpc hask hre
      | _ => simp at hsite
    · cases hcont with
      | waitAcq _ hre =>
        obtain rfl : p = .waitAcq := by simpa using hp
        refine ⟨_, .park (htr.finish hst (p := .waitAcq) (by simp))
          (fun d hd => update_of_ne hd ..) rfl rfl rfl rfl rfl rfl ?_⟩
        rw [update_self]
        exact .refused t site k hpc hask hre
      | send _ _ => simp at hp
      | waitFree h => simp at h
      | locked h => simp at h
      | abort => simp at hp

/-- A call that is neither before nor after what we look for. -/
theorem exists_update_iff {α : Type*} {calls : Nat → α} {k : Nat} {a x : α} (hk : calls k ≠ x)
    (ha : a ≠ x) : (∃ j, update calls k a j = x) ↔ ∃ j, calls j = x := by
  constructor
  · rintro ⟨j, hj⟩
    rcases eq_or_ne j k with rfl | hne
    · rw [update_self] at hj
      exact absurd hj ha
    · exact ⟨j, by rwa [update_of_ne hne] at hj⟩
  · rintro ⟨j, hj⟩
    have hne : j ≠ k := fun he => hk (he ▸ hj)
    exact ⟨j, by rwa [update_of_ne hne]⟩

/-- A new release call: the client gives the lock back, and nobody else. -/
theorem opened_call {calls : Nat → RelCall} {k : Nat} (hk : calls k = .unused) :
    (∀ d, (∃ j, update calls k (.sent c) j = .retrying d) ↔ ∃ j, calls j = .retrying d) ∧
      (∃ j, update calls k (.sent c) j = .sent c) ∧
      ∀ d, d ≠ c → ((∃ j, update calls k (.sent c) j = .sent d) ↔
        ∃ j, calls j = .sent d) :=
  ⟨fun _ => exists_update_iff (by simp [hk]) (by simp), ⟨k, update_self ..⟩,
    fun _ hd => exists_update_iff (by simp [hk]) (by simp [Ne.symm hd])⟩

/-- `release`, by the thread that holds the lock. -/
theorem client_release (htr : Tracks s.sys.pc s.sys.acqCalls ask) (hfresh : s.sys.Fresh)
    (hv : (s.view ask c).Stated) (hs : waitStep s (.run (.release c t)) = some s') :
    ClientStep s ask s' ask c := by
  obtain ⟨sys, hsys, hafter⟩ := Option.bind_eq_some_iff.mp hs
  cases trans_of_lockStep hsys with
  | release hold =>
    have hst : (s.sys.item c).status ≠ .NONE := by
      have hl : (s.sys.item c).status = .LOCK := hv.hold t hold
      simp [hl]
    cases hrev : (s.sys.item c).isRevoked with
    | false =>
      have hr : dealRelease (s.sys.item c) =
          (.freed, { s.sys.item c with status := .FREE, isFinished := true }) := by
        simp [dealRelease, hst, hrev]
      simp only [WaitSys.after, hr, LockSys.sendRelease, reduceCtorEq, if_false] at hafter
      cases hafter
      refine ⟨htr.moves (by simp [hold]) (by simp), ?_, fun d hd => ?_, rfl⟩
      · convert ClientMove.free (v := s.view ask c) t hold hrev using 1
        simp [WaitSys.view, WaitSys.broadcast, LockSys.setItem, LockSys.setPc, ClientView.broadcast]
      · simp [WaitSys.view, WaitSys.broadcast, LockSys.setItem, LockSys.setPc, hd]
    | true =>
      have hr : dealRelease (s.sys.item c) = (.callServer,
          { s.sys.item c with status := .NONE, isFinished := false, isRevoked := false }) := by
        simp [dealRelease, hst, hrev]
      simp only [WaitSys.after, hr, LockSys.sendRelease, if_true] at hafter
      cases hafter
      obtain ⟨hretrying, hsent, hother⟩ := opened_call (c := c) (hfresh _ le_rfl).2
      refine ⟨htr.moves (by simp [hold]) (by simp), ?_, fun d hd => ?_, rfl⟩
      · convert ClientMove.giveBack (v := s.view ask c) t s.sys.nextCall hold using 1
        simp [WaitSys.view, LockSys.setItem, LockSys.setPc, LockSys.setRel, hretrying, hsent]
      · simp [WaitSys.view, LockSys.setItem, LockSys.setPc, LockSys.setRel, hd, hretrying,
          hother d hd]

/-- A release call that was answered is closed: nothing was on its way. -/
theorem closed_call {calls : Nat → RelCall} {k : Nat} (hk : calls k = .replied) (d : UserId) :
    ((∃ j, update calls k .done j = .retrying d) ↔ ∃ j, calls j = .retrying d) ∧
      ((∃ j, update calls k .done j = .sent d) ↔ ∃ j, calls j = .sent d) :=
  ⟨exists_update_iff (by simp [hk]) (by simp), exists_update_iff (by simp [hk]) (by simp)⟩

/-- `release` comes back from the server. -/
theorem client_relReturn (htr : Tracks s.sys.pc s.sys.acqCalls ask)
    (hs : waitStep s (.run (.relReturn c t)) = some s') : ClientStep s ask s' ask c := by
  obtain ⟨sys, hsys, hafter⟩ := Option.bind_eq_some_iff.mp hs
  cases trans_of_lockStep hsys with
  | @relReturn _ _ k hpc hk =>
    cases hafter
    refine ⟨htr.moves (by simp [hpc]) (by simp), ?_, fun d hd => ?_, rfl⟩
    · convert ClientMove.relReturn (v := s.view ask c) t k hpc using 1
      simp [WaitSys.view, WaitSys.broadcast, LockSys.setPc, LockSys.setRel, ClientView.broadcast,
        closed_call hk]
    · simp [WaitSys.view, WaitSys.broadcast, LockSys.setPc, LockSys.setRel, hd, closed_call hk]

/-- `revoke_handler` comes back from the server. -/
theorem client_handlerReturn {k : Nat} (htr : Tracks s.sys.pc s.sys.acqCalls ask)
    (hs : waitStep s (.handlerReturn c k) = some s') : ClientStep s ask s' ask c := by
  obtain ⟨hk, rfl⟩ := Run.of_guard hs
  refine ⟨htr, ?_, fun d hd => ?_, rfl⟩
  · convert ClientMove.handlerReturn (v := s.view ask c)
      ((s.handlers c).filter (· ≠ k)) using 1
    simp [WaitSys.view, WaitSys.broadcast, LockSys.setRel, ClientView.broadcast,
      closed_call hk.2]
  · simp [WaitSys.view, WaitSys.broadcast, LockSys.setRel, hd, closed_call hk.2]

/-- `retry_handler`. -/
theorem client_retryHandler {acq free : Option ThreadId}
    (htr : Tracks s.sys.pc s.sys.acqCalls ask)
    (hs : waitStep s (.retryHandler c acq free) = some s') : ClientStep s ask s' ask c := by
  obtain ⟨sys, hsys, hs⟩ := Option.bind_eq_some_iff.mp hs
  obtain ⟨acqs, hacqs, hs⟩ := Option.bind_eq_some_iff.mp hs
  obtain ⟨frees, hfrees, rfl⟩ := Option.map_eq_some_iff.mp hs
  cases trans_of_lockStep hsys with
  | retryHandler hmem =>
    refine ⟨htr, ?_, fun d hd => ?_, rfl⟩
    · convert ClientMove.retry (v := s.view ask c) acq free acqs frees
        (List.count_pos_iff.mpr hmem) hacqs hfrees using 1
      simp [WaitSys.view, LockSys.setItem, retryHandler]
    · simp [WaitSys.view, LockSys.setItem, hd, List.count_erase_of_ne hd]

/-- `revoke_handler`. -/
theorem client_revokeHandler (htr : Tracks s.sys.pc s.sys.acqCalls ask) (hfresh : s.sys.Fresh)
    (hv : (s.view ask c).Stated) (hs : waitStep s (.run (.revokeHandler c)) = some s') :
    ClientStep s ask s' ask c := by
  obtain ⟨sys, hsys, hafter⟩ := Option.bind_eq_some_iff.mp hs
  cases trans_of_lockStep hsys with
  | revokeHandler hmem =>
    cases hfin : (s.sys.item c).isFinished with
    | false =>
      have hr : revokeHandler (s.sys.item c) =
          (.nothing, { s.sys.item c with isRevoked := true }) := by
        simp [revokeHandler, hfin]
      simp only [WaitSys.after, hr, LockSys.sendRelease] at hafter
      cases hafter
      refine ⟨htr, ?_, fun d hd => ?_, rfl⟩
      · convert ClientMove.revoke (v := s.view ask c) hfin using 1
        simp [WaitSys.view, LockSys.setItem]
      · simp [WaitSys.view, LockSys.setItem, hd, List.count_erase_of_ne hd]
    | true =>
      have hst : (s.sys.item c).status ≠ .NONE := by
        have hl : (s.sys.item c).status = .FREE := hv.free.mpr hfin
        simp [hl]
      have hr : revokeHandler (s.sys.item c) = (.callServer,
          { s.sys.item c with status := .NONE, isFinished := false, isRevoked := false }) := by
        simp [revokeHandler, dealRelease, hfin, hst]
      simp only [WaitSys.after, hr, LockSys.sendRelease] at hafter
      cases hafter
      obtain ⟨hretrying, hsent, hother⟩ := opened_call (c := c) (hfresh _ le_rfl).2
      refine ⟨htr, ?_, fun d hd => ?_, rfl⟩
      · convert ClientMove.revokeCached (v := s.view ask c) s.sys.nextCall hfin using 1
        simp [WaitSys.view, LockSys.setItem, LockSys.setRel, hretrying, hsent]
      · simp [WaitSys.view, LockSys.setItem, LockSys.setRel, hd, hretrying, hother d hd,
          List.count_erase_of_ne hd]

end Client

end Yfs.Lock
