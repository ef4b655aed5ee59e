/-
Yfs.Lock.Calls — the calls of the caching lock protocol.

Two facts about any run: a number that was not given out belongs to no call
(`Fresh`), and whoever is inside a release call, a thread or a
`revoke_handler`, is alone with it and will hear from it (`Rels`).
-/
import Yfs.Lock.Waiters

namespace Yfs.Lock

open Function

/-! ## The steps by what they write -/

/-- Where the thread is afterwards, and its call if it makes one. -/
theorem blocked_some {s s' : LockSys} {c : UserId} {t : ThreadId} {r : Outcome × ClientLock}
    (hs : s.blocked c t r = some s') :
    (∃ site, r.1 = .sendAcq site ∧
      s' = { ((s.setItem c r.2).setPc c t (.sending site s.nextCall)).setAcq s.nextCall
        (.sent c) with nextCall := s.nextCall + 1 }) ∨
    ∃ pc, (r.1 = .waitAcq ∧ pc = .waitAcq ∨ r.1 = .waitFree ∧ pc = .waitFree ∨
      r.1 = .locked ∧ pc = .holding) ∧ s' = (s.setItem c r.2).setPc c t pc := by
  unfold LockSys.blocked at hs
  cases hr : r.1 with
  | sendAcq site =>
    simp only [hr, Option.some.injEq] at hs
    exact .inl ⟨site, rfl, hs.symm⟩
  | waitAcq =>
    simp only [hr, Option.some.injEq] at hs
    exact .inr ⟨.waitAcq, .inl ⟨rfl, rfl⟩, hs.symm⟩
  | waitFree =>
    simp only [hr, Option.some.injEq] at hs
    exact .inr ⟨.waitFree, .inr (.inl ⟨rfl, rfl⟩), hs.symm⟩
  | locked =>
    simp only [hr, Option.some.injEq] at hs
    exact .inr ⟨.holding, .inr (.inr ⟨rfl, rfl⟩), hs.symm⟩
  | again => simp [hr] at hs
  | abort => simp [hr] at hs

theorem serveAcquire_some {s s' : LockSys} {k : Nat} {id : UserId}
    (hs : s.serveAcquire k id = some s') :
    (s.srv.isLocked = false ∧ s' = { s.setAcq k (.replied id 0) with
      srv := { s.srv with isLocked := true, userId := id } }) ∨
    (s.srv.isLocked = true ∧ s' = { s.setAcq k (.revoking id) with
      srv := { s.srv with retryQueue := s.srv.retryQueue ++ [id] } }) := by
  unfold LockSys.serveAcquire ServerLock.acquire at hs
  by_cases hl : s.srv.isLocked = false
  · simp only [if_pos hl, Option.some.injEq] at hs
    exact .inl ⟨hl, hs.symm⟩
  · by_cases hu : s.srv.userId = []
    · simp [hl, hu] at hs
    · simp only [if_neg hl, if_neg hu, Option.some.injEq] at hs
      exact .inr ⟨by simpa using hl, hs.symm⟩

theorem serveRelease_cases (s : LockSys) (k : Nat) :
    (s.srv.retryQueue = [] ∧ s.serveRelease k =
      { s.setRel k .replied with srv := { s.srv with isLocked := false } }) ∨
    ∃ user rest, s.srv.retryQueue = user :: rest ∧ s.serveRelease k =
      { s.setRel k (.retrying user) with
        srv := { s.srv with isLocked := false, retryQueue := rest }
        retries := user :: s.retries } := by
  unfold LockSys.serveRelease ServerLock.release
  cases hq : s.srv.retryQueue with
  | nil => exact .inl ⟨rfl, by simp [hq]⟩
  | cons user rest => exact .inr ⟨user, rest, rfl, rfl⟩

theorem setPc_of_ne {s : LockSys} {c d : UserId} {t u : ThreadId} {p : Pc} (h : (d, u) ≠ (c, t)) :
    (s.setPc d u p).pc c t = s.pc c t := by
  rcases eq_or_ne c d with rfl | hd
  · have hne : t ≠ u := fun he => h (by rw [he])
    simp [LockSys.setPc, hne]
  · simp [LockSys.setPc, hd]

/-! ## Fresh numbers -/

/-- The numbers from `nextCall` on belong to no call yet. -/
def LockSys.Fresh (s : LockSys) : Prop :=
  ∀ k, s.nextCall ≤ k → s.acqCalls k = .unused ∧ s.relCalls k = .unused

section Fresh

variable {s s' : LockSys} {k : Nat}

theorem LockSys.Fresh.lt_of_acq (h : s.Fresh) (hk : s.acqCalls k ≠ .unused) : k < s.nextCall := by
  by_contra hle
  exact hk (h k (by omega)).1

theorem LockSys.Fresh.lt_of_rel (h : s.Fresh) (hk : s.relCalls k ≠ .unused) : k < s.nextCall := by
  by_contra hle
  exact hk (h k (by omega)).2

/-- Only numbers that are given out by then have changed. -/
theorem LockSys.Fresh.of_changed (h : s.Fresh) (hn : s.nextCall ≤ s'.nextCall)
    (hacq : ∀ j, s'.nextCall ≤ j → s'.acqCalls j = s.acqCalls j)
    (hrel : ∀ j, s'.nextCall ≤ j → s'.relCalls j = s.relCalls j) : s'.Fresh := by
  intro j hj
  rw [hacq j hj, hrel j hj]
  exact h j (by omega)

theorem LockSys.Fresh.setAcq (h : s.Fresh) (hk : s.acqCalls k ≠ .unused) (a : AcqCall) :
    (s.setAcq k a).Fresh := by
  have hlt := h.lt_of_acq hk
  refine h.of_changed le_rfl (fun j hj => ?_) fun _ _ => rfl
  have hne : j ≠ k := by
    rintro rfl
    exact absurd hj (by simpa [LockSys.setAcq] using hlt)
  exact update_of_ne hne ..

theorem LockSys.Fresh.setRel (h : s.Fresh) (hk : s.relCalls k ≠ .unused) (r : RelCall) :
    (s.setRel k r).Fresh := by
  have hlt := h.lt_of_rel hk
  refine h.of_changed le_rfl (fun _ _ => rfl) fun j hj => ?_
  have hne : j ≠ k := by
    rintro rfl
    exact absurd hj (by simpa [LockSys.setRel] using hlt)
  exact update_of_ne hne ..

theorem LockSys.Fresh.blocked {c : UserId} {t : ThreadId} {r : Outcome × ClientLock}
    (h : s.Fresh) (hs : s.blocked c t r = some s') : s'.Fresh := by
  rcases blocked_some hs with ⟨site, _, rfl⟩ | ⟨p, _, rfl⟩
  · refine h.of_changed (Nat.le_succ _) (fun j hj => ?_) fun _ _ => rfl
    have hj' : s.nextCall + 1 ≤ j := hj
    exact update_of_ne (by omega) ..
  · exact h

theorem LockSys.Fresh.sendRelease (h : s.Fresh) (c : UserId) (r : ReleaseAct × ClientLock) :
    (s.sendRelease c r).Fresh := by
  unfold LockSys.sendRelease
  split
  · refine h.of_changed (Nat.le_succ _) (fun _ _ => rfl) fun j hj => ?_
    have hj' : s.nextCall + 1 ≤ j := hj
    exact update_of_ne (by omega) ..
  · exact h
  · exact h

theorem fresh_step {e : Event} (h : s.Fresh) (hs : lockStep s e = some s') : s'.Fresh := by
  cases trans_of_lockStep hs with
  | acquire hpc hb | wakeAcq hpc hb | wakeFree hpc hb => exact h.blocked hb
  | acqReturn hpc hk hb => exact (h.setAcq (by simp [hk]) _).blocked hb
  | acqFails hpc hb => exact h.blocked hb
  | release hold => exact h.sendRelease _ _
  | relReturn hpc hk => exact h.setRel (by simp [hk]) _
  | @revokeHandler c hmem =>
    exact LockSys.Fresh.sendRelease (s := { s with revokes := s.revokes.erase c }) h c _
  | retryHandler hmem => exact h
  | srvAcquire hk hb =>
    rcases serveAcquire_some hb with ⟨_, rfl⟩ | ⟨_, rfl⟩
    · exact h.setAcq (by simp [hk]) _
    · exact h.setAcq (by simp [hk]) _
  | srvRevoke hk => exact h.setAcq (by simp [hk]) _
  | srvRelease hk =>
    unfold LockSys.serveRelease
    split
    · exact h.setRel (by simp [hk]) _
    · exact h.setRel (by simp [hk]) _
  | srvRetried hk => exact h.setRel (by simp [hk]) _

end Fresh

theorem after_sys {s s' : WaitSys} {sys : LockSys} {e : Event} (h : s.after sys e = some s') :
    s'.sys = sys := by
  cases e with
  | release c t =>
    simp only [WaitSys.after] at h
    split at h <;> exact congrArg WaitSys.sys (Option.some.inj h).symm
  | revokeHandler c =>
    simp only [WaitSys.after] at h
    split at h <;> exact congrArg WaitSys.sys (Option.some.inj h).symm
  | retryHandler c => simp [WaitSys.after] at h
  | _ => exact congrArg WaitSys.sys (Option.some.inj h).symm

/-- Without the condition variables a step is a step of the protocol, or the
end of a `revoke_handler` that called the server. -/
theorem waitStep_sys {s s' : WaitSys} {e : WaitEvent} (hs : waitStep s e = some s') :
    (∃ e', lockStep s.sys e' = some s'.sys) ∨
      ∃ k, s.sys.relCalls k = .replied ∧ s'.sys = s.sys.setRel k .done := by
  cases e with
  | run e =>
    obtain ⟨sys, hsys, hafter⟩ := Option.bind_eq_some_iff.mp hs
    exact .inl ⟨e, by rw [after_sys hafter, hsys]⟩
  | retryHandler c acq free =>
    obtain ⟨sys, hsys, hs⟩ := Option.bind_eq_some_iff.mp hs
    obtain ⟨acqs, _, hs⟩ := Option.bind_eq_some_iff.mp hs
    obtain ⟨frees, _, rfl⟩ := Option.map_eq_some_iff.mp hs
    exact .inl ⟨.retryHandler c, hsys⟩
  | handlerReturn c k =>
    obtain ⟨hk, rfl⟩ := Run.of_guard hs
    exact .inr ⟨k, hk.2, rfl⟩

theorem waitStep_fresh {s s' : WaitSys} {e : WaitEvent} (h : s.sys.Fresh)
    (hs : waitStep s e = some s') : s'.sys.Fresh := by
  rcases waitStep_sys hs with ⟨e', he⟩ | ⟨k, hk, he⟩
  · exact fresh_step h he
  · rw [he]
    exact h.setRel (by simp [hk]) _

/-! ## The release calls -/

inductive RelUser where
  | thread (c : UserId) (t : ThreadId)
  | handler (c : UserId)

def WaitSys.uses (s : WaitSys) (k : Nat) : RelUser → Prop
  | .thread c t => s.sys.pc c t = .releasing k
  | .handler c => k ∈ s.handlers c

structure WaitSys.Rels (s : WaitSys) : Prop where
  inFlight : ∀ k u, s.uses k u → (s.sys.relCalls k).inFlight = true
  unique : ∀ k u w, s.uses k u → s.uses k w → u = w

section Rels

variable {s s' : WaitSys} {k : Nat}

/-- Nobody joins, and no call is closed. -/
theorem WaitSys.Rels.keep (h : s.Rels) (huses : ∀ j u, s'.uses j u → s.uses j u)
    (hcalls : ∀ j, (s.sys.relCalls j).inFlight = true → (s'.sys.relCalls j).inFlight = true) :
    s'.Rels :=
  ⟨fun j u hu => hcalls j (h.inFlight j u (huses j u hu)),
    fun j u w hu hw => h.unique j u w (huses j u hu) (huses j w hw)⟩

/-- A new call with its user. -/
theorem WaitSys.Rels.join (h : s.Rels) (user : RelUser) (hk : s.sys.relCalls k = .unused)
    {r : RelCall} (hr : r.inFlight = true)
    (hcalls : s'.sys.relCalls = update s.sys.relCalls k r)
    (huses : ∀ j u, s'.uses j u → s.uses j u ∨ (j = k ∧ u = user)) : s'.Rels := by
  have hold : ∀ u, ¬ s.uses k u := by
    intro u hu
    have := h.inFlight k u hu
    simp [hk, RelCall.inFlight] at this
  refine ⟨fun j u hu => ?_, fun j u w hu hw => ?_⟩
  · rw [hcalls]
    rcases eq_or_ne j k with rfl | hne
    · rwa [update_self]
    · rw [update_of_ne hne]
      rcases huses j u hu with hu | ⟨he, _⟩
      · exact h.inFlight j u hu
      · exact absurd he hne
  · rcases huses j u hu with hu | ⟨rfl, rfl⟩
    · rcases huses j w hw with hw | ⟨rfl, _⟩
      · exact h.unique j u w hu hw
      · exact absurd hu (hold u)
    · rcases huses j w hw with hw | ⟨_, rfl⟩
      · exact absurd hw (hold w)
      · rfl

/-- A call is closed and its user leaves. -/
theorem WaitSys.Rels.leave (h : s.Rels) {user : RelUser} (hk : s.uses k user)
    (hcalls : s'.sys.relCalls = update s.sys.relCalls k .done)
    (huses : ∀ j u, s'.uses j u → s.uses j u ∧ ¬ (j = k ∧ u = user)) : s'.Rels := by
  refine ⟨fun j u hu => ?_, fun j u w hu hw => ?_⟩
  · obtain ⟨hu, hnot⟩ := huses j u hu
    have hne : j ≠ k := by
      rintro rfl
      exact hnot ⟨rfl, h.unique j u user hu hk⟩
    rw [hcalls, update_of_ne hne]
    exact h.inFlight j u hu
  · exact h.unique j u w (huses j u hu).1 (huses j w hw).1

variable {c : UserId} {t : ThreadId} {sys : LockSys}

/-- A thread that goes where it is in no release call. -/
theorem releasing_update {pc : UserId → ThreadId → Pc} {d : UserId} {u : ThreadId} {p : Pc}
    {j : Nat} (hp : ∀ k, p ≠ .releasing k)
    (h : update pc c (update (pc c) t p) d u = .releasing j) :
    pc d u = .releasing j ∧ ¬ (d = c ∧ u = t) := by
  rcases eq_or_ne d c with rfl | hd
  · rcases eq_or_ne u t with rfl | hu
    · simp [hp] at h
    · exact ⟨by simpa [hu] using h, by simp [hu]⟩
  · exact ⟨by simpa [hd] using h, by simp [hd]⟩

theorem WaitSys.Rels.moves (h : s.Rels) {p : Pc} (hp : ∀ k, p ≠ .releasing k)
    (hpc : s'.sys.pc = update s.sys.pc c (update (s.sys.pc c) t p))
    (hhandlers : s'.handlers = s.handlers) (hcalls : s'.sys.relCalls = s.sys.relCalls) :
    s'.Rels := by
  refine h.keep (fun j u hu => ?_) fun j hj => by rw [hcalls]; exact hj
  cases u with
  | thread d u =>
    replace hu : s'.sys.pc d u = .releasing j := hu
    rw [hpc] at hu
    exact (releasing_update hp hu).1
  | handler d =>
    replace hu : j ∈ s'.handlers d := hu
    rwa [hhandlers] at hu

/-- A thread in `acquire`. -/
theorem WaitSys.Rels.blocked (h : s.Rels) {sys₀ : LockSys} {r : Outcome × ClientLock}
    (hpc : sys₀.pc = s.sys.pc) (hcalls : sys₀.relCalls = s.sys.relCalls)
    (hs : sys₀.blocked c t r = some sys) : ({ s with sys := sys }.park c t).Rels := by
  rcases blocked_some hs with ⟨site, _, rfl⟩ | ⟨p, hp, rfl⟩
  · refine h.moves (c := c) (t := t) (p := .sending site sys₀.nextCall) (by simp) ?_ rfl hcalls
    rw [← hpc]
    rfl
  · refine h.moves (c := c) (t := t) (p := p) ?_ ?_ rfl hcalls
    · rcases hp with ⟨_, rfl⟩ | ⟨_, rfl⟩ | ⟨_, rfl⟩ <;> simp
    · rw [← hpc]
      rfl

/-- The server works on a call. -/
theorem WaitSys.Rels.serve (h : s.Rels) {r : RelCall} (hr : r.inFlight = true)
    (hpc : s'.sys.pc = s.sys.pc) (hhandlers : s'.handlers = s.handlers)
    (hcalls : s'.sys.relCalls = update s.sys.relCalls k r) : s'.Rels := by
  refine h.keep (fun j u hu => ?_) fun j hj => ?_
  · cases u with
    | thread d u =>
      replace hu : s'.sys.pc d u = .releasing j := hu
      rwa [hpc] at hu
    | handler d =>
      replace hu : j ∈ s'.handlers d := hu
      rwa [hhandlers] at hu
  · rw [hcalls]
    rcases eq_or_ne j k with rfl | hne
    · rwa [update_self]
    · rwa [update_of_ne hne]

/-- The threads and the handlers stay where they are. -/
theorem WaitSys.Rels.same (h : s.Rels) (hpc : s'.sys.pc = s.sys.pc)
    (hhandlers : s'.handlers = s.handlers) (hcalls : s'.sys.relCalls = s.sys.relCalls) :
    s'.Rels := by
  refine h.keep (fun j u hu => ?_) fun j hj => by rwa [hcalls]
  cases u with
  | thread d u =>
    replace hu : s'.sys.pc d u = .releasing j := hu
    rwa [hpc] at hu
  | handler d =>
    replace hu : j ∈ s'.handlers d := hu
    rwa [hhandlers] at hu

/-- `release`. -/
theorem WaitSys.Rels.release (h : s.Rels) (hfresh : s.sys.Fresh)
    (hsys : Trans s.sys (.release c t) sys) (hafter : s.after sys (.release c t) = some s') :
    s'.Rels := by
  cases hsys
  simp only [WaitSys.after] at hafter
  cases hact : (dealRelease (s.sys.item c)).1 with
  | callServer =>
    simp only [hact, LockSys.sendRelease, if_true, Option.some.injEq] at hafter
    subst hafter
    refine h.join (.thread c t) (hfresh _ le_rfl).2 rfl rfl fun j u hu => ?_
    cases u with
    | thread d u =>
      by_cases he : d = c ∧ u = t
      · obtain ⟨rfl, rfl⟩ := he
        replace hu : update s.sys.pc d
          (update (s.sys.pc d) u (.releasing s.sys.nextCall)) d u = .releasing j := hu
        refine .inr ⟨?_, rfl⟩
        simpa using hu.symm
      · have hne : (c, t) ≠ (d, u) := by
          rintro ⟨⟩
          exact he ⟨rfl, rfl⟩
        exact .inl ((setPc_of_ne hne).symm.trans hu)
    | handler d => exact .inl hu
  | freed =>
    simp only [hact, LockSys.sendRelease, reduceCtorEq, if_false, Option.some.injEq] at hafter
    subst hafter
    exact h.moves (p := .idle) (by simp) rfl rfl rfl
  | nothing =>
    simp only [hact, LockSys.sendRelease, reduceCtorEq, if_false, Option.some.injEq] at hafter
    subst hafter
    exact h.moves (p := .idle) (by simp) rfl rfl rfl

/-- `revoke_handler`. -/
theorem WaitSys.Rels.revokeHandler (h : s.Rels) (hfresh : s.sys.Fresh)
    (hsys : Trans s.sys (.revokeHandler c) sys)
    (hafter : s.after sys (.revokeHandler c) = some s') : s'.Rels := by
  cases hsys
  simp only [WaitSys.after] at hafter
  cases hact : (Lock.revokeHandler (s.sys.item c)).1 with
  | callServer =>
    simp only [hact, LockSys.sendRelease, Option.some.injEq] at hafter
    subst hafter
    refine h.join (.handler c) (hfresh _ le_rfl).2 rfl rfl fun j u hu => ?_
    cases u with
    | thread d u => exact .inl hu
    | handler d =>
      replace hu : j ∈ update s.handlers c (s.sys.nextCall :: s.handlers c) d := hu
      rcases eq_or_ne d c with rfl | hd
      · rw [update_self, List.mem_cons] at hu
        exact hu.symm.imp_right fun he => ⟨he, rfl⟩
      · rw [update_of_ne hd] at hu
        exact .inl hu
  | freed =>
    simp only [hact, LockSys.sendRelease, Option.some.injEq] at hafter
    subst hafter
    exact h.same rfl rfl rfl
  | nothing =>
    simp only [hact, LockSys.sendRelease, Option.some.injEq] at hafter
    subst hafter
    exact h.same rfl rfl rfl

/-- A call comes back to the thread that waits for it. -/
theorem WaitSys.Rels.relReturn (h : s.Rels) (hpc : s.sys.pc c t = .releasing k) :
    ({ s with sys := (s.sys.setRel k .done).setPc c t .idle }.broadcast c).Rels := by
  have huser : s.uses k (.thread c t) := hpc
  refine h.leave huser rfl fun j u hu => ?_
  cases u with
  | thread d u =>
    obtain ⟨hu', hne⟩ := releasing_update (p := .idle) (by simp) hu
    refine ⟨hu', fun he => hne ?_⟩
    simpa using he.2
  | handler d => exact ⟨hu, by simp⟩

/-- A call comes back to the handler that waits for it. -/
theorem WaitSys.Rels.handlerReturn (h : s.Rels) (hk : k ∈ s.handlers c) :
    ({ s with
      sys := s.sys.setRel k .done
      handlers := update s.handlers c ((s.handlers c).filter (· ≠ k)) }.broadcast
        c).Rels := by
  have huser : s.uses k (.handler c) := hk
  refine h.leave huser rfl fun j u hu => ?_
  cases u with
  | thread d u => exact ⟨hu, by simp⟩
  | handler d =>
    replace hu : j ∈ update s.handlers c ((s.handlers c).filter (· ≠ k)) d := hu
    rcases eq_or_ne d c with rfl | hd
    · rw [update_self, List.mem_filter] at hu
      exact ⟨hu.1, fun he => by simp [he.1] at hu⟩
    · rw [update_of_ne hd] at hu
      exact ⟨hu, fun he => hd (by simpa using he.2)⟩

theorem rels_step {e : WaitEvent} (h : s.Rels) (hfresh : s.sys.Fresh)
    (hs : waitStep s e = some s') : s'.Rels := by
  cases e with
  | retryHandler c acq free =>
    obtain ⟨sys, hsys, hs⟩ := Option.bind_eq_some_iff.mp hs
    obtain ⟨acqs, _, hs⟩ := Option.bind_eq_some_iff.mp hs
    obtain ⟨frees, _, rfl⟩ := Option.map_eq_some_iff.mp hs
    cases trans_of_lockStep hsys
    exact h.same rfl rfl rfl
  | handlerReturn c k =>
    obtain ⟨hk, rfl⟩ := Run.of_guard hs
    exact h.handlerReturn hk.1
  | run e =>
    obtain ⟨sys, hsys, hafter⟩ := Option.bind_eq_some_iff.mp hs
    have htrans := trans_of_lockStep hsys
    cases htrans with
    | acquire hpc hb =>
      cases hafter
      exact h.blocked rfl rfl hb
    | wakeAcq hpc hb =>
      cases hafter
      exact h.blocked rfl rfl hb
    | wakeFree hpc hb =>
      cases hafter
      exact h.blocked rfl rfl hb
    | acqReturn hpc hk hb =>
      cases hafter
      exact h.blocked (by rfl) (by rfl) hb
    | acqFails hpc hb =>
      cases hafter
      exact h.blocked rfl rfl hb
    | release hold => exact h.release hfresh (.release hold) hafter
    | relReturn hpc hk =>
      cases hafter
      exact h.relReturn hpc
    | revokeHandler hmem => exact h.revokeHandler hfresh (.revokeHandler hmem) hafter
    | retryHandler hmem => simp [WaitSys.after] at hafter
    | srvAcquire hk hb =>
      cases hafter
      rcases serveAcquire_some hb with ⟨_, rfl⟩ | ⟨_, rfl⟩
      · exact h.same rfl rfl rfl
      · exact h.same rfl rfl rfl
    | srvRevoke hk =>
      cases hafter
      exact h.same rfl rfl rfl
    | @srvRelease k id hk =>
      cases hafter
      rcases serveRelease_cases s.sys k with ⟨_, he⟩ | ⟨user, rest, _, he⟩
      · rw [he]
        exact h.serve rfl rfl rfl rfl
      · rw [he]
        exact h.serve rfl rfl rfl rfl
    | srvRetried hk =>
      cases hafter
      exact h.serve rfl rfl rfl rfl

end Rels

end Yfs.Lock
