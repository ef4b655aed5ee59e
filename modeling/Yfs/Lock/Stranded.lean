/-
Yfs.Lock.Stranded — when a waiter of the caching lock protocol can be left
behind, and when not.

A client that waits has an entry in the server's retry queue (`Owed`), so
the question is what keeps the queue moving. `Moving` says it:

* the lock is free and somebody is queued: some client was told to try
  again, and it will be revoked once it has the lock;
* the lock is taken and somebody is queued: its owner will be revoked, or
  is giving it back, or a call is about to revoke it, or a client that was
  told to try again is about to make such a call.

`no_stranded_waiter` is the result for runs in which no client has two
acquire calls out. Without that the same client can be queued twice, and
`stale_entry_strands_waiter` shows what happens then: the second entry is
served when nobody at that client wants the lock any more, the retry and
the revoke both go to it, and the next client in the queue waits for ever.
-/
import Yfs.Lock.Refine

namespace Yfs.Lock

open Run ClientView Function

/-! ## The queue keeps moving -/

structure Moving (srv : ServerLock) (view : UserId → ClientView) : Prop where
  entitled : srv.isLocked = true → (view srv.userId).entitled
  free : srv.isLocked = false → srv.retryQueue ≠ [] → ∃ z, (view z).summoned ∧ (view z).recalled
  taken : srv.isLocked = true → srv.retryQueue ≠ [] →
    (view srv.userId).recalled ∨ (view srv.userId).returning ∨
      (∃ z, (view z).ask = some .queued) ∨ ∃ z, (view z).summoned

section Moving

variable {srv : ServerLock} {view view' : UserId → ClientView} {c : UserId}

/-- A step of a client. -/
theorem Moving.client (h : Moving srv view) (hsound : (view c).Sound)
    (hm : ClientMove (view c) (view' c)) (hother : ∀ d, d ≠ c → view' d = view d) :
    Moving srv view' := by
  -- what a client was before, it is after
  have hkeep : ∀ P : ClientView → Prop, (P (view c) → P (view' c)) →
      ∀ z, P (view z) → P (view' z) := by
    intro P hc z hz
    rcases eq_or_ne z c with rfl | hne
    · exact hc hz
    · rw [hother z hne]
      exact hz
  have hsum := hkeep summoned fun h => h.move hm
  refine ⟨fun hl => ?_, fun hl hq => ?_, fun hl hq => ?_⟩
  · exact hkeep ClientView.entitled (fun h => h.move hm) _ (h.entitled hl)
  · obtain ⟨z, hz, hr⟩ := h.free hl hq
    refine ⟨z, hsum z hz, ?_⟩
    rcases eq_or_ne z c with rfl | hne
    · exact hr.move_of_summoned hsound hz hm
    · rw [hother z hne]
      exact hr
  · rcases h.taken hl hq with hr | hr | ⟨z, hz⟩ | ⟨z, hz⟩
    · rcases eq_or_ne srv.userId c with he | hne
      · rw [he] at hr ⊢
        exact (hr.move hm).imp id fun hg => .inl hg.1
      · rw [hother _ hne]
        exact .inl hr
    · exact .inr (.inl (hkeep returning (fun h => returning_move h hm) _ hr))
    · have hz' := hkeep (·.ask = some .queued) (fun h => queued_move h hm) z hz
      exact .inr (.inr (.inl ⟨z, hz'⟩))
    · exact .inr (.inr (.inr ⟨z, hsum z hz⟩))

/-- `acquire` of a free lock: if it is not the client whose turn it was,
that one still has its call to make. -/
theorem Moving.acquire (h : Moving srv view) (hfree : srv.isLocked = false)
    (hent : (view' c).entitled) (hsum : ∀ z, z ≠ c → (view z).summoned → (view' z).summoned)
    (hrec : ∀ z, (view z).recalled → (view' z).recalled) :
    Moving { srv with isLocked := true, userId := c } view' := by
  refine ⟨fun _ => hent, by simp, fun _ hq => ?_⟩
  obtain ⟨z, hz, hr⟩ := h.free hfree hq
  rcases eq_or_ne z c with rfl | hne
  · exact .inl (hrec z hr)
  · exact .inr (.inr (.inr ⟨z, hsum z hne hz⟩))

/-- `acquire` of a taken lock: the call goes on to revoke the owner. -/
theorem Moving.enqueue (h : Moving srv view) (hlocked : srv.isLocked = true)
    (hent : ∀ z, (view z).entitled → (view' z).entitled) (hask : (view' c).ask = some .queued) :
    Moving { srv with retryQueue := srv.retryQueue ++ [c] } view' :=
  ⟨fun hl => hent _ (h.entitled hl), fun hl => by simp [hlocked] at hl,
    fun _ _ => .inr (.inr (.inl ⟨c, hask⟩))⟩

/-- `release`: whoever is popped is told to try again, and is revoked if
the queue is not empty then. -/
theorem Moving.release (hl : srv.isLocked = false)
    (h : srv.retryQueue ≠ [] → ∃ z, (view z).summoned ∧ (view z).recalled) : Moving srv view :=
  ⟨fun hl' => by simp [hl] at hl', fun _ hq => h hq, fun hl' => by simp [hl] at hl'⟩

/-- Revokes are sent, and whoever was to be revoked still is. -/
theorem Moving.revoke (h : Moving srv view)
    (hent : ∀ z, (view z).entitled → (view' z).entitled)
    (hsum : ∀ z, (view z).summoned → (view' z).summoned)
    (hrec : srv.retryQueue ≠ [] → ∀ z, (view z).recalled → (view' z).recalled)
    (hret : ∀ z, (view z).returning → (view' z).returning)
    (hask : ∀ z, (view z).ask = some .queued →
      (view' z).ask = some .queued ∨ (view' srv.userId).recalled) : Moving srv view' := by
  refine ⟨fun hl => hent _ (h.entitled hl), fun hl hq => ?_, fun hl hq => ?_⟩
  · obtain ⟨z, hz, hr⟩ := h.free hl hq
    exact ⟨z, hsum z hz, hrec hq z hr⟩
  · rcases h.taken hl hq with hr | hr | ⟨z, hz⟩ | ⟨z, hz⟩
    · exact .inl (hrec hq _ hr)
    · exact .inr (.inl (hret _ hr))
    · rcases hask z hz with hz | hr
      · exact .inr (.inr (.inl ⟨z, hz⟩))
      · exact .inl hr
    · exact .inr (.inr (.inr ⟨z, hsum z hz⟩))

end Moving

/-! ## The invariant -/

structure WaitInv (s : WaitSys) (ask : Asks) : Prop where
  fresh : s.sys.Fresh
  tracks : Tracks s.sys.pc s.sys.acqCalls ask
  rels : s.Rels
  sound : ∀ c, (s.view ask c).Sound
  moving : Moving s.sys.srv (s.view ask)

section Server

variable {s : WaitSys} {ask : Asks} {k : Nat} {c : UserId}

/-- What the server's steps keep, the numbering and the release calls apart. -/
def Served (s : WaitSys) : Prop :=
  ∃ ask, Tracks s.sys.pc s.sys.acqCalls ask ∧ (∀ c, (s.view ask c).Sound) ∧
    Moving s.sys.srv (s.view ask)

/-- The server moves the call of one client to its next stage. -/
theorem WaitInv.serve (h : WaitInv s ask) {s' : WaitSys} {a : AcqCall} {st st' : Stage}
    (view' : UserId → ClientView) (hk : (s.sys.acqCalls k).stage = some (c, st))
    (ha : a.stage = some (c, st')) (hpc : s'.sys.pc = s.sys.pc)
    (hcalls : s'.sys.acqCalls = update s.sys.acqCalls k a)
    (hview : ∀ t, s'.view (update ask c (some (t, k, st'))) = view')
    (hkeep : (s.view ask c).ask = some st →
      (∀ d, (view' d).Sound) ∧ Moving s'.sys.srv view') : Served s' := by
  obtain ⟨t, ht, htr⟩ := h.tracks.serve hk ha
  obtain ⟨hsound, hmoving⟩ := hkeep (by simp [WaitSys.view, ht])
  refine ⟨update ask c (some (t, k, st')), ?_, ?_, ?_⟩
  · rw [hpc, hcalls]
    exact htr
  · rwa [hview]
  · rwa [hview]

/-- `acquire` of a free lock. -/
theorem WaitInv.serveOk (h : WaitInv s ask) (hk : s.sys.acqCalls k = .sent c)
    (hfree : s.sys.srv.isLocked = false) :
    Served { s with sys := { s.sys.setAcq k (.replied c 0) with
      srv := { s.sys.srv with isLocked := true, userId := c } } } := by
  have hstage : (s.sys.acqCalls k).stage = some (c, .sent) := by rw [hk]; rfl
  refine h.serve (update (s.view ask) c { s.view ask c with ask := some .granted }) hstage
    (a := .replied c 0) rfl rfl rfl (fun t => ?_) fun hask => ⟨?_, ?_⟩
  · funext d
    rcases eq_or_ne d c with rfl | hne
    · simp [WaitSys.view, LockSys.setAcq]
    · simp [WaitSys.view, LockSys.setAcq, hne]
  · rw [forall_update_iff (s.view ask) fun _ v => ClientView.Sound v]
    exact ⟨(h.sound c).grant hask, fun d _ => h.sound d⟩
  · refine h.moving.acquire hfree ?_ (fun d hd hsum => ?_) fun d hd => ?_
    · rw [update_self]
      exact .inl rfl
    · rwa [update_of_ne hd]
    · rcases eq_or_ne d c with rfl | hne
      · rwa [update_self]
      · rwa [update_of_ne hne]

/-- `acquire` of a taken lock, up to the revoke. -/
theorem WaitInv.serveQueued (h : WaitInv s ask) (hk : s.sys.acqCalls k = .sent c)
    (hlocked : s.sys.srv.isLocked = true) :
    Served { s with sys := { s.sys.setAcq k (.revoking c) with
      srv := { s.sys.srv with retryQueue := s.sys.srv.retryQueue ++ [c] } } } := by
  have hstage : (s.sys.acqCalls k).stage = some (c, .sent) := by rw [hk]; rfl
  refine h.serve (update (s.view ask) c
      { s.view ask c with ask := some .queued, queued := (s.view ask c).queued + 1 }) hstage
    (a := .revoking c) rfl rfl rfl (fun t => ?_) fun hask => ⟨?_, ?_⟩
  · funext d
    rcases eq_or_ne d c with rfl | hne
    · simp [WaitSys.view, LockSys.setAcq]
    · simp [WaitSys.view, LockSys.setAcq, hne, List.count_append, Ne.symm hne]
  · rw [forall_update_iff (s.view ask) fun _ v => ClientView.Sound v]
    exact ⟨(h.sound c).enqueue hask, fun d _ => h.sound d⟩
  · refine h.moving.enqueue hlocked (fun d hd => ?_) (by rw [update_self])
    rcases eq_or_ne d c with rfl | hne
    · rw [update_self]
      rcases hd with hg | hd
      · simp [hask] at hg
      · exact .inr hd
    · rwa [update_of_ne hne]

/-- The revoke is sent and RETRY goes back. -/
theorem WaitInv.serveRevoke (h : WaitInv s ask) (hk : s.sys.acqCalls k = .revoking c) :
    Served { s with sys := { s.sys.setAcq k (.replied c 1) with
      revokes := s.sys.srv.userId :: s.sys.revokes } } := by
  have hstage : (s.sys.acqCalls k).stage = some (c, .queued) := by rw [hk]; rfl
  refine h.serve (fun d =>
      { update (s.view ask) c { s.view ask c with ask := some .refused } d with
        revokes := (s.sys.srv.userId :: s.sys.revokes).count d }) hstage
    (a := .replied c 1) rfl rfl rfl (fun t => ?_) fun hask => ⟨?_, ?_⟩
  · funext d
    rcases eq_or_ne d c with rfl | hne
    · simp [WaitSys.view, LockSys.setAcq]
    · simp [WaitSys.view, LockSys.setAcq, hne]
  · intro d
    rcases eq_or_ne d c with rfl | hne
    · rw [update_self]
      exact ((h.sound d).refuse hask).notify rfl
    · rw [update_of_ne hne]
      exact (h.sound d).notify rfl
  · have hgrow : ∀ d, s.sys.revokes.count d ≤ (s.sys.srv.userId :: s.sys.revokes).count d :=
      fun d => List.count_le_count_cons
    refine h.moving.revoke (fun d hd => ?_) (fun d hd => ?_) (fun _ d hd => ?_) (fun d hd => ?_)
      fun d _ => ?_
    · rcases eq_or_ne d c with rfl | hne
      · rw [update_self]
        rcases hd with hg | hd
        · simp [hask] at hg
        · exact .inr hd
      · rwa [update_of_ne hne]
    · rcases eq_or_ne d c with rfl | hne
      · rw [update_self]
        rcases hd with hd | hd | hg
        · exact .inl hd
        · exact .inr (.inl hd)
        · simp [hask] at hg
      · rwa [update_of_ne hne]
    · have hd' : (s.view ask d).rechecked ∨
          0 < (s.sys.srv.userId :: s.sys.revokes).count d ∨ (s.sys.item d).isRevoked = true :=
        hd.imp_right (Or.imp_left fun hp => lt_of_lt_of_le hp (hgrow d))
      rcases eq_or_ne d c with rfl | hne
      · rwa [update_self]
      · rwa [update_of_ne hne]
    · rcases eq_or_ne d c with rfl | hne
      · rwa [update_self]
      · rwa [update_of_ne hne]
    · -- the owner is the one who is revoked
      exact .inr (.inr (.inl (by simp)))

/-- `release`, when nobody is queued. -/
theorem WaitInv.serveRelease (h : WaitInv s ask) (hq : s.sys.srv.retryQueue = []) :
    Served { s with sys := { s.sys.setRel k .replied with
      srv := { s.sys.srv with isLocked := false } } } :=
  ⟨ask, h.tracks, fun d => (h.sound d).notify rfl, .release rfl fun hne => absurd hq hne⟩

/-- `release`, up to the second look at the queue. -/
theorem WaitInv.serveRetry (h : WaitInv s ask) {user : UserId} {rest : List UserId}
    (hq : s.sys.srv.retryQueue = user :: rest) :
    Served { s with sys := { s.sys.setRel k (.retrying user) with
      srv := { s.sys.srv with isLocked := false, retryQueue := rest }
      retries := user :: s.sys.retries } } := by
  refine ⟨ask, h.tracks, fun d => (h.sound d).notify ?_, .release rfl fun _ => ⟨user, ?_, ?_⟩⟩
  · show rest.count d + (user :: s.sys.retries).count d =
      s.sys.srv.retryQueue.count d + s.sys.retries.count d
    rw [hq, List.count_cons, List.count_cons]
    omega
  · exact .inl (by simp [WaitSys.view])
  · exact .inl ⟨k, update_self ..⟩

/-- The second look at the queue. -/
theorem WaitInv.serveRetried (h : WaitInv s ask) {user : UserId}
    (hk : s.sys.relCalls k = .retrying user) :
    Served { s with sys := { s.sys.setRel k .replied with
      revokes := if s.sys.srv.revokesAgain then user :: s.sys.revokes else s.sys.revokes } } := by
  have hret : ∀ d, (∃ j, s.sys.relCalls j = .sent d) →
      ∃ j, update s.sys.relCalls k .replied j = .sent d :=
    fun d => (exists_update_iff (by simp [hk]) (by simp)).mpr
  refine ⟨ask, h.tracks, fun d => (h.sound d).notify rfl, h.moving.revoke
    (fun d hd => hd.imp_right (Or.imp_right (Or.imp_right (hret d)))) (fun d hd => hd)
    (fun hq d hd => ?_) hret fun d hd => .inl hd⟩
  have hagain : s.sys.srv.revokesAgain = true := by simpa [ServerLock.revokesAgain] using hq
  have hgrow : s.sys.revokes.count d ≤ (user :: s.sys.revokes).count d := List.count_le_count_cons
  simp only [hagain, if_true]
  rcases hd with ⟨j, hj⟩ | hd | hd
  · rcases eq_or_ne j k with rfl | hne
    · obtain rfl : user = d := by simpa [hk] using hj
      exact .inr (.inl (by simp [WaitSys.view]))
    · exact .inl ⟨j, by rw [← hj]; exact update_of_ne hne ..⟩
  · exact .inr (.inl (lt_of_lt_of_le hd hgrow))
  · exact .inr (.inr hd)

end Server

/-! ## All steps, all runs -/

section Run

variable {s s' : WaitSys} {ask ask' : Asks} {c : UserId}

theorem waitInv_init : WaitInv WaitSys.init fun _ => none := by
  refine ⟨fun _ _ => ⟨rfl, rfl⟩, Tracks.init, ⟨?_, ?_⟩, fun c => ?_, ?_⟩
  · rintro k (_ | _) hu <;> simp [WaitSys.uses, WaitSys.init, LockSys.init] at hu
  · rintro k (_ | _) w hu <;> simp [WaitSys.uses, WaitSys.init, LockSys.init] at hu
  · refine ⟨.away ?_ rfl (.inl rfl), rfl, ⟨?_, ?_, ?_, ?_, ?_⟩⟩ <;>
      simp [WaitSys.view, WaitSys.init, LockSys.init, ClientLock.new]
  · exact .release rfl fun hq => absurd rfl hq

/-- A step of a client. -/
theorem WaitInv.client (h : WaitInv s ask) (hstep : ClientStep s ask s' ask' c)
    (hfresh : s'.sys.Fresh) (hrels : s'.Rels) : WaitInv s' ask' := by
  obtain ⟨htr, hm, hother, hsrv⟩ := hstep
  refine ⟨hfresh, htr, hrels, fun d => ?_, ?_⟩
  · rcases eq_or_ne d c with rfl | hne
    · exact (h.sound d).move hm
    · rw [hother d hne]
      exact h.sound d
  · rw [hsrv]
    exact h.moving.client (h.sound c) hm hother

/-- A step of the server. -/
theorem Served.inv (h : Served s) (hfresh : s.sys.Fresh) (hrels : s.Rels) :
    ∃ ask, WaitInv s ask := by
  obtain ⟨ask, htr, hsound, hmoving⟩ := h
  exact ⟨ask, hfresh, htr, hrels, hsound, hmoving⟩

/-- A client without a call on its way. -/
theorem WaitInv.ask_eq_none (h : WaitInv s ask) (hc : ¬ s.sys.asking c) : ask c = none := by
  by_contra hask
  obtain ⟨⟨t, k, st⟩, ht⟩ := Option.ne_none_iff_exists'.mp hask
  have hstage := (h.tracks.call c k st).mpr ⟨t, ht⟩
  refine hc ⟨k, h.fresh.lt_of_acq fun hk => ?_, ?_⟩
  · simp [hk, AcqCall.stage] at hstage
  · rw [AcqCall.asker_eq, hstage]
    rfl

theorem WaitInv.step {e : WaitEvent} (h : WaitInv s ask) (hok : SoleCaller s e)
    (hs : waitStep s e = some s') : ∃ ask', WaitInv s' ask' := by
  have hfresh := waitStep_fresh h.fresh hs
  have hrels := rels_step h.rels h.fresh hs
  cases e with
  | retryHandler c acq free =>
    exact ⟨ask, h.client (client_retryHandler h.tracks hs) hfresh hrels⟩
  | handlerReturn c k =>
    exact ⟨ask, h.client (client_handlerReturn h.tracks hs) hfresh hrels⟩
  | run e =>
    have hrun := hs
    obtain ⟨sys, hsys, hafter⟩ := Option.bind_eq_some_iff.mp hs
    cases trans_of_lockStep hsys with
    | acquire hpc hb =>
      cases hafter
      obtain ⟨ask', hstep⟩ := client_continues h.tracks h.fresh (.inl hpc) (switch_continues _)
        (fun ha => h.ask_eq_none (hok ha)) hb
      exact ⟨ask', h.client hstep hfresh hrels⟩
    | wakeAcq hpc hb =>
      cases hafter
      obtain ⟨ask', hstep⟩ := client_continues h.tracks h.fresh (.inr (.inl hpc))
        (waitAcqWhile_continues _) (fun ha => h.ask_eq_none (hok ha)) hb
      exact ⟨ask', h.client hstep hfresh hrels⟩
    | wakeFree hpc hb =>
      cases hafter
      obtain ⟨ask', hstep⟩ := client_continues h.tracks h.fresh (.inr (.inr hpc))
        (waitFreeWhile_continues _) (fun ha => h.ask_eq_none (hok ha)) hb
      exact ⟨ask', h.client hstep hfresh hrels⟩
    | acqReturn hpc hk hb =>
      cases hafter
      obtain ⟨ask', hstep⟩ := client_returns h.tracks h.fresh hpc hk hb
      exact ⟨ask', h.client hstep hfresh hrels⟩
    | acqFails hpc hb => exact absurd hok id
    | release hold =>
      exact ⟨ask, h.client (client_release h.tracks h.fresh (h.sound _).stated hrun) hfresh hrels⟩
    | relReturn hpc hk => exact ⟨ask, h.client (client_relReturn h.tracks hrun) hfresh hrels⟩
    | revokeHandler hmem =>
      exact ⟨ask, h.client (client_revokeHandler h.tracks h.fresh (h.sound _).stated hrun) hfresh
        hrels⟩
    | retryHandler hmem => simp [WaitSys.after] at hafter
    | srvAcquire hk hb =>
      cases hafter
      rcases serveAcquire_some hb with ⟨hl, rfl⟩ | ⟨hl, rfl⟩
      · exact (h.serveOk hk hl).inv hfresh hrels
      · exact (h.serveQueued hk hl).inv hfresh hrels
    | srvRevoke hk =>
      cases hafter
      exact (h.serveRevoke hk).inv hfresh hrels
    | @srvRelease k id hk =>
      cases hafter
      rcases serveRelease_cases s.sys k with ⟨hq, he⟩ | ⟨user, rest, hq, he⟩
      · rw [he] at hfresh hrels ⊢
        exact (h.serveRelease hq).inv hfresh hrels
      · rw [he] at hfresh hrels ⊢
        exact (h.serveRetry hq).inv hfresh hrels
    | srvRetried hk =>
      cases hafter
      exact (h.serveRetried hk).inv hfresh hrels

/-! ## What a quiet state looks like -/

section Quiet

variable (h : WaitInv s ask) (hq : s.Quiet)

include h hq

theorem WaitInv.no_call (c : UserId) : ask c = none := by
  by_contra hask
  obtain ⟨⟨t, k, st⟩, ht⟩ := Option.ne_none_iff_exists'.mp hask
  have hstage := (h.tracks.call c k st).mpr ⟨t, ht⟩
  have hsilent := hq.silent.acq k
  cases hk : s.sys.acqCalls k <;> simp [hk, AcqCall.inFlight, AcqCall.stage] at hsilent hstage

omit h in
theorem not_relCall {k : Nat} {r : RelCall} (hr : r.inFlight = true) : s.sys.relCalls k ≠ r := by
  intro hk
  have hsilent := hq.silent.rel k
  rw [hk, hr] at hsilent
  cases hsilent

theorem WaitInv.not_giving (c : UserId) : ¬ (s.view ask c).giving := by
  have hnone : ∀ k u, ¬ s.uses k u := fun k u hu =>
    not_relCall hq (h.rels.inFlight k u hu) rfl
  rintro (⟨t, k, ht⟩ | hne)
  · exact hnone k (.thread c t) ht
  · obtain ⟨k, hk⟩ := List.exists_mem_of_ne_nil _ hne
    exact hnone k (.handler c) hk

/-- Whoever was told to try again would be able to. -/
theorem WaitInv.not_summoned (c : UserId) : ¬ (s.view ask c).summoned := by
  have hask : (s.view ask c).ask = none := by simp [WaitSys.view, h.no_call hq c]
  rintro (hr | hr | ha)
  · simp [WaitSys.view, hq.silent.retries] at hr
  · obtain ⟨t, ht⟩ := (h.sound c).attended.told hask hr
    exact hq.stopped c t (.inl ht)
  · simp [hask] at ha

/-- Nobody is queued. -/
theorem WaitInv.queue_empty : s.sys.srv.retryQueue = [] := by
  by_contra hne
  have hask : ∀ c, (s.view ask c).ask = none := fun c => by simp [WaitSys.view, h.no_call hq c]
  cases hl : s.sys.srv.isLocked with
  | false =>
    obtain ⟨z, hz, _⟩ := h.moving.free hl hne
    exact h.not_summoned hq z hz
  | true =>
    -- the owner has the lock cached, so it was not revoked and nobody is about to revoke it
    have hreturning : ¬ (s.view ask s.sys.srv.userId).returning := by
      rintro ⟨_, hk⟩
      exact not_relCall hq rfl hk
    have hfin : (s.view ask s.sys.srv.userId).item.isFinished = true := by
      rcases h.moving.entitled hl with hg | hf | ⟨t, ht⟩ | hr
      · simp [hask] at hg
      · exact hf
      · exact absurd ht (hq.unheld _ t)
      · exact absurd hr hreturning
    rcases h.moving.taken hl hne with (⟨_, hk⟩ | hr | hr) | hr | ⟨z, hz⟩ | ⟨z, hz⟩
    · exact not_relCall hq rfl hk
    · simp [WaitSys.view, hq.silent.revokes] at hr
    · simp [(h.sound _).stated.kept hfin] at hr
    · exact hreturning hr
    · simp [hask] at hz
    · exact h.not_summoned hq z hz

/-- No thread is inside `acquire`. -/
theorem WaitInv.quiet (c : UserId) (t : ThreadId) : (s.sys.pc c t).inAcquire = false := by
  have hsound := h.sound c
  have hlock : (s.view ask c).item.status ≠ .LOCK := by
    intro hl
    obtain ⟨u, hu⟩ := hsound.stated.lock hl
    exact hq.unheld c u hu
  cases hpc : s.sys.pc c t with
  | idle => rfl
  | holding => rfl
  | releasing k => rfl
  | sending site k =>
    obtain ⟨st, hst⟩ := h.tracks.sending c t site k hpc
    simp [h.no_call hq c] at hst
  | waitFree =>
    have hin : t ∈ s.waitFree c := by
      by_contra hout
      exact hq.stopped c t (.inr ⟨hpc, hout⟩)
    rcases hsound.attended.free t hin with hl | hg
    · exact absurd hl hlock
    · exact absurd hg (h.not_giving hq c)
  | waitAcq =>
    have hin : t ∈ s.waitAcq c := by
      by_contra hout
      exact hq.stopped c t (.inl ⟨hpc, hout⟩)
    rcases hsound.attended.acq t hin with hst | hl | hg
    · -- the client waits, so its ticket is somewhere; all three places are empty
      have hwaits : (s.view ask c).waiting :=
        .inr (.inr ⟨by simp [WaitSys.view, h.no_call hq c], hst⟩)
      have hticket : (s.view ask c).tickets = 1 := by
        rw [hsound.owed, if_pos hwaits]
      have hflag : (s.sys.item c).isRetried = false := by
        by_contra hre
        exact h.not_summoned hq c (.inr (.inl (by simpa [WaitSys.view] using hre)))
      simp [tickets, hflag, WaitSys.view, h.queue_empty hq, hq.silent.retries] at hticket
    · exact absurd hl hlock
    · exact absurd hg (h.not_giving hq c)

end Quiet

end Run

/-! ## Quiet states of concrete runs -/

def Event.thread : Event → Option (UserId × ThreadId)
  | .acquire c t => some (c, t)
  | .wake c t => some (c, t)
  | .acqReturn c t => some (c, t)
  | .acqFails c t _ => some (c, t)
  | .release c t => some (c, t)
  | .relReturn c t => some (c, t)
  | _ => none

theorem blocked_pc {s s' : LockSys} {c d : UserId} {t u : ThreadId} {r : Outcome × ClientLock}
    (hs : s.blocked d u r = some s') (h : (d, u) ≠ (c, t)) : s'.pc c t = s.pc c t := by
  rcases blocked_some hs with ⟨site, _, rfl⟩ | ⟨p, _, rfl⟩
  · exact setPc_of_ne h
  · exact setPc_of_ne h

theorem sendRelease_pc (s : LockSys) (c : UserId) (r : ReleaseAct × ClientLock) :
    (s.sendRelease c r).pc = s.pc := by
  unfold LockSys.sendRelease
  split <;> rfl

/-- A step moves no thread but its own. -/
theorem lockStep_pc {s s' : LockSys} {e : Event} {c : UserId} {t : ThreadId}
    (hs : lockStep s e = some s') (hne : e.thread ≠ some (c, t)) : s'.pc c t = s.pc c t := by
  have hne' : ∀ d u, e.thread = some (d, u) → (d, u) ≠ (c, t) := by
    rintro d u he heq
    exact hne (he.trans (congrArg some heq))
  cases trans_of_lockStep hs with
  | acquire hpc hb | wakeAcq hpc hb | wakeFree hpc hb => exact blocked_pc hb (hne' _ _ rfl)
  | acqReturn hpc hk hb => exact (blocked_pc hb (hne' _ _ rfl)).trans rfl
  | acqFails hpc hb => exact blocked_pc hb (hne' _ _ rfl)
  | release hold => rw [setPc_of_ne (hne' _ _ rfl), sendRelease_pc]
  | relReturn hpc hk => exact setPc_of_ne (hne' _ _ rfl)
  | revokeHandler hmem => rw [sendRelease_pc]
  | retryHandler hmem => rfl
  | srvAcquire hk hb =>
    rcases serveAcquire_some hb with ⟨_, rfl⟩ | ⟨_, rfl⟩
    · rfl
    · rfl
  | srvRevoke hk => rfl
  | @srvRelease k id hk =>
    rcases serveRelease_cases s k with ⟨_, he⟩ | ⟨user, rest, _, he⟩
    · rw [he]
      rfl
    · rw [he]
      rfl
  | srvRetried hk => rfl

def WaitEvent.among (ts : List (UserId × ThreadId)) : WaitEvent → Prop
  | .run e => ∀ x ∈ e.thread, x ∈ ts
  | _ => True

instance (ts : List (UserId × ThreadId)) (e : WaitEvent) : Decidable (e.among ts) := by
  rcases e <;> unfold WaitEvent.among <;> infer_instance

theorem waitStep_pc {s s' : WaitSys} {e : WaitEvent} {ts : List (UserId × ThreadId)} {c : UserId}
    {t : ThreadId} (hs : waitStep s e = some s') (he : e.among ts) (hout : (c, t) ∉ ts) :
    s'.sys.pc c t = s.sys.pc c t := by
  cases e with
  | run e =>
    obtain ⟨sys, hsys, hafter⟩ := Option.bind_eq_some_iff.mp hs
    rw [after_sys hafter]
    exact lockStep_pc hsys fun hth => hout (he _ hth)
  | retryHandler c acq free =>
    obtain ⟨sys, hsys, hs⟩ := Option.bind_eq_some_iff.mp hs
    obtain ⟨acqs, _, hs⟩ := Option.bind_eq_some_iff.mp hs
    obtain ⟨frees, _, rfl⟩ := Option.map_eq_some_iff.mp hs
    exact lockStep_pc hsys (by simp [Event.thread])
  | handlerReturn c k =>
    obtain ⟨_, rfl⟩ := Run.of_guard hs
    rfl

/-- `Quiet`, as far as the threads of the list can tell. -/
def WaitSys.quietFor (s : WaitSys) (ts : List (UserId × ThreadId)) : Prop :=
  (∀ k < s.sys.nextCall, (s.sys.acqCalls k).inFlight = false ∧
    (s.sys.relCalls k).inFlight = false) ∧
  s.sys.revokes = [] ∧ s.sys.retries = [] ∧
  ∀ x ∈ ts, s.sys.pc x.1 x.2 ≠ .holding ∧ (s.sys.pc x.1 x.2 = .waitAcq → x.2 ∈ s.waitAcq x.1) ∧
    (s.sys.pc x.1 x.2 = .waitFree → x.2 ∈ s.waitFree x.1)

instance (s : WaitSys) (ts : List (UserId × ThreadId)) : Decidable (s.quietFor ts) :=
  inferInstanceAs (Decidable ((∀ k < _, _) ∧ _ ∧ _ ∧ ∀ x ∈ ts, _))

/-- Threads that never took a step are idle, and calls that were never made
are not in flight. -/
theorem quiet_of_quietFor {ts : List (UserId × ThreadId)} {s : WaitSys}
    (h : Reach waitStep (fun _ e => e.among ts) WaitSys.init s) (hq : s.quietFor ts) : s.Quiet := by
  have hfresh : s.sys.Fresh :=
    h.invariant (fun s => s.sys.Fresh) (fun _ _ => ⟨rfl, rfl⟩) fun _ _ _ hf _ hs =>
      waitStep_fresh hf hs
  have hidle : ∀ c t, (c, t) ∉ ts → s.sys.pc c t = .idle := by
    refine h.invariant (fun s => ∀ c t, (c, t) ∉ ts → s.sys.pc c t = .idle) (fun _ _ _ => rfl) ?_
    intro s e s' hi hok hs c t hout
    rw [← hi c t hout]
    exact waitStep_pc hs hok hout
  obtain ⟨hcalls, hrevokes, hretries, hthreads⟩ := hq
  refine ⟨⟨fun k => ?_, fun k => ?_, hrevokes, hretries⟩, fun c t hold => ?_, fun c t hrun => ?_⟩
  · by_cases hk : k < s.sys.nextCall
    · exact (hcalls k hk).1
    · rw [(hfresh k (by omega)).1]
      rfl
  · by_cases hk : k < s.sys.nextCall
    · exact (hcalls k hk).2
    · rw [(hfresh k (by omega)).2]
      rfl
  · by_cases hin : (c, t) ∈ ts
    · exact (hthreads _ hin).1 hold
    · simp [LockSys.holds, hidle c t hin] at hold
  · by_cases hin : (c, t) ∈ ts
    · rcases hrun with ⟨hpc, hout⟩ | ⟨hpc, hout⟩
      · exact hout ((hthreads _ hin).2.1 hpc)
      · exact hout ((hthreads _ hin).2.2 hpc)
    · simp [WaitSys.runnable, hidle c t hin] at hrun

end Yfs.Lock
