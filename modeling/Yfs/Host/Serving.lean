/-
Yfs.Host.Serving — does a node that serves know of no later view?

`inviewchange` is false while the state machine serves. Whether the view it
serves in, `vid_commit`, is the last one its acceptor has decided,
`instance_h`, depends on the way the two got their values:

* a commit sets `instance_h` and goes up to `vid_commit`, and is an upcall in
  progress in between;
* a log that is read sets `instance_h` alone. At start-up nobody tells the
  state machine. After a join it is told `cfg->vid()`.

So a node keeps up with its acceptor (`serves_latest_view`) if nothing but
view 1 is in the log of a `_first` node that starts, if a log that comes
with a join decides no less than the acceptor knows, and if no upcall of an
older instance gets between `config::restore` and `cfg->vid()`.
`first_node_serves_view_one` is the start of a `_first` node whose log has
two views.

A request that is with the backups keeps its stamp. If the state machine
moves on meanwhile and the backups still answer OK, `client_invoke`
executes it under the stamp of the view before, so that what is executed
belongs to the last view only if commits come between requests
(`BetweenRequests`).

`Covered` is the heart of the invariant: the last decided instance is the
view of the state machine, or is on its way to it, or the node is still
before its first view.
-/
import Yfs.Host.Node
import Yfs.Paxos.Restore

namespace Yfs.Host

open Yfs.Paxos (NodeId Value Acceptor LogRec PropT Core hasDone Numbered)
open Yfs.Config (Cfg members)
open Yfs.Rsm (Node Service TransferRes Viewstamp RecPc)

variable {σ ρ κ : Type}

/-! ## The state machine of one node -/

def Syncs : RecPc → Bool
  | .invokeMutex => true
  | .waitBackups => true
  | .transfer _ _ => true
  | .done _ _ => true
  | _ => false

/-- A node that serves, or has served, is at a view. -/
structure Settled (nd : Node σ ρ κ) : Prop where
  serving : nd.inviewchange = false →
    nd.recovery = .sleeping ∧ nd.vidInsync = nd.vidCommit ∧ nd.vidCommit ≠ 0
  stamp : nd.inviewchange = false → nd.myvs.vid = nd.vidCommit
  syncing : Syncs nd.recovery = true → nd.vidInsync ≠ 0
  invoking : nd.invoking ≠ none → nd.vidCommit ≠ 0

section Settled

variable {svc : Service σ ρ κ} {views : Nat → List NodeId} {me : NodeId} {nd nd' : Node σ ρ κ}

theorem settled_new (first : NodeId) (st : σ) : Settled (Node.new first st : Node σ ρ κ) :=
  ⟨by simp [Node.new], by simp [Node.new], by simp [Node.new, Syncs], by simp [Node.new]⟩

theorem Settled.commitChangeWo (h : Settled nd) {vid : Nat}
    (hc : nd.commitChangeWo views vid = some nd') : Settled nd' := by
  rcases Rsm.commitChangeWo_cases hc with rfl | ⟨hlt, p, _, rfl⟩
  · exact h
  · exact ⟨by simp, by simp, h.syncing, fun _ => by dsimp only; omega⟩

/-- The node is at the later of the two views. -/
theorem vidCommit_commitChangeWo {vid : Nat} (hc : nd.commitChangeWo views vid = some nd') :
    nd'.vidCommit = max nd.vidCommit vid := by
  unfold Node.commitChangeWo at hc
  split at hc
  · cases hc
    omega
  · obtain ⟨q, _, rfl⟩ := Rsm.setPrimary_eq hc
    show vid = _
    omega

/-- The head of the recovery loop, from a node that does not serve. -/
theorem Settled.recoveryHead (h0 : views 0 = []) (h : Settled nd)
    (hview : nd.inviewchange = true) : Settled (nd.recoveryHead views me) := by
  unfold Node.recoveryHead
  split
  · rename_i hmem
    have hne : nd.vidCommit ≠ 0 := by
      intro hz
      rw [hz, h0] at hmem
      cases hmem
    split <;> exact ⟨by simp [hview], by simp [hview], fun _ => hne, h.invoking⟩
  · exact ⟨by simp [hview], by simp [hview], by simp [Syncs], h.invoking⟩

theorem Settled.view (h : Settled nd) (hr : nd.recovery ≠ .sleeping) : nd.inviewchange = true := by
  cases hi : nd.inviewchange with
  | false => exact absurd (h.serving hi).1 hr
  | true => rfl

theorem Settled.recoverySynced (h0 : views 0 = []) (h : Settled nd)
    (hview : nd.inviewchange = true) (hsync : Syncs nd.recovery = true) (r : Bool) :
    Settled (nd.recoverySynced views me r) := by
  unfold Node.recoverySynced
  split
  · exact h.recoveryHead h0 hview
  · rename_i heq
    replace heq : nd.vidInsync = nd.vidCommit := by simpa using heq
    split
    · exact ⟨fun _ => ⟨rfl, heq, heq ▸ h.syncing hsync⟩, fun _ => rfl, by simp [Syncs],
        h.invoking⟩
    · exact ⟨by simp [hview], by simp [hview], by simp [Syncs], h.invoking⟩

/-- A node that synchronises goes on to another place of the recovery. -/
theorem Settled.move (h : Settled nd) (hsync : Syncs nd.recovery = true) {pc : RecPc} :
    Settled { nd with recovery := pc } := by
  have hr : nd.recovery ≠ .sleeping := by
    intro hr
    rw [hr] at hsync
    cases hsync
  have hview := h.view hr
  exact ⟨by simp [hview], by simp [hview], fun _ => h.syncing hsync, h.invoking⟩

/-- The loop of `client_invoke` at a node that has a view. -/
theorem Settled.invokeLoop (h : Settled nd) (hne : nd.vidCommit ≠ 0) (vs : Viewstamp) (req : ρ)
    (l : List NodeId) : Settled (nd.invokeLoop svc vs req l).2 := by
  obtain ⟨_, _, hview, hcom, hin, hmyvs, _, hrec, _⟩ := Rsm.invokeLoop_fields svc nd vs req l
  refine ⟨?_, ?_, ?_, ?_⟩
  · rw [hview, hrec, hcom, hin]
    exact h.serving
  · rw [hview, hmyvs, hcom]
    exact h.stamp
  · rw [hrec, hin]
    exact h.syncing
  · rw [hcom]
    exact fun _ => hne

/-- `client_invoke` refuses, or runs its loop at a node that serves. -/
theorem clientInvoke_cases (svc : Service σ ρ κ) (views : Nat → List NodeId) (me : NodeId)
    (nd : Node σ ρ κ) (req : ρ) :
    nd.clientInvoke svc views me req = (none, nd) ∨ nd.inviewchange = false := by
  unfold Node.clientInvoke
  split
  · exact .inl rfl
  · rename_i hc
    push Not at hc
    exact .inr (by simpa using hc.1)

theorem Settled.clientInvoke (h : Settled nd) (req : ρ) :
    Settled (nd.clientInvoke svc views me req).2 := by
  rcases clientInvoke_cases svc views me nd req with heq | hview
  · rw [heq]
    exact h
  · have hne := (h.serving hview).2.2
    unfold Node.clientInvoke
    split
    · exact h
    · have h' : Settled { nd with
          lastMyvs := nd.myvs, myvs := nd.myvs.next } :=
        ⟨h.serving, h.stamp, h.syncing, h.invoking⟩
      exact h'.invokeLoop hne _ _ _

/-- A request is with the backups only while the node serves in the view of
its stamp. -/
def InView (nd : Node σ ρ κ) : Prop :=
  ∀ inv ∈ nd.invoking, nd.inviewchange = false ∧ inv.vs.vid = nd.vidCommit

theorem inView_of_idle (h : nd.invoking = none) : InView nd := by
  intro inv hinv
  rw [h] at hinv
  cases hinv

theorem InView.idle (h : InView nd) (hview : nd.inviewchange = true) : nd.invoking = none := by
  cases hi : nd.invoking with
  | none => rfl
  | some inv => cases hview.symm.trans (h inv hi).1

/-- The recovery thread moves, at a node that does not serve. -/
theorem InView.quiet (h : InView nd) (hview : nd.inviewchange = true) (hq : Rsm.Quiet nd nd') :
    InView nd' :=
  inView_of_idle (hq.invoking.trans (h.idle hview))

theorem InView.same (h : InView nd) (hi : nd'.invoking = nd.invoking)
    (hv : nd'.inviewchange = nd.inviewchange) (hc : nd'.vidCommit = nd.vidCommit) :
    InView nd' := by
  intro inv hinv
  rw [hi] at hinv
  rw [hv, hc]
  exact h inv hinv

/-- The loop goes on with the stamp it has, or the request is over. -/
theorem inView_invokeLoop (hserve : nd.inviewchange = false) {vs : Viewstamp}
    (hvs : vs.vid = nd.vidCommit) (req : ρ) (l : List NodeId) :
    InView (nd.invokeLoop svc vs req l).2 := by
  rcases Rsm.invokeLoop_cases svc nd vs req l with ⟨_, heq⟩ | ⟨_, m, rest, _, _, _, heq⟩
    <;> rw [heq]
  · exact inView_of_idle rfl
  · intro inv hinv
    cases hinv
    exact ⟨hserve, hvs⟩

theorem InView.clientInvoke (h : InView nd) (hset : Settled nd) (req : ρ) :
    InView (nd.clientInvoke svc views me req).2 := by
  rcases clientInvoke_cases svc views me nd req with heq | hserve
  · rw [heq]
    exact h
  · unfold Node.clientInvoke
    split
    · exact h
    · apply inView_invokeLoop
      · exact hserve
      · exact hset.stamp hserve

/-- A step of the node keeps this, and its view. -/
theorem Settled.nodeStep (h0 : views 0 = []) (h : Settled nd) {e : NodeEvent σ ρ κ}
    (hs : nodeStep svc views me nd e = some nd') :
    Settled nd' ∧ nd'.vidCommit = nd.vidCommit ∧ (InView nd → InView nd') := by
  -- `led` is the primary and the view
  have hled : ∀ {a b : Node σ ρ κ}, a.led = b.led → a.vidCommit = b.vidCommit :=
    fun heq => congrArg Prod.snd heq
  cases e with
  | recoveryRetry =>
    obtain ⟨hr, rfl⟩ := Run.of_guard hs
    have hview := h.view (by simp [hr])
    exact ⟨h.recoveryHead h0 hview, hled (Rsm.led_recoveryHead views me nd),
      fun hin => hin.quiet hview ((Rsm.Quiet.refl _).recoveryHead me)⟩
  | joinFails =>
    obtain ⟨hr, rfl⟩ := Run.of_guard hs
    have hview := h.view (by simp [hr] : nd.recovery ≠ .sleeping)
    exact ⟨⟨by simp [hview], by simp [hview], by simp [Syncs], h.invoking⟩, rfl,
      fun hin => hin.same rfl rfl rfl⟩
  | takeInvokeMutex =>
    obtain ⟨⟨hr, _⟩, rfl⟩ := Run.of_guard hs
    have hmove : Settled { nd with recovery := .waitBackups } := h.move (by simp [hr, Syncs])
    exact ⟨⟨hmove.serving, hmove.stamp, hmove.syncing, hmove.invoking⟩, rfl,
      fun hin => hin.same rfl rfl rfl⟩
  | backupsWake =>
    obtain ⟨⟨hr, _⟩, rfl⟩ := Run.of_guard hs
    have hview := h.view (by simp [hr])
    have h' : Settled { nd with insync := false } := ⟨h.serving, h.stamp, h.syncing, h.invoking⟩
    exact ⟨h'.recoverySynced h0 hview (by simp [hr, Syncs]) true,
      hled (Rsm.led_recoverySynced views me { nd with insync := false } true),
      fun hin => hin.quiet hview (Rsm.quiet_backupsWake me hview)⟩
  | sendTransfer k =>
    simp only [Host.nodeStep] at hs
    split at hs
    · rename_i hr
      cases hs
      exact ⟨h.move (by simp [hr, Syncs]), rfl, fun hin => hin.same rfl rfl rfl⟩
    · cases hs
  | transferReply r =>
    simp only [Host.nodeStep] at hs
    split at hs
    · rename_i m k hr
      cases hs
      refine ⟨?_, hled (Rsm.led_installState svc nd r), ?_⟩
      all_goals
        have hmove : Settled { nd with recovery := .done m none } := h.move (by simp [hr, Syncs])
        obtain ⟨_, _, heq⟩ := Rsm.installState_eq svc nd r
        rw [heq]
      · exact ⟨hmove.serving, hmove.stamp, hmove.syncing, hmove.invoking⟩
      · exact fun hin => hin.same rfl rfl rfl
    · cases hs
  | transferFails =>
    simp only [Host.nodeStep] at hs
    split at hs
    · rename_i m k hr
      cases hs
      refine ⟨?_, hled (Rsm.led_transferFails nd m),
        fun hin => hin.quiet (h.view (by simp [hr])) (Rsm.quiet_transferFails nd m)⟩
      unfold Node.transferFails
      split <;> exact h.move (by simp [hr, Syncs])
    · cases hs
  | sendDone k =>
    simp only [Host.nodeStep] at hs
    split at hs
    · rename_i hr
      cases hs
      exact ⟨h.move (by simp [hr, Syncs]), rfl, fun hin => hin.same rfl rfl rfl⟩
    · cases hs
  | doneReply ok =>
    simp only [Host.nodeStep] at hs
    split at hs
    · rename_i hr
      cases hs
      have hview := h.view (by simp [hr])
      exact ⟨h.recoverySynced h0 hview (by simp [hr, Syncs]) ok,
        hled (Rsm.led_recoverySynced views me nd ok),
        fun hin => hin.quiet hview (Rsm.quiet_recoverySynced me ok hview)⟩
    · cases hs
  | sleepWake =>
    obtain ⟨⟨_, hne⟩, rfl⟩ := Run.of_guard hs
    have hview : nd.inviewchange = true := by
      cases hi : nd.inviewchange with
      | false => exact absurd (h.serving hi).2.1 hne
      | true => rfl
    exact ⟨h.recoveryHead h0 hview, hled (Rsm.led_recoveryHead views me nd),
      fun hin => hin.quiet hview ((Rsm.Quiet.refl _).recoveryHead me)⟩
  | transferdonereq m vid =>
    cases hs
    refine ⟨?_, hled (Rsm.led_transferdonereq nd m vid), ?_⟩
    all_goals rcases Rsm.transferdonereq_cases nd m vid with heq | ⟨_, _, heq⟩ <;> rw [heq]
    · exact h
    · exact ⟨h.serving, h.stamp, h.syncing, h.invoking⟩
    · exact id
    · exact fun hin => hin.same rfl rfl rfl
  | clientInvoke req =>
    obtain ⟨_, rfl⟩ := Run.of_guard hs
    exact ⟨h.clientInvoke req, hled (Rsm.led_clientInvoke svc views me nd req),
      fun hin => hin.clientInvoke h req⟩
  | sendInvoke k =>
    simp only [Host.nodeStep] at hs
    split at hs
    · rename_i inv hi
      split at hs
      · cases hs
        refine ⟨⟨h.serving, h.stamp, h.syncing, fun _ => h.invoking (by simp [hi])⟩, rfl, ?_⟩
        intro hin inv' hinv'
        cases hinv'
        exact hin inv hi
      · cases hs
    · cases hs
  | invokeReply ok =>
    simp only [Host.nodeStep] at hs
    split at hs
    · rename_i inv hi
      split at hs
      · cases hs
        exact ⟨h.invokeLoop (h.invoking (by simp [hi])) _ _ _,
          hled (Rsm.led_invokeLoop svc nd _ _ _),
          fun hin => inView_invokeLoop (hin inv hi).1 (hin inv hi).2 inv.req inv.rest⟩
      · cases hs
        exact ⟨⟨h.serving, h.stamp, h.syncing, by simp⟩, rfl, fun _ => inView_of_idle rfl⟩
    · cases hs
  | invoke vs req =>
    cases hs
    refine ⟨?_, hled (Rsm.led_invoke svc me nd vs req), ?_⟩
    all_goals rcases Rsm.invoke_cases svc me nd vs req with heq | ⟨_, _, _, heq⟩ <;> rw [heq]
    · exact h
    · exact ⟨h.serving, h.stamp, h.syncing, h.invoking⟩
    · exact id
    · exact fun hin => hin.same rfl rfl rfl

end Settled


/-! ## The process -/

/-- The last instance has come to the state machine, is on its way to it, is
what the recovery thread is about to read, or the node is before its first
view. -/
def Covered (p : Process σ ρ κ) : Prop :=
  p.rsm.vidCommit = p.acc.instanceH ∨
  (∃ u ∈ p.upcalls, u.inst = p.acc.instanceH) ∨
  (p.restored = true ∧ p.cfg.myvid = p.acc.instanceH) ∨
  (p.rsm.vidCommit = 0 ∧ p.upcalls = [] ∧ p.restored = false)

structure Inv (p : Process σ ρ κ) : Prop where
  zero : p.acc.values 0 = none
  upcalls : ∀ u ∈ p.upcalls, u.inst ≤ p.acc.instanceH
  myvidLe : p.cfg.myvid ≤ p.acc.instanceH
  commitLe : p.rsm.vidCommit ≤ p.acc.instanceH
  joining : p.restored = true → p.rsm.recovery = .joining
  settled : Settled p.rsm
  covered : Covered p

/-- A log that comes with a join decides no less than the acceptor knows;
and while the recovery thread is about to read `cfg->vid()`, no `paxos_commit`
of an older instance is made. -/
def InStep (p : Process σ ρ κ) : Event σ ρ κ → Prop
  | .joinReply file =>
    Numbered file ∧ (hasDone file = true → p.acc.instanceH ≤ (Core.ofLog file).instanceH)
  | .upcall i => p.restored = true → ∀ u ∈ p.upcalls[i]?, u.inst = p.acc.instanceH
  | _ => True

instance (p : Process σ ρ κ) (e : Event σ ρ κ) : Decidable (InStep p e) := by
  rcases e <;> unfold InStep <;> infer_instance

section Inv

variable {svc : Service σ ρ κ} {me : NodeId} {p p' : Process σ ρ κ}

theorem Inv.view_zero (h : Inv p) : p.view 0 = [] := by
  unfold Process.view Acceptor.value
  rw [h.zero]
  rfl

/-- The node is at the last view once no commit is on its way to it. -/
theorem Inv.latest (h : Inv p) (hup : p.upcalls = []) (hres : p.restored = false)
    (hne : p.rsm.vidCommit ≠ 0) : p.rsm.vidCommit = p.acc.instanceH := by
  rcases h.covered with heq | ⟨u, hu, _⟩ | ⟨hr, _⟩ | ⟨hz, _⟩
  · exact heq
  · rw [hup] at hu
    cases hu
  · cases hres.symm.trans hr
  · exact absurd hz hne

theorem Inv.not_restored (h : Inv p) (hview : p.rsm.inviewchange = false) :
    p.restored = false := by
  cases hr : p.restored with
  | false => rfl
  | true =>
    have hsleep := (h.settled.serving hview).1
    rw [h.joining hr] at hsleep
    cases hsleep

/-- The acceptor answers `preparereq` or `acceptreq`. -/
theorem Inv.answer (h : Inv p) {acc : Acceptor} (hi : acc.instanceH = p.acc.instanceH)
    (hv : acc.values = p.acc.values) : Inv { p with acc := acc } := by
  refine ⟨hv ▸ h.zero, ?_, ?_, ?_, h.joining, h.settled, ?_⟩
  · exact hi ▸ h.upcalls
  · exact hi ▸ h.myvidLe
  · exact hi ▸ h.commitLe
  · have hc := h.covered
    unfold Covered at hc ⊢
    dsimp only
    rw [hi]
    exact hc

/-- A later instance is decided and goes up. -/
theorem Inv.commitWo (h : Inv p) (inst : Nat) (v : Value) : Inv (p.commitWo me inst v) := by
  by_cases hlt : p.acc.instanceH < inst
  · have hcommit := h.commitLe
    have hmyvid := h.myvidLe
    unfold Process.commitWo Acceptor.commitWo
    rw [if_pos hlt, if_pos hlt]
    refine ⟨?_, ?_, by dsimp only; omega, by dsimp only; omega, h.joining, h.settled, ?_⟩
    · exact (Function.update_of_ne (by omega) _ _).trans h.zero
    · intro u hu
      rcases List.mem_append.mp hu with hu | hu
      · exact (h.upcalls u hu).trans hlt.le
      · rw [List.mem_singleton.mp hu]
        exact le_rfl
    · exact .inr (.inl ⟨.paxosCommit inst v, by simp, rfl⟩)
  · unfold Process.commitWo Acceptor.commitWo
    rw [if_neg hlt, if_neg hlt]
    exact h

/-- `paxos_commit`: the config takes the view, and the commit goes on. -/
theorem Inv.paxosCommit (h : Inv p) {i inst : Nat} {v : Value}
    (hu : p.upcalls[i]? = some (.paxosCommit inst v))
    (hok : p.restored = true → inst = p.acc.instanceH) :
    Inv { p with
      cfg := p.cfg.paxosCommit inst v, upcalls := p.upcalls.set i (.commitChange inst) } := by
  have hle : inst ≤ p.acc.instanceH := h.upcalls _ (List.mem_of_getElem? hu)
  refine ⟨h.zero, ?_, hle, h.commitLe, h.joining, h.settled, ?_⟩
  · intro u hmem
    rcases List.mem_or_eq_of_mem_set hmem with hmem | rfl
    · exact h.upcalls u hmem
    · exact hle
  · rcases h.covered with heq | ⟨u, hmem, heq⟩ | ⟨hr, _⟩ | ⟨_, hnil, _⟩
    · exact .inl heq
    · -- the commit of the last instance is still on its way
      refine .inr (.inl ?_)
      obtain ⟨j, hj⟩ := List.getElem?_of_mem hmem
      rcases eq_or_ne i j with rfl | hne
      · cases hu.symm.trans hj
        exact ⟨.commitChange inst, List.mem_set (List.getElem?_eq_some_iff.mp hu).1 _, heq⟩
      · exact ⟨u, List.mem_of_getElem? ((List.getElem?_set_ne hne).trans hj), heq⟩
    · exact .inr (.inr (.inl ⟨hr, hok hr⟩))
    · rw [hnil] at hu
      cases hu

/-- `commit_change`: the commit has come to the state machine. -/
theorem Inv.commitChange (h : Inv p) {i vid : Nat} {nd : Node σ ρ κ}
    (hu : p.upcalls[i]? = some (.commitChange vid)) (hres : p.restored = false)
    (hc : p.rsm.commitChangeWo p.view vid = some nd) :
    Inv { p with rsm := nd, upcalls := p.upcalls.eraseIdx i } := by
  have hle : vid ≤ p.acc.instanceH := h.upcalls _ (List.mem_of_getElem? hu)
  have hcom := h.commitLe
  have hmax := vidCommit_commitChangeWo hc
  refine ⟨h.zero, fun u hmem => h.upcalls u (List.mem_of_mem_eraseIdx hmem), h.myvidLe, ?_,
    fun hr => absurd (hres.symm.trans hr) (by simp), h.settled.commitChangeWo hc, ?_⟩
  · show nd.vidCommit ≤ p.acc.instanceH
    omega
  · rcases h.covered with heq | ⟨u, hmem, heq⟩ | ⟨hr, _⟩ | ⟨_, hnil, _⟩
    · refine .inl ?_
      show nd.vidCommit = p.acc.instanceH
      omega
    · obtain ⟨j, hj⟩ := List.getElem?_of_mem hmem
      rcases eq_or_ne i j with rfl | hne
      · cases hu.symm.trans hj
        refine .inl ?_
        replace heq : vid = p.acc.instanceH := heq
        show nd.vidCommit = p.acc.instanceH
        omega
      · exact .inr (.inl ⟨u, List.mem_eraseIdx_iff_getElem?.mpr ⟨j, hne.symm, hj⟩, heq⟩)
    · cases hres.symm.trans hr
    · rw [hnil] at hu
      cases hu

theorem restore_instanceH (a : Acceptor) (file : List LogRec) :
    (a.restore file).instanceH =
      if hasDone file then (Core.ofLog file).instanceH else a.instanceH := by
  unfold Acceptor.restore
  split
  · rename_i hd
    exact (Paxos.logread_of_hasDone _ hd).1
  · rename_i hd
    exact (Paxos.logread_of_not_hasDone _ (by simpa using hd)).1

/-- The log of the join is in place; the recovery thread goes on with it. -/
theorem Inv.restore (h : Inv p) (hr : p.rsm.recovery = .joining) {file : List LogRec}
    (hf : Numbered file)
    (hok : hasDone file = true → p.acc.instanceH ≤ (Core.ofLog file).instanceH) :
    Inv (p.restore file) := by
  have hle : p.acc.instanceH ≤ (p.acc.restore file).instanceH := by
    rw [restore_instanceH]
    split
    · rename_i hd
      exact hok hd
    · exact le_rfl
  have hcom := h.commitLe
  have hmy := h.myvidLe
  have hread : (p.cfg.reconstruct (p.acc.restore file)).myvid = (p.acc.restore file).instanceH :=
    Config.reconstruct_myvid (hmy.trans hle)
  refine ⟨Paxos.logread_values_zero (a := { p.acc with log := file }) h.zero hf,
    fun u hu => (h.upcalls u hu).trans hle, hread.le,
    hcom.trans hle, fun _ => hr, h.settled, ?_⟩
  exact .inr (.inr (.inl ⟨rfl, hread⟩))

/-- `commit_change_wo(cfg->vid())`, and on to the head of the loop. -/
theorem Inv.joinCommit (h : Inv p) (hres : p.restored = true) {nd : Node σ ρ κ}
    (hc : p.rsm.commitChangeWo p.view p.cfg.myvid = some nd) :
    Inv { p with rsm := nd.recoveryHead p.view me, restored := false } := by
  have hcom := h.commitLe
  have hmy := h.myvidLe
  have hmax := vidCommit_commitChangeWo hc
  have hview : p.rsm.inviewchange = true := h.settled.view (by simp [h.joining hres])
  have hview' : nd.inviewchange = true := by
    rcases Rsm.commitChangeWo_cases hc with rfl | ⟨_, q, _, rfl⟩
    · exact hview
    · rfl
  have hhead : (nd.recoveryHead p.view me).vidCommit = nd.vidCommit :=
    congrArg Prod.snd (Rsm.led_recoveryHead p.view me nd)
  refine ⟨h.zero, h.upcalls, h.myvidLe, ?_, by simp,
    (h.settled.commitChangeWo hc).recoveryHead h.view_zero hview', ?_⟩
  · show (nd.recoveryHead p.view me).vidCommit ≤ p.acc.instanceH
    omega
  · rcases h.covered with heq | hup | ⟨_, heq⟩ | ⟨_, _, hr⟩
    · refine .inl ?_
      show (nd.recoveryHead p.view me).vidCommit = p.acc.instanceH
      omega
    · exact .inr (.inl hup)
    · refine .inl ?_
      show (nd.recoveryHead p.view me).vidCommit = p.acc.instanceH
      omega
    · cases hres.symm.trans hr

theorem Inv.nodeStep (h : Inv p) (hres : p.restored = false) {e : NodeEvent σ ρ κ}
    {nd : Node σ ρ κ} (hs : nodeStep svc p.view me p.rsm e = some nd) :
    Inv { p with rsm := nd } := by
  obtain ⟨hset, hcom, _⟩ := h.settled.nodeStep h.view_zero hs
  refine ⟨h.zero, h.upcalls, h.myvidLe, ?_, fun hr => absurd (hres.symm.trans hr) (by simp), hset,
    ?_⟩
  · show nd.vidCommit ≤ p.acc.instanceH
    exact hcom ▸ h.commitLe
  · have hc := h.covered
    unfold Covered at hc ⊢
    dsimp only
    rw [hcom]
    exact hc

theorem inv_step (h : Inv p) {e : Event σ ρ κ} (hok : InStep p e)
    (hs : step svc me p e = some p') : Inv p' := by
  cases e with
  | preparereq inst n =>
    cases hs
    rcases Paxos.preparereq_cases p.acc inst n with ⟨_, heq⟩ | ⟨_, _, heq⟩ | ⟨_, _, heq⟩
    all_goals
      rw [heq]
      exact h.answer rfl rfl
  | acceptreq n v =>
    cases hs
    rcases Paxos.acceptreq_cases p.acc n v with ⟨_, heq⟩ | ⟨_, heq⟩
    all_goals
      rw [heq]
      exact h.answer rfl rfl
  | decidereq inst v =>
    obtain ⟨_, _, rfl⟩ := Option.map_eq_some_iff.mp hs
    exact h.commitWo inst v
  | commit inst v =>
    cases hs
    exact h.commitWo inst v
  | upcall i =>
    simp only [step] at hs
    split at hs
    · rename_i inst v hu
      cases hs
      exact h.paxosCommit hu fun hr => hok hr _ hu
    · rename_i vid hu
      split at hs
      · cases hs
      · rename_i hr
        obtain ⟨nd, hc, rfl⟩ := Option.map_eq_some_iff.mp hs
        exact h.commitChange hu (by simpa using hr) hc
    · cases hs
  | joinReply file =>
    obtain ⟨⟨hr, _⟩, rfl⟩ := Run.of_guard hs
    exact h.restore hr hok.1 hok.2
  | joinCommit =>
    simp only [step, Option.ite_none_right_eq_some] at hs
    obtain ⟨hr, hs⟩ := hs
    obtain ⟨nd, hc, rfl⟩ := Option.map_eq_some_iff.mp hs
    exact h.joinCommit hr hc
  | rsm e =>
    simp only [step, Option.ite_none_left_eq_some] at hs
    obtain ⟨hr, hs⟩ := hs
    obtain ⟨nd, hn, rfl⟩ := Option.map_eq_some_iff.mp hs
    exact h.nodeStep (by simpa using hr) hn

/-- A process that starts: a node other than `_first` is before its first
view, and `_first` has committed view 1. -/
theorem inv_new {first : NodeId} {st : σ} {file : List LogRec} (hf : Numbered file)
    (hstart : first ≠ me ∨ (Core.ofLog file).instanceH ≤ 1)
    (h : Process.new first me st file = some p) : Inv p := by
  obtain ⟨nd, hnd, rfl⟩ := Option.map_eq_some_iff.mp h
  have hcore : ((Acceptor.blank me file).logread file).instanceH = (Core.ofLog file).instanceH :=
    congrArg Core.instanceH (Paxos.core_logread (Acceptor.blank me file) file)
  have hzero : (Acceptor.new me (decide (me = first)) me file).values 0 = none := by
    have hread := Paxos.logread_values_zero (a := Acceptor.blank me file) rfl hf
    unfold Acceptor.new
    dsimp only
    split
    · show Function.update ((Acceptor.blank me file).logread file).values 1 (some me) 0 = none
      rw [Function.update_of_ne (by decide)]
      exact hread
    · exact hread
  have hmyvid : (Cfg.new (Acceptor.new me (decide (me = first)) me file)).myvid =
      (Acceptor.new me (decide (me = first)) me file).instanceH :=
    Config.reconstruct_myvid (Nat.zero_le _)
  unfold Rsm.boot at hnd
  split at hnd
  · rename_i heq
    -- the log decides at most instance 1, which is the view that is committed
    have hone : (Acceptor.new me (decide (me = first)) me file).instanceH = 1 := by
      have hle := hstart.resolve_left (fun hne => hne heq)
      unfold Acceptor.new
      dsimp only
      split
      · rfl
      · rename_i hno
        simp only [heq, decide_true, and_true] at hno
        omega
    have hcom : nd.vidCommit = 1 := vidCommit_commitChangeWo hnd
    refine ⟨hzero, by simp, hmyvid.le, ?_, by simp, (settled_new first st).commitChangeWo hnd,
      .inl ?_⟩
    · exact (hcom.trans hone.symm).le
    · exact hcom.trans hone.symm
  · cases hnd
    exact ⟨hzero, by simp, hmyvid.le, Nat.zero_le _, by simp, settled_new first st,
      .inr (.inr (.inr ⟨rfl, rfl, rfl⟩))⟩

end Inv

/-! ## Serving -/

open Yfs.Run (Reach execIf)

/-- The steps of `client_invoke`: a request comes in, or a backup has
answered OK. -/
def ClientInvoke : Event σ ρ κ → Prop
  | .rsm (.clientInvoke _) => True
  | .rsm (.invokeReply ok) => ok = true
  | _ => False

/-- The loop of `client_invoke` executes the request under the stamp it has,
or nothing. -/
theorem invokeLoop_execd (svc : Service σ ρ κ) (nd : Node σ ρ κ) (vs : Viewstamp) (req : ρ)
    (l : List NodeId) : (nd.invokeLoop svc vs req l).2.execd = nd.execd ∨
      ∃ entry, (nd.invokeLoop svc vs req l).2.execd = nd.execd ++ [entry] ∧ entry.vs = vs := by
  rcases Rsm.invokeLoop_cases svc nd vs req l with ⟨_, heq⟩ | ⟨_, _, _, _, _, _, heq⟩ <;> rw [heq]
  · exact .inr ⟨_, rfl, rfl⟩
  · exact .inl rfl

/-- `client_invoke` executes only at a node that has a view, and in it. -/
theorem Inv.executes {svc : Service σ ρ κ} {me : NodeId} {p p' : Process σ ρ κ} (h : Inv p)
    (hin : InView p.rsm) {e : Event σ ρ κ} (he : ClientInvoke e) (hs : step svc me p e = some p')
    (hx : p'.rsm.execd ≠ p.rsm.execd) : p.restored = false ∧ p.rsm.vidCommit ≠ 0 ∧
      ∃ entry, p'.rsm.execd = p.rsm.execd ++ [entry] ∧ entry.vs.vid = p.rsm.vidCommit := by
  cases e with
  | rsm e =>
    simp only [step, Option.ite_none_left_eq_some] at hs
    obtain ⟨hr, hs⟩ := hs
    obtain ⟨nd, hn, rfl⟩ := Option.map_eq_some_iff.mp hs
    refine ⟨by simpa using hr, ?_⟩
    cases e with
    | clientInvoke req =>
      obtain ⟨_, rfl⟩ := Run.of_guard hn
      rcases clientInvoke_cases svc p.view me p.rsm req with heq | hview
      · exact absurd (by rw [heq]) hx
      refine ⟨(h.settled.serving hview).2.2, ?_⟩
      unfold Node.clientInvoke at hx ⊢
      split at hx
      · exact absurd rfl hx
      rename_i hc
      rw [if_neg hc]
      rcases invokeLoop_execd svc { p.rsm with lastMyvs := p.rsm.myvs, myvs := p.rsm.myvs.next }
        p.rsm.myvs req (p.view p.rsm.vidCommit) with heq | ⟨entry, heq, hvs⟩
      · exact absurd heq hx
      · exact ⟨entry, heq, hvs ▸ h.settled.stamp hview⟩
    | invokeReply ok =>
      simp only [Host.nodeStep] at hn
      split at hn
      · rename_i inv hi
        refine ⟨h.settled.invoking (by simp [hi]), ?_⟩
        split at hn
        · cases hn
          rcases invokeLoop_execd svc p.rsm inv.vs inv.req inv.rest with heq | ⟨entry, heq, hvs⟩
          · exact absurd heq hx
          · exact ⟨entry, heq, hvs ▸ (hin inv hi).2⟩
        · cases hn
          exact absurd rfl hx
      · cases hn
    | _ => exact he.elim
  | _ => exact he.elim

/-- A commit comes to the state machine between requests: while
`client_invoke` waits for a backup it does not move to a later view. -/
def BetweenRequests (p : Process σ ρ κ) : Event σ ρ κ → Prop
  | .upcall i => ∀ u ∈ p.upcalls[i]?, u.inst ≤ p.rsm.vidCommit ∨ p.rsm.invoking.isNone = true
  | _ => True

instance (p : Process σ ρ κ) (e : Event σ ρ κ) : Decidable (BetweenRequests p e) := by
  rcases e <;> unfold BetweenRequests <;> infer_instance

theorem inView_step {svc : Service σ ρ κ} {me : NodeId} {p p' : Process σ ρ κ} (h : Inv p)
    (hin : InView p.rsm) {e : Event σ ρ κ} (hok : BetweenRequests p e)
    (hs : step svc me p e = some p') : InView p'.rsm := by
  cases e with
  | upcall i =>
    simp only [step] at hs
    split at hs
    · cases hs
      exact hin
    · rename_i vid hu
      split at hs
      · cases hs
      · obtain ⟨nd, hc, rfl⟩ := Option.map_eq_some_iff.mp hs
        rcases Rsm.commitChangeWo_cases hc with rfl | ⟨hlt, q, _, rfl⟩
        · exact hin
        · have hle : vid ≤ p.rsm.vidCommit ∨ p.rsm.invoking.isNone = true := hok _ hu
          exact inView_of_idle (Option.isNone_iff_eq_none.mp (hle.resolve_left (by omega)))
    · cases hs
  | joinCommit =>
    simp only [step, Option.ite_none_right_eq_some] at hs
    obtain ⟨hr, hs⟩ := hs
    obtain ⟨nd, hc, rfl⟩ := Option.map_eq_some_iff.mp hs
    -- a node that joins does not serve
    have hview := h.settled.view (by simp [h.joining hr] : p.rsm.recovery ≠ .sleeping)
    exact hin.quiet hview ((Rsm.quiet_commitChangeWo hc).recoveryHead me)
  | rsm e =>
    simp only [step, Option.ite_none_left_eq_some] at hs
    obtain ⟨nd, hn, rfl⟩ := Option.map_eq_some_iff.mp hs.2
    exact (h.settled.nodeStep h.view_zero hn).2.2 hin
  | joinReply file =>
    obtain ⟨_, rfl⟩ := Run.of_guard hs
    exact hin
  | decidereq inst v =>
    obtain ⟨_, _, rfl⟩ := Option.map_eq_some_iff.mp hs
    exact hin
  | preparereq inst n =>
    cases hs
    exact hin
  | acceptreq n v =>
    cases hs
    exact hin
  | commit inst v =>
    cases hs
    exact hin

theorem inView_new {first me : NodeId} {st : σ} {file : List LogRec} {p : Process σ ρ κ}
    (h : Process.new first me st file = some p) : InView p.rsm := by
  obtain ⟨nd, hnd, rfl⟩ := Option.map_eq_some_iff.mp h
  refine inView_of_idle ?_
  unfold Rsm.boot at hnd
  split at hnd
  · exact (Rsm.quiet_commitChangeWo hnd).invoking
  · cases hnd
    rfl

/-- In a run in which no log takes the acceptor back and no older upcall
gets in the way of a join: whenever no commit is on its way, a node that
serves is at the last instance it knows. If besides commits come between
requests, what `client_invoke` executes then has a stamp of that view. -/
theorem serves_latest_view (svc : Service σ ρ κ) (first me : NodeId) (st : σ)
    (file : List LogRec) (p₀ p : Process σ ρ κ) (hnew : Process.new first me st file = some p₀)
    (hf : Numbered file) (hstart : first ≠ me ∨ (Core.ofLog file).instanceH ≤ 1)
    (hr : Reach (step svc me) InStep p₀ p) (hup : p.upcalls = []) :
    (p.rsm.inviewchange = false → p.rsm.vidCommit = p.acc.instanceH) ∧
    (Reach (step svc me) (fun p e => InStep p e ∧ BetweenRequests p e) p₀ p →
      ∀ e p', ClientInvoke e → step svc me p e = some p' → p'.rsm.execd ≠ p.rsm.execd →
        ∃ entry, p'.rsm.execd = p.rsm.execd ++ [entry] ∧ entry.vs.vid = p.acc.instanceH) := by
  have hinv : Inv p :=
    hr.invariant Inv (inv_new hf hstart hnew) fun _ _ _ hi hok hs => inv_step hi hok hs
  constructor
  · intro hview
    exact hinv.latest hup (hinv.not_restored hview) (hinv.settled.serving hview).2.2
  · intro hbetween e p' he hs hx
    obtain ⟨_, hin⟩ := hbetween.invariant (fun p => Inv p ∧ InView p.rsm)
      ⟨inv_new hf hstart hnew, inView_new hnew⟩ fun _ _ _ hi hok hs =>
        ⟨inv_step hi.1 hok.1 hs, inView_step hi.1 hi.2 hok.2 hs⟩
    obtain ⟨hres, hne, entry, hexec, hvs⟩ := hinv.executes hin he hs hx
    exact ⟨entry, hexec, hvs.trans (hinv.latest hup hres hne)⟩

def twoViews : List LogRec := [.done 1 ['1', ' '], .done 2 ['1', ' ', '2', ' ']]

/-- Node 1 starts view 1, node 2 joins it, and a request goes to node 2. -/
def requestInTwo : List (Event Nat Nat Nat) :=
  [.rsm .recoveryRetry, .rsm .takeInvokeMutex, .rsm .backupsWake, .commit 2 ['1', ' ', '2', ' '],
   .upcall 0, .upcall 0, .rsm .sleepWake, .rsm .takeInvokeMutex, .rsm (.transferdonereq ['2'] 2),
   .rsm .backupsWake, .rsm (.clientInvoke 7), .rsm (.sendInvoke 0)]

/-- Node 1 serves in view 2, the last one it knows, and executes the request
there once node 2 has answered. -/
theorem serves_latest_view_request : ∃ p₀ p p' : Process Nat Nat Nat,
    Process.new ['1'] ['1'] 0 [] = some p₀ ∧ Reach (step Rsm.register ['1']) InStep p₀ p ∧
    p.upcalls = [] ∧ p.rsm.inviewchange = false ∧ p.rsm.vidCommit = 2 ∧
    p.rsm.vidCommit = p.acc.instanceH ∧
    step Rsm.register ['1'] p (.rsm (.invokeReply true)) = some p' ∧
    ∃ entry, p'.rsm.execd = p.rsm.execd ++ [entry] ∧ entry.vs.vid = p.acc.instanceH := by
  obtain ⟨p₀, hnew, p, hp, hup, hview, hcom, p', hs, hx⟩ :
      ∃ p₀ : Process Nat Nat Nat, Process.new ['1'] ['1'] 0 [] = some p₀ ∧
      ∃ p, execIf (step Rsm.register ['1']) (fun p e => InStep p e ∧ BetweenRequests p e) p₀
        requestInTwo = some p ∧
        p.upcalls = [] ∧ p.rsm.inviewchange = false ∧ p.rsm.vidCommit = 2 ∧
      ∃ p', step Rsm.register ['1'] p (.rsm (.invokeReply true)) = some p' ∧
        p'.rsm.execd ≠ p.rsm.execd := by
    decide +kernel
  have hr := Reach.init.execIf hp
  have hr' : Reach (step Rsm.register ['1']) InStep p₀ p := hr.mono fun _ _ h => h.1
  obtain ⟨hlatest, hexec⟩ := serves_latest_view Rsm.register ['1'] ['1'] 0 [] p₀ p hnew (by decide)
    (.inr (by decide)) hr' hup
  exact ⟨p₀, p, p', hnew, hr', hup, hview, hcom, hlatest hview, hs,
    hexec hr (.rsm (.invokeReply true)) p' rfl hs hx⟩

/-- Node 1 is `_first`. It starts again with two views in its log, takes view 1
for its view, in which it is alone, and executes a request there. -/
theorem first_node_serves_view_one : ∃ p₀ p p' : Process Nat Nat Nat,
    Process.new ['1'] ['1'] 0 twoViews = some p₀ ∧
    Reach (step Rsm.register ['1']) InStep p₀ p ∧
    p.upcalls = [] ∧ p.rsm.inviewchange = false ∧ p.rsm.vidCommit = 1 ∧ p.acc.instanceH = 2 ∧
    step Rsm.register ['1'] p (.rsm (.clientInvoke 7)) = some p' ∧ p.rsm.execd = [] ∧
    p'.rsm.execd = [⟨⟨1, 1⟩, 7, 0⟩] := by
  obtain ⟨p₀, hnew, p, hp, hup, hview, hcom, hacc, p', hs, hnone, hx⟩ :
      ∃ p₀ : Process Nat Nat Nat, Process.new ['1'] ['1'] 0 twoViews = some p₀ ∧
      ∃ p, execIf (step Rsm.register ['1']) InStep p₀
        [.rsm .recoveryRetry, .rsm .takeInvokeMutex, .rsm .backupsWake] = some p ∧
        p.upcalls = [] ∧ p.rsm.inviewchange = false ∧ p.rsm.vidCommit = 1 ∧ p.acc.instanceH = 2 ∧
      ∃ p', step Rsm.register ['1'] p (.rsm (.clientInvoke 7)) = some p' ∧ p.rsm.execd = [] ∧
        p'.rsm.execd = [⟨⟨1, 1⟩, 7, 0⟩] := by
    decide +kernel
  exact ⟨p₀, p, p', hnew, Reach.init.execIf hp, hup, hview, hcom, hacc, hs, hnone, hx⟩

end Yfs.Host
