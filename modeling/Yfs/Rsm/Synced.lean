/-
Yfs.Rsm.Synced — has every backup that the primary strikes off its list
obtained the primary's state?

A backup runs `statetransfer` until it succeeds and then tells the primary
with `transferdonereq`, which takes the backup off `backups`. When the list
is empty the primary serves. `Install` records every `statetransfer` that
succeeded, with the state and the stamp the node had afterwards; the system
is the one of `Yfs.Rsm.System` with this history beside it.

Two things come in the way.

* The loop of `sync_with_primary` is also left when a later view has been
  committed, and `transferdonereq` is sent all the same, for the OLD view. A
  primary that does not know the later view yet strikes the node off.
* The state is left out of the reply when the two stamps agree. A primary
  whose `client_invoke` failed has the stamp of a request it did not
  execute, and a backup may have executed it.

`Orderly` excludes both, step by step. `Steady` says what the other steps leave
alone at a node: while it is `insync`, its state and its stamp stay.
-/
import Yfs.Rsm.Recovery

namespace Yfs.Rsm

open Run Function

variable {σ ρ κ : Type}

/-! ## The history of transfers -/

/-- `statetransfer(source)` has succeeded at `node` for view `vid`. -/
structure Install (σ : Type) where
  node : NodeId
  source : NodeId
  vid : Nat
  state : σ
  last : Viewstamp
  deriving DecidableEq, Repr

structure Traced (σ ρ κ : Type) where
  sys : Sys σ ρ κ
  installs : List (Install σ)

/-- The OK reply that the `statetransfer` of node `n` is about to take. -/
def Sys.awaited (s : Sys σ ρ κ) (n : NodeId) : Option (NodeId × Nat × TransferRes σ ρ κ) :=
  match (s.nodes n).recovery with
  | .transfer _ (some k) =>
    match s.transfers k with
    | .replied dst vid (some r) => some (dst, vid, r)
    | _ => none
  | _ => none

def newInstalls (s s' : Sys σ ρ κ) : Event ρ → List (Install σ)
  | .transferReturn n =>
    (s.awaited n).toList.map fun c =>
      ⟨n, c.1, c.2.1, (s'.nodes n).state, (s'.nodes n).lastMyvs⟩
  | _ => []

def tracedStep (svc : Service σ ρ κ) (views : Nat → List NodeId) (t : Traced σ ρ κ)
    (e : Event ρ) : Option (Traced σ ρ κ) :=
  (step svc views t.sys e).map fun s' => ⟨s', newInstalls t.sys s' e ++ t.installs⟩

/-- No `statetransfer` fails at a node that has committed a later view in the
meantime; and one that succeeds with equal stamps, from a node that still
synchronises for that view, finds the same state. -/
def Orderly (t : Traced σ ρ κ) : Event ρ → Prop
  | .transferFails n => (t.sys.nodes n).vidInsync = (t.sys.nodes n).vidCommit
  | .transferReturn n => ∀ c ∈ t.sys.awaited n, c.2.2.last = (t.sys.nodes n).lastMyvs →
      (t.sys.nodes c.1).insync = true → (t.sys.nodes c.1).vidInsync = c.2.1 →
      (t.sys.nodes n).state = (t.sys.nodes c.1).state
  | _ => True

instance [DecidableEq σ] (t : Traced σ ρ κ) (e : Event ρ) : Decidable (Orderly t e) := by
  rcases e <;> unfold Orderly <;> infer_instance

/-- Node `n` has obtained its state from `m` for view `vid`. -/
def Traced.Has (t : Traced σ ρ κ) (n m : NodeId) (vid : Nat) : Prop :=
  ∃ i ∈ t.installs, i.node = n ∧ i.source = m ∧ i.vid = vid

theorem Traced.Has.cons {t : Traced σ ρ κ} {n m : NodeId} {vid : Nat} (h : t.Has n m vid)
    (s' : Sys σ ρ κ) (i : Install σ) : (⟨s', i :: t.installs⟩ : Traced σ ρ κ).Has n m vid := by
  obtain ⟨j, hj, heq⟩ := h
  exact ⟨j, List.mem_cons_of_mem _ hj, heq⟩

/-! ## What a step leaves alone at a node -/

/-- The node keeps its state and its stamp as long as it is `insync`, starts
no synchronisation with its backups and ends no transfer. -/
structure Steady (nd nd' : Node σ ρ κ) : Prop where
  base : nd.base ≤ nd'.base
  commit : nd.vidCommit ≤ nd'.vidCommit
  insync : nd'.insync = true → nd.insync = true ∧ nd'.vidInsync = nd.vidInsync ∧
    nd'.state = nd.state ∧ nd'.lastMyvs = nd.lastMyvs ∧ nd'.backups = nd.backups
  waiting : nd'.recovery = .waitBackups → nd.recovery = .waitBackups ∧
    nd'.insync = nd.insync ∧ (nd.invoking = none → nd'.invoking = none)
  done : ∀ m c, nd'.recovery = .done m c →
    (∃ c', nd.recovery = .done m c') ∧ nd'.vidInsync = nd.vidInsync

section Steady

variable {svc : Service σ ρ κ} {views : Nat → List NodeId} {n : NodeId} {nd nd' : Node σ ρ κ}

theorem Steady.refl (nd : Node σ ρ κ) : Steady nd nd :=
  ⟨le_rfl, le_rfl, fun h => ⟨h, rfl, rfl, rfl, rfl⟩, fun h => ⟨h, rfl, id⟩,
    fun _ c h => ⟨⟨c, h⟩, rfl⟩⟩

theorem steady_commitChangeWo {vid : Nat} (h : nd.commitChangeWo views vid = some nd') :
    Steady nd nd' := by
  rcases commitChangeWo_cases h with rfl | ⟨hlt, p, _, rfl⟩
  · exact Steady.refl _
  · exact ⟨le_rfl, hlt.le, fun h => ⟨h, rfl, rfl, rfl, rfl⟩, fun h => ⟨h, rfl, id⟩,
      fun _ c h => ⟨⟨c, h⟩, rfl⟩⟩

/-- A node that is not `insync` and goes to a place of the recovery where it
neither waits for its backups nor has a transfer behind it. -/
theorem Steady.elsewhere (hbase : nd.base ≤ nd'.base) (hcom : nd.vidCommit ≤ nd'.vidCommit)
    (hsync : nd'.insync = false) (hwait : nd'.recovery ≠ .waitBackups)
    (hdone : ∀ m c, nd'.recovery ≠ .done m c) : Steady nd nd' :=
  ⟨hbase, hcom, fun h => absurd (hsync.symm.trans h) (by simp), fun h => absurd h hwait,
    fun m c h => absurd h (hdone m c)⟩

theorem steady_recoveryHead (hbase : nd.base ≤ nd'.base) (hcom : nd.vidCommit ≤ nd'.vidCommit)
    (hsync : nd'.insync = false) : Steady nd (nd'.recoveryHead views n) := by
  unfold Node.recoveryHead
  split
  · split <;> exact Steady.elsewhere hbase hcom hsync (by simp) (by simp)
  · exact Steady.elsewhere hbase hcom hsync (by simp) (by simp)

theorem steady_recoverySynced (hbase : nd.base ≤ nd'.base) (hcom : nd.vidCommit ≤ nd'.vidCommit)
    (hsync : nd'.insync = false) (r : Bool) : Steady nd (nd'.recoverySynced views n r) := by
  unfold Node.recoverySynced
  split
  · exact steady_recoveryHead hbase hcom hsync
  · split <;> exact Steady.elsewhere hbase hcom hsync (by simp) (by simp)

/-- `client_invoke` and `invoke` at a node that serves. -/
theorem Steady.serving (h : Phase views n nd) (hserve : nd.inviewchange = false)
    (hbase : nd'.base = nd.base) (hcom : nd'.vidCommit = nd.vidCommit)
    (hsync : nd'.insync = nd.insync) (hrec : nd'.recovery = nd.recovery) : Steady nd nd' := by
  have hr := (h.serving hserve).1
  have hoff := h.insync_false (by simp [hr])
  exact Steady.elsewhere hbase.ge hcom.ge (hsync.trans hoff) (by simp [hrec, hr])
    (by simp [hrec, hr])

theorem steady_clientInvoke (h : Phase views n nd) (req : ρ) :
    Steady nd (nd.clientInvoke svc views n req).2 := by
  unfold Node.clientInvoke
  split
  · exact Steady.refl nd
  · rename_i hserve
    have hview : nd.inviewchange = false := by simpa using fun hv => hserve (.inl hv)
    obtain ⟨_, h2, _, h4, _, _, _, h8, h9, _⟩ := invokeLoop_fields svc
      { nd with lastMyvs := nd.myvs, myvs := nd.myvs.next }
      nd.myvs req (views nd.vidCommit)
    exact Steady.serving h hview h9 h4 h2 h8

theorem steady_invoke (h : Phase views n nd) (vs : Viewstamp) (req : ρ) :
    Steady nd (nd.invoke svc n vs req).2 := by
  rcases invoke_cases svc n nd vs req with heq | ⟨hview, _, _, heq⟩
  · rw [heq]
    exact Steady.refl nd
  · rw [heq]
    exact Steady.serving h hview rfl rfl rfl rfl

/-- A request of a client that was under way goes on or ends: the node has
not had `invoke_mutex` for its backups. -/
theorem Steady.requesting (h : Phase views n nd)
    (hidle : nd.recovery = .waitBackups → nd.insync = true ∧ nd.invoking = none)
    (hinv : nd.invoking ≠ none) (hbase : nd'.base = nd.base) (hcom : nd'.vidCommit = nd.vidCommit)
    (hsync : nd'.insync = nd.insync) (hrec : nd'.recovery = nd.recovery)
    (hvid : nd'.vidInsync = nd.vidInsync) : Steady nd nd' := by
  have hwait : nd.recovery ≠ .waitBackups := fun hr => hinv (hidle hr).2
  have hoff := h.insync_false hwait
  refine ⟨hbase.ge, hcom.ge, fun h => absurd ((hsync.trans hoff).symm.trans h) (by simp), ?_, ?_⟩
  · intro hr
    exact absurd (hrec ▸ hr) hwait
  · intro m c hr
    exact ⟨⟨c, hrec ▸ hr⟩, hvid⟩

end Steady

/-! ## The invariant -/

structure SyncInv (views : Nat → List NodeId) (t : Traced σ ρ κ) : Prop where
  recovering : Recovering views t.sys
  idle : ∀ n, (t.sys.nodes n).recovery = .waitBackups →
    (t.sys.nodes n).insync = true ∧ (t.sys.nodes n).invoking = none
  done : ∀ n m c, (t.sys.nodes n).recovery = .done m c → t.Has n m (t.sys.nodes n).vidInsync
  sent : ∀ k src dst vid, t.sys.dones k = .sent src dst vid → t.Has src dst vid
  reply : ∀ k dst vid r, t.sys.transfers k = .replied dst vid (some r) →
    (t.sys.nodes dst).insync = true → (t.sys.nodes dst).vidInsync = vid →
    r.last = (t.sys.nodes dst).lastMyvs ∧ ∀ st, r.state = some st → st = (t.sys.nodes dst).state
  install : ∀ i ∈ t.installs, i.vid ≤ (t.sys.nodes i.source).base ∧
    ((t.sys.nodes i.source).insync = true → (t.sys.nodes i.source).vidInsync = i.vid →
      i.state = (t.sys.nodes i.source).state ∧ i.last = (t.sys.nodes i.source).lastMyvs)
  backups : ∀ n, (t.sys.nodes n).insync = true →
    (t.sys.nodes n).vidInsync = (t.sys.nodes n).vidCommit →
    ∀ m ∈ views (t.sys.nodes n).vidInsync, m ≠ n → m ∉ (t.sys.nodes n).backups →
      t.Has m n (t.sys.nodes n).vidInsync

section SyncInv

variable {svc : Service σ ρ κ} {views : Nat → List NodeId} {t : Traced σ ρ κ} {s' : Sys σ ρ κ}

theorem syncInv_init (h0 : views 0 = []) (first : NodeId) (st : σ) :
    SyncInv views (⟨Sys.init first st, []⟩ : Traced σ ρ κ) := by
  refine ⟨recovering_init h0 first st, fun n hr => ?_, fun n m c hr => ?_,
    fun k src dst vid hk => ?_, fun k dst vid r hk => ?_, fun i hi => ?_, fun n hn => ?_⟩
  · cases hr
  · cases hr
  · cases hk
  · cases hk
  · cases hi
  · cases hn

/-- A step that is steady at every node, answers no `transferreq` and sends at
most the `transferdonereq` of a node that is done. -/
theorem SyncInv.steady (h : SyncInv views t) (hrec : Recovering views s')
    (hst : ∀ n, Steady (t.sys.nodes n) (s'.nodes n))
    (htr : ∀ k dst vid r, s'.transfers k = .replied dst vid (some r) →
      t.sys.transfers k = .replied dst vid (some r))
    (hdn : ∀ k src dst vid, s'.dones k = .sent src dst vid →
      t.sys.dones k = .sent src dst vid ∨
      (t.sys.nodes src).recovery = .done dst none ∧ vid = (t.sys.nodes src).vidInsync) :
    SyncInv views ⟨s', t.installs⟩ := by
  refine ⟨hrec, fun n hr => ?_, fun n m c hr => ?_, fun k src dst vid hk => ?_,
    fun k dst vid r hk hs hv => ?_, fun i hi => ⟨?_, fun hs hv => ?_⟩,
    fun n hs hv m hm hne hb => ?_⟩
  · obtain ⟨hold, hsync, hinv⟩ := (hst n).waiting hr
    exact ⟨hsync.trans (h.idle n hold).1, hinv (h.idle n hold).2⟩
  · obtain ⟨⟨c', hold⟩, hvid⟩ := (hst n).done m c hr
    rw [hvid]
    exact h.done n m c' hold
  · rcases hdn k src dst vid hk with hold | ⟨hr, rfl⟩
    · exact h.sent k src dst vid hold
    · exact h.done src dst none hr
  · obtain ⟨hs, hvid, hstate, hlast, _⟩ := (hst dst).insync hs
    rw [hstate, hlast]
    exact h.reply k dst vid r (htr k dst vid r hk) hs (hvid.symm.trans hv)
  · exact (h.install i hi).1.trans (hst i.source).base
  · obtain ⟨hs, hvid, hstate, hlast, _⟩ := (hst i.source).insync hs
    rw [hstate, hlast]
    exact (h.install i hi).2 hs (hvid.symm.trans hv)
  · obtain ⟨hs, hvid, _, _, hback⟩ := (hst n).insync hs
    have hcom := (hst n).commit
    have hle := (h.recovering.phase n).insyncLe
    replace hv : (s'.nodes n).vidInsync = (s'.nodes n).vidCommit := hv
    have heq : (t.sys.nodes n).vidInsync = (t.sys.nodes n).vidCommit := by omega
    rw [hvid] at hm ⊢
    rw [hback] at hb
    exact h.backups n hs heq m hm hne hb

variable {n dst : NodeId} {nd : Node σ ρ κ} {k vid : Nat}

theorem steady_setNode (s : Sys σ ρ κ) (h : Steady (s.nodes n) nd) (m : NodeId) :
    Steady (s.nodes m) ((s.setNode n nd).nodes m) :=
  Sys.forall_setNode h (fun _ => Steady.refl _) m

/-- One node takes a steady step, and no call is made or answered. -/
theorem SyncInv.setNode (h : SyncInv views t) (hrec : Recovering views (t.sys.setNode n nd))
    (hst : Steady (t.sys.nodes n) nd) : SyncInv views ⟨t.sys.setNode n nd, t.installs⟩ :=
  h.steady hrec (steady_setNode t.sys hst) (fun _ _ _ _ hk => hk) fun _ _ _ _ hk => .inl hk

/-- `transferreq` is answered with the state and the stamp the node has. -/
theorem SyncInv.serveTransfer (h : SyncInv views t) {last : Viewstamp}
    (hrec : Recovering views (t.sys.serveTransfer k dst last vid)) :
    SyncInv views ⟨t.sys.serveTransfer k dst last vid, t.installs⟩ := by
  refine ⟨hrec, h.idle, h.done, h.sent, fun k' dst' vid' r hk hs hv => ?_, h.install, h.backups⟩
  replace hk : update t.sys.transfers k
    (.replied dst vid ((t.sys.nodes dst).transferreq last vid)) k' = _ := hk
  rcases eq_or_ne k' k with rfl | hne
  · rw [update_self] at hk
    injection hk with hdst hvid hres
    subst hdst hvid
    obtain ⟨_, rfl⟩ := transferreq_some hres
    refine ⟨rfl, fun st hst => ?_⟩
    replace hst : (if last ≠ (t.sys.nodes dst).lastMyvs then some (t.sys.nodes dst).state
      else none) = some st := hst
    split at hst
    · exact (Option.some.inj hst).symm
    · cases hst
  · rw [update_of_ne hne] at hk
    exact h.reply k' dst' vid' r hk hs hv

/-- The primary begins to synchronise with its backups: all of them are on
its list. It has not answered for this view before. -/
theorem SyncInv.takeInvokeMutex (h : SyncInv views t)
    (hr : (t.sys.nodes n).recovery = .invokeMutex) (hi : (t.sys.nodes n).invoking = none)
    (hrec : Recovering views (t.sys.setNode n ((t.sys.nodes n).syncWithBackups views))) :
    SyncInv views ⟨t.sys.setNode n ((t.sys.nodes n).syncWithBackups views), t.installs⟩ := by
  have hpc := (h.recovering.phase n).pc
  rw [hr] at hpc
  obtain ⟨_, hbase, hprim⟩ := hpc
  have hself : (t.sys.setNode n ((t.sys.nodes n).syncWithBackups views)).nodes n =
      (t.sys.nodes n).syncWithBackups views := t.sys.setNode_self n _
  have hother : ∀ x, x ≠ n → (t.sys.setNode n ((t.sys.nodes n).syncWithBackups views)).nodes x =
      t.sys.nodes x := fun x hx => t.sys.setNode_of_ne _ hx
  refine ⟨hrec, fun x hx => ?_, fun x m c hx => ?_, h.sent, fun k dst vid r hk hs hv => ?_,
    fun i hi => ?_, fun x hs hv m hm hne hb => ?_⟩
  all_goals dsimp only at *
  · rcases eq_or_ne x n with rfl | hxn
    · rw [hself]
      exact ⟨rfl, hi⟩
    · rw [hother x hxn] at hx ⊢
      exact h.idle x hx
  · rcases eq_or_ne x n with rfl | hxn
    · rw [hself] at hx
      cases hx
    · rw [hother x hxn] at hx ⊢
      exact h.done x m c hx
  · rcases eq_or_ne dst n with rfl | hxn
    · -- an answer for an earlier view
      rw [hself] at hv
      replace hv : (t.sys.nodes dst).vidInsync = vid := hv
      have hle := (h.recovering.reply k dst vid r hk).2
      omega
    · rw [hother dst hxn] at hs hv ⊢
      exact h.reply k dst vid r hk hs hv
  · obtain ⟨hle, hstate⟩ := h.install i hi
    rcases eq_or_ne i.source n with heq | hxn
    · rw [heq] at hle ⊢
      rw [hself]
      refine ⟨hle.trans hbase.le, fun _ hv => ?_⟩
      replace hv : (t.sys.nodes n).vidInsync = i.vid := hv
      omega
    · rw [hother _ hxn]
      exact ⟨hle, hstate⟩
  · rcases eq_or_ne x n with rfl | hxn
    · rw [hself] at hv hm hb
      replace hv : (t.sys.nodes x).vidInsync = (t.sys.nodes x).vidCommit := hv
      have hmem : m ∈ (views (t.sys.nodes x).vidInsync).filter fun m =>
          m ≠ (t.sys.nodes x).primary := by
        rw [hprim hv]
        exact List.mem_filter.mpr ⟨hm, by simpa using hne⟩
      exact absurd hmem hb
    · rw [hother x hxn] at hs hv hm hb ⊢
      exact h.backups x hs hv m hm hne hb

/-- `statetransfer` succeeds, and is recorded. -/
theorem SyncInv.transferReturn (h : SyncInv views t) {m : NodeId} {r : TransferRes σ ρ κ}
    (hr : (t.sys.nodes n).recovery = .transfer m (some k))
    (hk : t.sys.transfers k = .replied dst vid (some r))
    (hok : r.last = (t.sys.nodes n).lastMyvs → (t.sys.nodes dst).insync = true →
      (t.sys.nodes dst).vidInsync = vid → (t.sys.nodes n).state = (t.sys.nodes dst).state)
    (hnd : nd = { (t.sys.nodes n).installState svc r with recovery := .done m none })
    (hrec : Recovering views (t.sys.setNode n nd)) :
    SyncInv views ⟨t.sys.setNode n nd, ⟨n, dst, vid, nd.state, nd.lastMyvs⟩ :: t.installs⟩ := by
  have hself : (t.sys.setNode n nd).nodes n = nd := t.sys.setNode_self n nd
  have hother : ∀ x, x ≠ n → (t.sys.setNode n nd).nodes x = t.sys.nodes x :=
    fun x hx => t.sys.setNode_of_ne _ hx
  have hoff := (h.recovering.phase n).insync_false (by simp [hr])
  -- what the reply is, and what becomes of the node
  obtain ⟨hdst, hvid, hsome⟩ := h.recovering.answer hr hk
  have hmn : m ≠ n := by
    have hpc := (h.recovering.phase n).pc
    rw [hr] at hpc
    exact hpc.2.2.1
  obtain ⟨hsync, hin, hpc, hlast, hbase⟩ : nd.insync = false ∧
      nd.vidInsync = (t.sys.nodes n).vidInsync ∧ nd.recovery = .done m none ∧
      nd.lastMyvs = r.last ∧ (t.sys.nodes n).base ≤ nd.base := by
    obtain ⟨st, hist, heq⟩ := installState_eq svc (t.sys.nodes n) r
    rw [hnd, heq]
    exact ⟨hoff, rfl, rfl, rfl, (h.recovering.phase n).baseLe⟩
  have hnot : nd.insync ≠ true := by simp [hsync]
  refine ⟨hrec, fun x hx => ?_, fun x p c hx => ?_,
    fun k' src dst' vid' hk' => (h.sent k' src dst' vid' hk').cons _ _,
    fun k' dst' vid' r' hk' hs hv => ?_, fun i hi => ?_, fun x hs hv p hp hne hb => ?_⟩
  all_goals dsimp only at *
  · rcases eq_or_ne x n with rfl | hxn
    · rw [hself, hpc] at hx
      cases hx
    · rw [hother x hxn] at hx ⊢
      exact h.idle x hx
  · rcases eq_or_ne x n with rfl | hxn
    · rw [hself, hpc] at hx
      cases hx
      rw [hself]
      exact ⟨_, List.mem_cons_self, rfl, hdst, hvid.trans hin.symm⟩
    · rw [hother x hxn] at hx ⊢
      exact (h.done x p c hx).cons _ _
  · rcases eq_or_ne dst' n with rfl | hxn
    · rw [hself] at hs
      exact absurd hs hnot
    · rw [hother dst' hxn] at hs hv ⊢
      exact h.reply k' dst' vid' r' hk' hs hv
  · rcases List.mem_cons.mp hi with rfl | hi
    · -- the state that was installed is the one of the source
      rw [hother dst (hdst ▸ hmn)]
      refine ⟨(h.recovering.reply k dst vid r hk).2, fun hs hv => ?_⟩
      obtain ⟨hl, hst⟩ := h.reply k dst vid r hk hs hv
      refine ⟨?_, hlast.trans hl⟩
      show nd.state = (t.sys.nodes dst).state
      rw [hnd]
      exact installState_state svc hsome hst fun hsame => hok hsame.symm hs hv
    · obtain ⟨hle, hstate⟩ := h.install i hi
      rcases eq_or_ne i.source n with heq | hxn
      · rw [heq] at hle ⊢
        rw [hself]
        exact ⟨hle.trans hbase, fun hs => absurd hs hnot⟩
      · rw [hother _ hxn]
        exact ⟨hle, hstate⟩
  · rcases eq_or_ne x n with rfl | hxn
    · rw [hself] at hs
      exact absurd hs hnot
    · rw [hother x hxn] at hs hv hp hb ⊢
      exact (h.backups x hs hv p hp hne hb).cons _ _

/-- `transferdonereq` takes off the list a node that is done. -/
theorem SyncInv.serveDone (h : SyncInv views t) {src : NodeId}
    (hk : t.sys.dones k = .sent src dst vid)
    (hrec : Recovering views (t.sys.serveDone k src dst vid)) :
    SyncInv views ⟨t.sys.serveDone k src dst vid, t.installs⟩ := by
  have hdones : ∀ k' a b v, (t.sys.serveDone k src dst vid).dones k' = .sent a b v →
      t.sys.dones k' = .sent a b v := by
    intro k' a b v hk'
    rcases eq_or_ne k' k with rfl | hne
    · rw [show (t.sys.serveDone k' src dst vid).dones k' = .replied _ from
        update_self _ _ _] at hk'
      cases hk'
    · rwa [show (t.sys.serveDone k src dst vid).dones k' = t.sys.dones k' from
        update_of_ne hne _ _] at hk'
  rcases transferdonereq_cases (t.sys.nodes dst) src vid with heq | ⟨hs, hv, heq⟩
  · -- BUSY
    refine h.steady hrec (steady_setNode t.sys ?_) (fun _ _ _ _ hk => hk)
      fun k' a b v hk' => .inl (hdones k' a b v hk')
    rw [heq]
    exact Steady.refl _
  · -- nothing but the list changes
    have hnodes : (t.sys.serveDone k src dst vid).nodes = (t.sys.setNode dst { t.sys.nodes dst with
        backups := (t.sys.nodes dst).backups.filter fun b => b ≠ src }).nodes := by
      show (t.sys.setNode dst ((t.sys.nodes dst).transferdonereq src vid).2).nodes = _
      rw [heq]
    have hsame : ∀ x, (t.sys.serveDone k src dst vid).nodes x = { t.sys.nodes x with
        backups := ((t.sys.serveDone k src dst vid).nodes x).backups } := by
      intro x
      rw [hnodes]
      rcases eq_or_ne x dst with rfl | hne
      · rw [Sys.setNode_self]
      · rw [Sys.setNode_of_ne _ _ hne]
    refine ⟨hrec, fun x hx => ?_, fun x m c hx => ?_,
      fun k' a b v hk' => h.sent k' a b v (hdones k' a b v hk'),
      fun k' p v r hk' hs' hv' => ?_, fun i hi => ?_, fun x hs' hv' m hm hne hb => ?_⟩
    all_goals dsimp only at *
    · rw [hsame x] at hx ⊢
      exact h.idle x hx
    · rw [hsame x] at hx ⊢
      exact h.done x m c hx
    · rw [hsame p] at hs' hv' ⊢
      exact h.reply k' p v r hk' hs' hv'
    · rw [hsame i.source]
      exact h.install i hi
    · by_cases hold : m ∈ (t.sys.nodes x).backups
      · -- it is the one that has just been taken off
        obtain ⟨rfl, rfl⟩ : x = dst ∧ m = src := by
          rcases eq_or_ne x dst with rfl | hxd
          · refine ⟨rfl, ?_⟩
            by_contra hms
            refine hb ?_
            rw [hnodes, Sys.setNode_self]
            exact List.mem_filter.mpr ⟨hold, by simpa using hms⟩
          · refine absurd ?_ hb
            rw [hnodes, Sys.setNode_of_ne _ _ hxd]
            exact hold
        rw [hsame x]
        exact hv ▸ h.sent k m x vid hk
      · rw [hsame x] at hs' hv' hm ⊢
        exact h.backups x hs' hv' m hm hne hold

theorem syncInv_step (h0 : views 0 = []) (h : SyncInv views t) {e : Event ρ} (hok : Orderly t e)
    {t' : Traced σ ρ κ} (hst : tracedStep svc views t e = some t') : SyncInv views t' := by
  obtain ⟨s', hs, rfl⟩ := Option.map_eq_some_iff.mp hst
  have hrec := recovering_step h0 h.recovering hs
  have hphase := h.recovering.phase
  have hoff : ∀ {n}, (t.sys.nodes n).recovery ≠ .waitBackups → (t.sys.nodes n).insync = false :=
    fun {n} hr => (hphase n).insync_false hr
  cases trans_of_step hs with
  | commitChange hc => exact h.setNode hrec (steady_commitChangeWo hc)
  | recoveryRetry hr =>
    exact h.setNode hrec (steady_recoveryHead le_rfl le_rfl (hoff (by simp [hr])))
  | @joined n vid nd hr hc =>
    have hsync : nd.insync = false := by
      rcases commitChangeWo_cases hc with rfl | ⟨_, p, _, rfl⟩
      · exact hoff (by simp [hr])
      · exact hoff (by simp [hr])
    have hst := steady_commitChangeWo hc
    exact h.setNode hrec (steady_recoveryHead hst.base hst.commit hsync)
  | joinFails hr =>
    refine h.setNode hrec (Steady.elsewhere le_rfl le_rfl ?_ (by simp) (by simp))
    exact hoff (by simp [hr])
  | takeInvokeMutex hr hi => exact h.takeInvokeMutex hr hi hrec
  | backupsWake hr hb =>
    refine h.setNode hrec (steady_recoverySynced ?_ ?_ ?_ true)
    · exact le_rfl
    · exact le_rfl
    · rfl
  | @sendTransfer n m hr =>
    have hst : Steady (t.sys.nodes n)
        { t.sys.nodes n with recovery := .transfer m (some t.sys.nextCall) } :=
      Steady.elsewhere le_rfl le_rfl (hoff (by simp [hr])) (by simp) (by simp)
    refine h.steady hrec (steady_setNode t.sys hst) (fun k dst vid r hk => ?_)
      fun _ _ _ _ hk => .inl hk
    replace hk : update t.sys.transfers t.sys.nextCall _ k = _ := hk
    rcases eq_or_ne k t.sys.nextCall with rfl | hne
    · rw [update_self] at hk
      cases hk
    · rwa [update_of_ne hne] at hk
  | transferreq hk => exact h.serveTransfer hrec
  | @transferReturn n m k dst vid r hr hk =>
    have hawait : t.sys.awaited n = some (dst, vid, r) := by simp only [Sys.awaited, hr, hk]
    have hinst := h.transferReturn hr hk (hok _ hawait) rfl hrec
    simpa only [newInstalls, hawait, Option.toList_some, List.map_cons, List.map_nil,
      List.singleton_append, Sys.setNode_self] using hinst
  | @transferFails n m c hr =>
    refine h.setNode hrec ?_
    unfold Node.transferFails
    rw [if_pos (show (t.sys.nodes n).vidInsync = (t.sys.nodes n).vidCommit from hok)]
    exact Steady.elsewhere le_rfl le_rfl (hoff (by simp [hr])) (by simp) (by simp)
  | @sendDone n m hr =>
    have hst : Steady (t.sys.nodes n)
        { t.sys.nodes n with recovery := .done m (some t.sys.nextCall) } := by
      have hsync : (t.sys.nodes n).insync = false := hoff (by simp [hr])
      refine ⟨le_rfl, le_rfl, fun hs => absurd (hsync.symm.trans hs) (by simp), by simp, ?_⟩
      rintro m' c heq
      cases heq
      exact ⟨⟨none, hr⟩, rfl⟩
    refine h.steady hrec (steady_setNode t.sys hst) (fun _ _ _ _ hk => hk)
      fun k src dst vid hk => ?_
    replace hk : update t.sys.dones t.sys.nextCall _ k = _ := hk
    rcases eq_or_ne k t.sys.nextCall with rfl | hne
    · rw [update_self] at hk
      cases hk
      exact .inr ⟨hr, rfl⟩
    · rw [update_of_ne hne] at hk
      exact .inl hk
  | transferdonereq hk => exact h.serveDone hk hrec
  | doneReturn hr hk =>
    exact h.setNode hrec (steady_recoverySynced le_rfl le_rfl (hoff (by simp [hr])) _)
  | doneFails hr =>
    exact h.setNode hrec (steady_recoverySynced le_rfl le_rfl (hoff (by simp [hr])) _)
  | sleepWake hr hv =>
    exact h.setNode hrec (steady_recoveryHead le_rfl le_rfl (hoff (by simp [hr])))
  | @clientInvoke n req hi =>
    exact h.steady hrec (steady_setNode t.sys (steady_clientInvoke (hphase n) req))
      (fun _ _ _ _ hk => hk) fun _ _ _ _ hk => .inl hk
  | @sendInvoke n inv hi hc =>
    have hst : Steady (t.sys.nodes n)
        { t.sys.nodes n with invoking := some { inv with call := some t.sys.nextCall } } :=
      Steady.requesting (hphase n) (h.idle n) (by simp [hi]) rfl rfl rfl rfl rfl
    exact h.steady hrec (steady_setNode t.sys hst) (fun _ _ _ _ hk => hk)
      fun _ _ _ _ hk => .inl hk
  | @invoke k dst vs req hk =>
    exact h.steady hrec (steady_setNode t.sys (steady_invoke (hphase dst) vs req))
      (fun _ _ _ _ hk => hk) fun _ _ _ _ hk => .inl hk
  | @invokeReturn n inv k dst vs req hi hc hk =>
    obtain ⟨_, h2, _, h4, h5, _, _, h8, h9, _⟩ :=
      invokeLoop_fields svc (t.sys.nodes n) inv.vs inv.req inv.rest
    have hst := Steady.requesting (hphase n) (h.idle n) (by simp [hi]) h9 h4 h2 h8 h5
    exact h.steady hrec (steady_setNode t.sys hst) (fun _ _ _ _ hk => hk)
      fun _ _ _ _ hk => .inl hk
  | @invokeRefused n inv k dst vs req hi hc hk =>
    exact h.setNode hrec
      (Steady.requesting (hphase n) (h.idle n) (by simp [hi]) rfl rfl rfl rfl rfl)
  | @invokeFails n inv hi =>
    exact h.setNode hrec
      (Steady.requesting (hphase n) (h.idle n) (by simp [hi]) rfl rfl rfl rfl rfl)

end SyncInv

/-! ## Sync completeness -/

section Complete

variable {svc : Service σ ρ κ} {views : Nat → List NodeId} {t t' : Traced σ ρ κ}

/-- A backup that is taken off the list has obtained the state. -/
theorem SyncInv.removed (h : SyncInv views t) {k : Nat} {p m : NodeId}
    (hst : tracedStep svc views t (.transferdonereq k) = some t')
    (hold : m ∈ (t.sys.nodes p).backups) (hnew : m ∉ (t'.sys.nodes p).backups) :
    t.Has m p (t.sys.nodes p).vidInsync := by
  obtain ⟨s', hs, rfl⟩ := Option.map_eq_some_iff.mp hst
  cases trans_of_step hs with
  | @transferdonereq _ src dst vid hk =>
    replace hnew : m ∉ ((t.sys.setNode dst
      ((t.sys.nodes dst).transferdonereq src vid).2).nodes p).backups := hnew
    rcases eq_or_ne p dst with rfl | hne
    · rw [Sys.setNode_self] at hnew
      rcases transferdonereq_cases (t.sys.nodes p) src vid with heq | ⟨_, hv, heq⟩
      · rw [heq] at hnew
        exact absurd hold hnew
      · rw [heq] at hnew
        have hms : m = src := by
          by_contra hms
          exact hnew (List.mem_filter.mpr ⟨hold, by simpa using hms⟩)
        rw [hms, ← hv]
        exact h.sent k src p vid hk
    · rw [Sys.setNode_of_ne _ _ hne] at hnew
      exact absurd hold hnew

/-- When the primary serves, every other member has installed its state. -/
theorem SyncInv.served (h : SyncInv views t) {p : NodeId}
    (hst : tracedStep svc views t (.backupsWake p) = some t')
    (hserve : (t'.sys.nodes p).inviewchange = false) {m : NodeId}
    (hm : m ∈ views (t'.sys.nodes p).vidCommit) (hne : m ≠ p) :
    ∃ i ∈ t'.installs, i.node = m ∧ i.source = p ∧ i.vid = (t'.sys.nodes p).vidCommit ∧
      i.state = (t'.sys.nodes p).state ∧ i.last = (t'.sys.nodes p).lastMyvs := by
  obtain ⟨s', hs, rfl⟩ := Option.map_eq_some_iff.mp hst
  cases trans_of_step hs with
  | backupsWake hr hb =>
    dsimp only at *
    rw [Sys.setNode_self] at hserve hm ⊢
    have hview := (h.recovering.phase p).waiting hr
    have hv : (t.sys.nodes p).vidInsync = (t.sys.nodes p).vidCommit :=
      (recoverySynced_serves (by exact hview) hserve).1
    have hq : Quiet (t.sys.nodes p)
        ({ t.sys.nodes p with insync := false }.recoverySynced views p true) :=
      quiet_backupsWake p hview
    have hcom : ({ t.sys.nodes p with insync := false }.recoverySynced views p true).vidCommit =
        (t.sys.nodes p).vidCommit := by
      unfold Node.recoverySynced
      rw [if_neg (not_not.mpr hv)]
      rfl
    have hempty : (t.sys.nodes p).backups = [] := by simpa [Node.backupsSynced, hv] using hb
    rw [hcom] at hm ⊢
    rw [hq.state, hq.last]
    obtain ⟨hsync, _⟩ := h.idle p hr
    obtain ⟨i, hi, hn, hp, hvid⟩ := h.backups p hsync hv m (hv ▸ hm) hne (by simp [hempty])
    obtain ⟨_, hst⟩ := h.install i hi
    rw [hp] at hst
    obtain ⟨hstate, hlast⟩ := hst hsync hvid.symm
    exact ⟨i, hi, hn, hp, hvid.trans hv, hstate, hlast⟩

end Complete

def growing : Nat → List NodeId
  | 1 => [['1']]
  | 2 => [['1'], ['2']]
  | 3 => [['1'], ['2'], ['3']]
  | _ => []

/-- Node 1 has served a request alone and waits for node 2 in view 2; node 2
has sent its `transferreq`, call 0. -/
def toTransfer : List (Event Nat) :=
  [.commitChange ['1'] 1, .recoveryRetry ['1'], .takeInvokeMutex ['1'], .backupsWake ['1'],
   .clientInvoke ['1'] 5, .commitChange ['1'] 2, .sleepWake ['1'], .takeInvokeMutex ['1'],
   .recoveryRetry ['2'], .joined ['2'] 2, .sendTransfer ['2']]

end Yfs.Rsm
