/-
Yfs.Rsm.Recovery — what the recovery thread guarantees, whatever the
clients and the network do.

`Phase` says, for each place where the recovery thread can stand, how the
view numbers of the node are related: the view it has committed, the view
it is synchronising for, the view of its stamps, and the view it last
obtained a state for. Three consequences carry the results on requests:

* a node that serves requests has obtained its state for exactly the view
  it has committed, and the recovery thread sleeps;
* a node that synchronises for a view has no stamp of that view yet, so
  no node finishes the same view twice;
* while the reply of a `transferreq` is awaited, the stamp sent with the
  request is still the node's `last_myvs`, so a reply that carries no
  state is never installed.

There is no view 0: `views 0` is empty.
-/
import Yfs.Rsm.System

namespace Yfs.Rsm

open Run Function

variable {σ ρ κ : Type}

/-! ## The invariant of one node -/

structure Syncing (views : Nat → List NodeId) (n : NodeId) (nd : Node σ ρ κ) : Prop where
  view : nd.inviewchange = true
  myvs : nd.myvs.vid < nd.vidInsync
  last : nd.lastMyvs.vid < nd.vidInsync
  mem : n ∈ views nd.vidInsync

def PcOk (views : Nat → List NodeId) (n : NodeId) (nd : Node σ ρ κ) : RecPc → Prop
  | .retry => nd.inviewchange = true ∧ (nd.vidInsync < nd.vidCommit ∨ n ∉ views nd.vidCommit)
  | .joining => nd.inviewchange = true ∧ (nd.vidInsync < nd.vidCommit ∨ n ∉ views nd.vidCommit)
  | .invokeMutex => Syncing views n nd ∧ nd.base < nd.vidInsync ∧
      (nd.vidInsync = nd.vidCommit → nd.primary = n)
  | .waitBackups => Syncing views n nd ∧ nd.base = nd.vidInsync ∧
      (nd.vidInsync = nd.vidCommit → nd.primary = n)
  | .transfer m _ => Syncing views n nd ∧ nd.base < nd.vidInsync ∧ m ≠ n ∧
      (nd.vidInsync = nd.vidCommit → nd.primary = m)
  | .done m _ => Syncing views n nd ∧ m ≠ n ∧
      (nd.vidInsync = nd.vidCommit → nd.primary = m ∧ nd.base = nd.vidInsync)
  | .sleeping => True

structure Phase (views : Nat → List NodeId) (n : NodeId) (nd : Node σ ρ κ) : Prop where
  pc : PcOk views n nd nd.recovery
  serving : nd.inviewchange = false → nd.recovery = .sleeping ∧ nd.vidInsync = nd.vidCommit ∧
    nd.myvs.vid = nd.vidCommit ∧ nd.base = nd.vidCommit ∧ n ∈ views nd.vidCommit
  older : nd.inviewchange = true → nd.vidCommit = 0 ∨
    (nd.myvs.vid < nd.vidCommit ∧ nd.lastMyvs.vid < nd.vidCommit)
  insyncLe : nd.vidInsync ≤ nd.vidCommit
  baseLe : nd.base ≤ nd.vidInsync
  myvsLe : nd.myvs.vid ≤ nd.base
  lastLe : nd.lastMyvs.vid ≤ nd.base
  insync : nd.insync = true → nd.recovery = .waitBackups
  primaryMem : nd.vidCommit ≠ 0 → nd.primary ∈ views nd.vidCommit

section Phase

variable {views : Nat → List NodeId} {n : NodeId} {nd nd' : Node σ ρ κ}

theorem phase_new (h0 : views 0 = []) (first : NodeId) (st : σ) :
    Phase views n (Node.new first st : Node σ ρ κ) := by
  refine ⟨⟨rfl, .inr ?_⟩, ?_, fun _ => .inl rfl, le_rfl, le_rfl, le_rfl, le_rfl, ?_, ?_⟩
  · rw [show (Node.new first st : Node σ ρ κ).vidCommit = 0 from rfl, h0]
    simp
  all_goals simp [Node.new]

variable {vid : Nat} {m : NodeId} {c : Option Nat}

/-- `set_primary` leaves everything but the primary, which is in the view. -/
theorem setPrimary_eq (h : nd.setPrimary views vid = some nd') :
    ∃ p ∈ views vid, nd' = { nd with primary := p } := by
  unfold Node.setPrimary at h
  split at h
  · cases h
  · split at h
    · rename_i hp
      cases h
      exact ⟨nd.primary, hp, rfl⟩
    · split at h
      · rename_i m hm
        cases h
        exact ⟨m, by simpa using List.find?_some hm, rfl⟩
      · cases h

/-- `commit_change_wo` does nothing, or moves to a later view. -/
theorem commitChangeWo_cases (h : nd.commitChangeWo views vid = some nd') :
    nd' = nd ∨ nd.vidCommit < vid ∧ ∃ p ∈ views vid,
      nd' = { nd with vidCommit := vid, inviewchange := true, primary := p } := by
  unfold Node.commitChangeWo at h
  split at h
  · exact .inl (Option.some.inj h).symm
  · rename_i hlt
    obtain ⟨p, hp, rfl⟩ := setPrimary_eq h
    exact .inr ⟨Nat.lt_of_not_le hlt, p, hp, rfl⟩

theorem Phase.stamps_le (h : Phase views n nd) :
    nd.myvs.vid ≤ nd.vidCommit ∧ nd.lastMyvs.vid ≤ nd.vidCommit := by
  have h1 := h.myvsLe
  have h2 := h.lastLe
  have h3 := h.baseLe
  have h4 := h.insyncLe
  omega

theorem Phase.commitChangeWo (h : Phase views n nd) (hc : nd.commitChangeWo views vid = some nd') :
    Phase views n nd' := by
  rcases commitChangeWo_cases hc with rfl | ⟨hlt, p, hp, rfl⟩
  · exact h
  obtain ⟨hmy, hlast⟩ := h.stamps_le
  have hle := h.insyncLe
  refine ⟨?_, by simp, fun _ => .inr ⟨by dsimp only; omega, by dsimp only; omega⟩,
    by dsimp only; omega, h.baseLe, h.myvsLe, h.lastLe, h.insync, fun _ => hp⟩
  have hpc := h.pc
  show PcOk views n _ nd.recovery
  -- the view being synchronised for is no longer the committed one
  have hne : nd.vidInsync ≠ vid := by omega
  cases hr : nd.recovery with
  | retry | joining => exact ⟨rfl, .inl (by dsimp only; omega)⟩
  | invokeMutex =>
    rw [hr] at hpc
    obtain ⟨hs, hb, _⟩ := hpc
    exact ⟨⟨rfl, hs.myvs, hs.last, hs.mem⟩, hb, fun he => absurd he hne⟩
  | waitBackups =>
    rw [hr] at hpc
    obtain ⟨hs, hb, _⟩ := hpc
    exact ⟨⟨rfl, hs.myvs, hs.last, hs.mem⟩, hb, fun he => absurd he hne⟩
  | transfer m c =>
    rw [hr] at hpc
    obtain ⟨hs, hb, hm, _⟩ := hpc
    exact ⟨⟨rfl, hs.myvs, hs.last, hs.mem⟩, hb, hm, fun he => absurd he hne⟩
  | done m c =>
    rw [hr] at hpc
    obtain ⟨hs, hm, _⟩ := hpc
    exact ⟨⟨rfl, hs.myvs, hs.last, hs.mem⟩, hm, fun he => absurd he hne⟩
  | sleeping => trivial

/-- The head of the recovery loop, from a node that is in a view change. -/
theorem Phase.recoveryHead (h0 : views 0 = []) (h : Phase views n nd)
    (hview : nd.inviewchange = true) (hsync : nd.insync = false)
    (hlt : nd.vidInsync < nd.vidCommit ∨ n ∉ views nd.vidCommit) :
    Phase views n (nd.recoveryHead views n) := by
  have hbase := h.baseLe
  unfold Node.recoveryHead
  split
  · rename_i hmem
    have hlt : nd.vidInsync < nd.vidCommit := hlt.resolve_right (fun hn => hn hmem)
    have hne : nd.vidCommit ≠ 0 := by
      intro hz
      rw [hz, h0] at hmem
      cases hmem
    obtain ⟨hmy, hlast⟩ := (h.older hview).resolve_left hne
    split
    · rename_i hp
      exact ⟨⟨⟨hview, hmy, hlast, hmem⟩, lt_of_le_of_lt hbase hlt, fun _ => hp⟩,
        fun hf => absurd (hview.symm.trans hf) (by simp), h.older, le_rfl,
        by dsimp only; omega, h.myvsLe, h.lastLe,
        fun ht => absurd (hsync.symm.trans ht) (by simp), h.primaryMem⟩
    · rename_i hp
      exact ⟨⟨⟨hview, hmy, hlast, hmem⟩, lt_of_le_of_lt hbase hlt, hp, fun _ => rfl⟩,
        fun hf => absurd (hview.symm.trans hf) (by simp), h.older, le_rfl,
        by dsimp only; omega, h.myvsLe, h.lastLe,
        fun ht => absurd (hsync.symm.trans ht) (by simp), h.primaryMem⟩
  · rename_i hmem
    exact ⟨⟨hview, .inr hmem⟩, fun hf => absurd (hview.symm.trans hf) (by simp), h.older,
      h.insyncLe, h.baseLe, h.myvsLe, h.lastLe,
      fun ht => absurd (hsync.symm.trans ht) (by simp), h.primaryMem⟩

theorem Phase.insync_false (h : Phase views n nd) (hr : nd.recovery ≠ .waitBackups) :
    nd.insync = false := by
  cases hi : nd.insync with
  | false => rfl
  | true => exact absurd (h.insync hi) hr

theorem Phase.recoveryRetry (h0 : views 0 = []) (h : Phase views n nd)
    (hr : nd.recovery = .retry) : Phase views n (nd.recoveryHead views n) := by
  have hpc := h.pc
  rw [hr] at hpc
  exact h.recoveryHead h0 hpc.1 (h.insync_false (by simp [hr])) hpc.2

theorem Phase.sleepWake (h0 : views 0 = []) (h : Phase views n nd) (hr : nd.recovery = .sleeping)
    (hv : nd.vidInsync ≠ nd.vidCommit) : Phase views n (nd.recoveryHead views n) := by
  have hview : nd.inviewchange = true := by
    cases hi : nd.inviewchange with
    | false => exact absurd (h.serving hi).2.1 hv
    | true => rfl
  have hle := h.insyncLe
  exact h.recoveryHead h0 hview (h.insync_false (by simp [hr])) (.inl (by omega))

/-- `join` has returned and its view is committed. -/
theorem Phase.joined (h0 : views 0 = []) (h : Phase views n nd) (hr : nd.recovery = .joining)
    (hc : nd.commitChangeWo views vid = some nd') : Phase views n (nd'.recoveryHead views n) := by
  have h' := h.commitChangeWo hc
  have hpc := h'.pc
  have hr' : nd'.recovery = .joining := by
    rcases commitChangeWo_cases hc with rfl | ⟨_, p, _, rfl⟩
    · exact hr
    · exact hr
  rw [hr'] at hpc
  exact h'.recoveryHead h0 hpc.1 (h'.insync_false (by simp [hr'])) hpc.2

theorem Phase.joinFails (h : Phase views n nd) (hr : nd.recovery = .joining) :
    Phase views n { nd with recovery := .retry } := by
  have hpc := h.pc
  have hsync := h.insync_false (by simp [hr])
  rw [hr] at hpc
  exact ⟨hpc, fun hf => absurd (hpc.1.symm.trans hf) (by simp), h.older, h.insyncLe, h.baseLe,
    h.myvsLe, h.lastLe, fun ht => absurd (hsync.symm.trans ht) (by simp), h.primaryMem⟩

/-- A node that synchronises goes on to another place of the recovery. -/
theorem Phase.move (h : Phase views n nd) (hs : Syncing views n nd) {pc : RecPc}
    (hsync : nd.insync = false) (hpc : PcOk views n nd pc) :
    Phase views n { nd with recovery := pc } := by
  refine ⟨?_, fun hf => absurd (hs.view.symm.trans hf) (by simp), h.older, h.insyncLe, h.baseLe,
    h.myvsLe, h.lastLe, fun ht => absurd (hsync.symm.trans ht) (by simp), h.primaryMem⟩
  cases pc with
  | invokeMutex | waitBackups | transfer m c | done m c =>
    exact ⟨⟨hpc.1.view, hpc.1.myvs, hpc.1.last, hpc.1.mem⟩, hpc.2⟩
  | retry => exact hpc
  | joining => exact hpc
  | sleeping => trivial

/-- The end of a synchronisation. With `r`, the state has been obtained. -/
theorem Phase.recoverySynced (h0 : views 0 = []) (h : Phase views n nd) (hs : Syncing views n nd)
    (hsync : nd.insync = false) {r : Bool}
    (hbase : nd.vidInsync = nd.vidCommit → r = true → nd.base = nd.vidInsync) :
    Phase views n (nd.recoverySynced views n r) := by
  have hle := h.insyncLe
  unfold Node.recoverySynced
  split
  · rename_i hne
    exact h.recoveryHead h0 hs.view hsync (.inl (by omega))
  · rename_i heq
    replace heq : nd.vidInsync = nd.vidCommit := by simpa using heq
    split
    · rename_i hr
      have hb := hbase heq hr
      have hlast := h.lastLe
      exact ⟨trivial, fun _ => ⟨rfl, heq, rfl, hb.trans heq, heq ▸ hs.mem⟩, by simp, hle,
        h.baseLe, by dsimp only; omega, hlast,
        fun ht => absurd (hsync.symm.trans ht) (by simp), h.primaryMem⟩
    · exact h.move hs hsync trivial

theorem Phase.syncWithBackups (h : Phase views n nd) (hr : nd.recovery = .invokeMutex) :
    Phase views n (nd.syncWithBackups views) := by
  have hpc := h.pc
  rw [hr] at hpc
  obtain ⟨hs, hb, hp⟩ := hpc
  have hmy := h.myvsLe
  have hlast := h.lastLe
  exact ⟨⟨⟨hs.view, hs.myvs, hs.last, hs.mem⟩, rfl, hp⟩,
    fun hf => absurd (hs.view.symm.trans hf) (by simp), h.older, h.insyncLe, le_rfl,
    by dsimp only [Node.syncWithBackups]; omega, by dsimp only [Node.syncWithBackups]; omega,
    fun _ => rfl, h.primaryMem⟩

theorem Phase.backupsWake (h0 : views 0 = []) (h : Phase views n nd)
    (hr : nd.recovery = .waitBackups) :
    Phase views n ({ nd with insync := false }.recoverySynced views n true) := by
  have hpc := h.pc
  rw [hr] at hpc
  obtain ⟨hs, hb, hp⟩ := hpc
  have h' : Phase views n { nd with insync := false } :=
    ⟨by rw [hr]; exact ⟨⟨hs.view, hs.myvs, hs.last, hs.mem⟩, hb, hp⟩, h.serving, h.older,
      h.insyncLe, h.baseLe, h.myvsLe, h.lastLe, by simp, h.primaryMem⟩
  exact h'.recoverySynced h0 ⟨hs.view, hs.myvs, hs.last, hs.mem⟩ rfl fun _ _ => hb

/-- `statetransfer` succeeds. -/
theorem Phase.installState (h : Phase views n nd) (svc : Service σ ρ κ)
    (hr : nd.recovery = .transfer m c) {r : TransferRes σ ρ κ} (hlt : r.last.vid < nd.vidInsync) :
    Phase views n { nd.installState svc r with recovery := .done m none } := by
  have hpc := h.pc
  have hsync := h.insync_false (by simp [hr])
  rw [hr] at hpc
  obtain ⟨hs, hb, hm, hp⟩ := hpc
  have hmy := h.myvsLe
  have hle := h.insyncLe
  have holder : nd.vidCommit = 0 ∨ (nd.myvs.vid < nd.vidCommit ∧ r.last.vid < nd.vidCommit) :=
    (h.older hs.view).imp id fun ho => ⟨ho.1, lt_of_lt_of_le hlt hle⟩
  obtain ⟨st, hist, heq⟩ := installState_eq svc nd r
  rw [heq]
  exact ⟨⟨⟨hs.view, hs.myvs, hlt, hs.mem⟩, hm, fun he => ⟨hp he, rfl⟩⟩,
    fun hf => absurd (hs.view.symm.trans hf) (by simp), fun _ => holder, hle, le_rfl,
    by dsimp only; omega, by dsimp only; omega,
    fun ht => absurd (hsync.symm.trans ht) (by simp), h.primaryMem⟩

/-- `statetransfer` fails: only a new view lets the node go on. -/
theorem Phase.transferFails (h : Phase views n nd) (hr : nd.recovery = .transfer m c) :
    Phase views n (nd.transferFails m) := by
  have hpc := h.pc
  have hsync := h.insync_false (by simp [hr])
  rw [hr] at hpc
  obtain ⟨hs, hb, hm, hp⟩ := hpc
  unfold Node.transferFails
  split
  · exact h.move hs hsync ⟨hs, hb, hm, hp⟩
  · rename_i hne
    exact h.move hs hsync ⟨hs, hm, fun he => absurd he hne⟩

theorem Phase.doneEnds (h0 : views 0 = []) (h : Phase views n nd) (hr : nd.recovery = .done m c)
    (r : Bool) : Phase views n (nd.recoverySynced views n r) := by
  have hpc := h.pc
  have hsync := h.insync_false (by simp [hr])
  rw [hr] at hpc
  obtain ⟨hs, _, hp⟩ := hpc
  exact h.recoverySynced h0 hs hsync fun he _ => (hp he).2

theorem Phase.waiting (h : Phase views n nd) (hr : nd.recovery = .waitBackups) :
    nd.inviewchange = true := by
  have hpc := h.pc
  rw [hr] at hpc
  exact hpc.1.view

theorem Phase.finishing (h : Phase views n nd) (hr : nd.recovery = .done m c) :
    nd.inviewchange = true := by
  have hpc := h.pc
  rw [hr] at hpc
  exact hpc.1.view

/-- Nothing the recovery looks at has changed. -/
theorem Phase.congr (h : Phase views n nd) (h1 : nd'.primary = nd.primary)
    (h2 : nd'.insync = nd.insync) (h3 : nd'.inviewchange = nd.inviewchange)
    (h4 : nd'.vidCommit = nd.vidCommit) (h5 : nd'.vidInsync = nd.vidInsync)
    (h6 : nd'.myvs.vid = nd.myvs.vid) (h7 : nd'.lastMyvs.vid = nd.lastMyvs.vid)
    (h8 : nd'.recovery = nd.recovery) (h9 : nd'.base = nd.base) : Phase views n nd' := by
  obtain ⟨hpc, hserv, hold, hle, hb, hmy, hlast, hsync, hprim⟩ := h
  have hsyn : Syncing views n nd → Syncing views n nd' := fun hs =>
    ⟨h3 ▸ hs.view, h5 ▸ h6 ▸ hs.myvs, h5 ▸ h7 ▸ hs.last, h5 ▸ hs.mem⟩
  refine ⟨?_, by rw [h3, h4, h5, h6, h8, h9]; exact hserv, by rw [h3, h4, h6, h7]; exact hold,
    by rw [h4, h5]; exact hle, by rw [h5, h9]; exact hb, by rw [h6, h9]; exact hmy,
    by rw [h7, h9]; exact hlast, by rw [h2, h8]; exact hsync, by rw [h1, h4]; exact hprim⟩
  rw [h8]
  cases hr : nd.recovery <;> rw [hr] at hpc <;> simp only [PcOk, h1, h3, h4, h5, h9] at hpc ⊢
  case retry => exact hpc
  case joining => exact hpc
  case invokeMutex => exact ⟨hsyn hpc.1, hpc.2⟩
  case waitBackups => exact ⟨hsyn hpc.1, hpc.2⟩
  case transfer => exact ⟨hsyn hpc.1, hpc.2⟩
  case done => exact ⟨hsyn hpc.1, hpc.2⟩

/-- A serving node takes its next stamp: `client_invoke` and `invoke`. -/
theorem Phase.takeStamp (h : Phase views n nd) (hserve : nd.inviewchange = false) :
    Phase views n
      { nd with lastMyvs := nd.myvs, myvs := nd.myvs.next } := by
  obtain ⟨hr, hv, hmy, hb, hmem⟩ := h.serving hserve
  exact ⟨by rw [hr]; trivial, h.serving, fun hf => absurd (hserve.symm.trans hf) (by simp),
    h.insyncLe, h.baseLe, h.myvsLe, h.myvsLe, h.insync, h.primaryMem⟩

theorem Phase.invokeLoop (h : Phase views n nd) (svc : Service σ ρ κ) (vs : Viewstamp) (req : ρ)
    (l : List NodeId) : Phase views n (nd.invokeLoop svc vs req l).2 := by
  obtain ⟨h1, h2, h3, h4, h5, h6, h7, h8, h9, _⟩ := invokeLoop_fields svc nd vs req l
  exact h.congr h1 h2 h3 h4 h5 (by rw [h6]) (by rw [h7]) h8 h9

end Phase

/-! ## Steps that leave the state and the stamps alone -/

/-- Nothing but the recovery moved: no state, history or request changed,
and the stamps changed only if the node entered a view. -/
structure Quiet (nd nd' : Node σ ρ κ) : Prop where
  state : nd'.state = nd.state
  hist : nd'.hist = nd.hist
  execd : nd'.execd = nd.execd
  base : nd'.base = nd.base
  last : nd'.lastMyvs = nd.lastMyvs
  invoking : nd'.invoking = nd.invoking
  commit : nd.vidCommit ≤ nd'.vidCommit
  primary : nd'.vidCommit = nd.vidCommit → nd'.primary = nd.primary
  myvs : nd'.myvs = nd.myvs ∨ (nd.inviewchange = true ∧ nd.vidCommit ≤ nd'.myvs.vid)

section Quiet

variable {views : Nat → List NodeId} {nd nd' : Node σ ρ κ}

theorem Quiet.refl (nd : Node σ ρ κ) : Quiet nd nd :=
  ⟨rfl, rfl, rfl, rfl, rfl, rfl, le_rfl, fun _ => rfl, .inl rfl⟩

theorem quiet_commitChangeWo {vid : Nat} (h : nd.commitChangeWo views vid = some nd') :
    Quiet nd nd' := by
  rcases commitChangeWo_cases h with rfl | ⟨hlt, p, _, rfl⟩
  · exact Quiet.refl _
  · exact ⟨rfl, rfl, rfl, rfl, rfl, rfl, hlt.le, fun he => absurd he hlt.ne', .inl rfl⟩

theorem Quiet.recoveryHead (h : Quiet nd nd') (n : NodeId) :
    Quiet nd (nd'.recoveryHead views n) := by
  obtain ⟨h1, h2, h3, h4, h5, h6, h7, h8, h9⟩ := h
  unfold Node.recoveryHead
  split
  · split
    · exact ⟨h1, h2, h3, h4, h5, h6, h7, h8, h9⟩
    · exact ⟨h1, h2, h3, h4, h5, h6, h7, h8, h9⟩
  · exact ⟨h1, h2, h3, h4, h5, h6, h7, h8, h9⟩

theorem quiet_recoverySynced (n : NodeId) (r : Bool) (hview : nd.inviewchange = true) :
    Quiet nd (nd.recoverySynced views n r) := by
  unfold Node.recoverySynced
  split
  · exact (Quiet.refl nd).recoveryHead n
  · split
    · exact ⟨rfl, rfl, rfl, rfl, rfl, rfl, le_rfl, fun _ => rfl, .inr ⟨hview, le_rfl⟩⟩
    · exact ⟨rfl, rfl, rfl, rfl, rfl, rfl, le_rfl, fun _ => rfl, .inl rfl⟩

theorem quiet_backupsWake (n : NodeId) (hview : nd.inviewchange = true) :
    Quiet nd ({ nd with insync := false }.recoverySynced views n true) := by
  have hq : Quiet { nd with insync := false }
      ({ nd with insync := false }.recoverySynced views n true) :=
    quiet_recoverySynced n true hview
  exact ⟨hq.state, hq.hist, hq.execd, hq.base, hq.last, hq.invoking, hq.commit, hq.primary,
    hq.myvs⟩

theorem quiet_transferFails (nd : Node σ ρ κ) (m : NodeId) : Quiet nd (nd.transferFails m) := by
  unfold Node.transferFails
  split
  · exact ⟨rfl, rfl, rfl, rfl, rfl, rfl, le_rfl, fun _ => rfl, .inl rfl⟩
  · exact ⟨rfl, rfl, rfl, rfl, rfl, rfl, le_rfl, fun _ => rfl, .inl rfl⟩

theorem transferdonereq_cases (nd : Node σ ρ κ) (m : NodeId) (vid : Nat) :
    nd.transferdonereq m vid = (false, nd) ∨ (nd.insync = true ∧ vid = nd.vidInsync ∧
      nd.transferdonereq m vid =
        (true, { nd with backups := nd.backups.filter fun b => b ≠ m })) := by
  unfold Node.transferdonereq
  split
  · exact .inl rfl
  · rename_i hc
    push Not at hc
    exact .inr ⟨by simpa using hc.1, hc.2, rfl⟩

theorem quiet_transferdonereq (nd : Node σ ρ κ) (m : NodeId) (vid : Nat) :
    Quiet nd (nd.transferdonereq m vid).2 := by
  rcases transferdonereq_cases nd m vid with heq | ⟨_, _, heq⟩ <;> rw [heq]
  · exact ⟨rfl, rfl, rfl, rfl, rfl, rfl, le_rfl, fun _ => rfl, .inl rfl⟩
  · exact ⟨rfl, rfl, rfl, rfl, rfl, rfl, le_rfl, fun _ => rfl, .inl rfl⟩

theorem quiet_recovery (nd : Node σ ρ κ) (pc : RecPc) : Quiet nd { nd with recovery := pc } :=
  ⟨rfl, rfl, rfl, rfl, rfl, rfl, le_rfl, fun _ => rfl, .inl rfl⟩

theorem recoveryHead_inviewchange (nd : Node σ ρ κ) (n : NodeId) :
    (nd.recoveryHead views n).inviewchange = nd.inviewchange := by
  unfold Node.recoveryHead
  split
  · split <;> rfl
  · rfl

/-- A synchronisation that ends with the node serving requests. -/
theorem recoverySynced_serves {n : NodeId} {r : Bool}
    (hbefore : nd.inviewchange = true)
    (hafter : (nd.recoverySynced views n r).inviewchange = false) :
    nd.vidInsync = nd.vidCommit ∧ (nd.recoverySynced views n r).primary = nd.primary := by
  unfold Node.recoverySynced at hafter ⊢
  split at hafter
  · rw [recoveryHead_inviewchange, hbefore] at hafter
    cases hafter
  · rename_i heq
    rw [if_neg heq]
    refine ⟨not_not.mp heq, ?_⟩
    split <;> rfl

theorem commitChangeWo_serves {vid : Nat}
    (hc : nd.commitChangeWo views vid = some nd') (h : nd'.inviewchange = false) :
    nd.inviewchange = false := by
  rcases commitChangeWo_cases hc with rfl | ⟨_, p, _, rfl⟩
  · exact h
  · cases h

theorem recoveryHead_not_waiting (nd : Node σ ρ κ) (n m : NodeId) (k : Nat) :
    (nd.recoveryHead views n).recovery ≠ .transfer m (some k) := by
  unfold Node.recoveryHead
  split
  · split <;> simp
  · simp

theorem recoverySynced_not_waiting (nd : Node σ ρ κ) (n m : NodeId) (r : Bool) (k : Nat) :
    (nd.recoverySynced views n r).recovery ≠ .transfer m (some k) := by
  unfold Node.recoverySynced
  split
  · exact recoveryHead_not_waiting nd n m k
  · split <;> simp

end Quiet

/-! ## The invariant of the system -/

/-- Every node is in its phase, and the `transferreq` it waits for is the
one it sent. -/
structure Recovering (views : Nat → List NodeId) (s : Sys σ ρ κ) : Prop where
  phase : ∀ n, Phase views n (s.nodes n)
  fresh : ∀ k, s.nextCall ≤ k → s.invokes k = .unused ∧ s.transfers k = .unused ∧
    s.dones k = .unused
  call : ∀ n m k, (s.nodes n).recovery = .transfer m (some k) →
    s.transfers k = .sent m (s.nodes n).lastMyvs (s.nodes n).vidInsync ∨
    ∃ res, s.transfers k = .replied m (s.nodes n).vidInsync res ∧
      ∀ r, res = some r → r.last ≠ (s.nodes n).lastMyvs → r.state ≠ none
  reply : ∀ k dst vid r, s.transfers k = .replied dst vid (some r) →
    r.last.vid < vid ∧ vid ≤ (s.nodes dst).base

section Recovering

variable {svc : Service σ ρ κ} {views : Nat → List NodeId} {s s' : Sys σ ρ κ}

theorem recovering_init (h0 : views 0 = []) (first : NodeId) (st : σ) :
    Recovering views (Sys.init first st : Sys σ ρ κ) := by
  refine ⟨fun n => phase_new h0 first st, fun k _ => ⟨rfl, rfl, rfl⟩, fun n m k hr => ?_,
    fun k dst vid r hk => ?_⟩
  · cases hr
  · cases hk

variable {n m dst : NodeId} {k vid : Nat}

/-- What comes back on the call a node waits for is from the member it asked, for its view. -/
theorem Recovering.answer (h : Recovering views s) {r : TransferRes σ ρ κ}
    (hpc : (s.nodes n).recovery = .transfer m (some k))
    (hk : s.transfers k = .replied dst vid (some r)) :
    dst = m ∧ vid = (s.nodes n).vidInsync ∧
      (r.last ≠ (s.nodes n).lastMyvs → r.state ≠ none) := by
  rcases h.call n m k hpc with hsent | ⟨res, hrep, hres⟩
  · rw [hk] at hsent
    cases hsent
  · rw [hk] at hrep
    cases hrep
    exact ⟨rfl, rfl, hres r rfl⟩

/-- One node changes, and it does not start to wait for a `transferreq`. -/
theorem Recovering.setNode (h : Recovering views s) {nd : Node σ ρ κ} (hp : Phase views n nd)
    (hbase : (s.nodes n).base ≤ nd.base)
    (hcall : ∀ m k, nd.recovery = .transfer m (some k) → (s.nodes n).recovery = nd.recovery ∧
      nd.lastMyvs = (s.nodes n).lastMyvs ∧ nd.vidInsync = (s.nodes n).vidInsync) :
    Recovering views (s.setNode n nd) := by
  refine ⟨fun m => ?_, h.fresh, fun m p k hr => ?_, fun k dst vid r hk => ?_⟩
  · exact Sys.forall_setNode hp h.phase m
  · rcases eq_or_ne m n with rfl | hne
    · rw [Sys.setNode_self] at hr ⊢
      obtain ⟨h1, h2, h3⟩ := hcall p k hr
      rw [h2, h3]
      exact h.call m p k (h1.trans hr)
    · rw [Sys.setNode_of_ne _ _ hne] at hr ⊢
      exact h.call m p k hr
  · obtain ⟨h1, h2⟩ := h.reply k dst vid r hk
    refine ⟨h1, h2.trans ?_⟩
    rcases eq_or_ne dst n with rfl | hne
    · rwa [Sys.setNode_self]
    · rw [Sys.setNode_of_ne _ _ hne]

/-- An answer that is not BUSY. -/
theorem transferreq_some {nd : Node σ ρ κ} {last : Viewstamp} {r : TransferRes σ ρ κ}
    (h : nd.transferreq last vid = some r) :
    (nd.insync = true ∧ vid = nd.vidInsync) ∧
      r = ⟨if last ≠ nd.lastMyvs then some nd.state else none, nd.lastMyvs, nd.hist⟩ := by
  unfold Node.transferreq at h
  split at h
  · cases h
  · rename_i hc
    push Not at hc
    exact ⟨⟨by simpa using hc.1, hc.2⟩, (Option.some.inj h).symm⟩

theorem Recovering.withAcked (h : Recovering views s) (a : List (Entry ρ κ)) :
    Recovering views { s with acked := a } :=
  ⟨h.phase, h.fresh, h.call, h.reply⟩

/-- The calls of `invoke` and `transferdonereq` play no role here. -/
theorem Recovering.withCalls (h : Recovering views s) {inv : Nat → InvokeCall ρ}
    {dones : Nat → DoneCall} {next : Nat} (hnext : s.nextCall ≤ next)
    (hinv : ∀ k, next ≤ k → inv k = .unused) (hdone : ∀ k, next ≤ k → dones k = .unused) :
    Recovering views { s with invokes := inv, dones := dones, nextCall := next } :=
  ⟨h.phase, fun k hk => ⟨hinv k hk, (h.fresh k (hnext.trans hk)).2.1, hdone k hk⟩, h.call,
    h.reply⟩

theorem recovering_sendTransfer (h : Recovering views s)
    (hr : (s.nodes n).recovery = .transfer m none) : Recovering views (s.sendTransfer n m) := by
  have hpc := (h.phase n).pc
  have hsync := (h.phase n).insync_false (by simp [hr])
  rw [hr] at hpc
  have hp : Phase views n { s.nodes n with recovery := .transfer m (some s.nextCall) } :=
    (h.phase n).move hpc.1 hsync hpc
  have hself : (s.sendTransfer n m).nodes n
      = { s.nodes n with recovery := .transfer m (some s.nextCall) } := s.setNode_self n _
  have hother : ∀ x, x ≠ n → (s.sendTransfer n m).nodes x = s.nodes x :=
    fun x hx => s.setNode_of_ne _ hx
  have hold : ∀ k, k ≠ s.nextCall → (s.sendTransfer n m).transfers k = s.transfers k :=
    fun k hk => update_of_ne hk _ _
  have hnew : (s.sendTransfer n m).transfers s.nextCall
      = .sent m (s.nodes n).lastMyvs (s.nodes n).vidInsync := update_self _ _ _
  refine ⟨fun x => ?_, fun k hk => ?_, fun x m' k hx => ?_, fun k dst vid r hk => ?_⟩
  · rcases eq_or_ne x n with rfl | hne
    · rwa [hself]
    · rw [hother x hne]
      exact h.phase x
  · have hlt : s.nextCall + 1 ≤ k := hk
    obtain ⟨h1, h2, h3⟩ := h.fresh k (by omega)
    exact ⟨h1, (hold k (by omega)).trans h2, h3⟩
  · rcases eq_or_ne x n with rfl | hne
    · rw [hself] at hx ⊢
      cases hx
      exact .inl hnew
    · rw [hother x hne] at hx ⊢
      have hcall := h.call x m' k hx
      -- an older call is not the new one
      have hk : k ≠ s.nextCall := by
        rintro rfl
        rw [(h.fresh s.nextCall le_rfl).2.1] at hcall
        rcases hcall with hc | ⟨_, hc, _⟩ <;> cases hc
      rw [hold k hk]
      exact hcall
  · rcases eq_or_ne k s.nextCall with rfl | hne
    · rw [hnew] at hk
      cases hk
    · rw [hold k hne] at hk
      obtain ⟨h1, h2⟩ := h.reply k dst vid r hk
      refine ⟨h1, h2.trans ?_⟩
      rcases eq_or_ne dst n with rfl | hne
      · rw [hself]
      · rw [hother dst hne]

/-- A node that answers is synchronising, so its last stamp is older than
the view it answers for. -/
theorem recovering_serveTransfer (h : Recovering views s) {last : Viewstamp}
    (hk : s.transfers k = .sent dst last vid) :
    Recovering views (s.serveTransfer k dst last vid) := by
  have hold : ∀ k', k' ≠ k →
      (s.serveTransfer k dst last vid).transfers k' = s.transfers k' :=
    fun k' hk' => update_of_ne hk' _ _
  have hnew : (s.serveTransfer k dst last vid).transfers k
      = .replied dst vid ((s.nodes dst).transferreq last vid) := update_self _ _ _
  refine ⟨h.phase, fun k' hk' => ?_, fun n m k' hr => ?_, fun k' dst' vid' r hk' => ?_⟩
  · obtain ⟨h1, h2, h3⟩ := h.fresh k' hk'
    have hne : k' ≠ k := by
      rintro rfl
      rw [hk] at h2
      cases h2
    exact ⟨h1, (hold k' hne).trans h2, h3⟩
  · have hcall := h.call n m k' hr
    rcases eq_or_ne k' k with rfl | hne
    · rw [hk] at hcall
      rcases hcall with hc | ⟨_, hc, _⟩
      · cases hc
        refine .inr ⟨_, hnew, fun r hres hl => ?_⟩
        obtain ⟨_, rfl⟩ := transferreq_some hres
        have hdiff : (s.nodes n).lastMyvs ≠ (s.nodes dst).lastMyvs := fun he => hl he.symm
        simp only [if_pos hdiff]
        simp
      · cases hc
    · rw [hold k' hne]
      exact hcall
  · rcases eq_or_ne k' k with rfl | hne
    · rw [hnew] at hk'
      injection hk' with hdst hvid hres
      subst hdst hvid
      obtain ⟨⟨hsync, hv⟩, rfl⟩ := transferreq_some hres
      have hpc := (h.phase dst).pc
      rw [(h.phase dst).insync hsync] at hpc
      exact ⟨hv ▸ hpc.1.last, by rw [hv]; exact hpc.2.1.ge⟩
    · rw [hold k' hne] at hk'
      exact h.reply k' dst' vid' r hk'

theorem recovering_clientInvoke (h : Recovering views s) (req : ρ) :
    Recovering views (s.invoked n ((s.nodes n).clientInvoke svc views n req)) := by
  refine Recovering.withAcked ?_ _
  unfold Node.clientInvoke
  split
  · exact h.setNode (h.phase n) le_rfl fun _ _ _ => ⟨rfl, rfl, rfl⟩
  · rename_i hserve
    have hview : (s.nodes n).inviewchange = false := by
      simpa using fun hv => hserve (.inl hv)
    have hp := (h.phase n).takeStamp hview
    obtain ⟨_, _, _, _, _, _, _, h8, h9, _⟩ := invokeLoop_fields svc
      { s.nodes n with
        lastMyvs := (s.nodes n).myvs, myvs := (s.nodes n).myvs.next }
      (s.nodes n).myvs req (views (s.nodes n).vidCommit)
    refine h.setNode (hp.invokeLoop svc _ _ _) h9.ge fun m k hr => ?_
    rw [h8] at hr
    rw [show (s.nodes n).recovery = .sleeping from ((h.phase n).serving hview).1] at hr
    cases hr

theorem recovering_serveInvoke (h : Recovering views s) {vs : Viewstamp} {req : ρ}
    (hk : s.invokes k = .sent dst vs req) : Recovering views (s.serveInvoke svc k dst vs req) := by
  have hfresh : ∀ k' ok, s.nextCall ≤ k' →
      update s.invokes k (.replied dst vs req ok) k' = .unused := by
    intro k' ok hk'
    have h1 := (h.fresh k' hk').1
    have hne : k' ≠ k := by
      rintro rfl
      rw [hk] at h1
      cases h1
    rwa [update_of_ne hne]
  refine Recovering.withCalls ?_ le_rfl (fun k' hk' => hfresh k' _ hk')
    fun k' hk' => (h.fresh k' hk').2.2
  unfold Node.invoke
  split
  · exact h.setNode (h.phase dst) le_rfl fun _ _ _ => ⟨rfl, rfl, rfl⟩
  · rename_i hserve
    have hview : (s.nodes dst).inviewchange = false := by
      simpa using fun hv => hserve (.inl hv)
    refine h.setNode (((h.phase dst).takeStamp hview).congr rfl rfl rfl rfl rfl rfl rfl rfl rfl)
      le_rfl fun m k' hr => ?_
    replace hr : (s.nodes dst).recovery = _ := hr
    rw [((h.phase dst).serving hview).1] at hr
    cases hr

/-- The step goes through the transition relation, case by case. -/
theorem recovering_step (h0 : views 0 = []) (h : Recovering views s) {e : Event ρ}
    (hs : step svc views s e = some s') : Recovering views s' := by
  cases trans_of_step hs with
  | @commitChange n vid nd hc =>
    have hq := quiet_commitChangeWo hc
    refine h.setNode ((h.phase n).commitChangeWo hc) hq.base.ge fun m k hr => ?_
    rcases commitChangeWo_cases hc with rfl | ⟨_, p, _, rfl⟩
    · exact ⟨rfl, rfl, rfl⟩
    · exact ⟨rfl, rfl, rfl⟩
  | @recoveryRetry n hr =>
    exact h.setNode ((h.phase n).recoveryRetry h0 hr) ((Quiet.refl _).recoveryHead n).base.ge
      fun m k hw => absurd hw (recoveryHead_not_waiting _ n m k)
  | @joined n vid nd hr hc =>
    refine h.setNode ((h.phase n).joined h0 hr hc) ?_
      fun m k hw => absurd hw (recoveryHead_not_waiting _ n m k)
    exact ((quiet_commitChangeWo hc).recoveryHead n).base.ge
  | @joinFails n hr => exact h.setNode ((h.phase n).joinFails hr) le_rfl (by simp)
  | @takeInvokeMutex n hr hi =>
    exact h.setNode ((h.phase n).syncWithBackups hr) (h.phase n).baseLe
      (by simp [Node.syncWithBackups])
  | @backupsWake n hr hb =>
    refine h.setNode ((h.phase n).backupsWake h0 hr) ?_
      fun m k hw => absurd hw (recoverySynced_not_waiting _ n m true k)
    exact (quiet_backupsWake n ((h.phase n).waiting hr)).base.ge
  | @sendTransfer n m hr => exact recovering_sendTransfer h hr
  | @transferreq k dst last vid hk => exact recovering_serveTransfer h hk
  | @transferReturn n m k dst vid r hr hk =>
    obtain ⟨rfl, rfl, _⟩ := h.answer hr hk
    have hlt : r.last.vid < (s.nodes n).vidInsync := (h.reply k dst _ r hk).1
    refine h.setNode ((h.phase n).installState svc hr hlt) ?_ (by simp)
    obtain ⟨st, hist, heq⟩ := installState_eq svc (s.nodes n) r
    rw [heq]
    exact (h.phase n).baseLe
  | @transferFails n m c hr =>
    refine h.setNode ((h.phase n).transferFails hr) ?_ fun m' k hw => ?_
    · unfold Node.transferFails
      split <;> exact le_rfl
    · unfold Node.transferFails at hw
      split at hw <;> cases hw
  | @sendDone n m hr =>
    have hpc := (h.phase n).pc
    have hsync := (h.phase n).insync_false (by simp [hr])
    rw [hr] at hpc
    have hp : Phase views n { s.nodes n with recovery := .done m (some s.nextCall) } :=
      (h.phase n).move hpc.1 hsync hpc
    refine (h.setNode hp le_rfl (by simp)).withCalls (Nat.le_succ _)
      (fun k hk => (h.fresh k (Nat.le_of_succ_le hk)).1) fun k hk => ?_
    rw [update_of_ne (Nat.ne_of_gt hk)]
    exact (h.fresh k (Nat.le_of_succ_le hk)).2.2
  | @transferdonereq k src dst vid hk =>
    have hnode : Recovering views
        (s.setNode dst ((s.nodes dst).transferdonereq src vid).2) := by
      rcases transferdonereq_cases (s.nodes dst) src vid with heq | ⟨_, _, heq⟩ <;> rw [heq]
      · exact h.setNode (h.phase dst) le_rfl fun _ _ _ => ⟨rfl, rfl, rfl⟩
      · exact h.setNode ((h.phase dst).congr rfl rfl rfl rfl rfl rfl rfl rfl rfl) le_rfl
          fun _ _ _ => ⟨rfl, rfl, rfl⟩
    refine hnode.withCalls le_rfl (fun k' hk' => (h.fresh k' hk').1) fun k' hk' => ?_
    have hne : k' ≠ k := fun he => by
      have := (h.fresh k' hk').2.2
      rw [he, hk] at this
      cases this
    rw [update_of_ne hne]
    exact (h.fresh k' hk').2.2
  | @doneReturn n m k ok hr hk =>
    exact h.setNode ((h.phase n).doneEnds h0 hr ok)
      (quiet_recoverySynced n ok ((h.phase n).finishing hr)).base.ge
      fun m k hw => absurd hw (recoverySynced_not_waiting _ n m ok k)
  | @doneFails n m c hr =>
    exact h.setNode ((h.phase n).doneEnds h0 hr false)
      (quiet_recoverySynced n false ((h.phase n).finishing hr)).base.ge
      fun m k hw => absurd hw (recoverySynced_not_waiting _ n m false k)
  | @sleepWake n hr hv =>
    exact h.setNode ((h.phase n).sleepWake h0 hr hv) ((Quiet.refl _).recoveryHead n).base.ge
      fun m k hw => absurd hw (recoveryHead_not_waiting _ n m k)
  | @clientInvoke n req hi => exact recovering_clientInvoke h req
  | @sendInvoke n inv hi hc =>
    have hp : Phase views n { s.nodes n with
        invoking := some { inv with call := some s.nextCall } } :=
      (h.phase n).congr rfl rfl rfl rfl rfl rfl rfl rfl rfl
    refine (h.setNode hp le_rfl fun _ _ _ => ⟨rfl, rfl, rfl⟩).withCalls (Nat.le_succ _)
      (fun k hk => ?_) fun k hk => (h.fresh k (Nat.le_of_succ_le hk)).2.2
    rw [update_of_ne (Nat.ne_of_gt hk)]
    exact (h.fresh k (Nat.le_of_succ_le hk)).1
  | @invoke k dst vs req hk => exact recovering_serveInvoke h hk
  | @invokeReturn n inv k dst vs req hi hc hk =>
    obtain ⟨h1, h2, h3, h4, h5, h6, h7, h8, h9, _⟩ :=
      invokeLoop_fields svc (s.nodes n) inv.vs inv.req inv.rest
    exact (h.setNode ((h.phase n).invokeLoop svc inv.vs inv.req inv.rest) h9.ge
      fun _ _ _ => ⟨h8.symm, h7, h5⟩).withAcked _
  | @invokeRefused n inv k dst vs req hi hc hk =>
    exact h.setNode ((h.phase n).congr rfl rfl rfl rfl rfl rfl rfl rfl rfl) le_rfl
      fun _ _ _ => ⟨rfl, rfl, rfl⟩
  | @invokeFails n inv hi =>
    exact h.setNode ((h.phase n).congr rfl rfl rfl rfl rfl rfl rfl rfl rfl) le_rfl
      fun _ _ _ => ⟨rfl, rfl, rfl⟩

/-- A node that synchronised with another one serves as a backup. -/
theorem doneEnds_not_primary (hr : Recovering views s) {c : Option Nat} {r : Bool}
    (hpc : (s.nodes n).recovery = .done m c)
    (hafter : ((s.nodes n).recoverySynced views n r).inviewchange = false) :
    ((s.nodes n).recoverySynced views n r).primary ≠ n := by
  have hphase := (hr.phase n).pc
  rw [hpc] at hphase
  obtain ⟨hs, hm, hp⟩ := hphase
  obtain ⟨hv, hprim⟩ := recoverySynced_serves hs.view hafter
  rw [hprim, (hp hv).1]
  exact hm

end Recovering

end Yfs.Rsm
