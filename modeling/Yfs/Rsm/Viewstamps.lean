/-
Yfs.Rsm.Viewstamps — do equal stamps mean equal states?

`transferreq` and `statetransfer` leave the state out when the two
`last_myvs` are equal, and rsm.h describes `last_myvs` as the viewstamp of
the last executed request. But `client_invoke` sets it BEFORE it calls the
backups and executes the request last of all, or, when a call fails, not
at all. So while a request is with the backups, and for good after a
failure, the primary carries the stamp of a request that only backups
have executed (`stamp_without_execution`).

`equal_stamps_equal_state` says that nothing else can go wrong: as long as
the requests executed in views with backups leave the state as it is,
equal stamps mean equal states in every reachable state. (In a view of one
member the request is executed before `rsm_mutex` is released, and
may change the state.)

The proof labels each used stamp with one state. A node is `Live` in the
view it has both committed and obtained its state for. A stamp of view `y`
is used only once a primary has finished `y`, and then every other member
is live in `y` with that primary, and so with its state, or has moved on.
-/
import Yfs.Rsm.Recovery

namespace Yfs.Rsm

open Run Function

variable {σ ρ κ : Type}

/-! ## Live nodes -/

structure Live (nd : Node σ ρ κ) (y : Nat) : Prop where
  base : nd.base = y
  insync : nd.vidInsync = y
  commit : nd.vidCommit = y

/-- The node will not become live in view `y` any more. -/
def Past (nd : Node σ ρ κ) (y : Nat) : Prop := y < nd.vidCommit ∨ Live nd y

/-- The node has moved on, or is live in view `y` having synchronised with
`p`. -/
def Settled (nd : Node σ ρ κ) (p : NodeId) (y : Nat) : Prop :=
  y < nd.vidCommit ∨ (Live nd y ∧ nd.primary = p)

/-- The view has a member other than `n`. -/
def HasOther (views : Nat → List NodeId) (y : Nat) (n : NodeId) : Prop := ∃ m ∈ views y, m ≠ n

structure Stays (nd nd' : Node σ ρ κ) : Prop where
  commit : nd.vidCommit ≤ nd'.vidCommit
  base : nd.base ≤ nd'.base
  live : ∀ y, Live nd y → y < nd'.vidCommit ∨ (Live nd' y ∧ nd'.primary = nd.primary)

theorem Stays.refl (nd : Node σ ρ κ) : Stays nd nd :=
  ⟨le_rfl, le_rfl, fun _ hy => .inr ⟨hy, rfl⟩⟩

variable {nd nd' : Node σ ρ κ} {y : Nat}

theorem Stays.past (h : Stays nd nd') (hp : Past nd y) : Past nd' y := by
  rcases hp with hlt | hl
  · exact .inl (lt_of_lt_of_le hlt h.commit)
  · rcases h.live y hl with hlt | ⟨hl', _⟩
    · exact .inl hlt
    · exact .inr hl'

theorem Stays.settled (h : Stays nd nd') {p : NodeId} (hp : Settled nd p y) : Settled nd' p y := by
  rcases hp with hlt | ⟨hl, hprim⟩
  · exact .inl (lt_of_lt_of_le hlt h.commit)
  · rcases h.live y hl with hlt | ⟨hl', hprim'⟩
    · exact .inl hlt
    · exact .inr ⟨hl', hprim'.trans hprim⟩

section Node

variable {views : Nat → List NodeId} {n : NodeId} {nd nd' : Node σ ρ κ}

theorem Quiet.stays (hq : Quiet nd nd') (hp' : Phase views n nd') : Stays nd nd' := by
  refine ⟨hq.commit, hq.base.ge, ?_⟩
  intro y hy
  have hcommit := hq.commit
  rw [hy.commit] at hcommit
  by_cases hlt : y < nd'.vidCommit
  · exact .inl hlt
  · have hbase := hp'.baseLe
    have hinsync := hp'.insyncLe
    rw [hq.base, hy.base] at hbase
    have hc : nd'.vidCommit = nd.vidCommit := by rw [hy.commit]; omega
    exact .inr ⟨⟨hq.base.trans hy.base, by omega, by omega⟩, hq.primary hc⟩

/-- A quiet step makes no node live. -/
theorem Quiet.live_back (hq : Quiet nd nd') (hp : Phase views n nd) {y : Nat} (hy : Live nd' y) :
    Live nd y ∧ nd'.primary = nd.primary := by
  have hbase := hp.baseLe
  have hinsync := hp.insyncLe
  have hcommit := hq.commit
  have hb : nd.base = y := hq.base.symm.trans hy.base
  have hc := hy.commit
  exact ⟨⟨hb, by omega, by omega⟩, hq.primary (by omega)⟩

/-- A node that serves requests is live in its view. -/
theorem Phase.live_of_serving (hp : Phase views n nd) (hserve : nd.inviewchange = false) :
    Live nd nd.myvs.vid := by
  obtain ⟨_, hv, hmy, hb, _⟩ := hp.serving hserve
  exact ⟨by omega, by omega, by omega⟩

end Node

/-! ## The invariant -/

/-- `T` gives each used stamp its state; `U` are the stamps in use. -/
structure Stamped (views : Nat → List NodeId) (T : Viewstamp → σ) (U : Viewstamp → Prop)
    (s : Sys σ ρ κ) : Prop where
  own : ∀ n, U (s.nodes n).lastMyvs ∧ (s.nodes n).state = T (s.nodes n).lastMyvs
  sent : ∀ k dst vs req, s.invokes k = .sent dst vs req → U vs
  reply : ∀ k dst vid r, s.transfers k = .replied dst vid (some r) → U r.last ∧
    (∀ x, r.state = some x → x = T r.last) ∧
    (Live (s.nodes dst) vid → HasOther views vid dst → T r.last = (s.nodes dst).state)
  agree : ∀ vs, U vs → ∀ n, Live (s.nodes n) vs.vid → HasOther views vs.vid n →
    (s.nodes n).state = T vs
  past : ∀ vs, U vs → ∀ n ∈ views vs.vid, Past (s.nodes n) vs.vid
  pair : ∀ b y, Live (s.nodes b) y → (s.nodes b).primary ≠ b →
    y ≤ (s.nodes (s.nodes b).primary).base ∧
    (Live (s.nodes (s.nodes b).primary) y → (s.nodes b).state = (s.nodes (s.nodes b).primary).state)
  member : ∀ n, (s.nodes n).base ≠ 0 → n ∈ views (s.nodes n).base
  done : ∀ k src dst vid, s.dones k = .sent src dst vid → Settled (s.nodes src) dst vid
  waiting : ∀ p, (s.nodes p).recovery = .waitBackups →
    (s.nodes p).vidInsync = (s.nodes p).vidCommit →
    ∀ b ∈ views (s.nodes p).vidInsync, b ≠ p → b ∈ (s.nodes p).backups ∨
      Settled (s.nodes b) p (s.nodes p).vidInsync
  serving : ∀ p, (s.nodes p).inviewchange = false → (s.nodes p).primary = p →
    ∀ b ∈ views (s.nodes p).vidCommit, b ≠ p → Settled (s.nodes b) p (s.nodes p).vidCommit

theorem stamped_init {views : Nat → List NodeId} (h0 : views 0 = []) (first : NodeId) (st : σ) :
    Stamped views (fun _ => st) (fun vs => vs = ⟨0, 0⟩) (Sys.init first st : Sys σ ρ κ) := by
  constructor
  case own =>
    intro n
    exact ⟨rfl, rfl⟩
  case sent =>
    nofun
  case reply =>
    nofun
  case agree =>
    intro vs _ n _ _
    rfl
  case past =>
    rintro vs rfl n hn
    rw [h0] at hn
    cases hn
  case pair =>
    intro b y hy _
    have hz : (0 : Nat) = y := hy.base
    subst hz
    exact ⟨le_rfl, fun _ => rfl⟩
  case member =>
    intro n hn
    exact absurd rfl hn
  case done =>
    nofun
  case waiting =>
    nofun
  case serving =>
    nofun

section Frame

variable {views : Nat → List NodeId} {T : Viewstamp → σ} {U : Viewstamp → Prop} {s : Sys σ ρ κ}

/-- How a changed node may be live: it was so before with the same state,
or it has just obtained its state for this view. -/
def LiveFrom (views : Nat → List NodeId) (s : Sys σ ρ κ) (n : NodeId) (nd : Node σ ρ κ) (y : Nat) :
    Prop :=
  (Live (s.nodes n) y ∧ nd.primary = (s.nodes n).primary ∧ nd.state = (s.nodes n).state) ∨
  ((s.nodes n).base < y ∧ n ∈ views y ∧ (s.nodes n).vidCommit ≤ y ∧
    (nd.primary ≠ n → y ≤ (s.nodes nd.primary).base ∧
      (Live (s.nodes nd.primary) y → nd.state = (s.nodes nd.primary).state)))

/-- **Frame rule**: one node changes. -/
theorem Stamped.setNode (h : Stamped views T U s) (hr : Recovering views s)
    {n : NodeId} {nd : Node σ ρ κ} (hstays : Stays (s.nodes n) nd)
    (hlive : ∀ y, Live nd y → LiveFrom views s n nd y)
    (hown : U nd.lastMyvs ∧ nd.state = T nd.lastMyvs)
    (hmem : nd.base ≠ 0 → n ∈ views nd.base)
    (hwait : nd.recovery = .waitBackups → nd.vidInsync = nd.vidCommit →
      ∀ b ∈ views nd.vidInsync, b ≠ n → b ∈ nd.backups ∨ Settled (s.nodes b) n nd.vidInsync)
    (hserve : nd.inviewchange = false → nd.primary = n →
      ∀ b ∈ views nd.vidCommit, b ≠ n → Settled (s.nodes b) n nd.vidCommit) :
    Stamped views T U (s.setNode n nd) := by
  have hself := s.setNode_self n nd
  have hother : ∀ m, m ≠ n → (s.setNode n nd).nodes m = s.nodes m :=
    fun m hm => s.setNode_of_ne nd hm
  have hall : ∀ m, Stays (s.nodes m) ((s.setNode n nd).nodes m) :=
    Sys.forall_setNode hstays fun m => Stays.refl _
  -- a node that has just become live had not been in the view before
  have hnotPast : ∀ {y}, (s.nodes n).base < y → (s.nodes n).vidCommit ≤ y →
      ¬ Past (s.nodes n) y := by
    intro y hb hc hp
    rcases hp with hlt | hl
    · omega
    · have := hl.base
      omega
  constructor
  case own =>
    exact Sys.forall_setNode (P := fun _ x => U x.lastMyvs ∧ x.state = T x.lastMyvs) hown h.own
  case sent =>
    exact h.sent
  case reply =>
    intro k dst vid r hk
    obtain ⟨h1, h2, h3⟩ := h.reply k dst vid r hk
    refine ⟨h1, h2, ?_⟩
    by_cases hd : dst = n
    · subst hd
      rw [hself]
      intro hl ho
      rcases hlive vid hl with ⟨hl', _, hst⟩ | ⟨hb, _⟩
      · rw [hst]
        exact h3 hl' ho
      · have := (hr.reply k dst vid r hk).2
        omega
    · rw [hother dst hd]
      exact h3
  case agree =>
    intro vs hU m hl ho
    by_cases hm : m = n
    · subst hm
      rw [hself] at hl ⊢
      rcases hlive _ hl with ⟨hl', _, hst⟩ | ⟨hb, hmv, hc, _⟩
      · rw [hst]
        exact h.agree vs hU m hl' ho
      · exact absurd (h.past vs hU m hmv) (hnotPast hb hc)
    · rw [hother m hm] at hl ⊢
      exact h.agree vs hU m hl ho
  case past =>
    intro vs hU m hm
    exact (hall m).past (h.past vs hU m hm)
  case pair =>
    intro b y hl hp
    by_cases hb : b = n
    · subst hb
      rw [hself] at hl hp ⊢
      rw [hother _ hp]
      rcases hlive y hl with ⟨hl', hprim, hst⟩ | ⟨_, _, _, hnew⟩
      · rw [hprim] at hp ⊢
        rw [hst]
        exact h.pair b y hl' hp
      · exact hnew hp
    · rw [hother b hb] at hl hp ⊢
      obtain ⟨h1, h2⟩ := h.pair b y hl hp
      by_cases hpn : (s.nodes b).primary = n
      · rw [hpn] at h1 h2 ⊢
        rw [hself]
        refine ⟨h1.trans hstays.base, ?_⟩
        intro hl'
        rcases hlive y hl' with ⟨hl'', _, hst⟩ | ⟨hb', _⟩
        · rw [hst]
          exact h2 hl''
        · omega
      · rw [hother _ hpn]
        exact ⟨h1, h2⟩
  case member =>
    exact Sys.forall_setNode (P := fun m x => x.base ≠ 0 → m ∈ views x.base) hmem h.member
  case done =>
    intro k src dst vid hk
    exact (hall src).settled (h.done k src dst vid hk)
  case waiting =>
    intro p
    by_cases hpn : p = n
    · subst hpn
      rw [hself]
      intro hpc hv b hb hbp
      rw [hother b hbp]
      exact hwait hpc hv b hb hbp
    · rw [hother p hpn]
      intro hpc hv b hb hbp
      exact (h.waiting p hpc hv b hb hbp).imp id fun hs => (hall b).settled hs
  case serving =>
    intro p
    by_cases hpn : p = n
    · subst hpn
      rw [hself]
      intro hview hprim b hb hbp
      rw [hother b hbp]
      exact hserve hview hprim b hb hbp
    · rw [hother p hpn]
      intro hview hprim b hb hbp
      exact (hall b).settled (h.serving p hview hprim b hb hbp)

/-- The recovery of one node moves. -/
theorem Stamped.quiet (h : Stamped views T U s) (hr : Recovering views s)
    {n : NodeId} {nd : Node σ ρ κ} (hp : Phase views n nd) (hq : Quiet (s.nodes n) nd)
    (hwait : nd.recovery = .waitBackups → nd.vidInsync = nd.vidCommit →
      ∀ b ∈ views nd.vidInsync, b ≠ n → b ∈ nd.backups ∨ Settled (s.nodes b) n nd.vidInsync)
    (hserve : nd.inviewchange = false → nd.primary = n →
      ∀ b ∈ views nd.vidCommit, b ≠ n → Settled (s.nodes b) n nd.vidCommit) :
    Stamped views T U (s.setNode n nd) := by
  refine h.setNode hr (hq.stays hp) ?_ ?_ ?_ hwait hserve
  · intro y hy
    obtain ⟨hl, hprim⟩ := hq.live_back (hr.phase n) hy
    exact .inl ⟨hl, hprim, hq.state⟩
  · rw [hq.last, hq.state]
    exact h.own n
  · rw [hq.base]
    exact h.member n

/-- A node that is in a view change and does not wait for backups has
nothing to show for its backups. -/
theorem Stamped.quietMove (h : Stamped views T U s) (hr : Recovering views s)
    {n : NodeId} {nd : Node σ ρ κ} (hp : Phase views n nd) (hq : Quiet (s.nodes n) nd)
    (hpc : nd.recovery ≠ .waitBackups) (hview : nd.inviewchange = true) :
    Stamped views T U (s.setNode n nd) :=
  h.quiet hr hp hq (fun hw => absurd hw hpc)
    fun hf => absurd (hview.symm.trans hf) (by simp)

end Frame

/-! ## Recovery steps -/

section Recovery

variable {svc : Service σ ρ κ} {views : Nat → List NodeId} {T : Viewstamp → σ}
  {U : Viewstamp → Prop} {s : Sys σ ρ κ}

variable {n m : NodeId} {vid : Nat}

theorem stamped_commitChange (h : Stamped views T U s) (hr : Recovering views s) {nd : Node σ ρ κ}
    (hc : (s.nodes n).commitChangeWo views vid = some nd) : Stamped views T U (s.setNode n nd) := by
  refine h.quiet hr ((hr.phase n).commitChangeWo hc) (quiet_commitChangeWo hc) ?_ ?_
  · rcases commitChangeWo_cases hc with rfl | ⟨hlt, p, _, rfl⟩
    · exact h.waiting n
    · intro _ hv
      have := (hr.phase n).insyncLe
      replace hv : (s.nodes n).vidInsync = vid := hv
      omega
  · rcases commitChangeWo_cases hc with rfl | ⟨_, p, _, rfl⟩
    · exact h.serving n
    · nofun

theorem recoveryHead_not_waitBackups (nd : Node σ ρ κ) (n : NodeId) :
    (nd.recoveryHead views n).recovery ≠ .waitBackups := by
  unfold Node.recoveryHead
  split
  · split <;> simp
  · simp

theorem recoverySynced_not_waitBackups (nd : Node σ ρ κ) (n : NodeId) (r : Bool) :
    (nd.recoverySynced views n r).recovery ≠ .waitBackups := by
  unfold Node.recoverySynced
  split
  · exact recoveryHead_not_waitBackups nd n
  · split <;> simp

/-- All backups have reported, so each of them has moved on or is live with
this primary. -/
theorem stamped_backupsWake (h0 : views 0 = []) (h : Stamped views T U s)
    (hr : Recovering views s) (hpc : (s.nodes n).recovery = .waitBackups)
    (hb : (s.nodes n).backupsSynced = true) :
    Stamped views T U
      (s.setNode n ({ s.nodes n with insync := false }.recoverySynced views n true)) := by
  have hview := (hr.phase n).waiting hpc
  refine h.quiet hr ((hr.phase n).backupsWake h0 hpc) (quiet_backupsWake n hview)
    (fun hw => absurd hw (recoverySynced_not_waitBackups _ n true)) ?_
  intro hserve _ b hbv hbn
  have hview' : ({ s.nodes n with insync := false } : Node σ ρ κ).inviewchange = true := hview
  have hv : (s.nodes n).vidInsync = (s.nodes n).vidCommit :=
    (recoverySynced_serves hview' hserve).1
  have hnone : (s.nodes n).backups = [] := by
    simpa [Node.backupsSynced, hv] using hb
  have hcommit : ({ s.nodes n with insync := false }.recoverySynced views n true).vidCommit
      = (s.nodes n).vidInsync := by
    simp [Node.recoverySynced, hv]
  rw [hcommit] at hbv ⊢
  have hset := h.waiting n hpc hv b hbv hbn
  rw [hnone] at hset
  exact hset.resolve_left (by simp)

/-- The node obtains its state for the view it synchronises for. -/
theorem stamped_obtained (h : Stamped views T U s) (hr : Recovering views s) {nd : Node σ ρ κ}
    (hs : Syncing views n (s.nodes n)) (hlt : (s.nodes n).base < (s.nodes n).vidInsync)
    (hbase : nd.base = (s.nodes n).vidInsync) (hinsync : nd.vidInsync = (s.nodes n).vidInsync)
    (hcommit : nd.vidCommit = (s.nodes n).vidCommit) (hview : nd.inviewchange = true)
    (hown : U nd.lastMyvs ∧ nd.state = T nd.lastMyvs)
    (hprim : nd.vidInsync = nd.vidCommit → nd.primary ≠ n →
      nd.vidInsync ≤ (s.nodes nd.primary).base ∧
      (Live (s.nodes nd.primary) nd.vidInsync → nd.state = (s.nodes nd.primary).state))
    (hwait : nd.recovery = .waitBackups → nd.vidInsync = nd.vidCommit →
      ∀ b ∈ views nd.vidInsync, b ≠ n → b ∈ nd.backups ∨ Settled (s.nodes b) n nd.vidInsync) :
    Stamped views T U (s.setNode n nd) := by
  refine h.setNode hr ⟨hcommit.ge, by omega, ?_⟩ ?_ hown ?_ hwait
    fun hf => absurd (hview.symm.trans hf) (by simp)
  · intro y hy
    have h1 := hy.base
    have h2 := hy.insync
    omega
  · intro y hy
    obtain ⟨h1, h2, h3⟩ := hy
    refine .inr ⟨by omega, ?_, by omega, ?_⟩
    · rw [← h1, hbase]
      exact hs.mem
    · intro hp
      obtain ⟨h4, h5⟩ := hprim (by omega) hp
      rw [h2] at h4 h5
      exact ⟨h4, h5⟩
  · intro _
    rw [hbase]
    exact hs.mem

theorem stamped_syncWithBackups (h : Stamped views T U s) (hr : Recovering views s)
    (hpc : (s.nodes n).recovery = .invokeMutex) :
    Stamped views T U (s.setNode n ((s.nodes n).syncWithBackups views)) := by
  have hphase := (hr.phase n).pc
  rw [hpc] at hphase
  obtain ⟨hs, hlt, hprim⟩ := hphase
  refine stamped_obtained h hr hs hlt rfl rfl rfl hs.view (h.own n) ?_ ?_
  · intro hv hne
    exact absurd (hprim hv) hne
  · intro _ hv b hb hbn
    left
    refine List.mem_filter.mpr ⟨hb, ?_⟩
    rw [hprim hv]
    simpa using hbn

theorem stamped_installState (h : Stamped views T U s) (hr : Recovering views s) {k : Nat}
    {dst : NodeId} {r : TransferRes σ ρ κ} (hpc : (s.nodes n).recovery = .transfer m (some k))
    (hk : s.transfers k = .replied dst vid (some r)) :
    Stamped views T U
      (s.setNode n { (s.nodes n).installState svc r with recovery := .done m none }) := by
  have hphase := (hr.phase n).pc
  rw [hpc] at hphase
  obtain ⟨hs, hlt, hmn, hprim⟩ := hphase
  obtain ⟨hdst, hvid, hsome⟩ := hr.answer hpc hk
  subst hdst hvid
  obtain ⟨hU, hst, hlive⟩ := h.reply k dst _ r hk
  obtain ⟨_, hb⟩ := hr.reply k dst _ r hk
  -- installed or not, the state is that of the stamp in the reply
  have hstate : ((s.nodes n).installState svc r).state = T r.last :=
    installState_state svc hsome hst fun heq => heq ▸ (h.own n).2
  obtain ⟨st, hist, heq⟩ := installState_eq svc (s.nodes n) r
  rw [heq] at hstate ⊢
  replace hstate : st = T r.last := hstate
  refine stamped_obtained h hr hs hlt rfl rfl rfl hs.view ⟨hU, hstate⟩ ?_ (by simp)
  intro hv _
  replace hv : (s.nodes n).vidInsync = (s.nodes n).vidCommit := hv
  show (s.nodes n).vidInsync ≤ (s.nodes (s.nodes n).primary).base ∧
    (Live (s.nodes (s.nodes n).primary) (s.nodes n).vidInsync →
      st = (s.nodes (s.nodes n).primary).state)
  rw [hprim hv, hstate]
  exact ⟨hb, fun hl => hlive hl ⟨n, hs.mem, hmn.symm⟩⟩

/-- Calls change, and the new ones are accounted for. -/
theorem Stamped.withCalls (h : Stamped views T U s) {inv : Nat → InvokeCall ρ}
    {tr : Nat → TransferCall σ ρ κ} {dones : Nat → DoneCall} {next : Nat}
    (hinv : ∀ k dst vs req, inv k = .sent dst vs req → U vs)
    (htr : ∀ k dst vid r, tr k = .replied dst vid (some r) → U r.last ∧
      (∀ x, r.state = some x → x = T r.last) ∧
      (Live (s.nodes dst) vid → HasOther views vid dst → T r.last = (s.nodes dst).state))
    (hdone : ∀ k src dst vid, dones k = .sent src dst vid → Settled (s.nodes src) dst vid) :
    Stamped views T U { s with
      invokes := inv, transfers := tr, dones := dones, nextCall := next } :=
  ⟨h.own, hinv, htr, h.agree, h.past, h.pair, h.member, hdone, h.waiting, h.serving⟩

theorem stamped_sendTransfer (h : Stamped views T U s) (hr : Recovering views s)
    (hpc : (s.nodes n).recovery = .transfer m none) : Stamped views T U (s.sendTransfer n m) := by
  have hp := (recovering_sendTransfer hr hpc).phase n
  have hself : (s.sendTransfer n m).nodes n
      = { s.nodes n with recovery := .transfer m (some s.nextCall) } := s.setNode_self n _
  rw [hself] at hp
  have hphase := (hr.phase n).pc
  rw [hpc] at hphase
  have hk := h.quietMove hr hp (quiet_recovery _ _) (by simp) hphase.1.view
  refine hk.withCalls hk.sent ?_ hk.done
  intro k dst vid r hkr
  refine hk.reply k dst vid r ?_
  by_cases hkn : k = s.nextCall
  · rw [hkn, update_self] at hkr
    cases hkr
  · rwa [update_of_ne hkn] at hkr

/-- The primary answers with its stamp and, if asked with another one, with
its state. -/
theorem stamped_serveTransfer (h : Stamped views T U s) {k : Nat} {dst : NodeId}
    {last : Viewstamp} : Stamped views T U (s.serveTransfer k dst last vid) := by
  refine h.withCalls h.sent ?_ h.done
  intro k' dst' vid' r hk'
  by_cases hkk : k' = k
  · rw [hkk, update_self] at hk'
    injection hk' with h1 h2 h3
    subst h1 h2
    obtain ⟨_, rfl⟩ := transferreq_some h3
    obtain ⟨hU, hst⟩ := h.own dst
    refine ⟨hU, ?_, fun _ _ => hst.symm⟩
    intro x hx
    replace hx : (if last ≠ (s.nodes dst).lastMyvs then some (s.nodes dst).state else none)
      = some x := hx
    split at hx
    · cases hx
      exact hst
    · cases hx
  · rw [update_of_ne hkk] at hk'
    exact h.reply k' dst' vid' r hk'

/-- A node reports to the primary it synchronised with. -/
theorem stamped_sendDone (h : Stamped views T U s) (hr : Recovering views s)
    (hpc : (s.nodes n).recovery = .done m none) : Stamped views T U (s.sendDone n m) := by
  have hphase := (hr.phase n).pc
  have hsync := (hr.phase n).insync_false (by simp [hpc])
  rw [hpc] at hphase
  obtain ⟨hs, hmn, hobt⟩ := hphase
  have hp : Phase views n { s.nodes n with recovery := .done m (some s.nextCall) } :=
    (hr.phase n).move hs hsync ⟨hs, hmn, hobt⟩
  have hk := h.quietMove hr hp (quiet_recovery _ _) (by simp) hs.view
  refine hk.withCalls hk.sent hk.reply ?_
  intro k src dst vid hkd
  by_cases hkn : k = s.nextCall
  · rw [hkn, update_self] at hkd
    cases hkd
    rw [Sys.setNode_self]
    by_cases hv : (s.nodes n).vidInsync = (s.nodes n).vidCommit
    · obtain ⟨h1, h2⟩ := hobt hv
      exact .inr ⟨⟨h2, rfl, hv.symm⟩, h1⟩
    · exact .inl (lt_of_le_of_ne (hr.phase n).insyncLe hv)
  · rw [update_of_ne hkn] at hkd
    exact hk.done k src dst vid hkd

theorem stamped_transferdonereq (h : Stamped views T U s) (hr : Recovering views s) {k : Nat}
    {src dst : NodeId} (hk : s.dones k = .sent src dst vid) :
    Stamped views T U (s.serveDone k src dst vid) := by
  have hset : Stamped views T U (s.setNode dst ((s.nodes dst).transferdonereq src vid).2) := by
    rcases transferdonereq_cases (s.nodes dst) src vid with heq | ⟨hsync, hv, heq⟩ <;> rw [heq]
    · exact h.quiet hr (hr.phase dst) (Quiet.refl _) (h.waiting dst) (h.serving dst)
    · refine h.quiet hr ((hr.phase dst).congr rfl rfl rfl rfl rfl rfl rfl rfl rfl)
        ⟨rfl, rfl, rfl, rfl, rfl, rfl, le_rfl, fun _ => rfl, .inl rfl⟩ ?_ (h.serving dst)
      intro hpc hvc b hb hbd
      rcases h.waiting dst hpc hvc b hb hbd with hbk | hset
      · by_cases hbs : b = src
        · right
          rw [hbs]
          show Settled (s.nodes src) dst (s.nodes dst).vidInsync
          rw [← hv]
          exact h.done k src dst vid hk
        · exact .inl (List.mem_filter.mpr ⟨hbk, by simpa using hbs⟩)
      · exact .inr hset
  refine hset.withCalls hset.sent hset.reply ?_
  intro k' src' dst' vid' hk'
  by_cases hkk : k' = k
  · rw [hkk, update_self] at hk'
    cases hk'
  · rw [update_of_ne hkk] at hk'
    exact hset.done k' src' dst' vid' hk'

theorem stamped_doneEnds (h0 : views 0 = []) (h : Stamped views T U s) (hr : Recovering views s)
    {c : Option Nat} (hpc : (s.nodes n).recovery = .done m c) (r : Bool) :
    Stamped views T U (s.setNode n ((s.nodes n).recoverySynced views n r)) :=
  h.quiet hr ((hr.phase n).doneEnds h0 hpc r)
    (quiet_recoverySynced n r ((hr.phase n).finishing hpc))
    (fun hw => absurd hw (recoverySynced_not_waitBackups _ n r))
    fun hserve hprim => absurd hprim (doneEnds_not_primary hr hpc hserve)

end Recovery

/-! ## A view of one member -/

section Secluded

variable {svc : Service σ ρ κ} {views : Nat → List NodeId} {s s' : Sys σ ρ κ}

/-- If the view has only one member, that one has moved on. -/
def Deserted (views : Nat → List NodeId) (s : Sys σ ρ κ) (y : Nat) : Prop :=
  ∀ n ∈ views y, ¬ HasOther views y n → y < (s.nodes n).vidCommit

/-- Stamps of a view of one member leave that member only once it has moved
on: alone it sends no request, and it hands its state over in later views.
So it may use a sequence number again. -/
structure Secluded (views : Nat → List NodeId) (s : Sys σ ρ κ) : Prop where
  last : ∀ m, m ∈ views (s.nodes m).lastMyvs.vid ∨ Deserted views s (s.nodes m).lastMyvs.vid
  sent : ∀ k dst vs req, s.invokes k = .sent dst vs req → Deserted views s vs.vid
  reply : ∀ k dst vid r, s.transfers k = .replied dst vid (some r) → Deserted views s r.last.vid
  invoking : ∀ n, (s.nodes n).invoking ≠ none → Deserted views s (s.nodes n).lastMyvs.vid

variable {y : Nat} {n : NodeId}

theorem Deserted.mono (h : Deserted views s y)
    (hc : ∀ n, (s.nodes n).vidCommit ≤ (s'.nodes n).vidCommit) : Deserted views s' y :=
  fun n hn ho => lt_of_lt_of_le (h n hn ho) (hc n)

theorem deserted_of_hasOther (hn : n ∈ views y) (ho : HasOther views y n) : Deserted views s y := by
  intro m _ hm
  by_cases hmn : m = n
  · exact absurd (hmn ▸ ho) hm
  · exact absurd ⟨n, hn, fun he => hmn he.symm⟩ hm

theorem secluded_init (h0 : views 0 = []) (first : NodeId) (st : σ) :
    Secluded views (Sys.init first st : Sys σ ρ κ) := by
  refine ⟨?_, ?_, ?_, ?_⟩
  · intro m
    right
    intro n (hn : n ∈ views 0)
    rw [h0] at hn
    cases hn
  · nofun
  · nofun
  · intro n hn
    exact absurd rfl hn

theorem Secluded.setNode (h : Secluded views s) {nd : Node σ ρ κ}
    (hc : (s.nodes n).vidCommit ≤ nd.vidCommit)
    (hlast : n ∈ views nd.lastMyvs.vid ∨ Deserted views s nd.lastMyvs.vid)
    (hinv : nd.invoking ≠ none → Deserted views s nd.lastMyvs.vid) :
    Secluded views (s.setNode n nd) := by
  have hmono : ∀ y, Deserted views s y → Deserted views (s.setNode n nd) y := fun y hy =>
    hy.mono (Sys.forall_setNode (P := fun m x => (s.nodes m).vidCommit ≤ x.vidCommit) hc
      fun _ => le_rfl)
  refine ⟨?_, ?_, ?_, ?_⟩
  · exact Sys.forall_setNode (P := fun m x => m ∈ views x.lastMyvs.vid ∨
      Deserted views (s.setNode n nd) x.lastMyvs.vid) (hlast.imp id (hmono _))
      fun m => (h.last m).imp id (hmono _)
  · intro k dst vs req hk
    exact hmono _ (h.sent k dst vs req hk)
  · intro k dst vid r hk
    exact hmono _ (h.reply k dst vid r hk)
  · exact Sys.forall_setNode (P := fun _ x => x.invoking ≠ none →
      Deserted views (s.setNode n nd) x.lastMyvs.vid) (fun hne => hmono _ (hinv hne))
      fun m hne => hmono _ (h.invoking m hne)

theorem Secluded.quiet (h : Secluded views s) {nd : Node σ ρ κ} (hq : Quiet (s.nodes n) nd) :
    Secluded views (s.setNode n nd) := by
  refine h.setNode hq.commit ?_ ?_
  · rw [hq.last]
    exact h.last n
  · rw [hq.last, hq.invoking]
    exact h.invoking n

theorem Secluded.withCalls (h : Secluded views s) {inv : Nat → InvokeCall ρ}
    {tr : Nat → TransferCall σ ρ κ} {dones : Nat → DoneCall} {next : Nat}
    (hinv : ∀ k dst vs req, inv k = .sent dst vs req → Deserted views s vs.vid)
    (htr : ∀ k dst vid r, tr k = .replied dst vid (some r) → Deserted views s r.last.vid) :
    Secluded views { s with invokes := inv, transfers := tr, dones := dones, nextCall := next } :=
  ⟨h.last, hinv, htr, h.invoking⟩

/-- A node hands over its state while it is in a view change. -/
theorem Secluded.handsOver (h0 : views 0 = []) (h : Secluded views s) (hr : Recovering views s)
    {m : NodeId} (hsync : (s.nodes m).insync = true) :
    Deserted views s (s.nodes m).lastMyvs.vid := by
  rcases h.last m with hm | hd
  · intro n hn ho
    obtain rfl : m = n := by
      by_contra hne
      exact ho ⟨m, hm, hne⟩
    have hp := hr.phase m
    rcases hp.older (hp.waiting (hp.insync hsync)) with hz | ⟨_, hlt⟩
    · have hle := hp.stamps_le.2
      have hlast : (s.nodes m).lastMyvs.vid = 0 := by omega
      rw [hlast, h0] at hm
      cases hm
    · exact hlt
  · exact hd

theorem Secluded.invoked (h : Secluded views s) {r : Option (Entry ρ κ) × Node σ ρ κ}
    (hc : (s.nodes n).vidCommit ≤ r.2.vidCommit)
    (hlast : n ∈ views r.2.lastMyvs.vid ∨ Deserted views s r.2.lastMyvs.vid)
    (hinv : r.2.invoking ≠ none → Deserted views s r.2.lastMyvs.vid) :
    Secluded views (s.invoked n r) := by
  have hset := h.setNode hc hlast hinv
  exact ⟨hset.last, hset.sent, hset.reply, hset.invoking⟩

theorem secluded_clientInvoke (h : Secluded views s) (hr : Recovering views s) (n : NodeId)
    (req : ρ) : Secluded views (s.invoked n ((s.nodes n).clientInvoke svc views n req)) := by
  unfold Node.clientInvoke
  split
  · rw [invoked_refused]
    exact h
  rename_i hc
  push Not at hc
  obtain ⟨hview, hprim⟩ := hc
  obtain ⟨_, _, hmy, _, hmem⟩ := (hr.phase n).serving (by simpa using hview)
  rw [← hmy] at hmem
  rcases invokeLoop_cases svc
    { s.nodes n with
      lastMyvs := (s.nodes n).myvs, myvs := (s.nodes n).myvs.next }
    (s.nodes n).myvs req (views (s.nodes n).vidCommit) with
    ⟨_, heq⟩ | ⟨pre, m, rest, hl, _, hmp, heq⟩ <;> rw [heq]
  · exact h.invoked le_rfl (.inl hmem) fun hne => absurd rfl hne
  · refine h.invoked le_rfl (.inl hmem) fun _ => ?_
    -- the request goes to a backup, which is another member
    refine deserted_of_hasOther hmem ⟨m, ?_, fun he => hmp (he.trans hprim.symm)⟩
    rw [hmy, hl]
    exact List.mem_append_right _ List.mem_cons_self

theorem secluded_invokeReturn (h : Secluded views s) {inv : Invoking ρ}
    (hinv : (s.nodes n).invoking = some inv) :
    Secluded views (s.invoked n ((s.nodes n).invokeLoop svc inv.vs inv.req inv.rest)) := by
  rcases invokeLoop_cases svc (s.nodes n) inv.vs inv.req inv.rest with
    ⟨_, heq⟩ | ⟨_, _, _, _, _, _, heq⟩ <;> rw [heq]
  · exact h.invoked le_rfl (h.last n) fun hne => absurd rfl hne
  · exact h.invoked le_rfl (h.last n) fun _ => h.invoking n (by simp [hinv])

theorem secluded_serveInvoke (h : Secluded views s) {k : Nat} {dst : NodeId} {vs : Viewstamp}
    {req : ρ} (hk : s.invokes k = .sent dst vs req) :
    Secluded views (s.serveInvoke svc k dst vs req) := by
  have hset : Secluded views (s.setNode dst ((s.nodes dst).invoke svc dst vs req).2) := by
    rcases invoke_cases svc dst (s.nodes dst) vs req with heq | ⟨_, _, hvs, heq⟩ <;> rw [heq]
    · exact h.setNode le_rfl (h.last dst) (h.invoking dst)
    · have hd := h.sent k dst vs req hk
      rw [hvs] at hd
      exact h.setNode le_rfl (.inr hd) fun _ => hd
  refine hset.withCalls ?_ hset.reply
  intro k' dst' vs' req' hk'
  by_cases hkk : k' = k
  · rw [hkk, update_self] at hk'
    cases hk'
  · rw [update_of_ne hkk] at hk'
    exact hset.sent k' dst' vs' req' hk'

theorem secluded_sendInvoke (h : Secluded views s) {inv : Invoking ρ}
    (hinv : (s.nodes n).invoking = some inv) : Secluded views (s.sendInvoke n inv) := by
  have hd := h.invoking n (by simp [hinv])
  have hset : Secluded views (s.setNode n { s.nodes n with
      invoking := some { inv with call := some s.nextCall } }) :=
    h.setNode le_rfl (h.last n) fun _ => hd
  refine hset.withCalls ?_ hset.reply
  intro k dst vs req hk
  by_cases hkn : k = s.nextCall
  · rw [hkn, update_self] at hk
    cases hk
    exact hd.mono (Sys.forall_setNode
      (P := fun m x => (s.nodes m).vidCommit ≤ x.vidCommit) le_rfl fun _ => le_rfl)
  · rw [update_of_ne hkn] at hk
    exact hset.sent k dst vs req hk

theorem secluded_serveTransfer (h0 : views 0 = []) (h : Secluded views s) (hr : Recovering views s)
    {k : Nat} {dst : NodeId} {last : Viewstamp} {vid : Nat} :
    Secluded views (s.serveTransfer k dst last vid) := by
  refine h.withCalls h.sent ?_
  intro k' dst' vid' r hk'
  by_cases hkk : k' = k
  · rw [hkk, update_self] at hk'
    injection hk' with h1 h2 h3
    obtain ⟨⟨hsync, _⟩, rfl⟩ := transferreq_some h3
    exact h.handsOver h0 hr hsync
  · rw [update_of_ne hkk] at hk'
    exact h.reply k' dst' vid' r hk'

theorem secluded_step (h0 : views 0 = []) (h : Secluded views s) (hr : Recovering views s)
    {e : Event ρ} (hs : step svc views s e = some s') : Secluded views s' := by
  cases trans_of_step hs with
  | commitChange hc => exact h.quiet (quiet_commitChangeWo hc)
  | @recoveryRetry n hpc => exact h.quiet ((Quiet.refl _).recoveryHead n)
  | @joined n vid nd hpc hc => exact h.quiet ((quiet_commitChangeWo hc).recoveryHead n)
  | joinFails hpc => exact h.quiet (quiet_recovery _ _)
  | @takeInvokeMutex n hpc hi => exact h.setNode le_rfl (h.last n) (h.invoking n)
  | @backupsWake n hpc hb => exact h.quiet (quiet_backupsWake n ((hr.phase n).waiting hpc))
  | @sendTransfer n m hpc =>
    have hset := h.quiet (quiet_recovery (s.nodes n) (.transfer m (some s.nextCall)))
    refine hset.withCalls hset.sent ?_
    intro k dst vid r hk
    by_cases hkn : k = s.nextCall
    · rw [hkn, update_self] at hk
      cases hk
    · rw [update_of_ne hkn] at hk
      exact hset.reply k dst vid r hk
  | transferreq hk => exact secluded_serveTransfer h0 h hr
  | @transferReturn n m k dst vid r hpc hk =>
    have hd := h.reply k dst vid r hk
    obtain ⟨st, hist, heq⟩ := installState_eq svc (s.nodes n) r
    rw [heq]
    exact h.setNode le_rfl (.inr hd) fun _ => hd
  | transferFails hpc => exact h.quiet (quiet_transferFails _ _)
  | @sendDone n m hpc =>
    have hset := h.quiet (quiet_recovery (s.nodes n) (.done m (some s.nextCall)))
    exact hset.withCalls hset.sent hset.reply
  | @transferdonereq k src dst vid hk =>
    have hset := h.quiet (quiet_transferdonereq (s.nodes dst) src vid)
    exact hset.withCalls hset.sent hset.reply
  | @doneReturn n m k ok hpc hk =>
    exact h.quiet (quiet_recoverySynced n ok ((hr.phase n).finishing hpc))
  | @doneFails n m c hpc =>
    exact h.quiet (quiet_recoverySynced n false ((hr.phase n).finishing hpc))
  | @sleepWake n hpc hv => exact h.quiet ((Quiet.refl _).recoveryHead n)
  | @clientInvoke n req _ => exact secluded_clientInvoke h hr n req
  | sendInvoke hinv _ => exact secluded_sendInvoke h hinv
  | invoke hk => exact secluded_serveInvoke h hk
  | invokeReturn hinv _ _ => exact secluded_invokeReturn h hinv
  | @invokeRefused n _ _ _ _ _ _ _ _ =>
    exact h.setNode le_rfl (h.last n) fun hne => absurd rfl hne
  | @invokeFails n _ _ => exact h.setNode le_rfl (h.last n) fun hne => absurd rfl hne

/-- Nobody else has a stamp of the view in which a node serves alone. -/
theorem Deserted.elsewhere (h : Deserted views s y) (hr : Recovering views s)
    (hserve : (s.nodes n).inviewchange = false) :
    HasOther views (s.nodes n).myvs.vid n ∨ y ≠ (s.nodes n).myvs.vid := by
  obtain ⟨_, _, hmy, _, hmem⟩ := (hr.phase n).serving hserve
  rw [← hmy] at hmem
  by_cases ho : HasOther views (s.nodes n).myvs.vid n
  · exact .inl ho
  · right
    rintro rfl
    have := h n hmem ho
    omega

theorem Secluded.last_elsewhere (h : Secluded views s) (hr : Recovering views s) {m : NodeId}
    (hserve : (s.nodes n).inviewchange = false) (hm : m ≠ n) :
    HasOther views (s.nodes n).myvs.vid n ∨
      (s.nodes m).lastMyvs.vid ≠ (s.nodes n).myvs.vid := by
  rcases h.last m with hmem | hd
  · by_cases hv : (s.nodes m).lastMyvs.vid = (s.nodes n).myvs.vid
    · exact .inl ⟨m, hv ▸ hmem, hm⟩
    · exact .inr hv
  · exact hd.elsewhere hr hserve

end Secluded

/-! ## Requests -/

structure SamePlace (nd nd' : Node σ ρ κ) : Prop where
  base : nd'.base = nd.base
  insync : nd'.vidInsync = nd.vidInsync
  commit : nd'.vidCommit = nd.vidCommit
  primary : nd'.primary = nd.primary
  recovery : nd'.recovery = nd.recovery
  view : nd'.inviewchange = nd.inviewchange
  backups : nd'.backups = nd.backups

theorem SamePlace.live (h : SamePlace nd nd') : Live nd' y ↔ Live nd y := by
  constructor
  · rintro ⟨h1, h2, h3⟩
    exact ⟨h.base.symm.trans h1, h.insync.symm.trans h2, h.commit.symm.trans h3⟩
  · rintro ⟨h1, h2, h3⟩
    exact ⟨h.base.trans h1, h.insync.trans h2, h.commit.trans h3⟩

theorem SamePlace.stays (h : SamePlace nd nd') : Stays nd nd' :=
  ⟨h.commit.ge, h.base.ge, fun _ hy => .inr ⟨h.live.mpr hy, h.primary⟩⟩

section Requests

variable {svc : Service σ ρ κ} {views : Nat → List NodeId} {T : Viewstamp → σ}
  {U : Viewstamp → Prop} {s : Sys σ ρ κ}

/-- The node keeps its state and its place in the recovery. -/
theorem Stamped.request (h : Stamped views T U s) (hr : Recovering views s)
    {n : NodeId} {nd : Node σ ρ κ} (hp : SamePlace (s.nodes n) nd)
    (hstate : nd.state = (s.nodes n).state) (hown : U nd.lastMyvs ∧ nd.state = T nd.lastMyvs) :
    Stamped views T U (s.setNode n nd) := by
  refine h.setNode hr hp.stays ?_ hown ?_ ?_ ?_
  · intro y hy
    exact .inl ⟨hp.live.mp hy, hp.primary, hstate⟩
  · rw [hp.base]
    exact h.member n
  · rw [hp.insync, hp.commit, hp.recovery, hp.backups]
    exact h.waiting n
  · rw [hp.commit, hp.primary, hp.view]
    exact h.serving n

/-- A backup executes a request that leaves its state as it is. -/
theorem stamped_serveInvoke (h0 : views 0 = []) (h : Stamped views T U s) (hr : Recovering views s)
    {k : Nat} {dst : NodeId} {vs : Viewstamp} {req : ρ} (hk : s.invokes k = .sent dst vs req)
    (hsame : (s.nodes dst).inviewchange = false → (s.nodes dst).primary ≠ dst →
      vs = (s.nodes dst).myvs → (svc.execute (s.nodes dst).state req).1 = (s.nodes dst).state) :
    Stamped views T U (s.serveInvoke svc k dst vs req) := by
  have hcalls : ∀ {t : Sys σ ρ κ} (b : Bool), Stamped views T U t → t.invokes = s.invokes →
      Stamped views T U { t with
        invokes := update s.invokes k (.replied dst vs req b) } := by
    intro t b ht heq
    refine ht.withCalls ?_ ht.reply ht.done
    intro k' dst' vs' req' hk'
    by_cases hkk : k' = k
    · rw [hkk, update_self] at hk'
      cases hk'
    · rw [update_of_ne hkk] at hk'
      exact h.sent k' dst' vs' req' hk'
  unfold Sys.serveInvoke
  rcases invoke_cases svc dst (s.nodes dst) vs req with heq | ⟨hserve, hprim, hvs, heq⟩ <;> rw [heq]
  · have hnode : s.setNode dst (s.nodes dst) = s := by simp [Sys.setNode]
    refine hcalls false ?_ rfl
    show Stamped views T U (s.setNode dst (s.nodes dst))
    rw [hnode]
    exact h
  · refine hcalls true ?_ rfl
    have hexec := hsame hserve hprim hvs
    have hU := h.sent k dst vs req hk
    have hl := (hr.phase dst).live_of_serving hserve
    obtain ⟨_, _, hmy, _, hmem⟩ := (hr.phase dst).serving hserve
    -- the primary is another member of the view
    have hother : HasOther views (s.nodes dst).myvs.vid dst := by
      refine ⟨(s.nodes dst).primary, ?_, hprim⟩
      rw [hmy]
      refine (hr.phase dst).primaryMem ?_
      intro hz
      rw [hz, h0] at hmem
      cases hmem
    rw [hvs] at hU
    refine h.request hr ⟨rfl, rfl, rfl, rfl, rfl, rfl, rfl⟩ hexec ⟨hU, ?_⟩
    show (svc.execute (s.nodes dst).state req).1 = T (s.nodes dst).myvs
    rw [hexec]
    exact h.agree (s.nodes dst).myvs hU dst hl hother

/-- Whoever is live in the view of a serving primary has synchronised with it. -/
theorem Stamped.backup_agrees (h0 : views 0 = []) (h : Stamped views T U s)
    (hr : Recovering views s) {n : NodeId} (hserve : (s.nodes n).inviewchange = false)
    (hprim : (s.nodes n).primary = n) {m : NodeId} (hm : m ≠ n)
    (hl : Live (s.nodes m) (s.nodes n).myvs.vid) :
    HasOther views (s.nodes n).myvs.vid n ∧ (s.nodes m).state = (s.nodes n).state := by
  have hlive := (hr.phase n).live_of_serving hserve
  obtain ⟨_, _, hmy, _, hmem⟩ := (hr.phase n).serving hserve
  have hne : (s.nodes m).base ≠ 0 := by
    intro hz
    rw [← hmy, ← hl.base, hz, h0] at hmem
    cases hmem
  have hmv : m ∈ views (s.nodes n).myvs.vid := hl.base ▸ h.member m hne
  refine ⟨⟨m, hmv, hm⟩, ?_⟩
  rcases h.serving n hserve hprim m (hmy ▸ hmv) hm with hlt | ⟨_, hmp⟩
  · have := hl.commit
    omega
  · have hpair := (h.pair m _ hl (by rw [hmp]; exact hm.symm)).2
    rw [hmp] at hpair
    exact hpair hlive

/-- The stamps still in use when node `n` takes its next one: alone in its
view, it drops those it has taken there. -/
def StillUsed (views : Nat → List NodeId) (U : Viewstamp → Prop) (s : Sys σ ρ κ) (n : NodeId)
    (vs : Viewstamp) : Prop :=
  U vs ∧ (HasOther views (s.nodes n).myvs.vid n ∨ vs.vid ≠ (s.nodes n).myvs.vid)

/-- A stamp still in use keeps its label when the primary uses its next. -/
theorem Stamped.label_kept (h : Stamped views T U s) (hr : Recovering views s) {n : NodeId}
    (hserve : (s.nodes n).inviewchange = false) {x : σ}
    (hx : HasOther views (s.nodes n).myvs.vid n → x = (s.nodes n).state) {vs : Viewstamp}
    (hU : StillUsed views U s n vs) : update T (s.nodes n).myvs x vs = T vs := by
  have hlive := (hr.phase n).live_of_serving hserve
  by_cases hvs : vs = (s.nodes n).myvs
  · subst hvs
    have ho := hU.2.resolve_right (fun hne => hne rfl)
    rw [update_self, hx ho]
    exact h.agree _ hU.1 n hlive ho
  · exact update_of_ne hvs _ _

/-- The primary takes a new stamp. In a view with other members its state
stays; alone, it may execute the request at once. The stamp is labelled
with the state the primary has then. -/
theorem stamped_newStamp (h0 : views 0 = []) (h : Stamped views T U s) (ha : Secluded views s)
    (hr : Recovering views s) {n : NodeId} {nd : Node σ ρ κ}
    (hserve : (s.nodes n).inviewchange = false) (hprim : (s.nodes n).primary = n)
    (hp : SamePlace (s.nodes n) nd) (hlast : nd.lastMyvs = (s.nodes n).myvs)
    (hstate : HasOther views (s.nodes n).myvs.vid n → nd.state = (s.nodes n).state) :
    Stamped views (update T (s.nodes n).myvs nd.state)
      (fun vs => StillUsed views U s n vs ∨ vs = (s.nodes n).myvs) (s.setNode n nd) := by
  have hlive := (hr.phase n).live_of_serving hserve
  obtain ⟨_, _, hmy, _, hmem⟩ := (hr.phase n).serving hserve
  rw [← hmy] at hmem
  have hself := s.setNode_self n nd
  have hother : ∀ m, m ≠ n → (s.setNode n nd).nodes m = s.nodes m :=
    fun m hm => s.setNode_of_ne nd hm
  have hplace : ∀ m, SamePlace (s.nodes m) ((s.setNode n nd).nodes m) := by
    intro m
    by_cases hm : m = n
    · rw [hm, hself]
      exact hp
    · rw [hother m hm]
      exact ⟨rfl, rfl, rfl, rfl, rfl, rfl, rfl⟩
  have hT : ∀ vs, StillUsed views U s n vs → update T (s.nodes n).myvs nd.state vs = T vs :=
    fun vs hU => h.label_kept hr hserve hstate hU
  -- the node's state is as before wherever another member could compare
  have hsame : ∀ y, Live (s.nodes n) y → HasOther views y n → nd.state = (s.nodes n).state := by
    intro y hy ho
    refine hstate ?_
    rwa [← hlive.base, hy.base]
  have hbackup : ∀ m, m ≠ n → Live (s.nodes m) (s.nodes n).myvs.vid →
      HasOther views (s.nodes n).myvs.vid n ∧ (s.nodes m).state = (s.nodes n).state :=
    fun m hm hl => h.backup_agrees h0 hr hserve hprim hm hl
  constructor
  case own =>
    intro m
    by_cases hm : m = n
    · rw [hm, hself, hlast, update_self]
      exact ⟨.inr rfl, rfl⟩
    · have hU : StillUsed views U s n (s.nodes m).lastMyvs :=
        ⟨(h.own m).1, ha.last_elsewhere hr hserve hm⟩
      rw [hother m hm, hT _ hU]
      exact ⟨.inl hU, (h.own m).2⟩
  case sent =>
    intro k dst vs req hk
    exact .inl ⟨h.sent k dst vs req hk, (ha.sent k dst vs req hk).elsewhere hr hserve⟩
  case reply =>
    intro k dst vid r hk
    obtain ⟨h1, h2, h3⟩ := h.reply k dst vid r hk
    have hU : StillUsed views U s n r.last :=
      ⟨h1, (ha.reply k dst vid r hk).elsewhere hr hserve⟩
    rw [hT _ hU]
    refine ⟨.inl hU, h2, ?_⟩
    intro hl ho
    have hl' := (hplace dst).live.mp hl
    by_cases hd : dst = n
    · subst hd
      rw [hself, hsame vid hl' ho]
      exact h3 hl' ho
    · rw [hother dst hd]
      exact h3 hl' ho
  case agree =>
    intro vs hU m hl ho
    have hl' := (hplace m).live.mp hl
    rcases hU with hU | rfl
    · rw [hT vs hU]
      by_cases hm : m = n
      · subst hm
        rw [hself, hsame _ hl' ho]
        exact h.agree vs hU.1 m hl' ho
      · rw [hother m hm]
        exact h.agree vs hU.1 m hl' ho
    · rw [update_self]
      by_cases hm : m = n
      · rw [hm, hself]
      · obtain ⟨ho', heq⟩ := hbackup m hm hl'
        rw [hother m hm, heq, hstate ho']
  case past =>
    intro vs hU m hm
    refine (hplace m).stays.past ?_
    rcases hU with hU | rfl
    · exact h.past vs hU.1 m hm
    · by_cases hmn : m = n
      · rw [hmn]
        exact .inr hlive
      · rw [hmy] at hm ⊢
        exact (h.serving n hserve hprim m hm hmn).imp id And.left
  case pair =>
    intro b y hl hbp
    have hl' := (hplace b).live.mp hl
    rw [(hplace b).primary] at hbp ⊢
    obtain ⟨h1, h2⟩ := h.pair b y hl' hbp
    by_cases hb : b = n
    · exact absurd (hb ▸ hprim) (hb ▸ hbp)
    rw [hother b hb]
    refine ⟨(hplace _).base ▸ h1, ?_⟩
    intro hlp
    have hlp' := (hplace _).live.mp hlp
    by_cases hpn : (s.nodes b).primary = n
    · rw [hpn] at h2 hlp' ⊢
      have hy : y = (s.nodes n).myvs.vid := hlp'.base.symm.trans hlive.base
      rw [hself, hstate (hbackup b hb (hy ▸ hl')).1]
      exact h2 hlp'
    · rw [hother _ hpn]
      exact h2 hlp'
  case member =>
    intro m hm
    rw [(hplace m).base] at hm ⊢
    exact h.member m hm
  case done =>
    intro k src dst vid hk
    exact (hplace src).stays.settled (h.done k src dst vid hk)
  case waiting =>
    intro p hpc hv b hb hbp
    rw [(hplace p).recovery] at hpc
    rw [(hplace p).insync, (hplace p).commit] at hv
    rw [(hplace p).insync] at hb ⊢
    rw [(hplace p).backups]
    exact (h.waiting p hpc hv b hb hbp).imp id (hplace b).stays.settled
  case serving =>
    intro p hview hpp b hb hbp
    rw [(hplace p).view] at hview
    rw [(hplace p).primary] at hpp
    rw [(hplace p).commit] at hb ⊢
    exact (hplace b).stays.settled (h.serving p hview hpp b hb hbp)

theorem Stamped.withAcked (h : Stamped views T U s) (a : List (Entry ρ κ)) :
    Stamped views T U { s with acked := a } :=
  ⟨h.own, h.sent, h.reply, h.agree, h.past, h.pair, h.member, h.done, h.waiting,
    h.serving⟩

theorem stamped_clientInvoke (h0 : views 0 = []) (h : Stamped views T U s) (ha : Secluded views s)
    (hr : Recovering views s) (n : NodeId) (req : ρ) :
    ∃ T' U', Stamped views T' U' (s.invoked n ((s.nodes n).clientInvoke svc views n req)) := by
  unfold Node.clientInvoke
  split
  · rw [invoked_refused]
    exact ⟨T, U, h⟩
  rename_i hc
  push Not at hc
  obtain ⟨hview, hprim⟩ := hc
  have hserve : (s.nodes n).inviewchange = false := by simpa using hview
  have hmy : (s.nodes n).myvs.vid = (s.nodes n).vidCommit := ((hr.phase n).serving hserve).2.2.1
  rcases invokeLoop_cases svc
    { s.nodes n with
      lastMyvs := (s.nodes n).myvs, myvs := (s.nodes n).myvs.next }
    (s.nodes n).myvs req (views (s.nodes n).vidCommit) with
    ⟨hall, heq⟩ | ⟨_, _, _, _, _, _, heq⟩ <;> rw [heq]
  · refine ⟨_, _, Stamped.withAcked (stamped_newStamp h0 h ha hr hserve hprim ?_ ?_ ?_) _⟩
    · exact ⟨rfl, rfl, rfl, rfl, rfl, rfl, rfl⟩
    · rfl
    · rintro ⟨m, hm, hmn⟩
      rw [hmy] at hm
      exact absurd ((hall m hm).trans hprim) hmn
  · refine ⟨_, _, Stamped.withAcked (stamped_newStamp h0 h ha hr hserve hprim ?_ ?_ ?_) _⟩
    · exact ⟨rfl, rfl, rfl, rfl, rfl, rfl, rfl⟩
    · rfl
    · exact fun _ => rfl

/-- The request goes on to the next backup, or is executed without a change
of the state. -/
theorem stamped_invokeReturn (h : Stamped views T U s)
    (hr : Recovering views s) {n : NodeId} {inv : Invoking ρ}
    (hsame : (∀ m ∈ inv.rest, m = (s.nodes n).primary) →
      (svc.execute (s.nodes n).state inv.req).1 = (s.nodes n).state) :
    Stamped views T U
      (s.invoked n ((s.nodes n).invokeLoop svc inv.vs inv.req inv.rest)) := by
  rcases invokeLoop_cases svc (s.nodes n) inv.vs inv.req inv.rest with
    ⟨hall, heq⟩ | ⟨_, _, _, _, _, _, heq⟩ <;> rw [heq]
  · have hexec := hsame hall
    refine Stamped.withAcked (h.request hr ?_ ?_ ?_) _
    · exact ⟨rfl, rfl, rfl, rfl, rfl, rfl, rfl⟩
    · exact hexec
    · exact ⟨(h.own n).1, hexec.trans (h.own n).2⟩
  · refine Stamped.withAcked (h.request hr ?_ ?_ ?_) _
    · exact ⟨rfl, rfl, rfl, rfl, rfl, rfl, rfl⟩
    · rfl
    · exact h.own n

theorem stamped_sendInvoke (h : Stamped views T U s) (hr : Recovering views s)
    (n : NodeId) (inv : Invoking ρ) : Stamped views T U (s.sendInvoke n inv) := by
  have hk : Stamped views T U (s.setNode n
      { s.nodes n with invoking := some { inv with call := some s.nextCall } }) :=
    h.request hr ⟨rfl, rfl, rfl, rfl, rfl, rfl, rfl⟩ rfl (h.own n)
  refine hk.withCalls ?_ hk.reply hk.done
  intro k dst vs req hkv
  by_cases hkn : k = s.nextCall
  · rw [hkn, update_self] at hkv
    cases hkv
    exact (h.own n).1
  · rw [update_of_ne hkn] at hkv
    exact h.sent k dst vs req hkv

theorem stamped_giveUp (h : Stamped views T U s) (hr : Recovering views s)
    (n : NodeId) : Stamped views T U (s.setNode n { s.nodes n with invoking := none }) :=
  h.request hr ⟨rfl, rfl, rfl, rfl, rfl, rfl, rfl⟩ rfl (h.own n)

end Requests

/-! ## Equal stamps, equal states -/

/-- A request that goes to backups is executed, there and at the primary,
only where it leaves the state of the service as it is. -/
def KeepsStateWithBackups (svc : Service σ ρ κ) (s : Sys σ ρ κ) : Event ρ → Prop
  | .invoke k =>
    match s.invokes k with
    | .sent dst vs req => (s.nodes dst).inviewchange = false → (s.nodes dst).primary ≠ dst →
        vs = (s.nodes dst).myvs → (svc.execute (s.nodes dst).state req).1 = (s.nodes dst).state
    | _ => True
  | .invokeReturn n => ∀ inv ∈ (s.nodes n).invoking, (∀ m ∈ inv.rest, m = (s.nodes n).primary) →
      (svc.execute (s.nodes n).state inv.req).1 = (s.nodes n).state
  | _ => True

instance [DecidableEq σ] (svc : Service σ ρ κ) (s : Sys σ ρ κ) (e : Event ρ) :
    Decidable (KeepsStateWithBackups svc s e) := by
  rcases e <;> unfold KeepsStateWithBackups <;> try infer_instance
  rename_i k
  dsimp only
  rcases s.invokes k <;> infer_instance

section Run

variable {svc : Service σ ρ κ} {views : Nat → List NodeId} {s s' : Sys σ ρ κ}

theorem stamped_step (h0 : views 0 = []) {T : Viewstamp → σ} {U : Viewstamp → Prop}
    (h : Stamped views T U s) (ha : Secluded views s) (hr : Recovering views s) {e : Event ρ}
    (hok : KeepsStateWithBackups svc s e) (hs : step svc views s e = some s') :
    ∃ T' U', Stamped views T' U' s' := by
  cases trans_of_step hs with
  | commitChange hc => exact ⟨T, U, stamped_commitChange h hr hc⟩
  | @recoveryRetry n hpc =>
    have hphase := (hr.phase n).pc
    rw [hpc] at hphase
    exact ⟨T, U, h.quietMove hr ((hr.phase n).recoveryRetry h0 hpc)
      ((Quiet.refl _).recoveryHead n) (recoveryHead_not_waitBackups _ n)
      ((recoveryHead_inviewchange _ n).trans hphase.1)⟩
  | @joined n vid nd hpc hc =>
    have hphase := (hr.phase n).pc
    rw [hpc] at hphase
    have hview : nd.inviewchange = true := by
      cases hv : nd.inviewchange with
      | true => rfl
      | false => cases hphase.1.symm.trans (commitChangeWo_serves hc hv)
    exact ⟨T, U, h.quietMove hr ((hr.phase n).joined h0 hpc hc)
      ((quiet_commitChangeWo hc).recoveryHead n) (recoveryHead_not_waitBackups _ n)
      ((recoveryHead_inviewchange _ n).trans hview)⟩
  | @joinFails n hpc =>
    have hphase := (hr.phase n).pc
    rw [hpc] at hphase
    exact ⟨T, U, h.quietMove hr ((hr.phase n).joinFails hpc) (quiet_recovery _ _) (by simp)
      hphase.1⟩
  | takeInvokeMutex hpc _ => exact ⟨T, U, stamped_syncWithBackups h hr hpc⟩
  | backupsWake hpc hb => exact ⟨T, U, stamped_backupsWake h0 h hr hpc hb⟩
  | sendTransfer hpc => exact ⟨T, U, stamped_sendTransfer h hr hpc⟩
  | transferreq hk => exact ⟨T, U, stamped_serveTransfer h⟩
  | transferReturn hpc hk => exact ⟨T, U, stamped_installState h hr hpc hk⟩
  | @transferFails n m c hpc =>
    have hphase := (hr.phase n).pc
    rw [hpc] at hphase
    have hq := quiet_transferFails (s.nodes n) m
    refine ⟨T, U, h.quietMove hr ((hr.phase n).transferFails hpc) hq ?_ ?_⟩
    · unfold Node.transferFails
      split <;> simp
    · unfold Node.transferFails
      split <;> exact hphase.1.view
  | sendDone hpc => exact ⟨T, U, stamped_sendDone h hr hpc⟩
  | transferdonereq hk => exact ⟨T, U, stamped_transferdonereq h hr hk⟩
  | doneReturn hpc _ | doneFails hpc => exact ⟨T, U, stamped_doneEnds h0 h hr hpc _⟩
  | @sleepWake n hpc hv =>
    have hview : (s.nodes n).inviewchange = true := by
      cases hi : (s.nodes n).inviewchange with
      | true => rfl
      | false => exact absurd ((hr.phase n).serving hi).2.1 hv
    exact ⟨T, U, h.quietMove hr ((hr.phase n).sleepWake h0 hpc hv)
      ((Quiet.refl _).recoveryHead n) (recoveryHead_not_waitBackups _ n)
      ((recoveryHead_inviewchange _ n).trans hview)⟩
  | @clientInvoke n req _ => exact stamped_clientInvoke h0 h ha hr n req
  | @sendInvoke n inv _ _ => exact ⟨T, U, stamped_sendInvoke h hr n inv⟩
  | invoke hk =>
    unfold KeepsStateWithBackups at hok
    simp only [hk] at hok
    exact ⟨T, U, stamped_serveInvoke h0 h hr hk hok⟩
  | invokeReturn hinv _ _ => exact ⟨T, U, stamped_invokeReturn h hr (hok _ hinv)⟩
  | @invokeRefused n _ _ _ _ _ _ _ _ | @invokeFails n _ _ => exact ⟨T, U, stamped_giveUp h hr n⟩

end Run

def secondJoins : Nat → List NodeId
  | 0 => []
  | 1 => [['a']]
  | _ => [['a'], ['b']]

/-- Node `a` starts view 1, executes the request `r` alone, and `b` joins it
in view 2 with its state. -/
def runToSecond (r : Nat) : List (Event Nat) :=
  [.commitChange ['a'] 1, .recoveryRetry ['a'], .takeInvokeMutex ['a'], .backupsWake ['a'],
    .clientInvoke ['a'] r, .commitChange ['a'] 2, .sleepWake ['a'], .takeInvokeMutex ['a'],
    .recoveryRetry ['b'], .joined ['b'] 2, .sendTransfer ['b'], .transferreq 0,
    .transferReturn ['b'], .sendDone ['b'], .transferdonereq 1, .doneReturn ['b'],
    .backupsWake ['a']]

end Yfs.Rsm
