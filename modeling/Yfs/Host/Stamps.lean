/-
Yfs.Host.Stamps — the viewstamps of one node (rsm.cc: `recovery`,
`sync_with_backups`, `commit_change_wo`, `client_invoke`, `invoke`).

The steps are those of `nodeStep`, with two things it leaves open. The
recovery thread returns from `pthread_cond_wait` only after `recovery_cond`
was signalled while it waited, by `commit_change_wo` or by
`transferdonereq`; and `seqno` is an unsigned int. What the config layer
says about views may change at any time.

A node that serves requests has its recovery thread asleep, and only the
commit of a later view wakes it (`Waiting`). So `myvs` is set to (v,1) once
in a view v, and from there it counts (`Stamped`). The stamps of a view are
1, 2, 3 and so on (`stamps_in_order`), up to the point where `seqno` comes
back to 0 (`stamps_wrap`).
-/
import Yfs.Host.Node

namespace Yfs.Host.Stamps

open Yfs.Run
open Yfs.Paxos (NodeId)
open Yfs.Rsm (Node Service Viewstamp RecPc register)

variable {σ ρ κ : Type}

/-! ## The node -/

/-- A node with what its config says now; `woken` if the recovery thread
waits and has been signalled. `executed` are the stamps of the requests
`invoke` has executed, `assigned` those `client_invoke` has taken. -/
structure Machine (σ ρ κ : Type) where
  node : Node σ ρ κ
  views : Nat → List NodeId
  woken : Bool
  executed : List Viewstamp
  assigned : List Viewstamp

def Machine.new (first : NodeId) (st : σ) : Machine σ ρ κ :=
  ⟨Node.new first st, fun _ => [], false, [], []⟩

inductive Event (σ ρ κ : Type) where
  | config (views : Nat → List NodeId)
  | commitChange (vid : Nat)
  | joined (vid : Nat)
  | node (e : NodeEvent σ ρ κ)

def waits : RecPc → Bool
  | .sleeping => true
  | .waitBackups => true
  | _ => false

/-- `pthread_cond_signal(&recovery_cond)`; only this one thread waits. -/
def Machine.signal (m : Machine σ ρ κ) : Machine σ ρ κ :=
  { m with woken := m.woken || waits m.node.recovery }

/-- The loop of `sync_with_backups` at its condition: what follows it, or a
wait. -/
def Machine.syncLoop (me : NodeId) (m : Machine σ ρ κ) (nd : Node σ ρ κ) : Machine σ ρ κ :=
  { m with
    node := if nd.backupsSynced = true then
        { nd with insync := false }.recoverySynced m.views me true
      else nd
    woken := false }

def Machine.nodeStep (svc : Service σ ρ κ) (me : NodeId) (m : Machine σ ρ κ) :
    NodeEvent σ ρ κ → Option (Machine σ ρ κ)
  | .takeInvokeMutex =>
    if m.node.recovery = .invokeMutex ∧ m.node.invoking.isNone then
      some (m.syncLoop me (m.node.syncWithBackups m.views))
    else none
  | .backupsWake =>
    if m.node.recovery = .waitBackups ∧ m.woken = true then some (m.syncLoop me m.node) else none
  | .sleepWake =>
    if m.node.recovery = .sleeping ∧ m.woken = true then
      some { m with node := m.node.recoveryHead m.views me, woken := false }
    else none
  | .transferdonereq n vid =>
    if (m.node.transferdonereq n vid).1 = true ∧ (m.node.transferdonereq n vid).2.backups = [] then
      some { m with node := (m.node.transferdonereq n vid).2 }.signal
    else some { m with node := (m.node.transferdonereq n vid).2 }
  | .clientInvoke req =>
    if m.node.invoking.isNone then
      some { m with
        node := (m.node.clientInvoke svc m.views me req).2
        assigned := if m.node.inviewchange = true ∨ m.node.primary ≠ me then m.assigned
          else m.assigned ++ [m.node.myvs] }
    else none
  | .invoke vs req =>
    some { m with
      node := (m.node.invoke svc me vs req).2
      executed := if (m.node.invoke svc me vs req).1 = true then m.executed ++ [vs]
        else m.executed }
  | e => (Host.nodeStep svc m.views me m.node e).map fun nd => { m with node := nd }

def Machine.step (svc : Service σ ρ κ) (me : NodeId) (m : Machine σ ρ κ) :
    Event σ ρ κ → Option (Machine σ ρ κ)
  | .config views => some { m with views := views }
  | .commitChange vid =>
    (m.node.commitChangeWo m.views vid).map fun nd =>
      if m.node.vidCommit < vid then { m with node := nd }.signal else { m with node := nd }
  | .joined vid =>
    -- the commit of the recovery thread itself: nobody waits
    if m.node.recovery = .joining then
      (m.node.commitChangeWo m.views vid).map fun nd =>
        { m with node := nd.recoveryHead m.views me }
    else none
  | .node e => m.nodeStep svc me e

/-! ## The steps that are as in `nodeStep` -/

def plain : NodeEvent σ ρ κ → Bool
  | .takeInvokeMutex => false
  | .backupsWake => false
  | .sleepWake => false
  | .transferdonereq _ _ => false
  | .clientInvoke _ => false
  | .invoke _ _ => false
  | _ => true

/-- The recovery thread goes on to something that is no wait, or stays where
it is; view and stamp stay. -/
structure Drifts (nd nd' : Node σ ρ κ) : Prop where
  recovery : nd'.recovery = nd.recovery ∨
    (waits nd.recovery = false ∧ waits nd'.recovery = false)
  insync : nd'.insync = nd.insync
  inviewchange : nd'.inviewchange = nd.inviewchange
  vidCommit : nd'.vidCommit = nd.vidCommit
  vidInsync : nd'.vidInsync = nd.vidInsync
  myvs : nd'.myvs = nd.myvs
  primary : nd'.primary = nd.primary

/-- Everything such a step can do. -/
theorem plain_cases {svc : Service σ ρ κ} {views : Nat → List NodeId} {me : NodeId}
    {nd nd' : Node σ ρ κ} {e : NodeEvent σ ρ κ} (hplain : plain e = true)
    (hs : Host.nodeStep svc views me nd e = some nd') :
    Drifts nd nd' ∨ (waits nd.recovery = false ∧
      (nd' = nd.recoveryHead views me ∨ ∃ r, nd' = nd.recoverySynced views me r)) := by
  cases e with
  | recoveryRetry =>
    obtain ⟨hrec, rfl⟩ := of_guard hs
    exact .inr ⟨by rw [hrec]; rfl, .inl rfl⟩
  | joinFails =>
    obtain ⟨hrec, rfl⟩ := of_guard hs
    exact .inl ⟨.inr ⟨by rw [hrec]; rfl, rfl⟩, rfl, rfl, rfl, rfl, rfl, rfl⟩
  | sendTransfer k =>
    simp only [Host.nodeStep] at hs
    split at hs
    · rename_i hrec
      cases hs
      exact .inl ⟨.inr ⟨by rw [hrec]; rfl, rfl⟩, rfl, rfl, rfl, rfl, rfl, rfl⟩
    · cases hs
  | transferReply r =>
    simp only [Host.nodeStep] at hs
    split at hs
    · rename_i hrec
      cases hs
      obtain ⟨st, hist, hinstall⟩ := Rsm.installState_eq svc nd r
      rw [hinstall]
      exact .inl ⟨.inr ⟨by rw [hrec]; rfl, rfl⟩, rfl, rfl, rfl, rfl, rfl, rfl⟩
    · cases hs
  | transferFails =>
    simp only [Host.nodeStep] at hs
    split at hs
    · rename_i hrec
      cases hs
      unfold Node.transferFails
      split
      · exact .inl ⟨.inr ⟨by rw [hrec]; rfl, rfl⟩, rfl, rfl, rfl, rfl, rfl, rfl⟩
      · exact .inl ⟨.inr ⟨by rw [hrec]; rfl, rfl⟩, rfl, rfl, rfl, rfl, rfl, rfl⟩
    · cases hs
  | sendDone k =>
    simp only [Host.nodeStep] at hs
    split at hs
    · rename_i hrec
      cases hs
      exact .inl ⟨.inr ⟨by rw [hrec]; rfl, rfl⟩, rfl, rfl, rfl, rfl, rfl, rfl⟩
    · cases hs
  | doneReply ok =>
    simp only [Host.nodeStep] at hs
    split at hs
    · rename_i hrec
      cases hs
      exact .inr ⟨by rw [hrec]; rfl, .inr ⟨ok, rfl⟩⟩
    · cases hs
  | sendInvoke k =>
    simp only [Host.nodeStep] at hs
    split at hs
    · simp only [Option.ite_none_right_eq_some, Option.some.injEq] at hs
      obtain ⟨-, rfl⟩ := hs
      exact .inl ⟨.inl rfl, rfl, rfl, rfl, rfl, rfl, rfl⟩
    · cases hs
  | invokeReply ok =>
    simp only [Host.nodeStep] at hs
    split at hs
    · rename_i inv hinv
      split at hs
      · cases hs
        obtain ⟨hprimary, hsync, hchange, hcommit, hinsync, hmyvs, -, hrec, -, -⟩ :=
          Rsm.invokeLoop_fields svc nd inv.vs inv.req inv.rest
        exact .inl ⟨.inl hrec, hsync, hchange, hcommit, hinsync, hmyvs, hprimary⟩
      · cases hs
        exact .inl ⟨.inl rfl, rfl, rfl, rfl, rfl, rfl, rfl⟩
    · cases hs
  | takeInvokeMutex | backupsWake | sleepWake | transferdonereq n vid | clientInvoke req
  | invoke vs req => cases hplain

/-! ## When the recovery thread waits -/

/-- What the recovery thread is doing, and what that says about the node;
`b` says whether it has been signalled. -/
structure Waiting (nd : Node σ ρ κ) (b : Bool) : Prop where
  insync : nd.insync = true → nd.recovery = .waitBackups
  woken : b = true → waits nd.recovery = true
  asleep : nd.recovery = .sleeping → (b = true ↔ nd.vidInsync ≠ nd.vidCommit)
  serving : nd.inviewchange = false → nd.recovery = .sleeping ∧ b = false
  le : nd.vidInsync ≤ nd.vidCommit

namespace Waiting

variable {nd nd' : Node σ ρ κ} {b : Bool} {views : Nat → List NodeId} {me : NodeId}

theorem insync_false (h : Waiting nd b) (hr : nd.recovery ≠ .waitBackups) : nd.insync = false := by
  by_contra hne
  exact hr (h.insync (by simpa using hne))

theorem changing (h : Waiting nd b) (hr : nd.recovery ≠ .sleeping ∨ b = true) :
    nd.inviewchange = true := by
  by_contra hne
  obtain ⟨hsleep, hb⟩ := h.serving (by simpa using hne)
  rcases hr with hr | hr
  · exact hr hsleep
  · rw [hb] at hr
    cases hr

theorem woken_false (h : Waiting nd b) (hr : waits nd.recovery = false) : b = false := by
  by_contra hne
  rw [h.woken (by simpa using hne)] at hr
  cases hr

/-- A step that leaves the recovery thread where it is. -/
theorem same (h : Waiting nd b) (hsync : nd'.insync = nd.insync)
    (hchange : nd'.inviewchange = nd.inviewchange) (hcommit : nd'.vidCommit = nd.vidCommit)
    (hinsync : nd'.vidInsync = nd.vidInsync) (hrec : nd'.recovery = nd.recovery) :
    Waiting nd' b := by
  constructor
  · rw [hsync, hrec]
    exact h.insync
  · rw [hrec]
    exact h.woken
  · rw [hrec, hcommit, hinsync]
    exact h.asleep
  · rw [hchange, hrec]
    exact h.serving
  · rw [hcommit, hinsync]
    exact h.le

/-- The recovery thread goes on, with a view change under way. -/
theorem busy (hsync : nd.insync = false) (hchange : nd.inviewchange = true)
    (hrec : waits nd.recovery = false) (hle : nd.vidInsync ≤ nd.vidCommit) :
    Waiting nd false where
  insync h := by rw [hsync] at h; cases h
  woken h := by cases h
  asleep h := by rw [h] at hrec; cases hrec
  serving h := by rw [hchange] at h; cases h
  le := hle

theorem recoveryHead (hsync : nd.insync = false) (hchange : nd.inviewchange = true)
    (hle : nd.vidInsync ≤ nd.vidCommit) : Waiting (nd.recoveryHead views me) false := by
  unfold Node.recoveryHead
  split
  · split
    · exact busy hsync hchange rfl le_rfl
    · exact busy hsync hchange rfl le_rfl
  · exact busy hsync hchange rfl hle

theorem recoverySynced (hsync : nd.insync = false) (hchange : nd.inviewchange = true)
    (hle : nd.vidInsync ≤ nd.vidCommit) (r : Bool) :
    Waiting (nd.recoverySynced views me r) false := by
  unfold Node.recoverySynced
  split
  · exact recoveryHead hsync hchange hle
  · rename_i heq
    rw [not_not] at heq
    split
    · exact ⟨by simp [hsync], nofun, by simp [heq], by simp, hle⟩
    · exact ⟨by simp [hsync], nofun, by simp [heq], by simp [hchange], hle⟩

/-- A later view: whoever waits is signalled. -/
theorem commit (h : Waiting nd b) {vid : Nat} {p : NodeId} (hlt : nd.vidCommit < vid) :
    Waiting { nd with vidCommit := vid, inviewchange := true, primary := p }
      (b || waits nd.recovery) where
  insync := h.insync
  woken hb := by
    rcases Bool.or_eq_true_iff.mp hb with hb | hb
    · exact h.woken hb
    · exact hb
  asleep hsleep := by
    have hle := h.le
    have hsleep' : nd.recovery = .sleeping := hsleep
    have hne : nd.vidInsync ≠ vid := by omega
    simp [hsleep', waits, hne]
  serving := nofun
  le := by
    have hle := h.le
    dsimp only
    omega

/-- A signal for a thread that waits for its backups, or does not wait. -/
theorem signal (h : Waiting nd b) (hrec : nd.recovery ≠ .sleeping) :
    Waiting nd (b || waits nd.recovery) where
  insync := h.insync
  woken hb := by
    rcases Bool.or_eq_true_iff.mp hb with hb | hb
    · exact h.woken hb
    · exact hb
  asleep hsleep := absurd hsleep hrec
  serving hserve := absurd (h.serving hserve).1 hrec
  le := h.le

end Waiting

theorem Waiting.drift {nd nd' : Node σ ρ κ} {b : Bool} (h : Waiting nd b) (hd : Drifts nd nd') :
    Waiting nd' b := by
  rcases hd.recovery with hrec | ⟨hrec, hrec'⟩
  · exact h.same hd.insync hd.inviewchange hd.vidCommit hd.vidInsync hrec
  · rw [h.woken_false hrec]
    apply Waiting.busy _ _ hrec'
    · rw [hd.vidCommit, hd.vidInsync]
      exact h.le
    · rw [hd.insync]
      exact h.insync_false fun heq => by rw [heq] at hrec; cases hrec
    · rw [hd.inviewchange]
      exact h.changing (.inl fun heq => by rw [heq] at hrec; cases hrec)

section Steps

variable {svc : Service σ ρ κ} {me : NodeId} {m m' : Machine σ ρ κ}

theorem waiting_syncLoop {nd : Node σ ρ κ} (hrec : nd.recovery = .waitBackups)
    (hchange : nd.inviewchange = true) (hle : nd.vidInsync ≤ nd.vidCommit) :
    Waiting (m.syncLoop me nd).node (m.syncLoop me nd).woken := by
  simp only [Machine.syncLoop]
  split
  · have hsync : ({ nd with insync := false } : Node σ ρ κ).insync = false := rfl
    exact Waiting.recoverySynced hsync hchange hle true
  · exact ⟨fun _ => hrec, nofun, by simp [hrec], by simp [hchange], hle⟩

/-- A request moves neither the recovery thread nor the view. -/
theorem Waiting.clientInvoke {nd : Node σ ρ κ} {b : Bool} {views : Nat → List NodeId}
    (h : Waiting nd b) (req : ρ) : Waiting (nd.clientInvoke svc views me req).2 b := by
  unfold Node.clientInvoke
  split
  · exact h.same rfl rfl rfl rfl rfl
  · obtain ⟨-, hsync, hchange, hcommit, hinsync, -, -, hrec, -, -⟩ :=
      Rsm.invokeLoop_fields svc
        { nd with lastMyvs := nd.myvs, myvs := nd.myvs.next } nd.myvs req
        (views nd.vidCommit)
    exact h.same hsync hchange hcommit hinsync hrec

theorem Waiting.invoke {nd : Node σ ρ κ} {b : Bool} (h : Waiting nd b) (vs : Viewstamp) (req : ρ) :
    Waiting (nd.invoke svc me vs req).2 b := by
  unfold Node.invoke
  split
  · exact h.same rfl rfl rfl rfl rfl
  · exact h.same rfl rfl rfl rfl rfl

end Steps

/-! ## The stamps of a view -/

/-- The stamps of view `v`, in order. -/
def inView (l : List Viewstamp) (v : Nat) : List Viewstamp := l.filter fun vs => vs.vid = v

def Consecutive (l : List Viewstamp) : Prop :=
  ∀ v, inView l v = (List.range (inView l v).length).map fun i => ⟨v, (i + 1) % 2 ^ 32⟩

theorem Consecutive.snoc {l : List Viewstamp} (h : Consecutive l) (v : Nat) :
    Consecutive (l ++ [⟨v, ((inView l v).length + 1) % 2 ^ 32⟩]) := by
  intro u
  by_cases huv : v = u
  · subst huv
    have happend : inView (l ++ [⟨v, ((inView l v).length + 1) % 2 ^ 32⟩]) v =
        inView l v ++ [⟨v, ((inView l v).length + 1) % 2 ^ 32⟩] := by
      simp [inView]
    rw [happend, List.length_append, List.length_singleton, List.range_succ, List.map_append,
      ← h v]
    rfl
  · have hsame : inView (l ++ [⟨v, ((inView l v).length + 1) % 2 ^ 32⟩]) u = inView l u := by
      simp [inView, huv]
    rw [hsame]
    exact h u

/-- Both lists count; nothing in them is of a view that is still to come;
and `myvs` is the next stamp of a node that serves requests. -/
structure Stamped (me : NodeId) (nd : Node σ ρ κ) (ex asg : List Viewstamp) : Prop where
  executed : Consecutive ex
  assigned : Consecutive asg
  past : ∀ vs, vs ∈ ex ∨ vs ∈ asg →
    vs.vid < nd.vidCommit ∨ (vs.vid = nd.vidCommit ∧ nd.inviewchange = false)
  next : nd.inviewchange = false → nd.myvs = ⟨nd.vidCommit,
    ((inView (if nd.primary = me then asg else ex) nd.vidCommit).length + 1) % 2 ^ 32⟩

namespace Stamped

variable {svc : Service σ ρ κ} {me : NodeId} {nd nd' : Node σ ρ κ} {ex asg : List Viewstamp}
  {views : Nat → List NodeId}

theorem same (h : Stamped me nd ex asg) (hchange : nd'.inviewchange = nd.inviewchange)
    (hcommit : nd'.vidCommit = nd.vidCommit) (hmyvs : nd'.myvs = nd.myvs)
    (hprimary : nd'.primary = nd.primary) : Stamped me nd' ex asg := by
  refine ⟨h.executed, h.assigned, ?_, ?_⟩
  · rw [hcommit, hchange]
    exact h.past
  · rw [hcommit, hchange, hmyvs, hprimary]
    exact h.next

theorem recoveryHead (h : Stamped me nd ex asg) : Stamped me (nd.recoveryHead views me) ex asg := by
  unfold Node.recoveryHead
  split
  · split
    · exact h.same rfl rfl rfl rfl
    · exact h.same rfl rfl rfl rfl
  · exact h.same rfl rfl rfl rfl

/-- The count of a view starts here, and nowhere else. -/
theorem recoverySynced (h : Stamped me nd ex asg) (hchange : nd.inviewchange = true) (r : Bool) :
    Stamped me (nd.recoverySynced views me r) ex asg := by
  have hpast : ∀ vs, vs ∈ ex ∨ vs ∈ asg → vs.vid < nd.vidCommit := by
    intro vs hvs
    simpa [hchange] using h.past vs hvs
  unfold Node.recoverySynced
  split
  · exact h.recoveryHead
  · split
    · refine ⟨h.executed, h.assigned, fun vs hvs => .inl (hpast vs hvs), fun _ => ?_⟩
      have hnone : ∀ l, (∀ vs ∈ l, vs ∈ ex ∨ vs ∈ asg) → inView l nd.vidCommit = [] := by
        intro l hl
        rw [inView, List.filter_eq_nil_iff]
        intro vs hvs
        have hlt := hpast vs (hl vs hvs)
        simp only [decide_eq_true_eq]
        omega
      split
      · rw [hnone asg fun _ => .inr]
        rfl
      · rw [hnone ex fun _ => .inl]
        rfl
    · exact h.same rfl rfl rfl rfl

theorem commit (h : Stamped me nd ex asg) {vid : Nat} {p : NodeId} (hlt : nd.vidCommit < vid) :
    Stamped me { nd with vidCommit := vid, inviewchange := true, primary := p } ex asg := by
  refine ⟨h.executed, h.assigned, fun vs hvs => .inl ?_, nofun⟩
  have hpast := h.past vs hvs
  dsimp only
  omega

/-- A stamp is used: it goes to the list of the node's role, and `myvs` to
the stamp after it. -/
theorem counted (h : Stamped me nd ex asg) (hserve : nd.inviewchange = false)
    (hchange : nd'.inviewchange = nd.inviewchange) (hcommit : nd'.vidCommit = nd.vidCommit)
    (hprimary : nd'.primary = nd.primary)
    (hmyvs : nd'.myvs = nd.myvs.next) :
    Stamped me nd' (if nd.primary = me then ex else ex ++ [nd.myvs])
      (if nd.primary = me then asg ++ [nd.myvs] else asg) := by
  have hnext := h.next hserve
  have hcount : ∀ l : List Viewstamp,
      nd.myvs = ⟨nd.vidCommit, ((inView l nd.vidCommit).length + 1) % 2 ^ 32⟩ →
      nd'.myvs = ⟨nd'.vidCommit,
        ((inView (l ++ [nd.myvs]) nd'.vidCommit).length + 1) % 2 ^ 32⟩ := by
    intro l hl
    have hin : inView (l ++ [nd.myvs]) nd.vidCommit = inView l nd.vidCommit ++ [nd.myvs] := by
      rw [hl]
      simp [inView]
    rw [hmyvs, hcommit, hin, List.length_append, List.length_singleton, hl, Viewstamp.next,
      Nat.mod_add_mod]
  have hpast : ∀ vs, vs ∈ ex ∨ vs ∈ asg ∨ vs = nd.myvs →
      vs.vid < nd'.vidCommit ∨ (vs.vid = nd'.vidCommit ∧ nd'.inviewchange = false) := by
    rw [hcommit, hchange]
    rintro vs (hvs | hvs | rfl)
    · exact h.past vs (.inl hvs)
    · exact h.past vs (.inr hvs)
    · exact .inr ⟨by rw [hnext], hserve⟩
  by_cases hme : nd.primary = me
  · simp only [if_pos hme] at hnext ⊢
    refine ⟨h.executed, hnext ▸ h.assigned.snoc nd.vidCommit, fun vs hvs => hpast vs ?_, ?_⟩
    · simpa using hvs
    · intro _
      rw [hprimary, if_pos hme]
      exact hcount asg hnext
  · simp only [if_neg hme] at hnext ⊢
    refine ⟨hnext ▸ h.executed.snoc nd.vidCommit, h.assigned, fun vs hvs => hpast vs ?_, ?_⟩
    · simp only [List.mem_append, List.mem_singleton] at hvs
      tauto
    · intro _
      rw [hprimary, if_neg hme]
      exact hcount ex hnext

theorem assign (h : Stamped me nd ex asg) (hserve : nd.inviewchange = false)
    (hme : nd.primary = me) (hchange : nd'.inviewchange = nd.inviewchange)
    (hcommit : nd'.vidCommit = nd.vidCommit) (hprimary : nd'.primary = nd.primary)
    (hmyvs : nd'.myvs = nd.myvs.next) :
    Stamped me nd' ex (asg ++ [nd.myvs]) := by
  have hcounted := h.counted hserve hchange hcommit hprimary hmyvs
  simpa only [if_pos hme] using hcounted

theorem execute (h : Stamped me nd ex asg) (hserve : nd.inviewchange = false)
    (hme : nd.primary ≠ me) (hchange : nd'.inviewchange = nd.inviewchange)
    (hcommit : nd'.vidCommit = nd.vidCommit) (hprimary : nd'.primary = nd.primary)
    (hmyvs : nd'.myvs = nd.myvs.next) :
    Stamped me nd' (ex ++ [nd.myvs]) asg := by
  have hcounted := h.counted hserve hchange hcommit hprimary hmyvs
  simpa only [if_neg hme] using hcounted

end Stamped

/-! ## Runs -/

structure Inv (me : NodeId) (m : Machine σ ρ κ) : Prop where
  waiting : Waiting m.node m.woken
  stamped : Stamped me m.node m.executed m.assigned

section Runs

variable {svc : Service σ ρ κ} {me : NodeId} {m m' : Machine σ ρ κ}

theorem inv_new (first : NodeId) (st : σ) : Inv me (Machine.new first st : Machine σ ρ κ) where
  waiting := ⟨nofun, nofun, nofun, nofun, le_rfl⟩
  stamped := ⟨fun _ => rfl, fun _ => rfl, by simp [Machine.new], nofun⟩

theorem Inv.drift (h : Inv me m) {nd : Node σ ρ κ} (hd : Drifts m.node nd) :
    Inv me { m with node := nd } :=
  ⟨h.waiting.drift hd, h.stamped.same hd.inviewchange hd.vidCommit hd.myvs hd.primary⟩

/-- Where the recovery thread does not wait, a view change is under way. -/
theorem Inv.on_the_way (h : Inv me m) (hrec : waits m.node.recovery = false) :
    m.woken = false ∧ m.node.insync = false ∧ m.node.inviewchange = true := by
  refine ⟨h.waiting.woken_false hrec, h.waiting.insync_false ?_, h.waiting.changing (.inl ?_)⟩
  · intro heq
    rw [heq] at hrec
    cases hrec
  · intro heq
    rw [heq] at hrec
    cases hrec

theorem Inv.recoveryHead (h : Inv me m) (hrec : waits m.node.recovery = false) :
    Inv me { m with node := m.node.recoveryHead m.views me } := by
  obtain ⟨hwoken, hsync, hchange⟩ := h.on_the_way hrec
  refine ⟨?_, h.stamped.recoveryHead⟩
  rw [hwoken]
  exact Waiting.recoveryHead hsync hchange h.waiting.le

theorem Inv.recoverySynced (h : Inv me m) (hrec : waits m.node.recovery = false) (r : Bool) :
    Inv me { m with node := m.node.recoverySynced m.views me r } := by
  obtain ⟨hwoken, hsync, hchange⟩ := h.on_the_way hrec
  refine ⟨?_, h.stamped.recoverySynced hchange r⟩
  rw [hwoken]
  exact Waiting.recoverySynced hsync hchange h.waiting.le r

theorem inv_syncLoop {nd : Node σ ρ κ} (hrec : nd.recovery = .waitBackups)
    (hchange : nd.inviewchange = true) (hle : nd.vidInsync ≤ nd.vidCommit)
    (hstamped : Stamped me nd m.executed m.assigned) : Inv me (m.syncLoop me nd) := by
  refine ⟨waiting_syncLoop hrec hchange hle, ?_⟩
  simp only [Machine.syncLoop]
  split
  · have hclosed : Stamped me { nd with insync := false } m.executed m.assigned :=
      hstamped.same rfl rfl rfl rfl
    exact hclosed.recoverySynced hchange true
  · exact hstamped

theorem inv_commitChange (h : Inv me m) {vid : Nat}
    (hs : m.step svc me (.commitChange vid) = some m') : Inv me m' := by
  obtain ⟨nd, hc, rfl⟩ := Option.map_eq_some_iff.mp hs
  rw [Node.commitChangeWo] at hc
  by_cases hlt : m.node.vidCommit < vid
  · rw [if_neg (not_le.mpr hlt)] at hc
    rw [if_pos hlt]
    obtain ⟨p, -, rfl⟩ := Rsm.setPrimary_eq hc
    exact ⟨h.waiting.commit hlt, h.stamped.commit hlt⟩
  · rw [if_pos (not_lt.mp hlt)] at hc
    rw [if_neg hlt]
    cases hc
    exact h

theorem inv_joined (h : Inv me m) {vid : Nat} (hs : m.step svc me (.joined vid) = some m') :
    Inv me m' := by
  obtain ⟨hrec, hs⟩ := Option.ite_none_right_eq_some.mp hs
  have hway : waits m.node.recovery = false := by rw [hrec]; rfl
  obtain ⟨hwoken, hsync, hchange⟩ := h.on_the_way hway
  obtain ⟨nd, hc, rfl⟩ := Option.map_eq_some_iff.mp hs
  rcases Rsm.commitChangeWo_cases hc with rfl | ⟨hlt, p, -, rfl⟩
  · exact h.recoveryHead hway
  · have hmoved : Inv me { m with node :=
        { m.node with vidCommit := vid, inviewchange := true, primary := p } } := by
      refine ⟨?_, h.stamped.commit hlt⟩
      have hwaiting := h.waiting.commit (p := p) hlt
      rwa [hway, Bool.or_false] at hwaiting
    exact hmoved.recoveryHead hway

/-- Only a node that waits for its backups answers OK, so only such a one is
signalled. -/
theorem inv_transferdonereq (h : Inv me m) {n : NodeId} {vid : Nat}
    (hs : m.nodeStep svc me (.transferdonereq n vid) = some m') : Inv me m' := by
  simp only [Machine.nodeStep, Node.transferdonereq] at hs
  by_cases hbusy : m.node.insync = false ∨ vid ≠ m.node.vidInsync
  · simp only [if_pos hbusy, Bool.false_eq_true, false_and, if_false, Option.some.injEq] at hs
    rwa [← hs]
  · have hrec : m.node.recovery = .waitBackups :=
      h.waiting.insync (by simpa using fun he => hbusy (.inl he))
    have hanswered : Inv me { m with node := { m.node with
        backups := m.node.backups.filter fun b => b ≠ n } } :=
      h.drift ⟨.inl rfl, rfl, rfl, rfl, rfl, rfl, rfl⟩
    simp only [if_neg hbusy, true_and] at hs
    split at hs
    · cases hs
      refine ⟨hanswered.waiting.signal ?_, hanswered.stamped⟩
      simp [hrec]
    · cases hs
      exact hanswered

theorem inv_clientInvoke (h : Inv me m) {req : ρ}
    (hs : m.nodeStep svc me (.clientInvoke req) = some m') : Inv me m' := by
  obtain ⟨-, rfl⟩ := of_guard hs
  refine ⟨h.waiting.clientInvoke req, ?_⟩
  by_cases hrefused : m.node.inviewchange = true ∨ m.node.primary ≠ me
  · simp only [Node.clientInvoke, if_pos hrefused]
    exact h.stamped
  · simp only [Node.clientInvoke, if_neg hrefused]
    obtain ⟨hserve, hme⟩ : m.node.inviewchange = false ∧ m.node.primary = me := by
      simpa using hrefused
    obtain ⟨hprimary, -, hchange, hcommit, -, hmyvs, -⟩ := Rsm.invokeLoop_fields svc
      { m.node with lastMyvs := m.node.myvs, myvs := m.node.myvs.next }
      m.node.myvs req (m.views m.node.vidCommit)
    exact h.stamped.assign hserve hme hchange hcommit hprimary hmyvs

theorem inv_invoke (h : Inv me m) {vs : Viewstamp} {req : ρ}
    (hs : m.nodeStep svc me (.invoke vs req) = some m') : Inv me m' := by
  cases hs
  refine ⟨h.waiting.invoke vs req, ?_⟩
  rcases Rsm.invoke_cases svc me m.node vs req with hrefused | ⟨hserve, hme, rfl, hserved⟩
  · simp only [hrefused, Bool.false_eq_true, if_false]
    exact h.stamped
  · simp only [hserved, if_true]
    exact h.stamped.execute hserve hme rfl rfl rfl rfl

/-- One step of a node. -/
theorem step_inv {e : Event σ ρ κ} (h : Inv me m) (hs : m.step svc me e = some m') : Inv me m' := by
  cases e with
  | config views =>
    cases hs
    exact ⟨h.waiting, h.stamped⟩
  | commitChange vid => exact inv_commitChange h hs
  | joined vid => exact inv_joined h hs
  | node e =>
    replace hs : m.nodeStep svc me e = some m' := hs
    cases e with
    | transferdonereq n vid => exact inv_transferdonereq h hs
    | clientInvoke req => exact inv_clientInvoke h hs
    | invoke vs req => exact inv_invoke h hs
    | takeInvokeMutex =>
      obtain ⟨hrec, rfl⟩ := of_guard hs
      obtain ⟨-, -, hchange⟩ := h.on_the_way (by rw [hrec.1]; rfl)
      exact inv_syncLoop rfl hchange h.waiting.le (h.stamped.same rfl rfl rfl rfl)
    | backupsWake =>
      obtain ⟨hrec, rfl⟩ := of_guard hs
      exact inv_syncLoop hrec.1 (h.waiting.changing (.inr hrec.2)) h.waiting.le h.stamped
    | sleepWake =>
      obtain ⟨hrec, rfl⟩ := of_guard hs
      refine ⟨Waiting.recoveryHead ?_ (h.waiting.changing (.inr hrec.2)) h.waiting.le,
        h.stamped.recoveryHead⟩
      exact h.waiting.insync_false (by simp [hrec.1])
    | _ =>
      obtain ⟨nd, hnd, rfl⟩ := Option.map_eq_some_iff.mp hs
      obtain hdrift | ⟨hrec, rfl | ⟨r, rfl⟩⟩ := plain_cases rfl hnd
      · exact h.drift hdrift
      · exact h.recoveryHead hrec
      · exact h.recoverySynced hrec r

/-- Only a commit moves the node to another view. -/
theorem led_nodeStep {e : NodeEvent σ ρ κ} (hs : m.nodeStep svc me e = some m') :
    m'.node.led = m.node.led := by
  have hloop : ∀ nd : Node σ ρ κ, (m.syncLoop me nd).node.led = nd.led := by
    intro nd
    simp only [Machine.syncLoop]
    split
    · exact Rsm.led_recoverySynced m.views me { nd with insync := false } true
    · rfl
  cases e with
  | takeInvokeMutex =>
    obtain ⟨-, rfl⟩ := of_guard hs
    exact hloop (m.node.syncWithBackups m.views)
  | backupsWake =>
    obtain ⟨-, rfl⟩ := of_guard hs
    exact hloop m.node
  | sleepWake =>
    obtain ⟨-, rfl⟩ := of_guard hs
    exact Rsm.led_recoveryHead m.views me m.node
  | transferdonereq n vid =>
    simp only [Machine.nodeStep] at hs
    split at hs
    · cases hs
      exact Rsm.led_transferdonereq m.node n vid
    · cases hs
      exact Rsm.led_transferdonereq m.node n vid
  | clientInvoke req =>
    obtain ⟨-, rfl⟩ := of_guard hs
    exact Rsm.led_clientInvoke svc m.views me m.node req
  | invoke vs req =>
    cases hs
    exact Rsm.led_invoke svc me m.node vs req
  | _ =>
    obtain ⟨nd, hnd, rfl⟩ := Option.map_eq_some_iff.mp hs
    obtain hdrift | ⟨-, rfl | ⟨r, rfl⟩⟩ := plain_cases rfl hnd
    · exact Prod.ext hdrift.primary hdrift.vidCommit
    · exact Rsm.led_recoveryHead m.views me m.node
    · exact Rsm.led_recoverySynced m.views me m.node r

theorem step_vidCommit_le {e : Event σ ρ κ} (hs : m.step svc me e = some m') :
    m.node.vidCommit ≤ m'.node.vidCommit := by
  have hcommit : ∀ {vid nd}, m.node.commitChangeWo m.views vid = some nd →
      m.node.vidCommit ≤ nd.vidCommit := by
    intro vid nd hc
    rcases Rsm.commitChangeWo_cases hc with rfl | ⟨hlt, p, -, rfl⟩
    · exact le_rfl
    · exact hlt.le
  cases e with
  | config views =>
    cases hs
    exact le_rfl
  | commitChange vid =>
    obtain ⟨nd, hc, rfl⟩ := Option.map_eq_some_iff.mp hs
    split
    · exact hcommit hc
    · exact hcommit hc
  | joined vid =>
    obtain ⟨_, hs⟩ := Option.ite_none_right_eq_some.mp hs
    obtain ⟨nd, hc, rfl⟩ := Option.map_eq_some_iff.mp hs
    have hled := congrArg Prod.snd (Rsm.led_recoveryHead m.views me nd)
    exact (hcommit hc).trans hled.ge
  | node e => exact (congrArg Prod.snd (led_nodeStep hs)).ge

theorem reach_inv {first : NodeId} {st : σ}
    (h : Reach (Machine.step svc me) (fun _ _ => True) (Machine.new first st) m) : Inv me m :=
  h.invariant (Inv me) (inv_new first st) fun _ _ _ hinv _ hs => step_inv hinv hs

end Runs

/-- The stamps of view `v` are (v,1), (v,2), (v,3) and so on. -/
def InOrder (l : List Viewstamp) (v : Nat) : Prop :=
  inView l v = (List.range (inView l v).length).map fun i => ⟨v, i + 1⟩

theorem Consecutive.inOrder {l : List Viewstamp} (h : Consecutive l) {v : Nat}
    (hfew : (inView l v).length < 2 ^ 32) : InOrder l v := by
  rw [InOrder, h v]
  simp only [List.length_map, List.length_range]
  apply List.map_congr_left
  intro i hi
  have hlt : i < (inView l v).length := List.mem_range.mp hi
  rw [Nat.mod_eq_of_lt (by omega)]

/-- In every run of a node: while it serves requests its stamps are of its
view, it never goes back to an earlier view, and with fewer than 2^32 stamps
in a view these count up from 1, at a backup and at a primary. -/
theorem stamps_in_order (svc : Service σ ρ κ) (first me : NodeId) (st : σ) {m : Machine σ ρ κ}
    (h : Reach (Machine.step svc me) (fun _ _ => True) (Machine.new first st) m) :
    (m.node.inviewchange = false → m.node.myvs.vid = m.node.vidCommit) ∧
    (∀ e m', m.step svc me e = some m' → m.node.vidCommit ≤ m'.node.vidCommit) ∧
    ∀ v, ((inView m.executed v).length < 2 ^ 32 → InOrder m.executed v) ∧
      ((inView m.assigned v).length < 2 ^ 32 → InOrder m.assigned v) := by
  have hinv := reach_inv h
  refine ⟨fun hserve => ?_, fun e m' hs => step_vidCommit_le hs, fun v => ⟨?_, ?_⟩⟩
  · rw [hinv.stamped.next hserve]
  · exact hinv.stamped.executed.inOrder
  · exact hinv.stamped.assigned.inOrder

def alone : NodeId := ['a']

def aloneStarts : List (Event Nat Nat Nat) :=
  [.config fun _ => [alone], .commitChange 1, .node .recoveryRetry, .node .takeInvokeMutex]

/-- A backup in view 1 executes two requests; its primary leaves, and in view
2 it is the primary and takes two stamps. -/
def takesOver : List (Event Nat Nat Nat) :=
  [.config fun _ => [['b'], alone], .commitChange 1, .node .recoveryRetry, .node (.sendTransfer 0),
    .node (.transferReply ⟨some 0, ⟨0, 0⟩, []⟩), .node (.sendDone 1), .node (.doneReply true),
    .node (.invoke ⟨1, 1⟩ 5), .node (.invoke ⟨1, 2⟩ 6),
    .config fun v => if v < 2 then [['b'], alone] else [alone], .commitChange 2, .node .sleepWake,
    .node .takeInvokeMutex, .node (.clientInvoke 7), .node (.clientInvoke 8)]

theorem stamps_in_order_takesOver :
    ∃ m : Machine Nat Nat Nat,
      Reach (Machine.step register alone) (fun _ _ => True) (Machine.new ['b'] 0) m ∧
      m.executed = [⟨1, 1⟩, ⟨1, 2⟩] ∧ m.assigned = [⟨2, 1⟩, ⟨2, 2⟩] ∧
      m.node.myvs.vid = m.node.vidCommit ∧ InOrder m.executed 1 ∧ InOrder m.assigned 2 := by
  obtain ⟨m, hreach, hexecuted, hassigned, hserve⟩ : ∃ m : Machine Nat Nat Nat,
      Reach (Machine.step register alone) (fun _ _ => True) (Machine.new ['b'] 0) m ∧
      m.executed = [⟨1, 1⟩, ⟨1, 2⟩] ∧ m.assigned = [⟨2, 1⟩, ⟨2, 2⟩] ∧
      m.node.inviewchange = false := exists_reach takesOver (by decide +kernel)
  obtain ⟨hvid, -, horder⟩ := stamps_in_order register ['b'] alone 0 hreach
  refine ⟨m, hreach, hexecuted, hassigned, hvid hserve, (horder 1).1 ?_, (horder 2).2 ?_⟩
  · rw [hexecuted]
    decide
  · rw [hassigned]
    decide

/-- It serves requests in view 1, by itself. -/
structure Alone (m : Machine Nat Nat Nat) : Prop where
  views : m.views 1 = [alone]
  primary : m.node.primary = alone
  vidCommit : m.node.vidCommit = 1
  serving : m.node.inviewchange = false
  idle : m.node.invoking = none

/-- It takes the next stamp, and serves on. -/
theorem Alone.clientInvoke {m : Machine Nat Nat Nat} (h : Alone m) :
    ∃ m', m.step register alone (.node (.clientInvoke 0)) = some m' ∧ Alone m' ∧
      m'.assigned = m.assigned ++ [m.node.myvs] := by
  obtain ⟨hviews, hprimary, hcommit, hserve, hidle⟩ := h
  have haccepted : ¬ (m.node.inviewchange = true ∨ m.node.primary ≠ alone) := by
    simp [hserve, hprimary]
  refine ⟨_, if_pos (by simp [hidle]), ?_, if_neg haccepted⟩
  simp only [Node.clientInvoke, if_neg haccepted, hcommit, hviews, Node.invokeLoop,
    if_pos hprimary.symm]
  exact ⟨hviews, hprimary, rfl, hserve, rfl⟩

theorem alone_serves (n : Nat) :
    ∃ m, Reach (Machine.step register alone) (fun _ _ => True) (Machine.new alone 0) m ∧
      Alone m ∧ (inView m.assigned 1).length = n := by
  induction n with
  | zero =>
    obtain ⟨m, hreach, hviews, hprimary, hcommit, hserve, hidle, hnone⟩ :
        ∃ m, Reach (Machine.step register alone) (fun _ _ => True) (Machine.new alone 0) m ∧
          m.views 1 = [alone] ∧ m.node.primary = alone ∧ m.node.vidCommit = 1 ∧
          m.node.inviewchange = false ∧ m.node.invoking = none ∧ m.assigned = [] :=
      exists_reach aloneStarts (by decide +kernel)
    exact ⟨m, hreach, ⟨hviews, hprimary, hcommit, hserve, hidle⟩, by rw [hnone]; rfl⟩
  | succ n ih =>
    obtain ⟨m, hreach, halone, hlength⟩ := ih
    obtain ⟨m', hstep, halone', hassigned⟩ := halone.clientInvoke
    refine ⟨m', hreach.step trivial hstep, halone', ?_⟩
    have hvid : m.node.myvs.vid = 1 := by
      rw [(reach_inv hreach).stamped.next halone.serving]
      exact halone.vidCommit
    rw [hassigned, ← hlength]
    simp [inView, hvid]

/-- After 2^32 requests in a view `seqno` has come back to 0. -/
theorem stamps_wrap :
    ∃ m : Machine Nat Nat Nat,
      Reach (Machine.step register alone) (fun _ _ => True) (Machine.new alone 0) m ∧
      (inView m.assigned 1).length = 2 ^ 32 ∧ ¬ InOrder m.assigned 1 := by
  obtain ⟨m, hreach, -, hlength⟩ := alone_serves (2 ^ 32)
  refine ⟨m, hreach, hlength, fun horder => ?_⟩
  have hcount := (reach_inv hreach).stamped.assigned 1
  rw [InOrder, hcount, hlength] at horder
  simp only [List.length_map, List.length_range] at horder
  have hlast := List.map_inj_left.mp horder (2 ^ 32 - 1) (List.mem_range.mpr (by norm_num))
  simp at hlast

end Yfs.Host.Stamps
