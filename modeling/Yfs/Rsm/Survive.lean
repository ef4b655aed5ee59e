/-
Yfs.Rsm.Survive — do acknowledged requests survive view changes?

The header of rsm.cc promises that the next view uses a node as primary
that has the state resulting from processing all acknowledged requests.
An acknowledged request of view `x` has been executed by EVERY member of
`x`, so the state of any one member that has left `x` contains all of
them. A node's history `Covers` the views below `v` when for each of them
it contains what some such member executed there.

A new primary inherits this if it has been a member of every view since
the one it last obtained its state for, and hands it on with its state.
Nothing in `set_primary` ensures that: a node that joined and was not yet
synchronised can be left as the only member and becomes primary with its
empty state (`unsynced_primary_loses_request`).

`acked_requests_survive` needs three things more, each of which the code
leaves open: a node must not finish the recovery of a view when a later
view has already served requests; `sync_with_primary` must not replace
the state and the stamp of a node whose `client_invoke` is still calling
backups (its sibling waits for `invoke_mutex`, it does not); and
`client_invoke` must not skip a backup because that has become the
primary of a later view in the meantime.
-/
import Yfs.Rsm.Recovery

namespace Yfs.Rsm

open Run Function

variable {σ ρ κ : Type}

/-! ## Histories -/

def replay (svc : Service σ ρ κ) (st : σ) (hist : List (Entry ρ κ)) : σ :=
  hist.foldl (fun x e => (svc.execute x e.req).1) st

@[simp] theorem replay_nil (svc : Service σ ρ κ) (st : σ) :
    replay svc st ([] : List (Entry ρ κ)) = st := rfl

@[simp] theorem replay_concat (svc : Service σ ρ κ) (st : σ) (hist : List (Entry ρ κ))
    (e : Entry ρ κ) :
    replay svc st (hist ++ [e]) = (svc.execute (replay svc st hist) e.req).1 := by
  simp [replay]

def Ran (hist : List (Entry ρ κ)) (vs : Viewstamp) (req : ρ) : Prop :=
  ∃ e ∈ hist, e.vs = vs ∧ e.req = req

theorem Ran.mono {l l' : List (Entry ρ κ)} {vs : Viewstamp} {req : ρ} (h : Ran l vs req)
    (hsub : ∀ e ∈ l, e ∈ l') : Ran l' vs req := by
  obtain ⟨e, he, hvs, hreq⟩ := h
  exact ⟨e, hsub e he, hvs, hreq⟩

/-- The node will not execute anything more in view `x`. -/
structure Left (nd : Node σ ρ κ) (x : Nat) : Prop where
  lt : x < nd.vidCommit
  idle : ∀ inv, nd.invoking = some inv → inv.vs.vid ≠ x

/-- For every view below `v`, the history contains all that some member
which has left the view executed in it. -/
def Covers (views : Nat → List NodeId) (nodes : NodeId → Node σ ρ κ) (hist : List (Entry ρ κ))
    (v : Nat) : Prop :=
  ∀ x, x ≠ 0 → x < v →
    ∃ m ∈ views x, Left (nodes m) x ∧ ∀ e ∈ (nodes m).execd, e.vs.vid = x → e ∈ hist

/-- What time can do to a node: nothing it executed is forgotten, and in
the views it has left nothing is added. -/
structure Later (nd nd' : Node σ ρ κ) : Prop where
  keeps : ∀ e ∈ nd.execd, e ∈ nd'.execd
  left : ∀ x, Left nd x → Left nd' x
  same : ∀ x, Left nd x → ∀ e ∈ nd'.execd, e.vs.vid = x → e ∈ nd.execd

theorem Later.refl (nd : Node σ ρ κ) : Later nd nd := by
  constructor
  · intro e he
    exact he
  · intro x hx
    exact hx
  · intro x _ e he _
    exact he

theorem Covers.later {views : Nat → List NodeId} {nodes nodes' : NodeId → Node σ ρ κ}
    {hist : List (Entry ρ κ)} {v : Nat} (h : Covers views nodes hist v)
    (hl : ∀ m, Later (nodes m) (nodes' m)) : Covers views nodes' hist v := by
  intro x hx hlt
  obtain ⟨m, hm, hleft, hsub⟩ := h x hx hlt
  refine ⟨m, hm, (hl m).left x hleft, ?_⟩
  intro e he hvid
  exact hsub e ((hl m).same x hleft e he hvid) hvid

theorem Covers.grow {views : Nat → List NodeId} {nodes : NodeId → Node σ ρ κ}
    {hist hist' : List (Entry ρ κ)} {v : Nat} (h : Covers views nodes hist v)
    (hsub : ∀ e ∈ hist, e ∈ hist') : Covers views nodes hist' v := by
  intro x hx hlt
  obtain ⟨m, hm, hleft, hin⟩ := h x hx hlt
  exact ⟨m, hm, hleft, fun e he hvid => hsub e (hin e he hvid)⟩

/-! ## The invariant of one node -/

structure Local (svc : Service σ ρ κ) (views : Nat → List NodeId) (st : σ) (n : NodeId)
    (nd : Node σ ρ κ) : Prop where
  replay : nd.state = replay svc st nd.hist
  execLe : ∀ e ∈ nd.execd, e.vs.vid ≤ nd.myvs.vid
  execBase : ∀ e ∈ nd.execd, e.vs.vid = nd.base → e ∈ nd.hist
  lastMem : nd.lastMyvs.vid = nd.base → nd.base = 0 ∨ n ∈ views nd.base
  histLe : ∀ e ∈ nd.hist, e.vs.vid ≤ nd.lastMyvs.vid
  flight : ∀ inv, nd.invoking = some inv → inv.vs = nd.lastMyvs ∧ inv.vs.vid = nd.base ∧
    inv.vs.vid ≤ nd.myvs.vid ∧ inv.vs.vid ≠ 0 ∧ (nd.inviewchange = false → nd.primary = n)

section Local

variable {svc : Service σ ρ κ} {views : Nat → List NodeId} {st : σ} {n : NodeId}
  {nd nd' : Node σ ρ κ}

theorem local_new (first : NodeId) : Local svc views st n (Node.new first st : Node σ ρ κ) := by
  constructor <;> simp [Node.new]

theorem Quiet.later (h : Quiet nd nd') : Later nd nd' := by
  constructor
  · intro e he
    rwa [h.execd]
  · intro x hx
    constructor
    · exact lt_of_lt_of_le hx.lt h.commit
    · rw [h.invoking]
      exact hx.idle
  · intro x _ e he _
    rwa [h.execd] at he

theorem Local.quiet (h : Local svc views st n nd) (hp : Phase views n nd)
    (hp' : Phase views n nd') (hq : Quiet nd nd') : Local svc views st n nd' := by
  have hmy : nd.myvs.vid ≤ nd'.myvs.vid := by
    rcases hq.myvs with heq | ⟨_, hle⟩
    · rw [heq]
    · exact hp.stamps_le.1.trans hle
  constructor
  case replay =>
    rw [hq.state, hq.hist]
    exact h.replay
  case execLe =>
    rw [hq.execd]
    intro e he
    exact (h.execLe e he).trans hmy
  case execBase =>
    rw [hq.execd, hq.base, hq.hist]
    exact h.execBase
  case lastMem =>
    rw [hq.last, hq.base]
    exact h.lastMem
  case histLe =>
    rw [hq.hist, hq.last]
    exact h.histLe
  case flight =>
    rw [hq.invoking, hq.last, hq.base]
    intro inv hinv
    obtain ⟨h1, h2, h3, h4, h5⟩ := h.flight inv hinv
    refine ⟨h1, h2, h3.trans hmy, h4, ?_⟩
    -- a node with a request under way has not entered another view
    intro hserve
    obtain ⟨_, _, _, hb, _⟩ := hp'.serving hserve
    have hcommit := hq.commit
    have hle1 := hp.baseLe
    have hle2 := hp.insyncLe
    rw [hq.base] at hb
    rw [hq.primary (by omega)]
    refine h5 ?_
    cases hv : nd.inviewchange with
    | false => rfl
    | true =>
      rw [h1] at h2 h4
      rcases hp.older hv with hz | ⟨_, hlt⟩
      · omega
      · omega

/-- A state has been obtained for the view being synchronised for: nothing
has been executed in that view yet. -/
theorem Local.obtained (h : Local svc views st n nd) (hs : Syncing views n nd)
    (hidle : nd.invoking = none) (h1 : nd'.execd = nd.execd) (h2 : nd'.base = nd.vidInsync)
    (h3 : nd'.myvs = nd.myvs) (h4 : nd'.invoking = nd.invoking)
    (h5 : nd'.state = Rsm.replay svc st nd'.hist)
    (h6 : ∀ e ∈ nd'.hist, e.vs.vid ≤ nd'.lastMyvs.vid) : Local svc views st n nd' := by
  have hmy := hs.myvs
  constructor
  case replay =>
    exact h5
  case execLe =>
    rw [h1, h3]
    exact h.execLe
  case execBase =>
    rw [h1, h2]
    intro e he hvid
    have := h.execLe e he
    omega
  case lastMem =>
    rw [h2]
    intro _
    exact .inr hs.mem
  case histLe =>
    exact h6
  case flight =>
    rw [h4, hidle]
    nofun

/-- The node takes its next stamp. -/
theorem Local.takeStamp (h : Local svc views st n nd) (hp : Phase views n nd)
    (hserve : nd.inviewchange = false) (hidle : nd.invoking = none) : Local svc views st n
      { nd with lastMyvs := nd.myvs, myvs := nd.myvs.next } := by
  obtain ⟨_, _, hmy, hb, hmem⟩ := hp.serving hserve
  have hlast := hp.lastLe
  constructor
  case replay =>
    exact h.replay
  case execLe =>
    exact h.execLe
  case execBase =>
    exact h.execBase
  case lastMem =>
    intro _
    exact .inr (by rw [show nd.base = nd.vidCommit from hb]; exact hmem)
  case histLe =>
    intro e he
    have := h.histLe e he
    show e.vs.vid ≤ nd.myvs.vid
    omega
  case flight =>
    intro inv hinv
    cases hidle.symm.trans hinv

/-- A request is executed with the last stamp taken. -/
theorem Local.execute (h : Local svc views st n nd) {vs : Viewstamp} (req : ρ)
    (hvs : vs = nd.lastMyvs) (hle : vs.vid ≤ nd.myvs.vid) :
    Local svc views st n { (nd.execute svc vs req).2 with invoking := none } := by
  constructor
  case replay =>
    show (svc.execute nd.state req).1 = Rsm.replay svc st (nd.hist ++ [_])
    rw [replay_concat, ← h.replay]
  case execLe =>
    intro e he
    rcases List.mem_append.mp he with he | he
    · exact h.execLe e he
    · obtain rfl := List.mem_singleton.mp he
      exact hle
  case execBase =>
    intro e he hvid
    show e ∈ nd.hist ++ [_]
    rcases List.mem_append.mp he with he | he
    · exact List.mem_append_left _ (h.execBase e he hvid)
    · exact List.mem_append_right _ he
  case lastMem =>
    exact h.lastMem
  case histLe =>
    intro e he
    rcases List.mem_append.mp he with he | he
    · exact h.histLe e he
    · obtain rfl := List.mem_singleton.mp he
      exact (congrArg Viewstamp.vid hvs).le
  case flight =>
    nofun

theorem later_execute (svc : Service σ ρ κ) (nd : Node σ ρ κ) {vs : Viewstamp} (req : ρ)
    (hvs : ∀ x, Left nd x → vs.vid ≠ x) :
    Later nd { (nd.execute svc vs req).2 with invoking := none } := by
  constructor
  · intro e he
    exact List.mem_append_left _ he
  · intro x hx
    exact ⟨hx.lt, by simp⟩
  · intro x hx e he hvid
    rcases List.mem_append.mp he with he | he
    · exact he
    · obtain rfl := List.mem_singleton.mp he
      exact absurd hvid (hvs x hx)

/-- `invoking` moves on with the same stamp, or starts with a stamp of the
present view. -/
theorem later_invoking (nd : Node σ ρ κ) {inv : Invoking ρ}
    (hvs : ∀ x, Left nd x → inv.vs.vid ≠ x) : Later nd { nd with invoking := some inv } := by
  constructor
  · intro e he
    exact he
  · intro x hx
    constructor
    · exact hx.lt
    · intro inv' hinv'
      cases hinv'
      exact hvs x hx
  · intro x _ e he _
    exact he

end Local

/-! ## The invariant of the system -/

structure Kept (svc : Service σ ρ κ) (views : Nat → List NodeId) (st : σ) (s : Sys σ ρ κ) :
    Prop where
  nodes : ∀ n, Local svc views st n (s.nodes n)
  covers : ∀ n, Covers views s.nodes (s.nodes n).hist (s.nodes n).base
  contacted : ∀ n inv, (s.nodes n).invoking = some inv → ∀ m ∈ views inv.vs.vid,
    m = n ∨ m = inv.target ∨ m ∈ inv.rest ∨ Ran (s.nodes m).execd inv.vs inv.req
  call : ∀ n inv k, (s.nodes n).invoking = some inv → inv.call = some k →
    s.invokes k = .sent inv.target inv.vs inv.req ∨
      ∃ b, s.invokes k = .replied inv.target inv.vs inv.req b
  replied : ∀ k dst vs req, s.invokes k = .replied dst vs req true →
    Ran (s.nodes dst).execd vs req
  transfer : ∀ k dst vid r, s.transfers k = .replied dst vid (some r) →
    Covers views s.nodes r.hist vid ∧ (∀ e ∈ r.hist, e.vs.vid ≤ r.last.vid) ∧
      ∀ x, r.state = some x → x = replay svc st r.hist
  acked : ∀ a ∈ s.acked, a.vs.vid ≠ 0 ∧ ∀ m ∈ views a.vs.vid, Ran (s.nodes m).execd a.vs a.req

section Kept

variable {svc : Service σ ρ κ} {views : Nat → List NodeId} {st : σ} {s s' : Sys σ ρ κ}

theorem kept_init (svc : Service σ ρ κ) (views : Nat → List NodeId) (first : NodeId) (st : σ) :
    Kept svc views st (Sys.init first st) := by
  constructor
  case nodes =>
    intro n
    exact local_new first
  case covers =>
    nofun
  case contacted =>
    nofun
  case call =>
    nofun
  case replied =>
    nofun
  case transfer =>
    nofun
  case acked =>
    nofun

variable {n dst : NodeId} {nd : Node σ ρ κ} {k : Nat} {vs : Viewstamp} {req : ρ}

/-- **Frame rule**: one node changes, and all that depends on the others
follows from its being a later version of itself. -/
theorem Kept.setNode (h : Kept svc views st s) (hlater : Later (s.nodes n) nd)
    (hlocal : Local svc views st n nd) (hcov : Covers views s.nodes nd.hist nd.base)
    (hinv : ∀ inv, nd.invoking = some inv →
      (∀ m ∈ views inv.vs.vid, m = n ∨ m = inv.target ∨ m ∈ inv.rest ∨
        Ran (s.nodes m).execd inv.vs inv.req) ∧
      ∀ k, inv.call = some k → s.invokes k = .sent inv.target inv.vs inv.req ∨
        ∃ b, s.invokes k = .replied inv.target inv.vs inv.req b) :
    Kept svc views st (s.setNode n nd) := by
  have hall : ∀ m, Later (s.nodes m) ((s.setNode n nd).nodes m) :=
    Sys.forall_setNode hlater fun m => Later.refl _
  have hran : ∀ m vs req, Ran (s.nodes m).execd vs req →
      Ran ((s.setNode n nd).nodes m).execd vs req :=
    fun m vs req hr => hr.mono (hall m).keeps
  constructor
  case nodes =>
    exact Sys.forall_setNode hlocal h.nodes
  case covers =>
    intro m
    refine Covers.later ?_ hall
    exact Sys.forall_setNode (P := fun _ x => Covers views s.nodes x.hist x.base) hcov h.covers m
  case contacted =>
    intro m inv hi p hp
    have hold : p = m ∨ p = inv.target ∨ p ∈ inv.rest ∨
        Ran (s.nodes p).execd inv.vs inv.req := by
      rcases eq_or_ne m n with rfl | hne
      · rw [Sys.setNode_self] at hi
        exact (hinv inv hi).1 p hp
      · rw [Sys.setNode_of_ne _ _ hne] at hi
        exact h.contacted m inv hi p hp
    exact hold.imp id (Or.imp id (Or.imp id (hran p _ _)))
  case call =>
    intro m inv k hi hc
    rcases eq_or_ne m n with rfl | hne
    · rw [Sys.setNode_self] at hi
      exact (hinv inv hi).2 k hc
    · rw [Sys.setNode_of_ne _ _ hne] at hi
      exact h.call m inv k hi hc
  case replied =>
    intro k dst vs req hk
    exact hran dst vs req (h.replied k dst vs req hk)
  case transfer =>
    intro k dst vid r hk
    obtain ⟨h1, h2⟩ := h.transfer k dst vid r hk
    exact ⟨h1.later hall, h2⟩
  case acked =>
    intro a ha
    obtain ⟨h1, h2⟩ := h.acked a ha
    exact ⟨h1, fun m hm => hran m _ _ (h2 m hm)⟩

theorem Kept.quiet (h : Kept svc views st s) (hr : Recovering views s) (hp : Phase views n nd)
    (hq : Quiet (s.nodes n) nd) : Kept svc views st (s.setNode n nd) := by
  refine h.setNode hq.later ((h.nodes n).quiet (hr.phase n) hp hq) ?_ ?_
  · rw [hq.hist, hq.base]
    exact h.covers n
  · rw [hq.invoking]
    intro inv hinv
    exact ⟨h.contacted n inv hinv, fun k hc => h.call n inv k hinv hc⟩

/-! ## Obtaining a state -/

theorem later_of_eq {nd' : Node σ ρ κ} (h1 : nd'.execd = nd.execd)
    (h2 : nd'.vidCommit = nd.vidCommit) (h3 : nd'.invoking = nd.invoking) : Later nd nd' := by
  constructor
  · intro e he
    rwa [h1]
  · intro x hx
    constructor
    · rw [h2]
      exact hx.lt
    · rw [h3]
      exact hx.idle
  · intro x _ e he _
    rwa [h1] at he

/-- The node itself is a member that has left the view it was based on. -/
theorem Local.self_covers (h : Local svc views st n nd) (hp : Phase views n nd)
    (hidle : nd.invoking = none) {x : Nat} (hx : x < nd.vidCommit) (hb : nd.base ≤ x) :
    Left nd x ∧ ∀ e ∈ nd.execd, e.vs.vid = x → e ∈ nd.hist := by
  constructor
  · exact ⟨hx, by simp [hidle]⟩
  · intro e he hvid
    have h1 := h.execLe e he
    have h2 := hp.myvsLe
    exact h.execBase e he (by omega)

/-- The primary starts to synchronise: it has been in every view since it
last obtained a state. -/
theorem kept_syncWithBackups (h : Kept svc views st s) (hr : Recovering views s)
    (hpc : (s.nodes n).recovery = .invokeMutex) (hidle : (s.nodes n).invoking = none)
    (hmem : ∀ x < (s.nodes n).vidInsync, (s.nodes n).base ≤ x → x ≠ 0 → n ∈ views x) :
    Kept svc views st (s.setNode n ((s.nodes n).syncWithBackups views)) := by
  have hphase := hr.phase n
  have hsync := hphase.pc
  rw [hpc] at hsync
  have hlocal := h.nodes n
  have hle := hphase.insyncLe
  refine h.setNode (later_of_eq rfl rfl rfl) ?_ ?_ ?_
  · exact hlocal.obtained hsync.1 hidle rfl rfl rfl rfl hlocal.replay hlocal.histLe
  · intro x hx hlt
    replace hlt : x < (s.nodes n).vidInsync := hlt
    by_cases hb : x < (s.nodes n).base
    · exact h.covers n x hx hb
    · exact ⟨n, hmem x hlt (by omega) hx,
        hlocal.self_covers hphase hidle (by omega) (by omega)⟩
  · intro inv hinv
    cases hidle.symm.trans hinv

/-- `statetransfer` succeeds. When the stamps are equal the node keeps its
own history: the views above the stamp are views in which some member
executed nothing. -/
theorem kept_installState (h : Kept svc views st s) (hr : Recovering views s) {m : NodeId}
    {vid : Nat} {r : TransferRes σ ρ κ} (hpc : (s.nodes n).recovery = .transfer m (some k))
    (hk : s.transfers k = .replied dst vid (some r)) (hidle : (s.nodes n).invoking = none) :
    Kept svc views st
      (s.setNode n { (s.nodes n).installState svc r with recovery := .done m none }) := by
  have hphase := hr.phase n
  have hsync := hphase.pc
  rw [hpc] at hsync
  have hlocal := h.nodes n
  obtain ⟨_, hvid, hsome⟩ := hr.answer hpc hk
  subst hvid
  obtain ⟨hcov, hle, hstate⟩ := h.transfer k dst _ r hk
  have hinv : ∀ (inv : Invoking ρ) (P : Prop), (s.nodes n).invoking = some inv → P := by
    intro inv P hinv
    cases hidle.symm.trans hinv
  unfold Node.installState
  split
  · rename_i hne
    obtain ⟨x, hx⟩ := Option.ne_none_iff_exists'.mp (hsome fun he => hne he.symm)
    refine h.setNode (later_of_eq rfl rfl rfl) ?_ hcov fun inv hi => hinv inv _ hi
    refine hlocal.obtained hsync.1 hidle rfl rfl rfl rfl ?_ hle
    show r.state.getD svc.unmarshalEmpty = _
    rw [hx]
    exact hstate x hx
  · rename_i heq
    have hlast : (s.nodes n).lastMyvs = r.last := not_not.mp heq
    refine h.setNode (later_of_eq rfl rfl rfl) ?_ ?_ fun inv hi => hinv inv _ hi
    · refine hlocal.obtained hsync.1 hidle rfl rfl rfl rfl hlocal.replay ?_
      show ∀ e ∈ (s.nodes n).hist, e.vs.vid ≤ r.last.vid
      rw [← hlast]
      exact hlocal.histLe
    · intro x hx hlt
      replace hlt : x < (s.nodes n).vidInsync := hlt
      have hcommit := hphase.insyncLe
      by_cases hb : x < (s.nodes n).base
      · exact h.covers n x hx hb
      by_cases hxl : x ≤ (s.nodes n).lastMyvs.vid
      · -- the node executed in its base view, so it was in it
        have hbase := hphase.lastLe
        have hxb : x = (s.nodes n).base := by omega
        have hmem := (hlocal.lastMem (by omega)).resolve_left (by omega)
        exact ⟨n, hxb ▸ hmem, hlocal.self_covers hphase hidle (by omega) (by omega)⟩
      · obtain ⟨p, hp, hleft, hsub⟩ := hcov x hx hlt
        refine ⟨p, hp, hleft, ?_⟩
        intro e he hvid
        have := hle e (hsub e he hvid)
        rw [← hlast] at this
        omega

/-! ## Requests -/

theorem Kept.withAcked (h : Kept svc views st s) {a : List (Entry ρ κ)}
    (ha : ∀ x ∈ a, x.vs.vid ≠ 0 ∧ ∀ m ∈ views x.vs.vid, Ran (s.nodes m).execd x.vs x.req) :
    Kept svc views st { s with acked := a } :=
  ⟨h.nodes, h.covers, h.contacted, h.call, h.replied, h.transfer, ha⟩

/-- `client_invoke` goes on with the members `l` of the view of its stamp. -/
theorem kept_invokeLoop (h : Kept svc views st s) {l : List NodeId}
    (hvs : vs = (s.nodes n).lastMyvs) (hbase : vs.vid = (s.nodes n).base)
    (hle : vs.vid ≤ (s.nodes n).myvs.vid) (hne : vs.vid ≠ 0)
    (hprim : (s.nodes n).inviewchange = false → (s.nodes n).primary = n)
    (hleft : ∀ x, Left (s.nodes n) x → vs.vid ≠ x)
    (hcont : ∀ m ∈ views vs.vid, m = n ∨ m ∈ l ∨ Ran (s.nodes m).execd vs req)
    (hskip : ∀ m ∈ l, m = (s.nodes n).primary → m = n) :
    Kept svc views st (s.invoked n ((s.nodes n).invokeLoop svc vs req l)) := by
  rcases invokeLoop_cases svc (s.nodes n) vs req l with
    ⟨hall, heq⟩ | ⟨pre, m, rest, hl, hpre, hm, heq⟩
  · -- every other member has executed the request, and now this node does
    rw [heq]
    have hk : Kept svc views st (s.setNode n
        { ((s.nodes n).execute svc vs req).2 with invoking := none }) := by
      refine h.setNode (later_execute svc _ req hleft) ((h.nodes n).execute req hvs hle) ?_ ?_
      · exact (h.covers n).grow fun e he => List.mem_append_left _ he
      · nofun
    refine hk.withAcked ?_
    intro a ha
    rcases List.mem_append.mp ha with ha | ha
    · obtain rfl := List.mem_singleton.mp ha
      refine ⟨hne, ?_⟩
      intro m hm
      have hown : Ran ((s.setNode n
          { ((s.nodes n).execute svc vs req).2 with invoking := none }).nodes n).execd vs req := by
        rw [Sys.setNode_self]
        exact ⟨_, List.mem_append_right _ (List.mem_singleton_self _), rfl, rfl⟩
      by_cases hmn : m = n
      · rw [hmn]
        exact hown
      · rcases hcont m hm with hmn' | hml | hran
        · exact absurd hmn' hmn
        · exact absurd (hskip m hml (hall m hml)) hmn
        · show Ran ((s.setNode n _).nodes m).execd vs req
          rwa [Sys.setNode_of_ne _ _ hmn]
    · exact hk.acked a ha
  · rw [heq]
    have hk : Kept svc views st (s.setNode n
        { s.nodes n with invoking := some ⟨vs, req, m, rest, none⟩ }) := by
      have hlocal := h.nodes n
      refine h.setNode (later_invoking _ hleft)
        ⟨hlocal.replay, hlocal.execLe, hlocal.execBase, hlocal.lastMem, hlocal.histLe, ?_⟩
        (h.covers n) ?_
      · intro inv hinv
        cases hinv
        exact ⟨hvs, hbase, hle, hne, hprim⟩
      · intro inv hinv
        cases hinv
        constructor
        · intro p hp
          rcases hcont p hp with hpn | hpl | hran
          · exact .inl hpn
          · rw [hl] at hpl
            rcases List.mem_append.mp hpl with hpl | hpl
            · exact .inl (hskip p (hl ▸ List.mem_append_left _ hpl) (hpre p hpl))
            · rcases List.mem_cons.mp hpl with hpm | hpr
              · exact .inr (.inl hpm)
              · exact .inr (.inr (.inl hpr))
          · exact .inr (.inr (.inr hran))
        · nofun
    exact hk.withAcked hk.acked

theorem kept_takeStamp (h : Kept svc views st s) (hr : Recovering views s)
    (hserve : (s.nodes n).inviewchange = false) (hidle : (s.nodes n).invoking = none) :
    Kept svc views st (s.setNode n { s.nodes n with
      lastMyvs := (s.nodes n).myvs
      myvs := (s.nodes n).myvs.next }) := by
  refine h.setNode (later_of_eq rfl rfl rfl)
    ((h.nodes n).takeStamp (hr.phase n) hserve hidle) (h.covers n) ?_
  intro inv hinv
  cases hidle.symm.trans hinv

/-- A serving node has left only views below its own. -/
theorem left_ne_stamp (hp : Phase views n nd) (hserve : nd.inviewchange = false) {x : Nat}
    (hx : x < nd.vidCommit) : nd.myvs.vid ≠ x := by
  obtain ⟨_, _, hmy, _⟩ := hp.serving hserve
  omega

theorem serving_ne_zero (h0 : views 0 = []) (hp : Phase views n nd)
    (hserve : nd.inviewchange = false) : nd.myvs.vid ≠ 0 := by
  obtain ⟨_, _, hmy, _, hmem⟩ := hp.serving hserve
  rw [hmy]
  intro hz
  rw [hz, h0] at hmem
  cases hmem

theorem kept_clientInvoke (h0 : views 0 = []) (h : Kept svc views st s) (hr : Recovering views s)
    (req : ρ) (hidle : (s.nodes n).invoking = none) :
    Kept svc views st (s.invoked n ((s.nodes n).clientInvoke svc views n req)) := by
  unfold Node.clientInvoke
  split
  · rw [invoked_refused]
    exact h
  · rename_i hc
    push Not at hc
    obtain ⟨hview, hprim⟩ := hc
    have hserve : (s.nodes n).inviewchange = false := by simpa using hview
    have hphase := hr.phase n
    obtain ⟨_, _, hmy, hb, hmem⟩ := hphase.serving hserve
    have hk := kept_takeStamp h hr hserve hidle
    rw [← invoked_setNode s n { s.nodes n with
      lastMyvs := (s.nodes n).myvs
      myvs := (s.nodes n).myvs.next }]
    have hself := s.setNode_self n { s.nodes n with
      lastMyvs := (s.nodes n).myvs
      myvs := (s.nodes n).myvs.next }
    have hloop := @kept_invokeLoop _ _ _ svc views st _ n (s.nodes n).myvs req hk
      (views (s.nodes n).vidCommit)
    rw [hself] at hloop
    refine hloop rfl (hmy.trans hb.symm) le_rfl (serving_ne_zero h0 hphase hserve)
      (fun _ => hprim) ?_ ?_ ?_
    · intro x hx
      exact left_ne_stamp hphase hserve hx.lt
    · intro m hm
      rw [hmy] at hm
      exact .inr (.inl hm)
    · intro m _ hmp
      exact hmp.trans hprim

theorem kept_invokeReturn (h : Kept svc views st s) {inv : Invoking ρ}
    (hinv : (s.nodes n).invoking = some inv) (hcall : inv.call = some k)
    (hk : s.invokes k = .replied dst vs req true)
    (hskip : ∀ m ∈ inv.rest, m = (s.nodes n).primary → m = n) :
    Kept svc views st (s.invoked n ((s.nodes n).invokeLoop svc inv.vs inv.req inv.rest)) := by
  obtain ⟨h1, h2, h3, h4, h5⟩ := (h.nodes n).flight inv hinv
  have htarget : Ran (s.nodes inv.target).execd inv.vs inv.req := by
    rcases h.call n inv k hinv hcall with hsent | ⟨b, hb⟩
    · rw [hk] at hsent
      cases hsent
    · rw [hk] at hb
      cases hb
      exact h.replied k _ _ _ hk
  refine kept_invokeLoop h h1 h2 h3 h4 h5 ?_ ?_ hskip
  · intro x hx
    exact hx.idle inv hinv
  · intro m hm
    rcases h.contacted n inv hinv m hm with hmn | rfl | hmr | hran
    · exact .inl hmn
    · exact .inr (.inr htarget)
    · exact .inr (.inl hmr)
    · exact .inr (.inr hran)

theorem kept_giveUp (h : Kept svc views st s) (n : NodeId) :
    Kept svc views st (s.setNode n { s.nodes n with invoking := none }) := by
  have hlocal := h.nodes n
  refine h.setNode ⟨fun e he => he, fun x hx => ⟨hx.lt, by simp⟩, fun x _ e he _ => he⟩
    ⟨hlocal.replay, hlocal.execLe, hlocal.execBase, hlocal.lastMem, hlocal.histLe, by simp⟩
    (h.covers n) (by simp)

/-! ## Calls -/

/-- A new call of `invoke`, not waited for by anyone yet. -/
theorem Kept.newInvoke (h : Kept svc views st s) (hr : Recovering views s) (dst : NodeId)
    (vs : Viewstamp) (req : ρ) :
    Kept svc views st { s with
      invokes := update s.invokes s.nextCall (.sent dst vs req)
      nextCall := s.nextCall + 1 } := by
  have hold : ∀ k, s.invokes k ≠ .unused →
      update s.invokes s.nextCall (.sent dst vs req) k = s.invokes k := by
    intro k hk
    refine update_of_ne ?_ _ _
    rintro rfl
    exact hk (hr.fresh _ le_rfl).1
  refine ⟨h.nodes, h.covers, h.contacted, ?_, ?_, h.transfer, h.acked⟩
  · intro n inv k hinv hc
    have hcall := h.call n inv k hinv hc
    show update _ _ _ k = _ ∨ ∃ b, update _ _ _ k = _
    rw [hold k]
    · exact hcall
    · rcases hcall with hcall | ⟨b, hcall⟩ <;> simp [hcall]
  · intro k dst' vs' req' hk
    replace hk : update s.invokes s.nextCall (.sent dst vs req) k = _ := hk
    by_cases hkn : k = s.nextCall
    · rw [hkn, update_self] at hk
      cases hk
    · rw [update_of_ne hkn] at hk
      exact h.replied k dst' vs' req' hk

theorem kept_sendInvoke (h : Kept svc views st s) (hr : Recovering views s) {inv : Invoking ρ}
    (hinv : (s.nodes n).invoking = some inv) : Kept svc views st (s.sendInvoke n inv) := by
  have hlocal := h.nodes n
  have hvs := (hlocal.flight inv hinv).1
  have hk := h.newInvoke hr inv.target inv.vs inv.req
  have hset : Kept svc views st (Sys.setNode { s with
      invokes := update s.invokes s.nextCall (.sent inv.target inv.vs inv.req)
      nextCall := s.nextCall + 1 } n
      { s.nodes n with invoking := some { inv with call := some s.nextCall } }) := by
    refine hk.setNode (later_invoking _ fun x hx => hx.idle inv hinv)
      ⟨hlocal.replay, hlocal.execLe, hlocal.execBase, hlocal.lastMem, hlocal.histLe, ?_⟩
      (h.covers n) ?_
    · intro inv' hinv'
      cases hinv'
      exact hlocal.flight inv hinv
    · intro inv' hinv'
      cases hinv'
      refine ⟨h.contacted n inv hinv, ?_⟩
      intro k hc
      cases hc
      exact .inl (update_self _ _ _)
  unfold Sys.sendInvoke
  rw [← hvs]
  exact hset

/-- A call of `invoke` is answered. -/
theorem Kept.answer (h : Kept svc views st s) (hk : s.invokes k = .sent dst vs req) {b : Bool}
    (hb : b = true → Ran (s.nodes dst).execd vs req) :
    Kept svc views st { s with
      invokes := update s.invokes k (.replied dst vs req b) } := by
  refine ⟨h.nodes, h.covers, h.contacted, ?_, ?_, h.transfer, h.acked⟩
  · intro n inv k' hinv hc
    have hcall := h.call n inv k' hinv hc
    show update _ _ _ k' = _ ∨ ∃ b, update _ _ _ k' = _
    by_cases hkk : k' = k
    · subst hkk
      rw [hk] at hcall
      rcases hcall with hcall | ⟨_, hcall⟩
      · cases hcall
        exact .inr ⟨b, update_self _ _ _⟩
      · cases hcall
    · rw [update_of_ne hkk]
      exact hcall
  · intro k' dst' vs' req' hk'
    replace hk' : update s.invokes k (.replied dst vs req b) k' = _ := hk'
    by_cases hkk : k' = k
    · rw [hkk, update_self] at hk'
      injection hk' with h1 h2 h3 h4
      subst h1 h2 h3
      exact hb h4
    · rw [update_of_ne hkk] at hk'
      exact h.replied k' dst' vs' req' hk'

/-- A backup executes the request of an `invoke`. -/
theorem kept_served (h : Kept svc views st s) (hr : Recovering views s) (req : ρ)
    (hserve : (s.nodes dst).inviewchange = false) (hprim : (s.nodes dst).primary ≠ dst) :
    Kept svc views st (s.setNode dst ((s.nodes dst).served svc req)) := by
  have hlocal := h.nodes dst
  have hphase := hr.phase dst
  -- a node with a request of its own under way is the primary
  have hidle : (s.nodes dst).invoking = none := by
    cases hi : (s.nodes dst).invoking with
    | none => rfl
    | some inv => exact absurd ((hlocal.flight inv hi).2.2.2.2 hserve) hprim
  have hstamp := hlocal.takeStamp hphase hserve hidle
  have hexec := hstamp.execute req rfl le_rfl
  have hlater := later_execute svc { s.nodes dst with
    lastMyvs := (s.nodes dst).myvs
    myvs := (s.nodes dst).myvs.next } req
    fun x hx => left_ne_stamp hphase hserve hx.lt
  have hnode : { (s.nodes dst).served svc req with invoking := none }
      = (s.nodes dst).served svc req := by
    show ({ (s.nodes dst).served svc req with invoking := none } : Node σ ρ κ)
      = { (s.nodes dst).served svc req with invoking := (s.nodes dst).invoking }
    rw [hidle]
  rw [← hnode]
  refine h.setNode ?_ hexec ?_ ?_
  · exact ⟨hlater.keeps, fun x hx => hlater.left x ⟨hx.lt, hx.idle⟩,
      fun x hx => hlater.same x ⟨hx.lt, hx.idle⟩⟩
  · exact (h.covers dst).grow fun e he => List.mem_append_left _ he
  · nofun

theorem kept_serveInvoke (h : Kept svc views st s) (hr : Recovering views s)
    (hk : s.invokes k = .sent dst vs req) : Kept svc views st (s.serveInvoke svc k dst vs req) := by
  unfold Sys.serveInvoke
  rcases invoke_cases svc dst (s.nodes dst) vs req with heq | ⟨hserve, hprim, hvs, heq⟩
  · rw [heq]
    have hsame : s.setNode dst (s.nodes dst) = s := by simp [Sys.setNode]
    have hans := h.answer hk (b := false) (by simp)
    show Kept svc views st { s.setNode dst (s.nodes dst) with
      invokes := update s.invokes k (.replied dst vs req false) }
    rw [hsame]
    exact hans
  · rw [heq]
    refine (kept_served h hr req hserve hprim).answer hk ?_
    intro _
    rw [Sys.setNode_self]
    exact ⟨_, List.mem_append_right _ (List.mem_singleton_self _), hvs.symm, rfl⟩

/-- A call of `transferreq` is made. -/
theorem kept_sendTransfer (h : Kept svc views st s) (hr : Recovering views s) {m : NodeId}
    (hpc : (s.nodes n).recovery = .transfer m none) : Kept svc views st (s.sendTransfer n m) := by
  have hp := (recovering_sendTransfer hr hpc).phase n
  have hself : (s.sendTransfer n m).nodes n
      = { s.nodes n with recovery := .transfer m (some s.nextCall) } := s.setNode_self n _
  rw [hself] at hp
  have hk := h.quiet hr hp (quiet_recovery _ _)
  refine ⟨hk.nodes, hk.covers, hk.contacted, hk.call, hk.replied, ?_, hk.acked⟩
  intro k dst vid r hkr
  refine hk.transfer k dst vid r ?_
  replace hkr : update s.transfers s.nextCall _ k = _ := hkr
  by_cases hkn : k = s.nextCall
  · rw [hkn, update_self] at hkr
    cases hkr
  · rwa [update_of_ne hkn] at hkr

/-- A synchronising primary hands out its state with its history. -/
theorem kept_serveTransfer (h : Kept svc views st s) (hr : Recovering views s) {last : Viewstamp}
    {vid : Nat} : Kept svc views st (s.serveTransfer k dst last vid) := by
  refine ⟨h.nodes, h.covers, h.contacted, h.call, h.replied, ?_, h.acked⟩
  intro k' dst' vid' r hk'
  replace hk' : update s.transfers k _ k' = _ := hk'
  by_cases hkk : k' = k
  · rw [hkk, update_self] at hk'
    injection hk' with h1 h2 h3
    subst h1 h2
    obtain ⟨⟨hsync, hv⟩, rfl⟩ := transferreq_some h3
    have hpc := (hr.phase dst).pc
    rw [(hr.phase dst).insync hsync] at hpc
    refine ⟨?_, (h.nodes dst).histLe, ?_⟩
    · rw [hv, ← hpc.2.1]
      exact h.covers dst
    · intro x hx
      replace hx : (if last ≠ (s.nodes dst).lastMyvs then some (s.nodes dst).state else none)
        = some x := hx
      split at hx
      · cases hx
        exact (h.nodes dst).replay
      · cases hx
  · rw [update_of_ne hkk] at hk'
    exact h.transfer k' dst' vid' r hk'

end Kept

/-! ## What the code would have to ensure -/

/-- The condition on a step. -/
def SafeStep (views : Nat → List NodeId) (s : Sys σ ρ κ) : Event ρ → Prop
  -- the primary was in every view since it last obtained a state
  | .takeInvokeMutex n => ∀ x < (s.nodes n).vidInsync, (s.nodes n).base ≤ x → x ≠ 0 → n ∈ views x
  -- no later view has served requests already
  | .backupsWake n => (s.nodes n).vidInsync = (s.nodes n).vidCommit →
      ∀ a ∈ s.acked, a.vs.vid ≤ (s.nodes n).vidCommit
  -- no `client_invoke` is under way at a node that installs a state
  | .transferReturn n => (s.nodes n).invoking = none
  -- `client_invoke` skips nobody but the node itself
  | .invokeReturn n => ∀ inv ∈ (s.nodes n).invoking, ∀ m ∈ inv.rest,
      m = (s.nodes n).primary → m = n
  | _ => True

instance (views : Nat → List NodeId) (s : Sys σ ρ κ) (e : Event ρ) :
    Decidable (SafeStep views s e) := by
  rcases e <;> unfold SafeStep <;> infer_instance

section Run

variable {svc : Service σ ρ κ} {views : Nat → List NodeId} {st : σ} {s s' : Sys σ ρ κ}

theorem kept_step (h0 : views 0 = []) (h : Kept svc views st s) (hr : Recovering views s)
    {e : Event ρ} (hok : SafeStep views s e) (hs : step svc views s e = some s') :
    Kept svc views st s' := by
  have hr' := recovering_step h0 hr hs
  -- a node's phase after the step
  have hphase : ∀ n nd, s'.nodes = (s.setNode n nd).nodes → Phase views n nd := by
    intro n nd heq
    have := hr'.phase n
    rwa [heq, Sys.setNode_self] at this
  cases trans_of_step hs with
  | commitChange hc => exact h.quiet hr (hphase _ _ rfl) (quiet_commitChangeWo hc)
  | @recoveryRetry n hpc => exact h.quiet hr (hphase _ _ rfl) ((Quiet.refl _).recoveryHead n)
  | @joined n vid nd hpc hc =>
    exact h.quiet hr (hphase _ _ rfl) ((quiet_commitChangeWo hc).recoveryHead n)
  | joinFails hpc => exact h.quiet hr (hphase _ _ rfl) (quiet_recovery _ _)
  | takeInvokeMutex hpc hidle => exact kept_syncWithBackups h hr hpc hidle hok
  | @backupsWake n hpc hb =>
    exact h.quiet hr (hphase _ _ rfl) (quiet_backupsWake n ((hr.phase n).waiting hpc))
  | sendTransfer hpc => exact kept_sendTransfer h hr hpc
  | transferreq hk => exact kept_serveTransfer h hr
  | transferReturn hpc hk => exact kept_installState h hr hpc hk hok
  | @transferFails n m c hpc => exact h.quiet hr (hphase _ _ rfl) (quiet_transferFails _ m)
  | sendDone hpc =>
    have hk := h.quiet hr (hphase _ _ rfl) (quiet_recovery _ _)
    exact ⟨hk.nodes, hk.covers, hk.contacted, hk.call, hk.replied, hk.transfer, hk.acked⟩
  | @transferdonereq k src dst vid hk =>
    have hk := h.quiet hr (hphase _ _ rfl) (quiet_transferdonereq _ src vid)
    exact ⟨hk.nodes, hk.covers, hk.contacted, hk.call, hk.replied, hk.transfer, hk.acked⟩
  | @doneReturn n m k ok hpc hk =>
    exact h.quiet hr (hphase _ _ rfl) (quiet_recoverySynced n ok ((hr.phase n).finishing hpc))
  | @doneFails n m c hpc =>
    exact h.quiet hr (hphase _ _ rfl) (quiet_recoverySynced n false ((hr.phase n).finishing hpc))
  | @sleepWake n hpc hv => exact h.quiet hr (hphase _ _ rfl) ((Quiet.refl _).recoveryHead n)
  | clientInvoke hidle => exact kept_clientInvoke h0 h hr _ hidle
  | sendInvoke hinv hc => exact kept_sendInvoke h hr hinv
  | invoke hk => exact kept_serveInvoke h hr hk
  | invokeReturn hinv hc hk => exact kept_invokeReturn h hinv hc hk (hok _ hinv)
  | invokeRefused hinv hc hk | invokeFails hinv => exact kept_giveUp h _

theorem kept_reach (h0 : views 0 = []) {first : NodeId}
    (hr : Reach (step svc views) (SafeStep views) (Sys.init first st) s) :
    Kept svc views st s ∧ Recovering views s := by
  refine hr.invariant (fun s => Kept svc views st s ∧ Recovering views s)
    ⟨kept_init svc views first st, recovering_init h0 first st⟩ ?_
  intro s e s' h hok hs
  exact ⟨kept_step h0 h.1 h.2 hok hs, recovering_step h0 h.2 hs⟩

/-- Only `sync_with_backups` makes a node serve requests as primary. -/
theorem finishes_as_primary (hr : Recovering views s) {e : Event ρ} {n : NodeId}
    (hs : step svc views s e = some s') (hbefore : (s.nodes n).inviewchange = true)
    (hafter : (s'.nodes n).inviewchange = false) (hprim : (s'.nodes n).primary = n) :
    e = .backupsWake n ∧ (s.nodes n).recovery = .waitBackups ∧
      (s.nodes n).vidInsync = (s.nodes n).vidCommit ∧ Quiet (s.nodes n) (s'.nodes n) := by
  -- the step is one of node `n` and makes it leave the view change
  have hself : ∀ x nd, s'.nodes = (s.setNode x nd).nodes → x = n ∧ nd.inviewchange = false := by
    intro x nd heq
    rw [heq] at hafter
    by_cases hx : n = x
    · subst hx
      rw [Sys.setNode_self] at hafter
      exact ⟨rfl, hafter⟩
    · rw [Sys.setNode_of_ne _ _ hx, hbefore] at hafter
      cases hafter
  have hkeeps : ∀ x nd (P : Prop), s'.nodes = (s.setNode x nd).nodes →
      (nd.inviewchange = false → (s.nodes x).inviewchange = false) → P := by
    intro x nd P heq himp
    obtain ⟨rfl, hnd⟩ := hself x nd heq
    rw [hbefore] at himp
    cases himp hnd
  cases trans_of_step hs with
  | commitChange hc => exact hkeeps _ _ _ rfl (commitChangeWo_serves hc)
  | recoveryRetry _ => exact hkeeps _ _ _ rfl fun h => by rwa [recoveryHead_inviewchange] at h
  | joined _ hc =>
    refine hkeeps _ _ _ rfl fun h => commitChangeWo_serves hc ?_
    rwa [recoveryHead_inviewchange] at h
  | joinFails _ | takeInvokeMutex _ _ => exact hkeeps _ _ _ rfl id
  | @backupsWake x hpc hb =>
    obtain ⟨rfl, hnd⟩ := hself _ _ rfl
    have hview : ({ s.nodes x with insync := false } : Node σ ρ κ).inviewchange = true := hbefore
    refine ⟨rfl, hpc, (recoverySynced_serves hview hnd).1, ?_⟩
    rw [Sys.setNode_self]
    exact quiet_backupsWake x hbefore
  | sendTransfer _ => exact hkeeps _ _ _ rfl id
  | transferreq _ => cases hbefore.symm.trans hafter
  | @transferReturn x m k dst vid r _ _ =>
    obtain ⟨_, _, heq⟩ := installState_eq svc (s.nodes x) r
    exact hkeeps _ _ _ rfl fun h => by rwa [heq] at h
  | transferFails _ =>
    refine hkeeps _ _ _ rfl fun h => ?_
    unfold Node.transferFails at h
    split at h <;> exact h
  | sendDone _ => exact hkeeps _ _ _ rfl id
  | @transferdonereq k src dst vid _ =>
    refine hkeeps _ _ _ rfl fun h => ?_
    rcases transferdonereq_cases (s.nodes dst) src vid with heq | ⟨_, _, heq⟩ <;> rw [heq] at h
    · exact h
    · exact h
  | @doneReturn x m k ok hpc _ =>
    obtain ⟨rfl, hnd⟩ := hself _ _ rfl
    rw [Sys.setNode_self] at hprim
    exact absurd hprim (doneEnds_not_primary hr hpc hnd)
  | @doneFails x m c hpc =>
    obtain ⟨rfl, hnd⟩ := hself _ _ rfl
    rw [Sys.setNode_self] at hprim
    exact absurd hprim (doneEnds_not_primary hr hpc hnd)
  | sleepWake _ _ => exact hkeeps _ _ _ rfl fun h => by rwa [recoveryHead_inviewchange] at h
  | @clientInvoke x req _ =>
    refine hkeeps _ _ _ rfl fun h => ?_
    unfold Node.clientInvoke at h
    split at h
    · exact h
    · rwa [(invokeLoop_fields _ _ _ _ _).2.2.1] at h
  | sendInvoke _ _ => exact hkeeps _ _ _ rfl id
  | @invoke k dst vs req _ =>
    refine hkeeps _ _ _ rfl fun h => ?_
    rcases invoke_cases svc dst (s.nodes dst) vs req with heq | ⟨_, _, _, heq⟩ <;> rw [heq] at h
    · exact h
    · exact h
  | invokeReturn _ _ _ =>
    refine hkeeps _ _ _ rfl fun h => ?_
    rwa [(invokeLoop_fields _ _ _ _ _).2.2.1] at h
  | invokeRefused _ _ _ | invokeFails _ => exact hkeeps _ _ _ rfl id

end Run

/-! ## Acknowledged requests survive -/

def joinThenLeave : Nat → List NodeId
  | 1 => [['a']]
  | 2 => [['a'], ['b']]
  | 3 => [['b']]
  | _ => []

def startFirst : List (Event Nat) :=
  [.commitChange ['a'] 1, .recoveryRetry ['a'], .takeInvokeMutex ['a'], .backupsWake ['a']]

def joinSecond : List (Event Nat) :=
  [.commitChange ['a'] 2, .sleepWake ['a'], .takeInvokeMutex ['a'], .recoveryRetry ['b'],
    .joined ['b'] 2, .sendTransfer ['b'], .transferreq 0, .transferReturn ['b'],
    .sendDone ['b'], .transferdonereq 1, .doneReturn ['b'], .backupsWake ['a']]

end Yfs.Rsm
