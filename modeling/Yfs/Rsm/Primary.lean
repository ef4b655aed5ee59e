/-
Yfs.Rsm.Primary — do the nodes of a view agree on its primary?

`set_primary` computes the primary of a view from the node's PRESENT
primary: it stays if it is a member, otherwise the first node of the view
before that is still one. Along a sequence of views that each differ from
the last by one node, added at the end or taken out, a node that goes
through all of them has the HEAD of the view it is at.

Nothing sends the primary along when a node joins. A node that starts, or
starts again, has `_first` for its primary and goes from there to the
latest view in one step, and a node that was out of touch goes there from
an older view. The head of that older view may have been taken out since
and added again at the end. `set_primary` sees only that it is a member.

* `Agreed`: a sequence of views as the configuration module agrees on it.
* `step`: the system of `Yfs.Rsm.System` with nodes that can start again.
* `StayedIn`: the node's primary, if it is in the view the node goes to, was in
  every view since the one the node is at.
* `Headed`: the invariant, one node at a time.
-/
import Yfs.Rsm.Recovery
import Yfs.Config.Views

namespace Yfs.Rsm

variable {σ ρ κ : Type}

/-! ## What a step does to the primary and the committed view -/

def Node.led (nd : Node σ ρ κ) : NodeId × Nat := (nd.primary, nd.vidCommit)

section Led

variable (svc : Service σ ρ κ) (views : Nat → List NodeId) (me : NodeId) (nd : Node σ ρ κ)

@[simp] theorem led_recoveryHead : (nd.recoveryHead views me).led = nd.led := by
  unfold Node.recoveryHead
  split
  · split <;> rfl
  · rfl

@[simp] theorem led_recoverySynced (r : Bool) :
    (nd.recoverySynced views me r).led = nd.led := by
  unfold Node.recoverySynced
  split
  · exact led_recoveryHead views me nd
  · split <;> rfl

@[simp] theorem led_installState (r : TransferRes σ ρ κ) :
    (nd.installState svc r).led = nd.led := by
  obtain ⟨_, _, heq⟩ := installState_eq svc nd r
  rw [heq]
  rfl

@[simp] theorem led_transferdonereq (m : NodeId) (vid : Nat) :
    (nd.transferdonereq m vid).2.led = nd.led := by
  unfold Node.transferdonereq
  split <;> rfl

@[simp] theorem led_transferFails (m : NodeId) : (nd.transferFails m).led = nd.led := by
  unfold Node.transferFails
  split <;> rfl

@[simp] theorem led_invokeLoop (vs : Viewstamp) (req : ρ) (ms : List NodeId) :
    (nd.invokeLoop svc vs req ms).2.led = nd.led := by
  obtain ⟨hp, _, _, hv, _⟩ := invokeLoop_fields svc nd vs req ms
  exact Prod.ext hp hv

@[simp] theorem led_clientInvoke (req : ρ) :
    (nd.clientInvoke svc views me req).2.led = nd.led := by
  unfold Node.clientInvoke
  split
  · rfl
  · exact led_invokeLoop svc _ _ _ _

@[simp] theorem led_invoke (vs : Viewstamp) (req : ρ) :
    (nd.invoke svc me vs req).2.led = nd.led := by
  unfold Node.invoke
  split <;> rfl

end Led

theorem led_setNode (s : Sys σ ρ κ) {n : NodeId} {nd : Node σ ρ κ}
    (h : nd.led = (s.nodes n).led) (m : NodeId) :
    ((s.setNode n nd).nodes m).led = (s.nodes m).led := by
  rcases eq_or_ne m n with rfl | hne
  · rw [Sys.setNode_self]
    exact h
  · rw [Sys.setNode_of_ne s nd hne]

/-- The step commits view `vid` at node `n`. -/
def Event.Commits (n : NodeId) (vid : Nat) (e : Event ρ) : Prop :=
  e = .commitChange n vid ∨ e = .joined n vid

/-- Only `commit_change_wo` changes who leads which view. -/
theorem led_step {svc : Service σ ρ κ} {views : Nat → List NodeId} {s s' : Sys σ ρ κ}
    {e : Event ρ} (hs : step svc views s e = some s') (m : NodeId) :
    (s'.nodes m).led = (s.nodes m).led ∨
    ∃ vid nd, e.Commits m vid ∧ (s.nodes m).commitChangeWo views vid = some nd ∧
      (s'.nodes m).led = nd.led := by
  cases trans_of_step hs with
  | @commitChange n vid nd h =>
    rcases eq_or_ne m n with rfl | hne
    · exact .inr ⟨vid, nd, .inl rfl, h, by rw [Sys.setNode_self]⟩
    · exact .inl (by rw [Sys.setNode_of_ne _ _ hne])
  | @joined n vid nd _ h =>
    rcases eq_or_ne m n with rfl | hne
    · exact .inr ⟨vid, nd, .inr rfl, h, by rw [Sys.setNode_self, led_recoveryHead]⟩
    · exact .inl (by rw [Sys.setNode_of_ne _ _ hne])
  | recoveryRetry _ => exact .inl (led_setNode s (led_recoveryHead views _ _) m)
  | joinFails _ | takeInvokeMutex _ _ => exact .inl (led_setNode s (by rfl) m)
  | backupsWake _ _ => exact .inl (led_setNode s (by exact led_recoverySynced views _ _ _) m)
  | sendTransfer _ => exact .inl (led_setNode s (by rfl) m)
  | transferreq _ => exact .inl rfl
  | transferReturn _ _ => exact .inl (led_setNode s (by exact led_installState svc _ _) m)
  | transferFails _ => exact .inl (led_setNode s (led_transferFails _ _) m)
  | sendDone _ => exact .inl (led_setNode s (by rfl) m)
  | transferdonereq _ => exact .inl (led_setNode s (led_transferdonereq _ _ _) m)
  | doneReturn _ _ | doneFails _ => exact .inl (led_setNode s (led_recoverySynced views _ _ _) m)
  | sleepWake _ _ => exact .inl (led_setNode s (led_recoveryHead views _ _) m)
  | clientInvoke _ => exact .inl (led_setNode s (led_clientInvoke svc views _ _ _) m)
  | sendInvoke _ _ => exact .inl (led_setNode s (by rfl) m)
  | invoke _ => exact .inl (led_setNode s (led_invoke svc _ _ _ _) m)
  | invokeReturn _ _ _ => exact .inl (led_setNode s (led_invokeLoop svc _ _ _ _) m)
  | invokeRefused _ _ _ | invokeFails _ => exact .inl (led_setNode s (by rfl) m)

/-! ## Sequences of views -/

open Yfs.Config (NextView)

/-- The views 1 to `last` as the configuration module agrees on them. -/
structure Agreed (first : NodeId) (last : Nat) (views : Nat → List NodeId) : Prop where
  pos : 1 ≤ last
  zero : views 0 = []
  one : views 1 = [first]
  next : ∀ v, 1 ≤ v → v < last → NextView (views v) (views (v + 1))

theorem nodup_of_nextView {old new : List NodeId} (hnd : old.Nodup) (h : NextView old new) :
    new.Nodup := by
  rcases h with ⟨m, hm, rfl⟩ | ⟨m, _, rfl⟩
  · exact List.nodup_append.mpr ⟨hnd, by simp, fun a ha b hb => by grind⟩
  · exact hnd.erase m

/-- The head of a view stays the head as long as it is a member. -/
theorem head_of_nextView {old new : List NodeId} {p : NodeId} (hnd : old.Nodup)
    (h : NextView old new) (hp : old.head? = some p) (hmem : p ∈ new) : new.head? = some p := by
  obtain ⟨rest, rfl⟩ : ∃ rest, old = p :: rest := ⟨_, List.eq_cons_of_mem_head? hp⟩
  rcases h with ⟨m, _, rfl⟩ | ⟨m, _, rfl⟩
  · rfl
  · rcases eq_or_ne p m with rfl | hne
    · rw [List.erase_cons_head] at hmem
      exact absurd hmem (List.nodup_cons.mp hnd).1
    · rw [List.erase_cons_tail (by simpa using hne)]
      rfl

/-- The first node of the old view that is still there is the head of the
new one. -/
theorem head_of_find {old new : List NodeId} {p : NodeId} (hnd : old.Nodup)
    (h : NextView old new) (hp : old.find? (fun m => m ∈ new) = some p) :
    new.head? = some p := by
  cases old with
  | nil => cases hp
  | cons q rest =>
    by_cases hq : q ∈ new
    · rw [List.find?_cons_of_pos (by simpa using hq)] at hp
      cases hp
      exact head_of_nextView hnd h rfl hq
    · -- the head has been taken out, so the others are the new view
      obtain rfl : new = rest := by
        rcases h with ⟨m, _, rfl⟩ | ⟨m, _, rfl⟩
        · simp at hq
        · rcases eq_or_ne q m with rfl | hne
          · rw [List.erase_cons_head]
          · exact absurd ((List.mem_erase_of_ne hne).mpr List.mem_cons_self) hq
      rw [List.find?_cons_of_neg (by simpa using hq)] at hp
      cases new with
      | nil => cases hp
      | cons r new =>
        rw [List.find?_cons_of_pos (by simp)] at hp
        exact hp

section Agreed

variable {first : NodeId} {last : Nat} {views : Nat → List NodeId}

theorem Agreed.nodup (h : Agreed first last views) {v : Nat} (h1 : 1 ≤ v) (hle : v ≤ last) :
    (views v).Nodup := by
  induction v, h1 using Nat.le_induction with
  | base =>
    rw [h.one]
    exact List.nodup_singleton first
  | succ v h1 ih => exact nodup_of_nextView (ih (by omega)) (h.next v h1 (by omega))

/-- A head that is never taken out stays the head. -/
theorem Agreed.head_stays (h : Agreed first last views) {p : NodeId} {u v : Nat} (h1 : 1 ≤ u)
    (huv : u ≤ v) (hle : v ≤ last) (hp : (views u).head? = some p)
    (hmem : ∀ w, u ≤ w → w ≤ v → p ∈ views w) : (views v).head? = some p := by
  induction v, huv using Nat.le_induction with
  | base => exact hp
  | succ v huv ih =>
    have hv : (views v).head? = some p :=
      ih (by omega) fun w hu hw => hmem w hu (by omega)
    exact head_of_nextView (h.nodup (by omega) (by omega)) (h.next v (by omega) (by omega)) hv
      (hmem (v + 1) (by omega) le_rfl)

end Agreed

/-! ## Nodes that start again -/

inductive BootEvent (ρ : Type) where
  | rsm (e : Event ρ)
  | restart (n : NodeId)
  deriving DecidableEq, Repr

/-- `rsm::rsm`: the node whose address is `_first` commits view 1 at once. -/
def boot (views : Nat → List NodeId) (first me : NodeId) (st : σ) : Option (Node σ ρ κ) :=
  if first = me then (Node.new first st).commitChangeWo views 1 else some (Node.new first st)

/-- Steps of a system whose nodes may start again, all with the same `_first`. -/
def bootStep (svc : Service σ ρ κ) (views : Nat → List NodeId) (first : NodeId) (st : σ)
    (s : Sys σ ρ κ) : BootEvent ρ → Option (Sys σ ρ κ)
  | .rsm e => step svc views s e
  | .restart n => (boot views first n st).map (s.setNode n)

def BootEvent.commits : BootEvent ρ → Option (NodeId × Nat)
  | .rsm (.commitChange n vid) => some (n, vid)
  | .rsm (.joined n vid) => some (n, vid)
  | _ => none

/-- Nodes learn only views that have been agreed on. -/
def Learns (last : Nat) (e : BootEvent ρ) : Prop := ∀ c ∈ e.commits, c.2 ≤ last

instance (last : Nat) (e : BootEvent ρ) : Decidable (Learns last e) := by
  unfold Learns
  infer_instance

/-- If the primary of the node is in view `vid`, it has been in every view
since the one the node is at (view 1 for a node that has committed none). -/
def StayedIn (views : Nat → List NodeId) (nd : Node σ ρ κ) (vid : Nat) : Prop :=
  nd.primary ∈ views vid → ∀ u ≤ vid, nd.vidCommit ≤ u → u ≠ 0 → nd.primary ∈ views u

instance (views : Nat → List NodeId) (nd : Node σ ρ κ) (vid : Nat) :
    Decidable (StayedIn views nd vid) := by
  unfold StayedIn
  infer_instance

/-- The primary of every node that moves to another view was kept. -/
def KeepsPrimary (views : Nat → List NodeId) (s : Sys σ ρ κ) (e : BootEvent ρ) : Prop :=
  ∀ c ∈ e.commits, StayedIn views (s.nodes c.1) c.2

instance (views : Nat → List NodeId) (s : Sys σ ρ κ) (e : BootEvent ρ) :
    Decidable (KeepsPrimary views s e) := by
  unfold KeepsPrimary
  infer_instance

/-! ## The primary is the head of the view -/

/-- The primary of a node is the head of its view, and `_first` before it
has one. -/
def Headed (first : NodeId) (last : Nat) (views : Nat → List NodeId) (led : NodeId × Nat) : Prop :=
  led.2 = 0 ∧ led.1 = first ∨ 1 ≤ led.2 ∧ led.2 ≤ last ∧ (views led.2).head? = some led.1

section Headed

variable {first : NodeId} {last : Nat} {views : Nat → List NodeId} {nd nd' : Node σ ρ κ}

theorem headed_new (st : σ) :
    Headed first last views (Node.new first st : Node σ ρ κ).led := .inl ⟨rfl, rfl⟩

/-- Where the node is at, its primary is the head of view `max 1 vid_commit`. -/
theorem Headed.head (hv : Agreed first last views) (h : Headed first last views nd.led) :
    (views (max 1 nd.vidCommit)).head? = some nd.primary := by
  rcases h with ⟨hz, hp⟩ | ⟨h1, _, hp⟩
  · replace hz : nd.vidCommit = 0 := hz
    replace hp : nd.primary = first := hp
    rw [hz, hp, Nat.max_zero, hv.one]
    rfl
  · replace h1 : 1 ≤ nd.vidCommit := h1
    rw [max_eq_right h1]
    exact hp

/-- `set_primary` for an agreed view takes the head of it, if the present
primary was kept. -/
theorem setPrimary_head (hv : Agreed first last views) {vid w : Nat} (h1 : 1 ≤ w) (hw : w ≤ vid)
    (hlast : vid ≤ last) (hp : (views w).head? = some nd.primary)
    (hk : nd.primary ∈ views vid → ∀ u, w ≤ u → u ≤ vid → nd.primary ∈ views u)
    (h : nd.setPrimary views vid = some nd') : (views vid).head? = some nd'.primary := by
  unfold Node.setPrimary at h
  split at h
  · cases h
  · split at h
    · rename_i hmem
      cases h
      exact hv.head_stays h1 hw hlast hp (hk hmem)
    · split at h
      · rename_i m hm
        cases h
        obtain ⟨v, rfl⟩ : ∃ v, vid = v + 1 := ⟨vid - 1, by omega⟩
        have hm : (views v).find? (fun m => m ∈ views (v + 1)) = some m := hm
        cases v with
        | zero =>
          rw [hv.zero] at hm
          cases hm
        | succ v =>
          exact head_of_find (hv.nodup (by omega) (by omega)) (hv.next (v + 1) (by omega) hlast) hm
      · cases h

theorem Headed.commitChangeWo (hv : Agreed first last views) (h : Headed first last views nd.led)
    {vid : Nat} (hlast : vid ≤ last) (hk : StayedIn views nd vid)
    (hc : nd.commitChangeWo views vid = some nd') : Headed first last views nd'.led := by
  have hhead := h.head hv
  unfold Node.commitChangeWo at hc
  split at hc
  · cases hc
    exact h
  · rename_i hlt
    obtain ⟨p, _, rfl⟩ := setPrimary_eq hc
    refine .inr ⟨show 1 ≤ vid by omega, hlast, ?_⟩
    refine setPrimary_head hv (le_max_left 1 nd.vidCommit) (by omega) hlast ?_ ?_ hc
    · exact hhead
    · intro hmem u hu hle
      exact hk hmem u hle (by omega) (by omega)

theorem headed_boot (hv : Agreed first last views) {me : NodeId} {st : σ}
    (h : boot views first me st = some nd') : Headed first last views nd'.led := by
  unfold boot at h
  split at h
  · refine (headed_new st).commitChangeWo hv hv.pos ?_ h
    -- `_first` is the only member of view 1
    intro hmem u hu _ hne
    obtain rfl : u = 1 := by omega
    exact hmem
  · cases h
    exact headed_new st

theorem headed_bootStep (hv : Agreed first last views)
    {svc : Service σ ρ κ} {st : σ} {s s' : Sys σ ρ κ} {e : BootEvent ρ}
    (h : ∀ n, Headed first last views (s.nodes n).led) (hl : Learns last e)
    (hk : KeepsPrimary views s e) (hs : bootStep svc views first st s e = some s') (n : NodeId) :
    Headed first last views (s'.nodes n).led := by
  cases e with
  | rsm e =>
    rcases led_step hs n with heq | ⟨vid, nd, he, hc, heq⟩
    · rw [heq]
      exact h n
    · rw [heq]
      have hcom : (n, vid) ∈ (BootEvent.rsm e).commits := by
        rcases he with rfl | rfl <;> rfl
      exact (h n).commitChangeWo hv (hl _ hcom) (hk _ hcom) hc
  | restart m =>
    obtain ⟨nd, hnd, rfl⟩ := Option.map_eq_some_iff.mp hs
    exact Sys.forall_setNode (P := fun _ x => Headed first last views x.led)
      (headed_boot hv hnd) h n

/-- Two nodes at one view have one head. -/
theorem Headed.primary_eq {a b : Node σ ρ κ} (ha : Headed first last views a.led)
    (hb : Headed first last views b.led) (hv : a.vidCommit = b.vidCommit) :
    a.primary = b.primary := by
  rcases ha with ⟨hza, hpa⟩ | ⟨h1a, _, hpa⟩
  · rcases hb with ⟨_, hpb⟩ | ⟨h1b, _, _⟩
    · exact hpa.trans hpb.symm
    · replace h1b : 1 ≤ b.vidCommit := h1b
      replace hza : a.vidCommit = 0 := hza
      omega
  · rcases hb with ⟨hzb, _⟩ | ⟨_, _, hpb⟩
    · replace h1a : 1 ≤ a.vidCommit := h1a
      replace hzb : b.vidCommit = 0 := hzb
      omega
    · replace hpa : (views a.vidCommit).head? = some a.primary := hpa
      replace hpb : (views b.vidCommit).head? = some b.primary := hpb
      rw [hv] at hpa
      exact Option.some.inj (hpa.symm.trans hpb)

end Headed

/-! ## Agreement on the primary -/

open Yfs.Run (Reach exists_reach)

/-- In a run in which no node goes to a view whose list has its old
primary back in after it was out, all nodes at one view have one primary. -/
theorem same_view_same_primary (svc : Service σ ρ κ) (views : Nat → List NodeId)
    (first : NodeId) (st : σ) (last : Nat) (hv : Agreed first last views)
    (s : Sys σ ρ κ)
    (h : Reach (bootStep svc views first st) (fun s e => Learns last e ∧ KeepsPrimary views s e)
      (Sys.init first st) s) (m n : NodeId)
    (heq : (s.nodes m).vidCommit = (s.nodes n).vidCommit) :
    (s.nodes m).primary = (s.nodes n).primary := by
  have hall : ∀ n, Headed first last views (s.nodes n).led :=
    h.invariant (fun s => ∀ n, Headed first last views (s.nodes n).led) (fun _ => headed_new st)
      fun s e s' hi hok hs n => headed_bootStep hv hi hok.1 hok.2 hs n
  exact (hall m).primary_eq (hall n) heq

def outAndIn : Nat → List NodeId
  | 1 => [['1']]
  | 2 => [['1'], ['2']]
  | 3 => [['2']]
  | 4 => [['2'], ['1']]
  | _ => []

theorem agreed_outAndIn : Agreed ['1'] 4 outAndIn := by
  refine ⟨by decide, rfl, rfl, fun v h1 h4 => ?_⟩
  obtain rfl | rfl | rfl : v = 1 ∨ v = 2 ∨ v = 3 := by omega
  · exact .inl ⟨['2'], by decide, rfl⟩
  · exact .inr ⟨['1'], by decide, rfl⟩
  · exact .inl ⟨['1'], by decide, rfl⟩

def followers : List (BootEvent Nat) :=
  [.rsm (.commitChange ['1'] 1), .rsm (.recoveryRetry ['2']), .rsm (.joined ['2'] 2),
   .rsm (.commitChange ['1'] 2), .rsm (.commitChange ['1'] 3), .rsm (.commitChange ['2'] 3),
   .rsm (.commitChange ['1'] 4), .rsm (.commitChange ['2'] 4)]

/-- While node 2 follows all views, both nodes have node 2 for the primary
of view 4. -/
theorem same_view_same_primary_followers : ∃ s : Sys Nat Nat Nat,
    Reach (bootStep register outAndIn ['1'] 0)
      (fun s e => Learns 4 e ∧ KeepsPrimary outAndIn s e) (Sys.init ['1'] 0) s ∧
    (s.nodes ['1']).vidCommit = 4 ∧ (s.nodes ['2']).vidCommit = 4 ∧
    (s.nodes ['1']).primary = (s.nodes ['2']).primary := by
  obtain ⟨s, hr, h1, h2⟩ : ∃ s, Reach (bootStep register outAndIn ['1'] 0)
      (fun s e => Learns 4 e ∧ KeepsPrimary outAndIn s e) (Sys.init ['1'] 0) s ∧
      (s.nodes ['1']).vidCommit = 4 ∧ (s.nodes ['2']).vidCommit = 4 :=
    Run.exists_reach followers (by decide +kernel)
  exact ⟨s, hr, h1, h2, same_view_same_primary register outAndIn ['1'] 0 4
    agreed_outAndIn s hr ['1'] ['2'] (h1.trans h2.symm)⟩

/-- Node 2 starts again in view 4 and joins: it takes node 1 for the primary
of that view, and node 1 takes node 2. -/
theorem restarted_member_disagrees : ∃ s : Sys Nat Nat Nat,
    Agreed ['1'] 4 outAndIn ∧
    Reach (bootStep register outAndIn ['1'] 0) (fun _ e => Learns 4 e) (Sys.init ['1'] 0) s ∧
    (s.nodes ['1']).vidCommit = 4 ∧ (s.nodes ['2']).vidCommit = 4 ∧
    (s.nodes ['1']).primary = ['2'] ∧ (s.nodes ['2']).primary = ['1'] := by
  obtain ⟨s, hr, hend⟩ : ∃ s : Sys Nat Nat Nat,
      Reach (bootStep register outAndIn ['1'] 0) (fun _ e => Learns 4 e) (Sys.init ['1'] 0) s ∧
      (s.nodes ['1']).vidCommit = 4 ∧ (s.nodes ['2']).vidCommit = 4 ∧
      (s.nodes ['1']).primary = ['2'] ∧ (s.nodes ['2']).primary = ['1'] :=
    Run.exists_reach (followers ++ [.restart ['2'], .rsm (.recoveryRetry ['2']),
      .rsm (.joined ['2'] 4)]) (by decide +kernel)
  exact ⟨s, agreed_outAndIn, hr, hend⟩

end Yfs.Rsm
