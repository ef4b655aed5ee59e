/-
Yfs.Config.Heartbeat — how far apart two members can be.

`decidereq` VERIFYs that the node is at most one instance behind the
decision it is told of. `heartbeat` VERIFYs that a ping that finds the
proposer running comes from a node at most one view away. Nothing else in
the code keeps the nodes together: a member may miss a decision, promise
and accept for a later instance all the same, and be told of THAT decision
(`lagging_member_aborts`).

The heartbeater looks at its view once in a round and drops `cfg_mutex`
around each ping, so a ping carries the view of the moment it is sent:
`beats` are the nodes that are still to be pinged in the round. A ping stays
on the network, as messages do.

The assertions need two things beside orderly acceptors. `InTurn`: a run
starts when the nodes it asks have decided the instance before and their
configs know it, and a config hears of its commits in order. `Fresh`: a ping
that finds the proposer running is from a node that is still where it was, and
of the two the one behind was in the view before the other's. That the two are
then at most one view apart is `BeatInv.behind`: a view is decided by a run,
and the run has asked all members of the view before.
-/
import Yfs.Config.Chain
import Yfs.Paxos.Decide

namespace Yfs.Config

open Function
open Yfs.Paxos (NodeId Value Acceptor Started LogRec Msg Decided Sound IsName)

/-! ## The system with heartbeats -/

structure Ping where
  src : NodeId
  dst : NodeId
  vid : Nat
  deriving DecidableEq, Repr

structure Beating where
  sys : Sys
  beats : NodeId → List NodeId
  pings : List Ping

def Beating.init (first : NodeId) : Beating :=
  { sys := Sys.init first, beats := fun _ => [], pings := [] }

inductive BeatEvent where
  | cfg (e : Event)
  -- the heartbeater of `p` wakes up, pings the next node, ends its round
  | wake (p : NodeId)
  | doheartbeat (p : NodeId)
  | rest (p : NodeId)
  | heartbeat (g : Ping)
  deriving DecidableEq, Repr

def Sys.view (s : Sys) (p : NodeId) (vid : Nat) : List NodeId :=
  members ((s.px.nodes p).acc.value vid)

/-- The VERIFY of `heartbeat`, with `isrunning`. -/
def HeartbeatOk (s : Sys) (g : Ping) : Prop :=
  (s.px.nodes g.dst).run ≠ none → g.vid = (s.cfg g.dst).myvid ∨
    g.vid = (s.cfg g.dst).myvid + 1 ∨ g.vid + 1 = (s.cfg g.dst).myvid

instance (s : Sys) (g : Ping) : Decidable (HeartbeatOk s g) := by
  unfold HeartbeatOk
  infer_instance

def beatStep (first : NodeId) (t : Beating) : BeatEvent → Option Beating
  | .cfg e => (step first t.sys e).map fun s => { t with sys := s }
  | .wake p =>
    if (t.sys.px.nodes p).alive then
      some { t with
        beats := update t.beats p (pinged p (t.sys.view p (t.sys.cfg p).myvid)) }
    else none
  | .doheartbeat p =>
    match t.beats p with
    | [] => none
    | m :: rest =>
      if (t.sys.px.nodes p).alive then
        some { t with
          beats := update t.beats p rest
          pings := ⟨p, m, (t.sys.cfg p).myvid⟩ :: t.pings }
      else none
  | .rest p => some { t with beats := update t.beats p [] }
  | .heartbeat g =>
    if g ∈ t.pings ∧ (t.sys.px.nodes g.dst).alive = true then
      if HeartbeatOk t.sys g then some t
      else
        let px := t.sys.px.setNode g.dst (t.sys.px.nodes g.dst).crash
        some { t with sys := { t.sys with px := px } }
    else none

/-- The assertions on relative progress that a step comes to. -/
def Passes (t : Beating) : BeatEvent → Prop
  | .cfg (.paxos (.handle (.decide q))) =>
    q.inst ≤ (t.sys.px.nodes q.dst).acc.instanceH + 1 ∧
    (q.inst = (t.sys.px.nodes q.dst).acc.instanceH + 1 → (t.sys.px.nodes q.dst).acc.vA = q.v)
  | .heartbeat g => HeartbeatOk t.sys g
  | _ => True

/-! ## Conditions on steps -/

/-- The nodes a run asks have decided the instance before and told their
configs. -/
def Informed (s : Sys) (st : Started) : Prop :=
  ∀ m ∈ st.nodes, st.inst ≤ (s.px.nodes m).acc.instanceH + 1 ∧ (s.px.nodes m).upcalls = []

/-- A view is changed when its members know it, and a config hears of the
commits in their order. -/
def InTurn (s : Sys) : Event → Prop
  | .run p st => (s.px.nodes p).alive = true → (s.px.nodes p).run = none → Informed s st
  | .upcall p u => (s.px.nodes p).upcalls.head? = some u
  | .restore p _ => (s.px.nodes p).upcalls = []
  | _ => True

/-- The sender of the ping is still where it was, and the one of the two that
is behind was in the view before the other's. -/
def Fresh (s : Sys) (g : Ping) : Prop :=
  (s.px.nodes g.src).alive = true ∧ (s.cfg g.src).myvid = g.vid ∧
    ((s.cfg g.dst).myvid < g.vid → g.dst ∈ s.view g.src (g.vid - 1)) ∧
    (g.vid < (s.cfg g.dst).myvid → g.src ∈ s.view g.dst ((s.cfg g.dst).myvid - 1))

instance (s : Sys) (st : Started) : Decidable (Informed s st) := by
  unfold Informed
  infer_instance

instance (s : Sys) (e : Event) : Decidable (InTurn s e) := by
  rcases e <;> unfold InTurn <;> infer_instance

instance (s : Sys) (g : Ping) : Decidable (Fresh s g) := by
  unfold Fresh
  infer_instance

def NamedBeat : BeatEvent → Prop
  | .cfg e => Named e
  | _ => True

def InStep (t : Beating) : BeatEvent → Prop
  | .cfg e => Named e ∧ Orderly t.sys e ∧ InTurn t.sys e
  | .heartbeat g => (t.sys.px.nodes g.dst).run ≠ none → g.vid ≠ (t.sys.cfg g.dst).myvid →
      Fresh t.sys g
  | _ => True

instance (e : BeatEvent) : Decidable (NamedBeat e) := by
  rcases e <;> unfold NamedBeat <;> infer_instance

instance (t : Beating) (e : BeatEvent) : Decidable (InStep t e) := by
  rcases e <;> unfold InStep <;> infer_instance

/-! ## From the acceptor to the config -/

/-- The upcalls lead from view `vid` up to instance `i`. -/
def Leads (vid : Nat) : List (Nat × Value) → Nat → Prop
  | [], i => vid = i
  | u :: us, i => vid < u.1 ∧ Leads u.1 us i

theorem Leads.concat {us : List (Nat × Value)} {vid i : Nat} (h : Leads vid us i)
    {u : Nat × Value} (hu : i < u.1) : Leads vid (us ++ [u]) u.1 := by
  induction us generalizing vid with
  | nil =>
    obtain rfl : vid = i := h
    exact ⟨hu, rfl⟩
  | cons w us ih => exact ⟨h.1, ih h.2⟩

/-- A node that is up after a step was up before, and has committed one
instance or none. -/
def Commits (nd nd' : Paxos.PNode) : Prop :=
  nd'.alive = true → nd.alive = true ∧
    ((nd'.upcalls = nd.upcalls ∧ nd'.acc.instanceH = nd.acc.instanceH) ∨
      ∃ u, nd'.upcalls = nd.upcalls ++ [u] ∧ nd'.acc.instanceH = u.1 ∧ nd.acc.instanceH < u.1)

theorem Commits.same {nd nd' : Paxos.PNode} (ha : nd'.alive = nd.alive)
    (hu : nd'.upcalls = nd.upcalls) (hi : nd'.acc.instanceH = nd.acc.instanceH) :
    Commits nd nd' :=
  fun h => ⟨ha ▸ h, .inl ⟨hu, hi⟩⟩

theorem Commits.crash (nd : Paxos.PNode) : Commits nd nd.crash := by
  nofun

theorem Commits.commit (me : NodeId) (nd : Paxos.PNode) (inst : Nat) (v : Value) :
    Commits nd (nd.commit me inst v) := by
  intro h
  refine ⟨h, ?_⟩
  unfold Paxos.PNode.commit Acceptor.commitWo
  by_cases hlt : nd.acc.instanceH < inst
  · right
    simp only [if_pos hlt]
    exact ⟨(inst, v), rfl, rfl, hlt⟩
  · left
    simp only [if_neg hlt, and_self]

theorem Commits.decidereq (me : NodeId) (nd : Paxos.PNode) (inst : Nat) (v : Value) :
    Commits nd (nd.decidereq me inst v) := by
  unfold Paxos.PNode.decidereq
  cases hd : nd.acc.decidereq me inst v with
  | none => exact .crash nd
  | some a =>
    rcases Paxos.decidereq_some hd with rfl | ⟨hi, hv, rfl⟩
    · exact .same rfl (by simp) rfl
    · have hlt : nd.acc.instanceH < inst := by omega
      have hinst : (nd.acc.commitWo me inst v).instanceH = inst := by
        unfold Acceptor.commitWo
        rw [if_pos hlt]
      intro h
      refine ⟨h, .inr ⟨(inst, nd.acc.vA), ?_, hinst, hlt⟩⟩
      show (if _ then _ else _) = _
      rw [if_pos (hlt.trans_eq hinst.symm)]

theorem commits_of_update {s s' : Paxos.Sys} {p : NodeId} {nd : Paxos.PNode}
    (hn : s'.nodes = update s.nodes p nd) (h : Commits (s.nodes p) nd) (q : NodeId) :
    Commits (s.nodes q) (s'.nodes q) := by
  rw [hn]
  rcases eq_or_ne q p with rfl | hq
  · rwa [update_self]
  · rw [update_of_ne hq]
    exact .same rfl rfl rfl

/-- What Paxos does on its own, and the start of a run. -/
theorem commits_of_paxos {first : NodeId} {s s' : Paxos.Sys} {e : Paxos.Event}
    (he : internal e = true ∨ ∃ p inst nodes v, e = .run p inst nodes v)
    (hs : Paxos.step first first s e = some s') (q : NodeId) :
    Commits (s.nodes q) (s'.nodes q) := by
  cases Paxos.trans_of_step hs with
  | run | call | bindFails => exact commits_of_update rfl (by exact .same rfl rfl rfl) q
  | bindAborts => exact commits_of_update rfl (.crash _) q
  | @servePrepare m _ =>
    refine commits_of_update rfl ?_ q
    refine .same rfl rfl ?_
    rcases Paxos.preparereq_cases (s.nodes m.dst).acc m.inst m.n with
      ⟨_, h⟩ | ⟨_, _, h⟩ | ⟨_, _, h⟩ <;> rw [h]
  | @serveAccept m _ =>
    refine commits_of_update rfl ?_ q
    refine .same rfl rfl ?_
    rcases Paxos.acceptreq_cases (s.nodes m.dst).acc m.n m.v with ⟨_, h⟩ | ⟨_, h⟩ <;> rw [h]
  | serveDecide => exact commits_of_update rfl (.decidereq _ _ _ _) q
  | @learnOld p r _ res =>
    refine commits_of_update rfl ?_ q
    exact fun h => Commits.commit p (s.nodes p) r.inst res.vA h
  | promised | accepted | fails => exact commits_of_update rfl (by exact .same rfl rfl rfl) q
  | crash => exact commits_of_update rfl (.crash _) q
  | dump => exact .same rfl rfl rfl
  | upcall | restart | restore =>
    rcases he with hi | ⟨_, _, _, _, hr⟩
    · cases hi
    · cases hr

/-! ## The invariant -/

/-- Node `m` has decided what comes before `inst`, and so has its config. -/
def Knows (s : Sys) (m : NodeId) (inst : Nat) : Prop :=
  inst ≤ (s.px.nodes m).acc.instanceH + 1 ∧
    ((s.px.nodes m).alive = true → inst ≤ (s.cfg m).myvid + 1)

def Underway (s : Sys) : Prop := ∀ p, (s.px.nodes p).alive = true →
  Leads (s.cfg p).myvid (s.px.nodes p).upcalls (s.px.nodes p).acc.instanceH

structure BeatInv (first : NodeId) (t : Beating) : Prop where
  cfg : Inv first t.sys
  decide : Paxos.DecideInv t.sys.px
  underway : Underway t.sys
  asked : ∀ st ∈ t.sys.px.started, ∀ m ∈ st.nodes, Knows t.sys m st.inst

section BeatInv

variable {first : NodeId} {s s' : Sys}

theorem Inv.myvid_le (h : Inv first s) (p : NodeId) :
    (s.cfg p).myvid ≤ (s.px.nodes p).acc.instanceH := by
  rcases (h.cfg p).view with ⟨h0, _⟩ | ⟨_, hle, _⟩
  · omega
  · exact hle

/-- What a step of the configs may do: no acceptor goes back, and a config
that is up was up and does not go back, or has caught up with its acceptor. -/
structure Advances (s s' : Sys) : Prop where
  instanceH : ∀ m, (s.px.nodes m).acc.instanceH ≤ (s'.px.nodes m).acc.instanceH
  myvid : ∀ m, (s'.px.nodes m).alive = true →
    ((s.px.nodes m).alive = true ∧ (s.cfg m).myvid ≤ (s'.cfg m).myvid) ∨
      (s.px.nodes m).acc.instanceH ≤ (s'.cfg m).myvid

theorem Knows.advances {m : NodeId} {inst : Nat} (h : Knows s m inst) (ha : Advances s s') :
    Knows s' m inst := by
  have hi := ha.instanceH m
  refine ⟨h.1.trans (by omega), fun halive => ?_⟩
  rcases ha.myvid m halive with ⟨hold, hle⟩ | hle
  · have := h.2 hold
    omega
  · have := h.1
    omega

/-- What a step does to one node: its config keeps the view it has, or goes
on to one from which the upcalls lead on. -/
def Follows (s s' : Sys) (q : NodeId) : Prop :=
  (Commits (s.px.nodes q) (s'.px.nodes q) ∧ (s'.cfg q).myvid = (s.cfg q).myvid) ∨
    ((s'.px.nodes q).alive = true →
      Leads (s'.cfg q).myvid (s'.px.nodes q).upcalls (s'.px.nodes q).acc.instanceH ∧
        (((s.px.nodes q).alive = true ∧ (s.cfg q).myvid ≤ (s'.cfg q).myvid) ∨
          (s.px.nodes q).acc.instanceH ≤ (s'.cfg q).myvid))

theorem Underway.follow (hu : Underway s) (hg : Paxos.Grows s.px s'.px) (hf : ∀ q, Follows s s' q) :
    Underway s' ∧ Advances s s' := by
  refine ⟨?_, hg.instanceH, ?_⟩
  · intro q halive
    rcases hf q with ⟨hpx, heq⟩ | hnew
    · obtain ⟨hold, ⟨h1, h2⟩ | ⟨u, h1, h2, hlt⟩⟩ := hpx halive
      · rw [heq, h1, h2]
        exact hu q hold
      · rw [heq, h1, h2]
        exact (hu q hold).concat hlt
    · exact (hnew halive).1
  · intro q halive
    rcases hf q with ⟨hpx, heq⟩ | hnew
    · exact .inl ⟨(hpx halive).1, heq.ge⟩
    · exact (hnew halive).2

variable {px : Paxos.Sys} {p : NodeId} {c : Cfg} {e : Event}

/-- The other nodes of a step of Paxos and of the config of one node. -/
theorem follows_both (hpx : ∀ q, q ≠ p → px.nodes q = s.px.nodes q)
    (hp : Follows s (s.both px p c) p) (q : NodeId) : Follows s (s.both px p c) q := by
  rcases eq_or_ne q p with rfl | hq
  · exact hp
  · left
    have hcfg : (s.both px p c).cfg q = s.cfg q := update_of_ne hq _ _
    have hnode : (s.both px p c).px.nodes q = s.px.nodes q := hpx q hq
    rw [hcfg, hnode]
    exact ⟨.same rfl rfl rfl, rfl⟩

theorem update_myvid {f : NodeId → Cfg} (h : c.myvid = (f p).myvid) (q : NodeId) :
    (update f p c q).myvid = (f q).myvid := by
  rcases eq_or_ne q p with rfl | hq
  · rw [update_self]
    exact h
  · rw [update_of_ne hq]

theorem Underway.upcall (hu : Underway s) {u : Nat × Value} (hturn : InTurn s (.upcall p u))
    (hpx : Paxos.step first first s.px (.upcall p u) = some px) (q : NodeId) :
    Follows s (s.both px p ((s.cfg p).paxosCommit u.1 u.2)) q := by
  cases Paxos.trans_of_step hpx with
  | upcall _ =>
    refine follows_both (fun q hq => Paxos.Sys.setNode_of_ne _ _ hq) (.inr fun halive => ?_) q
    simp only [Sys.both, Paxos.Sys.setNode_self, update_self] at halive ⊢
    obtain ⟨us, hus⟩ := List.head?_eq_some_iff.mp (show _ = some u from hturn)
    have hold := hu p halive
    rw [hus] at hold ⊢
    rw [List.erase_cons_head]
    exact ⟨hold.2, .inl ⟨halive, hold.1.le⟩⟩

/-- A config that starts, or reads the restored log, is where its acceptor
is. -/
theorem follows_reconstruct (hpx : ∀ q, q ≠ p → px.nodes q = s.px.nodes q)
    (hup : (px.nodes p).upcalls = [])
    (hle : (s.px.nodes p).acc.instanceH ≤ (px.nodes p).acc.instanceH)
    (hc : c.myvid = (px.nodes p).acc.instanceH) (q : NodeId) : Follows s (s.both px p c) q := by
  refine follows_both hpx (.inr fun _ => ?_) q
  have hcfg : (s.both px p c).cfg p = c := update_self _ _ _
  rw [hcfg, hc]
  refine ⟨?_, .inr hle⟩
  show Leads _ (px.nodes p).upcalls _
  rw [hup]
  rfl

theorem Underway.cfgStep (hu : Underway s) (h : Inv first s) (hord : Orderly s e)
    (hturn : InTurn s e) (hs : step first s e = some s') : Underway s' ∧ Advances s s' := by
  have hsame : Paxos.Grows s.px s.px := ⟨fun _ hm => hm, fun _ hst => hst, fun _ => le_rfl⟩
  cases trans_of_step hs with
  | @paxos e px hi hpx =>
    exact hu.follow (h.px.grows hord hpx) fun q =>
      .inl ⟨commits_of_paxos (.inl hi) hpx q, rfl⟩
  | check _ | propose _ =>
    exact hu.follow hsame fun q => .inl ⟨.same rfl rfl rfl, update_myvid (by rfl) q⟩
  | @run p st px hst hpx =>
    exact hu.follow (h.px.grows (h.run_orderly hst hord) hpx) fun q =>
      .inl ⟨commits_of_paxos (.inr ⟨_, _, _, _, rfl⟩) hpx q, update_myvid (by rfl) q⟩
  | refused _ => exact hu.follow hsame fun q => .inl ⟨.same rfl rfl rfl, update_myvid (by rfl) q⟩
  | @upcall p u px hpx =>
    exact hu.follow (h.px.grows (show Paxos.Orderly s.px (.upcall p u) from trivial) hpx)
      (hu.upcall hturn hpx)
  | @restart p px hpx =>
    have hg := h.px.grows (show Paxos.Orderly s.px (.restart p) from trivial) hpx
    refine hu.follow hg (follows_reconstruct ?_ ?_ (hg.instanceH p)
      (reconstruct_myvid (Nat.zero_le _)))
    · cases Paxos.trans_of_step hpx with
      | restart _ => exact fun q hq => Paxos.Sys.setNode_of_ne _ _ hq
    · cases Paxos.trans_of_step hpx with
      | restart _ =>
        rw [Paxos.Sys.setNode_self]
        rfl
  | @restore p file px hpx =>
    have hg := h.px.grows (show Paxos.Orderly s.px (.restore p file) from hord) hpx
    refine hu.follow hg (follows_reconstruct ?_ ?_ (hg.instanceH p)
      (reconstruct_myvid ((h.myvid_le p).trans (hg.instanceH p))))
    · cases Paxos.trans_of_step hpx with
      | restore _ => exact fun q hq => Paxos.Sys.setNode_of_ne _ _ hq
    · cases Paxos.trans_of_step hpx with
      | restore _ =>
        rw [Paxos.Sys.setNode_self]
        exact hturn

/-- The nodes a new run asks are informed, and the others stay so. -/
theorem asked_cfgStep (hu : Underway s)
    (hask : ∀ st ∈ s.px.started, ∀ m ∈ st.nodes, Knows s m st.inst) (hturn : InTurn s e)
    (ha : Advances s s') (hs : step first s e = some s') :
    ∀ st ∈ s'.px.started, ∀ m ∈ st.nodes, Knows s' m st.inst := by
  have hkeep : s'.px.started = s.px.started →
      ∀ st ∈ s'.px.started, ∀ m ∈ st.nodes, Knows s' m st.inst :=
    fun heq st hst m hm => (hask st (heq ▸ hst) m hm).advances ha
  cases trans_of_step hs with
  | @paxos e px hi hpx =>
    refine hkeep (paxos_started ?_ hpx)
    rintro p inst nodes v rfl
    cases hi
  | check _ => exact hkeep rfl
  | propose _ => exact hkeep rfl
  | @run p st px hst hpx =>
    cases Paxos.trans_of_step hpx with
    | run halive hnone =>
      intro st' hst' m hm
      rcases List.mem_cons.mp hst' with rfl | hold
      · -- with no upcall on its way, the config is where the acceptor is
        obtain ⟨hle, hup⟩ := hturn halive hnone m hm
        refine Knows.advances ⟨hle, fun hm => ?_⟩ ha
        have hleads := hu m hm
        rw [hup] at hleads
        exact hle.trans_eq (congrArg (· + 1) hleads.symm)
      · exact (hask st' hold m hm).advances ha
  | refused _ => exact hkeep rfl
  | upcall hpx | restart hpx | restore hpx => exact hkeep (paxos_started (by simp) hpx)

theorem decideInv_cfgStep (hd : Paxos.DecideInv s.px) (h : Inv first s)
    (hs : step first s e = some s') : Paxos.DecideInv s'.px := by
  cases trans_of_step hs with
  | paxos _ hpx => exact hd.step h.px hpx
  | check _ => exact hd
  | propose _ => exact hd
  | run _ hpx => exact hd.step h.px hpx
  | refused _ => exact hd
  | upcall hpx | restart hpx | restore hpx => exact hd.step h.px hpx

end BeatInv

/-! ## The assertions -/

section Assertions

variable {first : NodeId} {t t' : Beating}

/-- **How far a member can be behind.** A view was decided by a run that asked
the members of the one before, so they know that one. -/
theorem BeatInv.behind (h : BeatInv first t) {p m : NodeId}
    (hm : m ∈ t.sys.view p ((t.sys.cfg p).myvid - 1))
    (halive : (t.sys.px.nodes m).alive = true) :
    (t.sys.cfg p).myvid ≤ (t.sys.cfg m).myvid + 1 := by
  rcases (h.cfg.cfg p).view with ⟨h0, _⟩ | ⟨_, hle, v, hd, _⟩
  · omega
  · rcases h.cfg.px.sound.decided_valid hd with ⟨h1, _⟩ | ⟨_, _, st, hst, hi, _⟩
    · omega
    · rcases (h.cfg.started st hst).next with ⟨h1, _⟩ | ⟨k, w, hk, hki, hw, hnodes, _⟩
      · omega
      · have hpred : (t.sys.cfg p).myvid - 1 = k := by omega
        have hdk := (h.cfg.px.node p).acc.value_decided hk (by omega)
        unfold Sys.view at hm
        rw [hpred, h.cfg.px.sound.decided_unique hdk hw, ← hnodes] at hm
        exact hi ▸ (h.asked st hst m hm).2 halive

theorem BeatInv.heartbeatOk (h : BeatInv first t) {g : Ping}
    (hdst : (t.sys.px.nodes g.dst).alive = true) (hf : Fresh t.sys g) :
    HeartbeatOk t.sys g := by
  obtain ⟨hsrc, hvid, hbehind, hahead⟩ := hf
  intro _
  rcases lt_trichotomy g.vid (t.sys.cfg g.dst).myvid with hlt | heq | hgt
  · have hle := h.behind (hahead hlt) hsrc
    omega
  · exact .inl heq
  · have hmem := hbehind hgt
    rw [← hvid] at hmem
    have hle := h.behind hmem hdst
    omega

theorem BeatInv.passes (h : BeatInv first t) {e : BeatEvent} (hok : InStep t e)
    (hs : beatStep first t e = some t') : Passes t e := by
  cases e with
  | cfg e =>
    cases e with
    | paxos e =>
      cases e with
      | handle m =>
        cases m with
        | decide q =>
          obtain ⟨s, hs, _⟩ := Option.map_eq_some_iff.mp hs
          cases trans_of_step hs with
          | paxos _ hpx =>
            cases Paxos.trans_of_step hpx with
            | serveDecide hm => exact h.decide.passes h.cfg.px hm
        | _ => trivial
      | _ => trivial
    | _ => trivial
  | heartbeat g =>
    show HeartbeatOk t.sys g
    simp only [beatStep, Option.ite_none_right_eq_some] at hs
    intro hrun
    by_cases heq : g.vid = (t.sys.cfg g.dst).myvid
    · exact .inl heq
    · exact h.heartbeatOk hs.1.2 (hok hrun heq) hrun
  | wake p => trivial
  | doheartbeat p => trivial
  | rest p => trivial

theorem BeatInv.init : BeatInv first (Beating.init first) := by
  refine ⟨Inv.init, Paxos.DecideInv.init, ?_, ?_⟩
  · intro p _
    exact reconstruct_myvid (Nat.zero_le _)
  · nofun

theorem BeatInv.step (hfirst : IsName first) (h : BeatInv first t) {e : BeatEvent}
    (hok : InStep t e) (hs : beatStep first t e = some t') : BeatInv first t' := by
  have hpass := h.passes hok hs
  cases e with
  | cfg e =>
    obtain ⟨s, hcfg, rfl⟩ := Option.map_eq_some_iff.mp hs
    obtain ⟨hname, hord, hturn⟩ := hok
    obtain ⟨hunder, hadv⟩ := h.underway.cfgStep h.cfg hord hturn hcfg
    exact ⟨h.cfg.step hfirst hname hord hcfg, decideInv_cfgStep h.decide h.cfg hcfg, hunder,
      asked_cfgStep h.underway h.asked hturn hadv hcfg⟩
  | wake p =>
    obtain ⟨_, rfl⟩ := Run.of_guard hs
    exact ⟨h.cfg, h.decide, h.underway, h.asked⟩
  | doheartbeat p =>
    simp only [beatStep] at hs
    split at hs
    · cases hs
    · simp only [Option.ite_none_right_eq_some, Option.some.injEq] at hs
      obtain ⟨_, rfl⟩ := hs
      exact ⟨h.cfg, h.decide, h.underway, h.asked⟩
  | rest p =>
    cases hs
    exact ⟨h.cfg, h.decide, h.underway, h.asked⟩
  | heartbeat g =>
    simp only [beatStep, Option.ite_none_right_eq_some] at hs
    obtain ⟨_, hs⟩ := hs
    rw [if_pos (show HeartbeatOk t.sys g from hpass)] at hs
    cases hs
    exact h

end Assertions

end Yfs.Config
