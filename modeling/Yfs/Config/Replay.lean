/-
Yfs.Config.Replay — nodes join while the others go on: a log is restored
record by record.

`config::restore` has `cfg_mutex` from its beginning to its end, so no other
step of that config comes in between. The acceptor is not protected:
`acceptor::restore` takes no `pxs_mutex`, and a request that is served in
between finds an acceptor half way and is logged at the end of the file that
is being read.

`Undisturbed` says that this does not happen. Then a restore is as good as
one step, taken when it begins (`simulates`): `done` is the system with the
restores that are going on finished. So the chain of views and the assertions
on relative progress, which `Chain` and `Heartbeat` prove for restores in one
step, hold here; what a node has committed in the middle of a restore is a
part of what it will have (`Committed`).
-/
import Yfs.Config.Heartbeat
import Yfs.Paxos.Replay

namespace Yfs.Config

open Yfs.Run Function
open Yfs.Paxos (NodeId Value Acceptor Started LogRec Msg Decided IsName)

/-! ## The system -/

/-- `reading p` is the number of records that the restore at `p` has read. -/
structure Replaying where
  beat : Beating
  reading : NodeId → Option Nat

def Replaying.init (first : NodeId) : Replaying :=
  { beat := Beating.init first, reading := fun _ => none }

inductive ReplayEvent where
  | beat (e : BeatEvent)
  -- `log::restore`, then the turns of the loop of `logread`
  | restore (p : NodeId) (file : List LogRec)
  | replay (p : NodeId)
  deriving DecidableEq, Repr

/-- The node whose `cfg_mutex` a step takes. -/
def BeatEvent.locks : BeatEvent → Option NodeId
  | .cfg (.check p _) => some p
  | .cfg (.propose p _) => some p
  | .cfg (.upcall p _) => some p
  | .wake p => some p
  | .doheartbeat p => some p
  | .heartbeat g => some g.dst
  | _ => none

def BeatEvent.usesAcceptor : BeatEvent → Option NodeId
  | .cfg (.paxos e) => e.usesAcceptor
  | .cfg (.run p _) => some p
  | _ => none

def BeatEvent.isRestore : BeatEvent → Bool
  | .cfg (.restore _ _) => true
  | _ => false

def BeatEvent.reading (reading : NodeId → Option Nat) : BeatEvent → NodeId → Option Nat
  | .cfg (.restart p) => update reading p none
  | _ => reading

def Beating.setNode (b : Beating) (p : NodeId) (nd : Paxos.PNode) (c : Cfg) : Beating :=
  { b with sys := b.sys.both (b.sys.px.setNode p nd) p c }

/-- The restore at `p` goes on: its acceptor, its config, how much is read. -/
def Replaying.goOn (t : Replaying) (p : NodeId) (a : Acceptor) (c : Cfg) (k : Option Nat) :
    Replaying :=
  { beat := t.beat.setNode p { t.beat.sys.px.nodes p with acc := a } c
    reading := update t.reading p k }

def replayStep (first : NodeId) (t : Replaying) : ReplayEvent → Option Replaying
  | .beat e =>
    if e.isRestore = false ∧ ∀ p ∈ e.locks, t.reading p = none then
      (beatStep first t.beat e).map fun b => { beat := b, reading := e.reading t.reading }
    else none
  | .restore p file =>
    if (t.beat.sys.px.nodes p).alive = true ∧ Msg.dump file ∈ t.beat.sys.px.msgs ∧
        t.reading p = none then
      some (t.goOn p { (t.beat.sys.px.nodes p).acc with log := file } (t.beat.sys.cfg p) (some 0))
    else none
  | .replay p =>
    if (t.beat.sys.px.nodes p).alive then
      match t.reading p with
      | none => none
      | some k =>
        match (t.beat.sys.px.nodes p).acc.log[k]? with
        | some r => some (t.goOn p ((t.beat.sys.px.nodes p).acc.readRec r) (t.beat.sys.cfg p)
            (some (k + 1)))
        -- the end of the file: `reconstruct`, and `restore` returns
        | none => some (t.goOn p (t.beat.sys.px.nodes p).acc
            ((t.beat.sys.cfg p).reconstruct (t.beat.sys.px.nodes p).acc) none)
    else none

/-! ## The system with the restores finished -/

def Cfg.readOn (c : Cfg) (a : Acceptor) (k : Option Nat) : Cfg :=
  if k.isSome then c.reconstruct (a.readOn k) else c

@[simp] theorem Cfg.readOn_none (c : Cfg) (a : Acceptor) : c.readOn a none = c := rfl

def Sys.readOn (s : Sys) (reading : NodeId → Option Nat) : Sys :=
  { px := s.px.readOn reading
    cfg := fun p => (s.cfg p).readOn (s.px.nodes p).acc (reading p) }

def Replaying.done (t : Replaying) : Beating :=
  { t.beat with sys := t.beat.sys.readOn t.reading }

section Commute

variable {first : NodeId} {s s' : Sys} {reading : NodeId → Option Nat}

/-- A node that is not reading. -/
theorem Sys.readOn_of_none {p : NodeId} (hp : reading p = none) :
    (s.readOn reading).cfg p = s.cfg p ∧ (s.readOn reading).px.nodes p = s.px.nodes p := by
  simp [Sys.readOn, hp]

/-- A step of Paxos that leaves the acceptors that are reading alone, and of
the config of a node that is not reading. -/
theorem Sys.readOn_both {px : Paxos.Sys} {p : NodeId} {c : Cfg} (hp : reading p = none)
    (hacc : ∀ q, reading q ≠ none → (px.nodes q).acc = (s.px.nodes q).acc) :
    (s.both px p c).readOn reading = (s.readOn reading).both (px.readOn reading) p c := by
  unfold Sys.readOn Sys.both
  congr 1
  funext q
  rcases eq_or_ne q p with rfl | hq
  · simp only [update_self, hp, Cfg.readOn_none]
  · simp only [update_of_ne hq]
    by_cases hr : reading q = none
    · simp only [hr, Cfg.readOn_none]
    · rw [hacc q hr]

theorem Sys.readOn_setCfg {p : NodeId} {c : Cfg} (hp : reading p = none) :
    (s.setCfg p c).readOn reading = (s.readOn reading).setCfg p c :=
  Sys.readOn_both hp fun _ _ => rfl

/-- The same without a step of a config. -/
theorem Sys.readOn_px {px : Paxos.Sys}
    (hacc : ∀ q, reading q ≠ none → (px.nodes q).acc = (s.px.nodes q).acc) :
    Sys.readOn { s with px := px } reading = { s.readOn reading with px := px.readOn reading } := by
  unfold Sys.readOn
  congr 1
  funext q
  by_cases hr : reading q = none
  · simp only [hr, Cfg.readOn_none]
  · show (s.cfg q).readOn (px.nodes q).acc _ = _
    rw [hacc q hr]

theorem plain_of_internal {e : Paxos.Event} (h : internal e = true) : e.plain = true := by
  cases e <;> first | rfl | cases h

/-- The acceptors that are reading are left alone. -/
theorem acc_of_unused {px px' : Paxos.Sys} {e : Paxos.Event} (hp : e.plain = true)
    (hu : ∀ p ∈ e.usesAcceptor, reading p = none) (hs : Paxos.step first first px e = some px')
    (q : NodeId) (hq : reading q ≠ none) : (px'.nodes q).acc = (px.nodes q).acc :=
  Paxos.acc_of_step hp (fun hmem => hq (hu q hmem)) hs

theorem step_readOn {e : Event} (hne : (BeatEvent.cfg e).isRestore = false)
    (hl : ∀ p ∈ (BeatEvent.cfg e).locks, reading p = none)
    (hu : ∀ p ∈ (BeatEvent.cfg e).usesAcceptor, reading p = none)
    (hs : step first s e = some s') :
    step first (s.readOn reading) e =
      some (s'.readOn ((BeatEvent.cfg e).reading reading)) := by
  cases e with
  | paxos e =>
    simp only [step, Option.ite_none_right_eq_some] at hs
    obtain ⟨hi, hs⟩ := hs
    obtain ⟨px, hpx, rfl⟩ := Option.map_eq_some_iff.mp hs
    have hplain := plain_of_internal hi
    refine (if_pos hi).trans ?_
    rw [show (s.readOn reading).px = s.px.readOn reading from rfl,
      Paxos.step_readOn hplain hu hpx, Option.map_some]
    exact congrArg some (Sys.readOn_px (acc_of_unused hplain hu hpx)).symm
  | check p ch =>
    obtain ⟨⟨ha, hsees⟩, rfl⟩ := of_guard hs
    obtain ⟨hcfg, hnode⟩ := Sys.readOn_of_none (s := s) (hl p rfl)
    simp only [step, hcfg, hnode, ha, hsees, and_self, if_true]
    exact congrArg some (Sys.readOn_setCfg (hl p rfl)).symm
  | propose p ch =>
    obtain ⟨⟨ha, hmem⟩, rfl⟩ := of_guard hs
    obtain ⟨hcfg, hnode⟩ := Sys.readOn_of_none (s := s) (hl p rfl)
    simp only [step, hcfg, hnode, ha, hmem, and_self, if_true]
    exact congrArg some (Sys.readOn_setCfg (hl p rfl)).symm
  | run p st =>
    have hp : reading p = none := hu p rfl
    obtain ⟨hcfg, hnode⟩ := Sys.readOn_of_none (s := s) hp
    simp only [step, Option.ite_none_right_eq_some] at hs
    obtain ⟨hmem, hs⟩ := hs
    simp only [step, hcfg, hmem, if_true]
    have hrun : ∀ q ∈ (Paxos.Event.run p st.inst st.nodes st.newv).usesAcceptor,
        reading q = none := fun q hq => by
      obtain rfl : p = q := Option.some.inj hq
      exact hp
    rw [show (s.readOn reading).px = s.px.readOn reading from rfl]
    split at hs
    · rename_i px hpx
      cases hs
      rw [Paxos.step_readOn rfl hrun hpx]
      exact congrArg some (Sys.readOn_both hp (acc_of_unused rfl hrun hpx)).symm
    · rename_i hpx
      cases hs
      have hnone : Paxos.step first first (s.px.readOn reading)
          (.run p st.inst st.nodes st.newv) = none := by
        simp only [Paxos.step, ite_eq_right_iff, reduceCtorEq, imp_false] at hpx ⊢
        exact hpx
      rw [hnone]
      exact congrArg some (Sys.readOn_setCfg hp).symm
  | upcall p u =>
    obtain ⟨px, hpx, rfl⟩ := Option.map_eq_some_iff.mp hs
    have hnone : ∀ q ∈ (Paxos.Event.upcall p u).usesAcceptor, reading q = none := by
      intro q hq
      cases hq
    obtain ⟨hcfg, _⟩ := Sys.readOn_of_none (s := s) (hl p rfl)
    simp only [step, hcfg]
    rw [show (s.readOn reading).px = s.px.readOn reading from rfl,
      Paxos.step_readOn rfl hnone hpx, Option.map_some]
    exact congrArg some (Sys.readOn_both (hl p rfl) (acc_of_unused rfl hnone hpx)).symm
  | restart p =>
    obtain ⟨px, hpx, rfl⟩ := Option.map_eq_some_iff.mp hs
    simp only [step]
    rw [show (s.readOn reading).px = s.px.readOn reading from rfl, Paxos.restart_readOn hpx,
      Option.map_some]
    refine congrArg some ?_
    have hself : update reading p none p = none := update_self _ _ _
    show _ = (s.both px p _).readOn (update reading p none)
    rw [Sys.readOn_both hself ?_]
    · unfold Sys.both Sys.readOn
      congr 1
      · funext q
        rcases eq_or_ne q p with rfl | hq
        · simp only [update_self, Paxos.Sys.readOn_nodes, Paxos.readOn_none]
        · simp only [update_of_ne hq]
    · intro q hq
      rcases eq_or_ne q p with rfl | hne
      · exact absurd hself hq
      · cases Paxos.trans_of_step hpx with
        | restart _ => rw [Paxos.Sys.setNode_of_ne _ _ hne]
  | restore p file => cases hne

theorem beatStep_readOn {b b' : Beating} {e : BeatEvent} (hne : e.isRestore = false)
    (hl : ∀ p ∈ e.locks, reading p = none) (hu : ∀ p ∈ e.usesAcceptor, reading p = none)
    (hs : beatStep first b e = some b') :
    beatStep first { b with sys := b.sys.readOn reading } e =
      some { b' with sys := b'.sys.readOn (e.reading reading) } := by
  cases e with
  | cfg e =>
    obtain ⟨s', hs', rfl⟩ := Option.map_eq_some_iff.mp hs
    simp only [beatStep, step_readOn hne hl hu hs', Option.map_some]
  | wake p =>
    obtain ⟨ha, rfl⟩ := of_guard hs
    obtain ⟨hcfg, hnode⟩ := Sys.readOn_of_none (s := b.sys) (hl p rfl)
    simp only [beatStep, Sys.view, hcfg, hnode, ha, if_true]
    rfl
  | doheartbeat p =>
    simp only [beatStep] at hs ⊢
    split at hs
    · cases hs
    · rename_i m rest hbeats
      simp only [Option.ite_none_right_eq_some, Option.some.injEq] at hs
      obtain ⟨ha, rfl⟩ := hs
      obtain ⟨hcfg, hnode⟩ := Sys.readOn_of_none (s := b.sys) (hl p rfl)
      simp only [hcfg, hnode, ha, if_true]
      rfl
  | rest p =>
    cases hs
    rfl
  | heartbeat g =>
    simp only [beatStep, Option.ite_none_right_eq_some] at hs
    obtain ⟨hg, hs⟩ := hs
    obtain ⟨hcfg, hnode⟩ := Sys.readOn_of_none (s := b.sys) (hl g.dst rfl)
    have hok : HeartbeatOk (b.sys.readOn reading) g ↔ HeartbeatOk b.sys g := by
      unfold HeartbeatOk
      rw [hcfg, hnode]
    refine (if_pos (show g ∈ b.pings ∧ _ from ⟨hg.1, hnode ▸ hg.2⟩)).trans ?_
    split at hs
    · rename_i hpass
      cases hs
      rw [if_pos (hok.mpr hpass)]
      rfl
    · rename_i hpass
      cases hs
      rw [if_neg (mt hok.mp hpass)]
      have hpx : Sys.readOn { b.sys with
          px := b.sys.px.setNode g.dst (b.sys.px.nodes g.dst).crash } reading = _ :=
        Sys.readOn_px fun q _ => Paxos.acc_of_update rfl fun _ => rfl
      show some _ = some { b with sys := Sys.readOn _ reading }
      rw [hpx, Paxos.Sys.readOn_setNode]
      rfl

end Commute

/-! ## Restores as one step -/

/-- No request is served, and no run starts or commits, at a node in the
middle of a restore. -/
def Undisturbed (t : Replaying) (e : BeatEvent) : Prop := ∀ p ∈ e.usesAcceptor, t.reading p = none

/-- A condition on the steps with restores in one step. -/
def Lifted (ok : Beating → BeatEvent → Prop) (t : Replaying) : ReplayEvent → Prop
  | .beat e => Undisturbed t e ∧ ok t.done e
  | .restore p file => ok t.done (.cfg (.restore p file))
  | .replay _ => True

instance (t : Replaying) (e : BeatEvent) : Decidable (Undisturbed t e) := by
  unfold Undisturbed
  infer_instance

instance (ok : Beating → BeatEvent → Prop) [∀ b e, Decidable (ok b e)] (t : Replaying)
    (e : ReplayEvent) : Decidable (Lifted ok t e) := by
  rcases e <;> unfold Lifted <;> infer_instance

section Simulation

variable {first : NodeId} {ok : Beating → BeatEvent → Prop} {t t' : Replaying}

/-- A state with these nodes and configs. -/
def Beating.withNodes (b : Beating) (nodes : NodeId → Paxos.PNode) (cfg : NodeId → Cfg) :
    Beating :=
  { b with sys := { px := { b.sys.px with nodes := nodes }, cfg := cfg } }

theorem Replaying.done_goOn (t : Replaying) (p : NodeId) (a : Acceptor) (c : Cfg)
    (k : Option Nat) :
    (t.goOn p a c k).done =
      t.done.setNode p { t.beat.sys.px.nodes p with acc := a.readOn k } (c.readOn a k) := by
  refine congrArg₂ t.beat.withNodes (funext fun q => ?_) (funext fun q => ?_)
  all_goals
    simp only [Replaying.goOn, Beating.setNode, Sys.both, Paxos.Sys.setNode]
    rcases eq_or_ne q p with rfl | hq
    · simp only [update_self]
    · simp only [update_of_ne hq]
      rfl

/-- Nothing changes when the node will have read the same. -/
theorem Replaying.done_goOn_eq {p : NodeId} {a : Acceptor} {c : Cfg} {k k' : Option Nat}
    (hk : t.reading p = k) (ha : a.readOn k' = (t.beat.sys.px.nodes p).acc.readOn k)
    (hc : c.readOn a k' = (t.beat.sys.cfg p).readOn (t.beat.sys.px.nodes p).acc k) :
    (t.goOn p a c k').done = t.done := by
  rw [Replaying.done_goOn, ha, hc, ← hk]
  exact congrArg₂ t.beat.withNodes (update_eq_self p t.done.sys.px.nodes)
    (update_eq_self p t.done.sys.cfg)

/-- **A restore is as good as one step**, taken when it begins: the step is
one of the system with the restores finished, or nothing there. -/
theorem simulates (e : ReplayEvent) (h : Lifted ok t e) (hs : replayStep first t e = some t') :
    t'.done = t.done ∨ ∃ d, ok t.done d ∧ beatStep first t.done d = some t'.done := by
  cases e with
  | beat e =>
    simp only [replayStep, Option.ite_none_right_eq_some] at hs
    obtain ⟨⟨hne, hl⟩, hs⟩ := hs
    obtain ⟨b, hb, rfl⟩ := Option.map_eq_some_iff.mp hs
    exact .inr ⟨e, h.2, beatStep_readOn hne hl h.1 hb⟩
  | restore p file =>
    obtain ⟨⟨ha, hm, hr⟩, rfl⟩ := of_guard hs
    refine .inr ⟨_, h, ?_⟩
    obtain ⟨hcfg, hnode⟩ := Sys.readOn_of_none (s := t.beat.sys) hr
    have hg : (t.done.sys.px.nodes p).alive = true ∧ Msg.dump file ∈ t.done.sys.px.msgs :=
      ⟨ha, hm⟩
    rw [Replaying.done_goOn, Paxos.readOn_restore]
    simp only [beatStep, step, Paxos.step, if_pos hg, Option.map_some, Paxos.Sys.setNode_self]
    rw [show t.done.sys.cfg p = t.beat.sys.cfg p from hcfg,
      show t.done.sys.px.nodes p = t.beat.sys.px.nodes p from hnode]
    rfl
  | replay p =>
    left
    simp only [replayStep, Option.ite_none_right_eq_some] at hs
    obtain ⟨_, hs⟩ := hs
    split at hs
    · cases hs
    · rename_i k hk
      split at hs
      · rename_i r hrec
        cases hs
        refine Replaying.done_goOn_eq hk (Paxos.readOn_readRec hrec) ?_
        unfold Cfg.readOn
        rw [Paxos.readOn_readRec hrec]
        rfl
      · rename_i hend
        cases hs
        refine Replaying.done_goOn_eq hk (Paxos.readOn_end hend).symm ?_
        unfold Cfg.readOn
        rw [Paxos.readOn_end hend]
        rfl

end Simulation

/-! ## What a node has committed in the middle of a restore -/

section Committed

variable {first : NodeId} {t t' : Replaying} {reading : NodeId → Option Nat}

theorem BeatEvent.reading_of_ne (e : BeatEvent) {q : NodeId} (h : e.reading reading q ≠ none) :
    e.reading reading q = reading q := by
  unfold BeatEvent.reading at h ⊢
  split
  · rename_i p
    rcases eq_or_ne q p with rfl | hq
    · exact absurd (update_self _ _ _) h
    · exact update_of_ne hq _ _
  · rfl

/-- The acceptors that are reading after a step are as they were. -/
theorem acc_of_beatStep {b b' : Beating} {e : BeatEvent} (hne : e.isRestore = false)
    (hl : ∀ p ∈ e.locks, reading p = none) (hu : ∀ p ∈ e.usesAcceptor, reading p = none)
    (hs : beatStep first b e = some b') {q : NodeId} (hq : e.reading reading q ≠ none) :
    (b'.sys.px.nodes q).acc = (b.sys.px.nodes q).acc := by
  cases e with
  | cfg e =>
    obtain ⟨s', hs', rfl⟩ := Option.map_eq_some_iff.mp hs
    cases trans_of_step hs' with
    | paxos hi hpx => exact acc_of_unused (plain_of_internal hi) hu hpx q hq
    | check _ => rfl
    | propose _ => rfl
    | @run p st px _ hpx =>
      refine acc_of_unused rfl (fun m hm => ?_) hpx q hq
      obtain rfl : p = m := Option.some.inj hm
      exact hu p rfl
    | refused _ => rfl
    | @upcall p u px hpx =>
      have hnone : ∀ m ∈ (Paxos.Event.upcall p u).usesAcceptor, reading m = none :=
        fun m hm => nomatch hm
      exact acc_of_unused rfl hnone hpx q hq
    | restart hpx =>
      cases Paxos.trans_of_step hpx with
      | restart _ =>
        refine Paxos.acc_of_update rfl fun h => absurd ?_ hq
        rw [h]
        exact update_self _ _ _
    | restore _ => cases hne
  | wake p =>
    simp only [beatStep, Option.ite_none_right_eq_some, Option.some.injEq] at hs
    rw [← hs.2]
  | doheartbeat p =>
    simp only [beatStep] at hs
    split at hs
    · cases hs
    · simp only [Option.ite_none_right_eq_some, Option.some.injEq] at hs
      rw [← hs.2]
  | rest p => rw [← Option.some.inj hs]
  | heartbeat g =>
    simp only [beatStep, Option.ite_none_right_eq_some] at hs
    obtain ⟨_, hs⟩ := hs
    split at hs
    · rw [← Option.some.inj hs]
    · rw [← Option.some.inj hs]
      exact Paxos.acc_of_update rfl fun _ => rfl

/-- A decided value stays when the rest of the file is read. -/
theorem readOn_values {M : List Msg} {S : List Started} {p : NodeId} {a : Acceptor}
    {k : Option Nat} (hs : Paxos.Sound first first M S)
    (ha : Paxos.AccOk first first M S p (a.readOn k)) {i : Nat} {v : Value}
    (hv : a.values i = some v) (hd : Decided first M S i v) : (a.readOn k).values i = some v := by
  cases k with
  | none => exact hv
  | some k =>
    have hsome : ((a.readOn (some k)).values i).isSome = true :=
      Paxos.logread_values_isSome (.inl (Option.isSome_iff_exists.mpr ⟨v, hv⟩))
    obtain ⟨w, hw⟩ := Option.isSome_iff_exists.mp hsome
    rw [hw, hs.decided_unique (ha.decided i w hw) hd]

/-- What a node has committed it will have when its restore is over. -/
def Committed (t : Replaying) : Prop := ∀ p i v,
  (t.beat.sys.px.nodes p).acc.values i = some v →
    ((t.beat.sys.px.nodes p).acc.readOn (t.reading p)).values i = some v

/-- One node goes on with its restore. -/
theorem Committed.goOn (h : Committed t) {p : NodeId} {a : Acceptor} {c : Cfg} {k : Option Nat}
    (ha : ∀ i v, a.values i = some v → (a.readOn k).values i = some v) :
    Committed (t.goOn p a c k) := by
  intro q i v hv
  simp only [Replaying.goOn, Beating.setNode, Sys.both] at hv ⊢
  rcases eq_or_ne q p with rfl | hq
  · rw [Paxos.Sys.setNode_self] at hv ⊢
    rw [update_self]
    exact ha i v hv
  · rw [Paxos.Sys.setNode_of_ne _ _ hq] at hv ⊢
    rw [update_of_ne hq]
    exact h q i v hv

theorem Committed.step (h : Committed t) (hinv : Inv first t.done.sys)
    (hinv' : Inv first t'.done.sys) {e : ReplayEvent}
    (hu : ∀ b, e = .beat b → Undisturbed t b) (hs : replayStep first t e = some t') :
    Committed t' := by
  cases e with
  | beat e =>
    simp only [replayStep, Option.ite_none_right_eq_some] at hs
    obtain ⟨⟨hne, hl⟩, hs⟩ := hs
    obtain ⟨b, hb, rfl⟩ := Option.map_eq_some_iff.mp hs
    intro q i v hv
    show ((b.sys.px.nodes q).acc.readOn (e.reading t.reading q)).values i = some v
    by_cases hq : e.reading t.reading q = none
    · rw [hq]
      exact hv
    · have hacc := acc_of_beatStep hne hl (hu e rfl) hb hq
      rw [hacc, e.reading_of_ne hq]
      exact h q i v (hacc ▸ hv)
  | restore p file =>
    obtain ⟨⟨_, _, hr⟩, rfl⟩ := of_guard hs
    refine h.goOn fun i v hv => ?_
    have hacc := (hinv'.px.node p).acc
    rw [Replaying.done_goOn] at hacc hinv'
    replace hacc : Paxos.AccOk first first _ _ p ((t.done.sys.px.setNode p _).nodes p).acc := hacc
    rw [Paxos.Sys.setNode_self] at hacc
    refine readOn_values hinv'.px.sound hacc hv ?_
    have hold := (hinv.px.node p).acc.decided i v
    rw [show t.done.sys.px.nodes p = _ from (Sys.readOn_of_none hr).2] at hold
    exact hold hv
  | replay p =>
    simp only [replayStep, Option.ite_none_right_eq_some] at hs
    obtain ⟨_, hs⟩ := hs
    split at hs
    · cases hs
    · rename_i k hk
      split at hs
      · rename_i r hrec
        cases hs
        refine h.goOn fun i v hv => ?_
        have hacc := (hinv.px.node p).acc
        replace hacc : Paxos.AccOk first first _ _ p
          ((t.beat.sys.px.nodes p).acc.readOn (t.reading p)) := hacc
        rw [hk, ← Paxos.readOn_readRec hrec] at hacc
        -- the value is from before, or it is in the record
        have hread : (Acceptor.logread _ [r]).values i = some v := hv
        rcases Paxos.logread_values hread with hold | hmem
        · have hdone := h p i v hold
          rwa [hk, ← Paxos.readOn_readRec hrec] at hdone
        · refine readOn_values hinv.px.sound hacc hv (hacc.file.decided i v ?_).2
          rw [Paxos.readOn_log, Paxos.readRec_log, List.mem_singleton.mp hmem]
          exact List.mem_of_getElem? hrec
      · cases hs
        exact h.goOn fun i v hv => hv

end Committed

/-! ## The chain of views -/

/-- Acceptors work on the instance they are at, and names are names. -/
def InOrder (b : Beating) : BeatEvent → Prop
  | .cfg e => Named e ∧ Orderly b.sys e
  | _ => True

instance (b : Beating) (e : BeatEvent) : Decidable (InOrder b e) := by
  rcases e <;> unfold InOrder <;> infer_instance

theorem Inv.beatStep {first : NodeId} {b b' : Beating} {e : BeatEvent} (hfirst : IsName first)
    (h : Inv first b.sys) (hok : InOrder b e) (hs : beatStep first b e = some b') :
    Inv first b'.sys := by
  cases e with
  | cfg e =>
    obtain ⟨s, hcfg, rfl⟩ := Option.map_eq_some_iff.mp hs
    exact h.step hfirst hok.1 hok.2 hcfg
  | wake p =>
    simp only [Config.beatStep, Option.ite_none_right_eq_some, Option.some.injEq] at hs
    exact hs.2 ▸ h
  | doheartbeat p =>
    simp only [Config.beatStep] at hs
    split at hs
    · cases hs
    · simp only [Option.ite_none_right_eq_some, Option.some.injEq] at hs
      exact hs.2 ▸ h
  | rest p => exact Option.some.inj hs ▸ h
  | heartbeat g =>
    simp only [Config.beatStep, Option.ite_none_right_eq_some] at hs
    obtain ⟨_, hs⟩ := hs
    split at hs
    · exact Option.some.inj hs ▸ h
    · -- a ping that aborts the node is a crash
      rw [← Option.some.inj hs]
      exact h.step (e := .paxos (.crash g.dst)) hfirst trivial trivial rfl

/-- The invariant, with the restores that are going on finished. -/
theorem Inv.replay {first : NodeId} {t : Replaying} (hfirst : IsName first)
    (h : Reach (replayStep first) (Lifted InOrder) (Replaying.init first) t) :
    Inv first t.done.sys ∧ Committed t := by
  refine h.invariant (fun t => Inv first t.done.sys ∧ Committed t) ⟨Inv.init, fun _ _ _ hv => hv⟩ ?_
  rintro t e t' ⟨hinv, hcom⟩ hok hs
  have hinv' : Inv first t'.done.sys := by
    rcases simulates e hok hs with heq | ⟨d, hd, hs'⟩
    · rwa [heq]
    · exact hinv.beatStep hfirst hd hs'
  refine ⟨hinv', hcom.step hinv hinv' ?_ hs⟩
  rintro b rfl
  exact hok.1

/-- **The chain of views.** In every state of a run with orderly steps and
undisturbed restores, no view that a node has committed is empty, and of two
it has committed one after the other, the second is the first with one new
node at the end or with one node less. -/
theorem committed_views_chain (first : NodeId) (hfirst : IsName first) (t : Replaying)
    (h : Reach (replayStep first) (Lifted InOrder) (Replaying.init first) t) (p : NodeId) :
    (∀ i v, (t.beat.sys.px.nodes p).acc.values i = some v → members v ≠ []) ∧
    ∀ i v w, (t.beat.sys.px.nodes p).acc.values i = some v →
      (t.beat.sys.px.nodes p).acc.values (i + 1) = some w → NextView (members v) (members w) := by
  obtain ⟨hinv, hcom⟩ := Inv.replay hfirst h
  have hdec : ∀ i v, (t.beat.sys.px.nodes p).acc.values i = some v →
      Decided first t.done.sys.px.msgs t.done.sys.px.started i v :=
    fun i v hv => (hinv.px.node p).acc.decided i v (hcom p i v hv)
  constructor
  · intro i v hv
    exact (view_ok hfirst hinv.px.sound hinv.started (hdec i v hv)).2
  · intro i v w hv hw
    exact nextView_of_decided hinv.px.sound hinv.started (hdec i v hv) (hdec (i + 1) w hw)

/-! ## The assertions on relative progress -/

/-- A node that comes to an assertion is not in the middle of a restore. -/
theorem passes_of_done {t : Replaying} {e : BeatEvent} (hl : ∀ p ∈ e.locks, t.reading p = none)
    (hu : Undisturbed t e) (h : Passes t.done e) : Passes t.beat e := by
  cases e with
  | cfg e =>
    cases e with
    | paxos e =>
      cases e with
      | handle m =>
        cases m with
        | decide q =>
          have hnode := (Sys.readOn_of_none (s := t.beat.sys) (hu q.dst rfl)).2
          simp only [Passes] at h ⊢
          rwa [show t.done.sys.px.nodes q.dst = t.beat.sys.px.nodes q.dst from hnode] at h
        | _ => trivial
      | _ => trivial
    | _ => trivial
  | heartbeat g =>
    obtain ⟨hcfg, hnode⟩ := Sys.readOn_of_none (s := t.beat.sys) (hl g.dst rfl)
    simp only [Passes, HeartbeatOk] at h ⊢
    rwa [show t.done.sys.px.nodes g.dst = t.beat.sys.px.nodes g.dst from hnode,
      show t.done.sys.cfg g.dst = t.beat.sys.cfg g.dst from hcfg] at h
  | wake p => trivial
  | doheartbeat p => trivial
  | rest p => trivial

/-- **No lagging member aborts**, in a run in which acceptors work on the
instance they are at, restores are undisturbed, a view is changed when its
members know it, and pings that find a proposer running are fresh. -/
theorem assertions_hold (first : NodeId) (hfirst : IsName first) (t t' : Replaying) (e : BeatEvent)
    (h : Reach (replayStep first) (Lifted InStep) (Replaying.init first) t)
    (hok : Lifted InStep t (.beat e)) (hs : replayStep first t (.beat e) = some t') :
    Passes t.beat e := by
  have hreach : Reach (beatStep first) InStep (Beating.init first) t.done :=
    h.simulate Replaying.done fun _ e _ hok hs => simulates e hok hs
  have hinv : BeatInv first t.done :=
    hreach.invariant (BeatInv first) BeatInv.init fun _ _ _ hi hok hs => hi.step hfirst hok hs
  simp only [replayStep, Option.ite_none_right_eq_some] at hs
  obtain ⟨⟨hne, hl⟩, hs⟩ := hs
  obtain ⟨b, hb, rfl⟩ := Option.map_eq_some_iff.mp hs
  exact passes_of_done hl hok.1 (hinv.passes hok.2 (beatStep_readOn hne hl hok.1 hb))

/-! ## Runs of two and three nodes -/

/-- The steps of a node that restores without a pause. -/
def Event.replayed : Event → List ReplayEvent
  | .restore p file => .restore p file :: List.replicate (file.length + 1) (.replay p)
  | e => [.beat (.cfg e)]

def NamedReplay : ReplayEvent → Prop
  | .beat e => NamedBeat e
  | _ => True

instance (e : ReplayEvent) : Decidable (NamedReplay e) := by
  rcases e <;> unfold NamedReplay <;> infer_instance

/-- `b` asks the first node to join, and view 2 is formed. -/
def secondView : List Event :=
  [.check ['a'] (.add ['b'] 1), .propose ['a'] (.add ['b'] 1),
    .run ['a'] ⟨2, [['a']], ['a', ' ', 'b', ' ']⟩] ++
  (Paxos.prepareAt ['a'] ⟨0, 0, ['a'], 2, ⟨1, ['a']⟩⟩ ⟨false, true, ⟨0, ['a']⟩, []⟩ ++
    Paxos.acceptAt ['a'] ⟨1, 0, ['a'], 2, ⟨1, ['a']⟩, ['a', ' ', 'b', ' ']⟩ ++
    Paxos.decideAt ['a'] ⟨2, 0, ['a'], 2, ['a', ' ', 'b', ' ']⟩).map .paxos ++
  [.upcall ['a'] (2, ['a', ' ', 'b', ' '])]

/-- `b` gets the log. The accept request of instance 2 is delivered once
more, in instance 3; then `c` asks to join. -/
def duplicateAccept : List Event :=
  [.paxos (.dump ['a']),
    .restore ['b'] [.done 1 ['a'], .propseen ⟨1, ['a']⟩,
      .accepted ⟨1, ['a']⟩ ['a', ' ', 'b', ' '], .done 2 ['a', ' ', 'b', ' ']],
    .paxos (.handle (.accept ⟨1, 0, ['a'], 2, ⟨1, ['a']⟩, ['a', ' ', 'b', ' ']⟩)),
    .check ['a'] (.add ['c'] 2), .propose ['a'] (.add ['c'] 2),
    .run ['a'] ⟨3, [['a'], ['b']], ['a', ' ', 'b', ' ', 'c', ' ']⟩] ++
  (Paxos.prepareAt ['a'] ⟨3, 1, ['a'], 3, ⟨2, ['a']⟩⟩
      ⟨false, true, ⟨1, ['a']⟩, ['a', ' ', 'b', ' ']⟩ ++
    Paxos.prepareAt ['a'] ⟨4, 1, ['b'], 3, ⟨2, ['a']⟩⟩ ⟨false, true, ⟨0, ['a']⟩, []⟩ ++
    Paxos.acceptAt ['a'] ⟨5, 1, ['a'], 3, ⟨2, ['a']⟩, ['a', ' ', 'b', ' ']⟩ ++
    Paxos.acceptAt ['a'] ⟨6, 1, ['b'], 3, ⟨2, ['a']⟩, ['a', ' ', 'b', ' ']⟩ ++
    Paxos.decideAt ['a'] ⟨7, 1, ['a'], 3, ['a', ' ', 'b', ' ']⟩).map .paxos

/-- `b` gets the log and has read all but its end. -/
def joining : List ReplayEvent :=
  secondView.flatMap Event.replayed ++
    [.beat (.cfg (.paxos (.dump ['a']))),
      .restore ['b'] [.done 1 ['a'], .propseen ⟨1, ['a']⟩,
        .accepted ⟨1, ['a']⟩ ['a', ' ', 'b', ' '], .done 2 ['a', ' ', 'b', ' ']],
      .replay ['b'], .replay ['b'], .replay ['b'], .replay ['b']]

/-- `b` is about to end its restore and has committed both views. -/
theorem committed_views_chain_joining :
    ∃ t, Reach (replayStep ['a']) (Lifted InOrder) (Replaying.init ['a']) t ∧
      t.reading ['b'] = some 4 ∧
      ∃ v w, (t.beat.sys.px.nodes ['b']).acc.values 1 = some v ∧
        (t.beat.sys.px.nodes ['b']).acc.values 2 = some w ∧ members v ≠ [] ∧
        NextView (members v) (members w) := by
  obtain ⟨t, hr, hread, h1, h2⟩ :
      ∃ t, Reach (replayStep ['a']) (Lifted InOrder) (Replaying.init ['a']) t ∧
        t.reading ['b'] = some 4 ∧ ((t.beat.sys.px.nodes ['b']).acc.values 1).isSome = true ∧
        ((t.beat.sys.px.nodes ['b']).acc.values 2).isSome = true :=
    exists_reach joining (by decide +kernel)
  obtain ⟨v, hv⟩ := Option.isSome_iff_exists.mp h1
  obtain ⟨w, hw⟩ := Option.isSome_iff_exists.mp h2
  obtain ⟨hne, hnext⟩ := committed_views_chain ['a'] (by decide) t hr ['b']
  exact ⟨t, hr, hread, v, w, hv, hw, hne 1 v hv, hnext 1 v w hv hw⟩

/-- **The code as it is breaks the chain**: a request delivered again after
its instance is accepted in the next one, and view 3 is view 2. -/
theorem duplicate_accept_repeats_view :
    ¬ ∀ (first : NodeId), IsName first → ∀ t : Replaying,
      Reach (replayStep first) (fun _ e => NamedReplay e) (Replaying.init first) t →
      ∀ (p : NodeId) (i : Nat) (v w : Value), (t.beat.sys.px.nodes p).acc.values i = some v →
        (t.beat.sys.px.nodes p).acc.values (i + 1) = some w →
        NextView (members v) (members w) := by
  intro hchain
  obtain ⟨t, hr, h2, h3⟩ :
      ∃ t, Reach (replayStep ['a']) (fun _ e => NamedReplay e) (Replaying.init ['a']) t ∧
        (t.beat.sys.px.nodes ['a']).acc.values 2 = some ['a', ' ', 'b', ' '] ∧
        (t.beat.sys.px.nodes ['a']).acc.values 3 = some ['a', ' ', 'b', ' '] :=
    exists_reach ((secondView ++ duplicateAccept).flatMap Event.replayed) (by decide +kernel)
  have hnext := hchain ['a'] (by decide) t hr ['a'] 2 _ _ h2 h3
  -- a next view has one node more or one node less
  rcases hnext with ⟨m, _, heq⟩ | ⟨m, hm, heq⟩
  · simpa using congrArg List.length heq
  · have hlen := congrArg List.length heq
    rw [List.length_erase_of_mem hm] at hlen
    have hpos := List.length_pos_of_mem hm
    omega

/-- View 3, with `c` added to `a` and `b`. -/
def threeNodes : Value := ['a', ' ', 'b', ' ', 'c', ' ']

/-- `b` gets the log of view 2. `a` gets view 3 accepted by both of them and
commits it; the decide request to `b` comes next. -/
def thirdView : List Event :=
  [.paxos (.dump ['a']),
    .restore ['b'] [.done 1 ['a'], .propseen ⟨1, ['a']⟩,
      .accepted ⟨1, ['a']⟩ ['a', ' ', 'b', ' '], .done 2 ['a', ' ', 'b', ' ']],
    .check ['a'] (.add ['c'] 2), .propose ['a'] (.add ['c'] 2),
    .run ['a'] ⟨3, [['a'], ['b']], threeNodes⟩] ++
  (Paxos.prepareAt ['a'] ⟨3, 1, ['a'], 3, ⟨2, ['a']⟩⟩ ⟨false, true, ⟨0, ['a']⟩, []⟩ ++
    Paxos.prepareAt ['a'] ⟨4, 1, ['b'], 3, ⟨2, ['a']⟩⟩ ⟨false, true, ⟨0, ['a']⟩, []⟩ ++
    Paxos.acceptAt ['a'] ⟨5, 1, ['a'], 3, ⟨2, ['a']⟩, threeNodes⟩ ++
    Paxos.acceptAt ['a'] ⟨6, 1, ['b'], 3, ⟨2, ['a']⟩, threeNodes⟩ ++
    Paxos.decideAt ['a'] ⟨7, 1, ['a'], 3, threeNodes⟩ ++ [Paxos.Event.call ['a']]).map .paxos ++
  [.upcall ['a'] (3, threeNodes)]

/-- `b` finds that `a` does not answer and starts to remove it; then `a`
pings `b`. -/
def pingRunning : List BeatEvent :=
  [.cfg (.check ['b'] (.remove ['a'] 2)), .cfg (.propose ['b'] (.remove ['a'] 2)),
   .cfg (.run ['b'] ⟨3, [['a'], ['b']], ['b', ' ']⟩), .wake ['a'], .doheartbeat ['a']]

/-- `b` is in view 2, with its proposer running, and has not heard of the
decision for view 3. It takes the ping from view 3 and the decision. -/
theorem assertions_hold_pingRunning : ∃ t : Replaying,
    Reach (replayStep ['a']) (Lifted InStep) (Replaying.init ['a']) t ∧
    (t.beat.sys.px.nodes ['b']).run ≠ none ∧ (t.beat.sys.cfg ['b']).myvid = 2 ∧
    Passes t.beat (.heartbeat ⟨['a'], ['b'], 3⟩) ∧
    Passes t.beat (.cfg (.paxos (.handle (.decide ⟨8, 1, ['b'], 3, threeNodes⟩)))) := by
  obtain ⟨t, hr, hrunning, hvid, hok, hok', hping, hdecide⟩ :
      ∃ t, Reach (replayStep ['a']) (Lifted InStep) (Replaying.init ['a']) t ∧
        (t.beat.sys.px.nodes ['b']).run ≠ none ∧ (t.beat.sys.cfg ['b']).myvid = 2 ∧
        Lifted InStep t (.beat (.heartbeat ⟨['a'], ['b'], 3⟩)) ∧
        Lifted InStep t (.beat (.cfg (.paxos (.handle (.decide ⟨8, 1, ['b'], 3, threeNodes⟩))))) ∧
        (replayStep ['a'] t (.beat (.heartbeat ⟨['a'], ['b'], 3⟩))).isSome = true ∧
        (replayStep ['a'] t
          (.beat (.cfg (.paxos (.handle (.decide ⟨8, 1, ['b'], 3, threeNodes⟩)))))).isSome = true :=
    exists_reach ((secondView ++ thirdView).flatMap Event.replayed ++ pingRunning.map .beat)
      (by decide +kernel)
  obtain ⟨t₁, hs₁⟩ := Option.isSome_iff_exists.mp hping
  obtain ⟨t₂, hs₂⟩ := Option.isSome_iff_exists.mp hdecide
  exact ⟨t, hr, hrunning, hvid, assertions_hold ['a'] (by decide) t t₁ _ hr hok hs₁,
    assertions_hold ['a'] (by decide) t t₂ _ hr hok' hs₂⟩

/-- The decision for view 3 does not reach `b`. `a` adds `d` in view 4; `b`
promises and accepts for it, and is told. -/
def fourthView : List Event :=
  [.paxos (.fails ['a']), .check ['a'] (.add ['d'] 3), .propose ['a'] (.add ['d'] 3),
    .run ['a'] ⟨4, [['a'], ['b'], ['c']], threeNodes ++ ['d', ' ']⟩] ++
  (Paxos.prepareAt ['a'] ⟨9, 2, ['a'], 4, ⟨3, ['a']⟩⟩ ⟨false, true, ⟨0, ['a']⟩, []⟩ ++
    Paxos.prepareAt ['a'] ⟨10, 2, ['b'], 4, ⟨3, ['a']⟩⟩
      ⟨false, true, ⟨2, ['a']⟩, threeNodes⟩ ++
    [Paxos.Event.call ['a'], .fails ['a']] ++
    Paxos.acceptAt ['a'] ⟨12, 2, ['a'], 4, ⟨3, ['a']⟩, threeNodes⟩ ++
    Paxos.acceptAt ['a'] ⟨13, 2, ['b'], 4, ⟨3, ['a']⟩, threeNodes⟩ ++
    Paxos.decideAt ['a'] ⟨14, 2, ['a'], 4, threeNodes⟩ ++ [Paxos.Event.call ['a']]).map .paxos

/-- **The code as it is aborts a lagging member**: `b` has decided two
instances and is told of the fourth. -/
theorem lagging_member_aborts :
    ¬ ∀ first : NodeId, IsName first → ∀ (t t' : Replaying) (e : BeatEvent),
      Reach (replayStep first) (fun _ e => NamedReplay e) (Replaying.init first) t →
      replayStep first t (.beat e) = some t' → Passes t.beat e := by
  intro hall
  obtain ⟨t, hr, hinst, hs⟩ :
      ∃ t, Reach (replayStep ['a']) (fun _ e => NamedReplay e) (Replaying.init ['a']) t ∧
        (t.beat.sys.px.nodes ['b']).acc.instanceH = 2 ∧ (replayStep ['a'] t (.beat (.cfg
          (.paxos (.handle (.decide ⟨15, 2, ['b'], 4, threeNodes⟩)))))).isSome = true :=
    exists_reach ((secondView ++ thirdView ++ fourthView).flatMap Event.replayed)
      (by decide +kernel)
  obtain ⟨t', hs⟩ := Option.isSome_iff_exists.mp hs
  obtain ⟨hle, _⟩ := hall ['a'] (by decide) t t' _ hr hs
  replace hle : 4 ≤ (t.beat.sys.px.nodes ['b']).acc.instanceH + 1 := hle
  omega

end Yfs.Config
