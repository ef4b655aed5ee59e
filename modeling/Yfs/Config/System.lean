/-
Yfs.Config.System — the config layer of every node on top of Paxos
(config.cc), and the two places that ask for a new view: `joinreq`
(rsm.cc) and the heartbeater.

A config drops `cfg_mutex` between its steps, so a change of the view is
cut there. `check` is the look at a view that makes a change seem due: the
join request of a node that is not in it, or a heartbeat without an answer.
`propose` is `config::add` or `config::remove_wo` up to its call of
`proposer::run`, and `run` is that call. Other threads run in between.

`paxos_commit` is made by the thread that committed the instance, when it
gets to it: the calls for two instances may come in either order.
-/
import Yfs.Config.Views
import Yfs.Paxos.System

namespace Yfs.Config

open Yfs.Paxos (NodeId Value Acceptor Started LogRec)

/-! ## One node -/

structure Cfg where
  myvid : Nat
  mems : List NodeId
  checked : List Change
  planned : List Started

def Cfg.reconstruct (c : Cfg) (a : Acceptor) : Cfg :=
  if 0 < a.instanceH then
    { c with myvid := a.instanceH, mems := members (a.value a.instanceH) }
  else c

/-- A config that is not ahead of its acceptor catches up with it. -/
theorem reconstruct_myvid {c : Cfg} {a : Acceptor} (h : c.myvid ≤ a.instanceH) :
    (c.reconstruct a).myvid = a.instanceH := by
  unfold Cfg.reconstruct
  split
  · rfl
  · omega

/-- `config::config`, over this acceptor. -/
def Cfg.new (a : Acceptor) : Cfg :=
  Cfg.reconstruct { myvid := 0, mems := [], checked := [], planned := [] } a

def Cfg.paxosCommit (c : Cfg) (inst : Nat) (v : Value) : Cfg :=
  { c with mems := members v, myvid := inst }

/-- What the caller of `add` or `remove_wo` has looked at. -/
def Cfg.Sees (me : NodeId) (c : Cfg) (a : Acceptor) : Change → Prop
  -- `joinreq`: `m` is not in the view that the state machine has committed
  | .add m vid => vid ≤ a.instanceH ∧ m ∉ members (a.value vid)
  -- `heartbeater`: `m` was pinged in the current view
  | .remove m vid => vid = c.myvid ∧ m ∈ pinged me (members (a.value vid))

instance (me : NodeId) (c : Cfg) (a : Acceptor) (ch : Change) : Decidable (c.Sees me a ch) := by
  rcases ch <;> unfold Cfg.Sees <;> infer_instance

/-- `add` and `remove_wo`, up to `run`: nothing happens when the view is not
the current one any more. -/
def Cfg.propose (c : Cfg) (ch : Change) : Cfg :=
  { c with
    checked := c.checked.erase ch
    planned := if ch.vid = c.myvid then
        c.planned ++ [⟨c.myvid + 1, c.mems, value (ch.apply c.mems)⟩]
      else c.planned }

/-! ## All nodes -/

structure Sys where
  px : Paxos.Sys
  cfg : NodeId → Cfg

def Sys.init (first : NodeId) : Sys :=
  { px := Paxos.Sys.init first first
    cfg := fun p => Cfg.new ((Paxos.Sys.init first first).nodes p).acc }

inductive Event where
  | paxos (e : Paxos.Event)
  | check (p : NodeId) (ch : Change)
  | propose (p : NodeId) (ch : Change)
  | run (p : NodeId) (st : Started)
  | upcall (p : NodeId) (u : Nat × Value)
  | restart (p : NodeId)
  | restore (p : NodeId) (file : List LogRec)
  deriving DecidableEq, Repr

def internal : Paxos.Event → Bool
  | .run _ _ _ _ => false
  | .upcall _ _ => false
  | .restart _ => false
  | .restore _ _ => false
  | _ => true

def Sys.setCfg (s : Sys) (p : NodeId) (c : Cfg) : Sys :=
  { s with cfg := Function.update s.cfg p c }

def Sys.both (s : Sys) (px : Paxos.Sys) (p : NodeId) (c : Cfg) : Sys :=
  { px := px, cfg := Function.update s.cfg p c }

def step (first : NodeId) (s : Sys) : Event → Option Sys
  | .paxos e =>
    if internal e then (Paxos.step first first s.px e).map fun px => { s with px := px } else none
  | .check p ch =>
    if (s.px.nodes p).alive = true ∧ (s.cfg p).Sees p (s.px.nodes p).acc ch then
      some (s.setCfg p { s.cfg p with checked := ch :: (s.cfg p).checked })
    else none
  | .propose p ch =>
    if (s.px.nodes p).alive = true ∧ ch ∈ (s.cfg p).checked then
      some (s.setCfg p ((s.cfg p).propose ch))
    else none
  | .run p st =>
    if st ∈ (s.cfg p).planned then
      let c := { s.cfg p with planned := (s.cfg p).planned.erase st }
      match Paxos.step first first s.px (.run p st.inst st.nodes st.newv) with
      | some px => some (s.both px p c)
      -- a run is going on already: `run` returns false
      | none => some (s.setCfg p c)
    else none
  | .upcall p u =>
    (Paxos.step first first s.px (.upcall p u)).map fun px =>
      s.both px p ((s.cfg p).paxosCommit u.1 u.2)
  | .restart p =>
    (Paxos.step first first s.px (.restart p)).map fun px =>
      s.both px p (Cfg.new (px.nodes p).acc)
  | .restore p file =>
    (Paxos.step first first s.px (.restore p file)).map fun px =>
      s.both px p ((s.cfg p).reconstruct (px.nodes p).acc)

/-! ## Everything a step can do -/

inductive Trans (first : NodeId) (s : Sys) : Event → Sys → Prop
  | paxos {e px} (hi : internal e = true) (hs : Paxos.step first first s.px e = some px) :
      Trans first s (.paxos e) { s with px := px }
  | check {p ch} (hc : (s.cfg p).Sees p (s.px.nodes p).acc ch) : Trans first s (.check p ch)
      (s.setCfg p { s.cfg p with checked := ch :: (s.cfg p).checked })
  | propose {p ch} (hc : ch ∈ (s.cfg p).checked) :
      Trans first s (.propose p ch) (s.setCfg p ((s.cfg p).propose ch))
  | run {p st px} (hp : st ∈ (s.cfg p).planned)
      (hs : Paxos.step first first s.px (.run p st.inst st.nodes st.newv) = some px) :
      Trans first s (.run p st)
        (s.both px p { s.cfg p with planned := (s.cfg p).planned.erase st })
  | refused {p st} (hp : st ∈ (s.cfg p).planned) : Trans first s (.run p st)
      (s.setCfg p { s.cfg p with planned := (s.cfg p).planned.erase st })
  | upcall {p u px} (hs : Paxos.step first first s.px (.upcall p u) = some px) :
      Trans first s (.upcall p u) (s.both px p ((s.cfg p).paxosCommit u.1 u.2))
  | restart {p px} (hs : Paxos.step first first s.px (.restart p) = some px) :
      Trans first s (.restart p) (s.both px p (Cfg.new (px.nodes p).acc))
  | restore {p file px} (hs : Paxos.step first first s.px (.restore p file) = some px) :
      Trans first s (.restore p file) (s.both px p ((s.cfg p).reconstruct (px.nodes p).acc))

theorem trans_of_step {first : NodeId} {s s' : Sys} {e : Event} (hs : step first s e = some s') :
    Trans first s e s' := by
  cases e with
  | paxos e =>
    simp only [step] at hs
    split at hs
    · rename_i hi
      obtain ⟨px, hpx, rfl⟩ := Option.map_eq_some_iff.mp hs
      exact .paxos hi hpx
    · cases hs
  | check p ch =>
    obtain ⟨h, rfl⟩ := Run.of_guard hs
    exact .check h.2
  | propose p ch =>
    obtain ⟨h, rfl⟩ := Run.of_guard hs
    exact .propose h.2
  | run p st =>
    simp only [step] at hs
    split at hs
    · rename_i h
      split at hs
      · rename_i hpx
        cases hs
        exact .run h hpx
      · cases hs
        exact .refused h
    · cases hs
  | upcall p u =>
    obtain ⟨px, hpx, rfl⟩ := Option.map_eq_some_iff.mp hs
    exact .upcall hpx
  | restart p =>
    obtain ⟨px, hpx, rfl⟩ := Option.map_eq_some_iff.mp hs
    exact .restart hpx
  | restore p file =>
    obtain ⟨px, hpx, rfl⟩ := Option.map_eq_some_iff.mp hs
    exact .restore hpx

end Yfs.Config
