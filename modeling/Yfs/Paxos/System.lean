/-
Yfs.Paxos.System — any number of nodes, each with an acceptor and a
proposer, and the network between them.

What has been sent stays on the network and may be delivered any number
of times, in any order, at any time, or never. A proposer that waits for
a reply takes one that answers its call, or gives the call up.

A node crashes at any point and when a VERIFY fails. It loses everything
but its log, and restarts with the constructor. Its log may also be
copied to the network (`dump`) and read by another node (`restore`).

Every node is told at its start which node is the `first`; that one
commits instance 1 with the value `v₀` by itself.

`started` is history: the runs that were started, the latest first.
`upcalls` are the threads that have committed an instance and still have
to tell the layer above.
-/
import Yfs.Lib.Run
import Yfs.Paxos.Proposer

namespace Yfs.Paxos


/-! ## States -/

structure PNode where
  alive : Bool
  acc : Acceptor
  myN : PropT
  run : Option Run
  upcalls : List (Nat × Value)

structure Started where
  inst : Nat
  nodes : List NodeId
  newv : Value
  deriving DecidableEq, Repr

structure Sys where
  nodes : NodeId → PNode
  msgs : List Msg
  nextCall : Nat
  started : List Started

def PNode.boot (first : NodeId) (v₀ : Value) (me : NodeId) (file : List LogRec) : PNode :=
  { alive := true, acc := Acceptor.new me (me == first) v₀ file, myN := ⟨0, me⟩, run := none
    upcalls := [] }

def Sys.init (first : NodeId) (v₀ : Value) : Sys :=
  { nodes := fun me => PNode.boot first v₀ me [], msgs := [], nextCall := 0, started := [] }

inductive Event where
  | run (p : NodeId) (inst : Nat) (curNodes : List NodeId) (newv : Value)
  | call (p : NodeId)
  | bindFails (p : NodeId)
  | handle (m : Msg)
  | ret (p : NodeId) (m : Msg)
  | fails (p : NodeId)
  | upcall (p : NodeId) (u : Nat × Value)
  | crash (p : NodeId)
  | restart (p : NodeId)
  | dump (p : NodeId)
  | restore (p : NodeId) (file : List LogRec)
  deriving DecidableEq, Repr

/-! ## Steps of one node -/

/-- `commit`, with the upcall it leaves to be made. -/
def PNode.commit (me : NodeId) (nd : PNode) (inst : Nat) (v : Value) : PNode :=
  { nd with
    acc := nd.acc.commitWo me inst v
    upcalls := if nd.acc.instanceH < inst then nd.upcalls ++ [(inst, v)] else nd.upcalls }

/-- `exit`, or a failed VERIFY. -/
def PNode.crash (nd : PNode) : PNode := { nd with alive := false, run := none, upcalls := [] }

def PNode.decidereq (me : NodeId) (nd : PNode) (inst : Nat) (v : Value) : PNode :=
  match nd.acc.decidereq me inst v with
  | none => nd.crash
  | some a =>
    { nd with
      acc := a
      upcalls := if nd.acc.instanceH < a.instanceH then nd.upcalls ++ [(inst, nd.acc.vA)]
        else nd.upcalls }

def Sys.setNode (s : Sys) (p : NodeId) (nd : PNode) : Sys :=
  { s with nodes := Function.update s.nodes p nd }

@[simp] theorem Sys.setNode_self (s : Sys) (p : NodeId) (nd : PNode) :
    (s.setNode p nd).nodes p = nd := Function.update_self _ _ _

@[simp] theorem Sys.setNode_of_ne (s : Sys) {p m : NodeId} (nd : PNode) (h : m ≠ p) :
    (s.setNode p nd).nodes m = s.nodes m := Function.update_of_ne h _ _

/-! ## Steps of the system -/

def Sys.startRun (s : Sys) (p : NodeId) (inst : Nat) (curNodes : List NodeId) (newv : Value) :
    Sys :=
  let n := setn (s.nodes p).acc.nH (s.nodes p).myN
  { s.setNode p { s.nodes p with
      myN := n, run := Run.start s.started.length inst curNodes newv n } with
    started := ⟨inst, curNodes, newv⟩ :: s.started }

def Sys.sendCall (s : Sys) (p : NodeId) (r : Run) (d : NodeId) : Sys :=
  { s.setNode p { s.nodes p with run := some { r with call := some (r.request s.nextCall d) } } with
    msgs := r.request s.nextCall d :: s.msgs
    nextCall := s.nextCall + 1 }

def Sys.setRun (s : Sys) (p : NodeId) (r : Option Run) : Sys :=
  s.setNode p { s.nodes p with run := r }

def Sys.reply (s : Sys) (p : NodeId) (a : Acceptor) (m : Msg) : Sys :=
  { s.setNode p { s.nodes p with acc := a } with msgs := m :: s.msgs }

def Sys.servePrepare (s : Sys) (q : PrepareReq) : Sys :=
  s.reply q.dst ((s.nodes q.dst).acc.preparereq q.inst q.n).2
    (.prepareRes q ((s.nodes q.dst).acc.preparereq q.inst q.n).1)

def Sys.serveAccept (s : Sys) (q : AcceptReq) : Sys :=
  s.reply q.dst ((s.nodes q.dst).acc.acceptreq q.n q.v).2
    (.acceptRes q ((s.nodes q.dst).acc.acceptreq q.n q.v).1)

def Sys.learnOld (s : Sys) (p : NodeId) (r : Run) (v : Value) : Sys :=
  s.setNode p { (s.nodes p).commit p r.inst v with run := none }

def step (first : NodeId) (v₀ : Value) (s : Sys) : Event → Option Sys
  | .run p inst curNodes newv =>
    -- a second run is refused while one is going on
    if (s.nodes p).alive = true ∧ (s.nodes p).run = none then
      some (s.startRun p inst curNodes newv)
    else none
  | .call p =>
    match (s.nodes p).run with
    | some r =>
      match r.call, r.todo with
      | none, d :: _ => some (s.sendCall p r d)
      | _, _ => none
    | none => none
  | .bindFails p =>
    match (s.nodes p).run with
    | some r =>
      if r.call = none then
        if r.phase = .prepare then some (s.setRun p r.next)
        -- VERIFY(accept_h != NULL), VERIFY(decide_h != NULL)
        else some (s.setNode p (s.nodes p).crash)
      else none
    | none => none
  | .handle m =>
    if m ∈ s.msgs then
      match m with
      | .prepare q => if (s.nodes q.dst).alive then some (s.servePrepare q) else none
      | .accept q => if (s.nodes q.dst).alive then some (s.serveAccept q) else none
      | .decide q =>
        if (s.nodes q.dst).alive then
          some (s.setNode q.dst ((s.nodes q.dst).decidereq q.dst q.inst q.v))
        else none
      | _ => none
    else none
  | .ret p m =>
    match (s.nodes p).run with
    | some r =>
      if m ∈ s.msgs then
        match m with
        | .prepareRes q res =>
          if r.call = some (.prepare q) then
            if res.oldinstance then some (s.learnOld p r res.vA)
            else some (s.setRun p (r.promised q.dst res).next)
          else none
        | .acceptRes q ok =>
          if r.call = some (.accept q) then some (s.setRun p (r.accepted q.dst ok).next) else none
        | _ => none
      else none
    | none => none
  | .fails p =>
    -- the call timed out; `decide` does not look at the outcome at all
    match (s.nodes p).run with
    | some r => if r.call = none then none else some (s.setRun p r.next)
    | none => none
  | .upcall p u =>
    if u ∈ (s.nodes p).upcalls then
      some (s.setNode p { s.nodes p with upcalls := (s.nodes p).upcalls.erase u })
    else none
  | .crash p => some (s.setNode p (s.nodes p).crash)
  | .restart p =>
    if (s.nodes p).alive then none
    else some (s.setNode p (PNode.boot first v₀ p (s.nodes p).acc.log))
  | .dump p =>
    if (s.nodes p).alive then some { s with msgs := .dump (s.nodes p).acc.log :: s.msgs } else none
  | .restore p file =>
    if (s.nodes p).alive = true ∧ .dump file ∈ s.msgs then
      some (s.setNode p { s.nodes p with acc := (s.nodes p).acc.restore file })
    else none

/-! ## Whole calls -/

def prepareAt (p : NodeId) (q : PrepareReq) (res : PrepareRes) : List Event :=
  [.call p, .handle (.prepare q), .ret p (.prepareRes q res)]

def acceptAt (p : NodeId) (q : AcceptReq) : List Event :=
  [.call p, .handle (.accept q), .ret p (.acceptRes q true)]

def decideAt (p : NodeId) (q : DecideReq) : List Event :=
  [.call p, .handle (.decide q), .fails p]

/-! ## Everything a step can do -/

/-- The steps as a relation: one constructor for each thing that can
happen, with what it needs and what it leaves. -/
inductive Trans (first : NodeId) (v₀ : Value) (s : Sys) : Event → Sys → Prop
  | run {p inst curNodes newv} (ha : (s.nodes p).alive = true) (hr : (s.nodes p).run = none) :
      Trans first v₀ s (.run p inst curNodes newv) (s.startRun p inst curNodes newv)
  | call {p r d rest} (hr : (s.nodes p).run = some r) (hc : r.call = none)
      (ht : r.todo = d :: rest) : Trans first v₀ s (.call p) (s.sendCall p r d)
  | bindFails {p r} (hr : (s.nodes p).run = some r) (hc : r.call = none)
      (hp : r.phase = .prepare) : Trans first v₀ s (.bindFails p) (s.setRun p r.next)
  | bindAborts {p} : Trans first v₀ s (.bindFails p) (s.setNode p (s.nodes p).crash)
  | servePrepare {q} (hm : .prepare q ∈ s.msgs) :
      Trans first v₀ s (.handle (.prepare q)) (s.servePrepare q)
  | serveAccept {q} (hm : .accept q ∈ s.msgs) :
      Trans first v₀ s (.handle (.accept q)) (s.serveAccept q)
  | serveDecide {q} (hm : .decide q ∈ s.msgs) :
      Trans first v₀ s (.handle (.decide q))
        (s.setNode q.dst ((s.nodes q.dst).decidereq q.dst q.inst q.v))
  | learnOld {p r q res} (hr : (s.nodes p).run = some r) (hm : .prepareRes q res ∈ s.msgs)
      (hc : r.call = some (.prepare q)) (ho : res.oldinstance = true) :
      Trans first v₀ s (.ret p (.prepareRes q res)) (s.learnOld p r res.vA)
  | promised {p r q res} (hr : (s.nodes p).run = some r) (hm : .prepareRes q res ∈ s.msgs)
      (hc : r.call = some (.prepare q)) (ho : res.oldinstance = false) :
      Trans first v₀ s (.ret p (.prepareRes q res)) (s.setRun p (r.promised q.dst res).next)
  | accepted {p r q ok} (hr : (s.nodes p).run = some r) (hm : .acceptRes q ok ∈ s.msgs)
      (hc : r.call = some (.accept q)) :
      Trans first v₀ s (.ret p (.acceptRes q ok)) (s.setRun p (r.accepted q.dst ok).next)
  | fails {p r} (hr : (s.nodes p).run = some r) (hc : r.call ≠ none) :
      Trans first v₀ s (.fails p) (s.setRun p r.next)
  | upcall {p u} (hu : u ∈ (s.nodes p).upcalls) : Trans first v₀ s (.upcall p u)
      (s.setNode p { s.nodes p with upcalls := (s.nodes p).upcalls.erase u })
  | crash {p} : Trans first v₀ s (.crash p) (s.setNode p (s.nodes p).crash)
  | restart {p} (ha : (s.nodes p).alive = false) : Trans first v₀ s (.restart p)
      (s.setNode p (PNode.boot first v₀ p (s.nodes p).acc.log))
  | dump {p} : Trans first v₀ s (.dump p)
      { s with msgs := .dump (s.nodes p).acc.log :: s.msgs }
  | restore {p file} (hm : .dump file ∈ s.msgs) : Trans first v₀ s (.restore p file)
      (s.setNode p { s.nodes p with acc := (s.nodes p).acc.restore file })

theorem trans_of_step {first : NodeId} {v₀ : Value} {s s' : Sys} {e : Event}
    (hs : step first v₀ s e = some s') : Trans first v₀ s e s' := by
  cases e with
  | run p inst curNodes newv =>
    obtain ⟨h, rfl⟩ := Run.of_guard hs
    exact .run h.1 h.2
  | call p =>
    simp only [step] at hs
    split at hs
    · rename_i hr
      split at hs
      · rename_i hc ht
        cases hs
        exact .call hr hc ht
      · cases hs
    · cases hs
  | bindFails p =>
    simp only [step] at hs
    split at hs
    · rename_i hr
      split at hs
      · rename_i hc
        split at hs
        · rename_i hp
          cases hs
          exact .bindFails hr hc hp
        · cases hs
          exact .bindAborts
      · cases hs
    · cases hs
  | handle m =>
    simp only [step] at hs
    split at hs
    · rename_i hm
      split at hs
      · split at hs
        · cases hs
          exact .servePrepare hm
        · cases hs
      · split at hs
        · cases hs
          exact .serveAccept hm
        · cases hs
      · split at hs
        · cases hs
          exact .serveDecide hm
        · cases hs
      · cases hs
    · cases hs
  | ret p m =>
    simp only [step] at hs
    split at hs
    · rename_i hr
      split at hs
      · rename_i hm
        split at hs
        · split at hs
          · rename_i hc
            split at hs
            · rename_i ho
              cases hs
              exact .learnOld hr hm hc ho
            · rename_i ho
              cases hs
              exact .promised hr hm hc (by simpa using ho)
          · cases hs
        · split at hs
          · rename_i hc
            cases hs
            exact .accepted hr hm hc
          · cases hs
        · cases hs
      · cases hs
    · cases hs
  | fails p =>
    simp only [step] at hs
    split at hs
    · rename_i hr
      split at hs
      · cases hs
      · rename_i hc
        cases hs
        exact .fails hr hc
    · cases hs
  | upcall p u =>
    obtain ⟨hu, rfl⟩ := Run.of_guard hs
    exact .upcall hu
  | crash p =>
    cases hs
    exact .crash
  | restart p =>
    simp only [step] at hs
    split at hs
    · cases hs
    · rename_i ha
      cases hs
      exact .restart (by simpa using ha)
  | dump p =>
    obtain ⟨_, rfl⟩ := Run.of_guard hs
    exact .dump
  | restore p file =>
    obtain ⟨h, rfl⟩ := Run.of_guard hs
    exact .restore h.2

end Yfs.Paxos
