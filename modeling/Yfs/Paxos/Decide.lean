/-
Yfs.Paxos.Decide — whom `decide` tells.

`proposer::decide` calls the nodes that accepted, and `decidereq` VERIFYs
that such a node is at most one instance behind and holds the value. Both
follow from the vote the node gave: it was for the instance the node was at
(`Covers`), and what the node has accepted since in that instance was
proposed with a higher number, so it is the same value (`Voting.Lawful.safe`).
-/
import Yfs.Paxos.Invariant

namespace Yfs.Paxos

variable {first : NodeId} {v₀ : Value} {s s' : Sys} {M M' : List Msg} {S S' : List Started}

def ChosenAt (M : List Msg) (S : List Started) (inst : Nat) (n : PropT) (v : Value) : Prop :=
  ∃ st ∈ S, ∃ Q, st.inst = inst ∧ majority st.nodes Q = true ∧ ∀ a ∈ Q, Vote M a inst n v

def ToldVoter (M : List Msg) (S : List Started) (q : DecideReq) : Prop :=
  ∃ n, Vote M q.dst q.inst n q.v ∧ ChosenAt M S q.inst n q.v

structure Deciding (M : List Msg) (r : Run) : Prop where
  majority : majority r.curNodes r.accepts = true
  votes : ∀ a ∈ r.accepts, Vote M a r.inst r.n r.v
  asked : ∀ d ∈ r.todo, d ∈ r.accepts

variable {inst : Nat} {n : PropT} {r : Run} {p : NodeId}

theorem ChosenAt.mono (hM : ∀ m ∈ M, m ∈ M') (hS : ∀ st ∈ S, st ∈ S') {v : Value}
    (h : ChosenAt M S inst n v) : ChosenAt M' S' inst n v := by
  obtain ⟨st, hst, Q, hi, hmaj, hvote⟩ := h
  exact ⟨st, hS st hst, Q, hi, hmaj, fun a ha => (hvote a ha).mono hM⟩

theorem ToldVoter.mono (hM : ∀ m ∈ M, m ∈ M') (hS : ∀ st ∈ S, st ∈ S') {q : DecideReq}
    (h : ToldVoter M S q) : ToldVoter M' S' q := by
  obtain ⟨n, hvote, hc⟩ := h
  exact ⟨n, hvote.mono hM, hc.mono hM hS⟩

theorem Deciding.mono (hM : ∀ m ∈ M, m ∈ M') (h : Deciding M r) : Deciding M' r :=
  ⟨h.majority, fun a ha => (h.votes a ha).mono hM, h.asked⟩

/-- Every later proposal has the value that was chosen. -/
theorem ChosenAt.safe (hs : Sound first v₀ M S) {m : PropT} {v w : Value}
    (h : ChosenAt M S inst n v) (hp : Proposal M inst m w) (hle : n ≤ m) : w = v := by
  obtain ⟨st, hst, Q, hi, hmaj, hvote⟩ := h
  exact (hs.lawful inst).safe ⟨{a | a ∈ Q}, ⟨st, hst, Q, hi, hmaj, rfl⟩, hvote⟩ hp hle

/-! ## The invariant -/

structure DecideInv (s : Sys) : Prop where
  runs : ∀ p r, (s.nodes p).run = some r → r.phase = .decide → Deciding s.msgs r
  msgs : ∀ q, .decide q ∈ s.msgs → ToldVoter s.msgs s.started q

theorem DecideInv.init : DecideInv (Sys.init first v₀) := by
  constructor
  · nofun
  · nofun

/-- One node changes, and decisions are told as they should. -/
theorem DecideInv.update (h : DecideInv s) {nd : PNode}
    (hn : s'.nodes = Function.update s.nodes p nd) (hM : ∀ m ∈ s.msgs, m ∈ s'.msgs)
    (hS : ∀ st ∈ s.started, st ∈ s'.started)
    (hrun : ∀ r, nd.run = some r → r.phase = .decide → Deciding s'.msgs r)
    (hq : ∀ q, .decide q ∈ s'.msgs → .decide q ∈ s.msgs ∨ ToldVoter s'.msgs s'.started q) :
    DecideInv s' := by
  constructor
  · intro x r hr hp
    rw [hn] at hr
    by_cases hx : x = p
    · subst hx
      rw [Function.update_self] at hr
      exact hrun r hr hp
    · rw [Function.update_of_ne hx] at hr
      exact (h.runs x r hr hp).mono hM
  · intro q hmem
    rcases hq q hmem with hold | hnew
    · exact (h.msgs q hold).mono hM hS
    · exact hnew

/-- A step that leaves the run of the node alone, or ends it, and adds at most
a message that tells nothing. -/
theorem DecideInv.quiet (h : DecideInv s) {nd : PNode}
    (hn : s'.nodes = Function.update s.nodes p nd) (hS : s'.started = s.started)
    (hM : s'.msgs = s.msgs ∨ ∃ m, s'.msgs = m :: s.msgs ∧ ∀ q, m ≠ .decide q)
    (hrun : ∀ r, nd.run = some r → (s.nodes p).run = some r) : DecideInv s' := by
  have hsub : ∀ m ∈ s.msgs, m ∈ s'.msgs := by
    intro m hm
    rcases hM with heq | ⟨x, heq, _⟩
    · rwa [heq]
    · rw [heq]
      exact List.mem_cons_of_mem x hm
  refine h.update hn hsub (by simp [hS]) ?_ ?_
  · intro r hr hp
    exact (h.runs p r (hrun r hr) hp).mono hsub
  · intro q hq
    rcases hM with heq | ⟨x, heq, hx⟩
    · exact .inl (heq ▸ hq)
    · rw [heq] at hq
      rcases List.mem_cons.mp hq with hnew | hold
      · exact absurd hnew.symm (hx q)
      · exact .inl hold

/-- What a run does next when it has been in order so far. -/
theorem deciding_next {r' : Run} {i : Nat} (hok : RunOk v₀ M S i r)
    (hd : r.phase = .decide → Deciding M r) (h : r.next = some r') (hp : r'.phase = .decide) :
    Deciding M r' := by
  rcases settle_cases h with ⟨_, rfl⟩ | ⟨_, _, rfl⟩ | ⟨hphase, hmaj, rfl⟩
  · have hold := hd hp
    exact ⟨hold.majority, hold.votes, fun d hd => hold.asked d (List.mem_of_mem_tail hd)⟩
  · cases hp
  · -- the accept phase is over, with the votes it has collected
    replace hphase : r.phase = .accept := hphase
    have hph := (phaseOk_accept hphase).mp hok.phase
    exact ⟨hmaj, hph.votes, fun d hd => hd⟩

/-- A run goes on. -/
theorem DecideInv.next (h : DecideInv s) {i : Nat} (hok : RunOk v₀ s.msgs s.started i r)
    (hd : r.phase = .decide → Deciding s.msgs r) : DecideInv (s.setRun p r.next) := by
  refine h.update rfl (fun _ hm => hm) (fun _ hst => hst) ?_ fun _ hq => .inl hq
  intro r' hr' hp
  exact deciding_next hok hd hr' hp

/-- The next call; if it tells a decision, then to a node that voted for it. -/
theorem DecideInv.sendCall (h : DecideInv s) (hinv : Inv first v₀ s) {d : NodeId}
    {rest : List NodeId} (hr : (s.nodes p).run = some r) (ht : r.todo = d :: rest) :
    DecideInv (s.sendCall p r d) := by
  have hM : ∀ m ∈ s.msgs, m ∈ r.request s.nextCall d :: s.msgs :=
    fun m hm => List.mem_cons_of_mem _ hm
  refine h.update rfl hM (fun _ hst => hst) ?_ ?_
  · intro r' hr' hp
    cases hr'
    have hold := (h.runs p r hr hp).mono hM
    exact ⟨hold.majority, hold.votes, hold.asked⟩
  · intro q hq
    rcases List.mem_cons.mp hq with hnew | hold
    · right
      unfold Run.request at hnew
      split at hnew
      · cases hnew
      · cases hnew
      · rename_i hp
        obtain rfl := Msg.decide.inj hnew
        have hdec := h.runs p r hr hp
        have hd : d ∈ r.accepts := hdec.asked d (by simp [ht])
        refine ToldVoter.mono hM (fun _ hst => hst) ⟨r.n, hdec.votes d hd, ?_⟩
        exact ⟨_, ((hinv.node p).run r hr).started, r.accepts, rfl, hdec.majority, hdec.votes⟩
    · exact .inl hold

/-- A run that has just begun asks for promises. -/
theorem start_phase {rid : Nat} {nodes : List NodeId} {newv : Value}
    (h : Run.start rid inst nodes newv n = some r) : r.phase ≠ .decide := by
  rcases settle_cases h with ⟨_, rfl⟩ | ⟨_, _, rfl⟩ | ⟨hphase, _, _⟩
  · simp
  · simp
  · cases hphase

theorem DecideInv.step {e : Event} (h : DecideInv s) (hinv : Inv first v₀ s)
    (hs : step first v₀ s e = some s') : DecideInv s' := by
  cases trans_of_step hs with
  | run =>
    refine h.update rfl (fun _ hm => hm) (fun _ hst => List.mem_cons_of_mem _ hst) ?_
      fun _ hq => .inl hq
    intro r hr hp
    exact absurd hp (start_phase hr)
  | call hr _ ht => exact h.sendCall hinv hr ht
  | @bindFails p r hr _ _ =>
    exact h.next ((hinv.node p).run r hr) (h.runs p r hr)
  | bindAborts => exact h.quiet rfl rfl (.inl rfl) (fun r hr => nomatch hr)
  | servePrepare _ =>
    exact h.quiet rfl rfl (.inr ⟨_, rfl, by simp⟩) (fun _ hr => hr)
  | serveAccept _ =>
    exact h.quiet rfl rfl (.inr ⟨_, rfl, by simp⟩) (fun _ hr => hr)
  | @serveDecide q _ =>
    refine h.quiet rfl rfl (.inl rfl) ?_
    intro r hr
    unfold PNode.decidereq at hr
    split at hr
    · cases hr
    · exact hr
  | learnOld _ _ _ _ => exact h.quiet rfl rfl (.inl rfl) (fun r hr => nomatch hr)
  | @promised p r q res hr hm hc _ =>
    have hok := (hinv.node p).run r hr
    refine h.next (hok.promised hinv.sound hm hc) ?_
    -- the run is still in its first phase
    obtain ⟨c, d, hreq⟩ := hok.call _ hc
    obtain ⟨hphase, _⟩ := request_prepare hreq
    intro hp
    have heq : (r.promised q.dst res).phase = r.phase := by
      unfold Run.promised
      split <;> rfl
    rw [heq, hphase] at hp
    cases hp
  | @accepted p r q ok hr hm hc =>
    have hok := (hinv.node p).run r hr
    refine h.next (hok.accepted hm hc) ?_
    obtain ⟨c, d, hreq⟩ := hok.call _ hc
    obtain ⟨hphase, _⟩ := request_accept hreq
    intro hp
    have heq : (r.accepted q.dst ok).phase = r.phase := by
      unfold Run.accepted
      split <;> rfl
    rw [heq, hphase] at hp
    cases hp
  | @fails p r hr _ =>
    exact h.next ((hinv.node p).run r hr) (h.runs p r hr)
  | upcall _ => exact h.quiet rfl rfl (.inl rfl) (fun _ hr => hr)
  | crash | restart _ => exact h.quiet rfl rfl (.inl rfl) (fun r hr => nomatch hr)
  | @dump p =>
    exact h.quiet (Function.update_eq_self p s.nodes).symm rfl (.inr ⟨_, rfl, by simp⟩)
      (fun _ hr => hr)
  | restore _ => exact h.quiet rfl rfl (.inl rfl) (fun _ hr => hr)

/-! ## The VERIFYs of `decidereq` -/

/-- A node that is told of a decision is at most one instance behind, and if
it is, it holds the value. -/
theorem DecideInv.passes (h : DecideInv s) (hinv : Inv first v₀ s) {q : DecideReq}
    (hq : .decide q ∈ s.msgs) :
    q.inst ≤ (s.nodes q.dst).acc.instanceH + 1 ∧
    (q.inst = (s.nodes q.dst).acc.instanceH + 1 → (s.nodes q.dst).acc.vA = q.v) := by
  obtain ⟨n, hvote, hc⟩ := h.msgs q hq
  have hnode := hinv.node q.dst
  obtain ⟨hle, heq⟩ := hnode.covers.votes q.inst n q.v hvote
  refine ⟨hle, fun hi => ?_⟩
  -- what it has accepted in this instance since
  obtain ⟨m, w, hacc, hnm⟩ := heq hi
  obtain ⟨hprop, _⟩ := hnode.acc.core m w hacc
  obtain ⟨_, hw⟩ := Acceptor.accepted_iff.mp hacc
  rw [hw]
  replace hprop : Proposal s.msgs q.inst m w := by
    rw [hi]
    exact hprop
  exact hc.safe hinv.sound hprop hnm

end Yfs.Paxos
