/-
Yfs.Paxos.History — what the messages of a run say.

Since nothing leaves the network, the messages are the history of a run:
a promise is a reply to `preparereq` that accepts, a vote is a reply to
`acceptreq` that accepts, a proposal is an accept request. `Sound` collects
what is true of them when

* an acceptor promises only for the instance it is at, and
* accepts only proposals of the instance it is at.

The code checks neither. Given both, the history of each instance obeys
the rules of voting, so an instance has at most one decided value
(`Sound.decided_unique`).
-/
import Yfs.Lib.Voting
import Yfs.Paxos.System

namespace Yfs.Paxos

/-! ## Events of the history -/

variable {v₀ : Value} {M M' : List Msg} {S S' : List Started}

/-- The proposal `v` was made with number `n` for the instance. -/
def Proposal (M : List Msg) (inst : Nat) (n : PropT) (v : Value) : Prop :=
  ∃ q, .accept q ∈ M ∧ q.inst = inst ∧ q.n = n ∧ q.v = v

/-- The acceptor `a` accepted it. -/
def Vote (M : List Msg) (a : NodeId) (inst : Nat) (n : PropT) (v : Value) : Prop :=
  ∃ q, .acceptRes q true ∈ M ∧ q.dst = a ∧ q.inst = inst ∧ q.n = n ∧ q.v = v

/-- The acceptor `a` promised number `n` to run `rid`, with this answer. -/
def Promise (M : List Msg) (a : NodeId) (inst : Nat) (n : PropT) (rid : Nat) (res : PrepareRes) :
    Prop :=
  ∃ q, .prepareRes q res ∈ M ∧ res.accept = true ∧ q.dst = a ∧ q.inst = inst ∧ q.n = n ∧
    q.rid = rid

/-- The nodes of a majority voted for the value, or it is the one the first
node started with. -/
def Decided (v₀ : Value) (M : List Msg) (S : List Started) (inst : Nat) (v : Value) : Prop :=
  (inst = 1 ∧ v = v₀) ∨
  ∃ st ∈ S, ∃ Q n, st.inst = inst ∧ majority st.nodes Q = true ∧ ∀ a ∈ Q, Vote M a inst n v

/-- A majority promised number `n` to the run, and each proposal they
reported is covered by one with value `v`. -/
def RunBacked (M : List Msg) (S : List Started) (rid inst : Nat) (n : PropT) (v : Value) : Prop :=
  ∃ st ∈ S, ∃ Q, st.inst = inst ∧ majority st.nodes Q = true ∧ ∀ a ∈ Q, ∃ res,
    Promise M a inst n rid res ∧
    ∀ m, res.nA.used = some m → ∃ c, m ≤ c ∧ c < n ∧ Proposal M inst c v

variable {inst : Nat} {n : PropT} {v : Value} {a : NodeId} {m : Msg}

theorem Proposal.mono (hM : ∀ m ∈ M, m ∈ M') (h : Proposal M inst n v) : Proposal M' inst n v := by
  obtain ⟨q, hq, hrest⟩ := h
  exact ⟨q, hM _ hq, hrest⟩

theorem Vote.mono (hM : ∀ m ∈ M, m ∈ M') (h : Vote M a inst n v) : Vote M' a inst n v := by
  obtain ⟨q, hq, hrest⟩ := h
  exact ⟨q, hM _ hq, hrest⟩

theorem Promise.mono (hM : ∀ m ∈ M, m ∈ M') {rid : Nat} {res : PrepareRes}
    (h : Promise M a inst n rid res) : Promise M' a inst n rid res := by
  obtain ⟨q, hq, hrest⟩ := h
  exact ⟨q, hM _ hq, hrest⟩

theorem Decided.mono (hM : ∀ m ∈ M, m ∈ M') (hS : ∀ st ∈ S, st ∈ S') (h : Decided v₀ M S inst v) :
    Decided v₀ M' S' inst v := by
  rcases h with h | ⟨st, hst, Q, n, hi, hmaj, hvote⟩
  · exact .inl h
  · exact .inr ⟨st, hS st hst, Q, n, hi, hmaj, fun a ha => (hvote a ha).mono hM⟩

theorem RunBacked.mono (hM : ∀ m ∈ M, m ∈ M') (hS : ∀ st ∈ S, st ∈ S') {rid : Nat}
    (h : RunBacked M S rid inst n v) : RunBacked M' S' rid inst n v := by
  obtain ⟨st, hst, Q, hi, hmaj, hall⟩ := h
  refine ⟨st, hS st hst, Q, hi, hmaj, ?_⟩
  intro a ha
  obtain ⟨res, hp, hcov⟩ := hall a ha
  refine ⟨res, hp.mono hM, ?_⟩
  intro m hm
  obtain ⟨c, hmc, hcn, hprop⟩ := hcov m hm
  exact ⟨c, hmc, hcn, hprop.mono hM⟩

/-! ## What acceptors and logs hold -/

/-- An accepted proposal was made, for the instance at hand, and is not
above the promise. -/
def CoreOk (M : List Msg) (c : Core) : Prop :=
  ∀ m w, c.accepted = some (m, w) → Proposal M (c.instanceH + 1) m w ∧ w ≠ [] ∧
    ∃ h, c.promised = some h ∧ m ≤ h

/-- The records of a log: used numbers, decided values without gaps, and a
core that is in order. -/
structure FileOk (v₀ : Value) (M : List Msg) (S : List Started) (file : List LogRec) : Prop where
  core : CoreOk M (Core.ofLog file)
  numbers : ∀ n v, .accepted n v ∈ file → n.n ≠ 0
  decided : ∀ i v, .done i v ∈ file → i ≠ 0 ∧ Decided v₀ M S i v
  full : ∀ i, i ≠ 0 → i ≤ (Core.ofLog file).instanceH → ∃ v, .done i v ∈ file

theorem CoreOk.mono (hM : ∀ m ∈ M, m ∈ M') {c : Core} (h : CoreOk M c) : CoreOk M' c := by
  intro m w hc
  obtain ⟨h1, h2⟩ := h m w hc
  exact ⟨h1.mono hM, h2⟩

theorem FileOk.mono (hM : ∀ m ∈ M, m ∈ M') (hS : ∀ st ∈ S, st ∈ S') {file : List LogRec}
    (h : FileOk v₀ M S file) : FileOk v₀ M' S' file := by
  refine ⟨h.core.mono hM, h.numbers, ?_, h.full⟩
  intro i v hd
  obtain ⟨h1, h2⟩ := h.decided i v hd
  exact ⟨h1, h2.mono hM hS⟩

/-! ## A sound history -/

def MsgOk (first : NodeId) (v₀ : Value) (M : List Msg) (S : List Started) : Msg → Prop
  | .prepare q => q.n.n ≠ 0
  | .prepareRes q res =>
    (res.oldinstance = true → q.inst ≠ 0 → Decided v₀ M S q.inst res.vA) ∧
    (res.accept = true → q.inst ≠ 0 ∧ (q.dst = first → q.inst ≠ 1) ∧
      (res.nA.used = none → res.vA = []) ∧
      ∀ m, res.nA.used = some m → m < q.n ∧ res.vA ≠ [] ∧ Proposal M q.inst m res.vA)
  | .accept q => q.n.n ≠ 0 ∧ q.v ≠ [] ∧ q.rid < S.length ∧ RunBacked M S q.rid q.inst q.n q.v ∧
    (∃ res, Promise M q.dst q.inst q.n q.rid res) ∧ ∃ st ∈ S, st.inst = q.inst ∧ st.newv = q.v
  | .acceptRes q ok => ok = true → .accept q ∈ M
  | .decide q => Decided v₀ M S q.inst q.v
  | .dump file => FileOk v₀ M S file

structure Sound (first : NodeId) (v₀ : Value) (M : List Msg) (S : List Started) : Prop where
  /-- The runs of one instance ask the same nodes. -/
  members : ∀ st ∈ S, ∀ st' ∈ S, st.inst = st'.inst → st.nodes = st'.nodes
  /-- Nobody but the first node is asked about instance 1. -/
  firstView : ∀ st ∈ S, st.inst = 1 → ∀ m ∈ st.nodes, m = first
  msgs : ∀ m ∈ M, MsgOk first v₀ M S m
  /-- A run proposes one value. -/
  oneValue : ∀ q q', .accept q ∈ M → .accept q' ∈ M → q.rid = q'.rid → q.v = q'.v
  /-- A promise reports the votes from before it. -/
  reported : ∀ a inst n rid res, Promise M a inst n rid res → ∀ n' v', Vote M a inst n' v' →
    n' < n → ∃ m, res.nA.used = some m ∧ n' ≤ m
  /-- A number is promised to one run. -/
  onePromise : ∀ a inst n rid rid' res res', Promise M a inst n rid res →
    Promise M a inst n rid' res' → rid = rid'

theorem MsgOk.mono (hM : ∀ m ∈ M, m ∈ M') (hS : ∀ st ∈ S, st ∈ S') (hlen : S.length ≤ S'.length)
    {first : NodeId} (h : MsgOk first v₀ M S m) : MsgOk first v₀ M' S' m := by
  cases m with
  | prepare q => exact h
  | prepareRes q res =>
    obtain ⟨hold, hacc⟩ := h
    constructor
    · intro ho hi
      exact (hold ho hi).mono hM hS
    · intro ha
      obtain ⟨h1, h2, h3, h4⟩ := hacc ha
      refine ⟨h1, h2, h3, ?_⟩
      intro m hm
      obtain ⟨hlt, hne, hprop⟩ := h4 m hm
      exact ⟨hlt, hne, hprop.mono hM⟩
  | accept q =>
    obtain ⟨h1, h2, h3, h4, ⟨res, h5⟩, st, hst, h6⟩ := h
    exact ⟨h1, h2, h3.trans_le hlen, h4.mono hM hS, ⟨res, h5.mono hM⟩, st, hS st hst, h6⟩
  | acceptRes q ok =>
    intro hok
    exact hM _ (h hok)
  | decide q => exact Decided.mono hM hS h
  | dump file => exact FileOk.mono hM hS h

/-! ## One more message -/

/-- A promise among the messages with one more is an old one, or the new
message. -/
theorem Promise.of_cons {rid : Nat} {res : PrepareRes} (h : Promise (m :: M) a inst n rid res) :
    Promise M a inst n rid res ∨ ∃ q, m = .prepareRes q res ∧ res.accept = true ∧ q.dst = a ∧
      q.inst = inst ∧ q.n = n ∧ q.rid = rid := by
  obtain ⟨q, hq, hrest⟩ := h
  rcases List.mem_cons.mp hq with heq | hmem
  · exact .inr ⟨q, heq.symm, hrest⟩
  · exact .inl ⟨q, hmem, hrest⟩

theorem Vote.of_cons (h : Vote (m :: M) a inst n v) :
    Vote M a inst n v ∨ ∃ q, m = .acceptRes q true ∧ q.dst = a ∧ q.inst = inst ∧ q.n = n ∧
      q.v = v := by
  obtain ⟨q, hq, hrest⟩ := h
  rcases List.mem_cons.mp hq with heq | hmem
  · exact .inr ⟨q, heq.symm, hrest⟩
  · exact .inl ⟨q, hmem, hrest⟩

/-- What a new message has to respect: the value its run has proposed, the
votes and promises of an acceptor that promises, and the promises of one
that votes. -/
structure Fits (M : List Msg) (m : Msg) : Prop where
  value : ∀ q, m = .accept q → ∀ q', .accept q' ∈ M → q'.rid = q.rid → q'.v = q.v
  reports : ∀ q res, m = .prepareRes q res → res.accept = true → ∀ n' v',
    Vote M q.dst q.inst n' v' → n' < q.n → ∃ c, res.nA.used = some c ∧ n' ≤ c
  fresh : ∀ q res, m = .prepareRes q res → res.accept = true → ∀ rid res',
    ¬ Promise M q.dst q.inst q.n rid res'
  current : ∀ q, m = .acceptRes q true → ∀ n rid res, Promise M q.dst q.inst n rid res → n ≤ q.n

/-- A message that neither proposes, promises nor votes. -/
theorem Fits.quiet (ha : ∀ q, m ≠ .accept q)
    (hp : ∀ q res, m = .prepareRes q res → res.accept = false) (hv : ∀ q, m ≠ .acceptRes q true) :
    Fits M m := by
  constructor
  case value =>
    intro q hm
    exact absurd hm (ha q)
  case reports =>
    intro q res hm hacc
    exact absurd hacc (by simp [hp q res hm])
  case fresh =>
    intro q res hm hacc
    exact absurd hacc (by simp [hp q res hm])
  case current =>
    intro q hm
    exact absurd hm (hv q)

theorem Sound.add {first : NodeId} (h : Sound first v₀ M S) (hf : Fits M m)
    (hm : MsgOk first v₀ (m :: M) S m) : Sound first v₀ (m :: M) S := by
  have hM : ∀ m' ∈ M, m' ∈ m :: M := fun m' hm' => List.mem_cons_of_mem m hm'
  constructor
  case members =>
    exact h.members
  case firstView =>
    exact h.firstView
  case msgs =>
    intro m' hm'
    rcases List.mem_cons.mp hm' with rfl | hold
    · exact hm
    · exact (h.msgs m' hold).mono hM (fun _ hst => hst) le_rfl
  case oneValue =>
    intro q q' hq hq' hrid
    rcases List.mem_cons.mp hq with hnew | hq
    · rcases List.mem_cons.mp hq' with hnew' | hq'
      · cases hnew.trans hnew'.symm
        rfl
      · exact (hf.value q hnew.symm q' hq' hrid.symm).symm
    · rcases List.mem_cons.mp hq' with hnew' | hq'
      · exact hf.value q' hnew'.symm q hq hrid
      · exact h.oneValue q q' hq hq' hrid
  case reported =>
    intro a inst n rid res hp n' v' hv hlt
    rcases hp.of_cons with hp' | ⟨q, rfl, hacc, rfl, rfl, rfl, rfl⟩
    · rcases hv.of_cons with hv' | ⟨q, rfl, rfl, rfl, rfl, rfl⟩
      · exact h.reported a inst n rid res hp' n' v' hv' hlt
      · exact absurd hlt (not_lt.mpr (hf.current q rfl n rid res hp'))
    · rcases hv.of_cons with hv' | ⟨_, hne, _⟩
      · exact hf.reports q res rfl hacc n' v' hv' hlt
      · cases hne
  case onePromise =>
    intro a inst n rid rid' res res' hp₁ hp₂
    rcases hp₁.of_cons with hold₁ | ⟨q, rfl, hacc, rfl, rfl, rfl, rfl⟩
    · rcases hp₂.of_cons with hold₂ | ⟨q, rfl, hacc, rfl, rfl, rfl, rfl⟩
      · exact h.onePromise a inst n rid rid' res res' hold₁ hold₂
      · exact absurd hold₁ (hf.fresh q res' rfl hacc rid res)
    · rcases hp₂.of_cons with hold₂ | ⟨q', heq, _, _, _, _, rfl⟩
      · exact absurd hold₂ (hf.fresh q res rfl hacc rid' res')
      · cases heq
        rfl

/-! ## Agreement -/

section Agreement

variable {first : NodeId}

def history (M : List Msg) (inst : Nat) : Voting.History NodeId PropT Value :=
  ⟨fun a n v => Vote M a inst n v, fun n v => Proposal M inst n v⟩

def quorum (S : List Started) (inst : Nat) (Q : Set NodeId) : Prop :=
  ∃ st ∈ S, ∃ l : List NodeId, st.inst = inst ∧ majority st.nodes l = true ∧ Q = {a | a ∈ l}

theorem proposals_finite (M : List Msg) (inst : Nat) :
    {n | ∃ v, Proposal M inst n v}.Finite := by
  have hsub : {n | ∃ v, Proposal M inst n v} ⊆
      {n | n ∈ M.filterMap fun m => match m with
        | .accept q => some q.n
        | _ => none} := by
    rintro n ⟨v, q, hq, _, rfl, _⟩
    exact List.mem_filterMap.mpr ⟨.accept q, hq, rfl⟩
  exact (List.finite_toSet _).subset hsub

variable {inst : Nat} {n : PropT} {v : Value}

theorem Sound.vote_proposal (h : Sound first v₀ M S) {a : NodeId} (hv : Vote M a inst n v) :
    Proposal M inst n v := by
  obtain ⟨q, hq, _, hrest⟩ := hv
  exact ⟨q, h.msgs _ hq rfl, hrest⟩

/-- A number is used by one run only, and a run proposes one value. -/
theorem Sound.proposal_unique (h : Sound first v₀ M S) {v' : Value} (hp : Proposal M inst n v)
    (hp' : Proposal M inst n v') : v = v' := by
  obtain ⟨q, hq, rfl, rfl, rfl⟩ := hp
  obtain ⟨q', hq', hi, hn, rfl⟩ := hp'
  refine h.oneValue q q' hq hq' ?_
  obtain ⟨_, _, _, ⟨st, hst, Q, hsi, hmaj, hQ⟩, _⟩ := h.msgs _ hq
  obtain ⟨_, _, _, ⟨st', hst', Q', hsi', hmaj', hQ'⟩, _⟩ := h.msgs _ hq'
  rw [h.members st' hst' st hst (hsi'.trans (hi.trans hsi.symm))] at hmaj'
  obtain ⟨a, _, ha, ha'⟩ := majority_meet hmaj hmaj'
  obtain ⟨res, hpr, _⟩ := hQ a ha
  obtain ⟨res', hpr', _⟩ := hQ' a ha'
  rw [hi, hn] at hpr'
  exact h.onePromise a q.inst q.n q.rid q'.rid res res' hpr hpr'

/-- The history of an instance obeys the rules of voting. -/
theorem Sound.lawful (h : Sound first v₀ M S) (inst : Nat) :
    Voting.Lawful (history M inst) (quorum S inst) := by
  constructor
  case finite =>
    exact proposals_finite M inst
  case votes =>
    intro a n v hv
    exact h.vote_proposal hv
  case unique =>
    intro n v v' hp hp'
    exact h.proposal_unique hp hp'
  case meet =>
    rintro Q Q' ⟨st, hst, l, hi, hmaj, rfl⟩ ⟨st', hst', l', hi', hmaj', rfl⟩
    rw [h.members st' hst' st hst (hi'.trans hi.symm)] at hmaj'
    obtain ⟨a, _, ha, ha'⟩ := majority_meet hmaj hmaj'
    exact ⟨a, ha, ha'⟩
  case backed =>
    rintro n v ⟨q, hq, rfl, rfl, rfl⟩
    obtain ⟨_, _, _, ⟨st, hst, l, hi, hmaj, hall⟩, _⟩ := h.msgs _ hq
    refine ⟨{a | a ∈ l}, ⟨st, hst, l, hi, hmaj, rfl⟩, ?_⟩
    -- what a member of the majority voted for before is what it reported
    intro a ha n' v' hvote hlt
    obtain ⟨res, hpr, hcov⟩ := hall a ha
    obtain ⟨m, hm, hle⟩ := h.reported a q.inst q.n q.rid res hpr n' v' hvote hlt
    obtain ⟨c, hmc, hcn, hprop⟩ := hcov m hm
    exact ⟨c, hle.trans hmc, hcn, hprop⟩

/-- Nothing is proposed for instance 1. -/
theorem Sound.no_proposal_one (h : Sound first v₀ M S) : ¬ Proposal M 1 n v := by
  rintro ⟨q, hq, hi, _, _⟩
  obtain ⟨_, _, _, ⟨st, hst, Q, hsi, hmaj, hQ⟩, _⟩ := h.msgs _ hq
  obtain ⟨a, ha, haQ⟩ := majority_nonempty hmaj
  obtain ⟨res, ⟨p, hp, hacc, hdst, hpi, _⟩, _⟩ := hQ a haQ
  have hfirst : p.dst = first := hdst.trans (h.firstView st hst (hsi.trans hi) a ha)
  obtain ⟨_, hone, _⟩ := (h.msgs _ hp).2 hacc
  exact hone hfirst (hpi.trans hi)

theorem Sound.decided_chosen (h : Sound first v₀ M S) (hd : Decided v₀ M S inst v) :
    (inst = 1 ∧ v = v₀) ∨
      (inst ≠ 1 ∧ ∃ n, Voting.Chosen (history M inst) (quorum S inst) n v) := by
  rcases hd with hd | ⟨st, hst, Q, n, hi, hmaj, hvote⟩
  · exact .inl hd
  · right
    refine ⟨?_, n, {a | a ∈ Q}, ⟨st, hst, Q, hi, hmaj, rfl⟩, hvote⟩
    rintro rfl
    obtain ⟨a, _, ha⟩ := majority_nonempty hmaj
    exact h.no_proposal_one (h.vote_proposal (hvote a ha))

/-- **An instance has at most one decided value.** -/
theorem Sound.decided_unique (h : Sound first v₀ M S) {v' : Value} (hd : Decided v₀ M S inst v)
    (hd' : Decided v₀ M S inst v') : v = v' := by
  rcases h.decided_chosen hd with ⟨hi, hv⟩ | ⟨hi, n, hc⟩
  · rcases h.decided_chosen hd' with ⟨_, hv'⟩ | ⟨hi', _⟩
    · rw [hv, hv']
    · exact absurd hi hi'
  · rcases h.decided_chosen hd' with ⟨hi', _⟩ | ⟨_, n', hc'⟩
    · exact absurd hi' hi
    · exact (h.lawful inst).agreement hc hc'

/-- A decided value was proposed by a run for that instance. -/
theorem Sound.decided_valid (h : Sound first v₀ M S) (hd : Decided v₀ M S inst v) :
    (inst = 1 ∧ v = v₀) ∨
      (inst ≠ 0 ∧ inst ≠ 1 ∧ ∃ st ∈ S, st.inst = inst ∧ st.newv = v) := by
  rcases hd with hd | ⟨st, hst, Q, n, hi, hmaj, hvote⟩
  · exact .inl hd
  · right
    obtain ⟨a, _, ha⟩ := majority_nonempty hmaj
    have hprop := h.vote_proposal (hvote a ha)
    have hone : inst ≠ 1 := by
      rintro rfl
      exact h.no_proposal_one hprop
    obtain ⟨q, hq, rfl, rfl, rfl⟩ := hprop
    obtain ⟨_, _, _, _, ⟨res, p, hp, hacc, _, hpi, _⟩, hvalid⟩ := h.msgs _ hq
    obtain ⟨hzero, _⟩ := (h.msgs _ hp).2 hacc
    exact ⟨fun h0 => hzero (hpi.trans h0), hone, hvalid⟩

end Agreement

end Yfs.Paxos
