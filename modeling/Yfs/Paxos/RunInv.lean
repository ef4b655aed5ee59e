/-
Yfs.Paxos.RunInv — what a run of the proposer has to show for itself in
each phase.

While it prepares, the promises it has collected, with the highest
proposal among them (`Collected`). Once it proposes, a majority of
promises behind its value (`RunBacked`). Once it decides, a majority of
votes (`Decided`). A phase ends with a majority of what it collected, and
that is where one turns into the next (`RunOk.settle`).
-/
import Yfs.Paxos.AcceptorInv

namespace Yfs.Paxos

variable {first : NodeId} {v₀ : Value} {M M' : List Msg} {S S' : List Started} {r r' : Run}

structure Collected (M : List Msg) (r : Run) : Prop where
  promises : ∀ a ∈ r.accepts, ∃ res, Promise M a r.inst r.n r.rid res ∧
    ∀ m, res.nA.used = some m → m ≤ r.maxN
  none : r.maxN.n = 0 → r.v = []
  some : r.maxN.n ≠ 0 → r.v ≠ [] ∧ r.maxN < r.n ∧ Proposal M r.inst r.maxN r.v

structure Proposing (M : List Msg) (S : List Started) (r : Run) : Prop where
  nonempty : r.v ≠ []
  valid : ∃ st ∈ S, st.inst = r.inst ∧ st.newv = r.v
  backed : RunBacked M S r.rid r.inst r.n r.v
  asked : ∀ d ∈ r.todo, ∃ res, Promise M d r.inst r.n r.rid res
  oneValue : ∀ q, .accept q ∈ M → q.rid = r.rid → q.v = r.v
  votes : ∀ a ∈ r.accepts, Vote M a r.inst r.n r.v

def PhaseOk (v₀ : Value) (M : List Msg) (S : List Started) (r : Run) : Prop :=
  match r.phase with
  | .prepare => Collected M r ∧ ∀ q, .accept q ∈ M → q.rid ≠ r.rid
  | .accept => Proposing M S r
  | .decide => Decided v₀ M S r.inst r.v

structure RunOk (v₀ : Value) (M : List Msg) (S : List Started) (instanceH : Nat) (r : Run) :
    Prop where
  number : r.n.n ≠ 0
  newv : r.newv ≠ []
  started : ⟨r.inst, r.curNodes, r.newv⟩ ∈ S
  bound : r.inst ≤ instanceH + 1
  rid : r.rid < S.length
  phase : PhaseOk v₀ M S r
  call : ∀ m, r.call = some m → ∃ c d, m = r.request c d

variable {i i' : Nat}

theorem phaseOk_prepare (hp : r.phase = .prepare) :
    PhaseOk v₀ M S r ↔ Collected M r ∧ ∀ q, .accept q ∈ M → q.rid ≠ r.rid := by
  simp only [PhaseOk, hp]

theorem phaseOk_accept (hp : r.phase = .accept) : PhaseOk v₀ M S r ↔ Proposing M S r := by
  simp only [PhaseOk, hp]

theorem phaseOk_decide (hp : r.phase = .decide) :
    PhaseOk v₀ M S r ↔ Decided v₀ M S r.inst r.v := by
  simp only [PhaseOk, hp]

/-! ## The history grows -/

theorem Collected.mono (hM : ∀ m ∈ M, m ∈ M') (h : Collected M r) : Collected M' r := by
  constructor
  · intro a ha
    obtain ⟨res, hp, hmax⟩ := h.promises a ha
    exact ⟨res, hp.mono hM, hmax⟩
  · exact h.none
  · intro hn
    obtain ⟨h1, h2, h3⟩ := h.some hn
    exact ⟨h1, h2, h3.mono hM⟩

/-- Nothing new is proposed by this run, or only its own value: the rest
gets easier. -/
theorem RunOk.mono (hM : ∀ m ∈ M, m ∈ M') (hS : ∀ st ∈ S, st ∈ S')
    (hlen : S.length ≤ S'.length) (hi : i ≤ i')
    (hnew : ∀ q, .accept q ∈ M' → q.rid = r.rid →
      .accept q ∈ M ∨ (r.phase = .accept ∧ q.v = r.v))
    (h : RunOk v₀ M S i r) : RunOk v₀ M' S' i' r := by
  refine ⟨h.number, h.newv, hS _ h.started, by have := h.bound; omega, h.rid.trans_le hlen, ?_,
    h.call⟩
  have hph := h.phase
  cases hp : r.phase with
  | prepare =>
    rw [phaseOk_prepare hp] at hph ⊢
    refine ⟨hph.1.mono hM, ?_⟩
    intro q hq hrid
    rcases hnew q hq hrid with hold | ⟨hacc, _⟩
    · exact hph.2 q hold hrid
    · cases hp.symm.trans hacc
  | accept =>
    rw [phaseOk_accept hp] at hph ⊢
    obtain ⟨st, hst, hv⟩ := hph.valid
    refine ⟨hph.nonempty, ⟨st, hS st hst, hv⟩, hph.backed.mono hM hS, ?_, ?_, ?_⟩
    · intro d hd
      obtain ⟨res, hp⟩ := hph.asked d hd
      exact ⟨res, hp.mono hM⟩
    · intro q hq hrid
      rcases hnew q hq hrid with hold | ⟨_, hv⟩
      · exact hph.oneValue q hold hrid
      · exact hv
    · intro a ha
      exact (hph.votes a ha).mono hM
  | decide =>
    rw [phaseOk_decide hp] at hph ⊢
    exact hph.mono hM hS

/-! ## A phase ends -/

/-- The promises of a majority back the value picked from them. -/
theorem Collected.proposing (hs : Sound first v₀ M S) (h : Collected M r)
    (hst : ⟨r.inst, r.curNodes, r.newv⟩ ∈ S) (hnewv : r.newv ≠ [])
    (hfree : ∀ q, .accept q ∈ M → q.rid ≠ r.rid)
    (hmaj : majority r.curNodes r.accepts = true) :
    Proposing M S { r with
      phase := .accept, todo := r.accepts, accepts := []
      v := if r.v = [] then r.newv else r.v } := by
  constructor
  case nonempty =>
    show (if r.v = [] then r.newv else r.v) ≠ []
    split
    · exact hnewv
    · assumption
  case valid =>
    show ∃ st ∈ S, st.inst = r.inst ∧ st.newv = if r.v = [] then r.newv else r.v
    by_cases hv : r.v = []
    · exact ⟨_, hst, rfl, by rw [if_pos hv]⟩
    · -- an adopted value was proposed before, for the same instance
      have hmax : r.maxN.n ≠ 0 := fun h0 => hv (h.none h0)
      obtain ⟨_, _, q, hq, hqi, _, hqv⟩ := h.some hmax
      obtain ⟨_, _, _, _, _, st, hmem, hi, hnew⟩ := hs.msgs _ hq
      exact ⟨st, hmem, hi.trans hqi, by rw [if_neg hv, hnew, hqv]⟩
  case backed =>
    refine ⟨_, hst, r.accepts, rfl, hmaj, ?_⟩
    intro a ha
    obtain ⟨res, hp, hmax⟩ := h.promises a ha
    refine ⟨res, hp, ?_⟩
    intro m hm
    have hle := hmax m hm
    have hm0 : m.n ≠ 0 := (PropT.used_eq_some.mp hm).2
    have hne : r.maxN.n ≠ 0 := by
      have := PropT.n_le_of_le hle
      omega
    obtain ⟨hv, hlt, hprop⟩ := h.some hne
    refine ⟨r.maxN, hle, hlt, ?_⟩
    show Proposal M r.inst r.maxN (if r.v = [] then r.newv else r.v)
    rwa [if_neg hv]
  case asked =>
    intro d hd
    obtain ⟨res, hp, _⟩ := h.promises d hd
    exact ⟨res, hp⟩
  case oneValue =>
    intro q hq hrid
    exact absurd hrid (hfree q hq)
  case votes =>
    nofun

theorem RunOk.settle (hs : Sound first v₀ M S) (h : RunOk v₀ M S i r) (hc : r.call = none)
    (hr : r.settle = some r') : RunOk v₀ M S i r' := by
  have hph := h.phase
  rcases settle_cases hr with ⟨_, rfl⟩ | ⟨hphase, hmaj, rfl⟩ | ⟨hphase, hmaj, rfl⟩
  · exact h
  · rw [phaseOk_prepare hphase] at hph
    refine ⟨h.number, h.newv, h.started, h.bound, h.rid, ?_, ?_⟩
    · exact hph.1.proposing hs h.started h.newv hph.2 hmaj
    · intro m hm
      cases hc.symm.trans hm
  · rw [phaseOk_accept hphase] at hph
    refine ⟨h.number, h.newv, h.started, h.bound, h.rid, ?_, ?_⟩
    · exact .inr ⟨_, h.started, r.accepts, r.n, rfl, hmaj, hph.votes⟩
    · intro m hm
      cases hc.symm.trans hm

/-- Fewer nodes to call, or another call going on. -/
theorem RunOk.steer (h : RunOk v₀ M S i r) {todo : List NodeId} {call : Option Msg}
    (ht : ∀ d ∈ todo, d ∈ r.todo) (hc : ∀ m, call = some m → ∃ c d, m = r.request c d) :
    RunOk v₀ M S i { r with todo := todo, call := call } := by
  refine ⟨h.number, h.newv, h.started, h.bound, h.rid, ?_, hc⟩
  have hph := h.phase
  cases hp : r.phase with
  | prepare =>
    rw [phaseOk_prepare hp] at hph
    rw [phaseOk_prepare rfl]
    exact ⟨⟨hph.1.promises, hph.1.none, hph.1.some⟩, hph.2⟩
  | accept =>
    rw [phaseOk_accept hp] at hph
    rw [phaseOk_accept rfl]
    refine ⟨hph.nonempty, hph.valid, hph.backed, ?_, hph.oneValue, hph.votes⟩
    intro d hd
    exact hph.asked d (ht d hd)
  | decide =>
    rw [phaseOk_decide hp] at hph
    rw [phaseOk_decide rfl]
    exact hph

theorem RunOk.next (hs : Sound first v₀ M S) (h : RunOk v₀ M S i r) (hr : r.next = some r') :
    RunOk v₀ M S i r' := by
  refine RunOk.settle hs (h.steer (fun d hd => List.mem_of_mem_tail hd) ?_) rfl hr
  nofun

/-- A run begins. -/
theorem RunOk.start {inst n : Nat} {nodes : List NodeId} {newv : Value} {num : PropT}
    (hs : Sound first v₀ M S) (hnum : num.n ≠ 0) (hnewv : newv ≠ [])
    (hst : ⟨inst, nodes, newv⟩ ∈ S) (hbound : inst ≤ i + 1) (hrid : n < S.length)
    (hfree : ∀ q, .accept q ∈ M → q.rid ≠ n) (hr : Run.start n inst nodes newv num = some r') :
    RunOk v₀ M S i r' := by
  refine RunOk.settle hs ?_ rfl hr
  refine ⟨hnum, hnewv, hst, hbound, hrid, ⟨⟨?_, ?_, ?_⟩, hfree⟩, ?_⟩
  · nofun
  · intro _
    rfl
  · intro h
    exact absurd rfl h
  · nofun

/-! ## Replies -/

theorem request_prepare {c : Nat} {d : NodeId} {q : PrepareReq} (h : .prepare q = r.request c d) :
    r.phase = .prepare ∧ q.rid = r.rid ∧ q.dst = d ∧ q.inst = r.inst ∧ q.n = r.n := by
  unfold Run.request at h
  split at h
  · rename_i hp
    cases h
    exact ⟨hp, rfl, rfl, rfl, rfl⟩
  · cases h
  · cases h

theorem request_accept {c : Nat} {d : NodeId} {q : AcceptReq} (h : .accept q = r.request c d) :
    r.phase = .accept ∧ q.rid = r.rid ∧ q.dst = d ∧ q.inst = r.inst ∧ q.n = r.n ∧ q.v = r.v := by
  unfold Run.request at h
  split at h
  · cases h
  · rename_i hp
    cases h
    exact ⟨hp, rfl, rfl, rfl, rfl, rfl⟩
  · cases h

/-- The request to a node that is still to be called may be sent. -/
theorem RunOk.request_ok (h : RunOk v₀ M S i r) {d : NodeId} (hd : d ∈ r.todo) (c : Nat) :
    MsgOk first v₀ M S (r.request c d) ∧ Fits M (r.request c d) := by
  have hph := h.phase
  unfold Run.request
  cases hp : r.phase with
  | prepare =>
    exact ⟨h.number, Fits.quiet (by simp) (by simp) (by simp)⟩
  | accept =>
    rw [phaseOk_accept hp] at hph
    refine ⟨⟨h.number, hph.nonempty, h.rid, hph.backed, hph.asked d hd, hph.valid⟩, ?_⟩
    constructor
    · intro q hq q' hq' hrid
      cases hq
      exact hph.oneValue q' hq' hrid
    · nofun
    · nofun
    · nofun
  | decide =>
    rw [phaseOk_decide hp] at hph
    exact ⟨hph, Fits.quiet (by simp) (by simp) (by simp)⟩

/-- The run waits for the request it has sent. -/
theorem RunOk.sent (h : RunOk v₀ M S i r) (c : Nat) (d : NodeId) :
    RunOk v₀ (r.request c d :: M) S i { r with call := some (r.request c d) } := by
  have hsent : RunOk v₀ (r.request c d :: M) S i r := by
    refine h.mono (fun m hm => List.mem_cons_of_mem _ hm) (fun _ hst => hst) le_rfl le_rfl ?_
    intro q hq _
    rcases List.mem_cons.mp hq with hnew | hold
    · obtain ⟨hp, _, _, _, _, hv⟩ := request_accept hnew
      exact .inr ⟨hp, hv⟩
    · exact .inl hold
  refine hsent.steer (fun d hd => hd) ?_
  intro m hm
  exact ⟨c, d, (Option.some.inj hm).symm⟩

/-- What one more promise adds. -/
theorem Collected.promised (hs : Sound first v₀ M S) (h : Collected M r) {q : PrepareReq}
    {res : PrepareRes} (hm : .prepareRes q res ∈ M) (hacc : res.accept = true)
    (hq : q.rid = r.rid ∧ q.inst = r.inst ∧ q.n = r.n) :
    Collected M { r with
      accepts := r.accepts ++ [q.dst]
      v := if res.nA.gt r.maxN then res.vA else r.v
      maxN := if res.nA.gt r.maxN then res.nA else r.maxN } := by
  obtain ⟨hrid, hinst, hn⟩ := hq
  obtain ⟨_, _, hblank, hrep⟩ := (hs.msgs _ hm).2 hacc
  have hnew : Promise M q.dst r.inst r.n r.rid res := ⟨q, hm, hacc, rfl, hinst, hn, hrid⟩
  by_cases hgt : res.nA.gt r.maxN = true
  · have hlt : r.maxN < res.nA := PropT.gt_iff.mp hgt
    simp only [hgt, if_true]
    constructor
    · intro a ha
      rcases List.mem_append.mp ha with ha | ha
      · obtain ⟨res', hp, hmax⟩ := h.promises a ha
        exact ⟨res', hp, fun m hm => (hmax m hm).trans hlt.le⟩
      · obtain rfl := List.mem_singleton.mp ha
        refine ⟨res, hnew, ?_⟩
        intro m hm
        exact (PropT.used_eq_some.mp hm).1.ge
    · intro h0
      exact hblank (by simpa [PropT.used] using h0)
    · intro hne
      obtain ⟨hlt', hv, hprop⟩ := hrep res.nA (PropT.used_of_ne hne)
      rw [hinst] at hprop
      rw [hn] at hlt'
      exact ⟨hv, hlt', hprop⟩
  · have hle : res.nA ≤ r.maxN := not_lt.mp fun hlt => hgt (PropT.gt_iff.mpr hlt)
    simp only [hgt, Bool.false_eq_true, if_false]
    constructor
    · intro a ha
      rcases List.mem_append.mp ha with ha | ha
      · exact h.promises a ha
      · obtain rfl := List.mem_singleton.mp ha
        refine ⟨res, hnew, ?_⟩
        intro m hm
        rw [← (PropT.used_eq_some.mp hm).1]
        exact hle
    · exact h.none
    · exact h.some

/-- The reply to a prepare request. -/
theorem RunOk.promised (hs : Sound first v₀ M S) (h : RunOk v₀ M S i r) {q : PrepareReq}
    {res : PrepareRes} (hm : .prepareRes q res ∈ M) (hc : r.call = some (.prepare q)) :
    RunOk v₀ M S i (r.promised q.dst res) := by
  unfold Run.promised
  split
  · rename_i hacc
    obtain ⟨c, d, hreq⟩ := h.call _ hc
    obtain ⟨hp, hrid, _, hinst, hn⟩ := request_prepare hreq
    have hph := h.phase
    rw [phaseOk_prepare hp] at hph
    refine ⟨h.number, h.newv, h.started, h.bound, h.rid, ?_, ?_⟩
    · rw [phaseOk_prepare (by exact hp)]
      exact ⟨hph.1.promised hs hm hacc ⟨hrid, hinst, hn⟩, hph.2⟩
    · intro m hm
      obtain ⟨c', d', rfl⟩ := h.call m hm
      exact ⟨c', d', by simp only [Run.request, hp]⟩
  · exact h

/-- The reply to an accept request. -/
theorem RunOk.accepted (h : RunOk v₀ M S i r) {q : AcceptReq} {ok : Bool}
    (hm : .acceptRes q ok ∈ M) (hc : r.call = some (.accept q)) :
    RunOk v₀ M S i (r.accepted q.dst ok) := by
  unfold Run.accepted
  split
  · rename_i hok
    obtain ⟨c, d, hreq⟩ := h.call _ hc
    obtain ⟨hp, _, _, hinst, hn, hv⟩ := request_accept hreq
    have hph := h.phase
    rw [phaseOk_accept hp] at hph
    refine ⟨h.number, h.newv, h.started, h.bound, h.rid, ?_, h.call⟩
    rw [phaseOk_accept (by exact hp)]
    refine ⟨hph.nonempty, hph.valid, hph.backed, hph.asked, hph.oneValue, ?_⟩
    intro a ha
    rcases List.mem_append.mp ha with ha | ha
    · exact hph.votes a ha
    · obtain rfl := List.mem_singleton.mp ha
      rw [hok] at hm
      exact ⟨q, hm, rfl, hinst, hn, hv⟩
  · exact h

end Yfs.Paxos
