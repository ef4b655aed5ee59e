/-
Yfs.Rsm.SameSequence — inside one view, do the replicas execute the same
requests in the same order?

The primary sends a request to the backups one after the other and
executes it itself at the end. When a call fails it returns BUSY, and its
stamp is used up. Two things can then be true of the backups:

* the LAST backup of the view has not executed the request. It waits for
  a stamp that is not sent again before `seqno`, an unsigned int, has gone
  round, so it refuses everything until then and no `client_invoke`
  returns OK (`Stuck`);
* the last backup HAS executed it, and so have all before it. Then
  nothing tells this view from one in which all went well, except that
  the primary has missed a request, and the next `client_invoke` returns
  OK on diverged replicas (`lost_reply_diverges`).

`replicas_execute_same_sequence` says that the second case is the only
way things go wrong.
-/
import Yfs.Rsm.System

namespace Yfs.Rsm

open Run Function

variable {σ ρ κ : Type}

/-! ## Runs inside one view -/

/-- The requests a node has executed with a stamp of view `w`, that is,
since it was synchronised for `w`. -/
def Node.executed (n : Node σ ρ κ) (w : Nat) : List (Entry ρ κ) :=
  n.execd.filter fun e => e.vs.vid = w

def backupsOf (views : Nat → List NodeId) (w : Nat) (P : NodeId) : List NodeId :=
  (views w).filter fun m => m ≠ P

/-- View `w` with primary `P` has just been synchronised: every member is
in it with the same state and has executed nothing in it. Nodes outside
the view serve no requests, and what is still on its way is older. -/
structure Synced (views : Nat → List NodeId) (w : Nat) (P : NodeId) (s : Sys σ ρ κ) : Prop where
  mem : P ∈ views w
  nodup : (views w).Nodup
  members : ∀ m ∈ views w, (s.nodes m).inviewchange = false ∧ (s.nodes m).primary = P ∧
    (s.nodes m).vidCommit = w ∧ (s.nodes m).myvs = ⟨w, 1⟩ ∧ (s.nodes m).executed w = [] ∧
    (s.nodes m).state = (s.nodes P).state
  outside : ∀ n, n ∉ views w → (s.nodes n).inviewchange = true
  idle : ∀ n, (s.nodes n).invoking = none
  older : ∀ k dst vs req, s.invokes k = .sent dst vs req → vs.vid ≠ w
  fresh : ∀ k, s.nextCall ≤ k → s.invokes k = .unused

def Event.isRequest : Event ρ → Bool
  | .clientInvoke _ _ => true
  | .sendInvoke _ => true
  | .invoke _ => true
  | .invokeReturn _ => true
  | .invokeFails _ => true
  | _ => false

/-- A run inside one view: no view change and no recovery. -/
def InsideView (_ : Sys σ ρ κ) (e : Event ρ) : Prop := e.isRequest = true

/-- The call to the last backup is given up only while that backup has not
executed the request, that backup executes a request only while the
primary waits for that very call, and the stamps of the view are not used
up. -/
def LastBackupInStep (views : Nat → List NodeId) (w : Nat) (P : NodeId) (s : Sys σ ρ κ)
    (e : Event ρ) : Prop :=
  e.isRequest = true ∧
  match e with
  | .invokeFails n => ∀ inv ∈ (s.nodes n).invoking,
      (backupsOf views w P).getLast? = some inv.target → (s.nodes inv.target).myvs = inv.vs
  | .invoke k =>
    match s.invokes k with
    | .sent dst vs _ => (backupsOf views w P).getLast? = some dst → vs = (s.nodes dst).myvs →
        (s.nodes P).invoking.bind Invoking.call = some k
    | _ => True
  | .clientInvoke n _ => (s.nodes n).myvs.seqno + 1 < 2 ^ 32
  | _ => True

instance (s : Sys σ ρ κ) (e : Event ρ) : Decidable (InsideView s e) := by
  unfold InsideView
  infer_instance

instance (views : Nat → List NodeId) (w : Nat) (P : NodeId) (s : Sys σ ρ κ) (e : Event ρ) :
    Decidable (LastBackupInStep views w P s e) := by
  rcases e <;> unfold LastBackupInStep <;> try infer_instance
  rename_i k
  refine @instDecidableAnd _ _ inferInstance ?_
  dsimp only
  rcases s.invokes k <;> infer_instance

/-! ## The invariant -/

theorem execute_executed (svc : Service σ ρ κ) (n : Node σ ρ κ) {vs : Viewstamp} {w : Nat}
    (req : ρ) (hvs : vs.vid = w) :
    (n.execute svc vs req).2.executed w
      = n.executed w ++ [⟨vs, req, (svc.execute n.state req).2⟩] := by
  simp [Node.execute, Node.executed, hvs]

/-- A member that expects `seq` next, has executed `xs`, and has state `st`. -/
structure At (w : Nat) (n : Node σ ρ κ) (seq : Nat) (xs : List (Entry ρ κ)) (st : σ) : Prop where
  seq : n.myvs.seqno = seq
  executed : n.executed w = xs
  state : n.state = st

structure Frame (views : Nat → List NodeId) (w : Nat) (P : NodeId) (s : Sys σ ρ κ) : Prop where
  mem : P ∈ views w
  nodup : (views w).Nodup
  members : ∀ m ∈ views w, (s.nodes m).inviewchange = false ∧ (s.nodes m).primary = P ∧
    (s.nodes m).vidCommit = w ∧ (s.nodes m).myvs.vid = w
  outside : ∀ n, n ∉ views w → (s.nodes n).inviewchange = true
  idle : ∀ n, n ≠ P → (s.nodes n).invoking = none
  older : ∀ k dst vs req, s.invokes k = .sent dst vs req → vs.vid = w →
    vs.seqno < (s.nodes P).myvs.seqno
  fresh : ∀ k, s.nextCall ≤ k → s.invokes k = .unused
  stamp : ∀ inv, (s.nodes P).invoking = some inv → inv.vs = (s.nodes P).lastMyvs ∧
    inv.vs.vid = w ∧ (s.nodes P).myvs.seqno = inv.vs.seqno + 1
  place : ∀ inv, (s.nodes P).invoking = some inv → inv.target ≠ P ∧
    ∃ pre, views w = pre ++ inv.target :: inv.rest
  call : ∀ inv k, (s.nodes P).invoking = some inv → inv.call = some k →
    s.invokes k = .sent inv.target inv.vs inv.req ∨
      ∃ b, s.invokes k = .replied inv.target inv.vs inv.req b
  bound : (s.nodes P).myvs.seqno < 2 ^ 32

def Invoking.entry (svc : Service σ ρ κ) (inv : Invoking ρ) (st : σ) : Entry ρ κ :=
  ⟨inv.vs, inv.req, (svc.execute st inv.req).2⟩

/-- No request has been left half done. -/
inductive Clean (svc : Service σ ρ κ) (views : Nat → List NodeId) (w : Nat) (P : NodeId)
    (s : Sys σ ρ κ) : Prop
  | idle (hinv : (s.nodes P).invoking = none)
      (hall : ∀ b ∈ backupsOf views w P, At w (s.nodes b) (s.nodes P).myvs.seqno
        ((s.nodes P).executed w) (s.nodes P).state)
  | busy {inv : Invoking ρ} {fin todo : List NodeId} (hinv : (s.nodes P).invoking = some inv)
      (hsplit : backupsOf views w P = fin ++ inv.target :: todo)
      (htodo : todo = inv.rest.filter fun m => m ≠ P)
      (hfin : ∀ b ∈ fin, At w (s.nodes b) (inv.vs.seqno + 1)
        ((s.nodes P).executed w ++ [inv.entry svc (s.nodes P).state])
        (svc.execute (s.nodes P).state inv.req).1)
      (hrest : ∀ b ∈ todo, At w (s.nodes b) inv.vs.seqno ((s.nodes P).executed w)
        (s.nodes P).state)
      (htarget : (At w (s.nodes inv.target) inv.vs.seqno ((s.nodes P).executed w)
          (s.nodes P).state ∧
          ∀ k, inv.call = some k → s.invokes k ≠ .replied inv.target inv.vs inv.req true) ∨
        (At w (s.nodes inv.target) (inv.vs.seqno + 1)
          ((s.nodes P).executed w ++ [inv.entry svc (s.nodes P).state])
          (svc.execute (s.nodes P).state inv.req).1 ∧
          ∃ k, inv.call = some k ∧ s.invokes k = .replied inv.target inv.vs inv.req true))
      (hmsg : ∀ k dst vs req, s.invokes k = .sent dst vs req → vs = inv.vs → inv.call = some k)

/-- The last backup waits for a stamp that is never sent again. -/
structure Stuck (views : Nat → List NodeId) (w : Nat) (P : NodeId) (s : Sys σ ρ κ) : Prop where
  last : ∃ b, (backupsOf views w P).getLast? = some b ∧
    (s.nodes b).myvs.seqno < (s.nodes P).myvs.seqno ∧
    ∀ inv, (s.nodes P).invoking = some inv → (s.nodes b).myvs.seqno < inv.vs.seqno ∧
      (inv.target = b → ∀ k, inv.call = some k →
        s.invokes k ≠ .replied inv.target inv.vs inv.req true)

structure Inv (svc : Service σ ρ κ) (views : Nat → List NodeId) (w : Nat) (P : NodeId)
    (s : Sys σ ρ κ) : Prop where
  frame : Frame views w P s
  status : Clean svc views w P s ∨ Stuck views w P s

theorem mem_backupsOf {views : Nat → List NodeId} {w : Nat} {P m : NodeId} :
    m ∈ backupsOf views w P ↔ m ∈ views w ∧ m ≠ P := by
  simp [backupsOf]

theorem inv_synced {svc : Service σ ρ κ} {views : Nat → List NodeId} {w : Nat} {P : NodeId}
    {s : Sys σ ρ κ} (h : Synced views w P s) : Inv svc views w P s := by
  obtain ⟨_, _, _, hvsP, hexP, _⟩ := h.members P h.mem
  refine ⟨?_, .inl (.idle (h.idle P) fun b hb => ?_)⟩
  · refine ⟨h.mem, h.nodup, fun m hm => ?_, h.outside, fun n _ => h.idle n,
      fun k dst vs req hk hv => absurd hv (h.older k dst vs req hk), h.fresh, ?_, ?_, ?_, ?_⟩
    · obtain ⟨h1, h2, h3, h4, _⟩ := h.members m hm
      exact ⟨h1, h2, h3, by rw [h4]⟩
    all_goals simp [h.idle P, hvsP]
  · obtain ⟨_, _, _, hvs, hex, hst⟩ := h.members b (mem_backupsOf.mp hb).1
    exact ⟨by rw [hvs, hvsP], by rw [hex, hexP], hst⟩

section Steps

variable {svc : Service σ ρ κ} {views : Nat → List NodeId} {w : Nat} {P : NodeId} {s : Sys σ ρ κ}

/-- History of acknowledgements is not part of the invariant. -/
theorem Inv.withAcked (h : Inv svc views w P s) (a : List (Entry ρ κ)) :
    Inv svc views w P { s with acked := a } := by
  obtain ⟨⟨h1, h2, h3, h4, h5, h6, h7, h8, h9, h10, h11⟩, hstatus⟩ := h
  refine ⟨⟨h1, h2, h3, h4, h5, h6, h7, h8, h9, h10, h11⟩, ?_⟩
  rcases hstatus with hclean | hstuck
  · cases hclean with
    | idle h1 h2 => exact .inl (.idle h1 h2)
    | busy h1 h2 h3 h4 h5 h6 h7 => exact .inl (.busy h1 h2 h3 h4 h5 h6 h7)
  · exact .inr ⟨hstuck.last⟩

variable {pre l : List NodeId} {vs : Viewstamp} {req : ρ} {n dst : NodeId} {k : Nat}

/-- Only the primary has a request underway. -/
theorem Frame.eq_primary (h : Frame views w P s) {inv : Invoking ρ}
    (hinv : (s.nodes n).invoking = some inv) : n = P := by
  by_contra hne
  cases (h.idle n hne).symm.trans hinv

theorem backupsOf_split {rest : List NodeId} {m : NodeId} (h : views w = pre ++ m :: rest)
    (hm : m ≠ P) :
    backupsOf views w P
      = (pre.filter fun x => x ≠ P) ++ m :: rest.filter fun x => x ≠ P := by
  simp [backupsOf, h, hm]

/-- The primary's own node changes: what its new value has to meet. -/
theorem Frame.setPrimary (h : Frame views w P s) {nd : Node σ ρ κ}
    (hview : nd.inviewchange = false ∧ nd.primary = P ∧ nd.vidCommit = w ∧ nd.myvs.vid = w)
    (hseq : (s.nodes P).myvs.seqno ≤ nd.myvs.seqno) (hbound : nd.myvs.seqno < 2 ^ 32)
    (hinv : ∀ inv, nd.invoking = some inv → inv.vs = nd.lastMyvs ∧ inv.vs.vid = w ∧
      nd.myvs.seqno = inv.vs.seqno + 1 ∧ inv.target ≠ P ∧
      (∃ pre, views w = pre ++ inv.target :: inv.rest) ∧ inv.call = none) :
    Frame views w P (s.setNode P nd) := by
  have hP : (s.setNode P nd).nodes P = nd := s.setNode_self P nd
  refine ⟨h.mem, h.nodup, fun m hm => ?_, fun n hn => ?_, fun n hn => ?_,
    fun k dst vs req hk hv => ?_, h.fresh, fun inv hi => ?_, fun inv hi => ?_,
    fun inv k hi hc => ?_, by rwa [hP]⟩
  · rcases eq_or_ne m P with rfl | hne
    · rw [hP]
      exact hview
    · rw [Sys.setNode_of_ne _ _ hne]
      exact h.members m hm
  · have hne : n ≠ P := fun he => hn (he ▸ h.mem)
    rw [Sys.setNode_of_ne _ _ hne]
    exact h.outside n hn
  · rw [Sys.setNode_of_ne _ _ hn]
    exact h.idle n hn
  · have := h.older k dst vs req hk hv
    rw [hP]
    omega
  · rw [hP] at hi ⊢
    obtain ⟨h1, h2, h3, _⟩ := hinv inv hi
    exact ⟨h1, h2, h3⟩
  · rw [hP] at hi
    obtain ⟨_, _, _, h4, h5, _⟩ := hinv inv hi
    exact ⟨h4, h5⟩
  · rw [hP] at hi
    obtain ⟨_, _, _, _, _, h6⟩ := hinv inv hi
    rw [h6] at hc
    cases hc

/-! ## The primary in its loop -/

/-- The primary is about to go on with the members `l`, having finished
with `pre`: the request with stamp `vs` has been executed in `pre` and
not in `l`. -/
structure Midway (svc : Service σ ρ κ) (views : Nat → List NodeId) (w : Nat) (P : NodeId)
    (s : Sys σ ρ κ) (vs : Viewstamp) (req : ρ) (pre l : List NodeId) : Prop where
  frame : Frame views w P s
  idle : (s.nodes P).invoking = none
  split : views w = pre ++ l
  vid : vs.vid = w
  last : (s.nodes P).lastMyvs = vs
  next : (s.nodes P).myvs.seqno = vs.seqno + 1

/-- Every backup is where the loop left it. -/
structure InStep (svc : Service σ ρ κ) (w : Nat) (P : NodeId) (s : Sys σ ρ κ) (vs : Viewstamp)
    (req : ρ) (pre l : List NodeId) : Prop where
  fin : ∀ b ∈ pre, b ≠ P → At w (s.nodes b) (vs.seqno + 1)
    ((s.nodes P).executed w ++ [⟨vs, req, (svc.execute (s.nodes P).state req).2⟩])
    (svc.execute (s.nodes P).state req).1
  todo : ∀ b ∈ l, b ≠ P → At w (s.nodes b) vs.seqno ((s.nodes P).executed w) (s.nodes P).state
  quiet : ∀ k dst vs' req', s.invokes k = .sent dst vs' req' → vs' ≠ vs

/-- The next member of the view is taken. -/
theorem Midway.next_frame {p rest : List NodeId} {m : NodeId}
    (h : Midway svc views w P s vs req pre l) (hl : l = p ++ m :: rest) (hm : m ≠ P) :
    Frame views w P
      (s.setNode P { s.nodes P with invoking := some ⟨vs, req, m, rest, none⟩ }) := by
  refine h.frame.setPrimary (h.frame.members P h.frame.mem) le_rfl h.frame.bound fun inv hinv => ?_
  cases hinv
  have hsplit := h.split
  exact ⟨h.last.symm, h.vid, h.next, hm, ⟨pre ++ p, by rw [hsplit, hl, List.append_assoc]⟩, rfl⟩

/-- The primary executes the request. -/
theorem Midway.execute_frame (h : Midway svc views w P s vs req pre l) :
    Frame views w P
      (s.setNode P { ((s.nodes P).execute svc vs req).2 with invoking := none }) := by
  refine h.frame.setPrimary (h.frame.members P h.frame.mem) le_rfl h.frame.bound fun inv hinv => ?_
  cases hinv

/-- `client_invoke` at node `n` got as far as `r`: the invariant holds, and
if it executed the request (and so returns OK), every member has executed
the same sequence with this request at its end. -/
structure Advances (svc : Service σ ρ κ) (views : Nat → List NodeId) (w : Nat) (P n : NodeId)
    (s : Sys σ ρ κ) (r : Option (Entry ρ κ) × Node σ ρ κ) : Prop where
  inv : Inv svc views w P (s.invoked n r)
  same : ∀ entry, r.1 = some entry →
    ∃ xs, ∀ m ∈ views w, ((s.invoked n r).nodes m).executed w = xs ++ [entry]

/-- With every backup in step, the loop leaves the replicas clean. -/
theorem Midway.advances_of_inStep (h : Midway svc views w P s vs req pre l)
    (hst : InStep svc w P s vs req pre l) :
    Advances svc views w P P s ((s.nodes P).invokeLoop svc vs req l) := by
  have hprim : (s.nodes P).primary = P := (h.frame.members P h.frame.mem).2.1
  rcases invokeLoop_cases svc (s.nodes P) vs req l with
    ⟨hall, heq⟩ | ⟨p, m, rest, hl, hp, hm, heq⟩
  · -- nobody is left to call: all backups are in `pre`
    rw [heq]
    have hown := execute_executed svc (s.nodes P) req h.vid
    have hbackup : ∀ b ∈ views w, b ≠ P → At w (s.nodes b) (vs.seqno + 1)
        ((s.nodes P).executed w ++ [⟨vs, req, (svc.execute (s.nodes P).state req).2⟩])
        (svc.execute (s.nodes P).state req).1 := by
      intro b hb hbP
      refine hst.fin b ?_ hbP
      rw [h.split] at hb
      rcases List.mem_append.mp hb with hb | hb
      · exact hb
      · exact absurd ((hall b hb).trans hprim) hbP
    refine ⟨Inv.withAcked ⟨h.execute_frame, .inl (.idle ?_ fun b hb => ?_)⟩ _,
      fun entry hentry => ⟨(s.nodes P).executed w, fun m hm => ?_⟩⟩
    · rw [Sys.setNode_self]
    · obtain ⟨hbv, hbP⟩ := mem_backupsOf.mp hb
      obtain ⟨h1, h2, h3⟩ := hbackup b hbv hbP
      rw [Sys.setNode_self, Sys.setNode_of_ne _ _ hbP]
      exact ⟨h1.trans h.next.symm, h2.trans hown.symm, h3⟩
    · cases hentry
      show ((s.setNode P _).nodes m).executed w = _
      rcases eq_or_ne m P with rfl | hmP
      · rw [Sys.setNode_self]
        exact hown
      · rw [Sys.setNode_of_ne _ _ hmP]
        exact (hbackup m hm hmP).executed
  · -- the next backup is `m`
    rw [hprim] at hp hm
    rw [heq]
    refine ⟨Inv.withAcked ⟨h.next_frame hl hm, .inl ?_⟩ _, by simp⟩
    have hne : ∀ b, b ≠ P → (s.setNode P
        { s.nodes P with invoking := some ⟨vs, req, m, rest, none⟩ }).nodes b = s.nodes b :=
      fun b hb => Sys.setNode_of_ne _ _ hb
    refine @Clean.busy _ _ _ svc views w P _ ⟨vs, req, m, rest, none⟩
      ((pre ++ p).filter fun x => x ≠ P) _ (by rw [Sys.setNode_self]) ?_ rfl
      (fun b hb => ?_) (fun b hb => ?_) (.inl ⟨?_, fun k hk => ?_⟩)
      fun k dst vs' req' hk hv => absurd hv (hst.quiet k dst vs' req' hk)
    · exact backupsOf_split (by rw [h.split, hl, List.append_assoc]) hm
    · obtain ⟨hb, hbP⟩ : b ∈ pre ++ p ∧ b ≠ P := by
        simpa only [List.mem_filter, decide_eq_true_eq] using hb
      rw [Sys.setNode_self, hne b hbP]
      rcases List.mem_append.mp hb with hb | hb
      · exact hst.fin b hb hbP
      · exact absurd (hp b hb) hbP
    · obtain ⟨hb, hbP⟩ : b ∈ rest ∧ b ≠ P := by simpa using hb
      rw [Sys.setNode_self, hne b hbP]
      exact hst.todo b (by simp [hl, hb]) hbP
    · rw [Sys.setNode_self, hne m hm]
      exact hst.todo m (by simp [hl]) hm
    · cases hk

/-- With the last backup behind and still to be called, it stays stuck. -/
theorem Midway.advances_of_behind {b : NodeId} (h : Midway svc views w P s vs req pre l)
    (hlast : (backupsOf views w P).getLast? = some b) (hb : b ∈ l)
    (hseq : (s.nodes b).myvs.seqno < vs.seqno) :
    Advances svc views w P P s ((s.nodes P).invokeLoop svc vs req l) := by
  have hprim : (s.nodes P).primary = P := (h.frame.members P h.frame.mem).2.1
  have hbP : b ≠ P := (mem_backupsOf.mp (List.mem_of_getLast? hlast)).2
  have hnext := h.next
  rcases invokeLoop_cases svc (s.nodes P) vs req l with
    ⟨hall, heq⟩ | ⟨p, m, rest, hl, hp, hm, heq⟩
  · exact absurd ((hall b hb).trans hprim) hbP
  · rw [hprim] at hm
    rw [heq]
    refine ⟨Inv.withAcked ⟨h.next_frame hl hm, .inr ⟨b, hlast, ?_, fun inv hinv => ?_⟩⟩ _,
      by simp⟩
    · rw [Sys.setNode_self, Sys.setNode_of_ne _ _ hbP]
      show (s.nodes b).myvs.seqno < (s.nodes P).myvs.seqno
      omega
    · rw [Sys.setNode_self] at hinv
      cases hinv
      rw [Sys.setNode_of_ne _ _ hbP]
      refine ⟨hseq, fun _ k hk => ?_⟩
      cases hk

/-- Nothing in the loop reads `invoking`. -/
theorem invokeLoop_invoking (svc : Service σ ρ κ) (n : Node σ ρ κ) (x : Option (Invoking ρ))
    (vs : Viewstamp) (req : ρ) (l : List NodeId) :
    { n with invoking := x }.invokeLoop svc vs req l = n.invokeLoop svc vs req l := by
  induction l with
  | nil => rfl
  | cons m l ih =>
    unfold Node.invokeLoop
    rw [ih]

theorem advances_setNode (nd : Node σ ρ κ) {r : Option (Entry ρ κ) × Node σ ρ κ} :
    Advances svc views w P n (s.setNode n nd) r ↔ Advances svc views w P n s r := by
  constructor
  · rintro ⟨h1, h2⟩
    rw [invoked_setNode] at h1 h2
    exact ⟨h1, h2⟩
  · rintro ⟨h1, h2⟩
    refine ⟨?_, ?_⟩
    · rwa [invoked_setNode]
    · rwa [invoked_setNode]

theorem advances_clientInvoke (h : Inv svc views w P s) (req : ρ)
    (hidle : (s.nodes n).invoking = none) (hleft : (s.nodes n).myvs.seqno + 1 < 2 ^ 32) :
    Advances svc views w P n s ((s.nodes n).clientInvoke svc views n req) := by
  unfold Node.clientInvoke
  split
  · refine ⟨?_, by simp⟩
    rw [invoked_refused]
    exact h
  rename_i hserve
  -- only the primary of the view gets here
  obtain rfl : n = P := by
    by_contra hne
    by_cases hn : n ∈ views w
    · have hprim := (h.frame.members n hn).2.1
      exact hserve (.inr (by rw [hprim]; exact fun he => hne he.symm))
    · exact hserve (.inl (h.frame.outside n hn))
  obtain ⟨hview, hprim, hcommit, hvid⟩ := h.frame.members n h.frame.mem
  set nd : Node σ ρ κ := { s.nodes n with
    lastMyvs := (s.nodes n).myvs, myvs := (s.nodes n).myvs.next }
    with hnd
  have hself : (s.setNode n nd).nodes n = nd := s.setNode_self n nd
  have hnext : nd.myvs.seqno = (s.nodes n).myvs.seqno + 1 := Nat.mod_eq_of_lt hleft
  have hmid : Midway svc views w n (s.setNode n nd) (s.nodes n).myvs req [] (views w) := by
    refine ⟨h.frame.setPrimary ⟨hview, hprim, hcommit, hvid⟩ (by omega) (by omega) ?_, ?_, rfl,
      hvid, by rw [hself], by rw [hself, hnext]⟩
    · intro inv hinv
      rw [hnd] at hinv
      cases hidle.symm.trans hinv
    · rw [hself]
      exact hidle
  rw [hcommit, ← advances_setNode nd]
  rcases h.status with hclean | ⟨b, hlast, hlt, _⟩
  · cases hclean with
    | busy hinv => cases hidle.symm.trans hinv
    | idle _ hall =>
      have hst : InStep svc w n (s.setNode n nd) (s.nodes n).myvs req [] (views w) := by
        refine ⟨by simp, fun b hb hbn => ?_, fun k dst vs' req' hk he => ?_⟩
        · rw [hself, Sys.setNode_of_ne _ _ hbn]
          exact hall b (mem_backupsOf.mpr ⟨hb, hbn⟩)
        · have hold := h.frame.older k dst vs' req' hk (he ▸ hvid)
          rw [he] at hold
          exact lt_irrefl _ hold
      have := hmid.advances_of_inStep hst
      rwa [hself] at this
  · obtain ⟨hb, hbn⟩ := mem_backupsOf.mp (List.mem_of_getLast? hlast)
    have := hmid.advances_of_behind hlast hb (by rwa [Sys.setNode_of_ne _ _ hbn])
    rwa [hself] at this

/-- The last backup is the one being called or comes after it. -/
theorem last_of_split {fin todo : List NodeId} {t : NodeId}
    (h : backupsOf views w P = fin ++ t :: todo) :
    ∃ b, (backupsOf views w P).getLast? = some b ∧ (b = t ∨ b ∈ todo) := by
  have hne : t :: todo ≠ [] := List.cons_ne_nil t todo
  refine ⟨(t :: todo).getLast hne, ?_, List.mem_cons.mp (List.getLast_mem hne)⟩
  rw [h, List.getLast?_append_of_ne_nil _ (by simp), List.getLast?_eq_getLast_of_ne_nil (by simp)]

/-- A call is given up, and if it was the one to the last backup, that
backup has not executed the request. -/
theorem inv_giveUp (h : Inv svc views w P s) {inv : Invoking ρ}
    (hinv : (s.nodes P).invoking = some inv)
    (hlastTarget : Clean svc views w P s →
      (backupsOf views w P).getLast? = some inv.target →
      (s.nodes inv.target).myvs.seqno = inv.vs.seqno) :
    Inv svc views w P (s.setNode P { s.nodes P with invoking := none }) := by
  obtain ⟨_, _, hseq⟩ := h.frame.stamp inv hinv
  have hframe : Frame views w P (s.setNode P { s.nodes P with invoking := none }) :=
    h.frame.setPrimary (h.frame.members P h.frame.mem) le_rfl h.frame.bound (by simp)
  have hbehind : ∃ b, (backupsOf views w P).getLast? = some b ∧
      (s.nodes b).myvs.seqno < (s.nodes P).myvs.seqno := by
    rcases h.status with hclean | ⟨b, hlast, hlt, _⟩
    · have hclean' := hclean
      cases hclean with
      | idle hnone => cases hnone.symm.trans hinv
      | @busy inv' fin todo hinv' hsplit _ _ hrest _ _ =>
        cases hinv.symm.trans hinv'
        obtain ⟨b, hlast, hb⟩ := last_of_split hsplit
        refine ⟨b, hlast, ?_⟩
        rcases hb with rfl | hb
        · rw [hlastTarget hclean' hlast]
          omega
        · rw [(hrest b hb).seq]
          omega
    · exact ⟨b, hlast, hlt⟩
  obtain ⟨b, hlast, hlt⟩ := hbehind
  have hbP : b ≠ P := (mem_backupsOf.mp (List.mem_of_getLast? hlast)).2
  refine ⟨hframe, .inr ⟨b, hlast, ?_, ?_⟩⟩
  · rwa [Sys.setNode_self, Sys.setNode_of_ne _ _ hbP]
  · rw [Sys.setNode_self]
    nofun

/-- The primary makes the call it has come to. -/
theorem inv_sendInvoke (h : Inv svc views w P s) {inv : Invoking ρ}
    (hinv : (s.nodes n).invoking = some inv) (hcall : inv.call = none) :
    Inv svc views w P (s.sendInvoke n inv) := by
  obtain rfl := h.frame.eq_primary hinv
  obtain ⟨hvs, hvid, hseq⟩ := h.frame.stamp inv hinv
  have hself : (s.sendInvoke n inv).nodes n
      = { s.nodes n with invoking := some { inv with call := some s.nextCall } } :=
    s.setNode_self n _
  have hother : ∀ b, b ≠ n → (s.sendInvoke n inv).nodes b = s.nodes b :=
    fun b hb => s.setNode_of_ne _ hb
  have hnew : (s.sendInvoke n inv).invokes s.nextCall = .sent inv.target inv.vs inv.req := by
    rw [hvs]
    exact update_self _ _ _
  have hold : ∀ k, k ≠ s.nextCall → (s.sendInvoke n inv).invokes k = s.invokes k :=
    fun k hk => update_of_ne hk _ _
  have hframe : Frame views w n (s.sendInvoke n inv) := by
    refine ⟨h.frame.mem, h.frame.nodup, fun m hm => ?_, fun m hm => ?_, fun m hm => ?_,
      fun k dst vs req hk hv => ?_, fun k hk => ?_, fun inv' hi => ?_, fun inv' hi => ?_,
      fun inv' k hi hc => ?_, hself ▸ h.frame.bound⟩
    · rcases eq_or_ne m n with rfl | hne
      · rw [hself]
        exact h.frame.members m hm
      · rw [hother m hne]
        exact h.frame.members m hm
    · have hne : m ≠ n := fun he => hm (he ▸ h.frame.mem)
      rw [hother m hne]
      exact h.frame.outside m hm
    · rw [hother m hm]
      exact h.frame.idle m hm
    · rw [hself]
      show vs.seqno < (s.nodes n).myvs.seqno
      rcases eq_or_ne k s.nextCall with rfl | hne
      · rw [hnew] at hk
        cases hk
        omega
      · rw [hold k hne] at hk
        exact h.frame.older k dst vs req hk hv
    · have hlt : s.nextCall + 1 ≤ k := hk
      rw [hold k (by omega)]
      exact h.frame.fresh k (by omega)
    · rw [hself] at hi ⊢
      cases hi
      exact ⟨hvs, hvid, hseq⟩
    · rw [hself] at hi
      cases hi
      exact h.frame.place inv hinv
    · rw [hself] at hi
      cases hi
      cases hc
      exact .inl hnew
  refine ⟨hframe, ?_⟩
  rcases h.status with hclean | ⟨b, hlast, hlt, hb⟩
  · cases hclean with
    | idle hnone => cases hnone.symm.trans hinv
    | @busy inv' fin todo hinv' hsplit htodo hfin hrest htarget hmsg =>
      cases hinv.symm.trans hinv'
      have hmem : ∀ b ∈ fin ++ inv.target :: todo, b ≠ n :=
        fun b hb => (mem_backupsOf.mp (hsplit ▸ hb)).2
      refine .inl (@Clean.busy _ _ _ svc views w n _ { inv with call := some s.nextCall } fin
        todo (by rw [hself]) hsplit htodo (fun b hb => ?_) (fun b hb => ?_)
        (.inl ⟨?_, fun k hk => ?_⟩) fun k dst vs req hk hv => ?_)
      · rw [hself, hother b (hmem b (by simp [hb]))]
        exact hfin b hb
      · rw [hself, hother b (hmem b (by simp [hb]))]
        exact hrest b hb
      · rw [hself, hother _ (hmem _ (by simp))]
        rcases htarget with ⟨hat, _⟩ | ⟨_, k, hk, _⟩
        · exact hat
        · rw [hcall] at hk
          cases hk
      · cases hk
        rw [hnew]
        simp
      · rcases eq_or_ne k s.nextCall with rfl | hne
        · rfl
        · rw [hold k hne] at hk
          have := hmsg k dst vs req hk hv
          rw [hcall] at this
          cases this
  · have hbn : b ≠ n := (mem_backupsOf.mp (List.mem_of_getLast? hlast)).2
    refine .inr ⟨b, hlast, ?_, fun inv' hi => ?_⟩
    · rwa [hself, hother b hbn]
    · rw [hself] at hi
      cases hi
      rw [hother b hbn]
      refine ⟨(hb inv hinv).1, fun _ k hk => ?_⟩
      cases hk
      rw [hnew]
      simp

/-- A backup answered OK and the primary goes on. -/
theorem advances_invokeReturn (h : Inv svc views w P s) {inv : Invoking ρ}
    (hinv : (s.nodes n).invoking = some inv) (hcall : inv.call = some k)
    (hk : s.invokes k = .replied dst vs req true) :
    Advances svc views w P n s ((s.nodes n).invokeLoop svc inv.vs inv.req inv.rest) := by
  obtain rfl := h.frame.eq_primary hinv
  obtain ⟨hvs, hvid, hseq⟩ := h.frame.stamp inv hinv
  obtain ⟨htn, pre, hpre⟩ := h.frame.place inv hinv
  have hreply : s.invokes k = .replied inv.target inv.vs inv.req true := by
    rcases h.frame.call inv k hinv hcall with hsent | ⟨b, hb⟩
    · rw [hk] at hsent
      cases hsent
    · rw [hk] at hb
      cases hb
      exact hk
  set nd : Node σ ρ κ := { s.nodes n with invoking := none } with hnd
  have hself : (s.setNode n nd).nodes n = nd := s.setNode_self n nd
  have hmid : Midway svc views w n (s.setNode n nd) inv.vs inv.req (pre ++ [inv.target])
      inv.rest := by
    refine ⟨h.frame.setPrimary (h.frame.members n h.frame.mem) le_rfl h.frame.bound
      (by simp [hnd]),
      by rw [hself], by simp [hpre], hvid, ?_, ?_⟩
    · rw [hself]
      exact hvs.symm
    · rw [hself]
      exact hseq
  have hloop : (s.nodes n).invokeLoop svc inv.vs inv.req inv.rest
      = ((s.setNode n nd).nodes n).invokeLoop svc inv.vs inv.req inv.rest := by
    rw [hself]
    exact (invokeLoop_invoking svc (s.nodes n) none inv.vs inv.req inv.rest).symm
  rw [hloop, ← advances_setNode nd]
  rcases h.status with hclean | ⟨b, hlast, hlt, hb⟩
  · refine hmid.advances_of_inStep ?_
    cases hclean with
    | idle hnone => cases hnone.symm.trans hinv
    | @busy inv' fin todo hinv' hsplit htodo hfin hrest htarget hmsg =>
      cases hinv.symm.trans hinv'
      have hfinEq : fin = pre.filter fun x => x ≠ n := by
        have hboth := (backupsOf_split hpre htn).symm.trans hsplit
        rw [htodo] at hboth
        exact (List.append_cancel_right hboth).symm
      refine ⟨fun b hb hbn => ?_, fun b hb hbn => ?_, fun k' dst' vs' req' hk' he => ?_⟩
      · rw [hself, Sys.setNode_of_ne _ _ hbn]
        rcases List.mem_append.mp hb with hb | hb
        · exact hfin b (by simp [hfinEq, hb, hbn])
        · obtain rfl := List.mem_singleton.mp hb
          rcases htarget with ⟨_, hno⟩ | ⟨hat, _⟩
          · exact absurd hreply (hno k hcall)
          · exact hat
      · rw [hself, Sys.setNode_of_ne _ _ hbn]
        exact hrest b (by simp [htodo, hb, hbn])
      · cases hcall.symm.trans (hmsg k' dst' vs' req' hk' he)
        cases hk.symm.trans hk'
  · obtain ⟨hlt', hno⟩ := hb inv hinv
    have hbn : b ≠ n := (mem_backupsOf.mp (List.mem_of_getLast? hlast)).2
    have hbrest : b ∈ inv.rest := by
      obtain ⟨b', hlast', hb'⟩ := last_of_split (backupsOf_split hpre htn)
      cases hlast.symm.trans hlast'
      rcases hb' with rfl | hb'
      · exact absurd hreply (hno rfl k hcall)
      · exact (List.mem_filter.mp hb').1
    exact hmid.advances_of_behind hlast hbrest (by rwa [Sys.setNode_of_ne _ _ hbn])

/-! ## A backup handles a call -/

/-- A call was answered with `ok` by a node that is not the primary and
whose value becomes `nd`. -/
theorem Frame.serve (h : Frame views w P s) (hk : s.invokes k = .sent dst vs req)
    {nd : Node σ ρ κ} (ok : Bool) (hP : dst = P → nd = s.nodes P)
    (hview : nd.inviewchange = (s.nodes dst).inviewchange ∧
      nd.primary = (s.nodes dst).primary ∧ nd.vidCommit = (s.nodes dst).vidCommit ∧
      nd.myvs.vid = (s.nodes dst).myvs.vid ∧ nd.invoking = (s.nodes dst).invoking) :
    Frame views w P { s.setNode dst nd with
      invokes := update s.invokes k (.replied dst vs req ok) } := by
  obtain ⟨h1, h2, h3, h4, h5⟩ := hview
  have hnP : (s.setNode dst nd).nodes P = s.nodes P := by
    rcases eq_or_ne P dst with rfl | hne
    · rw [Sys.setNode_self]
      exact hP rfl
    · exact Sys.setNode_of_ne _ _ hne
  have hsent : ∀ k' dst' vs' req', update s.invokes k (.replied dst vs req ok) k'
      = .sent dst' vs' req' → s.invokes k' = .sent dst' vs' req' := by
    intro k' dst' vs' req' hk'
    rcases eq_or_ne k' k with rfl | hne
    · rw [update_self] at hk'
      cases hk'
    · rwa [update_of_ne hne] at hk'
  refine ⟨h.mem, h.nodup, fun m hm => ?_, fun m hm => ?_, fun m hm => ?_,
    fun k' dst' vs' req' hk' hv => ?_, fun k' hk' => ?_, fun inv hi => ?_, fun inv hi => ?_,
    fun inv k' hi hc => ?_, hnP ▸ h.bound⟩
  · show ((s.setNode dst nd).nodes m).inviewchange = false ∧ _
    rcases eq_or_ne m dst with rfl | hne
    · rw [Sys.setNode_self, h1, h2, h3, h4]
      exact h.members m hm
    · rw [Sys.setNode_of_ne _ _ hne]
      exact h.members m hm
  · show ((s.setNode dst nd).nodes m).inviewchange = true
    rcases eq_or_ne m dst with rfl | hne
    · rw [Sys.setNode_self, h1]
      exact h.outside m hm
    · rw [Sys.setNode_of_ne _ _ hne]
      exact h.outside m hm
  · show ((s.setNode dst nd).nodes m).invoking = none
    rcases eq_or_ne m dst with rfl | hne
    · rw [Sys.setNode_self, h5]
      exact h.idle m hm
    · rw [Sys.setNode_of_ne _ _ hne]
      exact h.idle m hm
  · show vs'.seqno < ((s.setNode dst nd).nodes P).myvs.seqno
    rw [hnP]
    exact h.older k' dst' vs' req' (hsent k' dst' vs' req' hk') hv
  · have hne : k' ≠ k := fun he => by
      rw [he] at hk'
      have := h.fresh k hk'
      rw [hk] at this
      cases this
    show update s.invokes k _ k' = _
    rw [update_of_ne hne]
    exact h.fresh k' hk'
  · replace hi : ((s.setNode dst nd).nodes P).invoking = some inv := hi
    show _ = ((s.setNode dst nd).nodes P).lastMyvs ∧ _ ∧
      ((s.setNode dst nd).nodes P).myvs.seqno = _
    rw [hnP] at hi ⊢
    exact h.stamp inv hi
  · replace hi : ((s.setNode dst nd).nodes P).invoking = some inv := hi
    rw [hnP] at hi
    exact h.place inv hi
  · replace hi : ((s.setNode dst nd).nodes P).invoking = some inv := hi
    rw [hnP] at hi
    show update s.invokes k _ k' = _ ∨ ∃ b, update s.invokes k _ k' = _
    rcases eq_or_ne k' k with rfl | hne
    · have hmine := h.call inv k' hi hc
      rw [hk] at hmine
      rcases hmine with hmine | ⟨b, hmine⟩
      · cases hmine
        exact .inr ⟨ok, update_self _ _ _⟩
      · cases hmine
    · rw [update_of_ne hne]
      exact h.call inv k' hi hc

/-- A call that is refused changes nothing but the call. -/
theorem inv_refused (h : Inv svc views w P s) (hk : s.invokes k = .sent dst vs req) :
    Inv svc views w P { s.setNode dst (s.nodes dst) with
      invokes := update s.invokes k (.replied dst vs req false) } := by
  have hnodes : (s.setNode dst (s.nodes dst)).nodes = s.nodes := update_eq_self _ _
  have hno : ∀ k' dst' vs' req', update s.invokes k (.replied dst vs req false) k'
      = .replied dst' vs' req' true → s.invokes k' = .replied dst' vs' req' true := by
    intro k' dst' vs' req' hk'
    rcases eq_or_ne k' k with rfl | hne
    · rw [update_self] at hk'
      cases hk'
    · rwa [update_of_ne hne] at hk'
  refine ⟨h.frame.serve hk false (fun he => by rw [he]) ⟨rfl, rfl, rfl, rfl, rfl⟩, ?_⟩
  rcases h.status with hclean | ⟨b, hlast, hlt, hb⟩
  · left
    cases hclean with
    | idle hinv hall =>
      refine .idle ?_ ?_
      · rw [hnodes]
        exact hinv
      · rw [hnodes]
        exact hall
    | @busy inv fin todo hinv hsplit htodo hfin hrest htarget hmsg =>
      refine @Clean.busy _ _ _ svc views w P _ inv fin todo ?_ hsplit htodo ?_ ?_ ?_ ?_
      · rw [hnodes]
        exact hinv
      · rw [hnodes]
        exact hfin
      · rw [hnodes]
        exact hrest
      · rw [hnodes]
        rcases htarget with ⟨hat, hnot⟩ | ⟨hat, k', hc, hk'⟩
        · exact .inl ⟨hat, fun k' hc he => hnot k' hc (hno k' _ _ _ he)⟩
        · have hne : k' ≠ k := fun he => by simp [he, hk] at hk'
          exact .inr ⟨hat, k', hc, (update_of_ne hne _ _).trans hk'⟩
      · intro k' dst' vs' req' hk' hv
        replace hk' : update s.invokes k _ k' = _ := hk'
        rcases eq_or_ne k' k with rfl | hne
        · rw [update_self] at hk'
          cases hk'
        · rw [update_of_ne hne] at hk'
          exact hmsg k' dst' vs' req' hk' hv
  · refine .inr ⟨b, hlast, ?_, ?_⟩
    · rw [hnodes]
      exact hlt
    · rw [hnodes]
      intro inv hinv
      obtain ⟨hlt', hnot⟩ := hb inv hinv
      exact ⟨hlt', fun ht k' hc he => hnot ht k' hc (hno k' _ _ _ he)⟩

/-- The backup a clean primary is calling is the only one that executes. -/
theorem Clean.executes_target (h : Inv svc views w P s) (hclean : Clean svc views w P s)
    (hk : s.invokes k = .sent dst vs req) (hdst : dst ∈ views w) (hP : dst ≠ P)
    (hvs : vs = (s.nodes dst).myvs) :
    ∃ inv, (s.nodes P).invoking = some inv ∧ inv.call = some k ∧ dst = inv.target ∧
      vs = inv.vs ∧ req = inv.req := by
  have hvid : vs.vid = w := by
    rw [hvs]
    exact (h.frame.members dst hdst).2.2.2
  have hold := h.frame.older k dst vs req hk hvid
  have hb : dst ∈ backupsOf views w P := mem_backupsOf.mpr ⟨hdst, hP⟩
  cases hclean with
  | idle _ hall =>
    have hseq := (hall dst hb).seq
    rw [← hvs] at hseq
    omega
  | @busy inv fin todo hinv hsplit htodo hfin hrest htarget hmsg =>
    obtain ⟨hlast, hivid, hseq⟩ := h.frame.stamp inv hinv
    -- whoever has executed the request expects the stamp after it
    have hnotDone : ∀ xs st, ¬ At w (s.nodes dst) (inv.vs.seqno + 1) xs st := by
      intro xs st hat
      have hs := hat.seq
      rw [← hvs] at hs
      omega
    have hwaits : (s.nodes dst).myvs.seqno = inv.vs.seqno → inv.call = some k := by
      intro hs
      refine hmsg k dst vs req hk ?_
      rw [← hvs] at hs
      cases hv : inv.vs with
      | mk v q =>
        rw [hv] at hivid hs
        cases vs
        simp_all
    have hcall : inv.call = some k := by
      rw [hsplit] at hb
      rcases List.mem_append.mp hb with hb | hb
      · exact absurd (hfin dst hb) (hnotDone _ _)
      · rcases List.mem_cons.mp hb with rfl | hb
        · rcases htarget with ⟨hat, _⟩ | ⟨hat, _⟩
          · exact hwaits hat.seq
          · exact absurd hat (hnotDone _ _)
        · exact hwaits (hrest dst hb).seq
    rcases h.frame.call inv k hinv hcall with hsent | ⟨b, hrep⟩
    · rw [hk] at hsent
      cases hsent
      exact ⟨inv, hinv, hcall, rfl, rfl, rfl⟩
    · rw [hk] at hrep
      cases hrep

theorem served_at (svc : Service σ ρ κ) {n : Node σ ρ κ} {seq : Nat} {xs : List (Entry ρ κ)}
    {st : σ} (h : At w n seq xs st) (hvid : n.myvs.vid = w) (hseq : seq + 1 < 2 ^ 32) (req : ρ) :
    At w (n.served svc req) (seq + 1) (xs ++ [⟨n.myvs, req, (svc.execute st req).2⟩])
      (svc.execute st req).1 := by
  obtain ⟨rfl, rfl, rfl⟩ := h
  exact ⟨Nat.mod_eq_of_lt hseq, execute_executed svc _ req hvid, rfl⟩

/-- The backup that is called executes the request. -/
theorem inv_serve_clean (h : Inv svc views w P s) (hclean : Clean svc views w P s)
    (hk : s.invokes k = .sent dst vs req) (hdst : dst ∈ views w) (hP : dst ≠ P)
    (hvs : vs = (s.nodes dst).myvs) :
    Clean svc views w P { s.setNode dst ((s.nodes dst).served svc req) with
      invokes := update s.invokes k (.replied dst vs req true) } := by
  obtain ⟨inv, hinv, hcall, rfl, rfl, rfl⟩ := Clean.executes_target h hclean hk hdst hP hvs
  have hself := s.setNode_self inv.target ((s.nodes inv.target).served svc inv.req)
  have hother : ∀ b, b ≠ inv.target →
      (s.setNode inv.target ((s.nodes inv.target).served svc inv.req)).nodes b = s.nodes b :=
    fun b hb => s.setNode_of_ne _ hb
  cases hclean with
  | idle hnone => cases hnone.symm.trans hinv
  | @busy inv' fin todo hinv' hsplit htodo hfin hrest htarget hmsg =>
    cases hinv.symm.trans hinv'
    have hnodup : (fin ++ inv.target :: todo).Nodup := hsplit ▸ h.frame.nodup.filter _
    have hnotFin : ∀ b ∈ fin, b ≠ inv.target := fun b hb he =>
      (List.nodup_append.mp hnodup).2.2 b hb inv.target (by simp) he
    have hnotTodo : ∀ b ∈ todo, b ≠ inv.target := fun b hb he =>
      (List.nodup_cons.mp (List.nodup_append.mp hnodup).2.1).1 (he ▸ hb)
    have hat : At w (s.nodes inv.target) inv.vs.seqno ((s.nodes P).executed w)
        (s.nodes P).state := by
      rcases htarget with ⟨hat, _⟩ | ⟨_, k', hc, hk'⟩
      · exact hat
      · cases hcall.symm.trans hc
        rw [hk] at hk'
        cases hk'
    refine @Clean.busy _ _ _ svc views w P _ inv fin todo ?_ hsplit htodo ?_ ?_
      (.inr ⟨?_, k, hcall, update_self _ _ _⟩) ?_
    · rw [hother P hP.symm]
      exact hinv
    · rw [hother P hP.symm]
      intro b hb
      rw [hother b (hnotFin b hb)]
      exact hfin b hb
    · rw [hother P hP.symm]
      intro b hb
      rw [hother b (hnotTodo b hb)]
      exact hrest b hb
    · rw [hother P hP.symm, hself]
      have hseq : inv.vs.seqno + 1 < 2 ^ 32 := (h.frame.stamp inv hinv).2.2 ▸ h.frame.bound
      have hnew := served_at svc hat (h.frame.members _ hdst).2.2.2 hseq inv.req
      rw [← hvs] at hnew
      exact hnew
    · intro k' dst' vs' req' hk' hv
      replace hk' : update s.invokes k _ k' = _ := hk'
      rcases eq_or_ne k' k with rfl | hne
      · exact hcall
      · rw [update_of_ne hne] at hk'
        exact hmsg k' dst' vs' req' hk' hv

/-- A stuck last backup does not execute: the primary would have to wait
for a call with the stamp it expects. -/
theorem inv_serve_stuck (h : Inv svc views w P s) (hstuck : Stuck views w P s)
    (hk : s.invokes k = .sent dst vs req) (hP : dst ≠ P) (hvs : vs = (s.nodes dst).myvs)
    (hwait : (backupsOf views w P).getLast? = some dst →
      ∃ inv, (s.nodes P).invoking = some inv ∧ inv.call = some k) :
    Stuck views w P { s.setNode dst ((s.nodes dst).served svc req) with
      invokes := update s.invokes k (.replied dst vs req true) } := by
  obtain ⟨b, hlast, hlt, hb⟩ := hstuck
  have hbd : b ≠ dst := by
    rintro rfl
    obtain ⟨inv, hinv, hcall⟩ := hwait hlast
    obtain ⟨hlt', _⟩ := hb inv hinv
    rcases h.frame.call inv k hinv hcall with hsent | ⟨_, hrep⟩
    · rw [hk] at hsent
      cases hsent
      rw [← hvs] at hlt'
      exact lt_irrefl _ hlt'
    · rw [hk] at hrep
      cases hrep
  have hother : ∀ b, b ≠ dst →
      (s.setNode dst ((s.nodes dst).served svc req)).nodes b = s.nodes b :=
    fun b hb => s.setNode_of_ne _ hb
  refine ⟨b, hlast, ?_, ?_⟩
  · rw [hother P hP.symm, hother b hbd]
    exact hlt
  · rw [hother P hP.symm, hother b hbd]
    intro inv hinv
    obtain ⟨hlt', hno⟩ := hb inv hinv
    refine ⟨hlt', fun ht k' hc he => ?_⟩
    replace he : update s.invokes k _ k' = _ := he
    rcases eq_or_ne k' k with rfl | hne
    · rw [update_self] at he
      cases he
      exact hbd ht.symm
    · rw [update_of_ne hne] at he
      exact hno ht k' hc he

theorem inv_serveInvoke (h : Inv svc views w P s) (hk : s.invokes k = .sent dst vs req)
    (hwait : (backupsOf views w P).getLast? = some dst → vs = (s.nodes dst).myvs →
      ∃ inv, (s.nodes P).invoking = some inv ∧ inv.call = some k) :
    Inv svc views w P (s.serveInvoke svc k dst vs req) := by
  unfold Sys.serveInvoke
  rcases invoke_cases svc dst (s.nodes dst) vs req with heq | ⟨hview, hprim, hvs, heq⟩
  · rw [heq]
    exact inv_refused h hk
  rw [heq]
  have hdst : dst ∈ views w := by
    by_contra hn
    have := h.frame.outside dst hn
    rw [hview] at this
    cases this
  have hP : dst ≠ P := fun he => hprim ((h.frame.members dst hdst).2.1.trans he.symm)
  refine ⟨h.frame.serve hk true (fun he => absurd he hP) ⟨rfl, rfl, rfl, rfl, rfl⟩, ?_⟩
  rcases h.status with hclean | hstuck
  · exact .inl (inv_serve_clean h hclean hk hdst hP hvs)
  · exact .inr (inv_serve_stuck h hstuck hk hP hvs fun hlast => hwait hlast hvs)

/-- One step of a run inside the view. -/
theorem inv_step {s' : Sys σ ρ κ} {e : Event ρ} (h : Inv svc views w P s)
    (hok : LastBackupInStep views w P s e) (hs : step svc views s e = some s') :
    Inv svc views w P s' := by
  obtain ⟨hreq, hok⟩ := hok
  cases trans_of_step hs with
  | clientInvoke hidle => exact (advances_clientInvoke h _ hidle hok).inv
  | sendInvoke hinv hc => exact inv_sendInvoke h hinv hc
  | @invoke k dst vs req hk =>
    refine inv_serveInvoke h hk fun hlast hvs => ?_
    simp only [hk] at hok
    obtain ⟨inv, hinv, hcall⟩ := Option.bind_eq_some_iff.mp (hok hlast hvs)
    exact ⟨inv, hinv, hcall⟩
  | invokeReturn hinv hc hk => exact (advances_invokeReturn h hinv hc hk).inv
  | @invokeRefused n inv k dst vs req hinv hc hk =>
    obtain rfl := h.frame.eq_primary hinv
    refine inv_giveUp h hinv fun hclean _ => ?_
    cases hclean with
    | idle hnone => cases hnone.symm.trans hinv
    | @busy inv' _ _ hinv' _ _ _ _ htarget _ =>
      cases hinv.symm.trans hinv'
      rcases htarget with ⟨hat, _⟩ | ⟨_, k', hc', hk'⟩
      · exact hat.seq
      · cases hc.symm.trans hc'
        rw [hk] at hk'
        cases hk'
  | @invokeFails n inv hinv =>
    obtain rfl := h.frame.eq_primary hinv
    refine inv_giveUp h hinv fun _ hlast => ?_
    rw [hok inv hinv hlast]
  | _ => cases hreq

end Steps

/-! ## The replicas execute the same sequence -/

/-- In every run inside a synchronised view in which the last backup stays
in step, whenever `client_invoke` returns OK every member of the view,
the primary among them, has executed the same sequence of requests with
the same replies, the acknowledged one last. -/
theorem replicas_execute_same_sequence (svc : Service σ ρ κ) (views : Nat → List NodeId) {w : Nat}
    {P : NodeId} {s₀ s s' : Sys σ ρ κ} {e : Event ρ} {entry : Entry ρ κ}
    (hsync : Synced views w P s₀)
    (hr : Reach (step svc views) (LastBackupInStep views w P) s₀ s)
    (hok : LastBackupInStep views w P s e) (hs : step svc views s e = some s')
    (hack : s'.acked = entry :: s.acked) :
    ∃ xs, ∀ m ∈ views w, (s'.nodes m).executed w = xs ++ [entry] := by
  have hinv : Inv svc views w P s :=
    hr.invariant (Inv svc views w P) (inv_synced hsync) fun _ _ _ h hok hs => inv_step h hok hs
  have hsame : ∀ {n : NodeId} {r : Option (Entry ρ κ) × Node σ ρ κ},
      Advances svc views w P n s r → (s.invoked n r).acked = entry :: s.acked →
      ∃ xs, ∀ m ∈ views w, ((s.invoked n r).nodes m).executed w = xs ++ [entry] := by
    intro n r hadv hack
    refine hadv.same entry ?_
    have hnew : r.1.toList = [entry] :=
      List.append_cancel_right (show r.1.toList ++ s.acked = [entry] ++ s.acked from hack)
    cases hr1 : r.1 with
    | none => simp [hr1] at hnew
    | some entry' => simpa [hr1] using hnew
  have hnone : s.acked ≠ entry :: s.acked := fun he => by simpa using congrArg List.length he
  obtain ⟨hreq, hstep⟩ := hok
  cases trans_of_step hs with
  | clientInvoke hidle => exact hsame (advances_clientInvoke hinv _ hidle hstep) hack
  | invokeReturn hi hc hk => exact hsame (advances_invokeReturn hinv hi hc hk) hack
  | sendInvoke _ _ | invoke _ | invokeRefused _ _ _ | invokeFails _ => exact absurd hack hnone
  | _ => cases hreq

/-- The state right after view `w` was synchronised with state `st`. -/
def Sys.synced (views : Nat → List NodeId) (w : Nat) (P : NodeId) (st : σ) : Sys σ ρ κ :=
  { Sys.init P st with
    nodes := fun n =>
      if n ∈ views w then
        { Node.new P st with
          inviewchange := false, vidCommit := w, vidInsync := w, myvs := ⟨w, 1⟩
          recovery := .sleeping, base := w }
      else Node.new P st }

theorem synced_synced (views : Nat → List NodeId) {w : Nat} {P : NodeId} (st : σ)
    (hP : P ∈ views w) (hnd : (views w).Nodup) :
    Synced views w P (Sys.synced views w P st : Sys σ ρ κ) := by
  refine ⟨hP, hnd, fun m hm => ?_, fun n hn => ?_, fun n => ?_, fun k dst vs req hk => ?_,
    fun k _ => rfl⟩
  · simp [Sys.synced, hm, hP, Node.new, Node.executed]
  · simp [Sys.synced, hn, Node.new]
  · show (if n ∈ views w then _ else _ : Node σ ρ κ).invoking = none
    split <;> rfl
  · cases hk

def pair : Nat → List NodeId := fun _ => [['a'], ['b']]

/-- One request goes through. -/
theorem replicas_execute_one_request :
    ∃ s s' : Sys Nat Nat Nat, step register pair s (.invokeReturn ['a']) = some s' ∧
      s'.acked = [⟨⟨1, 1⟩, 7, 0⟩] ∧
      ∃ xs, ∀ m ∈ pair 1, (s'.nodes m).executed 1 = xs ++ [⟨⟨1, 1⟩, 7, 0⟩] := by
  obtain ⟨s, hr, hnone, hok, s', hs, hack⟩ : ∃ s : Sys Nat Nat Nat,
      Reach (step register pair) (LastBackupInStep pair 1 ['a']) (Sys.synced pair 1 ['a'] 0) s ∧
      s.acked = [] ∧ LastBackupInStep pair 1 ['a'] s (.invokeReturn ['a']) ∧
      ∃ s', step register pair s (.invokeReturn ['a']) = some s' ∧
        s'.acked = [⟨⟨1, 1⟩, 7, 0⟩] :=
    exists_reach [.clientInvoke ['a'] 7, .sendInvoke ['a'], .invoke 0] (by decide)
  exact ⟨s, s', hs, hack, replicas_execute_same_sequence register pair
    (synced_synced pair 0 (by decide) (by decide)) hr hok hs (by rw [hack, hnone])⟩

/-- The reply of the only backup is lost after it has executed request 7.
`client_invoke` returns BUSY, and the next one, request 8, returns OK: the
primary has executed 8 and the backup 7 and 8, with a reply that differs. -/
theorem lost_reply_diverges :
    ∃ s s' : Sys Nat Nat Nat, Synced pair 1 ['a'] (Sys.synced pair 1 ['a'] 0 : Sys Nat Nat Nat) ∧
      Reach (step register pair) InsideView (Sys.synced pair 1 ['a'] 0) s ∧
      step register pair s (.invokeReturn ['a']) = some s' ∧
      s.acked = [] ∧ s'.acked = [⟨⟨1, 2⟩, 8, 0⟩] ∧
      (s'.nodes ['a']).executed 1 = [⟨⟨1, 2⟩, 8, 0⟩] ∧
      (s'.nodes ['b']).executed 1 = [⟨⟨1, 1⟩, 7, 0⟩, ⟨⟨1, 2⟩, 8, 7⟩] := by
  obtain ⟨s, hr, hnone, s', hs, hend⟩ : ∃ s : Sys Nat Nat Nat,
      Reach (step register pair) InsideView (Sys.synced pair 1 ['a'] 0) s ∧ s.acked = [] ∧
      ∃ s', step register pair s (.invokeReturn ['a']) = some s' ∧
        s'.acked = [⟨⟨1, 2⟩, 8, 0⟩] ∧ (s'.nodes ['a']).executed 1 = [⟨⟨1, 2⟩, 8, 0⟩] ∧
        (s'.nodes ['b']).executed 1 = [⟨⟨1, 1⟩, 7, 0⟩, ⟨⟨1, 2⟩, 8, 7⟩] :=
    exists_reach [.clientInvoke ['a'] 7, .sendInvoke ['a'], .invoke 0, .invokeFails ['a'],
      .clientInvoke ['a'] 8, .sendInvoke ['a'], .invoke 1] (by decide)
  exact ⟨s, s', synced_synced pair 0 (by decide) (by decide), hr, hs, hnone, hend⟩

end Yfs.Rsm
