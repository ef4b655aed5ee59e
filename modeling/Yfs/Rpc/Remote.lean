/-
Yfs.Rpc.Remote — a remote object is an object: calls through the RPC library
are atomic (rpc/rpc.cc, rpc/rpc.h).

The system is the one of `Yfs.Rpc.System`, where requests and replies are lost,
delayed, duplicated and reordered and calls time out or are cancelled, together
with what it is for: the bodies of requests and replies, and the object behind
the handlers. A handler does its work at one moment between the dispatch of its
request and its reply; handlers that share data have a mutex of their own.

`Stub` is the two sides of a procedure: the bytes of a request and of a reply,
and that these say what is to be done and what was done (`agrees`).

A call that fails may have been executed or not, and may still be executed
later: it stays open in the history. All others, those with a status that is not
negative, take effect once, between the call and the return
(`linearizable_of_stub`). The condition is the one of
`at_most_once_of_covers_completed_only`, and that clients have a nonce. What a
step that moves one call leaves alone is said once, in `Rel.at_key`.
-/
import Yfs.Lib.Atomic
import Yfs.Rpc.AtMostOnce

namespace Yfs.Remote

open Run Function
open Rpc (Sys ReqHeader Reply ReplyT CallState Client Wf Floors wf_step floors_step)
open Atomic (Action Obj Phase Move Shows Linearizable linearizable_of_simulation)

/-! ## The two sides of a procedure -/

abbrev Body := List UInt8

/-- `request` and `result` are what the client marshals and unmarshals, `serve`
is the handler on the bytes. A handler that has to wait gives `none`. -/
structure Stub (σ Q A : Type) where
  proc : Q → Nat
  request : Q → Body
  result : Q → Int → Body → Option A
  serve : Nat → Body → σ → Option ((Int × Body) × σ)
  apply : σ → Q → Option (A × σ)
  agrees : ∀ {q : Q} {v v' : σ} {ret : Int} {body : Body},
    serve (proc q) (request q) v = some ((ret, body), v') → 0 ≤ ret →
      ∃ a, result q ret body = some a ∧ apply v q = some (a, v')

abbrev Key := Nat × Nat

def key (h : ReqHeader) : Key := (h.cltNonce, h.xid)

/-! ## The system -/

/-- `query` is what was called, and so the body of the request; `fresh` are the
handlers that run and have not done their work, `ran` those that have; `taken`
is `ca->un`. -/
structure State (σ Q : Type) where
  sys : Sys
  obj : σ
  query : Key → Option Q
  fresh : List ReqHeader
  ran : List (ReqHeader × Int × Body)
  taken : Key → Body

def State.init {σ : Type} (Q : Type) (nonce : Nat) (procs : List Nat) (v : σ) : State σ Q where
  sys := Sys.init nonce procs
  obj := v
  query := fun _ => none
  fresh := []
  ran := []
  taken := fun _ => []

inductive Event (Q : Type) where
  | call (c : Nat) (q : Q)
  | dispatch (h : ReqHeader)
  | exec (h : ReqHeader)
  | complete (h : ReqHeader) (ret : Int) (body : Body)
  | gotPdu (c : Nat) (r : Reply)
  | ret (c x : Nat)
  | cancel (c : Nat)

def isWaiting : CallState → Bool
  | .waiting _ => true
  | _ => false

variable {σ Q A : Type} (st : Stub σ Q A)

/-- `exec` is `f->fn(req, rep)` with the `VERIFY(rh.ret >= 0)` behind it. -/
def step (s : State σ Q) : Event Q → Option (State σ Q)
  | .call c q =>
    (Rpc.step s.sys (.call c (st.proc q))).map fun sys =>
      { s with
        sys := sys
        query := match (s.sys.clients c).refuses (st.proc q) with
          | some _ => s.query
          | none => update s.query (c, (s.sys.clients c).xid) (some q) }
  | .dispatch h =>
    (Rpc.step s.sys (.dispatch h)).map fun sys =>
      { s with
        sys := sys
        fresh := if (s.sys.srv.dispatch h).1 = .run then h :: s.fresh else s.fresh }
  | .exec h =>
    if h ∈ s.fresh then
      (s.query (key h)).bind fun q =>
        (st.serve h.proc (st.request q) s.obj).bind fun r =>
          if 0 ≤ r.1.1 then
            some { s with obj := r.2, fresh := s.fresh.erase h, ran := (h, r.1) :: s.ran }
          else none
    else none
  | .complete h ret body =>
    if (h, ret, body) ∈ s.ran then
      (Rpc.step s.sys (.complete h ret body)).map fun sys =>
        { s with sys := sys, ran := s.ran.erase (h, ret, body) }
    else none
  | .gotPdu c r =>
    (Rpc.step s.sys (.gotPdu c r)).map fun sys =>
      { s with
        sys := sys
        taken := if isWaiting ((s.sys.clients c).calls r.xid) then
            update s.taken (c, r.xid) r.body
          else s.taken }
  | .ret c x => (Rpc.step s.sys (.ret c x)).map fun sys => { s with sys := sys }
  | .cancel c => (Rpc.step s.sys (.cancel c)).map fun sys => { s with sys := sys }

/-- What `call` gives its caller, if it does not fail (`rpcc::call_m`). -/
def State.returned (s : State σ Q) (k : Key) : Option A :=
  match (s.sys.clients k.1).calls k.2 with
  | .done _ intret =>
    if 0 ≤ intret then (s.query k).bind fun q => st.result q intret (s.taken k) else none
  | _ => none

def shown (s : State σ Q) : Event Q → Option (Action Key Q A)
  | .call c q =>
    match (s.sys.clients c).refuses (st.proc q) with
    | some _ => none
    | none => some (.call (c, (s.sys.clients c).xid) q)
  | .ret c x => (s.returned st (c, x)).map (.ret (c, x))
  | _ => none

/-- Clients ask for at-most-once and have xids left, and a request comes only
when no entry its `xid_rep` covers is still in progress. -/
def Careful (s : State σ Q) : Event Q → Prop
  | .call c _ => c ≠ 0 ∧ (s.sys.clients c).xid + 1 < 2 ^ 32
  | .dispatch h => Rpc.CoversCompletedOnly s.sys (.dispatch h)
  | _ => True

instance decidableCareful (s : State σ Q) (e : Event Q) : Decidable (Careful s e) := by
  rcases e <;> unfold Careful <;> infer_instance

/-! ## The simulation -/

def Answered (s : State σ Q) (o : Obj σ Key Q A) (k : Key) (ret : Int) (body : Body) : Prop :=
  (∃ i, 0 ≤ i ∧ (s.sys.clients k.1).calls k.2 = .returned i) ∨
    ∃ q a, s.query k = some q ∧ st.result q ret body = some a ∧ o.phase k = .done a

structure Rel (s : State σ Q) (o : Obj σ Key Q A) : Prop where
  value : o.value = s.obj
  wf : Wf s.sys
  floors : Floors s.sys
  nonzero : ∀ h ∈ s.sys.reqs, h.cltNonce ≠ 0
  sent : ∀ h ∈ s.sys.reqs, ∃ q, s.query (key h) = some q ∧ h.proc = st.proc q
  unused : ∀ c x, (s.sys.clients c).calls x = .unused → o.phase (c, x) = .idle
  called : ∀ k q, s.query k = some q → k ∉ s.sys.execs → o.phase k = .called q
  fresh : ∀ h ∈ s.fresh, h ∈ s.sys.reqs ∧ key h ∈ s.sys.execs ∧
    ∃ q, s.query (key h) = some q ∧ o.phase (key h) = .called q
  nodup : (s.fresh.map key).Nodup
  ran : ∀ h ret body, (h, ret, body) ∈ s.ran → Answered st s o (key h) ret body
  replies : ∀ c r, (c, r) ∈ s.sys.replies → 0 ≤ r.ret → Answered st s o (c, r.xid) r.ret r.body
  bufs : ∀ c e b, e ∈ s.sys.srv.replyWindow c → e.buf = some b → 0 ≤ b.ret →
    Answered st s o (c, b.xid) b.ret b.body
  done : ∀ c x p i, (s.sys.clients c).calls x = .done p i → 0 ≤ i →
    ∃ q a, s.query (c, x) = some q ∧ st.result q i (s.taken (c, x)) = some a ∧
      o.phase (c, x) = .done a
  acted : ∀ k a, o.phase k = .done a → k ∈ s.sys.execs

variable {st} {s s' : State σ Q} {o o' : Obj σ Key Q A}

theorem rel_init (nonce : Nat) (procs : List Nat) (v : σ) :
    Rel st (State.init Q nonce procs v) (Obj.init v) where
  value := rfl
  wf := Rpc.wf_init nonce procs
  floors := Rpc.floors_init nonce procs
  nonzero := by simp [State.init, Sys.init]
  sent := by simp [State.init, Sys.init]
  unused _ _ _ := rfl
  called := by simp [State.init]
  fresh := by simp [State.init]
  nodup := List.nodup_nil
  ran := by simp [State.init]
  replies := by simp [State.init, Sys.init]
  bufs := by simp [State.init, Sys.init]
  done := by simp [State.init, Sys.init, Client.new]
  acted := by simp [Obj.init]

variable {k : Key} {body : Body} {c x : Nat} {cl : Client} {hd : ReqHeader} {srv : Rpc.Server}
  {r : Reply}

theorem Answered.frame {ret : Int} (h : Answered st s o k ret body)
    (hcalls : ∀ i, (s.sys.clients k.1).calls k.2 = .returned i →
      (s'.sys.clients k.1).calls k.2 = .returned i)
    (hkeep : ∀ q a, s.query k = some q → o.phase k = .done a →
      s'.query k = some q ∧ (o'.phase k = .done a ∨
        ∃ i, 0 ≤ i ∧ (s'.sys.clients k.1).calls k.2 = .returned i)) :
    Answered st s' o' k ret body := by
  rcases h with ⟨i, hi, hret⟩ | ⟨q, a, hq, ha, hp⟩
  · exact .inl ⟨i, hi, hcalls i hret⟩
  · obtain ⟨hq', hp' | hover⟩ := hkeep q a hq hp
    · exact .inr ⟨q, a, hq', ha, hp'⟩
    · exact .inl hover

inductive Reported (s : State σ Q) : Key → Int → Body → Prop
  | ran {h : ReqHeader} {ret : Int} {body : Body} : (h, ret, body) ∈ s.ran →
      Reported s (key h) ret body
  | reply {c : Nat} {r : Reply} : (c, r) ∈ s.sys.replies → 0 ≤ r.ret →
      Reported s (c, r.xid) r.ret r.body
  | stored {c : Nat} {e : ReplyT} {b : Reply} : e ∈ s.sys.srv.replyWindow c → e.buf = some b →
      0 ≤ b.ret → Reported s (c, b.xid) b.ret b.body

theorem Reported.of_same {ret : Int} (h : Reported s' k ret body) (hran : s'.ran = s.ran)
    (hreplies : s'.sys.replies = s.sys.replies) (hsrv : s'.sys.srv = s.sys.srv) :
    Reported s k ret body := by
  cases h with
  | ran hmem => exact .ran (hran ▸ hmem)
  | reply hmem hret => exact .reply (hreplies ▸ hmem) hret
  | stored hmem hbuf hret => exact .stored (hsrv ▸ hmem) hbuf hret

theorem Rel.reported (h : Rel st s o) {ret : Int} (hr : Reported s k ret body) :
    Answered st s o k ret body := by
  cases hr with
  | ran hmem => exact h.ran _ _ _ hmem
  | reply hmem hret => exact h.replies _ _ hmem hret
  | stored hmem hbuf hret => exact h.bufs _ _ _ hmem hbuf hret

/-- What a step leaves alone. -/
theorem Rel.of_phases (h : Rel st s o) (hwf : Wf s'.sys) (hfloors : Floors s'.sys)
    (hobj : s'.obj = s.obj) (hquery : s'.query = s.query) (hfresh : s'.fresh = s.fresh)
    (hreqs : s'.sys.reqs = s.sys.reqs) (hexecs : s'.sys.execs = s.sys.execs)
    (hunused : ∀ c x, (s'.sys.clients c).calls x = .unused → (s.sys.clients c).calls x = .unused)
    (hreported : ∀ {k ret body}, Reported s' k ret body → Answered st s' o k ret body)
    (hdone : ∀ c x p i, (s'.sys.clients c).calls x = .done p i → 0 ≤ i →
      ∃ q a, s'.query (c, x) = some q ∧ st.result q i (s'.taken (c, x)) = some a ∧
        o.phase (c, x) = .done a) : Rel st s' o where
  value := h.value.trans hobj.symm
  wf := hwf
  floors := hfloors
  nonzero := by
    rw [hreqs]
    exact h.nonzero
  sent := by
    rw [hreqs, hquery]
    exact h.sent
  unused c x hx := h.unused c x (hunused c x hx)
  called := by
    rw [hquery, hexecs]
    exact h.called
  fresh := by
    rw [hfresh, hreqs, hexecs, hquery]
    exact h.fresh
  nodup := by
    rw [hfresh]
    exact h.nodup
  ran _ _ _ hmem := hreported (.ran hmem)
  replies _ _ hmem hret := hreported (.reply hmem hret)
  bufs _ _ _ hmem hbuf hret := hreported (.stored hmem hbuf hret)
  done := hdone
  acted := by
    rw [hexecs]
    exact h.acted

/-- One call moves; the handlers that are still to do their work are of others. -/
theorem Rel.at_key (h : Rel st s o) {p : Phase Q A} (hwf : Wf s'.sys) (hfloors : Floors s'.sys)
    (hvalue : o'.value = s'.obj) (hphases : o'.phase = update o.phase k p)
    (hexecs : s'.sys.execs = s.sys.execs)
    (hcalls : ∀ k', k' ≠ k → (s'.sys.clients k'.1).calls k'.2 = (s.sys.clients k'.1).calls k'.2)
    (hquery : ∀ k', k' ≠ k → s'.query k' = s.query k') (htaken : s'.taken = s.taken)
    (hreqs : ∀ hd, hd ∈ s'.sys.reqs ↔ hd ∈ s.sys.reqs ∨ hd ∈ s'.sys.reqs ∧ key hd = k)
    (hsent : ∀ hd ∈ s'.sys.reqs, key hd = k →
      hd.cltNonce ≠ 0 ∧ ∃ q, s'.query k = some q ∧ hd.proc = st.proc q)
    (hfresh : s'.fresh.Sublist s.fresh) (hothers : ∀ hd ∈ s'.fresh, key hd ≠ k)
    (hreported : ∀ {k' ret body}, Reported s' k' ret body → Answered st s' o' k' ret body)
    (hunused : (s'.sys.clients k.1).calls k.2 = .unused → p = .idle)
    (hcalled : ∀ q, s'.query k = some q → k ∉ s.sys.execs → p = .called q)
    (hdone : ∀ proc i, (s'.sys.clients k.1).calls k.2 = .done proc i → 0 ≤ i →
      ∃ q a, s'.query k = some q ∧ st.result q i (s.taken k) = some a ∧ p = .done a)
    (hacted : ∀ a, p = .done a → k ∈ s.sys.execs) : Rel st s' o' := by
  have hself : o'.phase k = p := by rw [hphases, update_self]
  have hother : ∀ k', k' ≠ k → o'.phase k' = o.phase k' := by
    intro k' hk
    rw [hphases, update_of_ne hk]
  have hold : ∀ hd ∈ s'.sys.reqs, key hd ≠ k → hd ∈ s.sys.reqs := by
    intro hd hmem hk
    rcases (hreqs hd).mp hmem with hmem | ⟨_, he⟩
    · exact hmem
    · exact absurd he hk
  refine
    { value := hvalue
      wf := hwf
      floors := hfloors
      nonzero := fun hd hmem => ?_
      sent := fun hd hmem => ?_
      unused := fun c x hx => ?_
      called := fun k' q hq hexec => ?_
      fresh := fun hd hmem => ?_
      nodup := h.nodup.sublist (hfresh.map _)
      ran := fun _ _ _ hmem => hreported (.ran hmem)
      replies := fun _ _ hmem hret => hreported (.reply hmem hret)
      bufs := fun _ _ _ hmem hbuf hret => hreported (.stored hmem hbuf hret)
      done := fun c x proc i hx hi => ?_
      acted := fun k' a hp => ?_ }
  · by_cases hk : key hd = k
    · exact (hsent hd hmem hk).1
    · exact h.nonzero hd (hold hd hmem hk)
  · by_cases hk : key hd = k
    · rw [hk]
      exact (hsent hd hmem hk).2
    · rw [hquery _ hk]
      exact h.sent hd (hold hd hmem hk)
  · rcases eq_or_ne (c, x) k with rfl | hk
    · rw [hself, hunused hx]
    · rw [hother _ hk]
      exact h.unused c x ((hcalls _ hk).symm.trans hx)
  · rw [hexecs] at hexec
    rcases eq_or_ne k' k with rfl | hk
    · rw [hself, hcalled q hq hexec]
    · rw [hother k' hk]
      exact h.called k' q ((hquery k' hk).symm.trans hq) hexec
  · obtain ⟨hreq, hexec, q, hq, hp⟩ := h.fresh hd (hfresh.subset hmem)
    have hk := hothers hd hmem
    rw [hexecs, hquery _ hk, hother _ hk]
    exact ⟨(hreqs hd).mpr (.inl hreq), hexec, q, hq, hp⟩
  · rw [htaken]
    rcases eq_or_ne (c, x) k with rfl | hk
    · rw [hself]
      exact hdone proc i hx hi
    · rw [hquery _ hk, hother _ hk]
      exact h.done c x proc i ((hcalls _ hk).symm.trans hx) hi
  · rw [hexecs]
    rcases eq_or_ne k' k with rfl | hk
    · exact hacted a (hself.symm.trans hp)
    · rw [hother k' hk] at hp
      exact h.acted k' a hp

/-! ### Calls -/

theorem step_call {q : Q} (hs : step st s (.call c q) = some s') :
    Rpc.step s.sys (.call c (st.proc q)) = some s'.sys ∧
      ((∃ i, (s.sys.clients c).refuses (st.proc q) = some i ∧ s' = s) ∨
        (s.sys.clients c).refuses (st.proc q) = none ∧
          s' = { s with
            sys := { s.sys.setClient c ((s.sys.clients c).register (st.proc q)) with
              reqs := (s.sys.clients c).header c (st.proc q) :: s.sys.reqs }
            query := update s.query (c, (s.sys.clients c).xid) (some q) }) := by
  obtain ⟨sys, hsys, rfl⟩ := Option.map_eq_some_iff.mp hs
  refine ⟨hsys, ?_⟩
  cases hrefuses : (s.sys.clients c).refuses (st.proc q) with
  | some i =>
    simp only [Rpc.step, hrefuses, Option.some.injEq] at hsys
    subst hsys
    exact .inl ⟨i, rfl, rfl⟩
  | none =>
    simp only [Rpc.step, hrefuses, Option.some.injEq] at hsys
    subst hsys
    exact .inr ⟨rfl, rfl⟩

/-- A call that has not been made is known to nobody. -/
theorem Rel.phase_of_unused (h : Rel st s o) :
    (s.sys.clients c).calls (s.sys.clients c).xid = .unused ∧
      o.phase (c, (s.sys.clients c).xid) = .idle := by
  have hunused : (s.sys.clients c).calls (s.sys.clients c).xid = .unused := by
    by_contra hne
    exact absurd (((h.wf.client c).used_iff _).mp hne).2 (lt_irrefl _)
  exact ⟨hunused, h.unused c _ hunused⟩

/-- One call of one client has a new state. -/
theorem calls_setClient {s : Sys} {v : CallState}
    (hcl : cl.calls = update (s.clients c).calls x v) (k : Key) :
    ((s.setClient c cl).clients k.1).calls k.2 =
      if k = (c, x) then v else (s.clients k.1).calls k.2 := by
  obtain ⟨c', y⟩ := k
  rcases eq_or_ne c' c with rfl | hc
  · rcases eq_or_ne y x with rfl | hy
    · simp [Sys.setClient, hcl]
    · simp [Sys.setClient, hcl, hy]
  · simp [Sys.setClient, hc]

theorem Rel.call (h : Rel st s o) {q : Q} (hok : c ≠ 0 ∧ (s.sys.clients c).xid + 1 < 2 ^ 32)
    (hs : step st s (.call c q) = some s') :
    ∃ o', Move st.apply o (shown st s (.call c q)) o' ∧ Rel st s' o' := by
  obtain ⟨hsys, ⟨i, hrefuses, rfl⟩ | ⟨hrefuses, rfl⟩⟩ := step_call hs
  · exact ⟨o, by simpa only [shown, hrefuses] using .none, h⟩
  have hfloors := floors_step h.wf h.floors
    (show Rpc.CoversCompletedOnly s.sys (.call c (st.proc q)) from trivial) hsys
  obtain ⟨hunused, hidle⟩ := h.phase_of_unused (c := c)
  have hcalls := calls_setClient (s := s.sys) (c := c)
    (show ((s.sys.clients c).register (st.proc q)).calls = _ from rfl)
  -- nobody has heard of the call
  have hnew : ∀ hd ∈ s.sys.reqs, key hd ≠ (c, (s.sys.clients c).xid) := by
    intro hd hmem he
    have hissued := h.wf.issued hd hmem
    obtain ⟨hc', hx⟩ := Prod.mk.inj he
    rw [hc', hx] at hissued
    exact hissued hunused
  refine ⟨o.setPhase (c, (s.sys.clients c).xid) (.called q), ?_, ?_⟩
  · simp only [shown, hrefuses]
    exact .call hidle
  refine h.at_key (wf_step h.wf (by exact hok.2) hsys) hfloors h.value rfl rfl (fun k hk => ?_)
    (fun k hk => update_of_ne hk _ _) rfl (fun hd => ?_) (fun hd hmem hk => ?_)
    (List.Sublist.refl _) (fun hd hmem => hnew hd (h.fresh hd hmem).1) (fun {k _ _} hr => ?_)
    (fun hx => ?_) (fun q' hq' _ => ?_) (fun proc i hx _ => ?_) nofun
  · exact (hcalls k).trans (if_neg hk)
  · constructor
    · intro hmem
      rcases List.mem_cons.mp hmem with rfl | hmem'
      · exact .inr ⟨hmem, rfl⟩
      · exact .inl hmem'
    · rintro (hmem | hmem)
      · exact List.mem_cons_of_mem _ hmem
      · exact hmem.1
  · rcases List.mem_cons.mp hmem with rfl | hmem
    · exact ⟨hok.1, q, update_self .., rfl⟩
    · exact absurd hk (hnew hd hmem)
  · refine (h.reported (hr.of_same rfl rfl rfl)).frame (fun i hi => ?_) fun q' a hq' hp => ?_
    · refine (hcalls _).trans ((if_neg ?_).trans hi)
      rintro rfl
      rw [hunused] at hi
      cases hi
    · have hk : k ≠ (c, (s.sys.clients c).xid) := by
        rintro rfl
        rw [hidle] at hp
        cases hp
      exact ⟨(update_of_ne hk _ _).trans hq', .inl (by simpa [Obj.setPhase, hk] using hp)⟩
  · cases (hcalls _).symm.trans hx |>.symm.trans (if_pos rfl)
  · have hq : some q = some q' := (update_self _ _ s.query).symm.trans hq'
    rw [Option.some.inj hq]
  · cases (hcalls _).symm.trans hx |>.symm.trans (if_pos rfl)

/-! ### The server -/

theorem step_dispatch (hs : step st s (.dispatch hd) = some s') :
    hd ∈ s.sys.reqs ∧ Rpc.step s.sys (.dispatch hd) = some s'.sys ∧
      (s' = { s with sys :=
          s.sys.afterDispatch hd (.send ⟨hd.xid, Rpc.oldsrvFailure, []⟩) s.sys.srv } ∨
        s' = { s with
          sys := s.sys.afterDispatch hd (s.sys.srv.action hd)
            { s.sys.srv with replyWindow := s.sys.srv.remember hd }
          fresh := if s.sys.srv.action hd = .run then hd :: s.fresh else s.fresh }) := by
  obtain ⟨sys, hsys, rfl⟩ := Option.map_eq_some_iff.mp hs
  obtain ⟨hmem, hsys⟩ := Option.ite_none_right_eq_some.mp hsys
  refine ⟨hmem, ?_, ?_⟩
  · simpa only [Rpc.step, if_pos hmem] using hsys
  split at hsys
  · cases hsys
  · rename_i hna
    cases hsys
    unfold Rpc.Server.dispatch at hna ⊢
    by_cases hold : hd.srvNonce ≠ 0 ∧ hd.srvNonce ≠ s.sys.srv.nonce
    · exact .inl (by simp [hold])
    · by_cases hproc : hd.proc ∉ s.sys.srv.procs
      · exact absurd (by simp [if_neg hold, hproc]) hna
      · exact .inr (by rw [if_neg hold, if_neg hproc])

/-- A reply that is not a failure has been stored before. -/
theorem stored_of_send (hsend : srv.action hd = .send r) (hret : 0 ≤ r.ret) :
    ∃ e ∈ srv.replyWindow hd.cltNonce, e.buf = some r := by
  cases hc : srv.classify hd with
  | NEW | INPROGRESS => simp [Rpc.Server.action, hc] at hsend
  | FORGOTTEN =>
    simp only [Rpc.Server.action, hc, Rpc.Action.send.injEq] at hsend
    rw [← hsend] at hret
    exact absurd hret (by simp [Rpc.atmostonceFailure])
  | DONE b =>
    cases b with
    | none => simp [Rpc.Server.action, hc] at hsend
    | some b =>
      simp only [Rpc.Server.action, hc, Rpc.Action.send.injEq] at hsend
      subst hsend
      by_cases h0 : hd.cltNonce = 0
      · simp [Rpc.Server.classify, h0] at hc
      · simp only [Rpc.Server.classify, if_neg h0] at hc
        exact Rpc.checkduplicate_done hc

theorem Answered.same {ret : Int} (h : Answered st s o k ret body)
    (hclients : s'.sys.clients = s.sys.clients) (hquery : s'.query = s.query) :
    Answered st s' o k ret body := by
  rwa [Answered, hclients, hquery]

/-- A request for an old incarnation, or one that is not new. -/
theorem Rel.dispatch_known (h : Rel st s o) {act : Rpc.Action} (hact : act ≠ .run)
    (hs' : s' = { s with sys := s.sys.afterDispatch hd act srv }) (hwf : Wf s'.sys)
    (hfloors : Floors s'.sys)
    (hsend : ∀ r, act = .send r → 0 ≤ r.ret →
      ∃ e ∈ s.sys.srv.replyWindow hd.cltNonce, e.buf = some r)
    (hbufs : ∀ c e b, e ∈ srv.replyWindow c → e.buf = some b → e ∈ s.sys.srv.replyWindow c) :
    Rel st s' o := by
  have hans : ∀ {k ret body}, Answered st s o k ret body → Answered st s' o k ret body :=
    fun ha => ha.same (by rw [hs']; rfl) (by rw [hs'])
  have hexecs : s'.sys.execs = s.sys.execs := by
    rw [hs']
    exact if_neg hact
  refine h.of_phases hwf hfloors (by rw [hs']) (by rw [hs']) (by rw [hs']) (by rw [hs']; rfl) hexecs
    (by rw [hs']; exact fun _ _ hx => hx) (fun hr => ?_) (by rw [hs']; exact h.done)
  rw [hs'] at hr
  cases hr with
  | ran hmem => exact hans (h.ran _ _ _ hmem)
  | stored he hb hret => exact hans (h.bufs _ _ _ (hbufs _ _ _ he hb) hb hret)
  | @reply c r hr hret =>
    cases act with
    | run => exact absurd rfl hact
    | send r' =>
      rcases List.mem_cons.mp hr with he | hr
      · obtain ⟨rfl, rfl⟩ := Prod.mk.inj he
        obtain ⟨e, he, hb⟩ := hsend r rfl hret
        exact hans (h.bufs _ e r he hb hret)
      · exact hans (h.replies c r hr hret)
    | nothing | abort => exact hans (h.replies c r hr hret)

/-- The handler of a call is started for the first time. -/
theorem Rel.dispatch_run (h : Rel st s o) (hmem : hd ∈ s.sys.reqs)
    (hrun : s.sys.srv.action hd = .run)
    (hs' : s' = { s with
      sys := s.sys.afterDispatch hd .run { s.sys.srv with replyWindow := s.sys.srv.remember hd }
      fresh := hd :: s.fresh }) (hwf : Wf s'.sys) (hfloors : Floors s'.sys) : Rel st s' o := by
  have hans : ∀ {k ret body}, Answered st s o k ret body → Answered st s' o k ret body :=
    fun ha => ha.same (by rw [hs']; rfl) (by rw [hs'])
  have hexecs : s'.sys.execs = key hd :: s.sys.execs := by rw [hs']; rfl
  have hnew : key hd ∉ s.sys.execs := by
    intro hold
    have hcount := hfloors.atMostOnce hd.cltNonce hd.xid (h.nonzero hd hmem)
    rw [hexecs, key, List.count_cons_self] at hcount
    have hpos := List.count_pos_iff.mpr hold
    rw [key] at hpos
    omega
  obtain ⟨q, hq, hproc⟩ := h.sent hd hmem
  have hquery : s'.query = s.query := by rw [hs']
  have hreqs : s'.sys.reqs = s.sys.reqs := by rw [hs']; rfl
  have hclients : s'.sys.clients = s.sys.clients := by rw [hs']; rfl
  have hfresh : s'.fresh = hd :: s.fresh := by rw [hs']
  refine
    { value := by rw [hs']; exact h.value
      wf := hwf
      floors := hfloors
      nonzero := hreqs ▸ h.nonzero
      sent := by rw [hreqs, hquery]; exact h.sent
      unused := by rw [hclients]; exact h.unused
      called := fun k q' hq' hk => ?_
      fresh := fun h' hmem' => ?_
      nodup := ?_
      ran := fun h' ret body hran => hans (h.ran h' ret body (by rwa [hs'] at hran))
      replies := fun c r hr hret => hans (h.replies c r (by rwa [hs'] at hr) hret)
      bufs := fun c e b he hb hret => hans (h.bufs c e b ?_ hb hret)
      done := by rw [hs']; exact h.done
      acted := fun k a hp => by rw [hexecs]; exact List.mem_cons_of_mem _ (h.acted k a hp) }
  · rw [hexecs, List.mem_cons, not_or] at hk
    exact h.called k q' (hquery ▸ hq') hk.2
  · rw [hreqs, hexecs, hquery]
    rcases List.mem_cons.mp (hfresh ▸ hmem') with rfl | hmem'
    · exact ⟨hmem, List.mem_cons_self .., q, hq, h.called _ q hq hnew⟩
    · obtain ⟨hreq, hexec, hphase⟩ := h.fresh h' hmem'
      exact ⟨hreq, List.mem_cons_of_mem _ hexec, hphase⟩
  · rw [hfresh, List.map_cons, List.nodup_cons]
    refine ⟨fun hin => hnew ?_, h.nodup⟩
    obtain ⟨h', hmem', he⟩ := List.mem_map.mp hin
    rw [← he]
    exact (h.fresh h' hmem').2.1
  · rw [hs'] at he
    rcases Rpc.mem_remember he with he | ⟨_, _, rfl⟩
    · exact he
    · cases hb

theorem Rel.dispatch (h : Rel st s o) (hcovers : Rpc.CoversCompletedOnly s.sys (.dispatch hd))
    (hs : step st s (.dispatch hd) = some s') : Rel st s' o := by
  obtain ⟨hmem, hsys, hcases⟩ := step_dispatch hs
  have hwf := wf_step h.wf (by trivial) hsys
  have hfloors := floors_step h.wf h.floors hcovers hsys
  rcases hcases with hs' | hs'
  · refine h.dispatch_known (by simp) hs' hwf hfloors (fun r hr hret => ?_) fun _ _ _ he _ => he
    obtain rfl := Rpc.Action.send.inj hr
    exact absurd hret (by simp [Rpc.oldsrvFailure])
  · by_cases hrun : s.sys.srv.action hd = .run
    · rw [hrun, if_pos rfl] at hs'
      exact h.dispatch_run hmem hrun hs' hwf hfloors
    · rw [if_neg hrun] at hs'
      refine h.dispatch_known hrun hs' hwf hfloors (fun r hr hret => stored_of_send hr hret)
        fun c e b he hb => ?_
      rcases Rpc.mem_remember he with he | ⟨_, hrun', _⟩
      · exact he
      · exact absurd hrun' hrun

/-- The handler does its work. -/
theorem Rel.exec (h : Rel st s o) (hs : step st s (.exec hd) = some s') :
    ∃ o', Move st.apply o none o' ∧ Rel st s' o' := by
  obtain ⟨hfresh, hs⟩ := Option.ite_none_right_eq_some.mp hs
  obtain ⟨hreq, hexec, q, hq, hphase⟩ := h.fresh hd hfresh
  obtain ⟨q', hq', hproc⟩ := h.sent hd hreq
  cases hq.symm.trans hq'
  rw [hq, Option.bind_some] at hs
  obtain ⟨⟨⟨ret, body⟩, v⟩, hserve, hs⟩ := Option.bind_eq_some_iff.mp hs
  simp only at hs
  obtain ⟨hret, hs⟩ := Option.ite_none_right_eq_some.mp hs
  rw [hproc] at hserve
  obtain ⟨a, hresult, happly⟩ := st.agrees hserve hret
  rw [← h.value] at happly
  cases hs
  refine ⟨_, .effect hphase happly, ?_⟩
  have hnot : ∀ {k a'}, o.phase k = .done a' → k ≠ key hd := by
    rintro k a' hp rfl
    rw [hphase] at hp
    cases hp
  refine h.at_key h.wf h.floors rfl rfl rfl (fun _ _ => rfl) (fun _ _ => rfl) rfl
    (fun hd' => ⟨.inl, fun hmem => hmem.elim id And.left⟩)
    (fun hd' hmem hk => ⟨h.nonzero hd' hmem, hk ▸ h.sent hd' hmem⟩) List.erase_sublist
    (fun hd' hmem => ?_) (fun hr => ?_) (fun hx => ?_) (fun _ _ hk => absurd hexec hk)
    (fun proc i hx hi => ?_) fun _ _ => hexec
  · -- of the handlers that have not done their work, only this one is of the call
    have hmem' := (List.Nodup.of_map _ h.nodup).mem_erase_iff.mp hmem
    exact fun he => hmem'.1 (List.inj_on_of_nodup_map h.nodup hmem'.2 hfresh he)
  · have hans : ∀ {k ret' body'}, Answered st s o k ret' body' →
        Answered st
          { s with obj := v, fresh := s.fresh.erase hd, ran := (hd, ret, body) :: s.ran }
          ({ o with value := v }.setPhase (key hd) (.done a)) k ret' body' := by
      intro k ret' body' ha
      refine ha.frame (fun _ hi => hi) fun q' a' hq' hp => ⟨hq', .inl ?_⟩
      simpa [Obj.setPhase, hnot hp] using hp
    cases hr with
    | reply hmem hret => exact hans (h.replies _ _ hmem hret)
    | stored hmem hbuf hret => exact hans (h.bufs _ _ _ hmem hbuf hret)
    | ran hmem =>
      rcases List.mem_cons.mp hmem with he | hmem
      · obtain ⟨rfl, rfl, rfl⟩ := by simpa using he
        exact .inr ⟨q, a, hq, hresult, update_self ..⟩
      · exact hans (h.ran _ _ _ hmem)
  · have hidle := h.unused _ _ hx
    rw [hphase] at hidle
    cases hidle
  · obtain ⟨_, a', _, _, hp⟩ := h.done _ _ proc i hx hi
    exact absurd rfl (hnot hp)

/-- `add_reply` stores what the handler has given. -/
theorem mem_complete {e : ReplyT} (he : e ∈ (srv.complete hd r).replyWindow c) :
    e ∈ srv.replyWindow c ∨ c = hd.cltNonce ∧ e.buf = some r := by
  unfold Rpc.Server.complete at he
  split at he
  · rcases eq_or_ne c hd.cltNonce with rfl | hne
    · simp only [update_self] at he
      rcases Rpc.mem_addReply he with he | ⟨e₀, _, _, rfl⟩
      · exact .inl he
      · exact .inr ⟨rfl, rfl⟩
    · simp only [update_of_ne hne] at he
      exact .inl he
  · exact .inl he

theorem Rel.complete (h : Rel st s o) {ret : Int}
    (hs : step st s (.complete hd ret body) = some s') : Rel st s' o := by
  obtain ⟨hran, hs⟩ := Option.ite_none_right_eq_some.mp hs
  obtain ⟨sys, hsys, rfl⟩ := Option.map_eq_some_iff.mp hs
  have hwf := wf_step h.wf (by trivial) hsys
  have hfloors := floors_step h.wf h.floors
    (show Rpc.CoversCompletedOnly s.sys (.complete hd ret body) from trivial) hsys
  obtain ⟨_, rfl⟩ := Run.of_guard hsys
  have hnew := h.ran hd ret body hran
  refine h.of_phases hwf hfloors rfl rfl rfl rfl rfl (fun _ _ hx => hx) (fun hr => ?_) h.done
  cases hr with
  | ran hmem => exact (h.ran _ _ _ (List.mem_of_mem_erase hmem)).same rfl rfl
  | @reply c r hr hret =>
    rcases List.mem_cons.mp hr with he | hr
    · obtain ⟨rfl, rfl⟩ := Prod.mk.inj he
      exact hnew.same rfl rfl
    · exact (h.replies c r hr hret).same rfl rfl
  | @stored c e b he hb hret =>
    rcases mem_complete he with hold | ⟨rfl, hbuf⟩
    · exact (h.bufs c e b hold hb hret).same rfl rfl
    · cases hbuf.symm.trans hb
      exact hnew.same rfl rfl

/-! ### Replies and returns -/

/-- A client goes on with its calls; the object is not concerned. -/
theorem Rel.setClient (h : Rel st s o) {taken : Key → Body}
    (hs' : s' = { s with sys := s.sys.setClient c cl, taken := taken }) (hwf : Wf s'.sys)
    (hfloors : Floors s'.sys)
    (hunused : ∀ x, cl.calls x = .unused → (s.sys.clients c).calls x = .unused)
    (hreturned : ∀ x i, (s.sys.clients c).calls x = .returned i → cl.calls x = .returned i)
    (htaken : ∀ k, k.1 ≠ c → taken k = s.taken k)
    (hdone : ∀ x p i, cl.calls x = .done p i → 0 ≤ i →
      ∃ q a, s.query (c, x) = some q ∧ st.result q i (taken (c, x)) = some a ∧
        o.phase (c, x) = .done a) : Rel st s' o := by
  have hcl : ∀ c', c' ≠ c → s'.sys.clients c' = s.sys.clients c' := by
    intro c' hne
    rw [hs']
    simp [Sys.setClient, hne]
  have hself : s'.sys.clients c = cl := by
    rw [hs']
    simp [Sys.setClient]
  have hans : ∀ {k ret body}, Answered st s o k ret body → Answered st s' o k ret body := by
    intro k ret body ha
    refine ha.frame (fun i hi => ?_) fun q a hq hp => ⟨by rw [hs']; exact hq, .inl hp⟩
    rcases eq_or_ne k.1 c with hk | hk
    · rw [hk, hself]
      rw [hk] at hi
      exact hreturned k.2 i hi
    · rwa [hcl k.1 hk]
  refine h.of_phases hwf hfloors (by rw [hs']) (by rw [hs']) (by rw [hs']) (by rw [hs']; rfl)
    (by rw [hs']; rfl) (fun c' x hx => ?_)
    (fun hr => hans (h.reported (hr.of_same (by rw [hs']) (by rw [hs']; rfl) (by rw [hs']; rfl))))
    fun c' x p i hx hi => ?_
  · rcases eq_or_ne c' c with rfl | hne
    · rw [hself] at hx
      exact hunused x hx
    · rwa [hcl c' hne] at hx
  · have hquery : s'.query = s.query := by rw [hs']
    have htk : s'.taken = taken := by rw [hs']
    rw [hquery, htk]
    rcases eq_or_ne c' c with rfl | hne
    · rw [hself] at hx
      exact hdone x p i hx hi
    · rw [hcl c' hne] at hx
      rw [htaken (c', x) hne]
      exact h.done c' x p i hx hi

theorem Rel.gotPdu (h : Rel st s o) (hs : step st s (.gotPdu c r) = some s') : Rel st s' o := by
  obtain ⟨sys, hsys, rfl⟩ := Option.map_eq_some_iff.mp hs
  have hwf := wf_step h.wf (by trivial) hsys
  have hfloors := floors_step h.wf h.floors
    (show Rpc.CoversCompletedOnly s.sys (.gotPdu c r) from trivial) hsys
  obtain ⟨hr, rfl⟩ := Run.of_guard hsys
  have hcalls : ((s.sys.clients c).gotPdu r).calls = update (s.sys.clients c).calls r.xid
      (((s.sys.clients c).calls r.xid).answer r.ret) := rfl
  refine h.setClient rfl hwf hfloors (fun x hx => ?_) (fun x i hx => ?_) (fun k hk => ?_)
    fun x p i hx hi => ?_
  · rw [hcalls] at hx
    rcases eq_or_ne x r.xid with rfl | hne
    · rw [update_self] at hx
      cases hc : (s.sys.clients c).calls r.xid <;> simp [hc, CallState.answer] at hx ⊢
    · rwa [update_of_ne hne] at hx
  · rw [hcalls]
    rcases eq_or_ne x r.xid with rfl | hne
    · rw [update_self, hx]
      rfl
    · rwa [update_of_ne hne]
  · split
    · exact update_of_ne (fun he => hk (by rw [he])) _ _
    · rfl
  · rw [hcalls] at hx
    rcases eq_or_ne x r.xid with rfl | hne
    · rw [update_self] at hx
      cases hc : (s.sys.clients c).calls r.xid with
      | waiting p' =>
        -- the call has waited for this reply
        obtain ⟨rfl, rfl⟩ : p' = p ∧ r.ret = i := by simpa [hc, CallState.answer] using hx
        rcases h.replies c r hr hi with ⟨i', _, hret⟩ | ⟨q, a, hq, ha, hp⟩
        · rw [hc] at hret
          cases hret
        · exact ⟨q, a, hq, by simpa [isWaiting] using ha, hp⟩
      | done p' i' =>
        obtain ⟨rfl, rfl⟩ : p' = p ∧ i' = i := by simpa [hc, CallState.answer] using hx
        simpa [isWaiting] using h.done c r.xid p' i' hc hi
      | unused | returned i' => simp [hc, CallState.answer] at hx
    · rw [update_of_ne hne] at hx
      have htaken : (if isWaiting ((s.sys.clients c).calls r.xid) = true then
          update s.taken (c, r.xid) r.body else s.taken) (c, x) = s.taken (c, x) := by
        split
        · exact update_of_ne (fun he => hne (Prod.mk.inj he).2) _ _
        · rfl
      rw [htaken]
      exact h.done c x p i hx hi

theorem Rel.cancel (h : Rel st s o) (hs : step st s (.cancel c) = some s') : Rel st s' o := by
  simp only [step] at hs
  obtain ⟨sys, hsys, rfl⟩ := Option.map_eq_some_iff.mp hs
  have hwf := wf_step h.wf (by trivial) hsys
  have hfloors := floors_step h.wf h.floors
    (show Rpc.CoversCompletedOnly s.sys (.cancel c) from trivial) hsys
  cases hsys
  refine h.setClient rfl hwf hfloors (fun x hx => ?_) (fun x i hx => ?_) (fun _ _ => rfl)
    fun x p i hx hi => ?_
  · cases hc : (s.sys.clients c).calls x <;> simp [Client.cancel, hc] at hx ⊢
  · simp [Client.cancel, hx]
  · -- every call that is not over has failed
    have hneg : i = Rpc.cancelFailure := by
      cases hc : (s.sys.clients c).calls x <;> simp [Client.cancel, hc] at hx <;> exact hx.2.symm
    rw [hneg] at hi
    exact absurd hi (by simp [Rpc.cancelFailure])

theorem ret_cases {cl' : Client} {n : Nat} (h : cl.ret x n = some cl') :
    ∃ i, cl'.calls = update cl.calls x (.returned i) ∧
      ((∃ p, cl.calls x = .waiting p) ∧ i < 0 ∨ ∃ p, cl.calls x = .done p i) := by
  cases hc : cl.calls x with
  | unused | returned i => simp [Client.ret, hc] at h
  | waiting p =>
    simp only [Client.ret, hc, Option.some.injEq] at h
    subst h
    exact ⟨_, rfl, .inl ⟨⟨p, rfl⟩, by simp [Rpc.timeoutFailure]⟩⟩
  | done p i =>
    simp only [Client.ret, hc, Option.some.injEq] at h
    subst h
    exact ⟨i, rfl, .inr ⟨p, rfl⟩⟩

/-- A call fails; it stays open. -/
theorem Rel.ret_failed (h : Rel st s o) {i : Int} (hwf : Wf (s.sys.setClient c cl))
    (hfloors : Floors (s.sys.setClient c cl))
    (hcl : cl.calls = update (s.sys.clients c).calls x (.returned i))
    (hold : ∀ j, (s.sys.clients c).calls x ≠ .returned j) :
    Rel st { s with sys := s.sys.setClient c cl } o := by
  refine h.setClient rfl hwf hfloors (fun y hy => ?_) (fun y j hy => ?_) (fun _ _ => rfl)
    fun y p j hy hj => ?_
  · rw [hcl] at hy
    rcases eq_or_ne y x with rfl | hne
    · rw [update_self] at hy
      cases hy
    · rwa [update_of_ne hne] at hy
  · rw [hcl]
    rcases eq_or_ne y x with rfl | hne
    · exact absurd hy (hold j)
    · rwa [update_of_ne hne]
  · rw [hcl] at hy
    rcases eq_or_ne y x with rfl | hne
    · rw [update_self] at hy
      cases hy
    · rw [update_of_ne hne] at hy
      exact h.done c y p j hy hj

/-- A call returns with the answer of its execution. -/
theorem Rel.ret_done (h : Rel st s o) {i : Int} {a : A} (hwf : Wf (s.sys.setClient c cl))
    (hfloors : Floors (s.sys.setClient c cl))
    (hcl : cl.calls = update (s.sys.clients c).calls x (.returned i)) (hi : 0 ≤ i)
    (hold : ∀ j, (s.sys.clients c).calls x ≠ .returned j) (hphase : o.phase (c, x) = .done a) :
    Rel st { s with sys := s.sys.setClient c cl } (o.setPhase (c, x) .idle) := by
  have hcalls := calls_setClient (s := s.sys) hcl
  have hexec := h.acted _ a hphase
  refine h.at_key hwf hfloors h.value rfl rfl (fun k hk => (hcalls k).trans (if_neg hk))
    (fun _ _ => rfl) rfl (fun hd => ⟨.inl, fun hmem => hmem.elim id And.left⟩)
    (fun hd hmem hk => ⟨h.nonzero hd hmem, hk ▸ h.sent hd hmem⟩) (List.Sublist.refl _)
    (fun hd hmem he => ?_) (fun {k _ _} hr => ?_) (fun _ => rfl) (fun _ _ hk => absurd hexec hk)
    (fun proc j hx _ => ?_) nofun
  · obtain ⟨_, _, q, _, hp⟩ := h.fresh hd hmem
    rw [he, hphase] at hp
    cases hp
  · refine (h.reported (hr.of_same rfl rfl rfl)).frame (fun j hj => ?_)
      fun q a' hq hp => ⟨hq, ?_⟩
    · refine (hcalls _).trans ((if_neg ?_).trans hj)
      rintro rfl
      exact hold j hj
    · by_cases hk : k = (c, x)
      · exact .inr ⟨i, hi, (hcalls _).trans (if_pos hk)⟩
      · exact .inl (by simpa [Obj.setPhase, hk] using hp)
  · cases ((hcalls _).trans (if_pos rfl)).symm.trans hx

theorem Rel.ret (h : Rel st s o) (hs : step st s (.ret c x) = some s') :
    ∃ o', Move st.apply o (shown st s (.ret c x)) o' ∧ Rel st s' o' := by
  simp only [step] at hs
  obtain ⟨sys, hsys, rfl⟩ := Option.map_eq_some_iff.mp hs
  have hwf := wf_step h.wf (by trivial) hsys
  have hfloors := floors_step h.wf h.floors
    (show Rpc.CoversCompletedOnly s.sys (.ret c x) from trivial) hsys
  simp only [Rpc.step] at hsys
  split at hsys
  · rename_i cl hcl
    cases hsys
    obtain ⟨i, hcalls, ⟨⟨p, hwait⟩, hi⟩ | ⟨p, hdone⟩⟩ := ret_cases hcl
    · refine ⟨o, ?_, h.ret_failed hwf hfloors hcalls (by simp [hwait])⟩
      simpa [shown, State.returned, hwait] using .none
    · by_cases hi : 0 ≤ i
      · obtain ⟨q, a, hq, ha, hphase⟩ := h.done c x p i hdone hi
        refine ⟨_, ?_, h.ret_done hwf hfloors hcalls hi (by simp [hdone]) hphase⟩
        simpa [shown, State.returned, hdone, hi, hq, ha] using .ret hphase
      · refine ⟨o, ?_, h.ret_failed hwf hfloors hcalls (by simp [hdone])⟩
        simpa [shown, State.returned, hdone, hi] using .none
  · cases hsys

theorem rel_step {e : Event Q} (h : Rel st s o) (hok : Careful s e)
    (hs : step st s e = some s') :
    ∃ o', Move st.apply o (shown st s e) o' ∧ Rel st s' o' := by
  cases e with
  | call c q => exact h.call hok hs
  | dispatch hd => exact ⟨o, .none, h.dispatch hok hs⟩
  | exec hd => exact h.exec hs
  | complete hd ret body => exact ⟨o, .none, h.complete hs⟩
  | gotPdu c r => exact ⟨o, .none, h.gotPdu hs⟩
  | ret c x => exact h.ret hs
  | cancel c => exact ⟨o, .none, h.cancel hs⟩

/-- **Calls through the RPC library are atomic.** Whatever happens to requests
and replies, the calls that do not fail are operations on the object behind the
handlers, each done once between its call and its return. -/
theorem linearizable_of_stub {nonce : Nat} {procs : List Nat} {v : σ}
    {as : List (Action Key Q A)}
    (h : Shows (step st) Careful (shown st) (State.init Q nonce procs v) as s) :
    Linearizable st.apply v as := by
  obtain ⟨o, _, hist⟩ := linearizable_of_simulation (Rel st) (rel_init nonce procs v)
    (fun _ _ _ _ hR hok hs => rel_step hR hok hs) h
  exact ⟨o, hist⟩

end Yfs.Remote
