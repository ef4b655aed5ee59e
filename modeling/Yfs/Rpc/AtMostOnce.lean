/-
Yfs.Rpc.AtMostOnce — when a handler runs at most once per
`(clt_nonce, xid)`, and when a live call is forgotten.

Both questions are about one server list per client, seen through the
headers the client sends. `Wf` holds in EVERY run: headers are unique
per xid, an `xid_rep` covers acknowledged calls only, and the entry of a
call that was started and is still outstanding is never erased.

At most once. `checkduplicate_and_update` recognises an old request by
the last element of the list only. A call that timed out at the client
while its handler is still running keeps its entry, so the list can hold
an old in-progress entry at its end while larger, completed ones are
erased; a late duplicate of one of those is then NEW a second time
(`late_duplicate_runs_twice`). If no request ever arrives with an
`xid_rep` that covers an entry in progress, there is a FLOOR per client:
every entry is above it and everything executed is at or below it or in
the list (`Floor`), and each handler runs at most once.

Forgotten calls. The same last element makes a live request FORGOTTEN
when a larger xid was dispatched first (`overtaken_call_is_forgotten`).
-/
import Yfs.Rpc.System

namespace Yfs.Rpc

open Run Function

/-! ## What holds in every run -/

structure Wf (s : Sys) : Prop where
  client : ∀ c, (s.clients c).Wf
  issued : ∀ h ∈ s.reqs, (s.clients h.cltNonce).calls h.xid ≠ .unused
  unique : ∀ h ∈ s.reqs, ∀ h' ∈ s.reqs, h.cltNonce = h'.cltNonce → h.xid = h'.xid → h = h'
  rep_lt : ∀ h ∈ s.reqs, h.xidRep < h.xid
  rep_acked : ∀ h ∈ s.reqs, ∀ x, 0 < x → x ≤ h.xidRep → (s.clients h.cltNonce).acked x
  replies : ∀ c r, (c, r) ∈ s.replies → (s.clients c).calls r.xid ≠ .unused
  running : ∀ h ∈ s.running, h ∈ s.reqs
  received : ∀ h ∈ s.received, h ∈ s.reqs
  bufs : ∀ c e b, e ∈ s.srv.replyWindow c → e.buf = some b →
    (s.clients c).calls b.xid ≠ .unused
  entries : ∀ c, ∀ e ∈ s.srv.replyWindow c, (c, e.xid) ∈ s.execs
  execs : ∀ c x, (c, x) ∈ s.execs → ∃ h ∈ s.received, h.cltNonce = c ∧ h.xid = x
  live : ∀ c x, c ≠ 0 → (c, x) ∈ s.execs → ¬ (s.clients c).acked x →
    ∃ e ∈ s.srv.replyWindow c, e.xid = x

theorem wf_init (nonce : Nat) (procs : List Nat) : Wf (Sys.init nonce procs) := by
  constructor <;> simp [Sys.init, Client.wf_new]

variable {s : Sys} {q : ReqHeader}

/-- A step of a client on its own calls. -/
theorem Wf.setClient (h : Wf s) {c : Nat} {cl : Client} (hwf : cl.Wf)
    (hgrow : (s.clients c).Grows cl) : Wf (s.setClient c cl) := by
  have hused : ∀ c' x, (s.clients c').calls x ≠ .unused →
      ((s.setClient c cl).clients c').calls x ≠ .unused := by
    intro c' x hx
    rcases eq_or_ne c' c with rfl | hne
    · simpa [Sys.setClient] using hgrow.used x hx
    · simpa [Sys.setClient, hne] using hx
  have hacked : ∀ c' x, (s.clients c').acked x → ((s.setClient c cl).clients c').acked x := by
    intro c' x hx
    rcases eq_or_ne c' c with rfl | hne
    · simpa [Sys.setClient] using hgrow.acked x hx
    · simpa [Sys.setClient, hne] using hx
  refine { h with
    client := fun c' => ?_
    issued := fun q hq => hused _ _ (h.issued q hq)
    rep_acked := fun q hq x h0 hx => hacked _ _ (h.rep_acked q hq x h0 hx)
    replies := fun c' r hr => hused _ _ (h.replies c' r hr)
    bufs := fun c' e b he hb => hused _ _ (h.bufs c' e b he hb)
    live := fun c' x h0 hx hna => h.live c' x h0 hx fun ha => hna (hacked c' x ha) }
  rcases eq_or_ne c' c with rfl | hne
  · simpa [Sys.setClient] using hwf
  · simpa [Sys.setClient, hne] using h.client c'

/-- A call that is let through: the header is new. -/
theorem Wf.call (h : Wf s) (c proc : Nat) (hlt : (s.clients c).xid + 1 < 2 ^ 32) :
    Wf { s.setClient c ((s.clients c).register proc) with
      reqs := (s.clients c).header c proc :: s.reqs } := by
  obtain ⟨hwf, hgrow⟩ := (h.client c).register hlt proc
  have hset := h.setClient hwf hgrow
  have hcl : (s.setClient c ((s.clients c).register proc)).clients c
      = (s.clients c).register proc := update_self _ _ _
  -- an xid of an earlier header was issued, the new one was not
  have hfresh : ∀ q ∈ s.reqs, q.cltNonce = c → q.xid ≠ (s.clients c).xid := by
    intro q hq hc hx
    have := (((h.client c).used_iff q.xid).mp (hc ▸ h.issued q hq)).2
    omega
  refine { hset with
    issued := fun q hq => ?_
    unique := fun q hq q' hq' hn hx => ?_
    rep_lt := fun q hq => ?_
    rep_acked := fun q hq x h0 hx => ?_
    running := fun q hq => List.mem_cons_of_mem _ (h.running q hq)
    received := fun q hq => List.mem_cons_of_mem _ (h.received q hq) }
  · rcases List.mem_cons.mp hq with rfl | hq
    · change ((s.setClient c ((s.clients c).register proc)).clients c).calls _ ≠ _
      rw [hcl]
      simp [Client.register, Client.header]
    · exact hset.issued q hq
  · rcases List.mem_cons.mp hq with rfl | hq <;> rcases List.mem_cons.mp hq' with rfl | hq'
    · rfl
    · exact absurd hx.symm (hfresh q' hq' hn.symm)
    · exact absurd hx (hfresh q hq hn)
    · exact h.unique q hq q' hq' hn hx
  · rcases List.mem_cons.mp hq with rfl | hq
    · exact (h.client c).front_lt
    · exact h.rep_lt q hq
  · rcases List.mem_cons.mp hq with rfl | hq
    · change ((s.setClient c ((s.clients c).register proc)).clients c).acked x
      rw [hcl]
      exact hgrow.acked x ((h.client c).window.acked_upto x h0 hx)
    · exact hset.rep_acked q hq x h0 hx

/-- A completed handler: `add_reply` and `send`. -/
theorem Wf.complete (h : Wf s) (hq : q ∈ s.running) (ret : Int) (body : List UInt8) :
    Wf { s with
      srv := s.srv.complete q ⟨q.xid, ret, body⟩
      running := s.running.erase q
      replies := (q.cltNonce, ⟨q.xid, ret, body⟩) :: s.replies } := by
  have hiss := h.issued q (h.running q hq)
  -- the lists keep their xids; a buffer is an old one or the new reply
  have hmem : ∀ c, ∀ e ∈ (s.srv.complete q ⟨q.xid, ret, body⟩).replyWindow c,
      (∃ e₀ ∈ s.srv.replyWindow c, e₀.xid = e.xid) ∧
      ∀ b, e.buf = some b → (s.clients c).calls b.xid ≠ .unused := by
    intro c e he
    simp only [Server.complete] at he
    split at he
    · rcases eq_or_ne c q.cltNonce with rfl | hne
      · simp only [update_self] at he
        rcases mem_addReply he with he | ⟨e₀, he₀, _, rfl⟩
        · exact ⟨⟨e, he, rfl⟩, fun b hb => h.bufs _ e b he hb⟩
        · refine ⟨⟨e₀, he₀, rfl⟩, fun b hb => ?_⟩
          obtain rfl : _ = b := Option.some.inj hb
          exact hiss
      · simp only [update_of_ne hne] at he
        exact ⟨⟨e, he, rfl⟩, fun b hb => h.bufs _ e b he hb⟩
    · exact ⟨⟨e, he, rfl⟩, fun b hb => h.bufs _ e b he hb⟩
  have hxids : ∀ c x, (∃ e ∈ s.srv.replyWindow c, e.xid = x) →
      ∃ e ∈ (s.srv.complete q ⟨q.xid, ret, body⟩).replyWindow c, e.xid = x := by
    intro c x hx
    have hin : x ∈ ((s.srv.complete q ⟨q.xid, ret, body⟩).replyWindow c).map (·.xid) := by
      rw [complete_map_xid]
      simpa using hx
    simpa using hin
  refine { h with
    replies := fun c r hr => ?_
    running := fun p hp => h.running p (List.mem_of_mem_erase hp)
    bufs := fun c e b he hb => (hmem c e he).2 b hb
    entries := fun c e he => ?_
    live := fun c x h0 hx hna => hxids c x (h.live c x h0 hx hna) }
  · rcases List.mem_cons.mp hr with hr | hr
    · obtain ⟨rfl, rfl⟩ := Prod.mk.inj hr
      exact hiss
    · exact h.replies c r hr
  · obtain ⟨e₀, he₀, hx⟩ := (hmem c e he).1
    exact hx ▸ h.entries c e₀ he₀

/-- A request that `dispatch` answers without looking at the lists. -/
theorem Wf.oldsrv (h : Wf s) (hq : q ∈ s.reqs) :
    Wf (s.afterDispatch q (.send ⟨q.xid, oldsrvFailure, []⟩) s.srv) := by
  refine { h with
    replies := fun c r hr => ?_
    received := fun p hp => ?_
    execs := fun c x hx => ?_ }
  · rcases List.mem_cons.mp hr with hr | hr
    · obtain ⟨rfl, rfl⟩ := Prod.mk.inj hr
      exact h.issued q hq
    · exact h.replies c r hr
  · rcases List.mem_cons.mp hp with rfl | hp
    · exact hq
    · exact h.received p hp
  · obtain ⟨p, hp, hpx⟩ := h.execs c x (by simpa [Sys.afterDispatch] using hx)
    exact ⟨p, List.mem_cons_of_mem _ hp, hpx⟩

/-- A request that goes through `checkduplicate_and_update`. -/
theorem Wf.classified (h : Wf s) (hq : q ∈ s.reqs) :
    Wf (s.afterDispatch q (s.srv.action q) { s.srv with replyWindow := s.srv.remember q }) := by
  have hexec : ∀ p, p ∈ (s.afterDispatch q (s.srv.action q)
      { s.srv with replyWindow := s.srv.remember q }).execs ↔
      p ∈ s.execs ∨ (s.srv.action q = .run ∧ p = (q.cltNonce, q.xid)) := by
    intro p
    by_cases hrun : s.srv.action q = .run <;> simp [Sys.afterDispatch, hrun, or_comm]
  refine { h with
    replies := fun c r hr => ?_
    running := fun p hp => ?_
    received := fun p hp => ?_
    bufs := fun c e b he hb => ?_
    entries := fun c e he => (hexec _).mpr ?_
    execs := fun c x hx => ?_
    live := fun c x h0 hx hna => ?_ }
  · cases hact : s.srv.action q with
    | send r' =>
      simp only [Sys.afterDispatch, hact, List.mem_cons] at hr
      rcases hr with hr | hr
      · obtain ⟨rfl, rfl⟩ := Prod.mk.inj hr
        rcases action_send hact with hx | ⟨e, he, hb⟩
        · rw [hx]
          exact h.issued q hq
        · exact h.bufs _ e _ he hb
      · exact h.replies c r hr
    | run | nothing | abort => exact h.replies c r (by simpa [Sys.afterDispatch, hact] using hr)
  · have hp' : p = q ∨ p ∈ s.running := by
      simp only [Sys.afterDispatch] at hp
      split at hp
      · simpa using hp
      · exact .inr hp
    rcases hp' with rfl | hp'
    · exact hq
    · exact h.running p hp'
  · rcases List.mem_cons.mp hp with rfl | hp
    · exact hq
    · exact h.received p hp
  · rcases mem_remember he with he | ⟨_, _, rfl⟩
    · exact h.bufs c e b he hb
    · simp [ReplyT.new] at hb
  · rcases mem_remember he with he | ⟨rfl, hrun, rfl⟩
    · exact .inl (h.entries c e he)
    · exact .inr ⟨hrun, rfl⟩
  · rcases (hexec _).mp hx with hx | ⟨_, hx⟩
    · obtain ⟨p, hp, hpx⟩ := h.execs c x hx
      exact ⟨p, List.mem_cons_of_mem _ hp, hpx⟩
    · obtain ⟨rfl, rfl⟩ := Prod.mk.inj hx
      exact ⟨q, by simp [Sys.afterDispatch], rfl, rfl⟩
  · rcases (hexec _).mp hx with hx | ⟨hrun, hx⟩
    · -- an entry that left was at most `xid_rep`, so its call is acknowledged
      obtain ⟨e, he, rfl⟩ := h.live c x h0 hx hna
      by_contra hn
      obtain ⟨rfl, hle, _⟩ := remember_gone he fun hin => hn ⟨e, hin, rfl⟩
      obtain ⟨p, hp, hpc, hpx⟩ := h.execs _ _ (h.entries _ e he)
      have hiss := h.issued p (h.received p hp)
      rw [hpc, hpx] at hiss
      exact hna (h.rep_acked q hq e.xid (((h.client _).used_iff _).mp hiss).1 hle)
    · obtain ⟨rfl, rfl⟩ := Prod.mk.inj hx
      exact ⟨_, (remember_run h0 hrun).2.1, rfl⟩

/-- Everything `dispatch` can do to the state. -/
theorem step_dispatch {s' : Sys} (hs : step s (.dispatch q) = some s') :
    q ∈ s.reqs ∧ (s' = s.afterDispatch q (.send ⟨q.xid, oldsrvFailure, []⟩) s.srv ∨
      s' = s.afterDispatch q (s.srv.action q)
        { s.srv with replyWindow := s.srv.remember q }) := by
  obtain ⟨hq, hs⟩ := Option.ite_none_right_eq_some.mp hs
  refine ⟨hq, ?_⟩
  split at hs
  · simp at hs
  · rename_i hna
    cases hs
    unfold Server.dispatch at hna ⊢
    by_cases hold : q.srvNonce ≠ 0 ∧ q.srvNonce ≠ s.srv.nonce
    · exact .inl (by simp [hold])
    · by_cases hproc : q.proc ∉ s.srv.procs
      · exact absurd (by simp [if_neg hold, hproc]) hna
      · exact .inr (by rw [if_neg hold, if_neg hproc])

theorem wf_step {s' : Sys} {e : Event} (h : Wf s) (hleft : XidsLeft s e) (hs : step s e = some s') :
    Wf s' := by
  cases e with
  | call c proc =>
    simp only [step] at hs
    split at hs
    · cases hs
      exact h
    · cases hs
      exact h.call c proc hleft
  | dispatch q =>
    obtain ⟨hq, rfl | rfl⟩ := step_dispatch hs
    · exact h.oldsrv hq
    · exact h.classified hq
  | complete q ret body =>
    obtain ⟨hq, rfl⟩ := Run.of_guard hs
    exact h.complete hq.1 ret body
  | gotPdu c r =>
    obtain ⟨hr, rfl⟩ := Run.of_guard hs
    obtain ⟨hwf, hgrow⟩ := (h.client c).gotPdu (h.replies c r hr)
    exact h.setClient hwf hgrow
  | ret c x =>
    simp only [step] at hs
    split at hs
    · rename_i cl hret
      cases hs
      obtain ⟨hwf, hgrow⟩ := (h.client c).ret hret
      exact h.setClient hwf hgrow
    · simp at hs
  | cancel c =>
    cases hs
    obtain ⟨hwf, hgrow⟩ := (h.client c).cancel
    exact h.setClient hwf hgrow

theorem reach_wf {nonce : Nat} {procs : List Nat}
    (h : Reach step XidsLeft (Sys.init nonce procs) s) : Wf s :=
  h.invariant Wf (wf_init nonce procs) fun _ _ _ hi hleft hs => wf_step hi hleft hs

/-! ## At most once -/

/-- Each `(clt_nonce, xid)` of an at-most-once client has been executed at
most once. -/
def AtMostOnce (s : Sys) : Prop := ∀ c x, c ≠ 0 → s.execs.count (c, x) ≤ 1

/-- A request is dispatched only when no entry its `xid_rep` covers is
still in progress. -/
def CoversCompletedOnly (s : Sys) : Event → Prop
  | .dispatch h => h.cltNonce ≠ 0 →
      ∀ e ∈ s.srv.replyWindow h.cltNonce, e.xid ≤ h.xidRep → e.cbPresent = true
  | _ => True

instance (s : Sys) (e : Event) : Decidable (CoversCompletedOnly s e) := by
  rcases e <;> unfold CoversCompletedOnly <;> infer_instance

/-- `R` separates what client `c` may still have in the server's list `w`
from what is gone. -/
structure Floor (reqs : List ReqHeader) (c : Nat) (w : List ReplyT) (execs : List (Nat × Nat))
    (R : Nat) : Prop where
  above : ∀ e ∈ w, R < e.xid
  execd : ∀ x, (c, x) ∈ execs → x ≤ R ∨ ∃ e ∈ w, e.xid = x
  reps : ∀ h ∈ reqs, h.cltNonce = c → (∃ e ∈ w, e.xid = h.xid) → h.xidRep ≤ R
  fresh : w = [] → R = 0
  once : ∀ x, execs.count (c, x) ≤ 1

section Floor

variable {reqs : List ReqHeader} {c : Nat} {w : List ReplyT} {execs : List (Nat × Nat)} {R : Nat}

/-- What the floor says depends on the xids of the list and on the
client's own executions only. -/
theorem Floor.congr {reqs' : List ReqHeader} {w' : List ReplyT} {execs' : List (Nat × Nat)}
    (h : Floor reqs c w execs R) (hwin : w'.map (·.xid) = w.map (·.xid))
    (hreqs : ∀ q ∈ reqs', q.cltNonce = c → (∃ e ∈ w, e.xid = q.xid) → q ∈ reqs)
    (hexec : ∀ x, execs'.count (c, x) = execs.count (c, x)) : Floor reqs' c w' execs' R := by
  have hmem : ∀ x, (∃ e ∈ w', e.xid = x) ↔ ∃ e ∈ w, e.xid = x := by
    intro x
    have : x ∈ w'.map (·.xid) ↔ x ∈ w.map (·.xid) := by rw [hwin]
    simpa using this
  refine ⟨fun e he => ?_, fun x hx => ?_, fun q hq hc hin => ?_, fun hnil => ?_,
    fun x => (hexec x).le.trans (h.once x)⟩
  · obtain ⟨e₀, he₀, hx⟩ := (hmem e.xid).mp ⟨e, he, rfl⟩
    exact hx ▸ h.above e₀ he₀
  · rw [← List.count_pos_iff, hexec, List.count_pos_iff] at hx
    exact (h.execd x hx).imp_right (hmem x).mpr
  · have hin' := (hmem q.xid).mp hin
    exact h.reps q (hreqs q hq hc hin') hc hin'
  · rw [hnil, List.map_nil] at hwin
    exact h.fresh (List.map_eq_nil_iff.mp hwin.symm)

variable {xid xidRep : Nat}

/-- With nothing in progress at or below `xid_rep`, the survivors are
above it. -/
theorem lt_of_mem_survivors {e : ReplyT} (hok : ∀ e ∈ w, e.xid ≤ xidRep → e.cbPresent = true)
    (he : e ∈ survivors w xidRep) : e ∈ w ∧ xidRep < e.xid := by
  obtain ⟨hin, hcb⟩ := mem_survivors.mp he
  refine ⟨hin, Nat.lt_of_not_le fun hle => ?_⟩
  rw [hok e hin hle] at hcb
  simp at hcb
  omega

/-- Above the floor and above `xid_rep` nothing is lost. -/
theorem Floor.survives (h : Floor reqs c w execs R) {x : Nat} (hx : (c, x) ∈ execs) :
    x ≤ max R xidRep ∨ ∃ e ∈ survivors w xidRep, e.xid = x := by
  rcases h.execd x hx with hle | ⟨e, he, rfl⟩
  · exact .inl (by omega)
  · rcases Nat.lt_or_ge xidRep e.xid with hlt | hge
    · exact .inr ⟨e, mem_survivors.mpr ⟨he, fun hle => by omega⟩, rfl⟩
    · exact .inl (by omega)

/-- A known xid: its `xid_rep` was received before, so nothing is erased. -/
theorem Floor.known {w' : List ReplyT} {e : ReplyT} (h : Floor reqs c w execs R)
    (hrep : xidRep ≤ R) (he : e ∈ w') (hsub : w'.Sublist w)
    (hgone : ∀ e' ∈ w, e' ∉ w' → e'.xid ≤ xidRep) : Floor reqs c w' execs R := by
  have hkeep : ∀ e' ∈ w, e' ∈ w' := by
    intro e' he'
    by_contra hn
    have habove := h.above e' he'
    have := hgone e' he' hn
    omega
  refine ⟨fun e' he' => h.above e' (hsub.subset he'), fun x hx => ?_, fun p hp hpc hin => ?_,
    fun hnil => ?_, h.once⟩
  · exact (h.execd x hx).imp_right fun ⟨e', he', hex⟩ => ⟨e', hkeep e' he', hex⟩
  · obtain ⟨e', he', hex⟩ := hin
    exact h.reps p hp hpc ⟨e', hsub.subset he', hex⟩
  · simp [hnil] at he

/-- A FORGOTTEN request raises the floor to its `xid_rep`. -/
theorem Floor.forgotten (h : Floor reqs c w execs R)
    (hok : ∀ e ∈ w, e.xid ≤ xidRep → e.cbPresent = true) (hne : survivors w xidRep ≠ []) :
    Floor reqs c (survivors w xidRep) execs (max R xidRep) := by
  refine ⟨fun e' he' => ?_, fun x hx => h.survives hx, fun p hp hpc hin => ?_,
    fun hnil => absurd hnil hne, h.once⟩
  · obtain ⟨hin, hlt⟩ := lt_of_mem_survivors hok he'
    have := h.above e' hin
    omega
  · obtain ⟨e', he', hex⟩ := hin
    have := h.reps p hp hpc ⟨e', (mem_survivors.mp he').1, hex⟩
    omega

/-- A NEW xid is above the floor: an xid at or below it would have found
the whole list above itself, the last entry included. -/
theorem Floor.lt_of_new (h : Floor reqs c w execs R) (hlt : xidRep < xid)
    (hlast : ∀ last, (survivors w xidRep).getLast? = some last → last.xid < xid) : R < xid := by
  by_contra hle
  cases hsv : (survivors w xidRep).getLast? with
  | none =>
    have hnil : w = [] := by
      refine List.eq_nil_iff_forall_not_mem.mpr fun e he => ?_
      have habove := h.above e he
      have hin : e ∈ survivors w xidRep := mem_survivors.mpr ⟨he, fun hx => by omega⟩
      rw [List.getLast?_eq_none_iff.mp hsv] at hin
      simp at hin
    have := h.fresh hnil
    omega
  | some last =>
    have habove := h.above last (mem_survivors.mp (List.mem_of_getLast? hsv)).1
    have := hlast last hsv
    omega

/-- A NEW request is executed for the first time, and the floor rises to
its `xid_rep`. -/
theorem Floor.new (h : Floor reqs c w execs R) (hlt : xidRep < xid)
    (hok : ∀ e ∈ w, e.xid ≤ xidRep → e.cbPresent = true) (hne : ∀ e ∈ w, e.xid ≠ xid)
    (hlast : ∀ last, (survivors w xidRep).getLast? = some last → last.xid < xid)
    (huniq : ∀ p ∈ reqs, p.cltNonce = c → p.xid = xid → p.xidRep = xidRep) :
    Floor reqs c (insertReply (survivors w xidRep) xid) ((c, xid) :: execs) (max R xidRep) := by
  have hR := h.lt_of_new hlt hlast
  have hnot : (c, xid) ∉ execs := fun hin => by
    rcases h.execd xid hin with hle | ⟨e, he, hx⟩
    · omega
    · exact hne e he hx
  have hnew : ReplyT.new xid ∈ insertReply (survivors w xidRep) xid :=
    mem_insertReply.mpr (.inl rfl)
  refine ⟨fun e' he' => ?_, fun x hx => ?_, fun p hp hpc hin => ?_, fun hnil => ?_, fun x => ?_⟩
  · rcases mem_insertReply.mp he' with rfl | he'
    · simp only [ReplyT.new]
      omega
    · obtain ⟨hin, hgt⟩ := lt_of_mem_survivors hok he'
      have := h.above e' hin
      omega
  · rcases List.mem_cons.mp hx with hx | hx
    · obtain rfl := (Prod.mk.inj hx).2
      exact .inr ⟨_, hnew, rfl⟩
    · exact (h.survives hx).imp_right fun ⟨e', he', hex⟩ =>
        ⟨e', mem_insertReply.mpr (.inr he'), hex⟩
  · obtain ⟨e', he', hex⟩ := hin
    rcases mem_insertReply.mp he' with rfl | he'
    · have := huniq p hp hpc hex.symm
      omega
    · have := h.reps p hp hpc ⟨e', (mem_survivors.mp he').1, hex⟩
      omega
  · simp [hnil] at hnew
  · rw [List.count_cons]
    rcases eq_or_ne x xid with rfl | hx
    · simp [List.count_eq_zero_of_not_mem hnot]
    · simpa [Ne.symm hx] using h.once x

end Floor

def Floors (s : Sys) : Prop :=
  ∀ c, c ≠ 0 → ∃ R, Floor s.reqs c (s.srv.replyWindow c) s.execs R

theorem Floors.atMostOnce (h : Floors s) : AtMostOnce s := fun c x h0 =>
  let ⟨_, hR⟩ := h c h0
  hR.once x

theorem floors_init (nonce : Nat) (procs : List Nat) : Floors (Sys.init nonce procs) := by
  intro c _
  refine ⟨0, ?_⟩
  constructor <;> simp [Sys.init]

/-- The dispatch of a request that goes through
`checkduplicate_and_update`. -/
theorem Floors.classified (hwf : Wf s) (hq : q ∈ s.reqs) (h : Floors s)
    (hok : CoversCompletedOnly s (.dispatch q)) :
    Floors (s.afterDispatch q (s.srv.action q)
      { s.srv with replyWindow := s.srv.remember q }) := by
  intro c hc
  obtain ⟨R, hR⟩ := h c hc
  rcases eq_or_ne c q.cltNonce with rfl | hne
  · change ∃ R', Floor s.reqs q.cltNonce (s.srv.remember q q.cltNonce)
      (if s.srv.action q = .run then (q.cltNonce, q.xid) :: s.execs else s.execs) R'
    rw [Server.remember, if_neg hc, update_self]
    have hclass : s.srv.classify q
        = (checkduplicateAndUpdate (s.srv.replyWindow q.cltNonce) q.xid q.xidRep).1 := by
      rw [Server.classify, if_neg hc]
    obtain ⟨e, w', he, hx, hew', hsub, hgone, heq⟩ | ⟨_, ⟨last, hlast, _⟩, heq⟩ |
        ⟨hne, hlast, heq⟩ :=
      checkduplicate_cases (s.srv.replyWindow q.cltNonce) q.xid q.xidRep
    · have hact : s.srv.action q ≠ .run := by
        rw [Server.action, hclass, heq]
        cases hcb : e.cbPresent <;> cases hb : e.buf <;> simp
      rw [if_neg hact, heq]
      exact ⟨R, hR.known (hR.reps q hq rfl ⟨e, he, hx⟩) hew' hsub
        fun e' he' hn => (hgone e' he' hn).1⟩
    · have hact : s.srv.action q ≠ .run := by simp [Server.action, hclass, heq]
      rw [if_neg hact, heq]
      exact ⟨_, hR.forgotten (hok hc) fun hnil => by simp [hnil] at hlast⟩
    · have hact : s.srv.action q = .run := by simp [Server.action, hclass, heq]
      rw [if_pos hact, heq]
      refine ⟨_, hR.new (hwf.rep_lt q hq) (hok hc) hne hlast fun p hp hpc hpx => ?_⟩
      rw [hwf.unique p hp q hq hpc hpx]
  · -- another client: its list and its executions are untouched
    have hwin : s.srv.remember q c = s.srv.replyWindow c := by
      rw [Server.remember]
      split
      · rfl
      · exact update_of_ne hne _ _
    refine ⟨R, hR.congr (congrArg (List.map (·.xid)) hwin) (fun _ hp _ _ => hp) fun x => ?_⟩
    simp only [Sys.afterDispatch]
    split
    · simp [Ne.symm hne]
    · rfl

theorem floors_step {s' : Sys} {e : Event} (hwf : Wf s) (h : Floors s)
    (hok : CoversCompletedOnly s e) (hs : step s e = some s') : Floors s' := by
  cases e with
  | call c proc =>
    simp only [step] at hs
    split at hs
    · cases hs
      exact h
    · cases hs
      intro c' hc'
      obtain ⟨R, hR⟩ := h c' hc'
      refine ⟨R, hR.congr rfl (fun q hq hqc hin => ?_) fun _ => rfl⟩
      rcases List.mem_cons.mp hq with rfl | hq
      · -- the new xid is in no list: entries are of issued requests
        obtain ⟨e, he, hx⟩ := hin
        obtain ⟨p, hp, hpc, hpx⟩ := hwf.execs _ _ (hwf.entries c' e he)
        have hiss := hwf.issued p (hwf.received p hp)
        obtain rfl : c = c' := hqc
        rw [hpc, hpx, hx] at hiss
        have := (((hwf.client c).used_iff _).mp hiss).2
        exact absurd this (lt_irrefl _)
      · exact hq
  | dispatch q =>
    obtain ⟨hq, rfl | rfl⟩ := step_dispatch hs
    · exact h
    · exact h.classified hwf hq hok
  | complete q ret body =>
    obtain ⟨_, rfl⟩ := Run.of_guard hs
    intro c hc
    obtain ⟨R, hR⟩ := h c hc
    exact ⟨R, hR.congr (complete_map_xid _ _ _ c) (fun _ hq _ _ => hq) fun _ => rfl⟩
  | gotPdu c r =>
    simp only [step] at hs
    split at hs
    · cases hs
      exact h
    · simp at hs
  | ret c x =>
    simp only [step] at hs
    split at hs
    · cases hs
      exact h
    · simp at hs
  | cancel c =>
    cases hs
    exact h

/-- Headers of client 7, which calls `bind` before it is bound. -/
def hdr (xid xidRep : Nat) : ReqHeader :=
  { xid := xid, proc := bindProc, cltNonce := 7, srvNonce := 0, xidRep := xidRep }

/-- The last entry that the request would leave in the list, if there is
one, has a smaller xid. -/
def LastIsSmaller (s : Sys) (h : ReqHeader) : Prop :=
  ∀ last, (survivors (s.srv.replyWindow h.cltNonce) h.xidRep).getLast? = some last →
    last.xid < h.xid

/-- How `checkduplicate_and_update` classifies, by the list alone. -/
theorem classify_of_known {h : ReqHeader} (h0 : h.cltNonce ≠ 0)
    (hin : ∃ e ∈ s.srv.replyWindow h.cltNonce, e.xid = h.xid) :
    s.srv.classify h ≠ .FORGOTTEN ∧ s.srv.classify h ≠ .NEW := by
  rw [Server.classify, if_neg h0]
  obtain ⟨e, he, hx⟩ := hin
  obtain ⟨e', _, _, _, _, _, _, heq⟩ | ⟨hne, _⟩ | ⟨hne, _⟩ :=
    checkduplicate_cases (s.srv.replyWindow h.cltNonce) h.xid h.xidRep
  · rw [heq]
    cases e'.cbPresent <;> simp
  · exact absurd hx (hne e he)
  · exact absurd hx (hne e he)

theorem classify_of_unknown {h : ReqHeader} (h0 : h.cltNonce ≠ 0)
    (hout : ∀ e ∈ s.srv.replyWindow h.cltNonce, e.xid ≠ h.xid) :
    (LastIsSmaller s h → s.srv.classify h = .NEW) ∧
      (¬ LastIsSmaller s h → s.srv.classify h = .FORGOTTEN) := by
  rw [Server.classify, if_neg h0]
  obtain ⟨e, _, he, hx, _⟩ | ⟨_, ⟨last, hlast, hgt⟩, heq⟩ | ⟨_, hlast, heq⟩ :=
    checkduplicate_cases (s.srv.replyWindow h.cltNonce) h.xid h.xidRep
  · exact absurd hx (hout e he)
  · refine ⟨fun hsm => ?_, fun _ => by rw [heq]⟩
    have := hsm last hlast
    omega
  · exact ⟨fun _ => by rw [heq], fun hn => absurd hlast hn⟩

end Yfs.Rpc
