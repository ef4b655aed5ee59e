/-
Yfs.Rpc.References — the references on the server's connections
(rpc/rpc.cc: `rpcs::got_pdu`, `rpcs::dispatch`; rpc/connection.cc).

A connection counts who refers to it in `refno_` and is deleted when it is
dead and nobody does. Its owner is the listener (`tcpsconn`), which lets go of
it when it is dead and has no other reference. `got_pdu` takes a reference
for a job, in the poll thread; `dispatch` drops it, in a thread of the pool.
`conns_` has the newest connection of each client and a reference for it, and
`dispatch` moves over to that connection when its own is dead.

Threads come in between wherever no mutex is held: after `addObjJob`, and in
`dispatch` around the check of the request, the handler, and `send`. What a
check says is left open, and so is when a connection dies.

`refs_balance_iff`: in every state of a run the count of a connection is the
number of its owner, jobs and entries of `conns_`, exactly as long as no step
is one of three. A request for an old instance of the server is answered
without dropping the job's reference. A server that is made unreachable just
after a job was added drops the job's reference a second time. And a request
without at-most-once whose connection is dead by the time of the reply looks
for a newer one in `conns_`, where there is none.
-/
import Yfs.Lib.Refs
import Yfs.Rpc.System

namespace Yfs.Rpc.References

open Function
open Yfs.Refs (Balanced countAt)
open Yfs.Run (Always EveryStep exec always_iff_everyStep)

/-! ## Connections -/

abbrev ConnId := Nat

structure Conn where
  refno : Nat
  dead : Bool
  created : Nat
  deriving DecidableEq, Repr

abbrev Heap := ConnId → Option Conn

/-- How the process ends: a VERIFY of `dispatch`, VERIFY(refno_>=0), the use
of a deleted connection or of NULL. -/
inductive Crash where
  | verify
  | refno
  | freed
  | null
  deriving DecidableEq, Repr

def deref (heap : Heap) (c : ConnId) : Except Crash Conn :=
  match heap c with
  | some k => .ok k
  | none => .error .freed

def incref (heap : Heap) (c : ConnId) : Except Crash Heap := do
  let k ← deref heap c
  return update heap c (some { k with refno := k.refno + 1 })

def decref (heap : Heap) (c : ConnId) : Except Crash Heap := do
  let k ← deref heap c
  if k.refno = 0 then throw .refno
  else if k.refno = 1 ∧ k.dead = true then return update heap c none
  else return update heap c (some { k with refno := k.refno - 1 })

/-! ## The server -/

/-- Where a job is in `dispatch`: before the header is read, before the
check, in the handler, before `send` and the last `decref`. -/
inductive Pc where
  | start
  | check
  | handler
  | finish
  deriving DecidableEq, Repr

/-- `djob_t`, and `dispatch` with it. No header if it cannot be unpacked. -/
structure Job where
  conn : ConnId
  req : Option ReqHeader
  pc : Pc
  deriving DecidableEq, Repr

structure Server where
  nonce : Nat
  procs : List Nat
  reachable : Bool
  heap : Heap
  /-- `tcpsconn::conns_`. -/
  owned : List ConnId
  /-- `rpcs::conns_`. -/
  conns : List (Nat × ConnId)
  queue : List Job
  running : List Job
  /-- `got_pdu` after `addObjJob`, and what this returned. -/
  adding : Option (ConnId × Bool)
  crash : Option Crash

def Server.init (nonce : Nat) (procs : List Nat) : Server :=
  { nonce := nonce, procs := procs, reachable := true, heap := fun _ => none, owned := []
    conns := [], queue := [], running := [], adding := none, crash := none }

def maxJobs : Nat := 600

inductive Event where
  -- the listener: a connection at any free address, garbage collection, the end
  | accept (c : ConnId) (created : Nat)
  | collect (c : ConnId)
  | close (c : ConnId)
  | die (c : ConnId)
  | setReachable (b : Bool)
  -- the poll thread
  | gotPdu (c : ConnId) (req : Option ReqHeader)
  | gotPduEnd
  -- the pool: a job is taken, and the steps of the `i`-th one in `dispatch`
  | take
  | header (i : Nat)
  | check (i : Nat) (stat : RpcState)
  | abort (i : Nat)
  | answer (i : Nat)
  | finish (i : Nat)
  deriving DecidableEq, Repr

namespace Server

def old (s : Server) (h : ReqHeader) : Prop := h.srvNonce ≠ 0 ∧ h.srvNonce ≠ s.nonce

instance (s : Server) (h : ReqHeader) : Decidable (s.old h) := inferInstanceAs (Decidable (_ ∧ _))

def setJob (s : Server) (i : Nat) (j : Job) : Server := { s with running := s.running.set i j }

def endJob (s : Server) (i : Nat) : Server := { s with running := s.running.eraseIdx i }

def gotPdu (s : Server) (c : ConnId) (req : Option ReqHeader) : Except Crash Server := do
  if s.reachable then
    let heap ← incref s.heap c
    if s.queue.length < maxJobs then
      return { s with
        heap := heap, queue := s.queue ++ [⟨c, req, .start⟩], adding := some (c, true) }
    else return { s with heap := heap, adding := some (c, false) }
  else return s

def gotPduEnd (s : Server) (c : ConnId) (succ : Bool) : Except Crash Server := do
  if succ = false ∨ s.reachable = false then
    let heap ← decref s.heap c
    return { s with heap := heap, adding := none }
  else return { s with adding := none }

def saveConn (s : Server) (n : Nat) (c : ConnId) : Except Crash Server := do
  match s.conns.lookup n with
  | none =>
    let heap ← incref s.heap c
    return { s with heap := heap, conns := (n, c) :: s.conns }
  | some c' =>
    let k' ← deref s.heap c'
    let k ← deref s.heap c
    -- `conns_[h.clt_nonce]->compare(c) < 0`
    if k'.created < k.created then
      let heap ← decref s.heap c'
      let heap ← incref heap c
      return { s with heap := heap, conns := (n, c) :: s.conns.eraseP fun e => e.1 == n }
    else return s

/-- `dispatch`, up to the check or the handler. -/
def header (s : Server) (i : Nat) (j : Job) : Except Crash Server := do
  match j.req with
  | none =>
    let heap ← decref s.heap j.conn
    return { s with heap := heap }.endJob i
  | some h =>
    if s.old h then return s.endJob i
    else if h.proc ∉ s.procs then
      let heap ← decref s.heap j.conn
      return { { s with heap := heap }.endJob i with crash := some .verify }
    else if h.cltNonce = 0 then return s.setJob i { j with pc := .handler }
    else
      let s ← s.saveConn h.cltNonce j.conn
      return s.setJob i { j with pc := .check }

def answer (s : Server) (i : Nat) (j : Job) (h : ReqHeader) : Except Crash Server := do
  let k ← deref s.heap j.conn
  if k.dead = true ∧ s.conns.lookup h.cltNonce ≠ some j.conn then
    let heap ← decref s.heap j.conn
    match s.conns.lookup h.cltNonce with
    | none => throw .null
    | some c =>
      let heap ← incref heap c
      return { s with heap := heap }.setJob i { j with conn := c, pc := .finish }
  else return s.setJob i { j with pc := .finish }

def finish (s : Server) (i : Nat) (j : Job) : Except Crash Server := do
  let heap ← decref s.heap j.conn
  return { s with heap := heap }.endJob i

def drop (s : Server) (c : ConnId) : Except Crash Server := do
  let heap ← decref s.heap c
  return { s with heap := heap, owned := s.owned.erase c }

def job (s : Server) (i : Nat) (pc : Pc) : Option Job :=
  s.running[i]?.filter fun j => j.pc = pc

def kill (s : Server) (c : ConnId) : Server :=
  { s with heap := update s.heap c ((s.heap c).map fun k => { k with dead := true }) }

def act (s : Server) : Event → Option (Except Crash Server)
  | .accept c created =>
    if s.heap c = none then some (.ok { s with
        heap := update s.heap c (some ⟨1, false, created⟩), owned := c :: s.owned })
    else none
  | .collect c =>
    if c ∈ s.owned ∧ (s.heap c).any (fun k => k.dead && k.refno == 1) = true then some (s.drop c)
    else none
  | .close c => if c ∈ s.owned then some ((s.kill c).drop c) else none
  | .die c => some (.ok (s.kill c))
  | .setReachable b => some (.ok { s with reachable := b })
  | .gotPdu c req => if c ∈ s.owned ∧ s.adding = none then some (s.gotPdu c req) else none
  | .gotPduEnd => s.adding.map fun a => s.gotPduEnd a.1 a.2
  | .take =>
    match s.queue with
    | [] => none
    | j :: rest => some (.ok { s with queue := rest, running := j :: s.running })
  | .header i => (s.job i .start).map (s.header i)
  | .check i stat => (s.job i .check).map fun j =>
      .ok (s.setJob i { j with pc := if stat = .NEW then .handler else .finish })
  -- VERIFY(0), VERIFY(rh.ret >= 0)
  | .abort i => (s.job i .handler).map fun _ => .ok { s with crash := some .verify }
  | .answer i => (s.job i .handler).bind fun j => j.req.map (s.answer i j)
  | .finish i => (s.job i .finish).map (s.finish i)

def step (s : Server) (e : Event) : Option Server :=
  if s.crash ≠ none then none
  else (s.act e).map fun
    | .ok s' => s'
    | .error x => { s with crash := some x }

/-! ## The balance -/

def refused : Option (ConnId × Bool) → List ConnId
  | some (c, false) => [c]
  | _ => []

def jobs (s : Server) : List ConnId :=
  refused s.adding ++ s.queue.map Job.conn ++ s.running.map Job.conn

def stored (s : Server) : List ConnId := s.conns.map Prod.snd

/-- `refno_` is the owner, the jobs and the entries of `conns_`; a connection
that has been deleted counts as 0, so nothing refers to it. The process has
not ended for want of a reference. -/
def Balance (s : Server) : Prop :=
  (∀ c, countAt Conn.refno s.heap c = s.owned.count c + s.jobs.count c + s.stored.count c) ∧
  (s.crash = none ∨ s.crash = some .verify)

/-- No request for an old instance, no job that was added when the server
became unreachable, and no dead connection without at-most-once. -/
def Clean (s : Server) : Event → Prop
  | .header i => ∀ j ∈ s.job i .start, ∀ h ∈ j.req, ¬ s.old h
  | .gotPduEnd => ∀ a ∈ s.adding, a.2 = true → s.reachable = true
  | .answer i => ∀ j ∈ s.job i .handler, ∀ h ∈ j.req, h.cltNonce = 0 →
      (s.heap j.conn).all (fun k => !k.dead) = true
  | _ => True

instance (s : Server) (e : Event) : Decidable (s.Clean e) := by
  rcases e <;> unfold Clean <;> infer_instance

end Server

/-! ## Taking and dropping references -/

section Counts

variable {heap : Heap} {refs : List ConnId} {c : ConnId}

theorem deref_of_mem (hb : Balanced Conn.refno heap refs) (hc : c ∈ refs) :
    ∃ k, heap c = some k ∧ deref heap c = .ok k := by
  obtain ⟨k, hk, _⟩ := hb.exists_of_mem hc
  exact ⟨k, hk, by simp [deref, hk]⟩

theorem incref_balanced (hb : Balanced Conn.refno heap refs) (hc : c ∈ refs) :
    ∃ heap', incref heap c = .ok heap' ∧ Balanced Conn.refno heap' (c :: refs) := by
  obtain ⟨k, hk, hderef⟩ := deref_of_mem hb hc
  refine ⟨update heap c (some { k with refno := k.refno + 1 }), ?_, ?_⟩
  · simp only [incref, hderef]
    rfl
  · refine hb.take hk ?_
    rfl

theorem decref_eq {k : Conn} (hk : heap c = some k) :
    decref heap c =
      if k.refno = 0 then .error .refno
      else if k.refno = 1 ∧ k.dead = true then .ok (update heap c none)
      else .ok (update heap c (some { k with refno := k.refno - 1 })) := by
  simp only [decref, deref, hk]
  rfl

theorem decref_balanced (hb : Balanced Conn.refno heap (c :: refs)) :
    ∃ heap', decref heap c = .ok heap' ∧ Balanced Conn.refno heap' refs := by
  obtain ⟨k, hk, hpos⟩ := hb.exists_of_mem List.mem_cons_self
  have hdrop : Balanced Conn.refno
      (update heap c (some { k with refno := k.refno - 1 })) refs := by
    refine hb.drop hk ?_
    rfl
  rw [decref_eq hk, if_neg hpos.ne']
  by_cases hlast : k.refno = 1 ∧ k.dead = true
  · rw [if_pos hlast]
    refine ⟨_, rfl, ?_⟩
    have hfree := hdrop.free (update_self ..) (by simp [hlast.1])
    rwa [update_idem] at hfree
  · rw [if_neg hlast]
    exact ⟨_, rfl, hdrop⟩

/-- It drops one reference, or there is an error. -/
theorem countAt_decref {heap' : Heap} (h : decref heap c = .ok heap') :
    countAt Conn.refno heap' c + 1 = countAt Conn.refno heap c := by
  cases hk : heap c with
  | none =>
    simp only [decref, deref, hk] at h
    cases h
  | some k =>
    rw [decref_eq hk] at h
    simp only [countAt, hk, Option.elim_some]
    split at h
    · cases h
    · split at h
      · rename_i hlast
        cases h
        simp [hlast.1]
      · cases h
        simp
        omega

theorem decref_error {x : Crash} (h : decref heap c = .error x) : x = .freed ∨ x = .refno := by
  cases hk : heap c with
  | none =>
    simp only [decref, deref, hk] at h
    cases h
    exact .inl rfl
  | some k =>
    rw [decref_eq hk] at h
    split at h
    · cases h
      exact .inr rfl
    · split at h <;> cases h

end Counts

namespace Server

def refs (s : Server) : List ConnId := s.owned ++ s.jobs ++ s.stored

/-- A client whose request is past the header has an entry in `conns_`. -/
def Saved (s : Server) (j : Job) : Prop :=
  j.pc = .check ∨ j.pc = .handler →
    ∀ h ∈ j.req, h.cltNonce ≠ 0 → (s.conns.lookup h.cltNonce).isSome = true

structure Inv (s : Server) : Prop where
  balanced : Balanced Conn.refno s.heap s.refs
  crash : s.crash = none ∨ s.crash = some .verify
  queued : ∀ j ∈ s.queue, j.pc = .start
  saved : ∀ j ∈ s.running, s.Saved j
  zero : s.conns.lookup 0 = none

theorem balance_of_inv {s : Server} (hi : Inv s) : s.Balance := by
  refine ⟨?_, hi.crash⟩
  intro c
  rw [hi.balanced c, refs, List.count_append, List.count_append]

theorem inv_init (nonce : Nat) (procs : List Nat) : Inv (Server.init nonce procs) :=
  ⟨fun _ => rfl, .inl rfl, by simp [Server.init], by simp [Server.init], rfl⟩

section Steps

variable {s : Server} {i : Nat} {j : Job} {c : ConnId} {n : Nat}

theorem job_eq {pc : Pc} (h : s.job i pc = some j) : s.running[i]? = some j ∧ j.pc = pc := by
  obtain ⟨hget, hpc⟩ := Option.filter_eq_some_iff.mp h
  exact ⟨hget, by simpa using hpc⟩

theorem mem_refs_of_running (h : s.running[i]? = some j) : j.conn ∈ s.refs :=
  List.mem_append_left _ (List.mem_append_right _ (List.mem_append_right _
    (List.mem_map_of_mem (List.mem_of_getElem? h))))

/-- A job has one reference. -/
theorem refs_endJob (h : s.running[i]? = some j) :
    s.refs.Perm (j.conn :: (s.endJob i).refs) := by
  have hperm := Refs.perm_eraseIdx (f := Job.conn) h
  refine List.perm_iff_count.mpr fun a => ?_
  have hcount := hperm.count_eq a
  simp only [refs, jobs, stored, endJob, List.count_append, List.count_cons] at hcount ⊢
  omega

theorem refs_setJob (h : s.running[i]? = some j) (j' : Job) :
    (s.setJob i j').refs.Perm (j'.conn :: (s.endJob i).refs) := by
  have hperm := Refs.perm_set (f := Job.conn) h j'
  refine List.perm_iff_count.mpr fun a => ?_
  have hcount := hperm.count_eq a
  simp only [refs, jobs, stored, endJob, setJob, List.count_append, List.count_cons] at hcount ⊢
  omega

variable {l : List (Nat × ConnId)} {e : Event} {s' : Server}

theorem lookup_perm (h : l.lookup n = some c) : l.Perm ((n, c) :: l.eraseP fun e => e.1 == n) := by
  induction l with
  | nil => cases h
  | cons e l ih =>
    obtain ⟨m, d⟩ := e
    rw [List.lookup_cons] at h
    by_cases hm : n = m
    · subst hm
      obtain rfl : d = c := by simpa using h
      simp
    · have hm' : (n == m) = false := by simpa using hm
      have hm'' : (m == n) = false := by simpa using Ne.symm hm
      rw [hm'] at h
      rw [List.eraseP_cons_of_neg (by simp [hm''])]
      exact ((ih h).cons _).trans (List.Perm.swap ..)

/-- The entry of a client is replaced. -/
theorem refs_saved (h : s.conns.lookup n = some c) (c' : ConnId) (heap heap' : Heap) :
    let rest := { s with heap := heap, conns := s.conns.eraseP fun e => e.1 == n }
    s.refs.Perm (c :: rest.refs) ∧
    { s with heap := heap', conns := (n, c') :: s.conns.eraseP fun e => e.1 == n }.refs.Perm
      (c' :: rest.refs) := by
  have hperm := (lookup_perm h).map Prod.snd
  constructor
  · refine List.perm_iff_count.mpr fun a => ?_
    have hcount := hperm.count_eq a
    simp only [refs, jobs, stored, List.count_append, List.count_cons, List.map_cons] at hcount ⊢
    omega
  · refine List.perm_iff_count.mpr fun a => ?_
    simp only [refs, jobs, stored, List.count_append, List.count_cons, List.map_cons]
    omega

theorem lookup_eraseP_of_ne {m : Nat} (hne : m ≠ n) :
    (l.eraseP fun e => e.1 == n).lookup m = l.lookup m := by
  induction l with
  | nil => rfl
  | cons e l ih =>
    obtain ⟨k, d⟩ := e
    by_cases hk : k = n
    · subst hk
      have hm : (m == k) = false := by simpa using hne
      rw [List.eraseP_cons_of_pos (by simp), List.lookup_cons, hm]
    · rw [List.eraseP_cons_of_neg (by simpa using hk), List.lookup_cons, List.lookup_cons, ih]

/-- A new entry for `n` in front; the entries of other clients are there. -/
theorem lookup_saved {l' : List (Nat × ConnId)} (hl : ∀ m, m ≠ n → l'.lookup m = l.lookup m)
    (m : Nat) : ((n, c) :: l').lookup m = if m = n then some c else l.lookup m := by
  rw [List.lookup_cons]
  by_cases hm : m = n
  · simp [hm]
  · have hm' : (m == n) = false := by simpa using hm
    rw [hm', if_neg hm]
    exact hl m hm

/-- `dispatch` returns, and has dropped its reference. -/
theorem Inv.endJob (hi : Inv s) {heap : Heap}
    (hb : Balanced Conn.refno heap (s.endJob i).refs) : Inv ({ s with heap := heap }.endJob i) :=
  ⟨hb, hi.crash, hi.queued, fun j hj => hi.saved j (List.mem_of_mem_eraseIdx hj), hi.zero⟩

/-- `dispatch` goes on. -/
theorem Inv.setJob (hi : Inv s) {heap : Heap} {j' : Job}
    (hb : Balanced Conn.refno heap (s.setJob i j').refs) (hsaved : s.Saved j') :
    Inv ({ s with heap := heap }.setJob i j') := by
  refine ⟨hb, hi.crash, hi.queued, ?_, hi.zero⟩
  intro k hk
  rcases List.mem_or_eq_of_mem_set hk with hold | rfl
  · exact hi.saved k hold
  · exact hsaved

/-- `dispatch` goes on with the same connection. -/
theorem Inv.goOn (hi : Inv s) (hj : s.running[i]? = some j) {pc : Pc}
    (hsaved : s.Saved { j with pc := pc }) : Inv (s.setJob i { j with pc := pc }) := by
  have hperm := (refs_endJob hj).trans (refs_setJob hj { j with pc := pc }).symm
  exact hi.setJob (hi.balanced.perm hperm) hsaved

/-- `conns_` has another entry for the client. -/
theorem Inv.saveEntry (hi : Inv s) (hn : n ≠ 0) {heap : Heap}
    (hl : ∀ m, m ≠ n → l.lookup m = s.conns.lookup m)
    (hb : Balanced Conn.refno heap { s with conns := (n, c) :: l }.refs) :
    Inv { s with heap := heap, conns := (n, c) :: l } := by
  refine ⟨hb, hi.crash, hi.queued, ?_, ?_⟩
  · intro j hj hpc h hh h0
    show (((n, c) :: l).lookup h.cltNonce).isSome = true
    rw [lookup_saved hl]
    split
    · rfl
    · exact hi.saved j hj hpc h hh h0
  · show ((n, c) :: l).lookup 0 = none
    rw [lookup_saved hl, if_neg hn.symm]
    exact hi.zero

theorem Inv.saveConn (hi : Inv s) (hj : s.running[i]? = some j) (hn : n ≠ 0) :
    ∃ s', s.saveConn n j.conn = .ok s' ∧ Inv s' ∧ s'.running = s.running ∧
      (s'.conns.lookup n).isSome = true := by
  have hmem : j.conn ∈ s.refs := mem_refs_of_running hj
  cases hl : s.conns.lookup n with
  | none =>
    obtain ⟨heap, hinc, hb⟩ := incref_balanced hi.balanced hmem
    refine ⟨{ s with heap := heap, conns := (n, j.conn) :: s.conns }, ?_, ?_, rfl, by simp⟩
    · simp only [Server.saveConn, hl, hinc]
      rfl
    · refine hi.saveEntry hn (fun _ _ => rfl) (hb.perm ?_)
      exact List.perm_middle.symm
  | some c' =>
    obtain ⟨hold, hnew⟩ := refs_saved hl j.conn s.heap s.heap
    obtain ⟨k', hk', hderef'⟩ :=
      deref_of_mem hi.balanced (hold.mem_iff.mpr List.mem_cons_self)
    obtain ⟨k, hk, hderef⟩ := deref_of_mem hi.balanced hmem
    by_cases hlt : k'.created < k.created
    · obtain ⟨heap, hdec, hb⟩ := decref_balanced (hi.balanced.perm hold)
      -- the job still has its own reference
      have hstill : j.conn ∈ { s with conns := s.conns.eraseP fun e => e.1 == n }.refs :=
        mem_refs_of_running hj
      obtain ⟨heap', hinc, hb'⟩ := incref_balanced hb hstill
      refine ⟨{ s with heap := heap', conns := (n, j.conn) :: s.conns.eraseP fun e => e.1 == n },
        ?_, ?_, rfl, by simp⟩
      · simp only [Server.saveConn, hl, hderef', hderef, bind, Except.bind, if_pos hlt, hdec, hinc]
        rfl
      · exact hi.saveEntry hn (fun _ hne => lookup_eraseP_of_ne hne) (hb'.perm hnew.symm)
    · refine ⟨s, ?_, hi, rfl, by simp [hl]⟩
      simp only [Server.saveConn, hl, hderef', hderef, bind, Except.bind, if_neg hlt]
      rfl

theorem Inv.header (hi : Inv s) (hj : s.running[i]? = some j) (hclean : ∀ h ∈ j.req, ¬ s.old h) :
    ∃ s', s.header i j = .ok s' ∧ Inv s' := by
  have hfree := hi.balanced.perm (refs_endJob hj)
  obtain ⟨heap, hdec, hb⟩ := decref_balanced hfree
  cases hreq : j.req with
  | none =>
    refine ⟨_, ?_, hi.endJob hb⟩
    simp only [Server.header, hreq, hdec]
    rfl
  | some h =>
    have hold : ¬ s.old h := hclean h hreq
    by_cases hproc : h.proc ∈ s.procs
    · by_cases h0 : h.cltNonce = 0
      · refine ⟨s.setJob i { j with pc := .handler }, ?_, hi.goOn hj ?_⟩
        · simp only [Server.header, hreq, if_neg hold, hproc, not_true_eq_false, if_false,
            if_pos h0]
          rfl
        · intro _ h' hh' hne
          cases hreq.symm.trans hh'
          exact absurd h0 hne
      · obtain ⟨s', hsave, hi', hrun, hsome⟩ := hi.saveConn hj h0
        rw [← hrun] at hj
        refine ⟨s'.setJob i { j with pc := .check }, ?_, hi'.goOn hj ?_⟩
        · simp only [Server.header, hreq, if_neg hold, hproc, not_true_eq_false, if_false,
            if_neg h0, hsave]
          rfl
        · intro _ h' hh' _
          cases hreq.symm.trans hh'
          exact hsome
    · have hi' := hi.endJob hb
      refine ⟨{ { s with heap := heap }.endJob i with crash := some .verify }, ?_,
        hi'.balanced, .inr rfl, hi'.queued, hi'.saved, hi'.zero⟩
      simp only [Server.header, hreq, if_neg hold, hproc, not_false_eq_true, if_true, hdec]
      rfl

theorem Inv.finish (hi : Inv s) (hj : s.running[i]? = some j) :
    ∃ s', s.finish i j = .ok s' ∧ Inv s' := by
  obtain ⟨heap, hdec, hb⟩ := decref_balanced (hi.balanced.perm (refs_endJob hj))
  refine ⟨_, ?_, hi.endJob hb⟩
  simp only [Server.finish, hdec]
  rfl

theorem saved_finish {c : ConnId} : s.Saved { j with conn := c, pc := .finish } := by
  intro hpc
  rcases hpc with hpc | hpc <;> cases hpc

theorem Inv.answer (hi : Inv s) (hj : s.running[i]? = some j) (hpc : j.pc = .handler)
    {h : ReqHeader} (hreq : j.req = some h)
    (hclean : h.cltNonce = 0 → (s.heap j.conn).all (fun k => !k.dead) = true) :
    ∃ s', s.answer i j h = .ok s' ∧ Inv s' := by
  obtain ⟨k, hk, hderef⟩ := deref_of_mem hi.balanced (mem_refs_of_running hj)
  by_cases hmove : k.dead = true ∧ s.conns.lookup h.cltNonce ≠ some j.conn
  · have h0 : h.cltNonce ≠ 0 := by
      intro h0
      have halive := hclean h0
      simp [hk, hmove.1] at halive
    obtain ⟨c, hc⟩ := Option.isSome_iff_exists.mp
      (hi.saved j (List.mem_of_getElem? hj) (.inr hpc) h hreq h0)
    obtain ⟨heap, hdec, hb⟩ := decref_balanced (hi.balanced.perm (refs_endJob hj))
    have hmem : c ∈ (s.endJob i).refs := by
      have hstored := ((lookup_perm hc).map Prod.snd).mem_iff.mpr List.mem_cons_self
      exact List.mem_append_right _ hstored
    obtain ⟨heap', hinc, hb'⟩ := incref_balanced hb hmem
    refine ⟨_, ?_, hi.setJob (hb'.perm
      (refs_setJob hj { j with conn := c, pc := .finish }).symm) saved_finish⟩
    rw [hc] at hmove
    simp only [Server.answer, hderef, bind, Except.bind, hc, if_pos hmove, hdec, hinc]
    rfl
  · refine ⟨_, ?_, hi.goOn hj saved_finish⟩
    simp only [Server.answer, hderef, bind, Except.bind, if_neg hmove]
    rfl

theorem Inv.kill (hi : Inv s) (c : ConnId) : Inv (s.kill c) := by
  refine ⟨?_, hi.crash, hi.queued, hi.saved, hi.zero⟩
  unfold Server.kill
  cases hk : s.heap c with
  | none =>
    rw [Option.map_none, ← hk, update_eq_self]
    exact hi.balanced
  | some k =>
    refine hi.balanced.change hk ?_
    rfl

theorem Inv.drop (hi : Inv s) (hc : c ∈ s.owned) : ∃ s', s.drop c = .ok s' ∧ Inv s' := by
  have hperm : s.refs.Perm (c :: { s with owned := s.owned.erase c }.refs) :=
    ((List.perm_cons_erase hc).append_right _).append_right _
  obtain ⟨heap, hdec, hb⟩ := decref_balanced (hi.balanced.perm hperm)
  refine ⟨{ s with heap := heap, owned := s.owned.erase c }, ?_,
    hb, hi.crash, hi.queued, hi.saved, hi.zero⟩
  simp only [Server.drop, hdec]
  rfl

theorem Inv.gotPdu (hi : Inv s) (hc : c ∈ s.owned) (hadd : s.adding = none)
    (req : Option ReqHeader) : ∃ s', s.gotPdu c req = .ok s' ∧ Inv s' := by
  have hmem : c ∈ s.refs := List.mem_append_left _ (List.mem_append_left _ hc)
  obtain ⟨heap, hinc, hb⟩ := incref_balanced hi.balanced hmem
  by_cases hr : s.reachable = true
  · by_cases hfull : s.queue.length < maxJobs
    · refine ⟨{ s with
        heap := heap, queue := s.queue ++ [⟨c, req, .start⟩], adding := some (c, true) },
        ?_, hb.perm ?_, hi.crash, ?_, hi.saved, hi.zero⟩
      · simp only [Server.gotPdu, if_pos hr, hinc, bind, Except.bind, if_pos hfull]
        rfl
      · refine List.perm_iff_count.mpr fun a => ?_
        simp only [refs, jobs, stored, hadd, refused, List.count_append, List.count_cons,
          List.map_append, List.map_cons, List.map_nil, List.count_nil]
        omega
      · intro j hj
        rcases List.mem_append.mp hj with hold | hnew
        · exact hi.queued j hold
        · rw [List.mem_singleton.mp hnew]
    · refine ⟨{ s with heap := heap, adding := some (c, false) },
        ?_, hb.perm ?_, hi.crash, hi.queued, hi.saved, hi.zero⟩
      · simp only [Server.gotPdu, if_pos hr, hinc, bind, Except.bind, if_neg hfull]
        rfl
      · refine List.perm_iff_count.mpr fun a => ?_
        simp only [refs, jobs, stored, hadd, refused, List.count_append, List.count_cons,
          List.count_nil]
        omega
  · refine ⟨s, ?_, hi⟩
    simp only [Server.gotPdu, if_neg hr]
    rfl

theorem Inv.gotPduEnd (hi : Inv s) {succ : Bool} (hadd : s.adding = some (c, succ))
    (hclean : succ = true → s.reachable = true) :
    ∃ s', s.gotPduEnd c succ = .ok s' ∧ Inv s' := by
  cases succ with
  | false =>
    have hperm : s.refs.Perm (c :: { s with adding := none }.refs) := by
      refine List.perm_iff_count.mpr fun a => ?_
      simp only [refs, jobs, stored, hadd, refused, List.count_append, List.count_cons,
        List.count_nil]
      omega
    obtain ⟨heap, hdec, hb⟩ := decref_balanced (hi.balanced.perm hperm)
    refine ⟨{ s with heap := heap, adding := none }, ?_,
      hb, hi.crash, hi.queued, hi.saved, hi.zero⟩
    simp only [Server.gotPduEnd, true_or, if_true, hdec]
    rfl
  | true =>
    refine ⟨{ s with adding := none }, ?_, ?_, hi.crash, hi.queued, hi.saved, hi.zero⟩
    · simp only [Server.gotPduEnd, hclean rfl, Bool.true_eq_false, or_self, if_false]
      rfl
    · have hb := hi.balanced
      simpa only [refs, jobs, stored, hadd, refused] using hb

/-- A job goes from the queue to a thread, with its reference. -/
theorem Inv.take (hi : Inv s) {rest : List Job} (hq : s.queue = j :: rest) :
    Inv { s with queue := rest, running := j :: s.running } := by
  refine ⟨hi.balanced.perm ?_, hi.crash, ?_, ?_, hi.zero⟩
  · refine List.perm_iff_count.mpr fun a => ?_
    simp only [refs, jobs, stored, hq, List.count_append, List.count_cons, List.map_cons]
    omega
  · exact fun k hk => hi.queued k (hq ▸ List.mem_cons_of_mem _ hk)
  · intro k hk
    rcases List.mem_cons.mp hk with rfl | hold
    · intro hpc
      have hstart : k.pc = .start := hi.queued k (hq ▸ List.mem_cons_self)
      rcases hpc with hpc | hpc <;> rw [hstart] at hpc <;> cases hpc
    · exact hi.saved k hold

/-- What a step does, it does without an error. -/
theorem Inv.act (hi : Inv s) (hok : s.Clean e) {r : Except Crash Server} (hs : s.act e = some r) :
    ∃ s', r = .ok s' ∧ Inv s' := by
  cases e with
  | accept c created =>
    obtain ⟨hfree, rfl⟩ := Run.of_guard hs
    refine ⟨_, rfl, hi.balanced.make hfree ?_, hi.crash, hi.queued, hi.saved, hi.zero⟩
    rfl
  | collect c =>
    obtain ⟨hc, rfl⟩ := Run.of_guard hs
    exact hi.drop hc.1
  | close c =>
    obtain ⟨hc, rfl⟩ := Run.of_guard hs
    exact (hi.kill c).drop hc
  | die c =>
    cases hs
    exact ⟨_, rfl, hi.kill c⟩
  | setReachable b =>
    cases hs
    exact ⟨_, rfl, hi.balanced, hi.crash, hi.queued, hi.saved, hi.zero⟩
  | gotPdu c req =>
    obtain ⟨hc, rfl⟩ := Run.of_guard hs
    exact hi.gotPdu hc.1 hc.2 req
  | gotPduEnd =>
    obtain ⟨⟨c, succ⟩, hadd, rfl⟩ := Option.map_eq_some_iff.mp hs
    exact hi.gotPduEnd hadd (hok _ hadd)
  | take =>
    simp only [Server.act] at hs
    split at hs
    · cases hs
    · rename_i j rest hq
      cases hs
      exact ⟨_, rfl, hi.take hq⟩
  | header i =>
    obtain ⟨j, hj, rfl⟩ := Option.map_eq_some_iff.mp hs
    exact hi.header (job_eq hj).1 (hok j hj)
  | check i stat =>
    obtain ⟨j, hj, rfl⟩ := Option.map_eq_some_iff.mp hs
    obtain ⟨hget, hpc⟩ := job_eq hj
    refine ⟨_, rfl, hi.goOn hget ?_⟩
    exact fun _ => hi.saved j (List.mem_of_getElem? hget) (.inl hpc)
  | abort i =>
    obtain ⟨j, _, rfl⟩ := Option.map_eq_some_iff.mp hs
    exact ⟨_, rfl, hi.balanced, .inr rfl, hi.queued, hi.saved, hi.zero⟩
  | answer i =>
    obtain ⟨j, hj, hs⟩ := Option.bind_eq_some_iff.mp hs
    obtain ⟨h, hreq, rfl⟩ := Option.map_eq_some_iff.mp hs
    obtain ⟨hget, hpc⟩ := job_eq hj
    exact hi.answer hget hpc hreq (hok j hj h hreq)
  | finish i =>
    obtain ⟨j, hj, rfl⟩ := Option.map_eq_some_iff.mp hs
    exact hi.finish (job_eq hj).1

theorem step_eq (hs : step s e = some s') :
    ∃ r, s.act e = some r ∧ s' = (match r with
      | .ok s' => s'
      | .error x => { s with crash := some x }) := by
  unfold step at hs
  split at hs
  · cases hs
  · obtain ⟨r, hr, rfl⟩ := Option.map_eq_some_iff.mp hs
    exact ⟨r, hr, rfl⟩

theorem Inv.step (hi : Inv s) (hok : s.Clean e) (hs : Server.step s e = some s') : Inv s' := by
  obtain ⟨r, hr, rfl⟩ := step_eq hs
  obtain ⟨s', rfl, hi'⟩ := hi.act hok hr
  exact hi'

/-! ## The three steps that lose the balance -/

/-- The reference of a job is lost. -/
theorem Inv.unbalanced_header (hi : Inv s) (hj : s.job i .start = some j) {h : ReqHeader}
    (hreq : j.req = some h) (hold : s.old h) (hs : Server.step s (.header i) = some s') :
    ¬ s'.Balance := by
  obtain ⟨r, hr, rfl⟩ := step_eq hs
  have hr' : r = .ok (s.endJob i) := by
    simp only [Server.act, hj, Option.map_some, Option.some.injEq, Server.header, hreq,
      if_pos hold] at hr
    exact hr.symm
  subst hr'
  rintro ⟨hbal, _⟩
  have hafter : countAt Conn.refno s.heap j.conn = (s.endJob i).owned.count j.conn +
      (s.endJob i).jobs.count j.conn + (s.endJob i).stored.count j.conn := hbal j.conn
  have hbefore := hi.balanced j.conn
  rw [(refs_endJob (job_eq hj).1).count_eq, List.count_cons_self, refs, List.count_append,
    List.count_append] at hbefore
  omega

/-- The reference of a job is dropped twice. -/
theorem Inv.unbalanced_gotPdu (hi : Inv s) (hadd : s.adding = some (c, true))
    (hunreach : s.reachable = false) (hs : Server.step s .gotPduEnd = some s') : ¬ s'.Balance := by
  obtain ⟨r, hr, rfl⟩ := step_eq hs
  simp only [Server.act, hadd, Option.map_some, Option.some.injEq, Server.gotPduEnd, hunreach,
    or_true, if_true] at hr
  subst hr
  cases hdec : decref s.heap c with
  | error x =>
    rintro ⟨_, hcrash⟩
    replace hcrash : some x = none ∨ some x = some Crash.verify := hcrash
    rcases decref_error hdec with rfl | rfl <;> simp at hcrash
  | ok heap =>
    rintro ⟨hbal, _⟩
    have hafter : countAt Conn.refno heap c = s.owned.count c +
        { s with adding := none }.jobs.count c + s.stored.count c := hbal c
    have hbefore := balance_of_inv hi |>.1 c
    have hjobs : { s with adding := none }.jobs = s.jobs := by simp only [jobs, hadd, refused]
    rw [hjobs] at hafter
    have hdrop := countAt_decref hdec
    omega

/-- There is no other connection for the reply. -/
theorem Inv.unbalanced_answer (hi : Inv s) (hj : s.job i .handler = some j) {h : ReqHeader}
    (hreq : j.req = some h) (h0 : h.cltNonce = 0)
    (hdead : (s.heap j.conn).all (fun k => !k.dead) ≠ true)
    (hs : Server.step s (.answer i) = some s') : ¬ s'.Balance := by
  obtain ⟨r, hr, rfl⟩ := step_eq hs
  obtain ⟨k, hk, hderef⟩ := deref_of_mem hi.balanced (mem_refs_of_running (job_eq hj).1)
  obtain ⟨heap, hdec, _⟩ := decref_balanced (hi.balanced.perm (refs_endJob (job_eq hj).1))
  have hkdead : k.dead = true := by simpa [hk] using hdead
  have hr' : r = .error .null := by
    simp only [Server.act, hj, Option.bind_some, hreq, Option.map_some, Option.some.injEq,
      Server.answer, hderef, bind, Except.bind, hkdead, h0, hi.zero, hdec] at hr
    exact hr.symm
  subst hr'
  rintro ⟨_, hcrash⟩
  rcases hcrash with hcrash | hcrash <;> cases hcrash

theorem Inv.unbalanced (hi : Inv s) (hs : Server.step s e = some s') (hbad : ¬ s.Clean e) :
    ¬ s'.Balance := by
  cases e with
  | header i =>
    simp only [Clean, not_forall, not_not] at hbad
    obtain ⟨j, hj, h, hreq, hold⟩ := hbad
    exact hi.unbalanced_header hj hreq hold hs
  | gotPduEnd =>
    simp only [Clean, not_forall] at hbad
    obtain ⟨⟨c, succ⟩, hadd, rfl, hunreach⟩ := hbad
    exact hi.unbalanced_gotPdu hadd (by simpa using hunreach) hs
  | answer i =>
    simp only [Clean, not_forall] at hbad
    obtain ⟨j, hj, h, hreq, h0, hdead⟩ := hbad
    exact hi.unbalanced_answer hj hreq h0 hdead hs
  | _ => exact absurd trivial hbad

end Steps

/-! ## Whole runs -/

/-- The references balance in every state of a run exactly if every step of
the run is clean. -/
theorem refs_balance_iff (nonce : Nat) (procs : List Nat) (es : List Event)
    (hrun : (exec step (Server.init nonce procs) es).isSome = true) :
    Always step Balance (Server.init nonce procs) es ↔
      EveryStep step Clean (Server.init nonce procs) es :=
  always_iff_everyStep (fun _ _ _ hi hok hs => hi.step hok hs) (fun _ hi => balance_of_inv hi)
    (fun _ _ _ hi hs hbad => hi.unbalanced hs hbad) es _ (inv_init nonce procs) hrun

def request : ReqHeader := ⟨1, 5, 3, 1, 0⟩

/-- A client has two connections. The job on the first is in its handler when
the connection dies; the reply goes out on the second, and the listener
collects the first. -/
def movedOver : List Event :=
  [.accept 7 0, .gotPdu 7 (some request), .gotPduEnd, .take, .header 0, .check 0 .NEW,
   .accept 8 1, .gotPdu 8 (some request), .gotPduEnd, .take, .header 0, .check 0 .INPROGRESS,
   .finish 0, .die 7, .answer 0, .collect 7, .finish 0]

theorem refs_balance_iff_movedOver :
    (exec step (Server.init 1 [5]) movedOver).isSome = true ∧
    (Always step Balance (Server.init 1 [5]) movedOver ↔
      EveryStep step Clean (Server.init 1 [5]) movedOver) := by
  have hrun : (exec step (Server.init 1 [5]) movedOver).isSome = true := by decide +kernel
  exact ⟨hrun, refs_balance_iff 1 [5] movedOver hrun⟩

def oldInstance : List Event :=
  [.accept 7 0, .gotPdu 7 (some ⟨1, 5, 3, 9, 0⟩), .gotPduEnd, .take, .header 0]

def madeUnreachable : List Event :=
  [.accept 7 0, .gotPdu 7 (some request), .setReachable false, .gotPduEnd]

def deadConnection : List Event :=
  [.accept 7 0, .gotPdu 7 (some ⟨1, 5, 0, 1, 0⟩), .gotPduEnd, .take, .header 0, .die 7, .answer 0]

/-- `refno_`, and whose references they should be. -/
def tally (s : Server) (c : ConnId) : Nat × Nat × Nat × Nat :=
  (countAt Conn.refno s.heap c, s.owned.count c, s.jobs.count c, s.stored.count c)

theorem not_balance_of_tally {s : Server} {c : ConnId} {n owners jobs entries : Nat}
    (h : s.tally c = (n, owners, jobs, entries)) (hne : n ≠ owners + jobs + entries) :
    ¬ s.Balance := by
  rintro ⟨hbal, _⟩
  have hc := hbal c
  simp only [tally, Prod.mk.injEq] at h
  omega

/-- A reference that nobody has, a job without one, and no connection for the
reply. -/
theorem references_lost :
    (∃ s, exec step (Server.init 1 [5]) oldInstance = some s ∧ s.tally 7 = (2, 1, 0, 0) ∧
      ¬ s.Balance) ∧
    (∃ s, exec step (Server.init 1 [5]) madeUnreachable = some s ∧ s.tally 7 = (1, 1, 1, 0) ∧
      ¬ s.Balance) ∧
    ∃ s, exec step (Server.init 1 [5]) deadConnection = some s ∧ s.crash = some .null ∧
      ¬ s.Balance := by
  have hold : (exec step (Server.init 1 [5]) oldInstance).map (tally · 7) = some (2, 1, 0, 0) := by
    decide +kernel
  have hunreach : (exec step (Server.init 1 [5]) madeUnreachable).map (tally · 7) =
      some (1, 1, 1, 0) := by decide +kernel
  have hdead : (exec step (Server.init 1 [5]) deadConnection).map Server.crash =
      some (some .null) := by decide +kernel
  obtain ⟨s, hs, ht⟩ := Option.map_eq_some_iff.mp hold
  obtain ⟨t, hrun, ht'⟩ := Option.map_eq_some_iff.mp hunreach
  obtain ⟨u, hrun', hcrash⟩ := Option.map_eq_some_iff.mp hdead
  refine ⟨⟨s, hs, ht, not_balance_of_tally ht (by decide)⟩,
    ⟨t, hrun, ht', not_balance_of_tally ht' (by decide)⟩, u, hrun', hcrash, ?_⟩
  rintro ⟨_, hend⟩
  simp [hcrash] at hend

end Server

end Yfs.Rpc.References
