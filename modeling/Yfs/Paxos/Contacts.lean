/-
Yfs.Paxos.Contacts — a proposer and the cache of connections it shares
(paxos.cc: `proposer::prepare`, `accept`, `decide`; handle.cc).

Each round of the three loops makes a `handle` for the node, calls
`safebind`, makes the RPC, and gives the handle up. `prepare` goes on to the
next node when `safebind` returns NULL. `accept` and `decide` VERIFY that it
does not: the node has answered the phase before. But what `safebind` returns
is not up to the node alone. The heartbeater, a view change and the state
machine use the same `hinfo`, and whichever of them fails to bind or deletes
the handle marks it for all.

A run is cut at every point where other threads come in between: after the
handle is made, while `bind` waits, while the RPC waits. Other threads make,
bind, give up and delete handles of any node at any time. Whether a node is
up is in the outcome of `bind` and of the calls.

`no_verify_fails`: as long as, whenever `accept` or `decide` makes or binds
the handle of a node, the `hinfo` of the node is not marked, and `bind` does
not fail there, no VERIFY does. `lost_handle_aborts_proposer` has two runs in
which an acceptor fails between two phases and takes the proposer with it.

That the pointers are good (`no_freed_hinfo`) needs no condition. It is the
reason why the condition can speak of the node's name: the pointer in the
proposer's handle is still the one in `hmap`.
-/
import Yfs.Lib.Run
import Yfs.Paxos.Handle

namespace Yfs.Paxos

open Yfs.Run (Reach exec)

/-! ## A proposer among other threads -/

inductive Place where
  | top
  | opened (h : Option Ptr)
  | binding (p : Ptr)
  | calling (p : Ptr)
  deriving DecidableEq, Repr

def Place.ptr : Place → Option Ptr
  | .top => none
  | .opened h => h
  | .binding p => some p
  | .calling p => some p

/-- A `handle` of another thread that is not NULL, and whether the thread is
in `bind`. -/
structure Holder where
  p : Ptr
  binds : Bool
  deriving DecidableEq, Repr

inductive Crash where
  | verify
  | freed
  deriving DecidableEq, Repr

structure Contacts where
  mgr : Mgr
  holders : List Holder
  run : Option Run
  place : Place
  crash : Option Crash

/-- What a call returns: an error or a timeout, or the reply. `decide` does
not look at it. -/
inductive Reply where
  | failed
  | prepare (res : PrepareRes)
  | accept (ok : Bool)
  deriving DecidableEq, Repr

namespace Contacts

inductive Event where
  | run (inst : Nat) (curNodes : List NodeId) (newv : Value) (n : PropT)
  -- the proposer
  | make
  | safebind
  | bound (ok : Bool)
  | ret (r : Reply)
  -- any other thread
  | otherMake (m : NodeId)
  | otherBind (i : Nat)
  | otherBound (i : Nat) (ok : Bool)
  | otherDone (i : Nat)
  | delete (m : NodeId)
  deriving DecidableEq, Repr

def init : Contacts :=
  { mgr := .empty, holders := [], run := none, place := .top, crash := none }

def lost (s : Contacts) : Contacts := { s with crash := some .freed }

def leave (s : Contacts) (run : Option Run) : Contacts :=
  match s.place.ptr with
  | none => { s with run := run, place := .top }
  | some p => (s.mgr.doneHandle p).elim s.lost fun mgr =>
      { s with mgr := mgr, run := run, place := .top }

def unbound (s : Contacts) (r : Run) : Contacts :=
  match r.phase with
  | .prepare => s.leave r.next
  -- VERIFY(accept_h != NULL), VERIFY(decide_h != NULL)
  | .accept => { s with crash := some .verify }
  | .decide => { s with crash := some .verify }

def afterCall (r : Run) (d : NodeId) : Reply → Option (Option Run)
  | .failed => some r.next
  | .prepare res =>
    if r.phase = .prepare then
      -- `acc->commit`, and `run` is over
      if res.oldinstance then some none else some (r.promised d res).next
    else none
  | .accept ok => if r.phase = .accept then some (r.accepted d ok).next else none

def proposer (s : Contacts) (r : Run) (d : NodeId) : Event → Option Contacts
  | .make =>
    if s.place = .top then
      some ((s.mgr.getHandle d).elim s.lost fun g => { s with mgr := g.2, place := .opened g.1 })
    else none
  | .safebind =>
    match s.place with
    | .opened none => some (s.unbound r)
    | .opened (some p) =>
      match s.mgr.safebind p with
      | none => some s.lost
      | some .blocked => none
      | some .null => some (s.unbound r)
      | some .client => some { s with place := .calling p }
      | some .binds => some ((s.mgr.startBind p).elim s.lost fun mgr =>
          { s with mgr := mgr, place := .binding p })
    | _ => none
  | .bound ok =>
    match s.place with
    | .binding p => some ((s.mgr.endBind p ok).elim s.lost fun mgr =>
        if ok then { s with mgr := mgr, place := .calling p }
        else { s with mgr := mgr }.unbound r)
    | _ => none
  | .ret reply =>
    match s.place with
    | .calling _ => (afterCall r d reply).map s.leave
    | _ => none
  | _ => none

def others (s : Contacts) : Event → Option Contacts
  | .otherMake m => some ((s.mgr.getHandle m).elim s.lost fun g =>
      { s with mgr := g.2, holders := (g.1.toList.map fun p => ⟨p, false⟩) ++ s.holders })
  | .otherBind i =>
    match s.holders[i]? with
    | some ⟨p, false⟩ =>
      match s.mgr.safebind p with
      | none => some s.lost
      | some .binds => some ((s.mgr.startBind p).elim s.lost fun mgr =>
          { s with mgr := mgr, holders := s.holders.set i ⟨p, true⟩ })
      | some _ => some s
    | _ => none
  | .otherBound i ok =>
    match s.holders[i]? with
    | some ⟨p, true⟩ => some ((s.mgr.endBind p ok).elim s.lost fun mgr =>
        { s with mgr := mgr, holders := s.holders.set i ⟨p, false⟩ })
    | _ => none
  | .otherDone i =>
    match s.holders[i]? with
    | some ⟨p, false⟩ => some ((s.mgr.doneHandle p).elim s.lost fun mgr =>
        { s with mgr := mgr, holders := s.holders.eraseIdx i })
    | _ => none
  | .delete m => some ((s.mgr.deleteHandleWo m).elim s.lost fun mgr => { s with mgr := mgr })
  | _ => none

def Event.own : Event → Bool
  | .make => true
  | .safebind => true
  | .bound _ => true
  | .ret _ => true
  | _ => false

def step (s : Contacts) (e : Event) : Option Contacts :=
  if s.crash ≠ none then none
  else match e with
    | .run inst curNodes newv n =>
      -- a second run is refused while one is going on
      if s.run = none then some { s with run := Run.start 0 inst curNodes newv n } else none
    | e =>
      if e.own then
        match s.run with
        | some r =>
          match r.todo with
          | d :: _ => s.proposer r d e
          | [] => none
        | none => none
      else s.others e

/-! ## The pointers are good -/

/-- The `hinfo`s that `handle` objects point to. -/
def live (s : Contacts) : List Ptr := s.place.ptr.toList ++ s.holders.map Holder.p

/-- The proposer's pointer is the one in `hmap` for the node of the round. -/
structure Inv (s : Contacts) : Prop where
  ok : s.mgr.Ok s.live
  named : ∀ p ∈ s.place.ptr, ∃ r d rest,
    s.run = some r ∧ r.todo = d :: rest ∧ s.mgr.hmap d = some p
  crash : s.crash ≠ some .freed

theorem inv_init : Inv init := ⟨Mgr.ok_empty, by simp [init, Place.ptr], by simp [init]⟩

section Steps

variable {s s' : Contacts} {r : Run} {d : NodeId} {rest : List NodeId}

theorem mem_live {p : Ptr} (h : s.place.ptr = some p) : p ∈ s.live := by
  simp [live, h]

/-- Another thread does something with its handles. -/
theorem Inv.others_move (hi : Inv s) {mgr : Mgr} {holders : List Holder}
    (hok : mgr.Ok (s.place.ptr.toList ++ holders.map Holder.p))
    (hkeeps : s.mgr.Keeps mgr s.place.ptr.toList) :
    Inv { s with mgr := mgr, holders := holders } := by
  refine ⟨hok, ?_, hi.crash⟩
  intro p hp
  obtain ⟨r, d, rest, hr, hd, hm⟩ := hi.named p hp
  exact ⟨r, d, rest, hr, hd, hkeeps d p (by simpa using hp) hm⟩

/-- An `hinfo` changes, and all handles are what they were. -/
theorem Inv.mgr (hi : Inv s) {mgr : Mgr} (hok : mgr.Ok s.live) (hkeeps : s.mgr.Keeps mgr s.live) :
    Inv { s with mgr := mgr } :=
  hi.others_move hok fun m p hp hm => hkeeps m p (List.mem_append_left _ hp) hm

/-- The proposer goes on, with the same handle. -/
theorem Inv.move (hi : Inv s) {place : Place} (hp : place.ptr = s.place.ptr) :
    Inv { s with place := place } := by
  refine ⟨?_, ?_, hi.crash⟩
  · rw [live, hp]
    exact hi.ok
  · rw [hp]
    exact hi.named

/-- `~handle` gives the reference back. -/
theorem Inv.leave_eq (hi : Inv s) (run : Option Run) :
    ∃ mgr : Mgr, mgr.Ok (s.holders.map Holder.p) ∧
      s.leave run = { s with mgr := mgr, run := run, place := .top } := by
  cases hp : s.place.ptr with
  | none => exact ⟨s.mgr, by simpa [live, hp] using hi.ok, by simp only [Contacts.leave, hp]⟩
  | some p =>
    have hok : s.mgr.Ok (p :: s.holders.map Holder.p) := by simpa [live, hp] using hi.ok
    obtain ⟨mgr, hdone, hok', _⟩ := hok.doneHandle
    exact ⟨mgr, hok', by simp only [Contacts.leave, hp, hdone, Option.elim_some]⟩

theorem Inv.leave (hi : Inv s) (run : Option Run) : Inv (s.leave run) := by
  obtain ⟨mgr, hok, heq⟩ := hi.leave_eq run
  rw [heq]
  exact ⟨hok, by simp [Place.ptr], hi.crash⟩

theorem Inv.unbound (hi : Inv s) (r : Run) : Inv (s.unbound r) := by
  unfold Contacts.unbound
  split
  · exact hi.leave _
  · exact ⟨hi.ok, hi.named, by simp⟩
  · exact ⟨hi.ok, hi.named, by simp⟩

/-- The name of the pointer in the round for `d`. -/
theorem Inv.hmap_eq (hi : Inv s) (hr : s.run = some r) (hd : r.todo = d :: rest) {p : Ptr}
    (hp : s.place.ptr = some p) : s.mgr.hmap d = some p := by
  obtain ⟨r', d', rest', hr', hd', hm⟩ := hi.named p hp
  cases hr.symm.trans hr'
  obtain ⟨rfl, _⟩ := List.cons.inj (hd.symm.trans hd')
  exact hm

theorem Inv.proposer (hi : Inv s) (hr : s.run = some r) (hd : r.todo = d :: rest) {e : Event}
    (hs : s.proposer r d e = some s') : Inv s' := by
  cases e with
  | make =>
    obtain ⟨htop, rfl⟩ := Run.of_guard hs
    have hok : s.mgr.Ok (s.holders.map Holder.p) := by
      simpa [live, htop, Place.ptr] using hi.ok
    obtain ⟨g, mgr, hget, hok', _, hname, _⟩ := hok.getHandle d
    simp only [hget, Option.elim_some]
    exact ⟨hok', fun p hp => ⟨r, d, rest, hr, hd, hname p hp⟩, hi.crash⟩
  | safebind =>
    simp only [Contacts.proposer] at hs
    split at hs
    · cases hs
      exact hi.unbound r
    · rename_i p hplace
      have hptr : s.place.ptr = some p := by rw [hplace]; rfl
      obtain ⟨b, hb, _⟩ := hi.ok.safebind (mem_live hptr) (hi.hmap_eq hr hd hptr)
      rw [hb] at hs
      cases b with
      | blocked => cases hs
      | null =>
        cases hs
        exact hi.unbound r
      | client =>
        cases hs
        exact hi.move hptr.symm
      | binds =>
        cases hs
        obtain ⟨mgr, hbind, hok, hkeeps⟩ := hi.ok.startBind (mem_live hptr)
        simp only [hbind, Option.elim_some]
        exact (hi.mgr hok hkeeps).move hptr.symm
    · cases hs
  | bound ok =>
    simp only [Contacts.proposer] at hs
    split at hs
    · rename_i p hplace
      have hptr : s.place.ptr = some p := by rw [hplace]; rfl
      cases hs
      obtain ⟨mgr, hbind, hok, hkeeps⟩ := hi.ok.endBind (mem_live hptr) ok
      simp only [hbind, Option.elim_some]
      split
      · exact (hi.mgr hok hkeeps).move hptr.symm
      · exact (hi.mgr hok hkeeps).unbound r
    · cases hs
  | ret reply =>
    simp only [Contacts.proposer] at hs
    split at hs
    · obtain ⟨run, _, rfl⟩ := Option.map_eq_some_iff.mp hs
      exact hi.leave run
    · cases hs
  | _ => cases hs

/-- A thread begins or ends `bind`, with the same handle. -/
theorem perm_set_holder {l : List Holder} {i : Nat} {p : Ptr} {b : Bool} (c : Bool)
    (hp : l[i]? = some ⟨p, b⟩) : (l.map Holder.p).Perm ((l.set i ⟨p, c⟩).map Holder.p) :=
  (Refs.perm_eraseIdx hp).trans (Refs.perm_set (f := Holder.p) hp ⟨p, c⟩).symm

theorem Inv.others (hi : Inv s) {e : Event} (hs : s.others e = some s') : Inv s' := by
  have hmem {p : Ptr} {i : Nat} {b : Bool} (hp : s.holders[i]? = some ⟨p, b⟩) : p ∈ s.live :=
    List.mem_append_right _ (List.mem_map_of_mem (f := Holder.p) (List.mem_of_getElem? hp))
  have hsub : ∀ p ∈ s.place.ptr.toList, p ∈ s.live := fun p hp => List.mem_append_left _ hp
  cases e with
  | otherMake m =>
    cases hs
    obtain ⟨g, mgr, hget, hok, hkeeps, _⟩ := hi.ok.getHandle m
    simp only [hget, Option.elim_some]
    refine hi.others_move ?_ fun n p hp => hkeeps n p (hsub p hp)
    simpa [Function.comp_def] using hok.perm (List.perm_append_comm_assoc _ _ _)
  | otherBind i =>
    simp only [Contacts.others] at hs
    split at hs
    · rename_i p hp
      obtain ⟨h, hh⟩ := hi.ok.exists_of_mem (hmem hp)
      obtain ⟨b, hb, _⟩ := hi.ok.safebind (hmem hp) (hi.ok.listed p h hh)
      rw [hb] at hs
      cases b with
      | binds =>
        cases hs
        obtain ⟨mgr, hbind, hok, hkeeps⟩ := hi.ok.startBind (hmem hp)
        simp only [hbind, Option.elim_some]
        refine hi.others_move ?_ fun n q hq => hkeeps n q (hsub q hq)
        exact hok.perm (List.Perm.append_left _ (perm_set_holder true hp))
      | _ =>
        cases hs
        exact hi
    · cases hs
  | otherBound i ok =>
    simp only [Contacts.others] at hs
    split at hs
    · rename_i p hp
      cases hs
      obtain ⟨mgr, hbind, hok, hkeeps⟩ := hi.ok.endBind (hmem hp) ok
      simp only [hbind, Option.elim_some]
      refine hi.others_move ?_ fun n q hq => hkeeps n q (hsub q hq)
      exact hok.perm (List.Perm.append_left _ (perm_set_holder false hp))
    · cases hs
  | otherDone i =>
    simp only [Contacts.others] at hs
    split at hs
    · rename_i p hp
      cases hs
      have hok : s.mgr.Ok (p :: (s.place.ptr.toList ++ (s.holders.eraseIdx i).map Holder.p)) :=
        hi.ok.perm ((List.Perm.append_left _ (Refs.perm_eraseIdx hp)).trans List.perm_middle)
      obtain ⟨mgr, hdone, hok', hkeeps⟩ := hok.doneHandle
      simp only [hdone, Option.elim_some]
      exact hi.others_move hok' fun n q hq => hkeeps n q (List.mem_append_left _ hq)
    · cases hs
  | delete m =>
    cases hs
    obtain ⟨mgr, hdel, hok, hkeeps⟩ := hi.ok.deleteHandleWo m
    simp only [hdel, Option.elim_some]
    exact hi.others_move hok fun n p hp => hkeeps n p (hsub p hp)
  | _ => cases hs

/-- What a step is: the start of a run, a step of it, or a step of another
thread. -/
theorem step_cases {e : Event} (hs : step s e = some s') :
    s.crash = none ∧
    ((∃ inst curNodes newv n, e = .run inst curNodes newv n ∧ s.run = none ∧
        s' = { s with run := Run.start 0 inst curNodes newv n }) ∨
      (∃ r d rest, s.run = some r ∧ r.todo = d :: rest ∧ s.proposer r d e = some s') ∨
      s.others e = some s') := by
  unfold step at hs
  split at hs
  · cases hs
  · rename_i hcrash
    refine ⟨by simpa using hcrash, ?_⟩
    split at hs
    · rename_i inst curNodes newv n
      simp only [Option.ite_none_right_eq_some, Option.some.injEq] at hs
      exact .inl ⟨inst, curNodes, newv, n, rfl, hs.1, hs.2.symm⟩
    · split at hs
      · split at hs
        · rename_i r hr
          split at hs
          · rename_i d rest hd
            exact .inr (.inl ⟨r, d, rest, hr, hd, hs⟩)
          · cases hs
        · cases hs
      · exact .inr (.inr hs)

theorem Inv.run (hi : Inv s) (hr : s.run = none) (run : Option Run) :
    Inv { s with run := run } := by
  refine ⟨hi.ok, ?_, hi.crash⟩
  intro p hp
  obtain ⟨r, _, _, hr', _⟩ := hi.named p hp
  cases hr.symm.trans hr'

theorem Inv.step {e : Event} (hi : Inv s) (hs : Contacts.step s e = some s') : Inv s' := by
  rcases (step_cases hs).2 with ⟨_, _, _, _, _, hr, rfl⟩ | ⟨r, d, rest, hr, hd, hs⟩ | hs
  · exact hi.run hr _
  · exact hi.proposer hr hd hs
  · exact hi.others hs

end Steps

/-- Nobody uses an `hinfo` that has been deleted, whatever the threads do. -/
theorem no_freed_hinfo {s : Contacts} (h : Reach step (fun _ _ => True) init s) :
    s.crash ≠ some .freed :=
  (h.invariant Inv inv_init fun _ _ _ hi _ hs => hi.step hs).crash

/-! ## The VERIFYs of `accept` and `decide` -/

/-- In `accept` and `decide`: the `hinfo` of the node is not marked when its
handle is made and when it is bound, and `bind` succeeds. -/
def Unmarked (s : Contacts) (e : Event) : Prop :=
  ∀ r ∈ s.run, r.phase ≠ .prepare →
    match e with
    | .make => ∀ d ∈ r.todo.head?, s.mgr.marked d = false
    | .safebind => ∀ d ∈ r.todo.head?, s.mgr.marked d = false
    | .bound ok => ok = true
    | _ => True

instance (s : Contacts) (e : Event) : Decidable (s.Unmarked e) := by
  unfold Unmarked
  cases e <;> infer_instance

structure Voting (s : Contacts) : Prop where
  inv : Inv s
  verify : s.crash ≠ some .verify
  null : s.place = .opened none → ∃ r, s.run = some r ∧ r.phase = .prepare

section Voting

variable {s s' : Contacts} {r : Run} {d : NodeId} {rest : List NodeId}

theorem Voting.leave (hv : Voting s) (run : Option Run) : Voting (s.leave run) := by
  obtain ⟨mgr, _, heq⟩ := hv.inv.leave_eq run
  refine ⟨hv.inv.leave run, ?_, ?_⟩
  · rw [heq]
    exact hv.verify
  · rw [heq]
    simp

/-- `prepare` does without the node. -/
theorem Voting.unbound (hv : Voting s) (hr : r.phase = .prepare) : Voting (s.unbound r) := by
  simp only [Contacts.unbound, hr]
  exact hv.leave _

/-- Only `prepare` comes to an `hinfo` that is marked. -/
theorem Unmarked.prepare {e : Event} (hok : s.Unmarked e) (he : e = .make ∨ e = .safebind)
    (hr : s.run = some r) (hd : r.todo = d :: rest) (hmarked : s.mgr.marked d = true) :
    r.phase = .prepare := by
  by_contra hphase
  have hhead : d ∈ r.todo.head? := by simp [hd]
  have hunmarked : s.mgr.marked d = false := by
    rcases he with rfl | rfl
    · exact hok r hr hphase d hhead
    · exact hok r hr hphase d hhead
  exact absurd hmarked (by simp [hunmarked])

theorem Voting.safebind (hv : Voting s) (hr : s.run = some r) (hd : r.todo = d :: rest)
    (hok : s.Unmarked .safebind) (hs : s.proposer r d .safebind = some s') : Voting s' := by
  have hi' := hv.inv.proposer hr hd hs
  simp only [Contacts.proposer] at hs
  split at hs
  · rename_i hplace
    cases hs
    obtain ⟨r', hr', hphase⟩ := hv.null hplace
    cases hr.symm.trans hr'
    exact hv.unbound hphase
  · rename_i p hplace
    have hptr : s.place.ptr = some p := by rw [hplace]; rfl
    obtain ⟨b, hb, hnull⟩ := hv.inv.ok.safebind (mem_live hptr) (hv.inv.hmap_eq hr hd hptr)
    rw [hb] at hs
    cases b with
    | blocked => cases hs
    | null =>
      cases hs
      exact hv.unbound (hok.prepare (.inr rfl) hr hd (hnull rfl))
    | client =>
      cases hs
      exact ⟨hi', hv.verify, by simp⟩
    | binds =>
      cases hs
      obtain ⟨mgr, hbind, _⟩ := hv.inv.ok.startBind (mem_live hptr)
      simp only [hbind, Option.elim_some] at hi' ⊢
      exact ⟨hi', hv.verify, by simp⟩
  · cases hs

theorem Voting.proposer (hv : Voting s) (hr : s.run = some r) (hd : r.todo = d :: rest) {e : Event}
    (hok : s.Unmarked e) (hs : s.proposer r d e = some s') : Voting s' := by
  have hi' := hv.inv.proposer hr hd hs
  cases e with
  | make =>
    obtain ⟨_, rfl⟩ := Run.of_guard hs
    obtain ⟨g, mgr, hget, _, _, _, hnull⟩ := hv.inv.ok.getHandle d
    simp only [hget, Option.elim_some] at hi' ⊢
    refine ⟨hi', hv.verify, ?_⟩
    rintro ⟨⟩
    exact ⟨r, hr, hok.prepare (.inl rfl) hr hd (hnull rfl)⟩
  | safebind => exact hv.safebind hr hd hok hs
  | bound ok =>
    simp only [Contacts.proposer] at hs
    split at hs
    · rename_i p hplace
      have hptr : s.place.ptr = some p := by rw [hplace]; rfl
      cases hs
      obtain ⟨mgr, hbind, hmgr, hkeeps⟩ := hv.inv.ok.endBind (mem_live hptr) ok
      simp only [hbind, Option.elim_some] at hi' ⊢
      split at hi'
      · rename_i hbound
        rw [if_pos hbound]
        exact ⟨hi', hv.verify, by simp⟩
      · rename_i hbound
        have hv' : Voting { s with mgr := mgr } := ⟨hv.inv.mgr hmgr hkeeps, hv.verify, hv.null⟩
        rw [if_neg hbound]
        refine hv'.unbound ?_
        by_contra hphase
        exact hbound (hok r hr hphase)
    · cases hs
  | ret reply =>
    simp only [Contacts.proposer] at hs
    split at hs
    · obtain ⟨run, _, rfl⟩ := Option.map_eq_some_iff.mp hs
      exact hv.leave run
    · cases hs
  | _ => cases hs

/-- Other threads do not touch the run. -/
theorem others_frame {e : Event} (hs : s.others e = some s') :
    s'.place = s.place ∧ s'.run = s.run ∧ (s'.crash = s.crash ∨ s'.crash = some .freed) := by
  have hmgr {α : Type} (o : Option α) {k : α → Contacts}
      (hk : ∀ a, (k a).place = s.place ∧ (k a).run = s.run ∧ (k a).crash = s.crash) :
      (o.elim s.lost k).place = s.place ∧ (o.elim s.lost k).run = s.run ∧
        ((o.elim s.lost k).crash = s.crash ∨ (o.elim s.lost k).crash = some .freed) := by
    cases o with
    | none => exact ⟨rfl, rfl, .inr rfl⟩
    | some a => exact ⟨(hk a).1, (hk a).2.1, .inl (hk a).2.2⟩
  cases e with
  | otherMake m =>
    cases hs
    exact hmgr _ fun _ => ⟨rfl, rfl, rfl⟩
  | otherBind i =>
    simp only [Contacts.others] at hs
    split at hs
    · split at hs
      · cases hs
        exact ⟨rfl, rfl, .inr rfl⟩
      · cases hs
        exact hmgr _ fun _ => ⟨rfl, rfl, rfl⟩
      · cases hs
        exact ⟨rfl, rfl, .inl rfl⟩
    · cases hs
  | otherBound i ok =>
    simp only [Contacts.others] at hs
    split at hs
    · cases hs
      exact hmgr _ fun _ => ⟨rfl, rfl, rfl⟩
    · cases hs
  | otherDone i =>
    simp only [Contacts.others] at hs
    split at hs
    · cases hs
      exact hmgr _ fun _ => ⟨rfl, rfl, rfl⟩
    · cases hs
  | delete m =>
    cases hs
    exact hmgr _ fun _ => ⟨rfl, rfl, rfl⟩
  | _ => cases hs

theorem Voting.others (hv : Voting s) {e : Event} (hs : s.others e = some s') : Voting s' := by
  obtain ⟨hplace, hrun, hcrash⟩ := others_frame hs
  refine ⟨hv.inv.others hs, ?_, ?_⟩
  · rcases hcrash with heq | heq
    · rw [heq]
      exact hv.verify
    · simp [heq]
  · rw [hplace, hrun]
    exact hv.null

theorem Voting.step {e : Event} (hv : Voting s) (hok : s.Unmarked e)
    (hs : Contacts.step s e = some s') : Voting s' := by
  rcases (step_cases hs).2 with ⟨_, _, _, _, _, hr, rfl⟩ | ⟨r, d, rest, hr, hd, hs⟩ | hs
  · refine ⟨hv.inv.run hr _, hv.verify, ?_⟩
    intro hplace
    obtain ⟨r, hr', _⟩ := hv.null hplace
    cases hr.symm.trans hr'
  · exact hv.proposer hr hd hok hs
  · exact hv.others hs

end Voting

/-- In every run in which `accept` and `decide` find the `hinfo` of their
nodes unmarked, and bind it where it is not bound, no VERIFY fails. -/
theorem no_verify_fails (s : Contacts) (h : Reach step Unmarked init s) :
    s.crash ≠ some .verify := by
  have hinit : Voting init := ⟨inv_init, by simp [init], by simp [init]⟩
  exact (h.invariant Voting hinit fun _ _ _ hv hok hs => hv.step hok hs).verify

/-- A run with one acceptor, up to its reply in `prepare`. -/
def prepared : List Event :=
  [.run 1 [['a']] ['v'] ⟨1, ['p']⟩, .make, .safebind, .bound true,
   .ret (.prepare ⟨false, true, ⟨0, []⟩, []⟩)]

def decided : List Event :=
  [.make, .safebind, .ret (.accept true), .make, .safebind, .ret .failed]

/-- A whole run, with a heartbeat that uses the same connection. -/
theorem no_verify_fails_decided : ∃ s : Contacts,
    Reach step Unmarked init s ∧ s.run = none ∧ (s.mgr.heap 0).isSome = true ∧
    s.crash ≠ some .verify := by
  obtain ⟨s, hr, hend, hheap⟩ : ∃ s, Reach step Unmarked init s ∧ s.run = none ∧
      (s.mgr.heap 0).isSome = true :=
    Run.exists_reach (prepared ++ [.otherMake ['a'], .otherBind 0] ++ decided ++ [.otherDone 0])
      (by decide +kernel)
  exact ⟨s, hr, hend, hheap, no_verify_fails s hr⟩

/-- The acceptor restarts, and the heartbeater, which is told so, deletes the
handle while it has one itself: the handle of `accept` is NULL. -/
def handleMarked : List Event :=
  [.otherMake ['a'], .otherBind 0, .delete ['a'], .make, .safebind]

/-- The heartbeater is done with its handle when `accept` makes a new one, but
the acceptor is down again and cannot be bound. -/
def handleGone : List Event :=
  [.otherMake ['a'], .otherBind 0, .delete ['a'], .otherDone 0, .make, .safebind, .bound false]

/-- The acceptor has answered `prepare`. Either way the proposer is lost, not
a vote. -/
theorem lost_handle_aborts_proposer :
    (exec step init (prepared ++ handleMarked)).map crash = some (some .verify) ∧
    (exec step init (prepared ++ handleGone)).map crash = some (some .verify) := by
  decide +kernel

end Contacts

end Yfs.Paxos
