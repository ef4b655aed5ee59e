/-
Yfs.Rpc.ThrPool — the pool of threads that runs the handlers of an RPC server
(rpc/thr_pool.cc, rpc/thr_pool.h).

`n` workers take jobs from a queue of `100 n` places (`Yfs.Rpc.Fifo`), any
number of threads add jobs, and the destructor puts in one pill for each worker
and joins them one after the other. A pill is a job without a function, `none`
here. The queue is the monitor itself, with its waits and signals; what the
invariants need of it are the phases of its threads (`Monitor.phases_run`).
`Moves` says once what each step does, `Inv.worker_runs` and the like what a
thread does in the queue.

The histories `accepted`, `started` and `finished` are read by nothing. Every
job that was accepted is in one place: in the queue, in the hands of a worker,
or finished; and so is every pill (`Inv`).
-/
import Yfs.Rpc.Fifo

namespace Yfs.ThrPool

open Monitor Run Function
open Fifo (Cond Call Ret)
open Atomic (Phase)

variable {n m : Nat} {J : Type}

/-! ## The pool -/

inductive Tid (n m : Nat) where
  | worker (i : Fin n)
  | adder (a : Fin m)
  | dtor
  deriving DecidableEq, Fintype

inductive Worker (J : Type) where
  | loop
  | taking
  | running (j : J)
  | dead
  deriving DecidableEq, Repr

/-- Where the destructor is: `k` pills put in, or `k` workers joined. -/
inductive Dtor where
  | no
  | pushing (k : Nat)
  | joining (k : Nat)
  | done
  deriving DecidableEq, Repr

abbrev Jobq (n m : Nat) (J : Type) :=
  Monitor.State (List (Option J)) Cond (Tid n m) (Call (Option J)) (Ret (Option J))

structure Pool (n m : Nat) (J : Type) where
  jobq : Jobq n m J
  worker : Fin n → Worker J
  dtor : Dtor
  accepted : List J
  started : List J
  finished : List J

def Pool.init : Pool n m J :=
  { jobq := State.init []
    worker := fun _ => .loop
    dtor := .no
    accepted := []
    started := []
    finished := [] }

inductive Event (n m : Nat) (J : Type) where
  | add (a : Fin m) (j : J)
  | addReturn (a : Fin m)
  | take (i : Fin n)
  | taken (i : Fin n)
  | finish (i : Fin n)
  | destroy
  | push
  | pushed
  | join
  | run (t : Tid n m) (pick : Option (Tid n m))
  | wake (t : Tid n m)

/-- `jobq_(100*sz)`. -/
def body (n : Nat) : Call (Option J) → List (Option J) →
    Outcome (List (Option J)) Cond (Ret (Option J)) := Fifo.body (100 * n)

def Pool.queue (s : Pool n m J) (e : Monitor.Event (Tid n m) (Call (Option J))) :
    Option (Pool n m J) :=
  (Monitor.step (body n) s.jobq e).map fun q => { s with jobq := q }

def Pool.note (s : Pool n m J) (c : Call (Option J)) : Pool n m J :=
  match c, body n c s.jobq.data with
  | .enq (some j) _, .done (.enq true) _ _ => { s with accepted := s.accepted ++ [j] }
  | .deq, .done (.deq (some j)) _ _ => { s with started := s.started ++ [j] }
  | _, _ => s

def Pool.setWorker (s : Pool n m J) (i : Fin n) (w : Worker J) : Pool n m J :=
  { s with worker := update s.worker i w }

/-- A step; `blockadd` is `blockadd_`. -/
def step (blockadd : Bool) (s : Pool n m J) : Event n m J → Option (Pool n m J)
  | .add a j => s.queue (.call (.adder a) (.enq (some j) blockadd))
  | .addReturn a => s.queue (.ret (.adder a))
  | .take i =>
    match s.worker i with
    | .loop => (s.setWorker i .taking).queue (.call (.worker i) .deq)
    | _ => none
  | .taken i =>
    match s.worker i, s.jobq.pc (.worker i) with
    | .taking, .returning (.deq none) => (s.setWorker i .dead).queue (.ret (.worker i))
    | .taking, .returning (.deq (some j)) => (s.setWorker i (.running j)).queue (.ret (.worker i))
    | _, _ => none
  | .finish i =>
    match s.worker i with
    | .running j => some { s.setWorker i .loop with finished := s.finished ++ [j] }
    | _ => none
  | .destroy => if s.dtor = .no then some { s with dtor := .pushing 0 } else none
  | .push =>
    match s.dtor with
    | .pushing k => if k < n then s.queue (.call .dtor (.enq none true)) else none
    | _ => none
  | .pushed =>
    match s.dtor with
    | .pushing k => { s with dtor := .pushing (k + 1) }.queue (.ret .dtor)
    | _ => none
  | .join =>
    match s.dtor with
    | .pushing k => if k < n then none else some { s with dtor := .joining 0 }
    | .joining k =>
      if h : k < n then
        match s.worker ⟨k, h⟩ with
        | .dead => some { s with dtor := .joining (k + 1) }
        | _ => none
      else some { s with dtor := .done }
    | _ => none
  | .run t pick =>
    (s.jobq.pc t).ready.bind fun c => (s.note c).queue (.run t pick)
  | .wake t => s.queue (.wake t)

/-! ## Where jobs and pills are -/

def jobs (q : List (Option J)) : List J := q.filterMap id

def pillsIn (q : List (Option J)) : Nat := q.countP Option.isNone

def inHand : Worker J → Phase (Call (Option J)) (Ret (Option J)) → Multiset J
  | .running j, _ => {j}
  | .taking, .done (.deq (some j)) => {j}
  | _, _ => 0

def gone : Worker J → Phase (Call (Option J)) (Ret (Option J)) → Nat
  | .dead, _ => 1
  | .taking, .done (.deq none) => 1
  | _, _ => 0

def pushed (n : Nat) : Dtor → Phase (Call (Option J)) (Ret (Option J)) → Nat
  | .no, _ => 0
  | .pushing k, .done _ => k + 1
  | .pushing k, _ => k
  | .joining _, _ => n
  | .done, _ => n

inductive WorkerAt : Worker J → Phase (Call (Option J)) (Ret (Option J)) → Prop
  | loop : WorkerAt .loop .idle
  | taking : WorkerAt .taking (.called .deq)
  | taken {e : Option J} : WorkerAt .taking (.done (.deq e))
  | running {j : J} : WorkerAt (.running j) .idle
  | dead : WorkerAt .dead .idle

inductive AdderAt (blockadd : Bool) : Phase (Call (Option J)) (Ret (Option J)) → Prop
  | idle : AdderAt blockadd .idle
  | adding {j : J} : AdderAt blockadd (.called (.enq (some j) blockadd))
  | added {ok : Bool} : AdderAt blockadd (.done (.enq ok))

inductive DtorAt (n : Nat) : Dtor → Phase (Call (Option J)) (Ret (Option J)) → Prop
  | no : DtorAt n .no .idle
  | between {k : Nat} : k ≤ n → DtorAt n (.pushing k) .idle
  | pushing {k : Nat} : k < n → DtorAt n (.pushing k) (.called (.enq none true))
  | pushed {k : Nat} : k < n → DtorAt n (.pushing k) (.done (.enq true))
  | joining {k : Nat} : k ≤ n → DtorAt n (.joining k) .idle
  | done : DtorAt n .done .idle

def Dtor.joined (n : Nat) : Dtor → Nat
  | .no => 0
  | .pushing _ => 0
  | .joining k => k
  | .done => n

structure Inv (blockadd : Bool) (s : Pool n m J) : Prop where
  order : s.accepted = s.started ++ jobs s.jobq.data
  count : (s.started : Multiset J) =
    s.finished + ∑ i, inHand (s.worker i) (s.jobq.phases (.worker i))
  pills : pushed n s.dtor (s.jobq.phases .dtor) =
    pillsIn s.jobq.data + ∑ i, gone (s.worker i) (s.jobq.phases (.worker i))
  worker : ∀ i, WorkerAt (s.worker i) (s.jobq.phases (.worker i))
  adder : ∀ a, AdderAt blockadd (s.jobq.phases (.adder a))
  dtor : DtorAt n s.dtor (s.jobq.phases .dtor)
  joined : ∀ i : Fin n, i.val < s.dtor.joined n → s.worker i = .dead

theorem inv_init (blockadd : Bool) : Inv blockadd (Pool.init : Pool n m J) where
  order := rfl
  count := by simp [Pool.init, State.init, State.phases, Pc.phase, inHand]
  pills := by simp [Pool.init, State.init, State.phases, Pc.phase, gone, pushed, pillsIn]
  worker _ := .loop
  adder _ := .idle
  dtor := .no
  joined i h := by simp [Pool.init, Dtor.joined] at h

/-! ## One thread moves -/

theorem sum_step {ι M : Type} [Fintype ι] [DecidableEq ι] [AddCommMonoid M] {f g : ι → M} {i : ι}
    (h : ∀ k, k ≠ i → g k = f k) : ∑ k, g k + f i = ∑ k, f k + g i := by
  rw [← Finset.add_sum_erase _ g (Finset.mem_univ i),
    ← Finset.add_sum_erase _ f (Finset.mem_univ i),
    Finset.sum_congr rfl fun k hk => h k (Finset.ne_of_mem_erase hk)]
  abel

section Moves

variable {blockadd : Bool} {s s' : Pool n m J} {p : Phase (Call (Option J)) (Ret (Option J))}

/-- Worker `i` moves: what goes out of one place comes into another. -/
theorem Inv.at_worker (h : Inv blockadd s) {i : Fin n} {w : Worker J}
    (hphases : s'.jobq.phases = update s.jobq.phases (.worker i) p)
    (hworker : s'.worker = update s.worker i w) (hdtor : s'.dtor = s.dtor)
    (hat : WorkerAt w p) (hdead : s.worker i = .dead → w = .dead)
    (horder : s'.accepted = s'.started ++ jobs s'.jobq.data)
    (hcount : (s'.started : Multiset J) + s.finished +
        inHand (s.worker i) (s.jobq.phases (.worker i)) =
      s.started + s'.finished + inHand w p)
    (hpills : pillsIn s'.jobq.data + gone w p =
      pillsIn s.jobq.data + gone (s.worker i) (s.jobq.phases (.worker i))) : Inv blockadd s' := by
  have hphase : ∀ k, k ≠ i → s'.jobq.phases (.worker k) = s.jobq.phases (.worker k) := by
    intro k hk
    rw [hphases, update_of_ne (by simpa using hk)]
  have hself : s'.jobq.phases (.worker i) = p := by rw [hphases, update_self]
  have hw : ∀ k, k ≠ i → s'.worker k = s.worker k := by
    intro k hk
    rw [hworker, update_of_ne hk]
  have hwself : s'.worker i = w := by rw [hworker, update_self]
  have hhand := sum_step (f := fun k => inHand (s.worker k) (s.jobq.phases (.worker k)))
    (g := fun k => inHand (s'.worker k) (s'.jobq.phases (.worker k))) (i := i)
    fun k hk => by rw [hw k hk, hphase k hk]
  have hgone := sum_step (f := fun k => gone (s.worker k) (s.jobq.phases (.worker k)))
    (g := fun k => gone (s'.worker k) (s'.jobq.phases (.worker k))) (i := i)
    fun k hk => by rw [hw k hk, hphase k hk]
  simp only [hself, hwself] at hhand hgone
  have hdtorphase : s'.jobq.phases .dtor = s.jobq.phases .dtor := by
    rw [hphases, update_of_ne (by simp)]
  refine
    { order := horder
      count := ?_
      pills := ?_
      worker := fun k => ?_
      adder := fun a => ?_
      dtor := ?_
      joined := fun k hk => ?_ }
  · have hold := h.count
    refine add_right_cancel (b := ((s.finished : Multiset J) +
      inHand (s.worker i) (s.jobq.phases (.worker i)))) ?_
    calc (s'.started : Multiset J) + (s.finished + inHand (s.worker i) (s.jobq.phases (.worker i)))
        = s.started + s'.finished + inHand w p := by rw [← add_assoc, hcount]
      _ = s'.finished + s.finished +
          (∑ k, inHand (s.worker k) (s.jobq.phases (.worker k)) + inHand w p) := by
        rw [hold]
        abel
      _ = _ := by
        rw [← hhand]
        abel
  · have hold := h.pills
    rw [hdtor, hdtorphase]
    omega
  · rcases eq_or_ne k i with rfl | hk
    · rw [hself, hwself]
      exact hat
    · rw [hw k hk, hphase k hk]
      exact h.worker k
  · rw [hphases, update_of_ne (by simp)]
    exact h.adder a
  · rw [hdtor, hdtorphase]
    exact h.dtor
  · rw [hdtor] at hk
    rcases eq_or_ne k i with rfl | hne
    · rw [hwself]
      exact hdead (h.joined k hk)
    · rw [hw k hne]
      exact h.joined k hk

/-- A thread that adds a job moves. -/
theorem Inv.at_adder (h : Inv blockadd s) {a : Fin m}
    (hphases : s'.jobq.phases = update s.jobq.phases (.adder a) p)
    (hworker : s'.worker = s.worker) (hdtor : s'.dtor = s.dtor)
    (hstarted : s'.started = s.started) (hfinished : s'.finished = s.finished)
    (hat : AdderAt blockadd p) (horder : s'.accepted = s'.started ++ jobs s'.jobq.data)
    (hpills : pillsIn s'.jobq.data = pillsIn s.jobq.data) : Inv blockadd s' where
  order := horder
  count := by
    rw [hstarted, hfinished, hworker, h.count]
    refine congrArg _ (Finset.sum_congr rfl fun i _ => ?_)
    rw [hphases, update_of_ne (by simp)]
  pills := by
    rw [hdtor, hworker, hpills, hphases, update_of_ne (by simp), h.pills]
    refine congrArg _ (Finset.sum_congr rfl fun i _ => ?_)
    rw [update_of_ne (by simp)]
  worker i := by
    rw [hworker, hphases, update_of_ne (by simp)]
    exact h.worker i
  adder b := by
    rcases eq_or_ne b a with rfl | hne
    · rw [hphases, update_self]
      exact hat
    · rw [hphases, update_of_ne (by simpa using hne)]
      exact h.adder b
  dtor := by
    rw [hdtor, hphases, update_of_ne (by simp)]
    exact h.dtor
  joined i hi := by
    rw [hdtor] at hi
    rw [hworker]
    exact h.joined i hi

/-- The destructor moves. -/
theorem Inv.at_dtor (h : Inv blockadd s)
    (hphases : s'.jobq.phases = update s.jobq.phases .dtor p)
    (hworker : s'.worker = s.worker) (haccepted : s'.accepted = s.accepted)
    (hstarted : s'.started = s.started) (hfinished : s'.finished = s.finished)
    (hat : DtorAt n s'.dtor p) (hjobs : jobs s'.jobq.data = jobs s.jobq.data)
    (hpills : pushed n s'.dtor p + pillsIn s.jobq.data =
      pushed n s.dtor (s.jobq.phases .dtor) + pillsIn s'.jobq.data)
    (hjoined : ∀ i : Fin n, i.val < s'.dtor.joined n → s.worker i = .dead) :
    Inv blockadd s' where
  order := by rw [haccepted, hstarted, hjobs, h.order]
  count := by
    rw [hstarted, hfinished, hworker, h.count]
    refine congrArg _ (Finset.sum_congr rfl fun i _ => ?_)
    rw [hphases, update_of_ne (by simp)]
  pills := by
    have hgone : ∑ i, gone (s'.worker i) (s'.jobq.phases (.worker i)) =
        ∑ i, gone (s.worker i) (s.jobq.phases (.worker i)) := by
      refine Finset.sum_congr rfl fun i _ => ?_
      rw [hworker, hphases, update_of_ne (by simp)]
    have hold := h.pills
    rw [hgone, hphases, update_self]
    omega
  worker i := by
    rw [hworker, hphases, update_of_ne (by simp)]
    exact h.worker i
  adder a := by
    rw [hphases, update_of_ne (by simp)]
    exact h.adder a
  dtor := by
    rw [hphases, update_self]
    exact hat
  joined i hi := by
    rw [hworker]
    exact hjoined i hi

/-- A thread goes to sleep or wakes up. -/
theorem Inv.same (h : Inv blockadd s) {q : Jobq n m J} (hphases : q.phases = s.jobq.phases)
    (hdata : q.data = s.jobq.data) : Inv blockadd { s with jobq := q } where
  order := by rw [hdata, h.order]
  count := by rw [hphases, h.count]
  pills := by rw [hdata, hphases, h.pills]
  worker := by rw [hphases]; exact h.worker
  adder := by rw [hphases]; exact h.adder
  dtor := by rw [hphases]; exact h.dtor
  joined := h.joined

theorem queue_eq_some {e : Monitor.Event (Tid n m) (Call (Option J))} :
    s.queue e = some s' ↔
      ∃ q, Monitor.step (body n) s.jobq e = some q ∧ s' = { s with jobq := q } := by
  rw [Pool.queue, Option.map_eq_some_iff]
  exact exists_congr fun q => and_congr_right fun _ => eq_comm

end Moves

/-! ## Every step -/

/-- Where a worker goes with what it has taken. -/
def Worker.given : Option J → Worker J
  | none => .dead
  | some j => .running j

inductive Moves (blockadd : Bool) (s : Pool n m J) : Event n m J → Pool n m J → Prop
  | add {a : Fin m} {j : J} {q : Jobq n m J} :
      Monitor.step (body n) s.jobq (.call (.adder a) (.enq (some j) blockadd)) = some q →
      Moves blockadd s (.add a j) { s with jobq := q }
  | addReturn {a : Fin m} {q : Jobq n m J} :
      Monitor.step (body n) s.jobq (.ret (.adder a)) = some q →
      Moves blockadd s (.addReturn a) { s with jobq := q }
  | take {i : Fin n} {q : Jobq n m J} : s.worker i = .loop →
      Monitor.step (body n) s.jobq (.call (.worker i) .deq) = some q →
      Moves blockadd s (.take i) { s.setWorker i .taking with jobq := q }
  | taken {i : Fin n} {e : Option J} {q : Jobq n m J} : s.worker i = .taking →
      s.jobq.pc (.worker i) = .returning (.deq e) →
      Monitor.step (body n) s.jobq (.ret (.worker i)) = some q →
      Moves blockadd s (.taken i) { s.setWorker i (.given e) with jobq := q }
  | finish {i : Fin n} {j : J} : s.worker i = .running j →
      Moves blockadd s (.finish i) { s.setWorker i .loop with finished := s.finished ++ [j] }
  | destroy : s.dtor = .no → Moves blockadd s .destroy { s with dtor := .pushing 0 }
  | push {k : Nat} {q : Jobq n m J} : s.dtor = .pushing k → k < n →
      Monitor.step (body n) s.jobq (.call .dtor (.enq none true)) = some q →
      Moves blockadd s .push { s with jobq := q }
  | pushed {k : Nat} {q : Jobq n m J} : s.dtor = .pushing k →
      Monitor.step (body n) s.jobq (.ret .dtor) = some q →
      Moves blockadd s .pushed { s with dtor := .pushing (k + 1), jobq := q }
  | joinFirst {k : Nat} : s.dtor = .pushing k → ¬ k < n →
      Moves blockadd s .join { s with dtor := .joining 0 }
  | joinNext {k : Nat} (hk : k < n) : s.dtor = .joining k → s.worker ⟨k, hk⟩ = .dead →
      Moves blockadd s .join { s with dtor := .joining (k + 1) }
  | joinLast {k : Nat} : s.dtor = .joining k → ¬ k < n →
      Moves blockadd s .join { s with dtor := .done }
  | run {t : Tid n m} {pick : Option (Tid n m)} {c : Call (Option J)} {q : Jobq n m J} :
      (s.jobq.pc t).ready = some c → Monitor.step (body n) s.jobq (.run t pick) = some q →
      Moves blockadd s (.run t pick) { s.note c with jobq := q }
  | wake {t : Tid n m} {q : Jobq n m J} : Monitor.step (body n) s.jobq (.wake t) = some q →
      Moves blockadd s (.wake t) { s with jobq := q }

section Steps

variable {blockadd : Bool} {s s' : Pool n m J}

theorem note_jobq (s : Pool n m J) (c : Call (Option J)) : (s.note c).jobq = s.jobq := by
  unfold Pool.note
  split <;> rfl

theorem moves_of_step {e : Event n m J} (hs : step blockadd s e = some s') :
    Moves blockadd s e s' := by
  cases e with
  | add a j =>
    obtain ⟨q, hq, rfl⟩ := queue_eq_some.mp hs
    exact .add hq
  | addReturn a =>
    obtain ⟨q, hq, rfl⟩ := queue_eq_some.mp hs
    exact .addReturn hq
  | take i =>
    simp only [step] at hs
    split at hs
    · rename_i hw
      obtain ⟨q, hq, rfl⟩ := queue_eq_some.mp hs
      exact .take hw hq
    · cases hs
  | taken i =>
    simp only [step] at hs
    split at hs
    · rename_i hw hpc
      obtain ⟨q, hq, rfl⟩ := queue_eq_some.mp hs
      exact .taken hw hpc hq
    · rename_i j hw hpc
      obtain ⟨q, hq, rfl⟩ := queue_eq_some.mp hs
      exact .taken hw hpc hq
    · cases hs
  | finish i =>
    simp only [step] at hs
    split at hs
    · rename_i j hw
      cases hs
      exact .finish hw
    · cases hs
  | destroy =>
    obtain ⟨hno, rfl⟩ := Run.of_guard hs
    exact .destroy hno
  | push =>
    simp only [step] at hs
    split at hs
    · rename_i k hk
      split at hs
      · rename_i hlt
        obtain ⟨q, hq, rfl⟩ := queue_eq_some.mp hs
        exact .push hk hlt hq
      · cases hs
    · cases hs
  | pushed =>
    simp only [step] at hs
    split at hs
    · rename_i k hk
      obtain ⟨q, hq, rfl⟩ := queue_eq_some.mp hs
      exact .pushed hk hq
    · cases hs
  | join =>
    simp only [step] at hs
    split at hs
    · rename_i k hk
      split at hs
      · cases hs
      · rename_i hge
        cases hs
        exact .joinFirst hk hge
    · rename_i k hk
      split at hs
      · rename_i hlt
        split at hs
        · rename_i hdead
          cases hs
          exact .joinNext hlt hk hdead
        · cases hs
      · rename_i hge
        cases hs
        exact .joinLast hk hge
    · cases hs
  | run t pick =>
    obtain ⟨c, hready, hq⟩ := Option.bind_eq_some_iff.mp hs
    obtain ⟨q, hstep, rfl⟩ := queue_eq_some.mp hq
    rw [note_jobq s c] at hstep
    exact .run hready hstep
  | wake t =>
    obtain ⟨q, hq, rfl⟩ := queue_eq_some.mp hs
    exact .wake hq

variable {i : Fin n} {k : Nat} {pick : Option (Tid n m)}

theorem Inv.taken (h : Inv blockadd s) {e : Option J} {q : Jobq n m J} (hw : s.worker i = .taking)
    (hpc : s.jobq.pc (.worker i) = .returning (.deq e))
    (hq : Monitor.step (body n) s.jobq (.ret (.worker i)) = some q) :
    Inv blockadd { s.setWorker i (.given e) with jobq := q } := by
  obtain ⟨_, hphases, hdata⟩ := phases_ret hq
  have hphase : s.jobq.phases (.worker i) = .done (.deq e) := by
    simp [State.phases, hpc, Pc.phase]
  have horder : s.accepted = s.started ++ jobs q.data := by
    rw [hdata]
    exact h.order
  cases e with
  | none =>
    refine h.at_worker hphases rfl rfl .dead (by simp [hw]) horder ?_ ?_
    · simp [Pool.setWorker, Worker.given, hw, hphase, inHand]
    · simp [Worker.given, hdata, hw, hphase, gone]
  | some j =>
    refine h.at_worker hphases rfl rfl .running (by simp [hw]) horder ?_ ?_
    · simp [Pool.setWorker, Worker.given, hw, hphase, inHand]
    · simp [Worker.given, hdata, hw, hphase, gone]

theorem Inv.finish (h : Inv blockadd s) {j : J} (hw : s.worker i = .running j) :
    Inv blockadd { s.setWorker i .loop with finished := s.finished ++ [j] } := by
  have hphase : s.jobq.phases (.worker i) = .idle := by
    have hat := h.worker i
    rw [hw] at hat
    generalize s.jobq.phases (.worker i) = p at hat
    cases hat
    rfl
  refine h.at_worker (i := i) (w := .loop) (p := .idle) ?_ rfl rfl .loop (by simp [hw]) h.order
    ?_ ?_
  · rw [← hphase]
    exact (update_eq_self _ _).symm
  · simp only [Pool.setWorker, hw, inHand, ← Multiset.coe_add]
    rw [add_zero, add_assoc]
    rfl
  · simp [Pool.setWorker, hw, gone]

theorem Inv.pushed (h : Inv blockadd s) {q : Jobq n m J} (hk : s.dtor = .pushing k)
    (hq : Monitor.step (body n) s.jobq (.ret .dtor) = some q) :
    Inv blockadd { s with dtor := .pushing (k + 1), jobq := q } := by
  obtain ⟨⟨a, ha⟩, hphases, hdata⟩ := phases_ret hq
  have hat := h.dtor
  rw [hk, ha] at hat
  cases hat with
  | pushed hlt =>
    refine h.at_dtor hphases rfl rfl rfl rfl (.between hlt) (by rw [hdata]) ?_ ?_
    · simp [ThrPool.pushed, hk, ha, hdata]
    · simp [Dtor.joined]

/-- The destructor goes on, outside the queue. -/
theorem Inv.dtor_moves (h : Inv blockadd s) {d : Dtor} (hidle : s.jobq.phases .dtor = .idle)
    (hat : DtorAt n d (.idle : Phase (Call (Option J)) (Ret (Option J))))
    (hpushed : ThrPool.pushed n d (.idle : Phase (Call (Option J)) (Ret (Option J))) =
      ThrPool.pushed n s.dtor (.idle : Phase (Call (Option J)) (Ret (Option J))))
    (hjoined : ∀ i : Fin n, i.val < d.joined n → s.worker i = .dead) :
    Inv blockadd { s with dtor := d } := by
  refine h.at_dtor (p := .idle) ?_ rfl rfl rfl rfl hat rfl (by rw [hpushed, hidle]) hjoined
  rw [← hidle]
  exact (update_eq_self _ _).symm

theorem Inv.joinFirst (h : Inv blockadd s) (hk : s.dtor = .pushing k) (hge : ¬ k < n) :
    Inv blockadd { s with dtor := .joining 0 } := by
  have hat := h.dtor
  rw [hk] at hat
  generalize hphase : s.jobq.phases .dtor = p at hat
  cases hat with
  | between hle =>
    refine h.dtor_moves hphase (.joining (Nat.zero_le n)) ?_ (by simp [Dtor.joined])
    simp only [ThrPool.pushed, hk]
    omega
  | pushing hlt | pushed hlt => exact absurd hlt hge

theorem Inv.joining (h : Inv blockadd s) (hk : s.dtor = .joining k) :
    s.jobq.phases .dtor = .idle ∧ k ≤ n := by
  have hat := h.dtor
  rw [hk] at hat
  generalize s.jobq.phases .dtor = p at hat
  cases hat with
  | joining hle => exact ⟨rfl, hle⟩

theorem Inv.joinNext (h : Inv blockadd s) (hlt : k < n) (hk : s.dtor = .joining k)
    (hdead : s.worker ⟨k, hlt⟩ = .dead) : Inv blockadd { s with dtor := .joining (k + 1) } := by
  refine h.dtor_moves (h.joining hk).1 (.joining hlt) (by simp [ThrPool.pushed, hk]) fun i hi => ?_
  simp only [Dtor.joined] at hi
  rcases Nat.lt_succ_iff_lt_or_eq.mp hi with hi | hi
  · exact h.joined i (by simpa [hk, Dtor.joined] using hi)
  · rwa [show i = ⟨k, hlt⟩ from Fin.ext hi]

theorem Inv.joinLast (h : Inv blockadd s) (hk : s.dtor = .joining k) (hge : ¬ k < n) :
    Inv blockadd { s with dtor := .done } := by
  obtain ⟨hidle, hle⟩ := h.joining hk
  refine h.dtor_moves hidle .done (by simp [ThrPool.pushed, hk]) fun i hi => h.joined i ?_
  rw [hk]
  simp only [Dtor.joined]
  omega

theorem note_frame (s : Pool n m J) (c : Call (Option J)) (q : Jobq n m J) :
    { s.note c with jobq := q }.worker = s.worker ∧ { s.note c with jobq := q }.dtor = s.dtor := by
  unfold Pool.note
  split <;> exact ⟨rfl, rfl⟩

theorem note_of_wait {c : Call (Option J)} {cond : Cond} (h : body n c s.jobq.data = .wait cond) :
    s.note c = s := by
  unfold Pool.note
  rw [h]
  cases c with
  | enq e blocking => cases e <;> rfl
  | deq => rfl
  | size => rfl

/-- What one run of a body does to the pool. -/
theorem run_eq_some {t : Tid n m} (hs : step blockadd s (.run t pick) = some s') :
    ∃ c q, s.jobq.phases t = .called c ∧
      Monitor.step (body n) s.jobq (.run t pick) = some q ∧ s' = { s.note c with jobq := q } ∧
      (q.phases = s.jobq.phases ∧ q.data = s.jobq.data ∧ s.note c = s ∨
        ∃ a sig, body n c s.jobq.data = .done a q.data sig ∧
          q.phases = update s.jobq.phases t (.done a)) := by
  cases moves_of_step hs with
  | @run _ _ c q hready hstep =>
    obtain ⟨c', hready', hphase, hcases⟩ := phases_run hstep
    obtain rfl : c' = c := Option.some.inj (hready'.symm.trans hready)
    refine ⟨c', q, hphase, hstep, rfl, ?_⟩
    rcases hcases with ⟨⟨cond, hwait⟩, hphases, hdata⟩ | hdone
    · exact .inl ⟨hphases, hdata, note_of_wait hwait⟩
    · exact .inr hdone

/-- A worker goes to sleep, or takes the head of the queue. -/
theorem Inv.worker_runs (h : Inv blockadd s)
    (hs : step blockadd s (.run (.worker i) pick) = some s') :
    ∃ q, (s' = { s with jobq := q } ∧ q.phases = s.jobq.phases ∧ q.data = s.jobq.data) ∨
      ∃ e, s.worker i = .taking ∧ s.jobq.phases (.worker i) = .called .deq ∧
        s.jobq.data = e :: q.data ∧
        q.phases = update s.jobq.phases (.worker i) (.done (.deq e)) ∧
        s' = { s with jobq := q, started := s.started ++ e.toList } := by
  obtain ⟨c, q, hphase, _, rfl, ⟨hphases, hdata, hnote⟩ | ⟨a, sig, hb, hphases⟩⟩ := run_eq_some hs
  · exact ⟨q, .inl ⟨by rw [hnote], hphases, hdata⟩⟩
  · have hat := h.worker i
    rw [hphase] at hat
    generalize hw : s.worker i = w at hat
    cases hat
    have hdoes := Fifo.does_body (100 * n) .deq s.jobq.data
    change Fifo.body (100 * n) .deq s.jobq.data = .done a q.data sig at hb
    generalize hd : q.data = d at hb
    rw [hb] at hdoes
    cases hdoes with
    | @pop e _ he =>
      refine ⟨q, .inr ⟨e, rfl, hphase, by rw [hd, he], hphases, ?_⟩⟩
      cases e <;> simp [Pool.note, body, hb]

/-- A job is accepted, or refused. -/
theorem Inv.adder_runs (h : Inv blockadd s) {a : Fin m}
    (hs : step blockadd s (.run (.adder a) pick) = some s') :
    ∃ q, (s' = { s with jobq := q } ∧ q.phases = s.jobq.phases ∧ q.data = s.jobq.data) ∨
      ∃ j ok, s.jobq.phases (.adder a) = .called (.enq (some j) blockadd) ∧
        q.phases = update s.jobq.phases (.adder a) (.done (.enq ok)) ∧
        q.data = s.jobq.data ++ (if ok then [some j] else []) ∧
        s' = { s with jobq := q, accepted := s.accepted ++ (if ok then [j] else []) } := by
  obtain ⟨c, q, hphase, _, rfl, ⟨hphases, hdata, hnote⟩ | ⟨r, sig, hb, hphases⟩⟩ := run_eq_some hs
  · exact ⟨q, .inl ⟨by rw [hnote], hphases, hdata⟩⟩
  · have hat := h.adder a
    rw [hphase] at hat
    cases hat with
    | @adding j =>
      have hdoes := Fifo.does_body (100 * n) (.enq (some j) blockadd) s.jobq.data
      change Fifo.body (100 * n) _ s.jobq.data = .done r q.data sig at hb
      generalize hd : q.data = d at hb
      rw [hb] at hdoes
      cases hdoes with
      | push hspace =>
        exact ⟨q, .inr ⟨j, true, hphase, hphases, by simp [hd], by simp [Pool.note, body, hb]⟩⟩
      | refuse hmax hfull =>
        exact ⟨q, .inr ⟨j, false, hphase, hphases, by simp [hd], by simp [Pool.note, body, hb]⟩⟩

/-- A pill is put in, or the destructor waits for a place. -/
theorem Inv.dtor_runs (h : Inv blockadd s) (hs : step blockadd s (.run .dtor pick) = some s') :
    ∃ q, s' = { s with jobq := q } ∧ ((q.phases = s.jobq.phases ∧ q.data = s.jobq.data) ∨
      ∃ k, k < n ∧ s.dtor = .pushing k ∧ s.jobq.phases .dtor = .called (.enq none true) ∧
        q.phases = update s.jobq.phases .dtor (.done (.enq true)) ∧
        q.data = s.jobq.data ++ [none]) := by
  obtain ⟨c, q, hphase, _, rfl, ⟨hphases, hdata, hnote⟩ | ⟨r, sig, hb, hphases⟩⟩ := run_eq_some hs
  · exact ⟨q, by rw [hnote], .inl ⟨hphases, hdata⟩⟩
  · have hat := h.dtor
    rw [hphase] at hat
    generalize hd : s.dtor = d at hat
    cases hat with
    | @pushing k hlt =>
      have hdoes := Fifo.does_body (100 * n) (.enq none true) s.jobq.data
      change Fifo.body (100 * n) _ s.jobq.data = .done r q.data sig at hb
      rw [hb] at hdoes
      generalize hq : q.data = d at hdoes
      cases hdoes with
      | push hspace => exact ⟨q, by rw [← hd]; rfl, .inr ⟨k, hlt, rfl, hphase, hphases, hq⟩⟩

theorem Inv.run_worker (h : Inv blockadd s)
    (hs : step blockadd s (.run (.worker i) pick) = some s') : Inv blockadd s' := by
  obtain ⟨q, ⟨rfl, hphases, hdata⟩ | ⟨e, hw, hphase, hdata, hphases, rfl⟩⟩ := h.worker_runs hs
  · exact h.same hphases hdata
  · have horder := h.order
    rw [hdata] at horder
    refine h.at_worker hphases (w := .taking) ?_ rfl .taken (by simp [hw]) ?_ ?_ ?_
    · rw [← hw]
      exact (update_eq_self _ _).symm
    · cases e <;> simpa [jobs] using horder
    · cases e with
      | none => simp [hw, hphase, inHand]
      | some j =>
        simp only [hw, hphase, inHand, Option.toList_some, ← Multiset.coe_add, add_zero]
        exact add_right_comm _ _ _
    · cases e <;> simp [hdata, hw, hphase, gone, pillsIn]

theorem Inv.run_adder (h : Inv blockadd s) {a : Fin m}
    (hs : step blockadd s (.run (.adder a) pick) = some s') : Inv blockadd s' := by
  obtain ⟨q, ⟨rfl, hphases, hdata⟩ | ⟨j, ok, _, hphases, hdata, rfl⟩⟩ := h.adder_runs hs
  · exact h.same hphases hdata
  · refine h.at_adder hphases rfl rfl rfl rfl .added ?_ ?_
    · cases ok <;> simp [hdata, h.order, jobs]
    · cases ok <;> simp [hdata, pillsIn]

theorem Inv.run_dtor (h : Inv blockadd s) (hs : step blockadd s (.run .dtor pick) = some s') :
    Inv blockadd s' := by
  obtain ⟨q, rfl, ⟨hphases, hdata⟩ | ⟨k, hlt, hk, hphase, hphases, hdata⟩⟩ := h.dtor_runs hs
  · exact h.same hphases hdata
  · refine h.at_dtor hphases rfl rfl rfl rfl ?_ ?_ ?_ ?_
    · rw [hk]
      exact .pushed hlt
    · simp [hdata, jobs]
    · simp [hdata, hk, hphase, ThrPool.pushed, pillsIn]
      omega
    · simp [hk, Dtor.joined]

theorem inv_step (h : Inv blockadd s) {e : Event n m J} (hs : step blockadd s e = some s') :
    Inv blockadd s' := by
  cases moves_of_step hs with
  | add hq =>
    obtain ⟨_, hphases, hdata⟩ := phases_call hq
    exact h.at_adder hphases rfl rfl rfl rfl .adding (by rw [hdata]; exact h.order) (by rw [hdata])
  | addReturn hq =>
    obtain ⟨_, hphases, hdata⟩ := phases_ret hq
    exact h.at_adder hphases rfl rfl rfl rfl .idle (by rw [hdata]; exact h.order) (by rw [hdata])
  | take hw hq =>
    obtain ⟨_, hphases, hdata⟩ := phases_call hq
    refine h.at_worker hphases rfl rfl .taking (by simp [hw]) ?_ ?_ ?_
    · rw [hdata]
      exact h.order
    · simp [Pool.setWorker, hw, inHand]
    · simp [hdata, hw, gone]
  | taken hw hpc hq => exact h.taken hw hpc hq
  | finish hw => exact h.finish hw
  | destroy hno =>
    have hat := h.dtor
    rw [hno] at hat
    generalize hphase : s.jobq.phases .dtor = p at hat
    cases hat
    exact h.dtor_moves hphase (.between (Nat.zero_le n)) (by simp [pushed, hno])
      (by simp [Dtor.joined])
  | push hk hlt hq =>
    obtain ⟨hidle, hphases, hdata⟩ := phases_call hq
    refine h.at_dtor hphases rfl rfl rfl rfl ?_ (by rw [hdata]) ?_ ?_
    · rw [hk]
      exact .pushing hlt
    · simp [pushed, hk, hidle, hdata]
    · simp [Dtor.joined, hk]
  | pushed hk hq => exact h.pushed hk hq
  | joinFirst hk hge => exact h.joinFirst hk hge
  | joinNext hlt hk hdead => exact h.joinNext hlt hk hdead
  | joinLast hk hge => exact h.joinLast hk hge
  | @run t _ _ _ _ _ =>
    cases t with
    | worker i => exact h.run_worker hs
    | adder a => exact h.run_adder hs
    | dtor => exact h.run_dtor hs
  | wake hq =>
    obtain ⟨hphases, hdata⟩ := phases_wake hq
    exact h.same hphases hdata

end Steps

/-! ## Every job is run once -/

section Runs

variable {blockadd : Bool} {s s' : Pool n m J}

theorem inv_of_reach {ok : Pool n m J → Event n m J → Prop}
    (h : Reach (step blockadd) ok Pool.init s) : Inv blockadd s :=
  h.invariant (Inv blockadd) (inv_init blockadd) fun _ _ _ hinv _ hs => inv_step hinv hs

/-- **Every accepted job is run once**: the jobs are started in the order in
which they were accepted, and a job that was started is finished or in the hands
of one worker. -/
theorem pool_runs_each_job_once
    (h : Reach (step blockadd) (fun _ _ => True) (Pool.init : Pool n m J) s) :
    s.accepted = s.started ++ jobs s.jobq.data ∧
      (s.started : Multiset J) =
        s.finished + ∑ i, inHand (s.worker i) (s.jobq.phases (.worker i)) :=
  ⟨(inv_of_reach h).order, (inv_of_reach h).count⟩

/-- One worker goes to sleep, is woken for a job, and a second job comes in
while it runs the first. -/
def secondJob : List (Event 1 1 Nat) :=
  [.take 0, .run (.worker 0) none, .add 0 7, .run (.adder 0) (some (.worker 0)), .addReturn 0,
    .run (.worker 0) none, .taken 0, .add 0 8, .run (.adder 0) none, .addReturn 0]

theorem pool_runs_each_job_once_second :
    ∃ s : Pool 1 1 Nat, Reach (step false) (fun _ _ => True) Pool.init s ∧
      s.started = [7] ∧ s.jobq.data = [some 8] ∧ s.accepted = [7, 8] := by
  obtain ⟨s, hreach, hstarted, hdata⟩ :
      ∃ s : Pool 1 1 Nat, Reach (step false) (fun _ _ => True) Pool.init s ∧
        s.started = [7] ∧ s.jobq.data = [some 8] := exists_reach secondJob (by decide)
  refine ⟨s, hreach, hstarted, hdata, ?_⟩
  rw [(pool_runs_each_job_once hreach).1, hstarted, hdata]
  rfl

/-! ## The destructor -/

/-- "This function can be called only when no external thread will ever use this
thread pool again or is currently blocking on it". -/
def Alone (s : Pool n m J) : Event n m J → Prop
  | .add _ _ => s.dtor = .no
  | .destroy => ∀ a, s.jobq.phases (.adder a) = .idle
  | _ => True

instance decidableAlone [DecidableEq J] (s : Pool n m J) (e : Event n m J) :
    Decidable (Alone s e) := by
  rcases e <;> unfold Alone <;> infer_instance

structure Drain (s : Pool n m J) : Prop where
  idle : s.dtor ≠ .no → ∀ a, s.jobq.phases (.adder a) = .idle
  last : s.jobq.data.Pairwise fun x y => x = none → y = none
  drained : pillsIn s.jobq.data < pushed n s.dtor (s.jobq.phases .dtor) →
    ∀ x ∈ s.jobq.data, x = none

theorem drain_init : Drain (Pool.init : Pool n m J) where
  idle _ _ := rfl
  last := .nil
  drained _ := by simp [Pool.init, State.init]

/-- A step that leaves the queue as it is. -/
theorem Drain.same (h : Drain s) (hdata : s'.jobq.data = s.jobq.data)
    (hpushed : pushed n s'.dtor (s'.jobq.phases .dtor) = pushed n s.dtor (s.jobq.phases .dtor))
    (hidle : s'.dtor ≠ .no → ∀ a, s'.jobq.phases (.adder a) = .idle) : Drain s' where
  idle := hidle
  last := by
    rw [hdata]
    exact h.last
  drained := by
    rw [hdata, hpushed]
    exact h.drained

/-- A worker or a thread that adds jobs moves, and the queue stays as it is. -/
theorem Drain.of_update (h : Drain s) {t : Tid n m} {p : Phase (Call (Option J)) (Ret (Option J))}
    (hphases : s'.jobq.phases = update s.jobq.phases t p)
    (hdata : s'.jobq.data = s.jobq.data) (hdtor : s'.dtor = s.dtor) (ht : t ≠ .dtor)
    (hidle : ∀ a, t = .adder a → s.dtor ≠ .no → p = .idle) : Drain s' := by
  refine h.same hdata ?_ fun hd a => ?_
  · rw [hdtor, hphases, update_of_ne ht.symm]
  · rw [hdtor] at hd
    rw [hphases]
    rcases eq_or_ne (Tid.adder a) t with rfl | hne
    · rw [update_self]
      exact hidle a rfl hd
    · rw [update_of_ne hne]
      exact h.idle hd a

/-- A thread goes to sleep or wakes up. -/
theorem Drain.of_phases (h : Drain s) {q : Jobq n m J} (hphases : q.phases = s.jobq.phases)
    (hdata : q.data = s.jobq.data) : Drain { s with jobq := q } :=
  h.same hdata (by rw [hphases]) fun hd a => by rw [hphases]; exact h.idle hd a

theorem Drain.of_run_worker (h : Drain s) (hinv : Inv blockadd s) {i : Fin n}
    {pick : Option (Tid n m)} (hs : step blockadd s (.run (.worker i) pick) = some s') :
    Drain s' := by
  obtain ⟨q, ⟨rfl, hphases, hdata⟩ | ⟨e, _, _, hdata, hphases, rfl⟩⟩ := hinv.worker_runs hs
  · exact h.of_phases hphases hdata
  · have hlast := h.last
    have hdrained := h.drained
    rw [hdata, List.pairwise_cons] at hlast
    rw [hdata] at hdrained
    refine ⟨fun hd a => ?_, hlast.2, ?_⟩
    · rw [hphases, update_of_ne (by simp)]
      exact h.idle hd a
    · rw [hphases, update_of_ne (by simp)]
      intro hlt x hx
      cases e with
      | none => exact hlast.1 x hx rfl
      | some j =>
        have hsome : pillsIn (some j :: q.data) = pillsIn q.data := by simp [pillsIn]
        exact hdrained (by rwa [hsome]) x (List.mem_cons_of_mem _ hx)

/-- Before the destructor there is no pill. -/
theorem Inv.no_pill (h : Inv blockadd s) (hno : s.dtor = .no) : ∀ x ∈ s.jobq.data, x ≠ none := by
  have hpills := h.pills
  rw [hno] at hpills
  have hzero : pillsIn s.jobq.data = 0 := by
    simp only [ThrPool.pushed] at hpills
    omega
  simpa [pillsIn, Option.isSome_iff_ne_none] using hzero

theorem Drain.of_run_adder (h : Drain s) (hinv : Inv blockadd s) {a : Fin m}
    {pick : Option (Tid n m)} (hs : step blockadd s (.run (.adder a) pick) = some s') :
    Drain s' := by
  obtain ⟨q, ⟨rfl, hphases, hdata⟩ | ⟨j, ok, hphase, hphases, hdata, rfl⟩⟩ := hinv.adder_runs hs
  · exact h.of_phases hphases hdata
  · -- it is under way, so the destructor has not begun
    have hno : s.dtor = .no := by
      by_contra hd
      rw [h.idle hd a] at hphase
      cases hphase
    refine ⟨fun hd => absurd hno hd, ?_, ?_⟩
    · rw [hdata, List.pairwise_append]
      refine ⟨h.last, by cases ok <;> simp, fun x hx y _ hnone => ?_⟩
      exact absurd hnone (hinv.no_pill hno x hx)
    · show _ < ThrPool.pushed n s.dtor _ → _
      rw [hno]
      exact fun hlt => absurd hlt (Nat.not_lt_zero _)

theorem Drain.of_run_dtor (h : Drain s) (hinv : Inv blockadd s) {pick : Option (Tid n m)}
    (hs : step blockadd s (.run .dtor pick) = some s') : Drain s' := by
  obtain ⟨q, rfl, ⟨hphases, hdata⟩ | ⟨k, _, hk, hphase, hphases, hdata⟩⟩ := hinv.dtor_runs hs
  · exact h.of_phases hphases hdata
  · refine ⟨fun hd a => ?_, ?_, ?_⟩
    · rw [hphases, update_of_ne (by simp)]
      exact h.idle hd a
    · rw [hdata, List.pairwise_append]
      exact ⟨h.last, List.pairwise_singleton _ _, by simp⟩
    · have hold := h.drained
      rw [hk, hphase] at hold
      rw [hdata, hphases, update_self, hk]
      intro hlt x hx
      have hlt' : pillsIn s.jobq.data < k := by simpa [pillsIn, ThrPool.pushed] using hlt
      rcases List.mem_append.mp hx with hx | hx
      · exact hold hlt' x hx
      · simpa using hx

theorem drain_step (h : Drain s) (hinv : Inv blockadd s) {e : Event n m J} (halone : Alone s e)
    (hs : step blockadd s e = some s') : Drain s' := by
  -- before and after a step of the destructor all pills are accounted for
  have hpills := hinv.pills
  have hpills' := (inv_step hinv hs).pills
  cases moves_of_step hs with
  | add hq =>
    obtain ⟨_, hphases, hdata⟩ := phases_call hq
    exact h.of_update hphases hdata rfl (by simp) fun _ _ hd => absurd halone hd
  | addReturn hq =>
    obtain ⟨_, hphases, hdata⟩ := phases_ret hq
    exact h.of_update hphases hdata rfl (by simp) fun _ _ _ => rfl
  | take _ hq =>
    obtain ⟨_, hphases, hdata⟩ := phases_call hq
    exact h.of_update hphases hdata rfl (by simp) (by simp)
  | taken _ _ hq =>
    obtain ⟨_, hphases, hdata⟩ := phases_ret hq
    exact h.of_update hphases hdata rfl (by simp) (by simp)
  | finish _ => exact h.same rfl rfl h.idle
  | destroy hno => exact h.same rfl (hpills'.trans hpills.symm) fun _ => halone
  | push hk _ hq =>
    obtain ⟨hidle, hphases, hdata⟩ := phases_call hq
    refine h.same hdata (by simp [hphases, hk, hidle, pushed]) fun hd a => ?_
    rw [hphases, update_of_ne (by simp)]
    exact h.idle hd a
  | pushed hk hq =>
    obtain ⟨⟨r, hr⟩, hphases, hdata⟩ := phases_ret hq
    refine h.same hdata (by simp [hphases, hk, hr, pushed]) fun _ a => ?_
    rw [hphases, update_of_ne (by simp)]
    exact h.idle (by simp [hk]) a
  | joinFirst hk _ | joinNext _ hk _ | joinLast hk _ =>
    exact h.same rfl (hpills'.trans hpills.symm) fun _ => h.idle (by simp [hk])
  | @run t _ _ _ _ _ =>
    cases t with
    | worker i => exact h.of_run_worker hinv hs
    | adder a => exact h.of_run_adder hinv hs
    | dtor => exact h.of_run_dtor hinv hs
  | wake hq =>
    obtain ⟨hphases, hdata⟩ := phases_wake hq
    exact h.of_phases hphases hdata

theorem drain_of_reach {ok : Pool n m J → Event n m J → Prop} (hok : ∀ s e, ok s e → Alone s e)
    (h : Reach (step blockadd) ok Pool.init s) : Drain s := by
  have hboth : Inv blockadd s ∧ Drain s :=
    h.invariant (fun s => Inv blockadd s ∧ Drain s) ⟨inv_init blockadd, drain_init⟩
      fun s e _ hinv hse hs => ⟨inv_step hinv.1 hs, drain_step hinv.2 hinv.1 (hok s e hse) hs⟩
  exact hboth.2

/-- When every worker is gone there is nothing left. -/
theorem empty_of_gone (hn : 0 < n) (hinv : Inv blockadd s) (h : Drain s)
    (hpushed : ThrPool.pushed n s.dtor (s.jobq.phases .dtor) = n)
    (hdead : ∀ i, s.worker i = .dead) :
    s.jobq.data = [] ∧ (s.finished : Multiset J) = s.accepted := by
  have hpills := hinv.pills
  have hgone : ∑ i, gone (s.worker i) (s.jobq.phases (.worker i)) = n := by
    simp [hdead, gone]
  have hzero : pillsIn s.jobq.data = 0 := by omega
  have hnone := h.drained (by omega)
  have hempty : s.jobq.data = [] := by
    refine List.eq_nil_iff_forall_not_mem.mpr fun x hx => ?_
    have hx' := List.countP_eq_zero.mp hzero x hx
    rw [hnone x hx] at hx'
    exact hx' rfl
  refine ⟨hempty, ?_⟩
  have hcount : (s.started : Multiset J) = s.finished := by simpa [hdead, inHand] using hinv.count
  rw [hinv.order, hempty, ← hcount]
  simp [jobs]

/-- **The destructor finishes the work**: when it is through, every worker has
left, and every job that was accepted has been run. -/
theorem pool_destroyed_drained (hn : 0 < n)
    (h : Reach (step blockadd) Alone (Pool.init : Pool n m J) s) (hdone : s.dtor = .done) :
    (∀ i, s.worker i = .dead) ∧ s.jobq.data = [] ∧ (s.finished : Multiset J) = s.accepted := by
  have hinv := inv_of_reach h
  have hdead : ∀ i, s.worker i = .dead := fun i => hinv.joined i (by simp [hdone, Dtor.joined])
  exact ⟨hdead, empty_of_gone hn hinv (drain_of_reach (fun _ _ hok => hok) h)
    (by simp [hdone, pushed]) hdead⟩

def runDown : List (Event 1 1 Nat) :=
  [.push, .run .dtor none, .pushed, .join, .finish 0, .take 0, .run (.worker 0) none, .taken 0,
    .finish 0, .take 0, .run (.worker 0) none, .taken 0, .join, .join]

theorem pool_destroyed_drained_second :
    ∃ s : Pool 1 1 Nat, Reach (step false) Alone Pool.init s ∧ s.dtor = .done ∧
      s.accepted = [7, 8] ∧ (s.finished : Multiset Nat) = ([7, 8] : List Nat) := by
  obtain ⟨s, hreach, hdone, haccepted⟩ :
      ∃ s : Pool 1 1 Nat, Reach (step false) Alone Pool.init s ∧
        s.dtor = .done ∧ s.accepted = [7, 8] :=
    exists_reach (secondJob ++ .destroy :: runDown) (by decide)
  refine ⟨s, hreach, hdone, haccepted, ?_⟩
  rw [← haccepted]
  exact (pool_destroyed_drained Nat.one_pos hreach hdone).2.2

end Runs

end Yfs.ThrPool
