/-
Yfs.Rpc.PoolProgress — the pool of threads comes to rest with its work done.

Left alone, the pool cannot go on for ever: an event that is not a new job, the
call of the destructor or a wakeup for no reason takes off some of the `work`
that is left. A job in the queue is priced for the wakeup and the worker that it
costs, and a thread in `enq` for the job that it brings.

And it cannot get stuck. When nothing is left to do but wait, the queue is
empty, every job has been run, and the destructor has not been called or is
through (`AtRest`): no wakeup of the queue is lost (`Monitor.no_lost_wakeup`),
and a pill is there for each worker that is not gone (`Inv.pills`).
-/
import Yfs.Rpc.ThrPool

namespace Yfs.ThrPool

open Monitor Run Function
open Fifo (Cond Call Ret)
open Atomic (Phase)

variable {n m : Nat} {J : Type}

/-! ## The work left -/

def callWork : Call (Option J) → Nat
  | .enq _ _ => 7
  | .deq => 0
  | .size => 1

def retWork : Ret (Option J) → Nat
  | .enq _ => 1
  | .deq _ => 4
  | .size _ => 1

def pcWork : Pc Cond (Call (Option J)) (Ret (Option J)) → Nat
  | .idle => 0
  | .entering c => callWork c + 1
  | .asleep _ c => callWork c
  | .woken _ c => callWork c + 1
  | .returning a => retWork a

def queueWork (q : Jobq n m J) : Nat := ∑ t, pcWork (q.pc t) + 5 * q.data.length

def Worker.work : Worker J → Nat
  | .loop => 2
  | .taking => 0
  | .running _ => 3
  | .dead => 0

def dtorWork (n : Nat) : Dtor → Phase (Call (Option J)) (Ret (Option J)) → Nat
  | .no, _ => 0
  | .pushing k, .idle => 10 * (n - k) + n + 2
  | .pushing k, _ => 10 * (n - k - 1) + n + 2
  | .joining k, _ => n - k + 1
  | .done, _ => 0

def work (s : Pool n m J) : Nat :=
  queueWork s.jobq + ∑ i, (s.worker i).work + dtorWork n s.dtor (s.jobq.phases .dtor)

section Queue

variable {q q' : Jobq n m J} {t : Tid n m}

theorem work_setPc (q : Jobq n m J) (t : Tid n m) (p : Pc Cond (Call (Option J)) (Ret (Option J))) :
    queueWork (q.setPc t p) + pcWork (q.pc t) = queueWork q + pcWork p := by
  have hsum := sum_step (f := fun u => pcWork (q.pc u)) (g := fun u => pcWork ((q.setPc t p).pc u))
    (i := t) fun u hu => by rw [setPc_of_ne q p hu]
  simp only [setPc_self] at hsum
  simp only [queueWork]
  have hdata : (q.setPc t p).data = q.data := rfl
  rw [hdata]
  omega

theorem work_signal_le (q : Jobq n m J) (c : Cond) (pick : Option (Tid n m)) :
    queueWork (q.signal c pick) ≤ queueWork q + 1 := by
  rcases signal_cases q c pick with he | ⟨u, r, _, hpc, he⟩
  · rw [he]
    exact Nat.le_succ _
  · have hset := work_setPc q u (.woken c r)
    rw [hpc] at hset
    rw [he]
    simp only [pcWork] at hset
    omega

theorem work_of_ready {p : Pc Cond (Call (Option J)) (Ret (Option J))} {c : Call (Option J)}
    (h : p.ready = some c) : pcWork p = callWork c + 1 := by
  cases p with
  | entering c' =>
    cases h
    rfl
  | woken cond c' =>
    cases h
    rfl
  | idle | asleep cond c' | returning a => cases h

/-- An operation is paid for: by its own price, or by that of the element it
takes out. -/
theorem work_done {c : Call (Option J)} {d d' : List (Option J)} {a : Ret (Option J)}
    {sig : Option Cond} (h : body n c d = .done a d' sig) :
    retWork a + 5 * d'.length + (if sig.isSome then 1 else 0) < callWork c + 1 + 5 * d.length := by
  have hdoes := Fifo.does_body (100 * n) c d
  rw [show Fifo.body (100 * n) c d = .done a d' sig from h] at hdoes
  cases hdoes with
  | push hspace =>
    simp [callWork, retWork]
    omega
  | refuse hmax hfull => simp [callWork, retWork]
  | pop hd =>
    subst hd
    simp only [callWork, retWork, List.length_cons]
    split
    · simp only [Option.isSome_some, if_true]
      omega
    · simp only [Option.isSome_none, Bool.false_eq_true, if_false]
      omega
  | size => simp [callWork, retWork]

theorem work_run {pick : Option (Tid n m)}
    (h : Monitor.step (body n) q (.run t pick) = some q') : queueWork q' < queueWork q := by
  have hdata : ∀ (d : List (Option J)) a, queueWork ({ q with data := d }.setPc t (.returning a)) +
      pcWork (q.pc t) + 5 * q.data.length = queueWork q + retWork a + 5 * d.length := by
    intro d a
    have hset := work_setPc { q with data := d } t (.returning a)
    simp only [queueWork, pcWork] at hset ⊢
    omega
  cases trans_of_step h with
  | @wait _ c cond _ hready hb =>
    have hset := work_setPc q t (.asleep cond c)
    rw [work_of_ready hready] at hset
    simp only [pcWork] at hset
    omega
  | @done _ c a d _ hready hb =>
    have hpaid := work_done hb
    have hset := hdata d a
    rw [work_of_ready hready] at hset
    simp only [Option.isSome_none, Bool.false_eq_true, if_false] at hpaid
    omega
  | @signal _ c a d cond _ hready hb =>
    have hpaid := work_done hb
    have hset := hdata d a
    have hsignal := work_signal_le ({ q with data := d }.setPc t (.returning a)) cond pick
    rw [work_of_ready hready] at hset
    simp only [Option.isSome_some, if_true] at hpaid
    omega

theorem work_call {c : Call (Option J)} (h : Monitor.step (body n) q (.call t c) = some q') :
    queueWork q' = queueWork q + callWork c + 1 := by
  cases trans_of_step h with
  | call hpc =>
    have hset := work_setPc q t (.entering c)
    rw [hpc] at hset
    simp only [pcWork] at hset
    omega

theorem work_ret (h : Monitor.step (body n) q (.ret t) = some q') :
    ∃ a, q.pc t = .returning a ∧ queueWork q' + retWork a = queueWork q := by
  cases trans_of_step h with
  | @ret _ a hpc =>
    have hset := work_setPc q t .idle
    rw [hpc] at hset
    exact ⟨a, hpc, hset⟩

end Queue

/-! ## Every internal event takes some off -/

/-- What the pool does by itself. -/
def Event.Internal : Event n m J → Prop
  | .add _ _ => False
  | .destroy => False
  | .wake _ => False
  | _ => True

theorem retWork_pos (a : Ret (Option J)) : 0 < retWork a := by cases a <;> simp [retWork]

section Decrease

variable {blockadd : Bool} {s s' : Pool n m J}

theorem sum_work_setWorker (s : Pool n m J) {i : Fin n} {v : Worker J} (hv : s.worker i = v)
    (w : Worker J) :
    ∑ k, ((s.setWorker i w).worker k).work + v.work = ∑ k, (s.worker k).work + w.work := by
  have hsum := sum_step (f := fun k => (s.worker k).work)
    (g := fun k => ((s.setWorker i w).worker k).work) (i := i)
    fun k hk => by simp [Pool.setWorker, hk]
  simpa [Pool.setWorker, hv] using hsum

/-- The destructor is not where the event is. -/
theorem dtorWork_update {p : Phase (Call (Option J)) (Ret (Option J))} {t : Tid n m}
    {phases : Tid n m → Phase (Call (Option J)) (Ret (Option J))} (ht : t ≠ .dtor) (d : Dtor) :
    dtorWork n d (update phases t p .dtor) = dtorWork n d (phases .dtor) := by
  rw [update_of_ne ht.symm]

theorem work_step {e : Event n m J} (he : e.Internal) (hs : step blockadd s e = some s') :
    work s' < work s := by
  cases moves_of_step hs with
  | add | destroy | wake => exact he.elim
  | @addReturn a _ hq =>
    obtain ⟨_, hphases, _⟩ := phases_ret hq
    obtain ⟨r, _, hwork⟩ := work_ret hq
    have hpos := retWork_pos r
    simp only [work, hphases, dtorWork_update (t := .adder a) (by simp)]
    omega
  | @take i _ hw hq =>
    obtain ⟨_, hphases, _⟩ := phases_call hq
    have hwork := work_call hq
    have hsum := sum_work_setWorker s hw .taking
    change _ + 2 = _ + 0 at hsum
    simp only [work, hphases, dtorWork_update (t := .worker i) (by simp)]
    simp only [Pool.setWorker, callWork] at hwork hsum ⊢
    omega
  | @taken i e _ hw hpc hq =>
    obtain ⟨_, hphases, _⟩ := phases_ret hq
    obtain ⟨r, hr, hwork⟩ := work_ret hq
    obtain rfl : r = .deq e := by simpa using hr.symm.trans hpc
    -- the worker has come back with a pill or with a job
    have hlt : (Worker.given e).work < 4 := by cases e <;> simp [Worker.given, Worker.work]
    have hsum := sum_work_setWorker s hw (.given e)
    change _ + 0 = _ at hsum
    simp only [work, hphases, dtorWork_update (t := .worker i) (by simp)]
    simp only [Pool.setWorker, retWork] at hwork hsum ⊢
    omega
  | finish hw =>
    have hsum := sum_work_setWorker s hw .loop
    change _ + 3 = _ + 2 at hsum
    simp only [work, Pool.setWorker] at hsum ⊢
    omega
  | push hk _ hq =>
    obtain ⟨hidle, hphases, _⟩ := phases_call hq
    have hwork := work_call hq
    simp only [work, hphases, update_self, hk, hidle, dtorWork, callWork] at hwork ⊢
    omega
  | pushed hk hq =>
    obtain ⟨⟨a, ha⟩, hphases, _⟩ := phases_ret hq
    obtain ⟨r, _, hwork⟩ := work_ret hq
    have hpos := retWork_pos r
    simp only [work, hphases, update_self, hk, ha, dtorWork] at hwork ⊢
    omega
  | joinFirst hk _ =>
    simp only [work, hk]
    generalize s.jobq.phases .dtor = p
    cases p <;> simp only [dtorWork] <;> omega
  | joinNext _ hk _ =>
    simp only [work, hk, dtorWork]
    omega
  | joinLast hk _ =>
    simp only [work, hk, dtorWork]
    omega
  | @run t _ c q _ hq =>
    obtain ⟨_, _, hphase, hcases⟩ := phases_run hq
    obtain ⟨hworker, hdtor⟩ := note_frame s c q
    have hwork := work_run hq
    -- the destructor, if it is in the queue, still is
    have hsame : dtorWork n s.dtor (q.phases .dtor) = dtorWork n s.dtor (s.jobq.phases .dtor) := by
      rcases hcases with ⟨_, hphases, _⟩ | ⟨a, sig, _, hphases⟩
      · rw [hphases]
      · rcases eq_or_ne t .dtor with rfl | ht
        · rw [hphases, update_self, hphase]
          cases s.dtor <;> rfl
        · rw [hphases, dtorWork_update ht]
    rw [work, hworker, hdtor, hsame, work]
    change queueWork q + _ + _ < _
    omega

end Decrease

/-! ## It does not get stuck -/

section Stuck

variable {blockadd : Bool} {s : Pool n m J}

def Hears (s : Pool n m J) : Event n m J → Prop
  | .run t pick => Heard (body n) s.jobq (.run t pick)
  | _ => True

def Proper (s : Pool n m J) (e : Event n m J) : Prop := Alone s e ∧ Hears s e

/-- The pool can do nothing by itself. -/
def Stuck (blockadd : Bool) (s : Pool n m J) : Prop :=
  ∀ e, e.Internal → Proper s e → step blockadd s e = none

instance decidableInternal (e : Event n m J) : Decidable e.Internal := by
  rcases e <;> unfold Event.Internal <;> infer_instance

instance decidableHears [DecidableEq J] (s : Pool n m J) (e : Event n m J) :
    Decidable (Hears s e) := by
  rcases e <;> unfold Hears <;> infer_instance

instance decidableProper [DecidableEq J] (s : Pool n m J) (e : Event n m J) :
    Decidable (Proper s e) := inferInstanceAs (Decidable (_ ∧ _))

theorem stuck_iff : Stuck blockadd s ↔
    (∀ a, (step blockadd s (.addReturn a)).isNone) ∧ (∀ i, (step blockadd s (.take i)).isNone) ∧
      (∀ i, (step blockadd s (.taken i)).isNone) ∧ (∀ i, (step blockadd s (.finish i)).isNone) ∧
      (step blockadd s .push).isNone ∧ (step blockadd s .pushed).isNone ∧
      (step blockadd s .join).isNone ∧
      ∀ t pick, Hears s (.run t pick) → (step blockadd s (.run t pick)).isNone := by
  simp only [Option.isNone_iff_eq_none]
  constructor
  · intro h
    exact ⟨fun a => h _ trivial ⟨trivial, trivial⟩, fun i => h _ trivial ⟨trivial, trivial⟩,
      fun i => h _ trivial ⟨trivial, trivial⟩, fun i => h _ trivial ⟨trivial, trivial⟩,
      h _ trivial ⟨trivial, trivial⟩, h _ trivial ⟨trivial, trivial⟩,
      h _ trivial ⟨trivial, trivial⟩, fun t pick hears => h _ trivial ⟨trivial, hears⟩⟩
  · rintro ⟨hret, htake, htaken, hfinish, hpush, hpushed, hjoin, hrun⟩ e he hproper
    cases e with
    | add a j => exact he.elim
    | addReturn a => exact hret a
    | take i => exact htake i
    | taken i => exact htaken i
    | finish i => exact hfinish i
    | destroy => exact he.elim
    | push => exact hpush
    | pushed => exact hpushed
    | join => exact hjoin
    | run t pick => exact hrun t pick hproper.2
    | wake t => exact he.elim

instance decidableStuck [DecidableEq J] (blockadd : Bool) (s : Pool n m J) :
    Decidable (Stuck blockadd s) := decidable_of_iff _ stuck_iff.symm

structure AtRest (s : Pool n m J) : Prop where
  dtor : s.dtor = .no ∨ s.dtor = .done
  worker : ∀ i, s.worker i = .dead ∨ ∃ c, s.jobq.pc (.worker i) = .asleep c .deq
  adder : ∀ a, s.jobq.phases (.adder a) = .idle
  empty : s.jobq.data = []
  finished : (s.finished : Multiset J) = s.accepted

end Stuck

section Progress

variable {blockadd : Bool} {s s' : Pool n m J}

/-- An event of the pool is one of its queue, or none. -/
theorem jobq_step {e : Event n m J} (hears : Hears s e) (hs : step blockadd s e = some s') :
    Reach (Monitor.step (body n)) (Heard (body n)) s.jobq s'.jobq := by
  cases moves_of_step hs with
  | add hq | addReturn hq | take _ hq | taken _ _ hq => exact .step .init (by trivial) hq
  | finish => exact .init
  | destroy => exact .init
  | push _ _ hq | pushed _ hq => exact .step .init (by trivial) hq
  | joinFirst | joinNext | joinLast => exact .init
  | run _ hq => exact .step .init (by exact hears) hq
  | wake hq => exact .step .init (by trivial) hq

theorem jobq_of_reach (h : Reach (step blockadd) Proper Pool.init s) :
    Reach (Monitor.step (body n)) (Heard (body n)) (State.init []) s.jobq :=
  h.invariant (fun s => Reach (Monitor.step (body n)) (Heard (body n)) (State.init []) s.jobq)
    .init fun _ _ _ hreach hproper hs => hreach.trans (jobq_step hproper.2 hs)

theorem exists_queue {r : Pool n m J} {e : Monitor.Event (Tid n m) (Call (Option J))}
    (h : ∃ q, Monitor.step (body n) r.jobq e = some q) : ∃ r', r.queue e = some r' := by
  obtain ⟨q, hq⟩ := h
  exact ⟨_, queue_eq_some.mpr ⟨q, hq, rfl⟩⟩

/-- Nobody is about to run. -/
theorem Stuck.quiet (h : Stuck blockadd s) (t : Tid n m) : (s.jobq.pc t).ready = none := by
  by_contra hready
  obtain ⟨c, hc⟩ := Option.ne_none_iff_exists'.mp hready
  obtain ⟨pick, hheard⟩ := exists_heard (body n) s.jobq t
  have hnone := h (.run t pick) trivial ⟨trivial, hheard⟩
  obtain ⟨r, hr⟩ := exists_queue (r := s.note c) (e := .run t pick)
    (by rw [note_jobq]; exact exists_step_run hc pick)
  simp [step, hc, hr] at hnone

theorem Stuck.worker (h : Stuck blockadd s) (hinv : Inv blockadd s) (i : Fin n) :
    s.worker i = .dead ∨
      s.worker i = .taking ∧ s.jobq.phases (.worker i) = .called .deq ∧
        ∃ c, s.jobq.pc (.worker i) = .asleep c .deq := by
  have hat := hinv.worker i
  generalize hw : s.worker i = w at hat
  generalize hp : s.jobq.phases (.worker i) = p at hat
  cases hat with
  | loop =>
    have hnone := h (.take i) trivial ⟨trivial, trivial⟩
    obtain ⟨r, hr⟩ := exists_queue (r := s.setWorker i .taking) (e := .call (.worker i) .deq)
      (exists_step_call (eq_idle_of_phase hp))
    simp [step, hw, hr] at hnone
  | taking => exact .inr ⟨rfl, rfl, asleep_of_phase hp (h.quiet _)⟩
  | @taken e =>
    have hpc := eq_returning_of_phase hp
    have hnone := h (.taken i) trivial ⟨trivial, trivial⟩
    cases e with
    | none =>
      obtain ⟨r, hr⟩ := exists_queue (r := s.setWorker i .dead) (e := .ret (.worker i))
        (exists_step_ret hpc)
      simp [step, hw, hpc, hr] at hnone
    | some j =>
      obtain ⟨r, hr⟩ := exists_queue (r := s.setWorker i (.running j)) (e := .ret (.worker i))
        (exists_step_ret hpc)
      simp [step, hw, hpc, hr] at hnone
  | running =>
    have hnone := h (.finish i) trivial ⟨trivial, trivial⟩
    simp [step, hw] at hnone
  | dead => exact .inl rfl

theorem Stuck.adder (h : Stuck blockadd s) (hinv : Inv blockadd s) (a : Fin m) :
    s.jobq.phases (.adder a) = .idle ∨
      ∃ c j, s.jobq.pc (.adder a) = .asleep c (.enq (some j) blockadd) := by
  have hat := hinv.adder a
  generalize hp : s.jobq.phases (.adder a) = p at hat
  cases hat with
  | idle => exact .inl rfl
  | @adding j =>
    obtain ⟨c, hc⟩ := asleep_of_phase hp (h.quiet _)
    exact .inr ⟨c, j, hc⟩
  | added =>
    have hnone := h (.addReturn a) trivial ⟨trivial, trivial⟩
    obtain ⟨r, hr⟩ := exists_queue (r := s) (e := .ret (.adder a))
      (exists_step_ret (eq_returning_of_phase hp))
    simp [step, hr] at hnone

theorem gone_le_one (w : Worker J) (p : Phase (Call (Option J)) (Ret (Option J))) :
    gone w p ≤ 1 := by
  unfold gone
  split <;> omega

/-- A worker that waits in `deq` has not got its pill. -/
theorem sum_gone_lt {i : Fin n} (hw : s.worker i = .taking)
    (hp : s.jobq.phases (.worker i) = .called .deq) :
    ∑ k, gone (s.worker k) (s.jobq.phases (.worker k)) < n := by
  have hlt : ∑ k, gone (s.worker k) (s.jobq.phases (.worker k)) < ∑ _k : Fin n, 1 := by
    refine Finset.sum_lt_sum (fun k _ => gone_le_one _ _) ⟨i, Finset.mem_univ i, ?_⟩
    simp [hw, hp, gone]
  simpa using hlt

/-- The destructor has not been called, or is through. -/
theorem Stuck.dtor (h : Stuck blockadd s) (hinv : Inv blockadd s)
    (hsleep : ∀ i c, s.jobq.pc (.worker i) = .asleep c .deq → s.jobq.data = [])
    (hfull : ∀ c, s.jobq.pc .dtor = .asleep c (.enq none true) → s.jobq.data ≠ []) :
    s.dtor = .no ∨ s.dtor = .done := by
  have hpills := hinv.pills
  have hat := hinv.dtor
  generalize hd : s.dtor = d at hat
  generalize hp : s.jobq.phases .dtor = p at hat
  rw [hd, hp] at hpills
  cases hat with
  | no => exact .inl rfl
  | done => exact .inr rfl
  | @between k hle =>
    by_cases hlt : k < n
    · have hnone := h .push trivial ⟨trivial, trivial⟩
      obtain ⟨r, hr⟩ := exists_queue (r := s) (e := .call .dtor (.enq none true))
        (exists_step_call (eq_idle_of_phase hp))
      simp [step, hd, hlt, hr] at hnone
    · have hnone := h .join trivial ⟨trivial, trivial⟩
      simp [step, hd, hlt] at hnone
  | @pushing k hlt =>
    -- the queue is full, so nobody waits in it for a job: the workers are dead,
    -- but there are fewer than `n` pills
    obtain ⟨c, hc⟩ := asleep_of_phase hp (h.quiet _)
    have hdead : ∀ i, s.worker i = .dead := by
      intro i
      rcases h.worker hinv i with hdead | ⟨_, _, c', hc'⟩
      · exact hdead
      · exact absurd (hsleep i c' hc') (hfull c hc)
    have hgone : ∑ i, gone (s.worker i) (s.jobq.phases (.worker i)) = n := by simp [hdead, gone]
    simp only [pushed] at hpills
    omega
  | @pushed k hlt =>
    have hnone := h .pushed trivial ⟨trivial, trivial⟩
    obtain ⟨r, hr⟩ := exists_queue (r := { s with dtor := .pushing (k + 1) }) (e := .ret .dtor)
      (exists_step_ret (eq_returning_of_phase hp))
    simp [step, hd, hr] at hnone
  | @joining k hle =>
    have hnone := h .join trivial ⟨trivial, trivial⟩
    by_cases hlt : k < n
    · rcases h.worker hinv ⟨k, hlt⟩ with hdead | ⟨hw, hphase, c, hc⟩
      · simp [step, hd, hlt, hdead] at hnone
      · -- the queue is empty, so all the pills have been taken, and his as well
        have hzero : pillsIn s.jobq.data = 0 := by
          rw [hsleep _ c hc]
          rfl
        have hsum := sum_gone_lt hw hphase
        simp only [pushed] at hpills
        omega
    · simp [step, hd, hlt] at hnone

theorem Stuck.atRest (hn : 0 < n) (h : Stuck blockadd s) (hinv : Inv blockadd s) (hdrain : Drain s)
    (hreach : Reach (Monitor.step (body n)) (Heard (body n)) (State.init []) s.jobq) :
    AtRest s := by
  have hwake : ∀ {t c call}, s.jobq.pc t = .asleep c call →
      WaitsOn (body n) call c ∧ Fifo.units (100 * n) c s.jobq.data = 0 :=
    fun ht => no_lost_wakeup (Fifo.counted (100 * n)) hreach h.quiet ht
  have hsleep : ∀ i c, s.jobq.pc (.worker i) = .asleep c .deq → s.jobq.data = [] := by
    intro i c hc
    obtain ⟨hwaits, hunits⟩ := hwake hc
    rcases Fifo.waitsOn_cases hwaits with ⟨_, rfl⟩ | ⟨e, he, _⟩
    · exact List.length_eq_zero_iff.mp hunits
    · cases he
  have hfull : ∀ {t c e b}, s.jobq.pc t = .asleep c (.enq e b) → s.jobq.data ≠ [] := by
    intro t c e b hc hempty
    obtain ⟨hwaits, hunits⟩ := hwake hc
    rcases Fifo.waitsOn_cases hwaits with ⟨hdeq, _⟩ | ⟨e', _, rfl, hmax⟩
    · cases hdeq
    · rw [hempty] at hunits
      exact hmax hunits
  have hdtor := h.dtor hinv hsleep fun c hc => hfull hc
  have hrest : s.jobq.data = [] ∧ (s.finished : Multiset J) = s.accepted := by
    rcases hdtor with hno | hdone
    · have hpills := hinv.pills
      simp only [hno, pushed] at hpills
      have htaking : ∀ i, s.worker i = .taking ∧ s.jobq.phases (.worker i) = .called .deq ∧
          ∃ c, s.jobq.pc (.worker i) = .asleep c .deq := by
        intro i
        rcases h.worker hinv i with hdead | hasleep
        · have hzero : ∑ k, gone (s.worker k) (s.jobq.phases (.worker k)) = 0 := by omega
          have := Finset.sum_eq_zero_iff.mp hzero i (Finset.mem_univ i)
          simp [hdead, gone] at this
        · exact hasleep
      obtain ⟨_, _, c, hc⟩ := htaking ⟨0, hn⟩
      have hempty := hsleep _ c hc
      have hcount : (s.started : Multiset J) = s.finished := by
        simpa [(htaking _).1, (htaking _).2.1, inHand] using hinv.count
      refine ⟨hempty, ?_⟩
      rw [hinv.order, hempty, ← hcount]
      simp [jobs]
    · exact empty_of_gone hn hinv hdrain (by simp [hdone, pushed])
        fun i => hinv.joined i (by simp [hdone, Dtor.joined])
  refine ⟨hdtor, fun i => ?_, fun a => ?_, hrest.1, hrest.2⟩
  · rcases h.worker hinv i with hdead | ⟨_, _, hasleep⟩
    · exact .inl hdead
    · exact .inr hasleep
  · rcases h.adder hinv a with hidle | ⟨c, j, hc⟩
    · exact hidle
    · exact absurd hrest.1 (hfull hc)

/-- **The pool comes to rest with its work done.** From any state that the pool
can be in, it can do at most `work s` steps by itself, and when it can do no
more, every accepted job has been run. -/
theorem pool_settles (hn : 0 < n) (h : Reach (step blockadd) Proper (Pool.init : Pool n m J) s)
    {es : List (Event n m J)} (hs : exec (step blockadd) s es = some s')
    (hes : EveryStep (step blockadd) (fun s e => e.Internal ∧ Proper s e) s es) :
    es.length ≤ work s ∧ (Stuck blockadd s' → AtRest s') := by
  have hlen := length_le_of_decreases (fun _ _ _ hok hs => work_step hok.1 hs) hs hes
  have hreach := h.exec hs (hes.mono fun _ _ hok => hok.2)
  refine ⟨by omega, fun hstuck => ?_⟩
  exact hstuck.atRest hn (inv_of_reach hreach) (drain_of_reach (fun _ _ hok => hok.1) hreach)
    (jobq_of_reach hreach)

theorem pool_settles_runDown :
    ∃ s s' : Pool 1 1 Nat, Reach (step false) Proper Pool.init s ∧
      exec (step false) s runDown = some s' ∧ Stuck false s' ∧ AtRest s' ∧
      runDown.length ≤ work s := by
  obtain ⟨s, hreach, s', hs', hstuck⟩ : ∃ s : Pool 1 1 Nat, Reach (step false) Proper Pool.init s ∧
      ∃ s', execIf (step false) (fun s e => e.Internal ∧ Proper s e) s runDown = some s' ∧
        Stuck false s' := exists_reach (secondJob ++ [.destroy]) (by decide +kernel)
  obtain ⟨hexec, hevery⟩ := exec_of_execIf hs'
  obtain ⟨hlen, hrest⟩ := pool_settles Nat.one_pos hreach hexec hevery
  exact ⟨s, s', hreach, hexec, hstuck, hrest hstuck, hlen⟩

end Progress

end Yfs.ThrPool
