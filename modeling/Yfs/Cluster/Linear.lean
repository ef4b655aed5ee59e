/-
Yfs.Cluster.Linear — concurrent `read`, `write`, `setattr`, `lookup` and
`readdir` of any number of clients are atomic.

A thread is at one of a few places in its operation (`Stage`), and where the
contents matter it holds the lock of the extent. So what it has read there stays
true while the other threads, the lock protocol and the flushes go on
(`Stage.frame`). The operation can be taken to happen when its `get` is over, or
at its `put` if it has one, and the whole system simulates the atomic object
(`rel_step`).
-/
import Yfs.Cluster.Operations

namespace Yfs.Cluster

open Yfs.Effect Yfs.Atomic Yfs.Lock Function
open Yfs.Fs (Inum Op Call Contents Files FileRequest)
open Yfs.Extent (Bytes FileBlock FileData Cache)
open Yfs.Extent.Server (contents)

/-! ## Where a thread is -/

structure Holds (pc : Inum → Pc) (ino : Inum) : Prop where
  others : ∀ ino', ino' ≠ ino → pc ino' = .idle
  here : pc ino = .holding

def Request.fetch (q : Request) : Op Answer := Cluster.fetch q.ino q.miss badPut q.work

/-- A thread in its operation: `pc` is where it is with each lock, and `entry`
are the entries of its client. -/
inductive Stage (fb : FileBlock) (pc : Inum → Pc) (entry : Inum → Option FileData)
    (value : Files) : Option Thread → Phase Request Answer → Prop
  | idle : (∀ ino, pc ino = .idle) → Stage fb pc entry value none .idle
  | called {q : Request} : q.InPlace fb → (∀ ino, pc ino = .idle) →
      Stage fb pc entry value (some ⟨q.single, .start⟩) (.called q)
  | acquiring {q : Request} : q.InPlace fb → (∀ ino, ino ≠ q.ino → pc ino = .idle) →
      (pc q.ino).inAcquire = true ∨ pc q.ino = .holding →
      Stage fb pc entry value (some ⟨q.single, .inLock⟩) (.called q)
  | fetching {q : Request} : q.InPlace fb → Holds pc q.ino →
      Stage fb pc entry value (some ⟨q.fetch, .start⟩) (.called q)
  | getRpc {q : Request} {d : FileData} : q.InPlace fb → Holds pc q.ino →
      entry q.ino = some d → d.isPresent = false →
      Stage fb pc entry value (some ⟨q.fetch, .rpc⟩) (.called q)
  | attrRpc {q : Request} {d : FileData} {data : Bytes} : q.InPlace fb → Holds pc q.ino →
      entry q.ino = some d → d.isPresent = false → value q.ino = some (Contents.ofBytes data) →
      Stage fb pc entry value (some ⟨q.fetch, .attrRpc (.OK, some data)⟩) (.called q)
  | fill {q : Request} {d : FileData} {data : Bytes} {attr : Option Extent.Attr} :
      q.InPlace fb → Holds pc q.ino → entry q.ino = some d → d.isPresent = false →
      value q.ino = some (Contents.ofBytes data) →
      Stage fb pc entry value (some ⟨q.fetch, .fill (.OK, some data) (.OK, attr)⟩) (.called q)
  | storing {q : Request} {d : FileData} {data buf : Bytes} : q.InPlace fb → Holds pc q.ino →
      entry q.ino = some d → value q.ino = some (Contents.ofBytes data) →
      (q.work data).2 = some buf →
      Stage fb pc entry value (some ⟨store q.ino badPut (q.work data).1 buf, .start⟩) (.called q)
  | leaving {ino : Inum} {d : FileData} {a : Answer} : (fb ino.toNat).isSome = true →
      Holds pc ino → entry ino = some d →
      Stage fb pc entry value (some ⟨leave ino a, .start⟩) (.done a)
  | releasing {ino : Inum} {a : Answer} :
      (∀ ino', ino' ≠ ino → pc ino' = .idle) → (pc ino = .idle ∨ ∃ k, pc ino = .releasing k) →
      Stage fb pc entry value (some ⟨leave ino a, .inLock⟩) (.done a)
  | out {a : Answer} : (∀ ino, pc ino = .idle) →
      Stage fb pc entry value (some ⟨.ret a, .start⟩) (.done a)

section Stages

variable {fb : FileBlock} {pc : Inum → Pc} {entry entry' : Inum → Option FileData}
  {value value' : Files} {th : Option Thread} {ph : Phase Request Answer} {lid : Inum}

/-- All that a thread relies on is the extent whose lock it holds. -/
theorem Stage.frame (h : Stage fb pc entry value th ph)
    (hkeep : ∀ ino, pc ino = .holding → entry' ino = entry ino ∧ value' ino = value ino) :
    Stage fb pc entry' value' th ph := by
  cases h with
  | idle hpc => exact .idle hpc
  | called hq hpc => exact .called hq hpc
  | acquiring hq hpc hin => exact .acquiring hq hpc hin
  | fetching hq hold => exact .fetching hq hold
  | getRpc hq hold hd hp => exact .getRpc hq hold ((hkeep _ hold.here).1.trans hd) hp
  | attrRpc hq hold hd hp hdata =>
    exact .attrRpc hq hold ((hkeep _ hold.here).1.trans hd) hp ((hkeep _ hold.here).2.trans hdata)
  | fill hq hold hd hp hdata =>
    exact .fill hq hold ((hkeep _ hold.here).1.trans hd) hp ((hkeep _ hold.here).2.trans hdata)
  | storing hq hold hd hdata hbuf =>
    exact .storing hq hold ((hkeep _ hold.here).1.trans hd) ((hkeep _ hold.here).2.trans hdata) hbuf
  | leaving hfb hold hd => exact .leaving hfb hold ((hkeep _ hold.here).1.trans hd)
  | releasing hpc hin => exact .releasing hpc hin
  | out hpc => exact .out hpc

/-- The same when one extent changes. -/
theorem Stage.frame_at (h : Stage fb pc entry value th ph) {p : Pc} {e : Option FileData}
    {v : Option Contents} (hpc : p = pc lid)
    (hkeep : pc lid = .holding → e = entry lid ∧ v = value lid) :
    Stage fb (update pc lid p) (update entry lid e)
      (update value lid v) th ph := by
  rw [hpc, update_eq_self]
  refine h.frame fun ino hold => ?_
  rcases eq_or_ne ino lid with rfl | hne
  · simpa using hkeep hold
  · simp [hne]

/-- Where a thread is with another lock does not matter. -/
theorem idle_update (h : ∀ ino', ino' ≠ lid → pc ino' = .idle) (p : Pc) :
    ∀ ino', ino' ≠ lid → update pc lid p ino' = .idle := by
  intro ino' hne
  rw [update_of_ne hne]
  exact h ino' hne

/-- A thread goes on inside `acquire`. -/
theorem Stage.of_inAcquire (h : Stage fb pc entry value th ph) (hin : (pc lid).inAcquire = true)
    {p : Pc} (hp : p.inAcquire = true ∨ p = .holding) :
    Stage fb (update pc lid p) entry value th ph := by
  -- `lid` is the lock of the operation: every other pc is idle
  have hlid : ∀ {ino}, (∀ ino', ino' ≠ ino → pc ino' = .idle) → lid = ino := by
    intro ino hidle
    by_contra hne
    simp [hidle lid hne, Pc.inAcquire] at hin
  have hholds : ∀ {ino}, ¬ Holds pc ino := by
    intro ino hold
    obtain rfl := hlid hold.others
    simp [hold.here, Pc.inAcquire] at hin
  cases h with
  | idle hpc | called hq hpc => simp [hpc, Pc.inAcquire] at hin
  | acquiring hq hpc hin' =>
    obtain rfl := hlid hpc
    exact .acquiring hq (idle_update hpc p) (by simpa using hp)
  | fetching hq hold | getRpc hq hold hd hpr | attrRpc hq hold hd hpr hdata
  | fill hq hold hd hpr hdata | storing hq hold hd hdata hbuf | leaving hfb hold hd =>
    exact absurd hold hholds
  | releasing hpc hin' =>
    obtain rfl := hlid hpc
    rcases hin' with hidle | ⟨k, hk⟩
    · simp [hidle, Pc.inAcquire] at hin
    · simp [hk, Pc.inAcquire] at hin
  | out hpc => simp [hpc, Pc.inAcquire] at hin

/-- A thread goes on inside `release`. -/
theorem Stage.of_releasing (h : Stage fb pc entry value th ph) {k : Nat}
    (hin : pc lid = .releasing k) {p : Pc} (hp : p = .idle ∨ ∃ k, p = .releasing k) :
    Stage fb (update pc lid p) entry value th ph := by
  have hlid : ∀ {ino}, (∀ ino', ino' ≠ ino → pc ino' = .idle) → lid = ino := by
    intro ino hidle
    by_contra hne
    simp [hidle lid hne] at hin
  have hholds : ∀ {ino}, ¬ Holds pc ino := by
    intro ino hold
    obtain rfl := hlid hold.others
    simp [hold.here] at hin
  cases h with
  | idle hpc | called hq hpc => simp [hpc] at hin
  | acquiring hq hpc hin' =>
    obtain rfl := hlid hpc
    simp [hin, Pc.inAcquire] at hin'
  | fetching hq hold | getRpc hq hold hd hpr | attrRpc hq hold hd hpr hdata
  | fill hq hold hd hpr hdata | storing hq hold hd hdata hbuf | leaving hfb hold hd =>
    exact absurd hold hholds
  | releasing hpc hin' =>
    obtain rfl := hlid hpc
    exact .releasing (idle_update hpc p) (by simpa using hp)
  | out hpc => simp [hpc] at hin

end Stages

/-! ## The simulation -/

abbrev AtomicFiles := Obj Files (UserId × ThreadId) Request Answer

def Sys.pcs (s : Sys) (c : UserId) (t : ThreadId) : Inum → Pc :=
  fun ino => (s.at ino).lock.sys.pc c t

def Sys.entries (s : Sys) (c : UserId) : Inum → Option FileData := fun ino => (s.at ino).cache c

structure Rel (fb : FileBlock) (s : Sys) (o : AtomicFiles) : Prop where
  slices : ∀ ino, (s.at ino).Ok ((fb ino.toNat).isSome = true) (o.value ino)
  threads : ∀ c t, Stage fb (s.pcs c t) (s.entries c) o.value (s.thread c t) (o.phase (c, t))

section Steps

variable {fb : FileBlock} {s s' : Sys} {o o' : AtomicFiles} {c : UserId} {t : ThreadId} {ino : Inum}
  {x : Slice} {v : Option Contents}

/-- The state `s'` is `s` but for one extent, where it is `x`. -/
theorem pcs_update (hat : s'.at = update s.at ino x) (d : UserId) (u : ThreadId) :
    s'.pcs d u = update (s.pcs d u) ino (x.lock.sys.pc d u) := by
  funext ino'
  rcases eq_or_ne ino' ino with rfl | hne
  · simp [Sys.pcs, hat]
  · simp [Sys.pcs, hat, hne]

theorem entries_update (hat : s'.at = update s.at ino x) (d : UserId) :
    s'.entries d = update (s.entries d) ino (x.cache d) := by
  funext ino'
  rcases eq_or_ne ino' ino with rfl | hne
  · simp [Sys.entries, hat]
  · simp [Sys.entries, hat, hne]

theorem Rel.slices_update (h : Rel fb s o) (hat : s'.at = update s.at ino x)
    (hvalue : o'.value = update o.value ino v)
    (hok : x.Ok ((fb ino.toNat).isSome = true) v) (ino' : Inum) :
    (s'.at ino').Ok ((fb ino'.toNat).isSome = true) (o'.value ino') := by
  rw [hat, hvalue]
  rcases eq_or_ne ino' ino with rfl | hne
  · simpa using hok
  · simpa [hne] using h.slices ino'

/-- A thread makes a step at one extent: the others do not notice. -/
theorem Rel.step_at (h : Rel fb s o) (hat : s'.at = update s.at ino x)
    (hvalue : o'.value = update o.value ino v)
    (hok : x.Ok ((fb ino.toNat).isSome = true) v)
    (hthread : ∀ d u, (d, u) ≠ (c, t) → s'.thread d u = s.thread d u ∧
      o'.phase (d, u) = o.phase (d, u))
    (hother : ∀ d u, (d, u) ≠ (c, t) → x.lock.sys.pc d u = s.pcs d u ino ∧
      (s.pcs d u ino = .holding → x.cache d = s.entries d ino ∧ v = o.value ino))
    (hown : Stage fb (update (s.pcs c t) ino (x.lock.sys.pc c t))
      (update (s.entries c) ino (x.cache c)) (update o.value ino v)
      (s'.thread c t) (o'.phase (c, t))) : Rel fb s' o' where
  slices := h.slices_update hat hvalue hok
  threads d u := by
    rw [pcs_update hat, entries_update hat, hvalue]
    by_cases hne : (d, u) = (c, t)
    · cases hne
      exact hown
    · rw [(hthread d u hne).1, (hthread d u hne).2]
      exact (h.threads d u).frame_at (hother d u hne).1 (hother d u hne).2

/-! ### Threads and phases -/

theorem setThread_self (s : Sys) (c : UserId) (t : ThreadId) (th : Option Thread) :
    (s.setThread c t th).thread c t = th := by simp [Sys.setThread]

theorem setThread_of_ne (s : Sys) {c d : UserId} {t u : ThreadId} (th : Option Thread)
    (h : (d, u) ≠ (c, t)) : (s.setThread c t th).thread d u = s.thread d u := by
  rcases eq_or_ne d c with rfl | hd
  · have hne : u ≠ t := fun he => h (by rw [he])
    simp [Sys.setThread, hne]
  · simp [Sys.setThread, hd]

theorem setPhase_self (o : AtomicFiles) (p : Phase Request Answer) :
    (o.setPhase (c, t) p).phase (c, t) = p := by simp [Obj.setPhase]

theorem setPhase_of_ne (o : AtomicFiles) {d : UserId} {u : ThreadId} (p : Phase Request Answer)
    (h : (d, u) ≠ (c, t)) : (o.setPhase (c, t) p).phase (d, u) = o.phase (d, u) := by
  simp [Obj.setPhase, h]

theorem setPhase_eq_self (o : AtomicFiles) : o.setPhase (c, t) (o.phase (c, t)) = o := by
  simp [Obj.setPhase]

variable {th : Option Thread} {d : FileData} {q : Request} {data : Bytes} {now : Nat}
  {rands : List Nat}

/-- A thread goes on without touching locks or extents. -/
theorem Rel.setThread (h : Rel fb s o) {p : Phase Request Answer} (hat : s'.at = s.at)
    (hthread : s'.thread = s.thread) (hown : Stage fb (s.pcs c t) (s.entries c) o.value th p) :
    Rel fb (s'.setThread c t th) (o.setPhase (c, t) p)  where
  slices ino := by
    show (s'.at ino).Ok _ _
    rw [hat]
    exact h.slices ino
  threads d u := by
    show Stage fb (fun ino => (s'.at ino).lock.sys.pc d u) (fun ino => (s'.at ino).cache d) o.value
      _ _
    rw [hat]
    by_cases hne : (d, u) = (c, t)
    · cases hne
      rw [setThread_self, setPhase_self]
      exact hown
    · rw [setThread_of_ne s' th hne, setPhase_of_ne o p hne, hthread]
      exact h.threads d u

theorem Rel.setThread_silent (h : Rel fb s o) (hat : s'.at = s.at)
    (hthread : s'.thread = s.thread)
    (hown : Stage fb (s.pcs c t) (s.entries c) o.value th (o.phase (c, t))) :
    Rel fb (s'.setThread c t th) o := by
  have hrel := h.setThread hat hthread hown
  rwa [setPhase_eq_self] at hrel

/-! ### Steps of the lock protocol -/

def Sys.setLock (s : Sys) (lid : Inum) (l : FlushSys) : Sys :=
  { s with lock := update s.lock lid l }

variable {lid : Inum} {l : FlushSys} {e : Lock.Event}

theorem runLock_eq_some {e : FlushEvent} :
    s.runLock lid e = some s' ↔ ∃ l, flushStep (s.lock lid) e = some l ∧ s' = s.setLock lid l := by
  rw [Sys.runLock, Option.map_eq_some_iff]
  exact exists_congr fun l => and_congr_right fun _ => eq_comm

theorem setLock_at (s : Sys) (lid : Inum) (l : FlushSys) :
    (s.setLock lid l).at = update s.at lid ((s.at lid).setLock l) := by
  funext ino
  rcases eq_or_ne ino lid with rfl | hne
  · simp [Sys.at, Sys.setLock, Slice.setLock]
  · simp [Sys.at, Sys.setLock, hne]

/-- A step by which a thread leaves a lock behind is one of an operation that
has made its `get`. -/
def AfterGet (fb : FileBlock) (s : Sys) (lid : Inum) (e : Lock.Event) : Prop :=
  ∀ c t, e = .release c t → s.pcs c t lid = .holding →
    (fb lid.toNat).isSome = true ∧ (s.entries c lid).isSome = true

/-- A step of the protocol by `(c, t)`, or by no thread, with which `(c, t)`
goes on. -/
theorem Rel.run (h : Rel fb s o) (hl : flushStep (s.lock lid) (.run e) = some l)
    (hget : AfterGet fb s lid e) (hthread : ∀ x ∈ e.thread, x = (c, t)) {p : Phase Request Answer}
    (hown : Stage fb (update (s.pcs c t) lid (l.sys.pc c t)) (s.entries c) o.value th p) :
    Rel fb ((s.setLock lid l).setThread c t th) (o.setPhase (c, t) p) := by
  refine h.step_at (c := c) (t := t) (v := o.value lid) (setLock_at s lid l)
    (update_eq_self lid o.value).symm ((h.slices lid).run hl hget) ?_ ?_ ?_
  · exact fun d u hne => ⟨setThread_of_ne _ th hne, setPhase_of_ne o p hne⟩
  · intro d u hne
    refine ⟨lockStep_pc (FlushSys.run_iff.mp hl).2.1 fun he => hne (hthread _ he), ?_⟩
    exact fun _ => ⟨rfl, rfl⟩
  · rw [setThread_self, setPhase_self, update_eq_self]
    exact (update_eq_self lid (s.entries c)).symm ▸ hown

/-- A step of the protocol that no call of a thread makes. -/
theorem Rel.lock (h : Rel fb s o) (he : isCall e = false)
    (hl : flushStep (s.lock lid) (.run e) = some l) : Rel fb (s.setLock lid l) o := by
  have hget : AfterGet fb s lid e := by
    rintro c t rfl
    simp [isCall] at he
  have hstep := (FlushSys.run_iff.mp hl).2.1
  -- the thread whose step it is, or any
  obtain ⟨c, t, hthread⟩ : ∃ c t, ∀ x ∈ e.thread, x = (c, t) := by
    cases hx : e.thread with
    | none => exact ⟨[], 0, by simp⟩
    | some x => exact ⟨x.1, x.2, by simp⟩
  have hown : Stage fb (update (s.pcs c t) lid (l.sys.pc c t)) (s.entries c) o.value
      (s.thread c t) (o.phase (c, t)) := by
    have hstage := h.threads c t
    by_cases hx : e.thread = some (c, t)
    · rcases lockStep_own hstep hx with ⟨⟨rfl, _⟩ | hin, hp⟩ | ⟨⟨rfl, _⟩ | ⟨k, hk⟩, hp⟩
      · simp [isCall] at he
      · exact hstage.of_inAcquire hin hp
      · simp [isCall] at he
      · exact hstage.of_releasing hk hp
    · have hpc : l.sys.pc c t = s.pcs c t lid := lockStep_pc hstep hx
      rwa [hpc, update_eq_self]
  have hrel := h.run hl hget hthread hown
  have hsame : (s.setLock lid l).setThread c t (s.thread c t) = s.setLock lid l := by
    simp [Sys.setThread, Sys.setLock]
  rwa [setPhase_eq_self, hsame] at hrel

/-- A lock call begins. -/
theorem Rel.goLock (h : Rel fb s o) {th : Thread} (hget : AfterGet fb s lid e)
    (hthread : e.thread = some (c, t))
    (hown : ∀ p, ((e = .acquire c t ∧ s.pcs c t lid = .idle ∨ (s.pcs c t lid).inAcquire = true) ∧
        (p.inAcquire = true ∨ p = .holding)) ∨
      ((e = .release c t ∧ s.pcs c t lid = .holding ∨ ∃ k, s.pcs c t lid = .releasing k) ∧
        (p = .idle ∨ ∃ k, p = .releasing k)) →
      Stage fb (update (s.pcs c t) lid p) (s.entries c) o.value (some th)
        (o.phase (c, t)))
    (hs : (s.runLock lid (.run e)).map (fun s' => s'.setThread c t (some th)) = some s') :
    Rel fb s' o := by
  obtain ⟨s₁, hrun, rfl⟩ := Option.map_eq_some_iff.mp hs
  obtain ⟨l, hl, rfl⟩ := runLock_eq_some.mp hrun
  have hstage := hown _ (lockStep_own (FlushSys.run_iff.mp hl).2.1 hthread)
  have hrel := h.run hl hget (fun x hx => Option.some.inj (hx.symm.trans hthread)) hstage
  rwa [setPhase_eq_self] at hrel

/-! ### Steps of a `get` and a `put` -/

theorem setEntry_at (s : Sys) (c : UserId) (ino : Inum) (d : FileData) :
    (s.setEntry c ino d).at = update s.at ino ((s.at ino).setEntry c d) := by
  funext ino'
  have hcache : ∀ c', c' ≠ c → (s.setEntry c ino d).cache c' = s.cache c' := fun c' hc =>
    update_of_ne hc ..
  rcases eq_or_ne ino' ino with rfl | hne
  · have hself : (fun c' => (s.setEntry c ino' d).cache c' ino'.toNat) =
        update (fun c' => s.cache c' ino'.toNat) c (some d) := by
      funext c'
      rcases eq_or_ne c' c with rfl | hc
      · simp [Sys.setEntry]
      · rw [hcache c' hc, update_of_ne hc]
    simp only [Sys.at, hself, update_self]
    rfl
  · have hne' : ino'.toNat ≠ ino.toNat := fun he => hne (BitVec.toNat_inj.mp he)
    have hother : (fun c' => (s.setEntry c ino d).cache c' ino'.toNat) =
        fun c' => s.cache c' ino'.toNat := by
      funext c'
      rcases eq_or_ne c' c with rfl | hc
      · simp [Sys.setEntry, Cache.set_of_ne hne']
      · rw [hcache c' hc]
    simp only [Sys.at, hother, update_of_ne hne]
    rfl

/-- The holder changes its entry and goes on; `v` is the value then. -/
theorem Rel.setEntry (h : Rel fb s o) (hold : Holds (s.pcs c t) ino)
    (hok : ((s.at ino).setEntry c d).Ok ((fb ino.toNat).isSome = true) v)
    {p : Phase Request Answer}
    (hown : Stage fb (s.pcs c t) (update (s.entries c) ino (some d))
      (update o.value ino v) th p) :
    Rel fb ((s.setEntry c ino d).setThread c t th)
      ({ o with value := update o.value ino v }.setPhase (c, t) p) := by
  refine h.step_at (c := c) (t := t) (setEntry_at s c ino d) rfl hok ?_ ?_ ?_
  · exact fun d' u hne => ⟨setThread_of_ne _ th hne, setPhase_of_ne _ p hne⟩
  · -- another holder of this lock there is not
    refine fun d' u hne => ⟨rfl, fun hold' => ?_⟩
    cases (h.slices ino).lock.inv.token.unique (.holder d' u) (.holder c t) hold' hold.here
    exact absurd rfl hne
  · rw [setThread_self, setPhase_self]
    show Stage fb (update (s.pcs c t) ino (s.pcs c t ino)) _ _ _ _
    rw [update_eq_self]
    simpa [Slice.setEntry] using hown

/-- The same without a change of the value. -/
theorem Rel.setEntry_silent (h : Rel fb s o) (hold : Holds (s.pcs c t) ino)
    (hok : ((s.at ino).setEntry c d).Ok ((fb ino.toNat).isSome = true) (o.value ino))
    (hown : Stage fb (s.pcs c t) (update (s.entries c) ino (some d)) o.value th
      (o.phase (c, t))) : Rel fb ((s.setEntry c ino d).setThread c t th) o := by
  have hrel := h.setEntry hold hok (p := o.phase (c, t))
    (by rw [update_eq_self]; exact hown)
  rw [update_eq_self] at hrel
  simpa only [setPhase_eq_self] using hrel

/-- A `get` is over: an operation without a `put` is done with it. -/
theorem Rel.goFetched (h : Rel fb s o) (hq : q.InPlace fb) (hold : Holds (s.pcs c t) q.ino)
    (hphase : o.phase (c, t) = .called q) (hdata : o.value q.ino = some (Contents.ofBytes data))
    (hok : ((s.at q.ino).setEntry c d).Ok ((fb q.ino.toNat).isSome = true) (o.value q.ino)) :
    ∃ o', Move apply o none o' ∧ Rel fb ((s.setEntry c q.ino d).setThread c t
      (some ⟨finish q.ino badPut (q.work data), .start⟩)) o' := by
  have hentry : update (s.entries c) q.ino (some d) q.ino = some d := by simp
  cases hwork : (q.work data).2 with
  | none =>
    have happly := apply_eq_work hq hdata
    rw [hwork, Option.getD_none] at happly
    rw [finish, hwork]
    refine ⟨_, .effect hphase happly, h.setEntry hold (hdata ▸ hok) ?_⟩
    exact .leaving hq.1 hold hentry
  | some buf =>
    rw [finish, hwork]
    refine ⟨o, .none, h.setEntry_silent hold hok ?_⟩
    rw [hphase]
    exact .storing hq hold hentry hdata hwork

/-- A `get` begins: it is a hit, or it makes an RPC. -/
theorem Rel.goGet (h : Rel fb s o) (hq : q.InPlace fb) (hold : Holds (s.pcs c t) q.ino)
    (hphase : o.phase (c, t) = .called q) (hs : s.go c t now rands ⟨q.fetch, .start⟩ = some s') :
    ∃ o', Move apply o none o' ∧ Rel fb s' o' := by
  obtain ⟨latest, hvalue, _⟩ := (h.slices q.ino).copies hq.1
  simp only [Request.fetch, fetch, Sys.go] at hs
  split at hs
  · rename_i hp
    cases hs
    have hd := Slice.entry_of_present (x := s.at q.ino) hp
    obtain ⟨hcont, hok⟩ := (h.slices q.ino).hit hq.1 hvalue hold.here hd hp
      { ((s.cache c).entry q.ino.toNat).attr with atime := now }
    obtain rfl := hcont
    exact h.goFetched hq hold hphase hvalue hok
  · rename_i hp
    cases hs
    have hmiss : ((s.cache c).entry q.ino.toNat).isPresent = false := by simpa using hp
    have hdirty := Slice.dirty_of_miss (x := s.at q.ino) (h.slices q.ino) hq.1 hmiss
    have hok := (h.slices q.ino).fill (d := (s.cache c).entry q.ino.toNat) hq.1 hvalue hold.here
      hmiss hdirty fun hp' => absurd hp' (by simp [hmiss])
    refine ⟨o, .none, h.setEntry_silent hold hok ?_⟩
    rw [hphase]
    exact .getRpc hq hold (update_self ..) hmiss

/-- A handler of the server that keeps all contents. -/
theorem setSrv_at {srv : FileBlock} (hsrv : ∀ eid, contents srv eid = contents s.srv eid) :
    (s.setSrv srv).at = s.at := by
  funext ino
  simp [Sys.at, Sys.setSrv, hsrv]

/-- The two RPCs of a `get`, and the filling of the entry. -/
theorem Rel.goGetRpc (h : Rel fb s o) (hq : q.InPlace fb) (hold : Holds (s.pcs c t) q.ino)
    (hphase : o.phase (c, t) = .called q) (hd : s.entries c q.ino = some d)
    (hp : d.isPresent = false) (hs : s.go c t now rands ⟨q.fetch, .rpc⟩ = some s') :
    Rel fb s' o := by
  obtain ⟨latest, hvalue, _⟩ := (h.slices q.ino).copies hq.1
  have hmiss : (((s.at q.ino).cache c).getD FileData.new).isPresent = false := by
    rw [show (s.at q.ino).cache c = some d from hd]
    exact hp
  have hstored : contents s.srv q.ino.toNat = some latest :=
    (h.slices q.ino).stored_of_miss hq.1 hvalue hold.here hmiss
  simp only [Request.fetch, fetch, Sys.go, Extent.Server.get_of_contents now hstored] at hs
  cases hs
  refine h.setThread_silent (setSrv_at (by simp)) rfl ?_
  rw [hphase]
  exact .attrRpc hq hold hd hp hvalue

theorem Rel.goAttrRpc (h : Rel fb s o) (hq : q.InPlace fb) (hold : Holds (s.pcs c t) q.ino)
    (hphase : o.phase (c, t) = .called q) (hd : s.entries c q.ino = some d)
    (hp : d.isPresent = false) (hdata : o.value q.ino = some (Contents.ofBytes data))
    (hs : s.go c t now rands ⟨q.fetch, .attrRpc (.OK, some data)⟩ = some s') : Rel fb s' o := by
  have hmiss : (((s.at q.ino).cache c).getD FileData.new).isPresent = false := by
    rw [show (s.at q.ino).cache c = some d from hd]
    exact hp
  have hstored : contents s.srv q.ino.toNat = some data :=
    (h.slices q.ino).stored_of_miss hq.1 hdata hold.here hmiss
  simp only [Request.fetch, fetch, Sys.go] at hs
  cases hs
  have hret : (Extent.Server.getattr s.srv q.ino.toNat).1 =
      (.OK, (Extent.Server.getattr s.srv q.ino.toNat).1.2) :=
    Prod.ext (Extent.Server.getattr_of_contents hstored) rfl
  rw [hret]
  refine h.setThread_silent (setSrv_at (by simp)) rfl ?_
  rw [hphase]
  exact .fill hq hold hd hp hdata

theorem Rel.goFill (h : Rel fb s o) (hq : q.InPlace fb) (hold : Holds (s.pcs c t) q.ino)
    (hphase : o.phase (c, t) = .called q) (hd : s.entries c q.ino = some d)
    (hp : d.isPresent = false) (hdata : o.value q.ino = some (Contents.ofBytes data))
    {attr : Option Extent.Attr}
    (hs : s.go c t now rands ⟨q.fetch, .fill (.OK, some data) (.OK, attr)⟩ = some s') :
    ∃ o', Move apply o none o' ∧ Rel fb s' o' := by
  have hentry : (s.cache c).entry q.ino.toNat = d := by
    rw [Cache.entry, show s.cache c q.ino.toNat = some d from hd]
    rfl
  have hmiss : (((s.at q.ino).cache c).getD FileData.new).isPresent = false := by
    rw [show (s.at q.ino).cache c = some d from hd]
    exact hp
  have hdirty : d.isDirty = false := by
    have hclean := Slice.dirty_of_miss (h.slices q.ino) hq.1 hmiss
    rwa [show (s.at q.ino).cache c = some d from hd] at hclean
  simp only [Request.fetch, fetch, Sys.go, okOnly, hentry, Option.getD_some, if_true] at hs
  cases hs
  exact h.goFetched hq hold hphase hdata
    ((h.slices q.ino).fill hq.1 hdata hold.here hmiss hdirty fun _ => rfl)

/-- The `put` of an operation, and the operation is done. -/
theorem Rel.goPut (h : Rel fb s o) {buf : Bytes} (hq : q.InPlace fb)
    (hold : Holds (s.pcs c t) q.ino) (hdata : o.value q.ino = some (Contents.ofBytes data))
    (hbuf : (q.work data).2 = some buf) (hphase : o.phase (c, t) = .called q)
    (hs : s.go c t now rands ⟨store q.ino badPut (q.work data).1 buf, .start⟩ = some s') :
    ∃ o', Move apply o none o' ∧ Rel fb s' o' := by
  have happly := apply_eq_work hq hdata
  rw [hbuf, Option.getD_some] at happly
  simp only [store, Sys.go] at hs
  cases hs
  exact ⟨_, .effect hphase happly, h.setEntry hold ((h.slices q.ino).put hold.here rfl rfl)
    (.leaving hq.1 hold (update_self ..))⟩

/-! ### Any step of a thread -/

theorem Rel.go (h : Rel fb s o) {th : Thread} (hth : s.thread c t = some th)
    (hs : s.go c t now rands th = some s') : ∃ o', Move apply o none o' ∧ Rel fb s' o' := by
  have hstage := h.threads c t
  rw [hth] at hstage
  generalize hphase : o.phase (c, t) = ph at hstage
  cases hstage with
  | called hq hpc =>
    refine ⟨o, .none, h.goLock (e := .acquire c t) (by simp [AfterGet]) rfl ?_ hs⟩
    rintro p (⟨_, hp⟩ | ⟨⟨he, _⟩ | ⟨k, hk⟩, _⟩)
    · rw [hphase]
      exact .acquiring hq (idle_update (fun ino _ => hpc ino) p) (by simpa using hp)
    · cases he
    · simp [hpc] at hk
  | @acquiring q hq hpc hin =>
    simp only [Request.single, single, Sys.go] at hs
    obtain ⟨hold, rfl⟩ := Run.of_guard hs
    refine ⟨o, .none, h.setThread_silent rfl rfl ?_⟩
    rw [hphase]
    exact .fetching hq ⟨hpc, hold⟩
  | fetching hq hold => exact h.goGet hq hold hphase hs
  | getRpc hq hold hd hp => exact ⟨o, .none, h.goGetRpc hq hold hphase hd hp hs⟩
  | attrRpc hq hold hd hp hdata => exact ⟨o, .none, h.goAttrRpc hq hold hphase hd hp hdata hs⟩
  | fill hq hold hd hp hdata => exact h.goFill hq hold hphase hd hp hdata hs
  | storing hq hold hd hdata hbuf => exact h.goPut hq hold hdata hbuf hphase hs
  | @leaving ino d a hfb hold hentry =>
    refine ⟨o, .none, h.goLock (e := .release c t) ?_ rfl ?_ hs⟩
    · rintro c' t' he _
      cases he
      exact ⟨hfb, by simp [hentry]⟩
    · rintro p (⟨⟨he, _⟩ | hin, _⟩ | ⟨_, hp⟩)
      · cases he
      · simp [hold.here, Pc.inAcquire] at hin
      · rw [hphase]
        exact .releasing (idle_update hold.others p) (by simpa using hp)
  | @releasing ino a hpc hin =>
    simp only [leave, Sys.go] at hs
    obtain ⟨hidle, rfl⟩ := Run.of_guard hs
    have hall : ∀ ino', s.pcs c t ino' = .idle := by
      intro ino'
      rcases eq_or_ne ino' ino with rfl | hne
      · exact hidle
      · exact hpc ino' hne
    refine ⟨o, .none, h.setThread_silent rfl rfl ?_⟩
    rw [hphase]
    exact .out hall
  | out hpc => cases hs

/-! ### Flushes -/

theorem setFlushing_at (s : Sys) (srv : FileBlock) (lid : Inum) (k : Nat) (f : Flushing)
    (hother : ∀ eid, eid ≠ lid.toNat → contents srv eid = contents s.srv eid) :
    ((s.setSrv srv).setFlushing lid k f).at = update s.at lid
      ((s.at lid).setFlushing (contents srv lid.toNat) k f) := by
  funext ino
  rcases eq_or_ne ino lid with rfl | hne
  · simp [Sys.at, Sys.setSrv, Sys.setFlushing, Slice.setFlushing]
  · have hne' : ino.toNat ≠ lid.toNat := fun he => hne (BitVec.toNat_inj.mp he)
    simp [Sys.at, Sys.setSrv, Sys.setFlushing, hne, hother _ hne']

/-- A step of a flush. No thread holds the lock, so none of them notices. -/
theorem Rel.flush (h : Rel fb s o) {k : Nat} (hk : (s.lock lid).sys.relCalls k = .sent c)
    (hat : s'.at = update s.at lid x) (hthread : s'.thread = s.thread)
    (hpc : x.lock.sys.pc = (s.lock lid).sys.pc)
    (hok : x.Ok ((fb lid.toNat).isSome = true) (o.value lid)) : Rel fb s' o where
  slices := h.slices_update hat (update_eq_self lid o.value).symm hok
  threads d u := by
    rw [pcs_update hat, entries_update hat, hthread]
    have hstage := (h.threads d u).frame_at (e := x.cache d) (v := o.value lid)
      (show x.lock.sys.pc d u = s.pcs d u lid by rw [hpc]; rfl) fun hold => by
        cases (h.slices lid).lock.inv.token.unique (.holder d u) (.release k c) hold hk
    rwa [update_eq_self] at hstage

theorem Rel.dorelease (h : Rel fb s o) {k : Nat} (hs : step s (.dorelease lid k now) = some s') :
    Rel fb s' o := by
  simp only [step] at hs
  split at hs
  · rename_i c hk
    simp only [Sys.goFlush] at hs
    split at hs
    · cases hs
    · rename_i hflushed
      have hnot : (s.lock lid).flushed k = false := by simpa using hflushed
      obtain ⟨d, latest, hd, hvalue, hcopies⟩ := (h.slices lid).entry_of_sent hk hnot
      have hd' : s.cache c lid.toNat = some d := hd
      have hstage : FlushStage (contents s.srv lid.toNat) (s.flushing lid k) (some d) :=
        hd ▸ (h.slices lid).flushes k c hk hnot
      split at hs
      · -- the entry is looked up
        rw [hd'] at hs
        cases hs
        refine h.flush hk (setFlushing_at s s.srv lid k _ fun _ _ => rfl) rfl rfl
          ((h.slices lid).flushing hk hnot (h.slices lid).copies ?_)
        rw [hd]
        cases hdirty : d.isDirty with
        | true => exact .putRpc hdirty
        | false => exact .clear fun hdirty' => by simp [hdirty] at hdirty'
      · -- the write-back
        rename_i buf hf
        rw [hf] at hstage
        cases hstage with
        | putRpc hdirty =>
          cases hs
          have hcont : d.content = latest := hcopies.present c d hd (hcopies.dirty c d hd hdirty)
          refine h.flush hk (setFlushing_at s _ lid k _ fun eid hne => by simp [hne]) rfl rfl
            ((h.slices lid).flushing hk hnot (fun _ => ⟨latest, hvalue, ?_⟩) ?_)
          · rw [Extent.Server.contents_put, if_pos rfl, hcont]
            exact hcopies.store
          · rw [hd]
            exact .clear fun _ => by simp
      · rename_i hf
        rw [hf] at hstage
        cases hstage
      · -- the flags
        rename_i hf
        rw [hf] at hstage
        cases hstage with
        | clear hstored =>
          obtain ⟨l, hl, rfl⟩ := runLock_eq_some.mp hs
          have hentry : (s.cache c).entry lid.toNat = d := by
            rw [Cache.entry, hd']
            rfl
          rw [hentry]
          have hat : ((s.setEntry c lid { d with isDirty := false, isPresent := false }).setLock
              lid l).at = update s.at lid
                (((s.at lid).setEntry c { d with isDirty := false, isPresent := false }).setLock
                  l) := by
            rw [setLock_at, setEntry_at, update_self, update_idem]
          refine h.flush hk hat rfl ?_ ((h.slices lid).clear hk hnot hd hstored hl)
          obtain ⟨_, _, rfl⟩ := FlushSys.dorelease_iff.mp hl
          rfl
  · cases hs

end Steps

/-! ## Runs -/

/-- The operations are called on extents that are there, one at a time by each
thread. -/
def InPlaceOnly (fb : FileBlock) (_ : Sys) : Event → Prop
  | .call _ _ q => q.InPlace fb
  | _ => True

instance decidableValid (q : FileRequest) : Decidable q.Valid := by
  rcases q <;> unfold FileRequest.Valid <;> infer_instance

instance decidableOnContents (q : Request) : Decidable q.OnContents := by
  rcases q <;> unfold Request.OnContents <;> infer_instance

instance decidableInPlace (fb : FileBlock) (q : Request) : Decidable (q.InPlace fb) := by
  unfold Request.InPlace
  infer_instance

instance decidableInPlaceOnly (fb : FileBlock) (s : Sys) (e : Event) :
    Decidable (InPlaceOnly fb s e) := by
  rcases e <;> unfold InPlaceOnly <;> infer_instance

def filesOf (fb : FileBlock) : Files := fun ino => (contents fb ino.toNat).map Contents.ofBytes

theorem not_left_init (c : UserId) : ¬ FlushSys.init.left c := by
  rintro ⟨z, hz, _⟩
  cases z <;> simp [FlushSys.init, LockSys.init, LockSys.tok, ClientLock.new] at hz

theorem rel_init (fb : FileBlock) : Rel fb (Sys.init fb) (Obj.init (filesOf fb)) where
  slices ino := by
    refine
      { lock := FlushSys.ok_init
        left := fun c hc => absurd hc (not_left_init c)
        unstarted := fun _ _ => rfl
        copies := fun hino => ?_
        flushes := fun k c hk => by simp [Sys.at, Sys.init, FlushSys.init, LockSys.init] at hk }
    obtain ⟨⟨a, d⟩, hfb⟩ := Option.isSome_iff_exists.mp hino
    refine ⟨d, by simp [Obj.init, filesOf, contents, hfb], ?_, ?_, ?_, ?_, ?_⟩
    · simp [Sys.at, Sys.init]
    · simp [Sys.at, Sys.init]
    · simp [Sys.at, Sys.init]
    · simp [Sys.at, Sys.init, contents, hfb]
    · exact fun c hc => absurd hc (not_left_init c)
  threads c t := .idle fun _ => rfl

theorem rel_step {fb : FileBlock} {s s' : Sys} {e : Event} {o : AtomicFiles} (h : Rel fb s o)
    (hok : InPlaceOnly fb s e) (hs : step s e = some s') :
    ∃ o', Move apply o (shown s e) o' ∧ Rel fb s' o' := by
  cases e with
  | call c t q =>
    obtain ⟨hnone, rfl⟩ := Run.of_guard hs
    have hstage := h.threads c t
    rw [Option.isNone_iff_eq_none.mp hnone] at hstage
    generalize hphase : o.phase (c, t) = ph at hstage
    cases hstage with
    | idle hpc =>
      refine ⟨_, .call hphase, ?_⟩
      rw [prog_eq_single hok]
      exact h.setThread rfl rfl (.called hok hpc)
  | go c t now rands =>
    obtain ⟨th, hth, hgo⟩ := Option.bind_eq_some_iff.mp hs
    exact h.go hth hgo
  | ret c t =>
    simp only [step] at hs
    split at hs
    · rename_i a b hth
      cases hs
      have hstage := h.threads c t
      rw [hth] at hstage
      generalize hphase : o.phase (c, t) = ph at hstage
      cases hstage with
      | out hpc =>
        refine ⟨_, ?_, h.setThread rfl rfl (.idle hpc)⟩
        simpa only [shown, hth] using .ret hphase
    · cases hs
  | lock lid e =>
    simp only [step] at hs
    split at hs
    · cases hs
    · rename_i he
      obtain ⟨l, hl, rfl⟩ := runLock_eq_some.mp hs
      exact ⟨o, .none, h.lock (by simpa using he) hl⟩
  | dorelease lid k now => exact ⟨o, .none, h.dorelease hs⟩

/-- Client `a` writes while `b` waits for the lock to read. The lock is revoked
and goes from one to the other, with the extent. -/
def writeThenRead : List Event :=
  let a : UserId := ['a']
  let b : UserId := ['b']
  [.call a 0 (.file (.write 7 2 1 fun i => UInt8.ofNat (10 + i))), .go a 0 0 [],
    .lock 7 (.srvAcquire 0), .lock 7 (.acqReturn a 0), .call b 0 (.file (.read 7 4 0)),
    .go b 0 0 [], .lock 7 (.srvAcquire 1), .lock 7 (.srvRevoke 1), .lock 7 (.acqReturn b 0),
    .go a 0 0 [], .go a 0 0 [], .go a 0 0 [], .go a 0 0 [], .go a 0 0 [],
    .lock 7 (.revokeHandler a), .go a 0 0 [], .go a 0 0 [], .dorelease 7 2 0, .dorelease 7 2 0,
    .dorelease 7 2 0, .lock 7 (.srvRelease 2), .lock 7 (.srvRetried 2), .lock 7 (.relReturn a 0),
    .go a 0 0 [], .ret a 0, .lock 7 (.retryHandler b), .lock 7 (.wake b 0), .lock 7 (.srvAcquire 3),
    .lock 7 (.acqReturn b 0), .go b 0 0 [], .go b 0 0 [], .go b 0 0 [], .go b 0 0 [],
    .go b 0 0 [], .go b 0 0 [], .go b 0 0 [], .ret b 0]

def oneFile : FileBlock := fun eid => if eid = 7 then some (⟨0, 0, 0, 1⟩, [1]) else none

def readsWritten : List (Action (UserId × ThreadId) Request Answer) → Bool
  | [.call x _, .call y _, .ret x' (.file (.done .OK)), .ret y' (.file (.got .OK buf))] =>
    decide (x = (['a'], 0) ∧ y = (['b'], 0) ∧ x' = x ∧ y' = y ∧ buf = [1, 10, 11])
  | _ => false

end Yfs.Cluster
