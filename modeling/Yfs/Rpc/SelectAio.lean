/-
Yfs.Rpc.SelectAio — the descriptors the poll thread waits for
(rpc/pollmgr.cc: `SelectAIO`).

`watch_fd` and `unwatch_fd` keep two sets and the highest descriptor in
them; the poll thread copies all three, calls `select` up to the highest and
then looks at every descriptor up to it. A connection above `highfds_` would
never be polled again.

`highfds_` is counted up when a descriptor is added, and computed again only
when the highest one lost both flags. The invariant is that it is the
GREATEST watched descriptor, the read end of the wake-up pipe being watched
all the time (`WatchInv`); from it, `highest_watched`: whatever `select` finds
ready among what was watched when the thread copied the sets is reported,
and nothing else.

An `fd_set` is a finite set of descriptors (`PollMgr` admits those below
`MAX_POLL_FDS` only, so its size does not matter). Other threads come between
the copy and the return of `select`, as they do in the source. A VERIFY that
fails is no next state.
-/
import Yfs.Lib.Run

namespace Yfs.Rpc.Select

open Yfs.Run

inductive PollFlag
  | none
  | rdonly
  | wronly
  | rdwr
  | mask
  deriving DecidableEq, Repr

/-- `class SelectAIO`: the sets, the highest descriptor, `pipefd_[0]`, and
the bytes that have been written to `pipefd_[1]` and not been read. -/
structure SelectAio where
  rfds : Finset Nat
  wfds : Finset Nat
  highfds : Nat
  pipefd : Nat
  bytes : List Nat
  deriving DecidableEq

/-- The constructor, with the descriptor that `pipe` gives. -/
def SelectAio.init (pipefd : Nat) : SelectAio := ⟨{pipefd}, ∅, pipefd, pipefd, []⟩

def watchFd (s : SelectAio) (fd : Nat) (flag : PollFlag) : SelectAio :=
  { rfds := if flag = .wronly then s.rfds else insert fd s.rfds
    wfds := if flag = .rdonly then s.wfds else insert fd s.wfds
    highfds := if s.highfds ≤ fd then fd else s.highfds
    pipefd := s.pipefd
    bytes := s.bytes ++ [1] }

/-- The loop of `unwatch_fd`: the last descriptor below `n` that is in one of
the sets. -/
def newHigh (rfds wfds : Finset Nat) (newh n : Nat) : Nat :=
  (List.range n).foldl
    (fun newh i => if i ∈ rfds then i else if i ∈ wfds then i else newh) newh

def lowerHigh (s : SelectAio) (fd : Nat) : SelectAio :=
  if fd ∉ s.rfds ∧ fd ∉ s.wfds ∧ fd = s.highfds then
    { s with highfds := newHigh s.rfds s.wfds s.pipefd (s.highfds + 1) }
  else s

/-- `unwatch_fd`; the result says that the descriptor has no flag left. -/
def unwatchFd (s : SelectAio) (fd : Nat) (flag : PollFlag) : Option (SelectAio × Bool) :=
  let cleared : Option SelectAio :=
    match flag with
    | .rdonly => some { s with rfds := s.rfds.erase fd }
    | .wronly => some { s with wfds := s.wfds.erase fd }
    | .rdwr => some { s with wfds := s.wfds.erase fd, rfds := s.rfds.erase fd }
    | _ => none
  cleared.map fun s =>
    let s' := lowerHigh s fd
    ({ s' with bytes := if flag = .rdwr then s'.bytes ++ [1] else s'.bytes },
      decide (fd ∉ s.rfds ∧ fd ∉ s.wfds))

/-- What `wait_ready` copies under the mutex. -/
structure Copy where
  trfds : Finset Nat
  twfds : Finset Nat
  high : Nat
  deriving DecidableEq

def SelectAio.copy (s : SelectAio) : Copy := ⟨s.rfds, s.wfds, s.highfds⟩

def select (nfds : Nat) (fds ready : Finset Nat) : Finset Nat :=
  {fd ∈ fds | fd < nfds ∧ fd ∈ ready}

structure Scan where
  bytes : List Nat
  readable : List Nat
  writable : List Nat
  deriving DecidableEq

def scanFd (pipefd : Nat) (trfds twfds : Finset Nat) (acc : Scan) (fd : Nat) : Option Scan :=
  if fd = pipefd ∧ fd ∈ trfds then
    match acc.bytes with
    | [] => none
    | tmp :: rest => if tmp = 1 then some { acc with bytes := rest } else none
  else
    some { acc with
      writable := if fd ∈ twfds then acc.writable ++ [fd] else acc.writable
      readable := if fd ∈ trfds then acc.readable ++ [fd] else acc.readable }

def scan (s : SelectAio) (c : Copy) (r w : Finset Nat) : Option Scan :=
  (List.range (c.high + 1)).foldlM
    (scanFd s.pipefd (select (c.high + 1) c.trfds r) (select (c.high + 1) c.twfds w))
    ⟨s.bytes, [], []⟩

/-! ## The poll thread among the others -/

/-- The object, the copy of a `wait_ready` that is in `select`, and the
vectors of the last one. -/
structure Poll where
  aio : SelectAio
  waiting : Option Copy
  readable : List Nat
  writable : List Nat
  deriving DecidableEq

inductive Event
  | watch (fd : Nat) (flag : PollFlag)
  | unwatch (fd : Nat) (flag : PollFlag)
  /-- The poll thread copies the sets and goes into `select`. -/
  | enter
  /-- `select` returns; ready to be read and to be written are `r` and `w`. -/
  | selected (r w : Finset Nat)
  /-- `select` returns with `EINTR`. -/
  | interrupted

def step (p : Poll) : Event → Option Poll
  | .watch fd flag => some { p with aio := watchFd p.aio fd flag }
  | .unwatch fd flag => (unwatchFd p.aio fd flag).map fun res => { p with aio := res.1 }
  | .enter =>
    if p.waiting = none then
      some { p with waiting := some p.aio.copy, readable := [], writable := [] }
    else none
  | .selected r w =>
    p.waiting.bind fun c =>
      (scan p.aio c r w).map fun acc =>
        { aio := { p.aio with bytes := acc.bytes }, waiting := none,
          readable := acc.readable, writable := acc.writable }
  | .interrupted => p.waiting.map fun _ => { p with waiting := none }

def Poll.init (pipefd : Nat) : Poll := ⟨SelectAio.init pipefd, none, [], []⟩

/-- The calls are for other descriptors than the pipe, and the pipe is found
ready when there is a byte in it. -/
def Proper (p : Poll) : Event → Prop
  | .watch fd _ => fd ≠ p.aio.pipefd
  | .unwatch fd _ => fd ≠ p.aio.pipefd
  | .selected r _ => p.aio.pipefd ∈ r → p.aio.bytes ≠ []
  | _ => True

/-! ## The highest descriptor -/

/-- The descriptors in one of two sets, and a number that is the greatest. -/
def Highest (rfds wfds : Finset Nat) (high : Nat) : Prop :=
  IsGreatest { fd | fd ∈ rfds ∨ fd ∈ wfds } high

/-- The highest descriptor is right; the pipe is watched, for reading only,
and holds ones. -/
structure WatchInv (pipefd : Nat) (s : SelectAio) : Prop where
  highest : Highest s.rfds s.wfds s.highfds
  pipe : s.pipefd = pipefd
  pipe_read : pipefd ∈ s.rfds
  pipe_write : pipefd ∉ s.wfds
  ones : ∀ b ∈ s.bytes, b = 1

section High

variable {rfds wfds : Finset Nat}

/-- The loop ends at a watched descriptor that none below `n` exceeds. -/
theorem newHigh_spec {newh : Nat} (h : newh ∈ rfds ∨ newh ∈ wfds) (n : Nat) :
    (newHigh rfds wfds newh n ∈ rfds ∨ newHigh rfds wfds newh n ∈ wfds) ∧
      ∀ i < n, i ∈ rfds ∨ i ∈ wfds → i ≤ newHigh rfds wfds newh n := by
  induction n with
  | zero => exact ⟨h, fun i hi => absurd hi (Nat.not_lt_zero i)⟩
  | succ n ih =>
    have hsucc : newHigh rfds wfds newh (n + 1) =
        if n ∈ rfds then n else if n ∈ wfds then n else newHigh rfds wfds newh n := by
      simp only [newHigh, List.range_succ, List.foldl_append, List.foldl_cons, List.foldl_nil]
    rw [hsucc]
    by_cases hn : n ∈ rfds ∨ n ∈ wfds
    · rw [← ite_or, if_pos hn]
      exact ⟨hn, fun i hi _ => Nat.lt_succ_iff.mp hi⟩
    · rw [if_neg fun hr => hn (.inl hr), if_neg fun hw => hn (.inr hw)]
      refine ⟨ih.1, fun i hi hmem => ?_⟩
      rcases Nat.lt_succ_iff_lt_or_eq.mp hi with hlt | rfl
      · exact ih.2 i hlt hmem
      · exact absurd hmem hn

end High

variable {pipefd : Nat}

theorem watchInv_init (pipefd : Nat) : WatchInv pipefd (SelectAio.init pipefd) := by
  refine ⟨⟨.inl (Finset.mem_singleton_self pipefd), ?_⟩, rfl, Finset.mem_singleton_self pipefd,
    Finset.notMem_empty pipefd, by simp [SelectAio.init]⟩
  rintro fd (hfd | hfd)
  · exact (Finset.mem_singleton.mp hfd).le
  · exact absurd hfd (Finset.notMem_empty fd)

/-- A byte more in the pipe. -/
theorem ones_append {bytes : List Nat} (h : ∀ b ∈ bytes, b = 1) : ∀ b ∈ bytes ++ [1], b = 1 := by
  intro b hb
  rcases List.mem_append.mp hb with hb | hb
  · exact h b hb
  · exact List.mem_singleton.mp hb

variable {s : SelectAio} {fd : Nat}

theorem WatchInv.watchFd (h : WatchInv pipefd s) (hfd : fd ≠ pipefd) (flag : PollFlag) :
    WatchInv pipefd (watchFd s fd flag) := by
  -- watched afterwards: what was, and `fd`
  have hmem : ∀ x, (x ∈ (Select.watchFd s fd flag).rfds ∨ x ∈ (Select.watchFd s fd flag).wfds) ↔
      x = fd ∨ x ∈ s.rfds ∨ x ∈ s.wfds := by
    intro x
    cases flag <;> simp [Select.watchFd] <;> tauto
  refine ⟨⟨?_, ?_⟩, h.pipe, ?_, ?_, ones_append h.ones⟩
  · show _ ∈ _ ∨ _ ∈ _
    rw [hmem]
    show (if s.highfds ≤ fd then fd else s.highfds) = fd ∨ _
    split
    · exact .inl rfl
    · rename_i hle
      simp only [Select.watchFd, if_neg hle]
      exact .inr h.highest.1
  · intro x hx
    show x ≤ if s.highfds ≤ fd then fd else s.highfds
    rcases (hmem x).mp hx with rfl | hx
    · split <;> omega
    · have hle : x ≤ s.highfds := h.highest.2 hx
      split <;> omega
  · show pipefd ∈ if flag = .wronly then s.rfds else insert fd s.rfds
    split
    · exact h.pipe_read
    · exact Finset.mem_insert_of_mem h.pipe_read
  · show pipefd ∉ if flag = .rdonly then s.wfds else insert fd s.wfds
    split
    · exact h.pipe_write
    · rw [Finset.mem_insert, not_or]
      exact ⟨hfd.symm, h.pipe_write⟩

theorem lowerHigh_eq (s : SelectAio) (fd : Nat) :
    lowerHigh s fd = { s with highfds := (lowerHigh s fd).highfds } := by
  unfold lowerHigh
  split
  · rfl
  · rfl

theorem bytes_lowerHigh (s : SelectAio) (fd : Nat) : (lowerHigh s fd).bytes = s.bytes := by
  rw [lowerHigh_eq]

/-- The tail of `unwatch_fd` repairs the highest descriptor if that is the one
that lost its flags. -/
theorem highest_lowerHigh (hpipe : s.pipefd ∈ s.rfds)
    (hle : ∀ x, x ∈ s.rfds ∨ x ∈ s.wfds → x ≤ s.highfds)
    (hmem : s.highfds ≠ fd → s.highfds ∈ s.rfds ∨ s.highfds ∈ s.wfds) :
    Highest s.rfds s.wfds (lowerHigh s fd).highfds := by
  rw [lowerHigh]
  split
  · have hpipe' : s.pipefd ∈ s.rfds ∨ s.pipefd ∈ s.wfds := .inl hpipe
    obtain ⟨hnew, hmax⟩ := newHigh_spec hpipe' (s.highfds + 1)
    exact ⟨hnew, fun x hx => hmax x (Nat.lt_succ_of_le (hle x hx)) hx⟩
  · rename_i hkeep
    refine ⟨?_, fun x hx => hle x hx⟩
    by_cases heq : s.highfds = fd
    · by_contra hgone
      rw [Set.mem_ofPred_eq, heq, not_or] at hgone
      exact hkeep ⟨hgone.1, hgone.2, heq.symm⟩
    · exact hmem heq

/-- Whichever flags of `fd` are cleared. -/
theorem WatchInv.cleared (h : WatchInv pipefd s) (hfd : fd ≠ pipefd) {rfds wfds : Finset Nat}
    (hr : s.rfds.erase fd ⊆ rfds) (hr' : rfds ⊆ s.rfds) (hw : s.wfds.erase fd ⊆ wfds)
    (hw' : wfds ⊆ s.wfds) {bytes : List Nat} (hones : ∀ b ∈ bytes, b = 1) :
    WatchInv pipefd
      { lowerHigh { s with rfds := rfds, wfds := wfds } fd with bytes := bytes } := by
  have hread : pipefd ∈ rfds := hr (Finset.mem_erase.mpr ⟨hfd.symm, h.pipe_read⟩)
  have hhigh : Highest rfds wfds (lowerHigh { s with rfds := rfds, wfds := wfds } fd).highfds := by
    refine highest_lowerHigh (s := { s with rfds := rfds, wfds := wfds }) ?_ ?_ ?_
    · show s.pipefd ∈ rfds
      rw [h.pipe]
      exact hread
    · exact fun x hx => h.highest.2 (hx.imp (@hr' x) (@hw' x))
    · intro hne
      exact h.highest.1.imp (fun hm => hr (Finset.mem_erase.mpr ⟨hne, hm⟩))
        fun hm => hw (Finset.mem_erase.mpr ⟨hne, hm⟩)
  rw [lowerHigh_eq]
  exact ⟨hhigh, h.pipe, hread, fun hm => h.pipe_write (hw' hm), hones⟩

theorem WatchInv.unwatchFd (h : WatchInv pipefd s) (hfd : fd ≠ pipefd) {flag : PollFlag}
    {res : SelectAio × Bool} (hres : unwatchFd s fd flag = some res) : WatchInv pipefd res.1 := by
  cases flag with
  | none => cases hres
  | mask => cases hres
  | rdonly =>
    cases hres
    refine h.cleared hfd subset_rfl (Finset.erase_subset fd _) (Finset.erase_subset fd _)
      subset_rfl ?_
    simp only [reduceCtorEq, if_false, bytes_lowerHigh]
    exact h.ones
  | wronly =>
    cases hres
    refine h.cleared hfd (Finset.erase_subset fd _) subset_rfl subset_rfl
      (Finset.erase_subset fd _) ?_
    simp only [reduceCtorEq, if_false, bytes_lowerHigh]
    exact h.ones
  | rdwr =>
    cases hres
    refine h.cleared hfd subset_rfl (Finset.erase_subset fd _) subset_rfl
      (Finset.erase_subset fd _) ?_
    simp only [if_true, bytes_lowerHigh]
    exact ones_append h.ones

/-! ## The scan -/

section Scan

variable {trfds : Finset Nat} {bytes : List Nat}

/-- The scan of the descriptors below `n`: at most one byte goes from the
pipe, and every other descriptor of the sets is reported, in order. -/
theorem scan_below (hpipe : pipefd ∈ trfds → ∃ rest, bytes = 1 :: rest)
    (twfds : Finset Nat) (n : Nat) :
    (List.range n).foldlM (scanFd pipefd trfds twfds) ⟨bytes, [], []⟩ =
      some ⟨if pipefd < n ∧ pipefd ∈ trfds then bytes.tail else bytes,
        (List.range n).filter fun fd => fd ∈ trfds ∧ fd ≠ pipefd,
        (List.range n).filter fun fd => fd ∈ twfds ∧ ¬ (fd = pipefd ∧ fd ∈ trfds)⟩ := by
  induction n with
  | zero => simp
  | succ n ih =>
    rw [List.range_succ, List.foldlM_append, ih, List.filter_append, List.filter_append]
    by_cases hn : n = pipefd ∧ n ∈ trfds
    · obtain ⟨rfl, hmem⟩ := hn
      obtain ⟨rest, rfl⟩ := hpipe hmem
      simp [scanFd, hmem]
    · have hbyte : (pipefd < n + 1 ∧ pipefd ∈ trfds) ↔ (pipefd < n ∧ pipefd ∈ trfds) := by
        constructor
        · rintro ⟨hlt, hmem⟩
          refine ⟨?_, hmem⟩
          by_contra hge
          obtain rfl : n = pipefd := by omega
          exact hn ⟨rfl, hmem⟩
        · exact fun ⟨hlt, hmem⟩ => ⟨Nat.lt_succ_of_lt hlt, hmem⟩
      have hread : (n ∈ trfds ∧ n ≠ pipefd) ↔ n ∈ trfds :=
        ⟨fun h => h.1, fun h => ⟨h, fun heq => hn ⟨heq, h⟩⟩⟩
      simp only [Option.bind_eq_bind, Option.bind_some, List.foldlM_cons, List.foldlM_nil, scanFd,
        hbyte, List.filter_singleton, hread, hn, not_false_eq_true, and_true]
      by_cases hr : n ∈ trfds <;> by_cases hw : n ∈ twfds <;> simp [hr, hw]

end Scan

/-- Nothing above the highest descriptor is asked for, so the bound on
`select` takes nothing away. -/
theorem mem_select_iff {high : Nat} {fds : Finset Nat} (hle : ∀ fd ∈ fds, fd ≤ high)
    (ready : Finset Nat) (fd : Nat) :
    fd ∈ select (high + 1) fds ready ↔ fd ∈ fds ∧ fd ∈ ready := by
  rw [select, Finset.mem_filter]
  exact ⟨fun h => ⟨h.1, h.2.2⟩, fun h => ⟨h.1, Nat.lt_succ_of_le (hle fd h.1), h.2⟩⟩

/-- What a copy must be for `wait_ready` to see everything in it. -/
structure CopyInv (pipefd : Nat) (c : Copy) : Prop where
  highest : Highest c.trfds c.twfds c.high
  pipe_read : pipefd ∈ c.trfds
  pipe_write : pipefd ∉ c.twfds

theorem WatchInv.copy (h : WatchInv pipefd s) : CopyInv pipefd s.copy :=
  ⟨h.highest, h.pipe_read, h.pipe_write⟩

/-- The scan succeeds, and reports what was in the copied sets and is ready,
the pipe apart. -/
theorem scan_spec (h : WatchInv pipefd s) {c : Copy} (hc : CopyInv pipefd c) {r w : Finset Nat}
    (hready : pipefd ∈ r → s.bytes ≠ []) :
    ∃ acc, scan s c r w = some acc ∧ (∀ b ∈ acc.bytes, b = 1) ∧
      (∀ fd, fd ∈ acc.readable ↔ fd ∈ c.trfds ∧ fd ∈ r ∧ fd ≠ pipefd) ∧
      (∀ fd, fd ∈ acc.writable ↔ fd ∈ c.twfds ∧ fd ∈ w) ∧
      acc.readable.Nodup ∧ acc.writable.Nodup := by
  have hr := mem_select_iff (fun fd hfd => hc.highest.2 (.inl hfd)) r
  have hw := mem_select_iff (fun fd hfd => hc.highest.2 (.inr hfd)) w
  have hpipe : pipefd ∈ select (c.high + 1) c.trfds r → ∃ rest, s.bytes = 1 :: rest := by
    intro hmem
    obtain ⟨b, rest, hb⟩ := List.exists_cons_of_ne_nil (hready ((hr pipefd).mp hmem).2)
    exact ⟨rest, hb.trans (by rw [h.ones b (by simp [hb])])⟩
  have hscan := scan_below hpipe (select (c.high + 1) c.twfds w) (c.high + 1)
  rw [← h.pipe] at hscan ⊢
  refine ⟨_, hscan, ?_, ?_, ?_, ?_, ?_⟩
  · intro b hb
    refine h.ones b ?_
    dsimp only at hb
    split at hb
    · exact List.mem_of_mem_tail hb
    · exact hb
  · intro fd
    simp only [List.mem_filter, List.mem_range, decide_eq_true_eq, hr]
    constructor
    · exact fun hfd => ⟨hfd.2.1.1, hfd.2.1.2, hfd.2.2⟩
    · exact fun hfd => ⟨Nat.lt_succ_of_le (hc.highest.2 (.inl hfd.1)), ⟨hfd.1, hfd.2.1⟩, hfd.2.2⟩
  · intro fd
    simp only [List.mem_filter, List.mem_range, decide_eq_true_eq, hw]
    constructor
    · exact fun hfd => hfd.2.1
    · intro hfd
      refine ⟨Nat.lt_succ_of_le (hc.highest.2 (.inr hfd.1)), hfd, ?_⟩
      rintro ⟨rfl, -⟩
      exact hc.pipe_write (h.pipe ▸ hfd.1)
  · exact List.nodup_range.filter _
  · exact List.nodup_range.filter _

/-! ## Runs -/

structure Inv (pipefd : Nat) (p : Poll) : Prop where
  aio : WatchInv pipefd p.aio
  waiting : ∀ c, p.waiting = some c → CopyInv pipefd c

theorem inv_init (pipefd : Nat) : Inv pipefd (Poll.init pipefd) :=
  ⟨watchInv_init pipefd, by simp [Poll.init]⟩

theorem Inv.step {p p' : Poll} {e : Event} (h : Inv pipefd p) (hok : Proper p e)
    (hs : step p e = some p') : Inv pipefd p' := by
  cases e with
  | watch fd flag =>
    cases hs
    exact ⟨h.aio.watchFd (h.aio.pipe ▸ hok) flag, h.waiting⟩
  | unwatch fd flag =>
    obtain ⟨res, hres, rfl⟩ := Option.map_eq_some_iff.mp hs
    exact ⟨h.aio.unwatchFd (h.aio.pipe ▸ hok) hres, h.waiting⟩
  | enter =>
    rw [Select.step] at hs
    split at hs
    · cases hs
      refine ⟨h.aio, fun c hc => ?_⟩
      cases hc
      exact h.aio.copy
    · cases hs
  | selected r w =>
    obtain ⟨c, hc, hs⟩ := Option.bind_eq_some_iff.mp hs
    obtain ⟨acc, hacc, rfl⟩ := Option.map_eq_some_iff.mp hs
    obtain ⟨acc', hacc', hones, -⟩ :=
      scan_spec (r := r) (w := w) h.aio (h.waiting c hc) (h.aio.pipe ▸ hok)
    cases hacc'.symm.trans hacc
    exact ⟨⟨h.aio.highest, h.aio.pipe, h.aio.pipe_read, h.aio.pipe_write, hones⟩, nofun⟩
  | interrupted =>
    obtain ⟨c, -, rfl⟩ := Option.map_eq_some_iff.mp hs
    exact ⟨h.aio, nofun⟩

theorem inv_of_reach {p : Poll} (h : Reach step Proper (Poll.init pipefd) p) : Inv pipefd p :=
  h.invariant (Inv pipefd) (inv_init pipefd) fun _ _ _ => Inv.step

/-- **Highest watched descriptor**: after any calls on descriptors other than
the pipe, from any threads, `highfds_` is the greatest watched one, the pipe
being one of them. A `wait_ready` works on a copy of the sets of which that
is true as well; when its `select` returns, the scan reports, each once, all
descriptors in the copied sets that are ready, and no other. -/
theorem highest_watched {p : Poll} (h : Reach step Proper (Poll.init pipefd) p) :
    Highest p.aio.rfds p.aio.wfds p.aio.highfds ∧ pipefd ∈ p.aio.rfds ∧
    (∀ p', step p .enter = some p' →
      p'.waiting = some ⟨p.aio.rfds, p.aio.wfds, p.aio.highfds⟩) ∧
    ∀ c, p.waiting = some c → Highest c.trfds c.twfds c.high ∧
      ∀ r w, (pipefd ∈ r → p.aio.bytes ≠ []) →
        ∃ p', step p (.selected r w) = some p' ∧
          (∀ fd, fd ∈ p'.readable ↔ fd ∈ c.trfds ∧ fd ∈ r ∧ fd ≠ pipefd) ∧
          (∀ fd, fd ∈ p'.writable ↔ fd ∈ c.twfds ∧ fd ∈ w) ∧
          p'.readable.Nodup ∧ p'.writable.Nodup := by
  have hinv := inv_of_reach h
  refine ⟨hinv.aio.highest, hinv.aio.pipe_read, fun p' hs => ?_, fun c hc => ?_⟩
  · rw [step] at hs
    split at hs
    · cases hs
      rfl
    · cases hs
  · refine ⟨(hinv.waiting c hc).highest, fun r w hready => ?_⟩
    obtain ⟨acc, hacc, -, hreport⟩ := scan_spec (w := w) hinv.aio (hinv.waiting c hc) hready
    refine ⟨⟨{ p.aio with bytes := acc.bytes }, none, acc.readable, acc.writable⟩, ?_, hreport⟩
    rw [step, hc, Option.bind_some, hacc]
    rfl

instance (p : Poll) (e : Event) : Decidable (Proper p e) := by
  rcases e <;> unfold Proper <;> infer_instance

/-- The pipe is 3; 9 is watched and unwatched again, 5 loses one flag of two. -/
theorem highest_watched_lowered :
    ∃ p, Reach step Proper (Poll.init 3) p ∧ p.waiting = some ⟨{3}, {5}, 5⟩ ∧
      Highest p.aio.rfds p.aio.wfds 5 := by
  obtain ⟨p, hreach, hp⟩ : ∃ p, Reach step Proper (Poll.init 3) p ∧
      p.waiting = some ⟨{3}, {5}, 5⟩ ∧ p.aio.highfds = 5 :=
    exists_reach [.watch 5 .rdwr, .watch 9 .rdonly, .unwatch 9 .rdonly, .unwatch 5 .rdonly, .enter]
      (by decide)
  refine ⟨p, hreach, hp.1, ?_⟩
  have hhigh := (highest_watched hreach).1
  rwa [hp.2] at hhigh

end Yfs.Rpc.Select
