/-
Yfs.Paxos.AcceptorInv — what an acceptor keeps, operation by operation.

`AccOk` is about the acceptor and its log against the history, and only
gets easier as the history grows. `Covers` is the other direction: every
promise and every vote of the node in the history is remembered by its
core, or belongs to an instance it has left behind.

`Core.Keeps c c'` says that `c'` remembers at least as much as `c`. It
orders the cores an acceptor goes through, and it is what a log must meet
to be safely restored from: `restore` itself does not look.
-/
import Yfs.Paxos.History

namespace Yfs.Paxos

open Function

/-! ## The order of cores -/

/-- `c'` has gone further than `c`, or remembers at least as much. -/
def Core.Keeps (c c' : Core) : Prop :=
  c.instanceH < c'.instanceH ∨ (c.instanceH = c'.instanceH ∧
    (∀ h ∈ c.promised, ∃ h' ∈ c'.promised, h ≤ h') ∧
    ∀ x ∈ c.accepted, ∃ x' ∈ c'.accepted, x.1 ≤ x'.1)

instance (c c' : Core) : Decidable (c.Keeps c') := by
  unfold Core.Keeps
  infer_instance

variable {c : Core} {file : List LogRec}

theorem Core.Keeps.instanceH_le {c' : Core} (h : c.Keeps c') : c.instanceH ≤ c'.instanceH := by
  rcases h with hlt | ⟨heq, _⟩
  · exact hlt.le
  · exact heq.le

/-- Reading a log over `c` and reading it over nothing differ only in what
the log says nothing about. -/
theorem Core.foldl_readRec (c : Core) (file : List LogRec) :
    file.foldl Core.readRec c = Core.ofLog file ∨
    ((Core.ofLog file).instanceH = 0 ∧ (file.foldl Core.readRec c).instanceH = c.instanceH ∧
      ((file.foldl Core.readRec c).promised = (Core.ofLog file).promised ∨
        (Core.ofLog file).promised = none ∧ (file.foldl Core.readRec c).promised = c.promised) ∧
      ((file.foldl Core.readRec c).accepted = (Core.ofLog file).accepted ∨
        (Core.ofLog file).accepted = none ∧
          (file.foldl Core.readRec c).accepted = c.accepted)) := by
  -- from the end of the log: a record overwrites its part, whatever was there
  induction file using List.reverseRecOn with
  | nil => exact .inr ⟨rfl, rfl, .inr ⟨rfl, rfl⟩, .inr ⟨rfl, rfl⟩⟩
  | append_singleton file r ih =>
    rw [Core.ofLog_concat, List.foldl_append]
    simp only [List.foldl_cons, List.foldl_nil]
    rcases ih with heq | ⟨h0, hi, hp, ha⟩
    · left
      rw [heq]
    · cases r with
      | done i v => exact .inl rfl
      | propseen n => exact .inr ⟨h0, hi, .inl rfl, ha⟩
      | accepted n v => exact .inr ⟨h0, hi, hp, .inl rfl⟩

/-- A log that remembers at least as much as `c` replaces it. -/
theorem Core.Keeps.foldl (h : c.Keeps (Core.ofLog file)) :
    file.foldl Core.readRec c = Core.ofLog file := by
  rcases Core.foldl_readRec c file with heq | ⟨h0, hi, hp, ha⟩
  · exact heq
  · rcases h with hlt | ⟨heq, hprom, hacc⟩
    · omega
    · refine Core.ext (hi.trans heq) ?_ ?_
      · rcases hp with hp | ⟨hnone, hp⟩
        · exact hp
        · rw [hp, hnone]
          cases hc : c.promised with
          | none => rfl
          | some x =>
            obtain ⟨x', hx', _⟩ := hprom x hc
            rw [hnone] at hx'
            cases hx'
      · rcases ha with ha | ⟨hnone, ha⟩
        · exact ha
        · rw [ha, hnone]
          cases hc : c.accepted with
          | none => rfl
          | some x =>
            obtain ⟨x', hx', _⟩ := hacc x hc
            rw [hnone] at hx'
            cases hx'

/-! ## What the node has said is remembered -/

variable {first : NodeId} {v₀ : Value} {M M' : List Msg} {S S' : List Started} {me : NodeId}
  {a : Acceptor}

/-- The promises and votes of `me` are those of its core, or older. -/
structure Covers (M : List Msg) (me : NodeId) (c : Core) : Prop where
  promises : ∀ inst n rid res, Promise M me inst n rid res → inst ≤ c.instanceH + 1 ∧
    (inst = c.instanceH + 1 → ∃ h, c.promised = some h ∧ n ≤ h)
  votes : ∀ inst n v, Vote M me inst n v → inst ≤ c.instanceH + 1 ∧
    (inst = c.instanceH + 1 → ∃ m w, c.accepted = some (m, w) ∧ n ≤ m)

theorem Covers.keeps {c' : Core} (h : Covers M me c) (hk : c.Keeps c') : Covers M me c' := by
  constructor
  · intro inst n rid res hp
    obtain ⟨hle, heq⟩ := h.promises inst n rid res hp
    rcases hk with hlt | ⟨hinst, hprom, _⟩
    · exact ⟨by omega, fun hi => absurd hi (by omega)⟩
    · rw [← hinst]
      refine ⟨hle, ?_⟩
      intro hi
      obtain ⟨x, hx, hn⟩ := heq hi
      obtain ⟨x', hx', hxx⟩ := hprom x hx
      exact ⟨x', hx', hn.trans hxx⟩
  · intro inst n v hv
    obtain ⟨hle, heq⟩ := h.votes inst n v hv
    rcases hk with hlt | ⟨hinst, _, hacc⟩
    · exact ⟨by omega, fun hi => absurd hi (by omega)⟩
    · rw [← hinst]
      refine ⟨hle, ?_⟩
      intro hi
      obtain ⟨m, w, hx, hn⟩ := heq hi
      obtain ⟨x', hx', hxx⟩ := hacc (m, w) hx
      exact ⟨x'.1, x'.2, hx', hn.trans hxx⟩

/-- A message that is neither a promise nor a vote of the node. -/
theorem Covers.other (h : Covers M me c) {m : Msg}
    (hp : ∀ q res, m = .prepareRes q res → res.accept = true → q.dst ≠ me)
    (hv : ∀ q, m = .acceptRes q true → q.dst ≠ me) : Covers (m :: M) me c := by
  constructor
  · intro inst n rid res hpr
    rcases hpr.of_cons with hpr | ⟨q, hm, hacc, hdst, _⟩
    · exact h.promises inst n rid res hpr
    · exact absurd hdst (hp q res hm hacc)
  · intro inst n v hvote
    rcases hvote.of_cons with hvote | ⟨q, hm, hdst, _⟩
    · exact h.votes inst n v hvote
    · exact absurd hdst (hv q hm)

/-! ## The acceptor against the history -/

structure AccOk (first : NodeId) (v₀ : Value) (M : List Msg) (S : List Started) (me : NodeId)
    (a : Acceptor) : Prop where
  logOk : a.LogOk
  file : FileOk v₀ M S a.log
  blank : a.nA.used = none → a.vA = []
  decided : ∀ i v, a.values i = some v → Decided v₀ M S i v
  full : ∀ i, i ≠ 0 → i ≤ a.instanceH → (a.values i).isSome = true
  isFirst : me = first → 1 ≤ a.instanceH

theorem AccOk.mono (hM : ∀ m ∈ M, m ∈ M') (hS : ∀ st ∈ S, st ∈ S')
    (h : AccOk first v₀ M S me a) : AccOk first v₀ M' S' me a := by
  refine ⟨h.logOk, h.file.mono hM hS, h.blank, ?_, h.full, h.isFirst⟩
  intro i v hv
  exact (h.decided i v hv).mono hM hS

theorem AccOk.core (h : AccOk first v₀ M S me a) : CoreOk M a.core := by
  have hcore := h.file.core
  rwa [show Core.ofLog a.log = a.core from h.logOk] at hcore

/-- An old instance is answered with its decided value. -/
theorem AccOk.value_decided (h : AccOk first v₀ M S me a) {i : Nat} (hi : i ≠ 0)
    (hle : i ≤ a.instanceH) : Decided v₀ M S i (a.value i) := by
  obtain ⟨v, hv⟩ := Option.isSome_iff_exists.mp (h.full i hi hle)
  have hval : a.value i = v := by simp [Acceptor.value, hv]
  rw [hval]
  exact h.decided i v hv

theorem Acceptor.accepted_iff {n : PropT} {w : Value} :
    a.core.accepted = some (n, w) ↔ a.nA.used = some n ∧ a.vA = w := by
  show (a.nA.used.map fun n => (n, a.vA)) = some (n, w) ↔ _
  simp only [Option.map_eq_some_iff, Prod.mk.injEq]
  constructor
  · rintro ⟨x, hx, rfl, rfl⟩
    exact ⟨hx, rfl⟩
  · rintro ⟨hx, rfl⟩
    exact ⟨n, hx, rfl, rfl⟩

/-- A record that leaves the decided instances alone. -/
theorem FileOk.concat (h : FileOk v₀ M S file) {r : LogRec}
    (hcore : CoreOk M (Core.ofLog (file ++ [r])))
    (hinst : (Core.ofLog (file ++ [r])).instanceH = (Core.ofLog file).instanceH)
    (hnum : ∀ n v, r = .accepted n v → n.n ≠ 0) (hdone : ∀ i v, r ≠ .done i v) :
    FileOk v₀ M S (file ++ [r]) := by
  refine ⟨hcore, ?_, ?_, ?_⟩
  · intro n v hmem
    rcases List.mem_append.mp hmem with hmem | hmem
    · exact h.numbers n v hmem
    · exact hnum n v (List.mem_singleton.mp hmem).symm
  · intro i v hmem
    rcases List.mem_append.mp hmem with hmem | hmem
    · exact h.decided i v hmem
    · exact absurd (List.mem_singleton.mp hmem).symm (hdone i v)
  · intro i hi hle
    rw [hinst] at hle
    obtain ⟨v, hv⟩ := h.full i hi hle
    exact ⟨v, List.mem_append_left _ hv⟩

/-- The next instance is decided. -/
theorem FileOk.concat_done (h : FileOk v₀ M S file) {inst : Nat} {v : Value}
    (hinst : inst = (Core.ofLog file).instanceH + 1) (hd : Decided v₀ M S inst v) :
    FileOk v₀ M S (file ++ [.done inst v]) := by
  have hlog : Core.ofLog (file ++ [.done inst v]) = ⟨inst, none, none⟩ := Core.ofLog_concat _ _
  refine ⟨?_, ?_, ?_, ?_⟩
  · rw [hlog]
    nofun
  · intro n w hmem
    rcases List.mem_append.mp hmem with hmem | hmem
    · exact h.numbers n w hmem
    · cases List.mem_singleton.mp hmem
  · intro i w hmem
    rcases List.mem_append.mp hmem with hmem | hmem
    · exact h.decided i w hmem
    · cases List.mem_singleton.mp hmem
      exact ⟨by omega, hd⟩
  · intro i hi hle
    rw [hlog] at hle
    replace hle : i ≤ inst := hle
    by_cases heq : i = inst
    · exact ⟨v, List.mem_append_right _ (by rw [heq]; exact List.mem_singleton_self _)⟩
    · obtain ⟨w, hw⟩ := h.full i hi (by omega)
      exact ⟨w, List.mem_append_left _ hw⟩

/-! ## The operations -/

/-- `preparereq` promises `n`. -/
theorem AccOk.promise (h : AccOk first v₀ M S me a) {n : PropT} (hlt : a.nH < n)
    (hn : n.n ≠ 0) :
    AccOk first v₀ M S me { a with nH := n, log := a.log ++ [.propseen n] } := by
  have hlog : Core.ofLog (a.log ++ [.propseen n]) = { a.core with promised := n.used } := by
    rw [Core.ofLog_concat, show Core.ofLog a.log = a.core from h.logOk]
    rfl
  refine ⟨hlog, h.file.concat ?_ ?_ ?_ ?_, h.blank, h.decided, h.full, h.isFirst⟩
  · rw [hlog]
    intro m w hm
    obtain ⟨hprop, hw, x, hx, hmx⟩ := h.core m w hm
    refine ⟨hprop, hw, n, PropT.used_of_ne hn, ?_⟩
    obtain ⟨rfl, _⟩ := PropT.used_eq_some.mp (show a.nH.used = some x from hx)
    exact hmx.trans hlt.le
  · rw [hlog, show Core.ofLog a.log = a.core from h.logOk]
  · nofun
  · nofun

/-- `acceptreq` accepts the number it has promised. -/
theorem AccOk.vote (h : AccOk first v₀ M S me a) {n : PropT} {v : Value} (hn : n.n ≠ 0)
    (hH : a.nH = n) (hv : v ≠ []) (hprop : Proposal M (a.instanceH + 1) n v) :
    AccOk first v₀ M S me { a with nA := n, vA := v, log := a.log ++ [.accepted n v] } := by
  have hlog : Core.ofLog (a.log ++ [.accepted n v]) =
      { a.core with accepted := n.used.map fun n => (n, v) } := by
    rw [Core.ofLog_concat, show Core.ofLog a.log = a.core from h.logOk]
    rfl
  have hused : n.used = some n := PropT.used_of_ne hn
  refine ⟨hlog, h.file.concat ?_ ?_ ?_ ?_, ?_, h.decided, h.full, h.isFirst⟩
  · rw [hlog, hused]
    intro m w hm
    cases hm
    exact ⟨hprop, hv, n, by rw [← hused, ← hH]; rfl, le_rfl⟩
  · rw [hlog, show Core.ofLog a.log = a.core from h.logOk]
  · intro m w hr
    cases hr
    exact hn
  · nofun
  · intro hnone
    rw [hused] at hnone
    cases hnone

/-- `commit_wo`, with a decided value for at most the next instance. -/
theorem AccOk.commit (h : AccOk first v₀ M S me a) {inst : Nat} {v : Value}
    (hle : inst ≤ a.instanceH + 1) (hd : inst ≠ 0 → Decided v₀ M S inst v) :
    AccOk first v₀ M S me (a.commitWo me inst v) := by
  rcases commitWo_cases me a inst v with ⟨_, heq⟩ | ⟨hlt, hcore, hlog, hvals⟩
  · rw [heq]
    exact h
  · have hlogOk : Core.ofLog a.log = a.core := h.logOk
    have hinst : (a.commitWo me inst v).instanceH = inst := congrArg Core.instanceH hcore
    have hdec : Decided v₀ M S inst v := hd (by omega)
    have hnext : inst = a.instanceH + 1 := by omega
    refine ⟨?_, ?_, ?_, ?_, ?_, ?_⟩
    · unfold Acceptor.LogOk
      rw [hlog, hcore, Core.ofLog_concat]
      rfl
    · rw [hlog]
      refine h.file.concat_done ?_ hdec
      rw [hlogOk]
      exact hnext
    · intro _
      unfold Acceptor.commitWo
      rw [if_pos hlt]
    · intro i w hw
      rw [hvals] at hw
      by_cases hi : i = inst
      · subst hi
        rw [update_self] at hw
        cases hw
        exact hdec
      · rw [update_of_ne hi] at hw
        exact h.decided i w hw
    · intro i hi hile
      rw [hinst] at hile
      rw [hvals]
      by_cases heq : i = inst
      · rw [heq, update_self]
        rfl
      · rw [update_of_ne heq]
        exact h.full i hi (by omega)
    · intro _
      rw [hinst]
      omega

theorem commitWo_keeps (me : NodeId) (a : Acceptor) (inst : Nat) (v : Value) :
    a.core.Keeps (a.commitWo me inst v).core := by
  rcases commitWo_cases me a inst v with ⟨_, heq⟩ | ⟨hlt, hcore, _⟩
  · rw [heq]
    exact .inr ⟨rfl, fun x hx => ⟨x, hx, le_rfl⟩, fun x hx => ⟨x, hx, le_rfl⟩⟩
  · rw [hcore]
    exact .inl hlt

/-! ## Reading a log -/

/-- Without a number there is no accepted value. -/
theorem logread_blank (hnum : ∀ n v, .accepted n v ∈ file → n.n ≠ 0)
    (h : a.nA.used = none → a.vA = []) :
    (a.logread file).nA.used = none → (a.logread file).vA = [] := by
  induction file generalizing a with
  | nil => exact h
  | cons r file ih =>
    refine ih (fun n v hmem => hnum n v (List.mem_cons_of_mem _ hmem)) ?_
    cases r with
    | done i v => exact fun _ => rfl
    | propseen n => exact h
    | accepted n v =>
      intro hnone
      have hused : n.used = some n := PropT.used_of_ne (hnum n v List.mem_cons_self)
      cases hused.symm.trans hnone

/-- A log that is in order, read over an acceptor it keeps. -/
theorem AccOk.logread (hfile : FileOk v₀ M S file) (hlog : a.log = file)
    (hk : a.core.Keeps (Core.ofLog file)) (hblank : a.nA.used = none → a.vA = [])
    (hdec : ∀ i v, a.values i = some v → Decided v₀ M S i v)
    (hfirst : me = first → 1 ≤ (Core.ofLog file).instanceH) :
    AccOk first v₀ M S me (a.logread file) := by
  have hcore : (a.logread file).core = Core.ofLog file := (core_logread a file).trans hk.foldl
  have hinst : (a.logread file).instanceH = (Core.ofLog file).instanceH :=
    congrArg Core.instanceH hcore
  have hlog' : (a.logread file).log = file := (logread_log a file).trans hlog
  refine ⟨?_, ?_, logread_blank hfile.numbers hblank, ?_, ?_, ?_⟩
  · unfold Acceptor.LogOk
    rw [hlog', hcore]
  · rw [hlog']
    exact hfile
  · intro i v hv
    rcases logread_values hv with hold | hmem
    · exact hdec i v hold
    · exact (hfile.decided i v hmem).2
  · intro i hi hle
    rw [hinst] at hle
    exact logread_values_isSome (.inr (hfile.full i hi hle))
  · intro hme
    rw [hinst]
    exact hfirst hme

/-- `acceptor::restore` from a log that keeps what the acceptor holds. -/
theorem AccOk.restore (h : AccOk first v₀ M S me a) (hfile : FileOk v₀ M S file)
    (hk : a.core.Keeps (Core.ofLog file)) : AccOk first v₀ M S me (a.restore file) := by
  refine AccOk.logread hfile rfl hk h.blank h.decided ?_
  intro hme
  exact (h.isFirst hme).trans hk.instanceH_le

theorem restore_core (hk : a.core.Keeps (Core.ofLog file)) :
    (a.restore file).core = Core.ofLog file :=
  (core_logread _ file).trans hk.foldl

theorem blank_keeps (me : NodeId) (file : List LogRec) (c : Core) :
    (Acceptor.blank me file).core.Keeps c := by
  by_cases h0 : c.instanceH = 0
  · refine .inr ⟨h0.symm, ?_, ?_⟩
    · nofun
    · nofun
  · exact .inl (Nat.pos_of_ne_zero h0)

/-- A restart brings the acceptor back. -/
theorem AccOk.restart (h : AccOk first v₀ M S me a) :
    AccOk first v₀ M S me (Acceptor.new me (me == first) v₀ a.log) ∧
      (Acceptor.new me (me == first) v₀ a.log).core = a.core := by
  have hlogOk : Core.ofLog a.log = a.core := h.logOk
  have hk := blank_keeps me a.log (Core.ofLog a.log)
  have hcore : ((Acceptor.blank me a.log).logread a.log).core = a.core :=
    (core_logread _ _).trans (hk.foldl.trans hlogOk)
  have hinst : ((Acceptor.blank me a.log).logread a.log).instanceH = a.instanceH :=
    congrArg Core.instanceH hcore
  -- the first node has an instance in its log, so it does not start afresh
  have hnew : Acceptor.new me (me == first) v₀ a.log =
      (Acceptor.blank me a.log).logread a.log := by
    refine if_neg ?_
    rintro ⟨h0, hfirst⟩
    have := h.isFirst (by simpa using hfirst)
    omega
  rw [hnew]
  refine ⟨AccOk.logread h.file rfl hk (fun _ => rfl) ?_ ?_, hcore⟩
  · nofun
  · intro hme
    rw [hlogOk]
    exact h.isFirst hme

/-- A node that starts for the first time. -/
theorem AccOk.init : AccOk first v₀ [] [] me (Acceptor.new me (me == first) v₀ []) := by
  have hempty : FileOk v₀ [] [] [] := by
    refine ⟨?_, ?_, ?_, ?_⟩
    · nofun
    · nofun
    · nofun
    · intro i hi hle
      exact absurd (Nat.le_zero.mp hle) hi
  by_cases hme : me = first
  · have hnew : Acceptor.new me (me == first) v₀ [] =
        { Acceptor.blank me [] with
          values := update (fun _ => none) 1 (some v₀), log := [.done 1 v₀]
          instanceH := 1 } := if_pos ⟨rfl, by simpa using hme⟩
    rw [hnew]
    refine ⟨rfl, hempty.concat_done rfl (.inl ⟨rfl, rfl⟩), fun _ => rfl, ?_, ?_, fun _ => le_rfl⟩
    · intro i v hv
      replace hv : update (fun _ => none) 1 (some v₀) i = some v := hv
      by_cases hi : i = 1
      · subst hi
        rw [update_self] at hv
        exact .inl ⟨rfl, (Option.some.inj hv).symm⟩
      · rw [update_of_ne hi] at hv
        cases hv
    · intro i hi hle
      obtain rfl : i = 1 := by
        replace hle : i ≤ 1 := hle
        omega
      rfl
  · have hnew : Acceptor.new me (me == first) v₀ [] = Acceptor.blank me [] :=
      if_neg fun h => hme (by simpa using h.2)
    rw [hnew]
    refine ⟨rfl, hempty, fun _ => rfl, ?_, ?_, fun h => absurd h hme⟩
    · nofun
    · intro i hi hle
      exact absurd (Nat.le_zero.mp hle) hi

end Yfs.Paxos
