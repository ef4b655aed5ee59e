/-
Yfs.Paxos.LogText — the log as the text file it is (log.cc).

`Yfs.Paxos.Acceptor` keeps the log as a list of records. Here are the three
writers (`loginstance`, `logprop`, `logaccept`), the stream reads of
`logread`, and `dump` and `restore`, all on characters. `logread` mixes
word reads with line reads: the value of a record is the rest of its line,
blanks and all, and after `propseen` the end of the line is left for the
next word read to skip.

`logreadText_fileText` connects the two: reading the text of a list of
records is `Acceptor.logread` of the list, if names are words, values hold
no end of line and numbers are 32-bit. `log_recovers` then is about whole
runs of the handlers.
-/
import Yfs.Lib.Run
import Yfs.Lib.Stream
import Yfs.Paxos.Acceptor

namespace Yfs.Paxos

open Yfs.Words Function

/-! ## Writing -/

def decimal (n : Nat) : List Char := Nat.toDigits 10 n

def doneWord : List Char := ['d', 'o', 'n', 'e']

def propseenWord : List Char := ['p', 'r', 'o', 'p', 's', 'e', 'e', 'n']

def acceptedWord : List Char := ['a', 'c', 'c', 'e', 'p', 't', 'e', 'd']

def loginstance (inst : Nat) (v : Value) : List Char :=
  doneWord ++ ' ' :: (decimal inst ++ ' ' :: (v ++ ['\n']))

def logprop (n : PropT) : List Char :=
  propseenWord ++ ' ' :: (decimal n.n ++ ' ' :: (n.m ++ ['\n']))

def logaccept (n : PropT) (v : Value) : List Char :=
  acceptedWord ++ ' ' :: (decimal n.n ++ ' ' :: (n.m ++ ' ' :: (v ++ ['\n'])))

def LogRec.text : LogRec → List Char
  | .done i v => loginstance i v
  | .propseen n => logprop n
  | .accepted n v => logaccept n v

def fileText (log : List LogRec) : List Char := log.flatMap LogRec.text

/-! ## Reading -/

/-- `logread`; `none` when `VERIFY(0)` is reached. The local variable
`instance` keeps its value from one record to the next. -/
def Acceptor.logreadText (inst : Nat) (a : Acceptor) (s : Stream) : Option Acceptor :=
  if _ : (s.word isspace []).2.fail = false then
    if (s.word isspace []).1 = doneWord then
      let i := (s.word isspace []).2.unsigned isspace inst
      let v := i.2.get.getline []
      logreadText i.1 (a.readRec (.done i.1 v.1)) v.2
    else if (s.word isspace []).1 = propseenWord then
      let n := (s.word isspace []).2.unsigned isspace a.nH.n
      let m := n.2.word isspace a.nH.m
      logreadText inst (a.readRec (.propseen ⟨n.1, m.1⟩)) m.2
    else if (s.word isspace []).1 = acceptedWord then
      let n := (s.word isspace []).2.unsigned isspace a.nA.n
      let m := n.2.word isspace a.nA.m
      let v := m.2.get.getline []
      logreadText inst (a.readRec (.accepted ⟨n.1, m.1⟩ v.1)) v.2
    else none
  else some a
termination_by s.rest.length
decreasing_by
  · have hw := Stream.word_length ‹_›
    have hi := Stream.unsigned_length isspace (s.word isspace []).2 inst
    exact (((Stream.getline_length _ _).trans (Stream.get_length _)).trans hi).trans_lt hw
  · have hw := Stream.word_length ‹_›
    have hn := Stream.unsigned_length isspace (s.word isspace []).2 a.nH.n
    exact ((Stream.word_length_le _ _).trans hn).trans_lt hw
  · have hw := Stream.word_length ‹_›
    have hn := Stream.unsigned_length isspace (s.word isspace []).2 a.nA.n
    exact ((((Stream.getline_length _ _).trans (Stream.get_length _)).trans
      (Stream.word_length_le _ _)).trans hn).trans_lt hw

def dumpFrom (s : Stream) : List Char :=
  if _ : (s.getline []).2.fail = false then
    (s.getline []).1 ++ '\n' :: dumpFrom (s.getline []).2
  else []
termination_by s.rest.length
decreasing_by exact Stream.getline_length_lt ‹_›

def dump (file : List Char) : List Char := dumpFrom (.ofText file)

/-- `acceptor::restore`: the file is overwritten and read. -/
def Acceptor.restoreText (inst : Nat) (a : Acceptor) (text : List Char) : Option Acceptor :=
  a.logreadText inst (.ofText text)

/-- `acceptor::acceptor`, with what the log file holds. -/
def Acceptor.newText (inst : Nat) (me : NodeId) (first : Bool) (value : Value)
    (text : List Char) : Option Acceptor :=
  ((Acceptor.blank me []).logreadText inst (.ofText text)).map fun a =>
    if a.instanceH = 0 ∧ first then
      { a with
        values := update a.values 1 (some value), log := a.log ++ [.done 1 value]
        instanceH := 1 }
    else a

/-! ## Reading the text of records -/

def LogRec.Printable : LogRec → Prop
  | .done i v => i < 2 ^ 32 ∧ '\n' ∉ v
  | .propseen n => n.n < 2 ^ 32 ∧ IsName n.m
  | .accepted n v => n.n < 2 ^ 32 ∧ IsName n.m ∧ '\n' ∉ v

theorem isspace_isDigit (d : Char) (h : d.isDigit = true) : isspace d = false := by
  have hd : 48 ≤ d.val.toNat := by
    simp only [Char.isDigit, Bool.and_eq_true, decide_eq_true_eq] at h
    exact h.1
  by_contra hs
  simp only [isspace, Bool.not_eq_false, Bool.or_eq_true, beq_iff_eq] at hs
  rcases hs with ((((rfl | rfl) | rfl) | rfl) | rfl) | rfl <;> revert hd <;> decide

variable {t : List Char} {r : LogRec} {a a' : Acceptor}

/-- A number between two blanks. -/
theorem unsigned_decimal {n old : Nat} (hn : n < 2 ^ 32) :
    (Stream.ofText (' ' :: (decimal n ++ ' ' :: t))).unsigned isspace old =
      (n, .ofText (' ' :: t)) := by
  have hblank : ∀ c ∈ [' '], isspace c = true := by simp [isspace]
  exact Stream.unsigned_ofText hblank isspace_isDigit hn (by decide)

/-- A name after a blank. -/
theorem word_name {m old : List Char} {c : Char} (hm : IsName m) (hc : isspace c = true) :
    (Stream.ofText (' ' :: (m ++ c :: t))).word isspace old = (m, .ofText (c :: t)) := by
  have hblank : ∀ c ∈ [' '], isspace c = true := by simp [isspace]
  exact Stream.word_ofText hblank hm hc

/-- The rest of a line after a blank. -/
theorem line_value {v old : List Char} (hv : '\n' ∉ v) :
    (Stream.ofText (' ' :: (v ++ '\n' :: t))).get.getline old = (v, .ofText t) := by
  rw [Stream.get_ofText]
  exact Stream.getline_ofText hv

def LogRec.left : LogRec → List Char
  | .propseen _ => ['\n']
  | _ => []

theorem LogRec.left_isspace (r : LogRec) : ∀ c ∈ r.left, isspace c = true := by
  cases r <;> simp [LogRec.left, isspace]

/-- One turn of the loop of `logread`. -/
theorem logreadText_cons (hr : r.Printable) (inst : Nat) (a : Acceptor) {pre : List Char}
    (hpre : ∀ c ∈ pre, isspace c = true) (t : List Char) :
    ∃ inst', a.logreadText inst (.ofText (pre ++ (r.text ++ t))) =
      (a.readRec r).logreadText inst' (.ofText (r.left ++ t)) := by
  cases r with
  | done i v =>
    obtain ⟨hi, hv⟩ := hr
    refine ⟨i, ?_⟩
    have hword : (Stream.ofText (pre ++ (loginstance i v ++ t))).word isspace [] =
        (doneWord, .ofText (' ' :: (decimal i ++ ' ' :: (v ++ '\n' :: t)))) := by
      have htext : loginstance i v ++ t =
          doneWord ++ ' ' :: (decimal i ++ ' ' :: (v ++ '\n' :: t)) := by
        simp [loginstance]
      rw [htext]
      exact Stream.word_ofText hpre (by decide) (by decide)
    rw [Acceptor.logreadText]
    simp only [LogRec.text, hword, unsigned_decimal hi, line_value hv]
    rfl
  | propseen n =>
    obtain ⟨hn, hm⟩ := hr
    refine ⟨inst, ?_⟩
    have hword : (Stream.ofText (pre ++ (logprop n ++ t))).word isspace [] =
        (propseenWord, .ofText (' ' :: (decimal n.n ++ ' ' :: (n.m ++ '\n' :: t)))) := by
      have htext : logprop n ++ t =
          propseenWord ++ ' ' :: (decimal n.n ++ ' ' :: (n.m ++ '\n' :: t)) := by
        simp [logprop]
      rw [htext]
      exact Stream.word_ofText hpre (by decide) (by decide)
    rw [Acceptor.logreadText]
    simp only [LogRec.text, hword, unsigned_decimal hn, word_name hm (c := '\n') (by decide)]
    rfl
  | accepted n v =>
    obtain ⟨hn, hm, hv⟩ := hr
    refine ⟨inst, ?_⟩
    have hword : (Stream.ofText (pre ++ (logaccept n v ++ t))).word isspace [] =
        (acceptedWord,
          .ofText (' ' :: (decimal n.n ++ ' ' :: (n.m ++ ' ' :: (v ++ '\n' :: t))))) := by
      have htext : logaccept n v ++ t =
          acceptedWord ++ ' ' :: (decimal n.n ++ ' ' :: (n.m ++ ' ' :: (v ++ '\n' :: t))) := by
        simp [logaccept]
      rw [htext]
      exact Stream.word_ofText hpre (by decide) (by decide)
    rw [Acceptor.logreadText]
    simp only [LogRec.text, hword, unsigned_decimal hn, word_name hm (c := ' ') (by decide),
      line_value hv]
    rfl

/-- Reading the text of a log reads its records. -/
theorem logreadText_fileText {log : List LogRec} (hlog : ∀ r ∈ log, r.Printable) (inst : Nat)
    (a : Acceptor) {pre : List Char} (hpre : ∀ c ∈ pre, isspace c = true) :
    a.logreadText inst (.ofText (pre ++ fileText log)) = some (a.logread log) := by
  induction log generalizing inst a pre with
  | nil =>
    have hend : ((Stream.ofText (pre ++ fileText [])).word isspace []).2.fail = true := by
      show ((Stream.ofText (pre ++ [])).word isspace []).2.fail = true
      rw [List.append_nil]
      exact Stream.word_end hpre
    rw [Acceptor.logreadText]
    simp only [hend]
    rfl
  | cons r log ih =>
    obtain ⟨inst', hturn⟩ := logreadText_cons (hlog r List.mem_cons_self) inst a hpre (fileText log)
    show a.logreadText inst (.ofText (pre ++ (r.text ++ fileText log))) = _
    rw [hturn, ih (fun x hx => hlog x (List.mem_cons_of_mem _ hx)) inst' _ r.left_isspace]
    rfl

/-- `dump` copies a file all of whose lines are ended. -/
theorem dumpFrom_lines {lines : List (List Char)} (h : ∀ l ∈ lines, '\n' ∉ l) :
    dumpFrom (.ofText (lines.flatMap fun l => l ++ ['\n'])) =
      lines.flatMap fun l => l ++ ['\n'] := by
  induction lines with
  | nil =>
    rw [dumpFrom]
    rfl
  | cons l lines ih =>
    have hline : (Stream.ofText ((l :: lines).flatMap fun l => l ++ ['\n'])).getline [] =
        (l, .ofText (lines.flatMap fun l => l ++ ['\n'])) := by
      simp only [List.flatMap_cons, List.append_assoc, List.singleton_append]
      exact Stream.getline_ofText (h l List.mem_cons_self)
    rw [dumpFrom]
    simp only [hline]
    rw [ih fun x hx => h x (List.mem_cons_of_mem _ hx)]
    simp [Stream.ofText]

def LogRec.line : LogRec → List Char
  | .done i v => doneWord ++ ' ' :: (decimal i ++ ' ' :: v)
  | .propseen n => propseenWord ++ ' ' :: (decimal n.n ++ ' ' :: n.m)
  | .accepted n v => acceptedWord ++ ' ' :: (decimal n.n ++ ' ' :: (n.m ++ ' ' :: v))

theorem LogRec.text_eq_line (r : LogRec) : r.text = r.line ++ ['\n'] := by
  cases r <;> simp [LogRec.text, LogRec.line, loginstance, logprop, logaccept]

theorem not_mem_decimal (n : Nat) : '\n' ∉ decimal n := by
  intro h
  have hdigit := Nat.isDigit_of_mem_toDigits (by decide) (by decide) h
  exact absurd hdigit (by decide)

theorem not_mem_name {m : NodeId} (hm : IsName m) : '\n' ∉ m := by
  intro h
  cases hm.2 _ h

theorem LogRec.Printable.line (h : r.Printable) : '\n' ∉ r.line := by
  cases r with
  | done i v => simp [LogRec.line, doneWord, not_mem_decimal, h.2]
  | propseen n => simp [LogRec.line, propseenWord, not_mem_decimal, not_mem_name h.2]
  | accepted n v =>
    simp [LogRec.line, acceptedWord, not_mem_decimal, not_mem_name h.2.1, h.2.2]

theorem dump_fileText {log : List LogRec} (hlog : ∀ r ∈ log, r.Printable) :
    dump (fileText log) = fileText log := by
  have htext : fileText log = (log.map LogRec.line).flatMap fun l => l ++ ['\n'] := by
    rw [List.flatMap_map]
    exact List.flatMap_congr fun r _ => r.text_eq_line
  rw [dump, htext]
  refine dumpFrom_lines ?_
  intro l hl
  obtain ⟨r, hr, rfl⟩ := List.mem_map.mp hl
  exact (hlog r hr).line

/-! ## Runs of the handlers -/

/-- A call of a handler or of `commit`, with the arguments it can have:
counters and instances are 32-bit. -/
inductive Call where
  | preparereq (inst n : UInt32) (m : NodeId)
  | acceptreq (n : UInt32) (m : NodeId) (v : Value)
  | decidereq (inst : UInt32) (v : Value)
  | commit (inst : UInt32) (v : Value)

/-- Names are words and values hold no end of line. -/
def Call.Clean : Call → Prop
  | .preparereq _ _ m => IsName m
  | .acceptreq _ m v => IsName m ∧ '\n' ∉ v
  | .decidereq _ v => '\n' ∉ v
  | .commit _ v => '\n' ∉ v

/-- The call is executed; `none` when a VERIFY of `decidereq` fails. -/
def Acceptor.call (me : NodeId) (a : Acceptor) : Call → Option Acceptor
  | .preparereq inst n m => some (a.preparereq inst.toNat ⟨n.toNat, m⟩).2
  | .acceptreq n m v => some (a.acceptreq ⟨n.toNat, m⟩ v).2
  | .decidereq inst v => a.decidereq me inst.toNat v
  | .commit inst v => some (a.commitWo me inst.toNat v)

/-- The same for everything the acceptor does: a number that stands for
none may differ in its name. -/
structure Same (a b : Acceptor) : Prop where
  instanceH : b.instanceH = a.instanceH
  values : b.values = a.values
  vA : b.vA = a.vA
  nH : b.nH.n = a.nH.n
  nA : b.nA.n = a.nA.n
  nHm : a.nH.n ≠ 0 → b.nH.m = a.nH.m
  nAm : a.nA.n ≠ 0 → b.nA.m = a.nA.m

/-- `a` holds what is in its log, which can be read back; `me'` is the name
of the node that reads it. The first node has decided instance 1. -/
structure Recorded (first : Bool) (a : Acceptor) : Prop where
  same : ∀ me', Same a ((Acceptor.blank me' []).logread a.log)
  printable : ∀ r ∈ a.log, r.Printable
  isFirst : first = true → 1 ≤ a.instanceH

variable {first : Bool}

/-- A record is appended, and `a'` is what reading it would make of `a`. -/
theorem Recorded.append (h : Recorded first a) (hr : r.Printable) (hlog : a'.log = a.log ++ [r])
    (hle : a.instanceH ≤ a'.instanceH) (hread : ∀ b, Same a b → Same a' (b.readRec r)) :
    Recorded first a' := by
  refine ⟨?_, ?_, fun hf => (h.isFirst hf).trans hle⟩
  · intro me'
    rw [hlog, Acceptor.logread, List.foldl_append]
    exact hread _ (h.same me')
  · rw [hlog]
    intro x hx
    rcases List.mem_append.mp hx with hx | hx
    · exact h.printable x hx
    · rw [List.mem_singleton.mp hx]
      exact hr

theorem Recorded.preparereq (h : Recorded first a) (inst : Nat) {n : PropT}
    (hr : (LogRec.propseen n).Printable) : Recorded first (a.preparereq inst n).2 := by
  rcases preparereq_cases a inst n with ⟨_, heq⟩ | ⟨_, _, heq⟩ | ⟨_, _, heq⟩
  · rw [heq]
    exact h
  · rw [heq]
    refine h.append hr rfl le_rfl ?_
    intro b hs
    exact ⟨hs.instanceH, hs.values, hs.vA, rfl, hs.nA, fun _ => rfl, hs.nAm⟩
  · rw [heq]
    exact h

theorem Recorded.acceptreq (h : Recorded first a) {n : PropT} {v : Value}
    (hr : (LogRec.accepted n v).Printable) : Recorded first (a.acceptreq n v).2 := by
  rcases acceptreq_cases a n v with ⟨_, heq⟩ | ⟨_, heq⟩
  · rw [heq]
    refine h.append hr rfl le_rfl ?_
    intro b hs
    exact ⟨hs.instanceH, hs.values, rfl, hs.nH, rfl, hs.nHm, fun _ => rfl⟩
  · rw [heq]
    exact h

/-- `commit_wo` resets what reading its record resets. -/
theorem Recorded.commitWo (h : Recorded first a) (me : NodeId) {inst : Nat} {v : Value}
    (hr : (LogRec.done inst v).Printable) : Recorded first (a.commitWo me inst v) := by
  unfold Acceptor.commitWo
  split
  · rename_i hlt
    refine h.append hr rfl (Nat.le_of_lt hlt) ?_
    intro b hs
    refine ⟨rfl, ?_, rfl, rfl, rfl, fun h0 => absurd rfl h0, fun h0 => absurd rfl h0⟩
    show update b.values inst (some v) = update a.values inst (some v)
    rw [hs.values]
  · exact h

theorem Recorded.call (h : Recorded first a) {me : NodeId} {c : Call} (hc : c.Clean)
    (hcall : a.call me c = some a') : Recorded first a' := by
  cases c with
  | preparereq inst n m =>
    cases hcall
    exact h.preparereq _ ⟨n.toNat_lt, hc⟩
  | acceptreq n m v =>
    cases hcall
    exact h.acceptreq ⟨n.toNat_lt, hc.1, hc.2⟩
  | decidereq inst v =>
    rcases decidereq_some (show a.decidereq me inst.toNat v = some a' from hcall) with
      rfl | ⟨_, _, rfl⟩
    · exact h
    · exact h.commitWo me ⟨inst.toNat_lt, hc⟩
  | commit inst v =>
    cases hcall
    exact h.commitWo me ⟨inst.toNat_lt, hc⟩

/-- An acceptor that starts for the first time. -/
theorem Recorded.new (me : NodeId) (first : Bool) {value : Value} (hv : '\n' ∉ value) :
    Recorded first (Acceptor.new me first value []) := by
  have hblank : Recorded false (Acceptor.blank me []) := by
    refine ⟨fun me' => ⟨rfl, rfl, rfl, rfl, rfl, ?_, ?_⟩, ?_, ?_⟩
    · exact fun h0 => absurd rfl h0
    · exact fun h0 => absurd rfl h0
    · nofun
    · nofun
  cases first with
  | false => exact hblank
  | true =>
    have hdone : (LogRec.done 1 value).Printable := ⟨by decide, hv⟩
    have hrec : Recorded false (Acceptor.new me true value []) := by
      refine hblank.append hdone rfl (Nat.zero_le _) ?_
      intro b hs
      refine ⟨rfl, ?_, rfl, rfl, rfl, fun h0 => absurd rfl h0, fun h0 => absurd rfl h0⟩
      show update b.values 1 (some value) = _
      rw [hs.values]
      rfl
    exact ⟨hrec.same, hrec.printable, fun _ => le_rfl⟩

theorem Recorded.calls {me : NodeId} {calls : List Call} (hc : ∀ c ∈ calls, c.Clean)
    (h : Recorded first a) (hrun : Yfs.Run.exec (Acceptor.call me) a calls = some a') :
    Recorded first a' := by
  induction calls generalizing a with
  | nil =>
    cases hrun
    exact h
  | cons c calls ih =>
    obtain ⟨b, hb, hrest⟩ := Option.bind_eq_some_iff.mp hrun
    exact ih (fun x hx => hc x (List.mem_cons_of_mem _ hx)) (h.call (hc c List.mem_cons_self) hb)
      hrest

/-- **Log recovery.** Whatever the handlers and `commit` were called with
and in whatever order, reading the file they wrote gives the acceptor back:
at a restart, and at another node that has just started and is sent a dump
of the file. `junk` is what the uninitialised `instance` of `logread`
holds. -/
theorem log_recovers (me : NodeId) (first : Bool) {value : Value} (hv : '\n' ∉ value)
    {calls : List Call} (hc : ∀ c ∈ calls, c.Clean) {a : Acceptor}
    (hrun : Yfs.Run.exec (Acceptor.call me) (Acceptor.new me first value []) calls = some a) :
    (∀ junk, ∃ b, Acceptor.newText junk me first value (fileText a.log) = some b ∧ Same a b) ∧
    ∀ junk me', ∃ b,
      (Acceptor.blank me' []).restoreText junk (dump (fileText a.log)) = some b ∧ Same a b := by
  have hrec : Recorded first a := (Recorded.new me first hv).calls hc hrun
  have hnil : ∀ c ∈ ([] : List Char), isspace c = true := by simp
  have hread : ∀ junk me', (Acceptor.blank me' []).logreadText junk (.ofText (fileText a.log)) =
      some ((Acceptor.blank me' []).logread a.log) := fun junk me' =>
    logreadText_fileText hrec.printable junk _ hnil
  constructor
  · intro junk
    refine ⟨_, ?_, hrec.same me⟩
    rw [Acceptor.newText, hread junk me, Option.map_some, if_neg]
    -- the first node finds an instance in its log
    rintro ⟨h0, hf⟩
    have hle := hrec.isFirst hf
    rw [← (hrec.same me).instanceH] at hle
    omega
  · intro junk me'
    refine ⟨_, ?_, hrec.same me'⟩
    rw [Acceptor.restoreText, dump_fileText hrec.printable]
    exact hread junk me'

def oneInstance : List Call :=
  [.preparereq 1 1 ['b'], .acceptreq 1 ['b'] ['x', ' '], .decidereq 1 ['x', ' ']]

theorem log_recovers_oneInstance :
    ∃ a, Yfs.Run.exec (Acceptor.call ['b']) (Acceptor.new ['b'] false ['b'] []) oneInstance =
        some a ∧ a.instanceH = 1 ∧
      (∀ junk, ∃ b, Acceptor.newText junk ['b'] false ['b'] (fileText a.log) = some b ∧
        Same a b) ∧
      ∀ junk me', ∃ b,
        (Acceptor.blank me' []).restoreText junk (dump (fileText a.log)) = some b ∧ Same a b := by
  have hclean : ∀ c ∈ oneInstance, c.Clean := by
    simp [oneInstance, Call.Clean, Words.IsWord, isspace]
  obtain ⟨a, ha, h1⟩ : ∃ a, Yfs.Run.exec (Acceptor.call ['b'])
      (Acceptor.new ['b'] false ['b'] []) oneInstance = some a ∧ a.instanceH = 1 := by
    decide +kernel
  exact ⟨a, ha, h1, log_recovers ['b'] false (by decide) hclean ha⟩

end Yfs.Paxos
