/-
Yfs.Lib.Stream — reading a text through a C++ input stream.

A stream is the text that is left and the two state bits a reader can see,
`eofbit` and `failbit`. Each extraction first passes the sentry: on a
stream that is not good it fails and leaves its target alone. What counts
as white space is a parameter.

`word` and `unsigned` are the formatted extractions (`operator>>`), `get`
and `getline` the unformatted ones. The lemmas at the end of each section
say what they do to text that was written with separators between its
parts; `length` lemmas say that nothing is put back.
-/
import Yfs.Lib.Words

namespace Yfs.Words

structure Stream where
  rest : List Char
  eof : Bool
  fail : Bool
  deriving DecidableEq, Repr

namespace Stream

def ofText (text : List Char) : Stream := ⟨text, false, false⟩

def good (s : Stream) : Bool := !s.eof && !s.fail

def sentry (s : Stream) : Stream := if s.good then s else { s with fail := true }

def skipws (sp : Char → Bool) (s : Stream) : Stream :=
  if s.good then
    if (s.rest.dropWhile sp).isEmpty then ⟨[], true, true⟩
    else ⟨s.rest.dropWhile sp, false, false⟩
  else { s with fail := true }

/-- `is >> str`. -/
def word (sp : Char → Bool) (s : Stream) (old : List Char) : List Char × Stream :=
  let s := s.skipws sp
  if s.good then
    let rest := s.rest.dropWhile fun c => !sp c
    (s.rest.takeWhile fun c => !sp c, ⟨rest, rest.isEmpty, false⟩)
  else (old, s)

def sign : List Char → Bool × List Char
  | '-' :: t => (true, t)
  | '+' :: t => (false, t)
  | t => (false, t)

/-- `is >> n` for a 32-bit unsigned `n`: no digits give 0, too many the
largest number, and a minus sign the negative modulo 2³². -/
def unsigned (sp : Char → Bool) (s : Stream) (old : Nat) : Nat × Stream :=
  let s := s.skipws sp
  if s.good then
    let digits := (sign s.rest).2.takeWhile Char.isDigit
    let rest := (sign s.rest).2.dropWhile Char.isDigit
    let n := Nat.ofDigitChars 10 digits 0
    if digits.isEmpty then (0, ⟨rest, rest.isEmpty, true⟩)
    else if 2 ^ 32 ≤ n then (2 ^ 32 - 1, ⟨rest, rest.isEmpty, true⟩)
    else (if (sign s.rest).1 then (2 ^ 32 - n) % 2 ^ 32 else n, ⟨rest, rest.isEmpty, false⟩)
  else (old, s)

/-- `is.get()`. -/
def get (s : Stream) : Stream :=
  let s := s.sentry
  if s.good then
    match s.rest with
    | [] => ⟨[], true, true⟩
    | _ :: t => ⟨t, false, false⟩
  else s

/-- `getline(is, str)`: the end of line is taken and dropped; reaching the
end of the text without a character is a failure. -/
def getline (s : Stream) (old : List Char) : List Char × Stream :=
  let s := s.sentry
  if s.good then
    let line := s.rest.takeWhile (· != '\n')
    match s.rest.dropWhile (· != '\n') with
    | [] => (line, ⟨[], true, line.isEmpty⟩)
    | _ :: t => (line, ⟨t, false, false⟩)
  else (old, s)

/-! ## Nothing is put back -/

variable {sp : Char → Bool}

theorem skipws_length (sp : Char → Bool) (s : Stream) :
    (s.skipws sp).rest.length ≤ s.rest.length := by
  unfold skipws
  split
  · split
    · exact Nat.zero_le _
    · exact List.length_dropWhile_le _ _
  · exact le_rfl

/-- What the sentry leaves to a good stream starts with a character that is
no white space. -/
theorem skipws_good {s : Stream} (h : (s.skipws sp).good = true) :
    ∃ c t, (s.skipws sp).rest = c :: t ∧ sp c = false := by
  unfold skipws at h ⊢
  split at h
  · rename_i hg
    rw [if_pos hg]
    split at h
    · cases h
    · rename_i hne
      rw [if_neg hne]
      cases hd : s.rest.dropWhile sp with
      | nil => exact absurd (by simp [hd]) hne
      | cons c t =>
        refine ⟨c, t, rfl, ?_⟩
        have hhead := List.head?_dropWhile_not sp s.rest
        rw [hd] at hhead
        exact hhead
  · simp [good] at h

variable {old t pre : List Char} {c : Char}

/-- A word that was read is not empty. -/
theorem word_length {s : Stream} (h : (s.word sp old).2.fail = false) :
    (s.word sp old).2.rest.length < s.rest.length := by
  have hskip := skipws_length sp s
  simp only [word] at h ⊢
  split at h
  · rename_i hg
    rw [if_pos hg]
    obtain ⟨c, t, hrest, hc⟩ := skipws_good hg
    rw [hrest] at hskip ⊢
    have hle := List.length_dropWhile_le (fun c => !sp c) t
    simp only [List.dropWhile_cons, hc, Bool.not_false, if_true]
    simp only [List.length_cons] at hskip
    omega
  · rename_i hg
    -- a stream that is not good after the sentry has failed
    exfalso
    unfold skipws at hg h
    split at h
    · rename_i hg₀
      rw [if_pos hg₀] at hg
      split at h
      · cases h
      · rename_i hne
        rw [if_neg hne] at hg
        exact hg rfl
    · cases h

theorem word_length_le (s : Stream) (old : List Char) :
    (s.word sp old).2.rest.length ≤ s.rest.length := by
  have hskip := skipws_length sp s
  simp only [word]
  split
  · exact (List.length_dropWhile_le _ _).trans hskip
  · exact hskip

theorem sign_length (t : List Char) : (sign t).2.length ≤ t.length := by
  unfold sign
  split <;> simp

theorem unsigned_length (sp : Char → Bool) (s : Stream) (old : Nat) :
    (s.unsigned sp old).2.rest.length ≤ s.rest.length := by
  have hskip := skipws_length sp s
  have hdigits := (List.length_dropWhile_le Char.isDigit (sign (s.skipws sp).rest).2).trans
    ((sign_length _).trans hskip)
  simp only [unsigned]
  split
  · split
    · exact hdigits
    · split
      · exact hdigits
      · exact hdigits
  · exact hskip

theorem sentry_rest (s : Stream) : s.sentry.rest = s.rest := by
  unfold sentry
  split <;> rfl

theorem get_length (s : Stream) : s.get.rest.length ≤ s.rest.length := by
  have hrest := sentry_rest s
  simp only [get]
  split
  · split
    · exact Nat.zero_le _
    · rename_i hr
      rw [← hrest, hr]
      simp
  · rw [hrest]

theorem getline_length (s : Stream) (old : List Char) :
    (s.getline old).2.rest.length ≤ s.rest.length := by
  have hrest := sentry_rest s
  have hdrop := List.length_dropWhile_le (· != '\n') s.sentry.rest
  simp only [getline]
  split
  · split
    · exact Nat.zero_le _
    · rename_i t hr
      rw [hr, hrest] at hdrop
      exact (Nat.le_succ t.length).trans hdrop
  · rw [hrest]

/-- A line that was read takes at least its end. -/
theorem getline_length_lt {s : Stream} (h : (s.getline old).2.fail = false) :
    (s.getline old).2.rest.length < s.rest.length := by
  have hrest := sentry_rest s
  have hdrop := List.length_dropWhile_le (· != '\n') s.sentry.rest
  simp only [getline] at h ⊢
  split at h
  · rename_i hg
    rw [if_pos hg]
    split at h
    · rename_i hr
      rw [← hrest]
      cases hs : s.sentry.rest with
      | nil => simp [hs] at h
      | cons c t => exact Nat.succ_pos _
    · rename_i t hr
      rw [hr, hrest] at hdrop
      exact hdrop
  · rename_i hg
    exfalso
    unfold sentry at hg h
    split at h
    · rename_i hg₀
      rw [if_pos hg₀] at hg
      exact hg hg₀
    · cases h

/-! ## Reading what was written -/

@[simp] theorem ofText_rest (t : List Char) : (ofText t).rest = t := rfl

@[simp] theorem ofText_good (t : List Char) : (ofText t).good = true := rfl

/-- A scan takes what satisfies its predicate and stops at the first
character that does not. -/
theorem takeWhile_stop {p : Char → Bool} {w : List Char} (hw : ∀ x ∈ w, p x = true)
    (hc : p c = false) : (w ++ c :: t).takeWhile p = w := by
  rw [List.takeWhile_append_of_pos hw, List.takeWhile_cons_of_neg (by simp [hc]), List.append_nil]

theorem dropWhile_stop {p : Char → Bool} {w : List Char} (hw : ∀ x ∈ w, p x = true)
    (hc : p c = false) : (w ++ c :: t).dropWhile p = c :: t := by
  rw [List.dropWhile_append_of_pos hw, List.dropWhile_cons_of_neg (by simp [hc])]

theorem skipws_ofText (hpre : ∀ x ∈ pre, sp x = true) (hc : sp c = false) :
    (ofText (pre ++ c :: t)).skipws sp = ofText (c :: t) := by
  have hdrop : (pre ++ c :: t).dropWhile sp = c :: t := dropWhile_stop hpre hc
  simp only [skipws, ofText_good, ofText_rest, hdrop]
  rfl

/-- White space is all that is left. -/
theorem word_end (hpre : ∀ x ∈ pre, sp x = true) : ((ofText pre).word sp old).2.fail = true := by
  have hdrop : pre.dropWhile sp = [] := List.dropWhile_eq_nil_iff.mpr hpre
  simp [word, skipws, ofText, good, hdrop]

/-- A word, and a separator after it. -/
theorem word_ofText {w : List Char} (hpre : ∀ x ∈ pre, sp x = true) (hw : IsWord sp w)
    (hc : sp c = true) : (ofText (pre ++ (w ++ c :: t))).word sp old = (w, ofText (c :: t)) := by
  obtain ⟨hne, hall⟩ := hw
  cases w with
  | nil => exact absurd rfl hne
  | cons x w =>
    have hskip : (ofText (pre ++ (x :: w ++ c :: t))).skipws sp = ofText (x :: w ++ c :: t) :=
      skipws_ofText hpre (hall x List.mem_cons_self)
    have hnot : ∀ y ∈ x :: w, (!sp y) = true := by
      intro y hy
      rw [hall y hy]
      rfl
    have hstop : (!sp c) = false := by
      rw [hc]
      rfl
    simp only [word, hskip, ofText_good, ofText_rest, takeWhile_stop hnot hstop,
      dropWhile_stop hnot hstop]
    rfl

/-- A number, and something else after it. -/
theorem unsigned_ofText {n old : Nat} (hpre : ∀ x ∈ pre, sp x = true)
    (hsp : ∀ d, d.isDigit = true → sp d = false) (hn : n < 2 ^ 32) (hc : c.isDigit = false) :
    (ofText (pre ++ (Nat.toDigits 10 n ++ c :: t))).unsigned sp old = (n, ofText (c :: t)) := by
  have hdig : ∀ d ∈ Nat.toDigits 10 n, d.isDigit = true := fun d hd =>
    Nat.isDigit_of_mem_toDigits (by decide) (by decide) hd
  have hval : Nat.ofDigitChars 10 (Nat.toDigits 10 n) 0 = n :=
    Nat.ofDigitChars_toDigits (by decide) (by decide)
  cases hds : Nat.toDigits 10 n with
  | nil => exact absurd hds Nat.toDigits_ne_nil
  | cons d ds =>
    rw [hds] at hdig hval
    have hd : d.isDigit = true := hdig d List.mem_cons_self
    have hskip : (ofText (pre ++ (d :: ds ++ c :: t))).skipws sp = ofText (d :: ds ++ c :: t) :=
      skipws_ofText hpre (hsp d hd)
    have hsign : sign (d :: ds ++ c :: t) = (false, d :: ds ++ c :: t) := by
      unfold sign
      split
      · rename_i heq
        obtain ⟨rfl, _⟩ := List.cons.inj heq
        cases hd
      · rename_i heq
        obtain ⟨rfl, _⟩ := List.cons.inj heq
        cases hd
      · rfl
    simp only [unsigned, hskip, ofText_good, ofText_rest, hsign, takeWhile_stop hdig hc,
      dropWhile_stop hdig hc, hval, if_neg (Nat.not_le.mpr hn)]
    rfl

theorem get_ofText (c : Char) (t : List Char) : (ofText (c :: t)).get = ofText t := rfl

/-- A line and its end. -/
theorem getline_ofText {l : List Char} (hl : '\n' ∉ l) :
    (ofText (l ++ '\n' :: t)).getline old = (l, ofText t) := by
  have hne : ∀ x ∈ l, (x != '\n') = true := by
    intro x hx
    simp only [bne_iff_ne, ne_eq]
    rintro rfl
    exact hl hx
  have hsentry : (ofText (l ++ '\n' :: t)).sentry = ofText (l ++ '\n' :: t) := rfl
  have hstop : ('\n' != '\n') = false := by decide
  simp only [getline, hsentry, ofText_good, ofText_rest, takeWhile_stop hne hstop,
    dropWhile_stop hne hstop]
  rfl

end Stream

end Yfs.Words
