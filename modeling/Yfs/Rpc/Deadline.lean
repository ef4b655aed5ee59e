/-
Yfs.Rpc.Deadline — the arithmetic of deadlines (rpc/rpc.cc: `cmp_timespec`,
`add_timespec`, `diff_timespec`).

`call1` adds its timeouts to the clock, compares the results, and hands them
to `pthread_cond_timedwait`, which takes nanoseconds below `10⁹` only. The
loop of `add_timespec` carries while there are MORE than `10⁹`, so a sum of
exactly `10⁹` stays as it is: the time is right, but it is not a valid
deadline, and compared field by field it is earlier than itself
(`full_second_not_carried`).

That is the only case, apart from times that `time_t` cannot hold:
`deadlines_exact_iff`.

`time_t` and `long` have 64 bits. A result that does not fit is undefined,
`none`; so is a VERIFY that fails. Conversion to `int` is modulo `2³²`.
-/
import Mathlib

namespace Yfs.Rpc

/-- `struct timespec`. -/
structure Timespec where
  tvSec : Int
  tvNsec : Int
  deriving DecidableEq, Repr

def long (x : Int) : Option Int := if -2 ^ 63 ≤ x ∧ x < 2 ^ 63 then some x else none

def toInt32 (x : Int) : Int := x.bmod (2 ^ 32)

def carry (sec nsec : Int) : Option Timespec :=
  if nsec > 1000000000 then (long (sec + 1)).bind fun sec' => carry sec' (nsec - 1000000000)
  else some ⟨sec, nsec⟩
termination_by nsec.toNat
decreasing_by omega

def addTimespec (a : Timespec) (b : Int) : Option Timespec :=
  (long (a.tvSec + b.tdiv 1000)).bind fun sec =>
    (long (a.tvNsec + b.tmod 1000 * 1000000)).bind fun nsec =>
      if 0 ≤ nsec then carry sec nsec else none

def cmpTimespec (a b : Timespec) : Int :=
  if a.tvSec > b.tvSec then 1
  else if a.tvSec < b.tvSec then -1
  else if a.tvNsec > b.tvNsec then 1
  else if a.tvNsec < b.tvNsec then -1
  else 0

def diffTimespec (endT start : Timespec) : Option Int :=
  (if endT.tvSec > start.tvSec then
    (long (endT.tvSec - start.tvSec)).bind fun d => long (d * 1000)
  else some 0).bind fun d =>
    let diff := toInt32 d
    if diff ≠ 0 ∨ endT.tvSec = start.tvSec then
      if endT.tvNsec > start.tvNsec then
        (long (endT.tvNsec - start.tvNsec)).map fun n => toInt32 (diff + n.tdiv 1000000)
      else (long (start.tvNsec - endT.tvNsec)).map fun n => toInt32 (diff - n.tdiv 1000000)
    else none

/-! ## Times -/

def Timespec.nanos (a : Timespec) : Int := a.tvSec * 1000000000 + a.tvNsec

/-- What a clock gives. -/
structure Timespec.Valid (a : Timespec) : Prop where
  lower : -2 ^ 63 ≤ a.tvSec
  upper : a.tvSec < 2 ^ 63
  nonneg : 0 ≤ a.tvNsec
  small : a.tvNsec < 1000000000

/-- The two sums do not meet at a full second, and the time is one that
`time_t` holds. -/
def Carries (a : Timespec) (b : Int) : Prop :=
  a.tvNsec + b % 1000 * 1000000 ≠ 1000000000 ∧
    a.tvSec + (a.tvNsec + b * 1000000) / 1000000000 < 2 ^ 63

/-- `add_timespec` gives a valid time, `b` milliseconds later, and
`diff_timespec` gives the milliseconds back. -/
def AddsExactly (a : Timespec) (b : Int) : Prop :=
  ∃ r, addTimespec a b = some r ∧ r.nanos = a.nanos + b * 1000000 ∧ 0 ≤ r.tvNsec ∧
    r.tvNsec < 1000000000 ∧ diffTimespec r a = some b

theorem long_eq {x : Int} (hlow : -2 ^ 63 ≤ x) :
    long x = if x < 2 ^ 63 then some x else none := by
  rw [long]
  simp only [hlow, true_and]

theorem carry_of_le {sec nsec : Int} (h : nsec ≤ 1000000000) :
    carry sec nsec = some ⟨sec, nsec⟩ := by
  rw [carry, if_neg (by omega)]

theorem carry_once {sec nsec : Int} (h : 1000000000 < nsec) (h' : nsec ≤ 2000000000) :
    carry sec nsec = (long (sec + 1)).map fun sec' => ⟨sec', nsec - 1000000000⟩ := by
  rw [carry, if_pos h]
  cases long (sec + 1) with
  | none => rfl
  | some sec' =>
    rw [Option.bind_some, carry_of_le (by omega)]
    rfl

section Add

variable {a : Timespec} {b : Int}

theorem addTimespec_eq (ha : a.Valid) (hb : 0 ≤ b) :
    addTimespec a b =
      if a.tvSec + b / 1000 < 2 ^ 63 then
        carry (a.tvSec + b / 1000) (a.tvNsec + b % 1000 * 1000000)
      else none := by
  obtain ⟨hlow, -, hnonneg, hsmall⟩ := ha
  have hmod : 0 ≤ b % 1000 ∧ b % 1000 < 1000 := by omega
  rw [addTimespec, Int.tdiv_eq_ediv_of_nonneg hb, Int.tmod_eq_emod_of_nonneg hb,
    long_eq (by omega), long_eq (x := a.tvNsec + b % 1000 * 1000000) (by omega)]
  split
  · rw [if_pos (by omega), Option.bind_some, Option.bind_some, if_pos (by omega)]
  · rfl

/-- What comes out, without a carry and with one. -/
theorem addTimespec_cases (ha : a.Valid) (hb : 0 ≤ b) {r : Timespec}
    (h : addTimespec a b = some r) :
    (a.tvNsec + b % 1000 * 1000000 ≤ 1000000000 ∧ a.tvSec + b / 1000 < 2 ^ 63 ∧
      r = ⟨a.tvSec + b / 1000, a.tvNsec + b % 1000 * 1000000⟩) ∨
    (1000000000 < a.tvNsec + b % 1000 * 1000000 ∧ a.tvSec + b / 1000 + 1 < 2 ^ 63 ∧
      r = ⟨a.tvSec + b / 1000 + 1, a.tvNsec + b % 1000 * 1000000 - 1000000000⟩) := by
  rw [addTimespec_eq ha hb] at h
  obtain ⟨hlow, -, hnonneg, hsmall⟩ := ha
  split at h
  · rename_i hsec
    rcases lt_or_ge 1000000000 (a.tvNsec + b % 1000 * 1000000) with hover | hfit
    · rw [carry_once hover (by omega), long_eq (by omega)] at h
      split at h
      · rename_i hsec'
        exact .inr ⟨hover, hsec', (Option.some.inj h).symm⟩
      · cases h
    · rw [carry_of_le hfit] at h
      exact .inl ⟨hfit, hsec, (Option.some.inj h).symm⟩
  · cases h

/-- The time is right whenever there is one. -/
theorem nanos_addTimespec (ha : a.Valid) (hb : 0 ≤ b) {r : Timespec}
    (h : addTimespec a b = some r) : r.nanos = a.nanos + b * 1000000 := by
  rcases addTimespec_cases ha hb h with ⟨-, -, rfl⟩ | ⟨-, -, rfl⟩
  · simp only [Timespec.nanos]
    omega
  · simp only [Timespec.nanos]
    omega

theorem exists_addTimespec (ha : a.Valid) (hb : 0 ≤ b) (hc : Carries a b) :
    ∃ r, addTimespec a b = some r ∧ 0 ≤ r.tvNsec ∧ r.tvNsec < 1000000000 := by
  obtain ⟨hfull, htime⟩ := hc
  rw [addTimespec_eq ha hb]
  obtain ⟨hlow, -, hnonneg, hsmall⟩ := ha
  rw [if_pos (by omega)]
  rcases lt_or_ge 1000000000 (a.tvNsec + b % 1000 * 1000000) with hover | hfit
  · rw [carry_once hover (by omega), long_eq (by omega), if_pos (by omega)]
    refine ⟨_, rfl, ?_, ?_⟩
    · show 0 ≤ a.tvNsec + b % 1000 * 1000000 - 1000000000
      omega
    · show a.tvNsec + b % 1000 * 1000000 - 1000000000 < 1000000000
      omega
  · rw [carry_of_le hfit]
    refine ⟨_, rfl, ?_, ?_⟩
    · show 0 ≤ a.tvNsec + b % 1000 * 1000000
      omega
    · show a.tvNsec + b % 1000 * 1000000 < 1000000000
      omega

end Add

/-! ## Milliseconds back -/

theorem long_of_small {x : Int} (hlow : -2 ^ 62 ≤ x) (hhigh : x ≤ 2 ^ 62) :
    long x = some x := by
  rw [long_eq (by omega), if_pos (by omega)]

theorem toInt32_of_nonneg {x : Int} (h : 0 ≤ x) (h' : x < 2 ^ 31) : toInt32 x = x :=
  Int.bmod_eq_of_le (by omega) (by omega)

theorem toInt32_ne_zero {x : Int} (h : 0 < x) (h' : x < 2 ^ 32) : toInt32 x ≠ 0 := by
  intro h0
  have hmod : x % 2 ^ 32 = 0 := by
    have hdvd : ((2 ^ 32 : Nat) : Int) ∣ x := Int.dvd_of_bmod_eq_zero h0
    exact Int.emod_eq_zero_of_dvd hdvd
  omega

/-- `diff_timespec` is right between normalised times up to `2³¹` milliseconds
apart; that the first product may wrap is undone by the second sum. -/
theorem diffTimespec_of_nanos {r a : Timespec} {b : Int} (ha : a.Valid) (hr : 0 ≤ r.tvNsec)
    (hr' : r.tvNsec < 1000000000) (hb : 0 ≤ b) (hb' : b < 2 ^ 31)
    (h : r.nanos = a.nanos + b * 1000000) : diffTimespec r a = some b := by
  obtain ⟨-, -, hnonneg, hsmall⟩ := ha
  simp only [Timespec.nanos] at h
  have hle : a.tvSec ≤ r.tvSec := by omega
  have hfirst : (if r.tvSec > a.tvSec then
      (long (r.tvSec - a.tvSec)).bind fun d => long (d * 1000) else some 0) =
      some ((r.tvSec - a.tvSec) * 1000) := by
    rcases hle.lt_or_eq with hlt | heq
    · rw [if_pos hlt, long_of_small (by omega) (by omega), Option.bind_some,
        long_of_small (by omega) (by omega)]
    · rw [if_neg (by omega), heq, sub_self, zero_mul]
  have hverify : toInt32 ((r.tvSec - a.tvSec) * 1000) ≠ 0 ∨ r.tvSec = a.tvSec := by
    rcases hle.lt_or_eq with hlt | heq
    · exact .inl (toInt32_ne_zero (by omega) (by omega))
    · exact .inr heq.symm
  rw [diffTimespec, hfirst, Option.bind_some]
  simp only [if_pos hverify]
  split
  · rw [long_of_small (by omega) (by omega), Option.map_some, toInt32, toInt32,
      Int.bmod_add_bmod, Int.tdiv_eq_ediv_of_nonneg (by omega)]
    have hsum : (r.tvSec - a.tvSec) * 1000 + (r.tvNsec - a.tvNsec) / 1000000 = b := by omega
    rw [hsum]
    exact congrArg some (toInt32_of_nonneg hb hb')
  · rw [long_of_small (by omega) (by omega), Option.map_some, toInt32, toInt32,
      Int.bmod_sub_bmod, Int.tdiv_eq_ediv_of_nonneg (by omega)]
    have hsum : (r.tvSec - a.tvSec) * 1000 - (a.tvNsec - r.tvNsec) / 1000000 = b := by omega
    rw [hsum]
    exact congrArg some (toInt32_of_nonneg hb hb')

/-! ## Order -/

/-- Comparing the fields compares the times, once the nanoseconds are in
range. -/
theorem cmpTimespec_eq_sign {r r' : Timespec} (h : 0 ≤ r.tvNsec) (h₁ : r.tvNsec < 1000000000)
    (h' : 0 ≤ r'.tvNsec) (h₁' : r'.tvNsec < 1000000000) :
    cmpTimespec r r' = (r.nanos - r'.nanos).sign := by
  have hdiff : r.nanos - r'.nanos =
      (r.tvSec - r'.tvSec) * 1000000000 + (r.tvNsec - r'.tvNsec) := by
    simp only [Timespec.nanos]
    ring
  rw [hdiff, cmpTimespec]
  split_ifs
  · exact (Int.sign_eq_one_of_pos (by omega)).symm
  · exact (Int.sign_eq_neg_one_of_neg (by omega)).symm
  · exact (Int.sign_eq_one_of_pos (by omega)).symm
  · exact (Int.sign_eq_neg_one_of_neg (by omega)).symm
  · exact (Int.sign_eq_zero_iff_zero.mpr (by omega)).symm

theorem addsExactly_iff {a : Timespec} {b : Int} (ha : a.Valid) (hb : 0 ≤ b) (hb' : b < 2 ^ 31) :
    AddsExactly a b ↔ Carries a b := by
  constructor
  · rintro ⟨r, hadd, -, -, hsmall, -⟩
    have hmod : b * 1000000 = b / 1000 * 1000000000 + b % 1000 * 1000000 := by omega
    have hnonneg := ha.nonneg
    rcases addTimespec_cases ha hb hadd with ⟨-, hsec, rfl⟩ | ⟨hover, hsec, rfl⟩
    · simp only at hsmall
      exact ⟨by omega, by omega⟩
    · simp only at hsmall
      exact ⟨by omega, by omega⟩
  · intro hc
    obtain ⟨r, hadd, hnonneg, hsmall⟩ := exists_addTimespec ha hb hc
    have htime := nanos_addTimespec ha hb hadd
    exact ⟨r, hadd, htime, hnonneg, hsmall,
      diffTimespec_of_nanos ha hnonneg hsmall hb hb' htime⟩

/-- Adding to a time gives the right valid time, and the difference gives the
milliseconds back, exactly when no full second is left uncarried and `time_t`
holds the result; two such results compare as the times they denote. -/
theorem deadlines_exact_iff {a : Timespec} {b : Int} (ha : a.Valid) (hb : 0 ≤ b)
    (hb' : b < 2 ^ 31) :
    (AddsExactly a b ↔ Carries a b) ∧
      ∀ r r' : Timespec, Carries a b → addTimespec a b = some r →
        ∀ (a' : Timespec) (b' : Int), a'.Valid → 0 ≤ b' → b' < 2 ^ 31 → Carries a' b' →
          addTimespec a' b' = some r' → cmpTimespec r r' = (r.nanos - r'.nanos).sign := by
  refine ⟨addsExactly_iff ha hb hb', ?_⟩
  intro r r' hc hadd a' b' ha' hb₁ _ hc' hadd'
  obtain ⟨s, hs, hnonneg, hsmall⟩ := exists_addTimespec ha hb hc
  obtain ⟨s', hs', hnonneg', hsmall'⟩ := exists_addTimespec ha' hb₁ hc'
  cases hs.symm.trans hadd
  cases hs'.symm.trans hadd'
  exact cmpTimespec_eq_sign hnonneg hsmall hnonneg' hsmall'

/-- Half a second and 600 ms carry once. -/
theorem deadlines_exact_carry :
    addTimespec ⟨7, 500000000⟩ 600 = some ⟨8, 100000000⟩ ∧ AddsExactly ⟨7, 500000000⟩ 600 := by
  have ha : Timespec.Valid ⟨7, 500000000⟩ := ⟨by decide, by decide, by decide, by decide⟩
  have hc : Carries ⟨7, 500000000⟩ 600 := ⟨by decide, by decide⟩
  refine ⟨?_, (deadlines_exact_iff ha (by decide) (by decide)).1.mpr hc⟩
  rw [addTimespec_eq ha (by decide), if_pos (by decide), carry_once (by decide) (by decide)]
  rfl

/-- 999 ms past a second, plus one: `10⁹` nanoseconds stay uncarried, and the
deadline compares as earlier than the same time read off the clock. -/
theorem full_second_not_carried :
    Timespec.Valid ⟨0, 999000000⟩ ∧ addTimespec ⟨0, 999000000⟩ 1 = some ⟨0, 1000000000⟩ ∧
      ¬ AddsExactly ⟨0, 999000000⟩ 1 ∧
      addTimespec ⟨1, 0⟩ 0 = some ⟨1, 0⟩ ∧
      cmpTimespec ⟨0, 1000000000⟩ ⟨1, 0⟩ = -1 ∧
      Timespec.nanos ⟨0, 1000000000⟩ = Timespec.nanos ⟨1, 0⟩ := by
  have ha : Timespec.Valid ⟨0, 999000000⟩ := ⟨by decide, by decide, by decide, by decide⟩
  have ha' : Timespec.Valid ⟨1, 0⟩ := ⟨by decide, by decide, by decide, by decide⟩
  refine ⟨ha, ?_, ?_, ?_, by decide, by decide⟩
  · rw [addTimespec_eq ha (by decide), if_pos (by decide), carry_of_le (by decide)]
    rfl
  · intro h
    exact ((addsExactly_iff ha (by decide) (by decide)).mp h).1 (by decide)
  · rw [addTimespec_eq ha' (by decide), if_pos (by decide), carry_of_le (by decide)]
    rfl

end Yfs.Rpc
