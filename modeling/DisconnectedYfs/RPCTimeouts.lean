import Mathlib.Data.Int.Order.Basic
import Mathlib.Tactic.SplitIfs
import Mathlib.Algebra.Group.Nat.Defs
import Mathlib.Algebra.Group.Int.Defs

/-! The deadlines of `call1`: a clock reading plus a timeout in milliseconds. The carry loop stops
at a whole second of nanoseconds, so a sum of exactly that is left as it is. -/
namespace DisconnectedYfs.RPC

structure Timespec where
  tv_sec : ℤ
  tv_nsec : ℤ
deriving DecidableEq, Repr

/-- A `time_t` of 64 bits; beyond its range the addition overflows. -/
def timeT (t : ℤ) : Option ℤ :=
  if -2 ^ 63 ≤ t ∧ t < 2 ^ 63 then some t else none

def cmpTimespec (a b : Timespec) : ℤ :=
  if a.tv_sec > b.tv_sec then 1
  else if a.tv_sec < b.tv_sec then -1
  else if a.tv_nsec > b.tv_nsec then 1
  else if a.tv_nsec < b.tv_nsec then -1
  else 0

/-- The loop of `add_timespec`. -/
def carry (sec nsec : ℤ) : Option Timespec :=
  if nsec > 1000000000 then
    (timeT (sec + 1)).bind fun sec => carry sec (nsec - 1000000000)
  else some ⟨sec, nsec⟩
termination_by nsec.toNat

/-- `none` when it overflows or fails its `VERIFY`. The quotient and the remainder of an `int` are
truncated. -/
def addTimespec (a : Timespec) (b : ℤ) : Option Timespec :=
  (timeT (a.tv_sec + b.tdiv 1000)).bind fun sec =>
    if 0 ≤ a.tv_nsec + b.tmod 1000 * 1000000 then
      carry sec (a.tv_nsec + b.tmod 1000 * 1000000)
    else none

/-- What `call1` waits for next and its final deadline afterwards; once it waits for the final
deadline, the seconds of that are 0. -/
def nextDeadline (next final : Timespec) : Timespec × Timespec :=
  if cmpTimespec next final > 0 then (final, { final with tv_sec := 0 }) else (next, final)

namespace Timespec

/-- The nanoseconds since the epoch. -/
def instant (t : Timespec) : ℤ := t.tv_sec * 1000000000 + t.tv_nsec

/-- A time that `pthread_cond_timedwait` does not reject as invalid. -/
structure Normal (t : Timespec) : Prop where
  sec_ge : -2 ^ 63 ≤ t.tv_sec
  sec_lt : t.tv_sec < 2 ^ 63
  nsec_ge : 0 ≤ t.tv_nsec
  nsec_lt : t.tv_nsec < 1000000000

end Timespec

/-- The sum of a time and a timeout is `r`, exactly and normalised. -/
structure AddsTo (a : Timespec) (b : ℤ) (r : Timespec) : Prop where
  sum : addTimespec a b = some r
  instant : r.instant = a.instant + b * 1000000
  normal : r.Normal

/-- The nanoseconds do not add up to a second exactly, and the sum is representable. -/
structure Carries (a : Timespec) (b : ℤ) : Prop where
  off : a.tv_nsec + b % 1000 * 1000000 ≠ 1000000000
  fits : a.instant + b * 1000000 < 2 ^ 63 * 1000000000

section
variable {a c r r' : Timespec} {b sec nsec t u : ℤ}

theorem timeT_eq_some : timeT t = some u ↔ u = t ∧ -2 ^ 63 ≤ t ∧ t < 2 ^ 63 := by
  unfold timeT
  split_ifs with h
  · simp only [Option.some.injEq, h, and_true, eq_comm]
  · exact iff_of_false (fun h' => by cases h') (fun h' => h h'.2)

/-- The loop keeps the instant and stops at the first value that is at most a second. -/
theorem carry_spec (h : carry sec nsec = some r) :
    r.instant = sec * 1000000000 + nsec ∧ r.tv_nsec ≤ 1000000000 ∧
      (0 ≤ nsec → 0 ≤ r.tv_nsec) ∧ sec ≤ r.tv_sec := by
  induction sec, nsec using carry.induct with
  | case1 sec nsec hlt ih =>
    rw [carry, if_pos hlt] at h
    obtain ⟨sec',hsec,h⟩ := Option.bind_eq_some_iff.mp h
    obtain ⟨rfl,-,-⟩ := timeT_eq_some.mp hsec
    obtain ⟨hinst,hnsec,hnonneg,hmono⟩ := ih (sec + 1) h
    refine ⟨?_, hnsec, fun _ => hnonneg (by omega), by omega⟩
    rw [hinst]
    omega
  | case2 sec nsec hle =>
    rw [carry, if_neg hle] at h
    cases h
    exact ⟨rfl, by simpa using hle, id, le_refl _⟩

/-- It overflows for no sum that is representable. -/
theorem carry_total (hlo : -2 ^ 63 ≤ sec)
    (hfits : sec * 1000000000 + nsec < 2 ^ 63 * 1000000000) : ∃ r, carry sec nsec = some r := by
  induction sec, nsec using carry.induct with
  | case1 sec nsec hlt ih =>
    have hnext : timeT (sec + 1) = some (sec + 1) := timeT_eq_some.mpr ⟨rfl, by omega, by omega⟩
    obtain ⟨r,hr⟩ := ih (sec + 1) (by omega) (by omega)
    refine ⟨r, ?_⟩
    rw [carry, if_pos hlt, hnext]
    exact hr
  | case2 sec nsec hle => exact ⟨_, by rw [carry, if_neg hle]⟩

/-- Normalised times are ordered as the instants they denote. -/
theorem cmpTimespec_eq_sign (ha : a.Normal) (hc : c.Normal) :
    cmpTimespec a c = (a.instant - c.instant).sign := by
  obtain ⟨-,-,ha,ha'⟩ := ha
  obtain ⟨-,-,hc,hc'⟩ := hc
  unfold cmpTimespec Timespec.instant
  split_ifs with h1 h2 h3 h4
  · exact (Int.sign_eq_one_of_pos (by omega)).symm
  · exact (Int.sign_eq_neg_one_of_neg (by omega)).symm
  · exact (Int.sign_eq_one_of_pos (by omega)).symm
  · exact (Int.sign_eq_neg_one_of_neg (by omega)).symm
  · exact (Int.sign_eq_zero_iff_zero.mpr (by omega)).symm

theorem nextDeadline_normal (ha : a.Normal) (hc : c.Normal) : (nextDeadline a c).1.Normal := by
  unfold nextDeadline
  split_ifs
  · exact hc
  · exact ha

/-- What a sum with a timeout that is not negative unfolds to. -/
theorem addTimespec_eq (ha : a.Normal) (hb : 0 ≤ b) : addTimespec a b =
    (timeT (a.tv_sec + b / 1000)).bind fun sec => carry sec (a.tv_nsec + b % 1000 * 1000000) := by
  have hnonneg : 0 ≤ a.tv_nsec + b % 1000 * 1000000 := by
    have := ha.nsec_ge
    omega
  unfold addTimespec
  simp only [Int.tdiv_eq_ediv_of_nonneg hb, Int.tmod_eq_emod_of_nonneg hb, if_pos hnonneg]

theorem addsTo_of_carries (ha : a.Normal) (hb : 0 ≤ b) (h : Carries a b) : ∃ r, AddsTo a b r := by
  have hsum := addTimespec_eq ha hb
  obtain ⟨hlo,hhi,hn,hn'⟩ := ha
  obtain ⟨hoff,hfits⟩ := h
  have hinst : (a.tv_sec + b / 1000) * 1000000000 + (a.tv_nsec + b % 1000 * 1000000) =
      a.instant + b * 1000000 := by
    unfold Timespec.instant
    omega
  have hfirst : timeT (a.tv_sec + b / 1000) = some (a.tv_sec + b / 1000) :=
    timeT_eq_some.mpr ⟨rfl, by omega, by omega⟩
  obtain ⟨r,hr⟩ := carry_total (by omega) (lt_of_eq_of_lt hinst hfits)
  rw [hfirst, Option.bind_some, hr] at hsum
  obtain ⟨heq,hle,hnonneg,hmono⟩ := carry_spec hr
  rw [hinst] at heq
  refine ⟨r, hsum, heq, by omega, ?_, hnonneg (by omega), lt_of_le_of_ne' (by omega) ?_⟩
  all_goals unfold Timespec.instant at heq hfits; omega

theorem carries_of_addsTo (ha : a.Normal) (hb : 0 ≤ b) (h : AddsTo a b r) : Carries a b := by
  obtain ⟨hsum,hinst,-,hlt,hn,hn'⟩ := h
  refine ⟨?_, ?_⟩
  · intro hone
    -- the loop leaves a whole second
    rw [addTimespec_eq ha hb, hone] at hsum
    obtain ⟨sec,-,hsum⟩ := Option.bind_eq_some_iff.mp hsum
    rw [carry, if_neg (by omega)] at hsum
    cases hsum
    exact lt_irrefl _ hn'
  · rw [← hinst]
    unfold Timespec.instant
    omega

end

/-- A second less a millisecond and a millisecond: `1000000000` nanoseconds, which are no valid
time and compare as earlier than the second they are. -/
theorem whole_second : addTimespec ⟨5, 999000000⟩ 1 = some ⟨5, 1000000000⟩ ∧
    ¬ Timespec.Normal ⟨5, 1000000000⟩ ∧ addTimespec ⟨6, 0⟩ 0 = some ⟨6, 0⟩ ∧
    Timespec.instant ⟨5, 1000000000⟩ = Timespec.instant ⟨6, 0⟩ ∧
    cmpTimespec ⟨5, 1000000000⟩ ⟨6, 0⟩ = -1 := by
  refine ⟨?_, fun h => absurd h.nsec_lt (by decide), ?_, by decide, by decide⟩
  all_goals simp [addTimespec, timeT, carry, Int.tdiv, Int.tmod]

/-- Both of two sums are exact and normalised and compare as the instants they denote, and the one
that `call1` waits for is a valid time, exactly if neither is a whole second of nanoseconds. -/
theorem add_timespec_exact_iff {a c : Timespec} {b d : ℤ} (ha : a.Normal) (hb : 0 ≤ b)
    (hc : c.Normal) (hd : 0 ≤ d) :
    (∃ r r', AddsTo a b r ∧ AddsTo c d r' ∧ cmpTimespec r r' = (r.instant - r'.instant).sign ∧
      (nextDeadline r r').1.Normal) ↔ Carries a b ∧ Carries c d := by
  constructor
  · rintro ⟨r,r',h,h',-,-⟩
    exact ⟨carries_of_addsTo ha hb h, carries_of_addsTo hc hd h'⟩
  · rintro ⟨h,h'⟩
    obtain ⟨r,hr⟩ := addsTo_of_carries ha hb h
    obtain ⟨r',hr'⟩ := addsTo_of_carries hc hd h'
    exact ⟨r, r', hr, hr', cmpTimespec_eq_sign hr.normal hr'.normal,
      nextDeadline_normal hr.normal hr'.normal⟩

/-- A sum that carries and one that does not. -/
theorem add_timespec_exact_carry :
    (∃ r r', AddsTo ⟨5, 999000001⟩ 1 r ∧ AddsTo ⟨5, 0⟩ 1000 r' ∧
      cmpTimespec r r' = (r.instant - r'.instant).sign ∧ (nextDeadline r r').1.Normal) ↔
        Carries ⟨5, 999000001⟩ 1 ∧ Carries ⟨5, 0⟩ 1000 :=
  add_timespec_exact_iff ⟨by decide, by decide, by decide, by decide⟩ (by decide)
    ⟨by decide, by decide, by decide, by decide⟩ (by decide)

end DisconnectedYfs.RPC
