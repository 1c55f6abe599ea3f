/-
# `Convd.TimeUt` — differences of time stamps

`difftime_msec` of `timeut.h` takes seconds and nanoseconds apart and goes by the sign of
each difference.  The constants of its divisions are `unsigned long`, of 64 bits under the
`-m64` of the Makefile, so a negative number is divided as a large one:

    sec    nsec     what is divided
    > 0    any      a number from 0 on
    0      ≥ 0      a number from 0 on
    0      < 0      2 ^ 64 + nsec
    < 0    0        0
    < 0    < 0      2 ^ 64 + nsec
    < 0    > 0      2 ^ 64 + nsec - 10 ^ 9
-/
import Convd.Def
import Mathlib.Algebra.Order.Group.Unbundled.Int

namespace Convd

/-! ## The code -/

/-- `struct timespec` -/
structure Timespec where
  tvSec : Int
  tvNsec : Int
  deriving DecidableEq, Repr

/-- `(unsigned long) i` -/
def toUlong (i : Int) : Nat := (i % 2 ^ 64).toNat

/-- `difftime_msec`; `now` is what `getnowtimeofday` gives.  The sums and products are of
`unsigned long`s, and wrap with the result. -/
def difftimeMsec (oldtms newtms : Option Timespec) (now : Timespec) : Int :=
  let (sec, nsec) :=
    match oldtms, newtms with
    | none, none => (toSb8 now.tvSec, toSb8 now.tvNsec)
    | some old, some new => (toSb8 (new.tvSec - old.tvSec), toSb8 (new.tvNsec - old.tvNsec))
    | none, some new => (toSb8 new.tvSec, toSb8 new.tvNsec)
    | some old, none => (toSb8 old.tvSec, toSb8 old.tvNsec)
  if sec > 0 then
    if nsec ≥ 0 then toSb8 (toUlong sec * 1000 + toUlong nsec / 1000000 : Nat)
    else toSb8 (toUlong (sec - 1) * 1000 + toUlong (nsec + 1000000000) / 1000000 : Nat)
  else if sec < 0 then
    if nsec ≤ 0 then toSb8 (toUlong sec * 1000 + toUlong nsec / 1000000 : Nat)
    else toSb8 (toUlong (sec + 1) * 1000 + toUlong (nsec - 1000000000) / 1000000 : Nat)
  else toSb8 (toUlong nsec / 1000000 : Nat)

/-! ## What it should be -/

/-- A time stamp as the clock gives it, within some thirty thousand years of its zero. -/
structure Timespec.Normalized (t : Timespec) : Prop where
  nsec_nonneg : 0 ≤ t.tvNsec
  nsec_lt : t.tvNsec < 10 ^ 9
  sec_gt : -2 ^ 40 < t.tvSec
  sec_lt : t.tvSec < 2 ^ 40

/-- The nanoseconds since the zero of the clock. -/
def Timespec.nanos (t : Timespec) : Int := t.tvSec * 10 ^ 9 + t.tvNsec

/-- The milliseconds from `a` to `b`, truncated toward zero. -/
def msecBetween (a b : Timespec) : Int := (b.nanos - a.nanos).tdiv (10 ^ 6)

/-! ## The sign cases -/

theorem toUlong_of_nonneg {i : Int} (h0 : 0 ≤ i) (h : i < 2 ^ 64) : (toUlong i : Int) = i := by
  rw [toUlong, Int.emod_eq_of_lt h0 h, Int.toNat_of_nonneg h0]

theorem toUlong_of_neg {i : Int} (h0 : i < 0) (h : -2 ^ 64 ≤ i) :
    (toUlong i : Int) = i + 2 ^ 64 := by
  rw [toUlong]
  omega

/-- A number that is right up to a multiple of 2 ^ 64. -/
theorem toSb8_eq {n m : Int} (k : Int) (h : n = m + 2 ^ 64 * k) (hlow : -2 ^ 63 ≤ m)
    (hhigh : m < 2 ^ 63) : toSb8 n = m := by
  rw [h, toSb8]
  have hmod : (2 ^ 64 : Int) = (2 ^ 64 : Nat) := rfl
  rw [hmod, Int.add_mul_bmod_self_left]
  exact Int.bmod_eq_of_le (by omega) (by omega)

/-- A truncated quotient, by the sign of what is divided. -/
theorem tdiv_cases (d : Int) :
    (0 ≤ d ∧ d.tdiv (10 ^ 6) = d / 10 ^ 6) ∨ (d < 0 ∧ d.tdiv (10 ^ 6) = -(-d / 10 ^ 6)) := by
  rcases Int.lt_or_le d 0 with hneg | hpos
  · refine .inr ⟨hneg, ?_⟩
    have h := Int.neg_tdiv (-d) (10 ^ 6)
    rw [Int.neg_neg] at h
    rw [h, Int.tdiv_eq_ediv_of_nonneg (by omega)]
  · exact .inl ⟨hpos, Int.tdiv_eq_ediv_of_nonneg hpos⟩

section Cases

variable {a b now : Timespec} {sec nsec : Int}

/-- The two differences fit what they are kept in. -/
theorem difftimeMsec_eq (ha : a.Normalized) (hb : b.Normalized) (hsec : b.tvSec - a.tvSec = sec)
    (hnsec : b.tvNsec - a.tvNsec = nsec) :
    difftimeMsec (some a) (some b) now =
      if sec > 0 then
        if nsec ≥ 0 then toSb8 (toUlong sec * 1000 + toUlong nsec / 1000000 : Nat)
        else toSb8 (toUlong (sec - 1) * 1000 + toUlong (nsec + 1000000000) / 1000000 : Nat)
      else if sec < 0 then
        if nsec ≤ 0 then toSb8 (toUlong sec * 1000 + toUlong nsec / 1000000 : Nat)
        else toSb8 (toUlong (sec + 1) * 1000 + toUlong (nsec - 1000000000) / 1000000 : Nat)
      else toSb8 (toUlong nsec / 1000000 : Nat) := by
  obtain ⟨ha0, ha1, ha2, ha3⟩ := ha
  obtain ⟨hb0, hb1, hb2, hb3⟩ := hb
  have h1 : toSb8 sec = sec := toSb8_eq 0 (by omega) (by omega) (by omega)
  have h2 : toSb8 nsec = nsec := toSb8_eq 0 (by omega) (by omega) (by omega)
  simp only [difftimeMsec, hsec, hnsec, h1, h2]

theorem nanos_sub (hsec : b.tvSec - a.tvSec = sec) (hnsec : b.tvNsec - a.tvNsec = nsec) :
    b.nanos - a.nanos = sec * 10 ^ 9 + nsec := by
  rw [Timespec.nanos, Timespec.nanos]
  omega

/-- Going forward, or by whole seconds, nothing negative is divided. -/
theorem difftimeMsec_of_le (ha : a.Normalized) (hb : b.Normalized)
    (h : a.nanos ≤ b.nanos ∨ a.tvNsec = b.tvNsec) :
    difftimeMsec (some a) (some b) now = msecBetween a b := by
  obtain ⟨sec, hsec⟩ : ∃ sec, b.tvSec - a.tvSec = sec := ⟨_, rfl⟩
  obtain ⟨nsec, hnsec⟩ : ∃ nsec, b.tvNsec - a.tvNsec = nsec := ⟨_, rfl⟩
  have hnanos := nanos_sub hsec hnsec
  have hval := @difftimeMsec_eq a b now sec nsec ha hb hsec hnsec
  obtain ⟨ha0, ha1, ha2, ha3⟩ := ha
  obtain ⟨hb0, hb1, hb2, hb3⟩ := hb
  rw [hval, msecBetween, hnanos]
  have htdiv := tdiv_cases (sec * 10 ^ 9 + nsec)
  split_ifs with hpos hn hneg hn
  · have h1 := @toUlong_of_nonneg sec (by omega) (by omega)
    have h2 := @toUlong_of_nonneg nsec (by omega) (by omega)
    exact toSb8_eq 0 (by omega) (by omega) (by omega)
  · have h1 := @toUlong_of_nonneg (sec - 1) (by omega) (by omega)
    have h2 := @toUlong_of_nonneg (nsec + 1000000000) (by omega) (by omega)
    exact toSb8_eq 0 (by omega) (by omega) (by omega)
  · -- a whole number of seconds back: only the product has wrapped
    have hzero : nsec = 0 := by omega
    have h1 := @toUlong_of_neg sec (by omega) (by omega)
    have h2 := @toUlong_of_nonneg nsec (by omega) (by omega)
    exact toSb8_eq 1000 (by omega) (by omega) (by omega)
  · omega
  · have h2 := @toUlong_of_nonneg nsec (by omega) (by omega)
    exact toSb8_eq 0 (by omega) (by omega) (by omega)

/-- Going back, but not by whole seconds, the quotient is one of a number near 2 ^ 64. -/
theorem lt_difftimeMsec (ha : a.Normalized) (hb : b.Normalized) (hlt : b.nanos < a.nanos)
    (hne : a.tvNsec ≠ b.tvNsec) : msecBetween a b < difftimeMsec (some a) (some b) now := by
  obtain ⟨sec, hsec⟩ : ∃ sec, b.tvSec - a.tvSec = sec := ⟨_, rfl⟩
  obtain ⟨nsec, hnsec⟩ : ∃ nsec, b.tvNsec - a.tvNsec = nsec := ⟨_, rfl⟩
  have hnanos := nanos_sub hsec hnsec
  have hval := @difftimeMsec_eq a b now sec nsec ha hb hsec hnsec
  obtain ⟨ha0, ha1, ha2, ha3⟩ := ha
  obtain ⟨hb0, hb1, hb2, hb3⟩ := hb
  rw [hval, msecBetween, hnanos]
  have htdiv := tdiv_cases (sec * 10 ^ 9 + nsec)
  split_ifs with hpos hn hneg hn
  · omega
  · omega
  · have h1 := @toUlong_of_neg sec (by omega) (by omega)
    have h2 := @toUlong_of_neg nsec (by omega) (by omega)
    rw [@toSb8_eq _ (sec * 1000 + toUlong nsec / 1000000) 1000 (by omega) (by omega) (by omega)]
    omega
  · have h1 : sec + 1 = 0 ∨ (toUlong (sec + 1) : Int) = sec + 1 + 2 ^ 64 := by
      rcases Int.lt_or_le (sec + 1) 0 with h | h
      · exact .inr (toUlong_of_neg h (by omega))
      · exact .inl (by omega)
    have h2 := @toUlong_of_neg (nsec - 1000000000) (by omega) (by omega)
    have h0 : toUlong 0 = 0 := rfl
    rcases h1 with h1 | h1
    · rw [h1, h0, @toSb8_eq _ (toUlong (nsec - 1000000000) / 1000000) 0 (by omega) (by omega)
        (by omega)]
      omega
    · rw [@toSb8_eq _ ((sec + 1) * 1000 + toUlong (nsec - 1000000000) / 1000000) 1000 (by omega)
        (by omega) (by omega)]
      omega
  · have h2 := @toUlong_of_neg nsec (by omega) (by omega)
    rw [@toSb8_eq _ (toUlong nsec / 1000000) 0 (by omega) (by omega) (by omega)]
    omega

end Cases

/-! ## The whole call -/

theorem msecBetween_swap (a b : Timespec) : msecBetween b a = -msecBetween a b := by
  have hneg : a.nanos - b.nanos = -(b.nanos - a.nanos) := (Int.neg_sub _ _).symm
  rw [msecBetween, msecBetween, hneg, Int.neg_tdiv]

/-- The difference is right when it goes forward or is of whole seconds; so it changes its
sign with its direction when it is of whole seconds. -/
theorem difftimeMsec_exact_iff {a b : Timespec} (ha : a.Normalized) (hb : b.Normalized)
    (now : Timespec) :
    (difftimeMsec (some a) (some b) now = msecBetween a b ↔
        a.nanos ≤ b.nanos ∨ a.tvNsec = b.tvNsec) ∧
      (difftimeMsec (some b) (some a) now = -difftimeMsec (some a) (some b) now ↔
        a.tvNsec = b.tvNsec) := by
  have hswap := msecBetween_swap a b
  refine ⟨⟨fun heq => ?_, difftimeMsec_of_le ha hb⟩, fun heq => ?_, fun hsame => ?_⟩
  · by_contra hnot
    obtain ⟨hlt, hne⟩ := not_or.mp hnot
    exact absurd heq (Int.ne_of_gt (lt_difftimeMsec ha hb (Int.not_le.mp hlt) hne))
  · by_contra hne
    -- one of the two directions is right, the other too large
    rcases Int.lt_or_le b.nanos a.nanos with hlt | hle
    · have hback := @lt_difftimeMsec a b now ha hb hlt hne
      have hforth := @difftimeMsec_of_le b a now hb ha (.inl (Int.le_of_lt hlt))
      omega
    · rcases Int.lt_or_eq_of_le hle with hlt | heq'
      · have hback := @lt_difftimeMsec b a now hb ha hlt (Ne.symm hne)
        have hforth := @difftimeMsec_of_le a b now ha hb (.inl hle)
        omega
      · -- equal times have equal nanoseconds
        obtain ⟨ha0, ha1, -, -⟩ := ha
        obtain ⟨hb0, hb1, -, -⟩ := hb
        rw [Timespec.nanos, Timespec.nanos] at heq'
        omega
  · rw [difftimeMsec_of_le ha hb (.inr hsame), difftimeMsec_of_le hb ha (.inr hsame.symm), hswap]

/-- A second and a half forward, and back. -/
theorem difftimeMsec_exact_iff_half :
    (difftimeMsec (some ⟨0, 0⟩) (some ⟨1, 500000000⟩) ⟨0, 0⟩ = msecBetween ⟨0, 0⟩ ⟨1, 500000000⟩ ↔
        Timespec.nanos ⟨0, 0⟩ ≤ Timespec.nanos ⟨1, 500000000⟩ ∨ (0 : Int) = 500000000) ∧
      (difftimeMsec (some ⟨1, 500000000⟩) (some ⟨0, 0⟩) ⟨0, 0⟩
          = -difftimeMsec (some ⟨0, 0⟩) (some ⟨1, 500000000⟩) ⟨0, 0⟩ ↔
        (0 : Int) = 500000000) :=
  difftimeMsec_exact_iff ⟨by decide, by decide, by decide, by decide⟩
    ⟨by decide, by decide, by decide, by decide⟩ ⟨0, 0⟩

/-- Half a second back comes out as some 584 years forward. -/
theorem difftimeMsec_not_exact :
    ¬ ∀ a b now : Timespec, a.Normalized → b.Normalized →
      difftimeMsec (some a) (some b) now = msecBetween a b ∧
        difftimeMsec (some b) (some a) now = -difftimeMsec (some a) (some b) now := by
  intro h
  have hhalf := (h ⟨0, 500000000⟩ ⟨0, 0⟩ ⟨0, 0⟩ ⟨by decide, by decide, by decide, by decide⟩
    ⟨by decide, by decide, by decide, by decide⟩).1
  exact absurd hhalf (by decide)

end Convd
