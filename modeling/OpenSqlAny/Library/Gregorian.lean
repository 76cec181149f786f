import Mathlib.Algebra.Group.End
import Mathlib.Tactic.IntervalCases
import Mathlib.Tactic.Ring

namespace OpenSqlAny.Library.Gregorian

def IsLeap (year : Int) : Prop := year % 4 = 0 ∧ (year % 100 ≠ 0 ∨ year % 400 = 0)

instance (year : Int) : Decidable (IsLeap year) := inferInstanceAs (Decidable (_ ∧ _))

def daysInMonth (year : Int) : Nat → Nat
  | 2 => if IsLeap year then 29 else 28
  | 4 | 6 | 9 | 11 => 30
  | _ => 31

/-- A day of the proleptic Gregorian calendar; years count through zero. -/
@[ext]
structure Date where
  year : Int
  month : Nat
  day : Nat
  month_pos : 1 ≤ month
  month_le : month ≤ 12
  day_pos : 1 ≤ day
  day_le : day ≤ daysInMonth year month
  deriving DecidableEq

theorem daysInMonth_pos (year : Int) (month : Nat) : 1 ≤ daysInMonth year month := by
  unfold daysInMonth
  split <;> first | omega | (split <;> omega)

theorem daysInMonth_le (year : Int) (month : Nat) : daysInMonth year month ≤ 31 := by
  unfold daysInMonth
  split <;> first | omega | (split <;> omega)

def next (d : Date) : Date :=
  if hday : d.day < daysInMonth d.year d.month then
    ⟨d.year, d.month, d.day + 1, d.month_pos, d.month_le, by omega, hday⟩
  else if hmonth : d.month < 12 then
    ⟨d.year, d.month + 1, 1, by omega, hmonth, le_rfl, daysInMonth_pos _ _⟩
  else ⟨d.year + 1, 1, 1, le_rfl, by omega, le_rfl, daysInMonth_pos _ _⟩

def previous (d : Date) : Date :=
  if hday : 1 < d.day then
    ⟨d.year, d.month, d.day - 1, d.month_pos, d.month_le, by omega,
      (Nat.sub_le _ _).trans d.day_le⟩
  else if hmonth : 1 < d.month then
    ⟨d.year, d.month - 1, daysInMonth d.year (d.month - 1), by omega,
      (Nat.sub_le _ _).trans d.month_le, daysInMonth_pos _ _, le_rfl⟩
  else ⟨d.year - 1, 12, 31, by omega, le_rfl, by omega, le_rfl⟩

def marchYear (d : Date) : Int := if d.month ≤ 2 then d.year - 1 else d.year

def marchMonth (d : Date) : Int := if d.month ≤ 2 then d.month + 9 else d.month - 3

def yearStart (year : Int) : Int := 365 * year + year / 4 - year / 100 + year / 400

/-- The days before a month within a year that starts in March. -/
def monthStart (month : Int) : Int := (153 * month + 2) / 5

def dayNumber (d : Date) : Int :=
  yearStart (marchYear d) + monthStart (marchMonth d) + (d.day - 1)

def leapDay (year : Int) : Int := if IsLeap year then 1 else 0

theorem leapDay_bounds (year : Int) : 0 ≤ leapDay year ∧ leapDay year ≤ 1 := by
  unfold leapDay
  split <;> omega

theorem yearStart_eq (year : Int) : yearStart year = yearStart (year - 1) + 365 + leapDay year := by
  unfold yearStart leapDay
  by_cases h : IsLeap year
  · rw [if_pos h]
    unfold IsLeap at h
    omega
  · rw [if_neg h]
    unfold IsLeap at h
    omega

theorem yearStart_add_eras (year eras : Int) :
    yearStart (year + eras * 400) = yearStart year + eras * 146097 := by
  unfold yearStart
  omega

theorem yearStart_parts (century span year : Int) (hcentury : 0 ≤ century ∧ century ≤ 3)
    (hspan : 0 ≤ span ∧ span ≤ 24) (hyear : 0 ≤ year ∧ year ≤ 3) :
    yearStart (100 * century + 4 * span + year) = 36524 * century + 1461 * span + 365 * year := by
  have hfour : (100 * century + 4 * span + year) / 4 = 25 * century + span := by omega
  have hhundred : (100 * century + 4 * span + year) / 100 = century := by omega
  have hall : (100 * century + 4 * span + year) / 400 = 0 := by omega
  rw [yearStart, hfour, hhundred, hall]
  omega

/-- A day of a span of four years comes before the year after its own: the
last year of a span has the leap day, but not in the last span of a century
unless the century is the last of the 400 years. -/
theorem lt_yearStart_succ (century span year day : Int) (hcentury : 0 ≤ century ∧ century ≤ 3)
    (hspan : 0 ≤ span ∧ span ≤ 24) (hyear : 0 ≤ year ∧ year ≤ 3) (hday : day ≤ 1460)
    (hshort : span = 24 → day < 1460) (h : year < 3 → day < 365 * (year + 1)) :
    36524 * century + 1461 * span + day < yearStart (100 * century + 4 * span + year + 1) := by
  obtain hlt | rfl : year < 3 ∨ year = 3 := by omega
  · rw [add_assoc _ year, yearStart_parts century span (year + 1) hcentury hspan (by omega)]
    have hyear := h hlt
    omega
  · obtain hlt | rfl : span < 24 ∨ span = 24 := by omega
    · have hsucc : 100 * century + 4 * span + 3 + 1 = 100 * century + 4 * (span + 1) + 0 := by omega
      rw [hsucc, yearStart_parts century (span + 1) 0 hcentury (by omega) (by omega)]
      omega
    · have hshort' := hshort rfl
      obtain hlt | rfl : century < 3 ∨ century = 3 := by omega
      · have hsucc : 100 * century + 4 * 24 + 3 + 1 = 100 * (century + 1) + 4 * 0 + 0 := by omega
        rw [hsucc, yearStart_parts (century + 1) 0 0 (by omega) (by omega) (by omega)]
        omega
      · have hend : yearStart (100 * 3 + 4 * 24 + 3 + 1) = 146097 := rfl
        omega

theorem yearStart_mono {a b : Int} (h : a ≤ b) : yearStart a ≤ yearStart b := by
  unfold yearStart
  omega

theorem marchMonth_bounds (d : Date) : 0 ≤ marchMonth d ∧ marchMonth d ≤ 11 := by
  have hpos := d.month_pos
  have hle := d.month_le
  unfold marchMonth
  split <;> omega

theorem daysInMonth_february (year : Int) : (daysInMonth year 2 : Int) = 28 + leapDay year := by
  by_cases h : IsLeap year <;> simp [daysInMonth, leapDay, h]

theorem monthStart_add_daysInMonth (d : Date) :
    monthStart (marchMonth d) + daysInMonth d.year d.month =
      if d.month = 2 then 365 + leapDay d.year else monthStart (marchMonth d + 1) := by
  obtain ⟨year, month, day, hpos, hle, hday, hlast⟩ := d
  simp only [marchMonth]
  by_cases hm : month = 2
  · subst hm
    rw [daysInMonth_february]
    simp only [monthStart, Nat.reduceLeDiff, ↓reduceIte]
    omega
  · rw [if_neg hm]
    interval_cases month <;> first | rfl | exact absurd rfl hm

theorem day_bounds (d : Date) :
    monthStart (marchMonth d) + d.day ≤ monthStart (marchMonth d + 1) ∧
      monthStart (marchMonth d) + d.day ≤ 365 + leapDay (marchYear d + 1) := by
  have hend := monthStart_add_daysInMonth d
  have hday := d.day_le
  have hmonths := marchMonth_bounds d
  have hleap := leapDay_bounds (marchYear d + 1)
  by_cases hm : d.month = 2
  · rw [if_pos hm] at hend
    have hyear : marchYear d + 1 = d.year := by simp [marchYear, hm]
    have hmonth : marchMonth d = 11 := by simp [marchMonth, hm]
    have hyearLeap := leapDay_bounds d.year
    rw [hyear]
    refine ⟨?_, by omega⟩
    rw [hmonth] at hend ⊢
    simp only [monthStart] at hend ⊢
    omega
  · rw [if_neg hm] at hend
    have hmonth : marchMonth d ≤ 10 := by
      have hle := d.month_le
      unfold marchMonth
      split <;> omega
    unfold monthStart at hend ⊢
    omega

theorem exists_of_march {year month : Int} {day : Nat} (hmonth : 0 ≤ month ∧ month ≤ 11)
    (hpos : 1 ≤ day) (hnext : monthStart month + day ≤ monthStart (month + 1))
    (hyear : yearStart year + monthStart month + day ≤ yearStart (year + 1)) :
    ∃ d : Date, d.year = year + (if d.month ≤ 2 then 1 else 0) ∧
      (d.month : Int) = month + (if month < 10 then 3 else -9) ∧ d.day = day ∧
      marchYear d = year ∧ marchMonth d = month := by
  have hleap := yearStart_eq (year + 1)
  rw [Int.add_sub_cancel] at hleap
  obtain ⟨m, hm⟩ : ∃ m : Nat, (m : Int) = month + (if month < 10 then 3 else -9) := by
    refine ⟨(month + (if month < 10 then 3 else -9)).toNat, Int.toNat_of_nonneg ?_⟩
    split <;> omega
  have hrange : 1 ≤ m ∧ m ≤ 12 ∧ month = if m ≤ 2 then (m : Int) + 9 else m - 3 := by grind
  obtain ⟨y, hy⟩ : ∃ y : Int, y = year + (if m ≤ 2 then 1 else 0) := ⟨_, rfl⟩
  have hlast : day ≤ daysInMonth y m := by
    have hend := monthStart_add_daysInMonth
      ⟨y, m, 1, hrange.1, hrange.2.1, le_rfl, daysInMonth_pos y m⟩
    simp only [marchMonth, ← hrange.2.2] at hend
    by_cases hfebruary : m = 2
    · have hleapYear : y = year + 1 := by simp [hy, hfebruary]
      rw [if_pos hfebruary, hleapYear] at hend
      rw [hleapYear]
      omega
    · rw [if_neg hfebruary] at hend
      omega
  refine ⟨⟨y, m, day, hrange.1, hrange.2.1, hpos, hlast⟩, hy, hm, rfl, ?_, ?_⟩
  · simp only [marchYear]
    split at hy <;> omega
  · exact hrange.2.2.symm

theorem dayNumber_of_turn {d e : Date} (hlast : d.day = daysInMonth d.year d.month) (hfirst : e.day = 1)
    (h : if d.month = 2 then marchYear e = d.year ∧ marchMonth e = 0
      else marchYear e = marchYear d ∧ marchMonth e = marchMonth d + 1) :
    dayNumber e = dayNumber d + 1 := by
  have hend := monthStart_add_daysInMonth d
  simp only [dayNumber, hfirst, hlast]
  by_cases hm : d.month = 2
  · rw [if_pos hm] at h hend
    have hyear : marchYear d = d.year - 1 := by simp [marchYear, hm]
    have hstart := yearStart_eq d.year
    have hzero : monthStart 0 = 0 := rfl
    rw [h.1, h.2, hyear, hzero]
    omega
  · rw [if_neg hm] at h hend
    rw [h.1, h.2]
    omega

theorem dayNumber_next (d : Date) : dayNumber (next d) = dayNumber d + 1 := by
  have hpos := d.month_pos
  have hle := d.month_le
  have hday := d.day_le
  by_cases hlast : d.day < daysInMonth d.year d.month
  · simp only [next, hlast, ↓reduceDIte, dayNumber, marchYear, marchMonth, Nat.cast_add, Nat.cast_one]
    ring
  · apply dayNumber_of_turn (by omega)
    · rw [next, dif_neg hlast]
      split <;> rfl
    · simp only [next, hlast, ↓reduceDIte, marchYear, marchMonth]
      grind

theorem ext_of_march {a b : Date} (hyear : marchYear a = marchYear b)
    (hmonth : marchMonth a = marchMonth b) (hday : a.day = b.day) : a = b := by
  have ha := And.intro a.month_pos a.month_le
  have hb := And.intro b.month_pos b.month_le
  have hmonths : a.month = b.month := by
    unfold marchMonth at hmonth
    grind
  apply Date.ext
  · unfold marchYear at hyear
    rw [hmonths] at hyear
    split at hyear <;> omega
  · exact hmonths
  · exact hday

theorem dayNumber_lt {a b : Date} (h : marchYear a < marchYear b) : dayNumber a < dayNumber b := by
  have hend := (day_bounds a).2
  have hnext := yearStart_eq (marchYear a + 1)
  have hmono : yearStart (marchYear a + 1) ≤ yearStart (marchYear b) := yearStart_mono h
  have hstart : 0 ≤ monthStart (marchMonth b) := by
    have hmonth := marchMonth_bounds b
    unfold monthStart
    omega
  have hday := b.day_pos
  rw [Int.add_sub_cancel] at hnext
  unfold dayNumber
  omega

theorem marchMonth_le {a b : Date} (hyear : marchYear a = marchYear b)
    (h : dayNumber a = dayNumber b) : marchMonth a ≤ marchMonth b := by
  by_contra hlt
  have hend := (day_bounds b).1
  have hday := a.day_pos
  have hmono : monthStart (marchMonth b + 1) ≤ monthStart (marchMonth a) := by
    unfold monthStart
    omega
  unfold dayNumber at h
  rw [hyear] at h
  omega

theorem dayNumber_injective : Function.Injective dayNumber := by
  intro a b h
  have hyear : marchYear a = marchYear b := by
    obtain hlt | heq | hlt := lt_trichotomy (marchYear a) (marchYear b)
    · exact absurd h (dayNumber_lt hlt).ne
    · exact heq
    · exact absurd h.symm (dayNumber_lt hlt).ne
  have hmonth : marchMonth a = marchMonth b :=
    le_antisymm (marchMonth_le hyear h) (marchMonth_le hyear.symm h.symm)
  apply ext_of_march hyear hmonth
  unfold dayNumber at h
  rw [hyear, hmonth] at h
  omega

theorem next_previous (d : Date) : next (previous d) = d := by
  have hpos := d.month_pos
  have hday := d.day_pos
  by_cases hone : 1 < d.day
  · have hlt : d.day - 1 < daysInMonth d.year d.month := by
      have hle := d.day_le
      omega
    simp only [previous, next, hone, hlt, ↓reduceDIte]
    apply Date.ext
    · rfl
    · rfl
    · exact Nat.sub_add_cancel hday
  · by_cases hmonth : 1 < d.month
    · have hlt : d.month - 1 < 12 := by
        have hle := d.month_le
        omega
      simp only [previous, next, hone, hmonth, hlt, lt_irrefl, ↓reduceDIte]
      apply Date.ext
      · rfl
      · exact Nat.sub_add_cancel hpos
      · exact le_antisymm hday (not_lt.mp hone)
    · have hlast : ¬31 < daysInMonth (d.year - 1) 12 := lt_irrefl 31
      simp only [previous, next, hone, hmonth, hlast, lt_irrefl, ↓reduceDIte]
      apply Date.ext
      · exact Int.sub_add_cancel _ _
      · exact le_antisymm hpos (not_lt.mp hmonth)
      · exact le_antisymm hday (not_lt.mp hone)

theorem previous_next (d : Date) : previous (next d) = d := by
  apply dayNumber_injective
  have h := dayNumber_next (previous (next d))
  rw [next_previous, dayNumber_next] at h
  omega

/-- The day after, as a permutation of the calendar: its powers count days either way. -/
def successor : Equiv.Perm Date := ⟨next, previous, previous_next, next_previous⟩

theorem dayNumber_successor_inv (d : Date) : dayNumber (successor⁻¹ d) = dayNumber d - 1 := by
  have h := dayNumber_next (successor⁻¹ d)
  have hd : next (successor⁻¹ d) = d := successor.apply_symm_apply d
  rw [hd] at h
  omega

theorem dayNumber_zpow (n : Int) (d : Date) : dayNumber ((successor ^ n) d) = dayNumber d + n := by
  induction n using Int.induction_on generalizing d with
  | zero => simp
  | succ i ih =>
      rw [zpow_add_one, Equiv.Perm.mul_apply, ih]
      have h : dayNumber (successor d) = dayNumber d + 1 := dayNumber_next d
      rw [h]
      ring
  | pred i ih =>
      rw [zpow_sub_one, Equiv.Perm.mul_apply, ih, dayNumber_successor_inv]
      ring

theorem successor_zpow_eq_iff {n : Int} {a b : Date} :
    (successor ^ n) a = b ↔ dayNumber b = dayNumber a + n := by
  rw [← dayNumber_zpow]
  exact ⟨fun h => congrArg dayNumber h.symm, fun h => dayNumber_injective h.symm⟩

end OpenSqlAny.Library.Gregorian
