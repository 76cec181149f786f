import OpenSqlAny.Library.Gregorian
import OpenSqlAny.RowTypes

namespace OpenSqlAny.RowDates

open RowTypes Library.Gregorian

def daysSinceSaEpoch (date : SaDate) : Int := date.rawMinutes / 1440

def eraOf (z : Int) : Int := (if z ≥ 0 then z else z - 146096).tdiv 146097

def yearOfEra (doe : Int) : Int :=
  (doe - doe.tdiv 1460 + doe.tdiv 36524 - doe.tdiv 146096).tdiv 365

/-- Year, month and day as `ymd` computes them in 64 bits; its divisions truncate. -/
def civil (date : SaDate) : Int × Int × Int :=
  let z := daysSinceSaEpoch date - 135081 + 719468
  let era := eraOf z
  let doe := z - era * 146097
  let yoe := yearOfEra doe
  let year := yoe + era * 400
  let doy := doe - (365 * yoe + yoe.tdiv 4 - yoe.tdiv 100)
  let mp := (5 * doy + 2).tdiv 153
  let day := doy - (153 * mp + 2).tdiv 5 + 1
  let month := mp + if mp < 10 then 3 else -9
  (year + (if month ≤ 2 then 1 else 0), month, day)

def asI32 (x : Int) : Int := x.bmod (2 ^ 32)

def asU8 (x : Int) : UInt8 := UInt8.ofInt x

def ymd (date : SaDate) : Int × UInt8 × UInt8 :=
  let (year, month, day) := civil date
  (asI32 year, asU8 month, asU8 day)

theorem eraOf_eq (z : Int) : eraOf z = z / 146097 := by
  unfold eraOf
  split
  next h => exact Int.tdiv_eq_ediv_of_nonneg h
  next h =>
    have hneg : z - 146096 = -(146096 - z) := by omega
    rw [hneg, Int.neg_tdiv, Int.tdiv_eq_ediv_of_nonneg (by omega)]
    omega

theorem yearOfEra_eq {doe : Int} (h : 0 ≤ doe) :
    yearOfEra doe = (doe - doe / 1460 + doe / 36524 - doe / 146096) / 365 := by
  unfold yearOfEra
  rw [Int.tdiv_eq_ediv_of_nonneg h, Int.tdiv_eq_ediv_of_nonneg h, Int.tdiv_eq_ediv_of_nonneg h,
    Int.tdiv_eq_ediv_of_nonneg (by omega)]

/-- The year of a span of four years: its last day alone would start a fifth one. -/
theorem yearOfSpan {day late : Int} (hpos : 0 ≤ day)
    (h : late = 0 ∧ day < 1460 ∨ late = 1 ∧ 1364 ≤ day ∧ day ≤ 1460) :
    (0 ≤ (day - late) / 365 ∧ (day - late) / 365 ≤ 3) ∧ 365 * ((day - late) / 365) ≤ day ∧
      ((day - late) / 365 < 3 → day < 365 * ((day - late) / 365 + 1)) := by
  obtain ⟨rfl, hday⟩ | ⟨rfl, hday⟩ := h <;> omega

theorem yearOfEra_spec {doe : Int} (h0 : 0 ≤ doe) (h1 : doe < 146097) :
    0 ≤ yearOfEra doe ∧ yearOfEra doe ≤ 399 ∧ yearStart (yearOfEra doe) ≤ doe ∧
      doe < yearStart (yearOfEra doe + 1) := by
  rw [yearOfEra_eq h0]
  -- The last day of an era would start a fifth century.
  by_cases hlast : doe = 146096
  · subst hlast
    decide
  · obtain ⟨century, hcentury⟩ : ∃ century, century = doe / 36524 := ⟨_, rfl⟩
    obtain ⟨span, hspan⟩ : ∃ span, span = (doe - 36524 * century) / 1461 := ⟨_, rfl⟩
    obtain ⟨day, hday⟩ : ∃ day, day = doe - 36524 * century - 1461 * span := ⟨_, rfl⟩
    have hc : 0 ≤ century ∧ century ≤ 3 := by omega
    have hs : 0 ≤ span ∧ span ≤ 24 := by omega
    have hd : 0 ≤ day ∧ day ≤ 1460 := by omega
    have hshort : span = 24 → day < 1460 := by omega
    have hdoe : doe = 36524 * century + 1461 * span + day := by omega
    clear hcentury hspan hday
    subst hdoe
    obtain ⟨late, hlate⟩ : ∃ late, late = (24 * century + span + day) / 1460 := ⟨_, rfl⟩
    have hspans : (36524 * century + 1461 * span + day) / 1460 = 25 * century + span + late := by omega
    have hcenturies : (36524 * century + 1461 * span + day) / 36524 = century := by omega
    have hyear : 36524 * century + 1461 * span + day - (25 * century + span + late) + century - 0 =
        365 * (100 * century + 4 * span) + (day - late) := by omega
    have hera : (36524 * century + 1461 * span + day) / 146096 = 0 := by omega
    obtain ⟨hy, hle, hlt⟩ := @yearOfSpan day late hd.1 (by omega)
    have hend := lt_yearStart_succ century span _ day hc hs hy hd.2 hshort hlt
    rw [hspans, hcenturies, hera, hyear, Int.mul_add_ediv_left _ _ (by decide)]
    rw [yearStart_parts century span _ hc hs hy]
    exact ⟨by omega, by omega, by omega, hend⟩

theorem monthOfYear_spec {doy : Int} (h0 : 0 ≤ doy) (h1 : doy ≤ 365) :
    (0 ≤ (5 * doy + 2) / 153 ∧ (5 * doy + 2) / 153 ≤ 11) ∧
      monthStart ((5 * doy + 2) / 153) ≤ doy ∧ doy < monthStart ((5 * doy + 2) / 153 + 1) := by
  unfold monthStart
  omega

theorem civil_eq (date : SaDate) :
    ∃ d : Date, civil date = (d.year, (d.month : Int), (d.day : Int)) ∧
      dayNumber d = daysSinceSaEpoch date + 584387 := by
  obtain ⟨z, hz⟩ : ∃ z, z = daysSinceSaEpoch date - 135081 + 719468 := ⟨_, rfl⟩
  obtain ⟨doe, hdoe⟩ : ∃ doe, doe = z - z / 146097 * 146097 := ⟨_, rfl⟩
  obtain ⟨hy0, hy1, hstart, hend⟩ := @yearOfEra_spec doe (by omega) (by omega)
  generalize hyoe : yearOfEra doe = yoe at hy0 hy1 hstart hend
  have hyear : 365 * yoe + yoe.tdiv 4 - yoe.tdiv 100 = yearStart yoe := by
    rw [Int.tdiv_eq_ediv_of_nonneg hy0, Int.tdiv_eq_ediv_of_nonneg hy0]
    unfold yearStart
    omega
  have hnext := yearStart_eq (yoe + 1)
  have hleap := leapDay_bounds (yoe + 1)
  rw [Int.add_sub_cancel] at hnext
  obtain ⟨doy, hdoy⟩ : ∃ doy, doy = doe - yearStart yoe := ⟨_, rfl⟩
  obtain ⟨hmonth, hfirst, hlast⟩ := @monthOfYear_spec doy (by omega) (by omega)
  have hmp : (5 * doy + 2).tdiv 153 = (5 * doy + 2) / 153 := Int.tdiv_eq_ediv_of_nonneg (by omega)
  generalize (5 * doy + 2) / 153 = mp at hmonth hfirst hlast hmp
  have hms : (153 * mp + 2).tdiv 5 = monthStart mp := Int.tdiv_eq_ediv_of_nonneg (by omega)
  obtain ⟨day, hday⟩ : ∃ day : Nat, (day : Int) = doy - monthStart mp + 1 :=
    ⟨(doy - monthStart mp + 1).toNat, Int.toNat_of_nonneg (by omega)⟩
  have heras := yearStart_add_eras yoe (z / 146097)
  have herasNext := yearStart_add_eras (yoe + 1) (z / 146097)
  rw [add_right_comm] at herasNext
  obtain ⟨d, hdyear, hdmonth, hdday, hdmarch, hdmp⟩ :=
    @exists_of_march (yoe + z / 146097 * 400) mp day hmonth (by omega) (by omega) (by omega)
  refine ⟨d, ?_, ?_⟩
  · simp only [civil, ← hz, eraOf_eq, ← hdoe, hyoe, hyear, ← hdoy, hmp, hms, ← hdmonth, ← hday,
      hdday, hdyear]
    norm_cast
  · rw [dayNumber, hdmarch, hdmp, hdday, heras]
    omega

def epoch : Date := ⟨1600, 2, 29, by decide, by decide, by decide, by decide⟩

/-- The returned fields are those of a calendar date. -/
def Shows (fields : Int × UInt8 × UInt8) (d : Date) : Prop :=
  fields.1 = d.year ∧ fields.2.1.toNat = d.month ∧ fields.2.2.toNat = d.day

theorem civil_eq_zpow (date : SaDate) :
    ∃ d : Date, civil date = (d.year, (d.month : Int), (d.day : Int)) ∧
      (successor ^ daysSinceSaEpoch date) epoch = d := by
  obtain ⟨d, hd, hnumber⟩ := civil_eq date
  refine ⟨d, hd, successor_zpow_eq_iff.mpr ?_⟩
  have hepoch : dayNumber epoch = 584387 := rfl
  omega

theorem year_bounds {d : Date} {n : Int} (h : dayNumber d = n + 584387)
    (hn : -1491309 ≤ n ∧ n ≤ 1491308) : -10000 < d.year ∧ d.year < 10000 := by
  have hmonth := marchMonth_bounds d
  have hend := (day_bounds d).2
  have hleap := leapDay_bounds (marchYear d + 1)
  have hpos := d.day_pos
  have hyear : d.year - 1 ≤ marchYear d ∧ marchYear d ≤ d.year := by
    unfold marchYear
    split <;> omega
  unfold dayNumber yearStart monthStart at h
  unfold monthStart at hend
  omega

theorem daysSinceSaEpoch_bounds (x : Int32) :
    -1491309 ≤ daysSinceSaEpoch ⟨x.toInt⟩ ∧ daysSinceSaEpoch ⟨x.toInt⟩ ≤ 1491308 := by
  have hle := x.le_toInt
  have hlt := x.toInt_lt
  simp only [daysSinceSaEpoch]
  omega

theorem asI32_of_bounds {x : Int} (h : -10000 < x ∧ x < 10000) : asI32 x = x := by
  apply Int.bmod_eq_of_le
  · change -((2 ^ 31 : Nat) : Int) ≤ x
    omega
  · change x < ((2 ^ 31 : Nat) : Int)
    omega

theorem asU8_natCast {n : Nat} (h : n < 256) : (asU8 n).toNat = n := by
  have hn : ((n : Int) % 2 ^ 8).toNat = n := by omega
  rw [asU8, UInt8.ofInt, hn, UInt8.toNat_ofNat', Nat.mod_eq_of_lt h]

theorem shows_ymd (x : Int32) {d : Date}
    (hd : civil ⟨x.toInt⟩ = (d.year, (d.month : Int), (d.day : Int)))
    (hzpow : (successor ^ daysSinceSaEpoch ⟨x.toInt⟩) epoch = d) : Shows (ymd ⟨x.toInt⟩) d := by
  have hnumber := successor_zpow_eq_iff.mp hzpow
  have hyear := year_bounds ((Int.add_comm _ _).symm ▸ hnumber) (daysSinceSaEpoch_bounds x)
  have hmonth := d.month_le
  have hday := d.day_le.trans (daysInMonth_le d.year d.month)
  simp only [ymd, hd]
  exact ⟨asI32_of_bounds hyear, asU8_natCast (by omega), asU8_natCast (by omega)⟩

theorem ymd_gregorian :
    ymd ⟨0⟩ = (1600, 2, 29) ∧ ∀ x : Int32,
      (∃ d : Date, Shows (ymd ⟨x.toInt⟩) d ∧ civil ⟨x.toInt⟩ = (d.year, (d.month : Int), (d.day : Int)) ∧
        (successor ^ daysSinceSaEpoch ⟨x.toInt⟩) epoch = d) ∧
      ∀ y : Int32,
        (x.toInt / 1440 = y.toInt / 1440 → ymd ⟨x.toInt⟩ = ymd ⟨y.toInt⟩) ∧
        (y.toInt / 1440 = x.toInt / 1440 + 1 →
          ∃ d : Date, Shows (ymd ⟨x.toInt⟩) d ∧ Shows (ymd ⟨y.toInt⟩) (next d)) := by
  refine ⟨by decide, ?_⟩
  intro x
  obtain ⟨d, hd, hzpow⟩ := civil_eq_zpow ⟨x.toInt⟩
  refine ⟨⟨d, shows_ymd x hd hzpow, hd, hzpow⟩, ?_⟩
  intro y
  constructor
  · intro hsame
    obtain ⟨e, he, hzpow'⟩ := civil_eq_zpow ⟨y.toInt⟩
    have hdays : daysSinceSaEpoch ⟨x.toInt⟩ = daysSinceSaEpoch ⟨y.toInt⟩ := hsame
    have hde : d = e := by rw [← hzpow, ← hzpow', hdays]
    simp only [ymd, hd, he, hde]
  · intro hafter
    obtain ⟨e, he, hzpow'⟩ := civil_eq_zpow ⟨y.toInt⟩
    have hnext : e = next d := by
      have hdays : daysSinceSaEpoch ⟨y.toInt⟩ = 1 + daysSinceSaEpoch ⟨x.toInt⟩ := by
        simp only [daysSinceSaEpoch, hafter]
        omega
      rw [← hzpow', ← hzpow, hdays, zpow_one_add, Equiv.Perm.mul_apply]
      rfl
    exact ⟨d, shows_ymd x hd hzpow, hnext ▸ shows_ymd y he hzpow'⟩

theorem ymd_gregorian_after_leap_day :
    ymd ⟨(1439 : Int32).toInt⟩ = ymd ⟨(0 : Int32).toInt⟩ ∧
      ∃ d : Date, Shows (ymd ⟨(0 : Int32).toInt⟩) d ∧ Shows (ymd ⟨(1440 : Int32).toInt⟩) (next d) :=
  ⟨((ymd_gregorian.2 1439).2 0).1 (by decide), ((ymd_gregorian.2 0).2 1440).2 (by decide)⟩

end OpenSqlAny.RowDates
