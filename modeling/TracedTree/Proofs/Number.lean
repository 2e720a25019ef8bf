import Mathlib
import TracedTree.Number

/-!
# Exact integers

The order of numbers is that of their values, and an integer of at most `2 ^ 53` in magnitude is
not changed by rounding. Larger integers may be: `2 ^ 53 + 1` is rounded down to `2 ^ 53`.

## Main statements

* `Number.rank_lt_iff`, `Number.rank_eq_iff`: places and values give the same order.
* `Number.units_ofInt`: small integers are exact.
* `Number.units_lt_floor`, `Number.ceil_lt_units`: a number lies within one of its roundings.
* `Number.exists_integer`: a whole number is an integer.
-/

namespace TracedTree.Number

/-! ## Magnitudes -/

theorem unitsAt_of_lt {place : Nat} (h : place < 2 ^ 52) : unitsAt place = place := by
  have hsmall : place < Nat.pow 2 52 := h
  rw [unitsAt, if_pos hsmall]

/-- The places of one binary order of magnitude are equally far apart. -/
theorem unitsAt_add (e : Nat) {r : Nat} (hr : r < 2 ^ 52) :
    unitsAt ((e + 1) * 2 ^ 52 + r) = (2 ^ 52 + r) * 2 ^ e := by
  have hplace : ¬ (e + 1) * 2 ^ 52 + r < 2 ^ 52 := by omega
  have hmod : ((e + 1) * 2 ^ 52 + r) % 2 ^ 52 = r := by
    rw [Nat.mul_add_mod_self_right, Nat.mod_eq_of_lt hr]
  have hdiv : ((e + 1) * 2 ^ 52 + r) / 2 ^ 52 = e + 1 := by omega
  simp only [unitsAt, Nat.pow_eq, hplace, if_false, hmod, hdiv, Nat.add_sub_cancel]

theorem unitsAt_lt_succ (place : Nat) : unitsAt place < unitsAt (place + 1) := by
  by_cases hsmall : place + 1 < 2 ^ 52
  · rw [unitsAt_of_lt hsmall, unitsAt_of_lt (by omega)]
    exact Nat.lt_succ_self place
  by_cases hfirst : place < 2 ^ 52
  · have hnext : place + 1 = (0 + 1) * 2 ^ 52 + 0 := by omega
    rw [hnext, unitsAt_add 0 (by decide), unitsAt_of_lt hfirst]
    omega
  obtain ⟨e, r, hr, hplace⟩ : ∃ e r, r < 2 ^ 52 ∧ place = (e + 1) * 2 ^ 52 + r :=
    ⟨place / 2 ^ 52 - 1, place % 2 ^ 52, Nat.mod_lt _ (by decide), by omega⟩
  rw [hplace, unitsAt_add e hr]
  by_cases hwithin : r + 1 < 2 ^ 52
  · rw [Nat.add_assoc, unitsAt_add e hwithin]
    exact Nat.mul_lt_mul_of_pos_right (by omega) (Nat.two_pow_pos e)
  · -- The last place of an order of magnitude is followed by the first of the next one.
    have hnext : (e + 1) * 2 ^ 52 + r + 1 = (e + 1 + 1) * 2 ^ 52 + 0 := by omega
    have hdouble : 2 ^ (e + 1) = 2 * 2 ^ e := Nat.pow_succ'
    rw [hnext, unitsAt_add (e + 1) (by decide), Nat.add_zero, hdouble, ← Nat.mul_assoc]
    exact Nat.mul_lt_mul_of_pos_right (by omega) (Nat.two_pow_pos e)

theorem unitsAt_strictMono : StrictMono unitsAt := strictMono_nat_of_lt_succ unitsAt_lt_succ

/-! ## The order -/

/-- The value at a position of the numeric order. -/
def unitsAtRank (rank : Int) : Int :=
  if rank < 0 then -(unitsAt rank.natAbs : Int) else unitsAt rank.natAbs

theorem unitsAtRank_strictMono : StrictMono unitsAtRank := by
  intro a b hab
  have hzero : unitsAt 0 = 0 := unitsAt_of_lt (by decide)
  by_cases ha : a < 0
  · have hpos : 0 < unitsAt a.natAbs := by
      rw [← hzero]
      exact unitsAt_strictMono (by omega)
    by_cases hb : b < 0
    · have hlt : unitsAt b.natAbs < unitsAt a.natAbs := unitsAt_strictMono (by omega)
      simp only [unitsAtRank, ha, hb, if_true]
      omega
    · simp only [unitsAtRank, ha, hb, if_true, if_false]
      omega
  · have hb : ¬ b < 0 := by omega
    have hlt : unitsAt a.natAbs < unitsAt b.natAbs := unitsAt_strictMono (by omega)
    simp only [unitsAtRank, ha, hb, if_false]
    omega

theorem units_eq (x : Number) : x.units = unitsAtRank x.rank := by
  have hzero : unitsAt 0 = 0 := unitsAt_of_lt (by decide)
  cases hneg : x.negative with
  | false =>
      have hrank : ¬ (x.place : Int) < 0 := by omega
      simp [units, rank, unitsAtRank, magnitude, hneg, hrank]
  | true =>
      by_cases hplace : x.place = 0
      · simp [units, rank, unitsAtRank, magnitude, hneg, hplace, hzero]
      · simp [units, rank, unitsAtRank, magnitude, hneg, hplace]

theorem rank_lt_iff {x y : Number} : x.rank < y.rank ↔ x.units < y.units := by
  rw [units_eq, units_eq, unitsAtRank_strictMono.lt_iff_lt]

theorem rank_le_iff {x y : Number} : x.rank ≤ y.rank ↔ x.units ≤ y.units := by
  rw [units_eq, units_eq, unitsAtRank_strictMono.le_iff_le]

theorem rank_eq_iff {x y : Number} : x.rank = y.rank ↔ x.units = y.units := by
  rw [units_eq, units_eq, unitsAtRank_strictMono.injective.eq_iff]

/-! ## Rounding -/

theorem roundHalfEven_mul {n d : Nat} (hd : 0 < d) : roundHalfEven (n * d) d = n := by
  have hne : 0 ≠ d := Nat.ne_of_lt hd
  simp [roundHalfEven, Nat.mul_div_cancel n hd, hne]

/-- A count of at most 53 binary digits, at the scale that the rounding chooses for it, is not
changed. -/
theorem unitsAt_nearestPlace {n : Nat} (h : 2 ^ (n.log2 - 52) ∣ n) :
    unitsAt (nearestPlace n 1) = n ∧ nearestPlace n 1 < (n.log2 - 52 + 2) * 2 ^ 52 := by
  obtain ⟨q, hq⟩ := h
  have hround : roundHalfEven (q * 2 ^ (n.log2 - 52)) (2 ^ (n.log2 - 52)) = q :=
    roundHalfEven_mul (Nat.two_pow_pos _)
  rw [Nat.mul_comm, ← hq] at hround
  have hplace : nearestPlace n 1 = (n.log2 - 52) * 2 ^ 52 + q := by
    simp only [nearestPlace, Nat.div_one, Nat.pow_eq, Nat.one_mul, hround]
  have hlt : n < 2 ^ (n.log2 + 1) := Nat.lt_log2_self
  rw [hplace]
  by_cases hscale : n.log2 ≤ 52
  · -- The scale is one, and the count is its own place up to the second order of magnitude.
    have hzero : n.log2 - 52 = 0 := by omega
    rw [hzero, Nat.pow_zero, Nat.one_mul] at hq
    have hbound : n < 2 ^ 53 := Nat.lt_of_lt_of_le hlt (Nat.pow_le_pow_right (by decide) (by omega))
    rw [hzero, Nat.zero_mul, Nat.zero_add, ← hq]
    refine ⟨?_, by omega⟩
    by_cases hsmall : n < 2 ^ 52
    · exact unitsAt_of_lt hsmall
    · have hadd := unitsAt_add 0 (r := n - 2 ^ 52) (by omega)
      have hsum : (0 + 1) * 2 ^ 52 + (n - 2 ^ 52) = n := by omega
      rw [hsum] at hadd
      rw [hadd]
      omega
  · obtain ⟨scale, hlog⟩ : ∃ scale, n.log2 = scale + 52 := ⟨n.log2 - 52, by omega⟩
    have hne : n ≠ 0 := by
      rintro rfl
      exact hscale (by decide)
    have hle : 2 ^ n.log2 ≤ n := Nat.log2_self_le hne
    have hnext : n.log2 + 1 = scale + 53 := by omega
    rw [hnext, Nat.pow_add] at hlt
    rw [hlog, Nat.pow_add] at hle
    rw [hlog, Nat.add_sub_cancel] at hq ⊢
    rw [hq] at hle hlt
    have hlow : 2 ^ 52 ≤ q := Nat.le_of_mul_le_mul_left hle (Nat.two_pow_pos scale)
    have hhigh : q < 2 ^ 53 := Nat.lt_of_mul_lt_mul_left hlt
    have hadd := unitsAt_add scale (r := q - 2 ^ 52) (by omega)
    have hsum : (scale + 1) * 2 ^ 52 + (q - 2 ^ 52) = scale * 2 ^ 52 + q := by omega
    have hq' : 2 ^ 52 + (q - 2 ^ 52) = q := by omega
    rw [hsum, hq'] at hadd
    refine ⟨?_, by omega⟩
    rw [hadd, hq]
    exact Nat.mul_comm ..

/-- Where rounding changes nothing, a number has the value that it was made from. -/
theorem units_ofUnits {u : Int} (hexact : 2 ^ (u.natAbs.log2 - 52) ∣ u.natAbs)
    (hsmall : u.natAbs.log2 - 52 ≤ 2044) : (ofUnits u).units = u := by
  obtain ⟨hunits, hplace⟩ := unitsAt_nearestPlace hexact
  have hmin : min (nearestPlace u.natAbs 1) (2047 * Nat.pow 2 52 - 1) =
      nearestPlace u.natAbs 1 := by
    have hpow : Nat.pow 2 52 = 2 ^ 52 := rfl
    rw [hpow]
    omega
  by_cases hneg : u < 0
  · simp only [ofUnits, atPlace, units, magnitude, hmin, hunits, hneg, decide_true, if_true]
    omega
  · simp only [ofUnits, atPlace, units, magnitude, hmin, hunits, hneg, decide_false,
      Bool.false_eq_true, if_false]
    omega

theorem one_eq : one = Nat.pow 2 1074 := by
  unfold one
  exact Eq.refl _

/-- Integers of at most `2 ^ 53` have no more than 53 binary digits that matter, whatever power of
two they are counted in. -/
theorem scale_dvd_mul {m e unit : Nat} (hm : m ≤ 2 ^ 53) (hunit : unit = Nat.pow 2 e) :
    2 ^ ((m * unit).log2 - 52) ∣ m * unit ∧ (m * unit).log2 - 52 ≤ e + 1 := by
  rw [hunit, Nat.pow_eq]
  rcases Nat.lt_or_eq_of_le hm with hlt | rfl
  · by_cases hzero : m = 0
    · subst hzero
      simp
    · have hne : m * 2 ^ e ≠ 0 := Nat.mul_ne_zero hzero (Nat.ne_of_gt (Nat.two_pow_pos e))
      have hbound : m * 2 ^ e < 2 ^ (53 + e) := by
        rw [Nat.pow_add]
        exact Nat.mul_lt_mul_of_pos_right hlt (Nat.two_pow_pos e)
      have hlog := (Nat.log2_lt hne).2 hbound
      refine ⟨?_, by omega⟩
      exact Nat.dvd_trans (Nat.pow_dvd_pow 2 (by omega)) (Nat.dvd_mul_left _ m)
  · rw [← Nat.pow_add, Nat.log2_two_pow]
    exact ⟨Nat.pow_dvd_pow 2 (by omega), by omega⟩

theorem pos_of_eq_pow {e unit : Nat} (hunit : unit = Nat.pow 2 e) : (0 : Int) < unit := by
  rw [hunit]
  exact Int.natCast_pos.2 (Nat.two_pow_pos e)

theorem one_pos : (0 : Int) < one := pos_of_eq_pow one_eq

/-- An integer of at most `2 ^ 53` in magnitude is a number. -/
theorem units_ofInt {i : Int} (hlow : -2 ^ 53 ≤ i) (hhigh : i ≤ 2 ^ 53) :
    (ofInt i).units = i * one := by
  have hm : i.natAbs ≤ 2 ^ 53 := by omega
  obtain ⟨hdvd, hscale⟩ := scale_dvd_mul hm one_eq
  have habs : (i * (one : Int)).natAbs = i.natAbs * one := by
    rw [Int.natAbs_mul, Int.natAbs_natCast]
  refine units_ofUnits ?_ ?_
  · rw [habs]
    exact hdvd
  · rw [habs]
    omega

/-! ## Integers next to a number -/

theorem units_lt_floor (x : Number) : x.units < (x.floor + 1) * one :=
  Int.lt_ediv_add_one_mul_self x.units one_pos

theorem ceil_lt_units (x : Number) : (x.ceil - 1) * one < x.units := by
  have h := Int.lt_ediv_add_one_mul_self (-x.units) one_pos
  have hneg : (x.ceil - 1) * (one : Int) = -((-x.units / one + 1) * one) := by
    rw [ceil, ← Int.neg_mul]
    congr 1
    omega
  rw [hneg]
  omega

/-! ## Whole numbers -/

section Whole

variable {x : Number} {i j : Int}

/-- A whole number is an integer. -/
theorem exists_integer {bound : Nat} (hwhole : x.isWhole) (hsmall : x.magnitude ≤ bound * one) :
    ∃ i : Int, x.units = i * one ∧ i.natAbs ≤ bound := by
  have hone : 0 < one := Int.natCast_pos.1 one_pos
  obtain ⟨m, hm⟩ : one ∣ x.magnitude := Nat.dvd_of_mod_eq_zero (beq_iff_eq.1 hwhole)
  have hbound : m ≤ bound := by
    rw [hm, Nat.mul_comm] at hsmall
    exact Nat.le_of_mul_le_mul_right hsmall hone
  rw [Nat.mul_comm] at hm
  cases hneg : x.negative with
  | false =>
      refine ⟨m, ?_, by omega⟩
      simp only [units, hneg, Bool.false_eq_true, if_false, hm, Int.natCast_mul]
  | true =>
      refine ⟨-m, ?_, by omega⟩
      simp only [units, hneg, if_true, hm, Int.natCast_mul, Int.neg_mul]

theorem magnitude_eq (h : x.units = i * one) : x.magnitude = i.natAbs * one := by
  rw [← Int.natAbs_natCast one, ← Int.natAbs_mul, ← h, units]
  split <;> omega

theorem isWhole_of_units (h : x.units = i * one) : x.isWhole := by
  simp only [isWhole, magnitude_eq h, Nat.mul_mod_left, beq_self_eq_true]

theorem truncate_eq (h : x.units = i * one) : x.truncate = i := by
  rw [truncate, h, Int.mul_tdiv_cancel i (Int.ne_of_gt one_pos)]

theorem floor_eq (h : x.units = i * one) : x.floor = i := by
  rw [floor, h, Int.mul_ediv_cancel i (Int.ne_of_gt one_pos)]

theorem ceil_eq (h : x.units = i * one) : x.ceil = i := by
  rw [ceil, h, ← Int.neg_mul, Int.mul_ediv_cancel (-i) (Int.ne_of_gt one_pos), Int.neg_neg]

theorem rank_neg_iff (h : x.units = i * one) : x.rank < 0 ↔ i < 0 := by
  have hzero : zero.rank = 0 ∧ zero.units = 0 := by decide
  rw [← hzero.1, rank_lt_iff, hzero.2, h, ← Int.zero_mul (one : Int)]
  exact Int.mul_lt_mul_right one_pos

/-- A sum of integers that are exact is exact. -/
theorem units_add_ofInt (h : x.units = i * one) (hj : -2 ^ 53 ≤ j ∧ j ≤ 2 ^ 53)
    (hsum : -2 ^ 53 ≤ i + j ∧ i + j ≤ 2 ^ 53) : (x.add (.ofInt j)).units = (i + j) * one := by
  rw [add, h, units_ofInt hj.1 hj.2, ← Int.add_mul]
  exact units_ofInt hsum.1 hsum.2

end Whole

end TracedTree.Number
