import Mathlib
import TracedTree.Number.Shortest
import TracedTree.Proofs.Number

/-!
# Numbers read back from their text

Rounding a quotient depends on its value only, so two numerals of one value are rounded alike,
however they are split into digits and an exponent. The numeral that is chosen for a number rounds
back to it, and the layout without an exponent writes a numeral of the same value.

## Main definitions

* `Decimal.value`: the rational number that a numeral stands for.
* `Decimal.rounded`: the number at the nearest place, without the short cuts for huge exponents.

## Main statements

* `Number.toNumber?_shortest`: the chosen numeral rounds back to the number.
* `Number.read?_text`: the text of a number other than zero reads back as the number.
-/

namespace TracedTree

namespace Number

/-! ## Rounding a quotient -/

theorem roundHalfEven_scale {c : Nat} (hc : 0 < c) (n d : Nat) :
    roundHalfEven (c * n) (c * d) = roundHalfEven n d := by
  have hmod : c * n % (c * d) = c * (n % d) := Nat.mul_mod_mul_left c n d
  have hdiv : c * n / (c * d) = n / d := Nat.mul_div_mul_left n d hc
  have hlt : c * d < 2 * (c * (n % d)) ↔ d < 2 * (n % d) := by
    rw [Nat.mul_left_comm 2 c, Nat.mul_lt_mul_left hc]
  have heq : 2 * (c * (n % d)) = c * d ↔ 2 * (n % d) = d := by
    rw [Nat.mul_left_comm 2 c, Nat.mul_right_inj (Nat.ne_of_gt hc)]
  simp only [roundHalfEven, hmod, hdiv, hlt, heq]

theorem nearestPlace_scale {c : Nat} (hc : 0 < c) (n d : Nat) :
    nearestPlace (c * n) (c * d) = nearestPlace n d := by
  simp only [nearestPlace, Nat.mul_div_mul_left n d hc, Nat.mul_assoc, roundHalfEven_scale hc]

/-- Equal quotients have one nearest place. -/
theorem nearestPlace_congr {n d n' d' : Nat} (hd : 0 < d) (hd' : 0 < d') (h : n * d' = n' * d) :
    nearestPlace n d = nearestPlace n' d' := by
  rw [← nearestPlace_scale hd' n d, Nat.mul_comm d' n, h, Nat.mul_comm n' d, Nat.mul_comm d' d,
    nearestPlace_scale hd]

/-- What lies below half a unit is rounded to zero. -/
theorem nearestPlace_eq_zero {n d : Nat} (h : 2 * n < d) : nearestPlace n d = 0 := by
  have hdiv : n / d = 0 := Nat.div_eq_of_lt (by omega)
  have hmod : n % d = n := Nat.mod_eq_of_lt (by omega)
  have hlow : ¬ (d < 2 * n ∨ 2 * n = d ∧ n / d % 2 = 1) := by omega
  simp [nearestPlace, roundHalfEven, hdiv, hmod, Nat.not_lt.2 (Nat.le_of_lt h), Nat.ne_of_lt h]

/-- The magnitude at a place has no more than 53 binary digits that matter. -/
theorem scale_dvd_unitsAt (place : Nat) :
    2 ^ ((unitsAt place).log2 - 52) ∣ unitsAt place := by
  by_cases hsmall : place < 2 ^ 52
  · rw [unitsAt_of_lt hsmall]
    have hlog : place.log2 - 52 = 0 := by
      by_cases hzero : place = 0
      · simp [hzero]
      · have := (Nat.log2_lt hzero).2 hsmall
        omega
    simp [hlog]
  · obtain ⟨e, r, hr, rfl⟩ : ∃ e r, r < 2 ^ 52 ∧ place = (e + 1) * 2 ^ 52 + r :=
      ⟨place / 2 ^ 52 - 1, place % 2 ^ 52, Nat.mod_lt _ (by decide), by omega⟩
    rw [unitsAt_add e hr]
    exact (scale_dvd_mul (by omega) (rfl : 2 ^ e = Nat.pow 2 e)).1

theorem nearestPlace_unitsAt (place : Nat) : nearestPlace (unitsAt place) 1 = place :=
  unitsAt_strictMono.injective (unitsAt_nearestPlace (scale_dvd_unitsAt place)).1

end Number

namespace Decimal

variable {d d' : Decimal} {x : Number}

/-! ## The value of a numeral -/

/-- The rational number that a numeral stands for, its sign aside. -/
def value (d : Decimal) : ℚ := d.digits * (10 : ℚ) ^ d.exponent

/-- The number at the place nearest to the value. -/
def rounded (d : Decimal) : Option Number :=
  Number.atPlace? d.negative <|
    Number.nearestPlace (d.digits * Nat.pow 10 d.exponent.toNat * Number.one)
      (Nat.pow 10 (-d.exponent).toNat)

theorem value_eq (d : Decimal) :
    d.value =
      (d.digits * Nat.pow 10 d.exponent.toNat : ℕ) / (Nat.pow 10 (-d.exponent).toNat : ℕ) := by
  have hsplit : d.exponent = (d.exponent.toNat : ℤ) - ((-d.exponent).toNat : ℤ) := by omega
  have hpow : (10 : ℚ) ^ d.exponent =
      (10 : ℚ) ^ d.exponent.toNat / (10 : ℚ) ^ (-d.exponent).toNat := by
    conv_lhs => rw [hsplit]
    rw [zpow_sub₀ (by norm_num), zpow_natCast, zpow_natCast]
  rw [value, hpow]
  push_cast [Nat.pow_eq]
  ring

/-- Numerals of one sign and one value are rounded alike. -/
theorem rounded_congr (hneg : d.negative = d'.negative) (hvalue : d.value = d'.value) :
    d.rounded = d'.rounded := by
  have hpos : ∀ e : ℤ, 0 < Nat.pow 10 (-e).toNat := fun e => Nat.pow_pos (by decide)
  have hcross : d.digits * Nat.pow 10 d.exponent.toNat * Nat.pow 10 (-d'.exponent).toNat =
      d'.digits * Nat.pow 10 d'.exponent.toNat * Nat.pow 10 (-d.exponent).toNat := by
    rw [value_eq, value_eq, div_eq_div_iff (Nat.cast_ne_zero.2 (Nat.ne_of_gt (hpos _)))
      (Nat.cast_ne_zero.2 (Nat.ne_of_gt (hpos _)))] at hvalue
    exact_mod_cast hvalue
  have hplace : ∀ unit, Number.nearestPlace (d.digits * Nat.pow 10 d.exponent.toNat * unit)
      (Nat.pow 10 (-d.exponent).toNat) =
        Number.nearestPlace (d'.digits * Nat.pow 10 d'.exponent.toNat * unit)
          (Nat.pow 10 (-d'.exponent).toNat) := by
    intro unit
    refine Number.nearestPlace_congr (hpos _) (hpos _) ?_
    rw [Nat.mul_right_comm _ unit, hcross, Nat.mul_right_comm _ unit]
  rw [rounded, rounded, hneg, hplace]

/-! ## The short cuts -/

theorem isZero_of_atPlace? {negative : Bool} (h : Number.atPlace? negative 0 = some x) :
    x.isZero = true := by
  rw [Number.atPlace?, dif_pos (by decide)] at h
  obtain rfl := Option.some.inj h
  rfl

/-- Sixteen decimal digits outweigh 53 binary ones. -/
theorem two_pow_le_ten_pow {a b : ℕ} (h : 16 * a ≤ 53 * b) : 2 ^ a ≤ 10 ^ b := by
  refine (Nat.pow_le_pow_iff_left (n := 16) (by decide)).1 ?_
  calc (2 ^ a) ^ 16 = 2 ^ (16 * a) := by rw [← Nat.pow_mul, Nat.mul_comm]
    _ ≤ 2 ^ (53 * b) := Nat.pow_le_pow_right (by decide) h
    _ = (2 ^ 53) ^ b := Nat.pow_mul ..
    _ ≤ (10 ^ 16) ^ b := Nat.pow_le_pow_left (by norm_num) b
    _ = (10 ^ b) ^ 16 := by rw [← Nat.pow_mul, Nat.mul_comm, Nat.pow_mul]

/-- Below the range of finite numbers everything is rounded to zero. -/
theorem nearestPlace_of_tiny (h : d.exponent + d.digits.log2 + 1 < -330) :
    Number.nearestPlace (d.digits * Nat.pow 10 d.exponent.toNat * Number.one)
      (Nat.pow 10 (-d.exponent).toNat) = 0 := by
  obtain ⟨k, hk⟩ : ∃ k : ℕ, (-d.exponent).toNat = d.digits.log2 + 1 + (331 + k) :=
    ⟨(-d.exponent).toNat - (d.digits.log2 + 332), by omega⟩
  have hzero : d.exponent.toNat = 0 := by omega
  have hdigits : d.digits < 2 ^ (d.digits.log2 + 1) := Nat.lt_log2_self
  refine Number.nearestPlace_eq_zero ?_
  obtain ⟨u, hu, hunit⟩ : ∃ u, u ≤ 1074 ∧ Number.one = Nat.pow 2 u :=
    ⟨1074, Nat.le_refl _, Number.one_eq⟩
  have hunits : 2 ^ (u + 1) ≤ 10 ^ (331 + k) := two_pow_le_ten_pow (by omega)
  rw [hzero, hk, hunit]
  simp only [Nat.pow_eq, Nat.pow_zero, Nat.mul_one]
  calc 2 * (d.digits * 2 ^ u) = d.digits * 2 ^ (u + 1) := by
        rw [Nat.mul_left_comm, ← Nat.pow_succ']
    _ < 2 ^ (d.digits.log2 + 1) * 2 ^ (u + 1) :=
        Nat.mul_lt_mul_of_pos_right hdigits (Nat.two_pow_pos _)
    _ ≤ 10 ^ (d.digits.log2 + 1) * 10 ^ (331 + k) :=
        Nat.mul_le_mul (Nat.pow_le_pow_left (by decide) _) hunits
    _ = 10 ^ (d.digits.log2 + 1 + (331 + k)) := (Nat.pow_add ..).symm

theorem rounded_of_toNumber? (h : d.toNumber? = some x) (hx : x.isZero = false) :
    d.rounded = some x := by
  rw [toNumber?] at h
  split at h
  · rw [isZero_of_atPlace? h] at hx
    cases hx
  split at h
  · cases h
  split at h
  · rw [isZero_of_atPlace? h] at hx
    cases hx
  · exact h

theorem toNumber?_of_rounded (h : d.rounded = some x)
    (hexp : d.exponent ≤ 310) : d.toNumber? = some x := by
  rw [toNumber?]
  split
  · rename_i hdigits
    have hplace : Number.nearestPlace (d.digits * Nat.pow 10 d.exponent.toNat * Number.one)
        (Nat.pow 10 (-d.exponent).toNat) = 0 := by
      rw [hdigits, Nat.zero_mul, Nat.zero_mul]
      exact Number.nearestPlace_eq_zero (Nat.pow_pos (by decide))
    rw [rounded, hplace] at h
    exact h
  split
  · omega
  split
  · rename_i htiny
    rw [rounded, nearestPlace_of_tiny htiny] at h
    exact h
  · exact h

/-- A numeral of the same sign and value stands for the same number. -/
theorem toNumber?_congr (h : d.toNumber? = some x) (hx : x.isZero = false)
    (hneg : d.negative = d'.negative) (hvalue : d.value = d'.value) (hexp : d'.exponent ≤ 310) :
    d'.toNumber? = some x := by
  refine toNumber?_of_rounded ?_ hexp
  rw [← rounded_congr hneg hvalue]
  exact rounded_of_toNumber? h hx

end Decimal

namespace Number

variable {x : Number}

/-! ## The chosen numeral -/

theorem atPlace?_place (x : Number) : atPlace? x.negative x.place = some x :=
  dif_pos x.place_lt

/-- A whole number is written by its own digits. -/
theorem toNumber?_whole (hwhole : x.isWhole = true) :
    (Decimal.mk x.negative (x.magnitude / one) 0).toNumber? = some x := by
  have hdvd : x.magnitude / one * one = x.magnitude :=
    Nat.div_mul_cancel (Nat.dvd_of_mod_eq_zero (by simpa [isWhole] using hwhole))
  refine Decimal.toNumber?_of_rounded ?_ (show (0 : Int) ≤ 310 by decide)
  have hplace : nearestPlace x.magnitude 1 = x.place := nearestPlace_unitsAt x.place
  simp [Decimal.rounded, hdvd, hplace, atPlace?_place]

/-- Every digit of a count of units of `2 ^ -e` reads back as the number. -/
theorem toNumber?_allDigits (x : Number) {e : ℕ} (hone : one = Nat.pow 2 e) :
    (Decimal.mk x.negative (x.magnitude * Nat.pow 5 e) (-e)).toNumber? = some x := by
  have hexp : -(e : Int) ≤ 310 := by omega
  refine Decimal.toNumber?_of_rounded ?_ hexp
  have hplace : nearestPlace (x.magnitude * Nat.pow 5 e * Nat.pow 2 e) (Nat.pow 10 e) =
      x.place := by
    rw [← nearestPlace_unitsAt x.place, ← magnitude]
    refine nearestPlace_congr (Nat.pow_pos (by decide)) Nat.one_pos ?_
    simp only [Nat.pow_eq, Nat.mul_one, Nat.mul_assoc, ← Nat.mul_pow]
  have hup : (-(e : Int)).toNat = 0 := by omega
  have hdown : (- -(e : Int)).toNat = e := by omega
  have hten : Nat.pow 10 0 = 1 := rfl
  rw [Decimal.rounded, hone]
  simp only [hup, hdown, hten, Nat.mul_one, hplace, atPlace?_place]

theorem toNumber?_of_onGrid? {tie : Tie} {exponent : Int} {d : Decimal}
    (h : x.onGrid? tie exponent = some d) : d.toNumber? = some x := by
  rw [onGrid?] at h
  simp only at h
  split at h
  · cases h
  · rename_i hlower _
    obtain rfl := Option.some.inj h
    exact beq_iff_eq.1 hlower
  · rename_i _ hupper
    obtain rfl := Option.some.inj h
    exact beq_iff_eq.1 hupper
  · rename_i hlower hupper
    obtain rfl := Option.some.inj h
    split
    · exact beq_iff_eq.1 hlower
    · exact beq_iff_eq.1 hupper

/-- **The chosen numeral rounds back** to the number that it was chosen for. -/
theorem toNumber?_shortest (hx : x.isZero = false) (tie : Tie) :
    (x.shortest tie).toNumber? = some x := by
  rw [shortest, hx]
  simp only [Bool.false_eq_true, if_false]
  split
  · rename_i hwhole
    exact toNumber?_whole (Bool.and_eq_true_iff.1 hwhole).1
  · cases hgrid : (List.range 17).findSome? fun (n : Nat) =>
        x.onGrid? tie (x.pointPosition - n - 1) with
    | none =>
        rw [Option.getD_none, exactDecimal]
        have hall := toNumber?_allDigits x one_eq
        exact hall
    | some d =>
        obtain ⟨n, -, hn⟩ := List.exists_of_findSome?_eq_some hgrid
        exact toNumber?_of_onGrid? hn

end Number

namespace Decimal

variable {whole fraction ds : List Char} {d : Decimal} {x : Number}

/-! ## Reading digits -/

theorem ne_of_isDigit {c mark : Char} (hc : c.isDigit = true) (hmark : mark.isDigit = false) :
    c ≠ mark := by
  rintro rfl
  rw [hc] at hmark
  cases hmark

/-- The sign is split off again from a text that begins with a digit. -/
theorem splitSign_signed {c : Char} (hc : c.isDigit = true) (negative : Bool) (rest : List Char) :
    splitSign (signed negative (c :: rest)) = (negative, c :: rest) := by
  cases negative with
  | true => rfl
  | false =>
      have hplus : c ≠ '+' := ne_of_isDigit hc (by decide)
      have hminus : c ≠ '-' := ne_of_isDigit hc (by decide)
      simp [signed, splitSign, hplus, hminus]

/-- Digits with a point among them read as all digits and the number of those behind the point. -/
theorem read?_point (hwhole : ∀ c ∈ whole, c.isDigit = true) (hne : whole ≠ [])
    (hfraction : ∀ c ∈ fraction, c.isDigit = true) (negative : Bool) :
    read? (signed negative (whole ++ '.' :: fraction)) =
      some ⟨negative, digitsValue (whole ++ fraction), -fraction.length⟩ := by
  obtain ⟨c, rest, rfl⟩ := List.exists_cons_of_ne_nil hne
  have hpoint : Char.isDigit '.' = false := by decide
  have htake : (c :: rest ++ '.' :: fraction).takeWhile Char.isDigit = c :: rest := by
    rw [List.takeWhile_append_of_pos hwhole]
    simp [hpoint]
  have hdrop : (c :: rest ++ '.' :: fraction).dropWhile Char.isDigit = '.' :: fraction := by
    rw [List.dropWhile_append_of_pos hwhole]
    simp [hpoint]
  have hsign := splitSign_signed (hwhole c List.mem_cons_self) negative (rest ++ '.' :: fraction)
  rw [← List.cons_append] at hsign
  have hfrac : splitFraction ('.' :: fraction) = (fraction, []) := by
    simp [splitFraction, List.takeWhile_eq_self_iff.2 hfraction,
      List.dropWhile_eq_nil_iff.2 hfraction]
  rw [read?, hsign]
  simp only [htake, hdrop, hfrac]
  simp [readExponent?]

/-- Digits without a point. -/
theorem read?_whole (hwhole : ∀ c ∈ whole, c.isDigit = true) (hne : whole ≠ [])
    (negative : Bool) :
    read? (signed negative whole) = some ⟨negative, digitsValue whole, 0⟩ := by
  obtain ⟨c, rest, rfl⟩ := List.exists_cons_of_ne_nil hne
  have hsign := splitSign_signed (hwhole c List.mem_cons_self) negative rest
  simp [read?, hsign, List.takeWhile_eq_self_iff.2 hwhole, List.dropWhile_eq_nil_iff.2 hwhole,
    splitFraction, readExponent?]

theorem digitsValue_append (xs ys : List Char) :
    digitsValue (xs ++ ys) = 10 ^ ys.length * digitsValue xs + digitsValue ys := by
  rw [digitsValue, Nat.ofDigitChars_append, Nat.ofDigitChars_eq_ofDigitChars_zero]
  rfl

theorem digitsValue_replicate (n : ℕ) : digitsValue (List.replicate n '0') = 0 := by
  rw [digitsValue, Nat.ofDigitChars_replicate_zero, Nat.mul_zero]

theorem isDigit_of_mem_replicate {n : ℕ} : ∀ c ∈ List.replicate n '0', c.isDigit = true := by
  intro c hc
  rw [List.eq_of_mem_replicate hc]
  decide

/-- Digits laid out around a point read as a numeral of their value. -/
theorem read?_positional (hds : ∀ c ∈ ds, c.isDigit = true) (hne : ds ≠ []) (negative : Bool)
    (point : Int) :
    ∃ d, read? (signed negative (positional ds point)) = some d ∧ d.negative = negative ∧
      d.exponent ≤ 0 ∧ d.value = digitsValue ds * (10 : ℚ) ^ (point - ds.length) := by
  rw [positional]
  split
  · rename_i hpoint
    have hlayout : '0' :: '.' :: List.replicate (-point).toNat '0' ++ ds =
        ['0'] ++ '.' :: (List.replicate (-point).toNat '0' ++ ds) := rfl
    have hzeros : ∀ c ∈ ['0'], c.isDigit = true := isDigit_of_mem_replicate (n := 1)
    rw [hlayout]
    refine ⟨_, read?_point hzeros (by simp) ?_ negative, rfl, ?_, ?_⟩
    · rw [List.forall_mem_append]
      exact ⟨isDigit_of_mem_replicate, hds⟩
    · simp only
      omega
    · have hexp : -((List.replicate (-point).toNat '0' ++ ds).length : ℤ) = point - ds.length := by
        rw [List.length_append, List.length_replicate]
        omega
      have hzero : digitsValue ['0'] = 0 := rfl
      rw [value, hexp, digitsValue_append, digitsValue_append, digitsValue_replicate, hzero]
      simp
  split
  · rename_i hpoint hlen
    refine ⟨_, read?_whole ?_ (by simp [hne]) negative, rfl, Int.le_refl 0, ?_⟩
    · rw [List.forall_mem_append]
      exact ⟨hds, isDigit_of_mem_replicate⟩
    · have hexp : point - ds.length = ((point.toNat - ds.length : ℕ) : ℤ) := by omega
      rw [value, hexp, digitsValue_append, digitsValue_replicate, List.length_replicate,
        zpow_natCast]
      push_cast
      ring
  · rename_i hpoint hlen
    refine ⟨_, read?_point ?_ ?_ ?_ negative, rfl, ?_, ?_⟩
    · intro c hc
      exact hds c (List.mem_of_mem_take hc)
    · rw [← List.length_pos_iff, List.length_take]
      omega
    · intro c hc
      exact hds c (List.mem_of_mem_drop hc)
    · simp only
      omega
    · have hexp : -((ds.drop point.toNat).length : ℤ) = point - ds.length := by
        rw [List.length_drop]
        omega
      rw [value, hexp, List.take_append_drop]

/-- The digits of a numeral are its significant ones and some zeros. -/
theorem exists_toDigits_eq (d : Decimal) :
    ∃ n, Nat.toDigits 10 d.digits = d.significant ++ List.replicate n '0' := by
  refine ⟨((Nat.toDigits 10 d.digits).reverse.takeWhile (· == '0')).length, ?_⟩
  have hzeros : ((Nat.toDigits 10 d.digits).reverse.takeWhile (· == '0')) =
      List.replicate ((Nat.toDigits 10 d.digits).reverse.takeWhile (· == '0')).length '0' := by
    refine List.eq_replicate_iff.2 ⟨rfl, fun c hc => ?_⟩
    exact beq_iff_eq.1 (List.all_eq_true.1 List.all_takeWhile c hc)
  have hsplit := congrArg List.reverse (List.takeWhile_append_dropWhile (p := (· == '0'))
    (l := (Nat.toDigits 10 d.digits).reverse))
  rw [List.reverse_append, List.reverse_reverse] at hsplit
  rw [significant, ← List.reverse_replicate, ← hzeros, hsplit]

theorem isDigit_of_mem_significant : ∀ c ∈ d.significant, c.isDigit = true := by
  obtain ⟨n, hn⟩ := exists_toDigits_eq d
  intro c hc
  refine Nat.isDigit_of_mem_toDigits (b := 10) (n := d.digits) (by decide) (by decide) ?_
  rw [hn]
  exact List.mem_append_left _ hc

/-- The text of a numeral of a number reads back as the number. -/
theorem toNumber?_positional (h : d.toNumber? = some x) (hx : x.isZero = false) :
    Number.read? (signed x.negative (positional d.significant d.point)) = some x := by
  have hrounded := rounded_of_toNumber? h hx
  have hneg : x.negative = d.negative := by
    rw [rounded, Number.atPlace?] at hrounded
    split at hrounded
    · rw [← Option.some.inj hrounded]
    · cases hrounded
  obtain ⟨n, hn⟩ := exists_toDigits_eq d
  have hdigits : d.digits = 10 ^ n * digitsValue d.significant := by
    have hvalue := digitsValue_append d.significant (List.replicate n '0')
    rw [← hn, digitsValue, Nat.ofDigitChars_ten_toDigits, digitsValue_replicate,
      List.length_replicate] at hvalue
    exact hvalue
  have hne : d.significant ≠ [] := by
    intro hnil
    rw [hnil, digitsValue, Nat.ofDigitChars_nil, Nat.mul_zero] at hdigits
    rw [toNumber?, if_pos hdigits] at h
    rw [isZero_of_atPlace? h] at hx
    cases hx
  obtain ⟨d', hread, hneg', hexp, hvalue⟩ :=
    read?_positional isDigit_of_mem_significant hne x.negative d.point
  have hsame : d.value = d'.value := by
    have hpoint : d.point - d.significant.length = n + d.exponent := by
      rw [point, hn, List.length_append, List.length_replicate]
      push_cast
      ring
    rw [hvalue, hpoint, value, hdigits, zpow_add₀ (by norm_num), zpow_natCast]
    push_cast
    ring
  rw [Number.read?, hread]
  exact toNumber?_congr h hx (hneg.symm.trans hneg'.symm) hsame (by omega)

end Decimal

/-- **The text of a number reads back** as the number, zero apart. -/
theorem Number.read?_text {x : Number} (hx : x.isZero = false) :
    Number.read? x.text.toList = some x := by
  rw [Number.text, hx]
  simp only [Bool.false_eq_true, if_false, String.toList_ofList]
  exact Decimal.toNumber?_positional (toNumber?_shortest hx .outward) hx

end TracedTree
