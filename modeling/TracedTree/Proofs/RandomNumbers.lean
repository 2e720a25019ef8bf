import Mathlib
import TracedTree.Proofs.Batch
import TracedTree.Proofs.Drawing

/-!
# Random batches of numbers

Random numbers are drawn from a range that is chosen next to the existing numbers. As long as these
are integers of at most `10 ^ 14` in magnitude, everything is exact: the range has room for all that
is wanted beside the existing numbers in it, so a batch is not refused, and an integer of the range
is free at every draw.

## Main definitions

* `Roomy count numbers low high`: a range of exact integers with enough free ones.
* `drawInteger low high`: a single draw.

## Main statements

* `exists_roomy`: the range next to integers has room.
* `generate_random_numbers`: the range of a batch, its draws, and its keys.
-/

namespace TracedTree

namespace Batch

variable {count : Nat} {numbers : List Number} {x : Number} {i low high : Int} {supply : Supply}

/-! ## The range -/

theorem integer?_eq (hi : -2 ^ 62 ≤ i ∧ i ≤ 2 ^ 62) : integer? i = some i := by
  rw [integer?, if_pos]
  rw [maxInteger]
  omega

theorem roomy?_eq (hi : -2 ^ 62 ≤ i ∧ i ≤ 2 ^ 62) : roomy? i = some i := by
  rw [roomy?, if_pos]
  omega

theorem wholeMagnitude_eq (h : x.units = i * Number.one) : wholeMagnitude x = i.natAbs := by
  rw [wholeMagnitude, Number.magnitude_eq h,
    Nat.mul_div_cancel _ (Int.natCast_pos.1 Number.one_pos)]

theorem outward_eq (h : x.units = i * Number.one) : outward x = i := by
  rw [outward, Number.floor_eq h, Number.ceil_eq h, ite_self]

/-- A number is lifted to one of as many digits. -/
theorem liftCeiling_bounds {value : Nat} (hvalue : value < 10 ^ 15) :
    (value : Int) ≤ liftCeiling value ∧ liftCeiling value < 10 ^ 15 := by
  have hlow : value < 10 ^ (Nat.toDigits 10 value).length :=
    (Nat.length_toDigits_le_iff (by decide) Nat.length_toDigits_pos).1 (Nat.le_refl _)
  have hdigits : (Nat.toDigits 10 value).length ≤ 15 :=
    (Nat.length_toDigits_le_iff (by decide) (by decide)).2 hvalue
  have hhigh : 10 ^ (Nat.toDigits 10 value).length ≤ 10 ^ 15 :=
    Nat.pow_le_pow_right (by decide) hdigits
  simp only [liftCeiling, maxInteger, Int.natAbs_natCast, Nat.pow_eq, Int.ofNat_eq_natCast]
  generalize 10 ^ (Nat.toDigits 10 value).length = lifted at hlow hhigh
  omega

/-- A range of exact integers that has room for what is wanted beside the existing numbers. -/
structure Roomy (count : Nat) (numbers : List Number) (low high : Int) : Prop where
  least : -2 ^ 53 ≤ low
  greatest : high ≤ 2 ^ 53
  room : (((integers numbers).filter fun i => low ≤ i && i ≤ high).length + count : Int) ≤
    high - low + 1

section Range

variable {first only second : Number} {rest : List Number} {j : Int}

/-- Next to no number the range goes up from one. -/
theorem randomRange?_nil (hcount : count ≤ 10 ^ 14) :
    randomRange? count [] false = some (1, liftCeiling (count * 2 : Nat)) := by
  simp (disch := omega) only [randomRange?, Bool.false_eq_true, if_false, integer?_eq,
    Option.bind_eq_bind, Option.bind_some, Int.natCast_mul]
  rfl

/-- Next to one integer it goes on from there, away from zero. -/
theorem randomRange?_singleton (hcount : count ≤ 10 ^ 14) (hi : only.units = i * Number.one)
    (hbound : i.natAbs ≤ 10 ^ 14) :
    randomRange? count [only] false = some (
      if i < 0 then (-liftCeiling (i.natAbs + count * 2 : Nat), i - 1)
      else (i + 1, liftCeiling (i.natAbs + count * 2 : Nat))) := by
  have hbelow := Number.units_add_ofInt hi (j := -1) (by omega) (by omega)
  have hbehind := Number.units_add_ofInt hi (j := 1) (by omega) (by omega)
  simp (disch := omega) only [randomRange?, Bool.false_eq_true, if_false, integer?_eq, roomy?_eq,
    Option.bind_eq_bind, Option.bind_some, Number.rank_neg_iff hi, wholeMagnitude_eq hi,
    wholeMagnitude_eq hbelow, wholeMagnitude_eq hbehind, Int.natCast_add, Int.natCast_mul]
  split
  · have habs : -((i + -1).natAbs : Int) = i - 1 := by omega
    rw [habs]
    rfl
  · have habs : ((i + 1).natAbs : Int) = i + 1 := by omega
    rw [habs]
    rfl

/-- Next to several integers it reaches from the first to the last, and on both sides as far beyond
as half of what is missing. -/
theorem randomRange?_several (hcount : count ≤ 10 ^ 14)
    (hlength : (first :: second :: rest).length < 10 ^ 14) (hi : first.units = i * Number.one)
    (hj : ((second :: rest).getLast?.getD second).units = j * Number.one)
    (hlow : -10 ^ 14 ≤ i ∧ i ≤ 10 ^ 14) (hhigh : -10 ^ 14 ≤ j ∧ j ≤ 10 ^ 14) :
    let missing := (count + (first :: second :: rest).length : Int) * 2 - (j - i + 1)
    randomRange? count (first :: second :: rest) false = some (
      if 0 < missing then (i - (missing + 1) / 2, j + (missing + 1) / 2) else (i, j)) := by
  simp only [randomRange?, outward_eq hi, outward_eq hj]
  clear hi hj
  generalize (first :: second :: rest).length = total at hlength ⊢
  simp only [Option.bind_eq_bind, Bool.not_false, and_true]
  rw [integer?_eq (by omega), Option.bind_some, roomy?_eq (by omega), Option.bind_some,
    roomy?_eq (by omega), Option.bind_some, integer?_eq (by omega), Option.bind_some,
    integer?_eq (by omega), Option.bind_some, integer?_eq (by omega), Option.bind_some,
    integer?_eq (by omega), Option.bind_some, integer?_eq (by omega), Option.bind_some]
  split
  · rw [integer?_eq (by omega), Option.bind_some, integer?_eq (by omega), Option.bind_some]
    rfl
  · rfl

end Range

/-- There are no more integers in a range than numbers. -/
theorem length_between_le (numbers : List Number) (low high : Int) :
    ((integers numbers).filter fun i => low ≤ i && i ≤ high).length ≤ numbers.length :=
  calc ((integers numbers).filter fun i => low ≤ i && i ≤ high).length
      ≤ (integers numbers).length := List.length_filter_le ..
    _ = (numbers.filter (·.isWhole)).length := List.length_map _
    _ ≤ numbers.length := List.length_filter_le ..

/-- Half of the range next to several integers is wanted or taken at most. -/
theorem roomy_several {i j : Int} (hcount : count ≤ 10 ^ 14) (hlength : numbers.length < 10 ^ 14)
    (hi : i.natAbs ≤ 10 ^ 14) (hj : j.natAbs ≤ 10 ^ 14) {missing : Int}
    (hmissing : missing = (count + numbers.length : Int) * 2 - (j - i + 1)) :
    if 0 < missing then Roomy count numbers (i - (missing + 1) / 2) (j + (missing + 1) / 2)
    else Roomy count numbers i j := by
  have hbetween := length_between_le numbers
  split
  · have := hbetween (i - (missing + 1) / 2) (j + (missing + 1) / 2)
    exact ⟨by omega, by omega, by omega⟩
  · have := hbetween i j
    exact ⟨by omega, by omega, by omega⟩

/-- **The range next to integers has room.** -/
theorem exists_roomy (hcount : count ≤ 10 ^ 14) (hlength : numbers.length < 10 ^ 14)
    (hwhole : ∀ x ∈ numbers, x.isWhole ∧ x.magnitude ≤ 10 ^ 14 * Number.one) :
    ∃ low high, randomRange? count numbers false = some (low, high) ∧
      Roomy count numbers low high := by
  match numbers with
  | [] =>
      have hvalue : count * 2 < 10 ^ 15 := by omega
      obtain ⟨hlift, hdigits⟩ := liftCeiling_bounds hvalue
      refine ⟨_, _, randomRange?_nil hcount, by decide, by omega, ?_⟩
      simp only [integers, List.filter_nil, List.map_nil, List.length_nil]
      omega
  | [only] =>
      obtain ⟨i, hi, hbound⟩ := (hwhole only List.mem_cons_self).elim Number.exists_integer
      have hvalue : i.natAbs + count * 2 < 10 ^ 15 := by omega
      obtain ⟨hlift, hdigits⟩ := liftCeiling_bounds hvalue
      have hrange := randomRange?_singleton hcount hi hbound
      have hintegers := integers_singleton hi (by omega)
      -- the number itself lies outside of the range
      split at hrange
      · have houtside : ¬ i ≤ i - 1 := by omega
        refine ⟨_, _, hrange, by omega, by omega, ?_⟩
        simp only [hintegers, List.filter_cons, houtside, decide_false, Bool.and_false,
          Bool.false_eq_true, if_false, List.filter_nil, List.length_nil]
        omega
      · have houtside : ¬ i + 1 ≤ i := by omega
        refine ⟨_, _, hrange, by omega, by omega, ?_⟩
        simp only [hintegers, List.filter_cons, houtside, decide_false, Bool.false_and,
          Bool.false_eq_true, if_false, List.filter_nil, List.length_nil]
        omega
  | first :: second :: rest =>
      have hlast : (second :: rest).getLast?.getD second ∈ first :: second :: rest := by
        rw [List.getLast?_eq_some_getLast (List.cons_ne_nil second rest), Option.getD_some]
        exact List.mem_cons_of_mem first (List.getLast_mem _)
      obtain ⟨i, hi, hlow⟩ := (hwhole first List.mem_cons_self).elim Number.exists_integer
      obtain ⟨j, hj, hhigh⟩ := (hwhole _ hlast).elim Number.exists_integer
      have hrange := randomRange?_several hcount hlength hi hj (by omega) (by omega)
      have hroomy := roomy_several hcount hlength hlow hhigh rfl
      dsimp only at hrange
      split at hrange
      · rename_i hmissing
        rw [if_pos hmissing] at hroomy
        exact ⟨_, _, hrange, hroomy⟩
      · rename_i henough
        rw [if_neg henough] at hroomy
        exact ⟨_, _, hrange, hroomy⟩

/-! ## The draws of a batch -/

/-- Draw an integer of a range. -/
def drawInteger (low high : Int) (supply : Supply) : Int × Supply :=
  let (offset, supply) := supply.below 64 (high - low + 1).toNat
  (low + offset, supply)

/-- What exists in the range is taken at first. -/
def firstIntegers (numbers : List Number) (low high : Int) (supply : Supply) : Drawing Int Int :=
  .start (takenBetween numbers low high) supply

/-- Integers are drawn one by one. -/
theorem drawsBy_drawIntegers (low high : Int) :
    Drawing.DrawsBy (drawInteger low high) id
      (drawIntegers low (high - low + 1).toNat false) where
  enough fuel _ _ _ := by cases fuel <;> rfl
  missing _ _ _ _ _ := rfl

theorem exists_ends_drawIntegers (count : Nat) (numbers : List Number) (low high : Int)
    (supply : Supply) :
    ∃ last, Drawing.Reached (drawInteger low high) id count (firstIntegers numbers low high supply)
        last ∧
      last.Ends count (drawIntegers low (high - low + 1).toNat false (supply.left + 1) count
        (takenBetween numbers low high) [] supply) :=
  Drawing.exists_ends (drawsBy_drawIntegers low high)
    (fun supply => supply.left_below_le 64 _) (Nat.lt_succ_self _) (Nat.zero_add count) .first

theorem size_takenBetween_le (numbers : List Number) (low high : Int) :
    (takenBetween numbers low high).size ≤
      ((integers numbers).filter fun i => low ≤ i && i ≤ high).length :=
  Std.HashSet.size_ofList_le

namespace Roomy

theorem le (h : Roomy count numbers low high) (hcount : 0 < count) : low ≤ high := by
  have := h.room
  omega

/-- At every draw some integer of the range is free. -/
theorem exists_free_integer (h : Roomy count numbers low high) {d : Drawing Int Int}
    (hd : Drawing.Reached (drawInteger low high) id count (firstIntegers numbers low high supply) d)
    (hmissing : d.found.length < count) :
    ∃ i, low ≤ i ∧ i ≤ high ∧ d.taken.contains i = false := by
  obtain ⟨-, hsize, -⟩ := hd.invariant (P := fun _ => True) fun _ => trivial
  have hfirst := size_takenBetween_le numbers low high
  have htaken := countP_contains_le_size Function.injective_id
    (Finset.Icc low high).nodup_toList d.taken
  have hwidth : (Finset.Icc low high).toList.length = (high + 1 - low).toNat := by
    rw [Finset.length_toList, Int.card_Icc]
  have hroom := h.room
  have hlt : (Finset.Icc low high).toList.countP (d.taken.contains <| id ·) <
      (Finset.Icc low high).toList.length := by omega
  obtain ⟨i, hi, hfree⟩ := exists_free hlt
  rw [Finset.mem_toList, Finset.mem_Icc] at hi
  exact ⟨i, hi.1, hi.2, hfree⟩

/-- The range has as many new integers as are wanted. -/
theorem le_card_new (h : Roomy count numbers low high) :
    count ≤ ((Finset.Icc low high).filter fun i =>
      ∀ k ∈ numbers.map Key.number, ¬ k.same (.ofInt i)).card := by
  have hroom := h.room
  generalize hbetween : (integers numbers).filter (fun i => low ≤ i && i ≤ high) = between at hroom
  have hsub : Finset.Icc low high \ between.toFinset ⊆ (Finset.Icc low high).filter fun i =>
      ∀ k ∈ numbers.map Key.number, ¬ k.same (.ofInt i) := by
    intro i hi
    obtain ⟨hrange, hnew⟩ := Finset.mem_sdiff.1 hi
    refine Finset.mem_filter.2 ⟨hrange, fun k hk hsame => hnew ?_⟩
    obtain ⟨hlow, hhigh⟩ := Finset.mem_Icc.1 hrange
    obtain ⟨x, hx, rfl⟩ := List.mem_map.1 hk
    have hsmall : -2 ^ 53 ≤ i ∧ i ≤ 2 ^ 53 :=
      ⟨Int.le_trans h.least hlow, Int.le_trans hhigh h.greatest⟩
    have htaken := mem_takenBetween hlow hhigh hsmall hx
      ((Key.same_number_iff.1 hsame).trans (Number.units_ofInt hsmall.1 hsmall.2))
    rwa [takenBetween, Std.HashSet.contains_ofList, List.contains_iff_mem, hbetween,
      ← List.mem_toFinset] at htaken
  calc count ≤ (high + 1 - low).toNat - between.length := by omega
    _ ≤ (Finset.Icc low high).card - between.toFinset.card := by
        rw [Int.card_Icc]
        exact Nat.sub_le_sub_left between.toFinset_card_le _
    _ ≤ (Finset.Icc low high \ between.toFinset).card := Finset.le_card_sdiff ..
    _ ≤ _ := Finset.card_le_card hsub

/-- In a range with room numbers are drawn, unless the supply runs dry. -/
theorem randomNumbers_eq (h : Roomy count numbers low high) (hcount : 0 < count)
    (hrange : randomRange? count numbers false = some (low, high)) (supply : Supply) :
    randomNumbers count numbers false supply =
      (drawIntegers low (high - low + 1).toNat false (supply.left + 1) count
        (takenBetween numbers low high) [] supply).elim
          (.error (.invalidGeneration .exhausted)) fun drawn =>
            .ok ⟨drawn.map .ofInt, .ofInt low, .ofInt high⟩ := by
  have hordered : ¬ high < low := Int.not_lt.2 (h.le hcount)
  have hfree : ¬ (high - low + 1).toNat - (takenBetween numbers low high).size < count := by
    have htaken := size_takenBetween_le numbers low high
    have hroom := h.room
    omega
  simp only [randomNumbers, hrange, hordered, hfree, if_false, Bool.not_false, Bool.true_and,
    decide_false, Bool.false_eq_true]
  split
  · rename_i hdrawn
    rw [hdrawn, Option.elim_none]
  · rename_i drawn hdrawn
    rw [hdrawn, Option.elim_some]

/-- The keys of a batch are new integers of the range. -/
theorem keys_randomNumbers (h : Roomy count numbers low high) (hcount : 0 < count)
    (hrange : randomRange? count numbers false = some (low, high)) {b : Batch}
    (hb : randomNumbers count numbers false supply = .ok b) :
    b.keys.length = count ∧ Fresh (numbers.map .number) b.keys ∧
      ∀ k ∈ b.keys, ∃ i, k = .ofInt i ∧ low ≤ i ∧ i ≤ high := by
  have hexact : ∀ bounds ∈ bounds? count numbers .random, Exact bounds := by
    intro bounds hbounds
    obtain rfl := Option.some.inj (hrange.symm.trans hbounds)
    exact ⟨h.least, h.greatest⟩
  have hfresh := fresh_randomNumbers hexact hb
  obtain ⟨last, hlast, hends⟩ := exists_ends_drawIntegers count numbers low high supply
  have hordered := h.le hcount
  have hwithin : ∀ supply, low ≤ (drawInteger low high supply).1 ∧
      (drawInteger low high supply).1 ≤ high := by
    intro supply
    have hwidth : 0 < (high - low + 1).toNat := by omega
    have := supply.below_lt hwidth
    simp only [drawInteger]
    omega
  rw [h.randomNumbers_eq hcount hrange] at hb
  generalize drawIntegers .. = result at hends hb
  cases result with
  | none => cases hb
  | some drawn =>
      obtain rfl := Except.ok.inj hb
      obtain ⟨hlength, hfound⟩ := hlast.drawn (P := fun i => low ≤ i ∧ i ≤ high) hwithin hends
      refine ⟨by rw [List.length_map, hlength], hfresh, fun k hk => ?_⟩
      obtain ⟨i, hi, rfl⟩ := List.mem_map.1 hk
      exact ⟨i, rfl, hfound i hi⟩

end Roomy

theorem generate_eq_randomNumbers (hcount : 0 < count) (numbers : List Number) (supply : Supply) :
    Batch.generate count .random .number (numbers.map .number) false supply =
      randomNumbers count numbers false supply := by
  have hkind : (numbers.map Key.number).find? (·.kind != .number) = none := by simp [Key.kind]
  have hnumbers : (numbers.map Key.number).filterMap Key.number? = numbers := by
    rw [List.filterMap_map]
    exact List.filterMap_some
  simp only [Batch.generate, if_neg (Nat.ne_of_gt hcount), hkind, hnumbers]

/-- **A random batch of numbers next to integers is never refused, and is fresh.** The existing
numbers may be in any order and repeat. The range of the batch has at least as many new integers as
are wanted, and at every draw one of its integers is free. The batch ends without a result only when
the words of the supply run out. Otherwise it has as many keys as wanted, which are integers of the
range and equal neither each other nor an existing key. -/
theorem generate_random_numbers (hcount : 0 < count) (hmost : count ≤ 10 ^ 14)
    (hlength : numbers.length < 10 ^ 14)
    (hwhole : ∀ x ∈ numbers, x.isWhole ∧ x.magnitude ≤ 10 ^ 14 * Number.one) (supply : Supply) :
    let existing := numbers.map Key.number
    ∃ low high, randomRange? count numbers false = some (low, high) ∧ low ≤ high ∧
      count ≤ ((Finset.Icc low high).filter fun i => ∀ k ∈ existing, ¬ k.same (.ofInt i)).card ∧
      let Reached := Drawing.Reached (drawInteger low high) id count
        (firstIntegers numbers low high supply)
      (∀ d, Reached d → d.found.length < count →
        ∃ i, low ≤ i ∧ i ≤ high ∧ d.taken.contains i = false) ∧
      (∃ last result, Reached last ∧ last.Ends count result ∧
        Batch.generate count .random .number existing false supply =
          result.elim (.error (.invalidGeneration .exhausted)) fun drawn =>
            .ok ⟨drawn.map .ofInt, .ofInt low, .ofInt high⟩) ∧
      ∀ b, Batch.generate count .random .number existing false supply = .ok b →
        b.keys.length = count ∧ Fresh existing b.keys ∧
        ∀ k ∈ b.keys, ∃ i, k = .ofInt i ∧ low ≤ i ∧ i ≤ high := by
  intro existing
  obtain ⟨low, high, hrange, hroomy⟩ := exists_roomy hmost hlength hwhole
  rw [generate_eq_randomNumbers hcount]
  obtain ⟨last, hlast, hends⟩ := exists_ends_drawIntegers count numbers low high supply
  refine ⟨low, high, hrange, hroomy.le hcount, hroomy.le_card_new, ?_, ?_, ?_⟩
  · exact fun d hd hmissing => hroomy.exists_free_integer hd hmissing
  · exact ⟨last, _, hlast, hends, hroomy.randomNumbers_eq hcount hrange supply⟩
  · exact fun b hb => hroomy.keys_randomNumbers hcount hrange hb

/-- Next to a large negative integer and repeated small ones. -/
theorem generate_random_numbers_repeats :
    let numbers : List Number := [.ofInt (-10 ^ 14), .ofInt 0, .ofInt 3, .ofInt 3]
    let existing := numbers.map Key.number
    let supply := Supply.seeded 1
    0 < 40 ∧ 40 ≤ 10 ^ 14 ∧ numbers.length < 10 ^ 14 ∧
    (∀ x ∈ numbers, x.isWhole ∧ x.magnitude ≤ 10 ^ 14 * Number.one) ∧
    ∃ low high, randomRange? 40 numbers false = some (low, high) ∧ low ≤ high ∧
      40 ≤ ((Finset.Icc low high).filter fun i => ∀ k ∈ existing, ¬ k.same (.ofInt i)).card ∧
      let Reached := Drawing.Reached (drawInteger low high) id 40
        (firstIntegers numbers low high supply)
      (∀ d, Reached d → d.found.length < 40 →
        ∃ i, low ≤ i ∧ i ≤ high ∧ d.taken.contains i = false) ∧
      (∃ last result, Reached last ∧ last.Ends 40 result ∧
        Batch.generate 40 .random .number existing false supply =
          result.elim (.error (.invalidGeneration .exhausted)) fun drawn =>
            .ok ⟨drawn.map .ofInt, .ofInt low, .ofInt high⟩) ∧
      ∀ b, Batch.generate 40 .random .number existing false supply = .ok b →
        b.keys.length = 40 ∧ Fresh existing b.keys ∧
        ∀ k ∈ b.keys, ∃ i, k = .ofInt i ∧ low ≤ i ∧ i ≤ high := by
  intro numbers existing supply
  have hcount : 0 < 40 := by decide
  have hmost : 40 ≤ 10 ^ 14 := by decide
  have hlength : numbers.length < 10 ^ 14 := by decide
  have hwhole : ∀ x ∈ numbers, x.isWhole ∧ x.magnitude ≤ 10 ^ 14 * Number.one := by
    decide +kernel
  exact ⟨hcount, hmost, hlength, hwhole,
    generate_random_numbers hcount hmost hlength hwhole supply⟩

end Batch

end TracedTree
