import Mathlib
import TracedTree.Batch.Letters

/-!
# The alphabet

A letter has a place in the alphabet: as many letters stand before it as it can be lowered, and as
many behind it as it can be raised. Raising and lowering lead to the neighbours in the alphabet,
which is in the order of code points.

## Main statements

* `nextLetter_spec`, `previousLetter_spec`: the neighbours of a letter.
* `mem_alphabet`, `pairwise_alphabet`: all letters, in order.
* `alphabet_eq`: the letters before and behind a letter.
-/

namespace TracedTree.Letters

variable {a c : Char}

/-! ## Code points -/

theorem lt_iff_toNat_lt : a < c ↔ a.toNat < c.toNat := UInt32.lt_iff_toNat_lt

theorem isUpper_iff : c.isUpper ↔ 65 ≤ c.toNat ∧ c.toNat ≤ 90 := by
  simp only [Char.isUpper, decide_eq_true_eq, ge_iff_le, UInt32.le_iff_toNat_le]
  rfl

theorem isLower_iff : c.isLower ↔ 97 ≤ c.toNat ∧ c.toNat ≤ 122 := by
  simp only [Char.isLower, Bool.and_eq_true, decide_eq_true_eq, ge_iff_le,
    UInt32.le_iff_toNat_le]
  rfl

theorem isLetter_iff :
    isLetter c ↔ 65 ≤ c.toNat ∧ c.toNat ≤ 90 ∨ 97 ≤ c.toNat ∧ c.toNat ≤ 122 := by
  rw [isLetter, Char.isAlpha, Bool.or_eq_true, isUpper_iff, isLower_iff]

theorem raises_eq (c : Char) : raises c =
    if 65 ≤ c.toNat ∧ c.toNat ≤ 90 then 116 - c.toNat
    else if 97 ≤ c.toNat ∧ c.toNat ≤ 122 then 122 - c.toNat else 0 := by
  have hZ : 'Z'.toNat = 90 := rfl
  have hz : 'z'.toNat = 122 := rfl
  simp only [raises, isUpper_iff, isLower_iff, hZ, hz]
  split <;> omega

theorem lowers_eq (c : Char) : lowers c =
    if 65 ≤ c.toNat ∧ c.toNat ≤ 90 then c.toNat - 65
    else if 97 ≤ c.toNat ∧ c.toNat ≤ 122 then c.toNat - 71 else 0 := by
  have hA : 'A'.toNat = 65 := rfl
  have ha : 'a'.toNat = 97 := rfl
  simp only [lowers, isUpper_iff, isLower_iff, hA, ha]
  split_ifs <;> omega

/-- Exactly the letters before the last one can be raised. -/
theorem raises_pos_iff : 0 < raises c ↔ (isLetter c && c != 'z') = true := by
  have hz : 'z'.toNat = 122 := rfl
  rw [Bool.and_eq_true, isLetter_iff, bne_iff_ne, ne_eq, ← Char.toNat_inj, hz, raises_eq]
  split_ifs <;> omega

/-- Exactly the letters behind the first one can be lowered. -/
theorem lowers_pos_iff : 0 < lowers c ↔ (isLetter c && c != 'A') = true := by
  have hA : 'A'.toNat = 65 := rfl
  rw [Bool.and_eq_true, isLetter_iff, bne_iff_ne, ne_eq, ← Char.toNat_inj, hA, lowers_eq]
  split_ifs <;> omega

theorem isLetter_of_raises (h : 0 < raises c) : isLetter c := by
  have h := raises_pos_iff.1 h
  simp only [Bool.and_eq_true] at h
  exact h.1

theorem isLetter_of_lowers (h : 0 < lowers c) : isLetter c := by
  have h := lowers_pos_iff.1 h
  simp only [Bool.and_eq_true] at h
  exact h.1

/-- Raises and lowers of a letter make up the alphabet. -/
theorem lowers_add_raises (hc : isLetter c) : lowers c + raises c = 51 := by
  rw [isLetter_iff] at hc
  rw [lowers_eq, raises_eq]
  split_ifs <;> omega

/-- Letters stand behind the quote, and none before `A`. -/
theorem le_letter (hc : isLetter c) : '"' < c ∧ 'A' ≤ c := by
  have hquote : '"'.toNat = 34 := rfl
  have hA : 'A'.toNat = 65 := rfl
  rw [isLetter_iff] at hc
  rw [← Char.not_lt, lt_iff_toNat_lt, lt_iff_toNat_lt, hquote, hA]
  omega

/-! ## Neighbours -/

theorem toNat_ofNat {n : Nat} (h : n ≤ 122) : (Char.ofNat n).toNat = n := by
  have hvalid : n.isValidChar := .inl (by omega)
  rw [Char.toNat_ofNat, if_pos hvalid]

theorem nextLetter_spec (h : 0 < raises c) :
    isLetter (nextLetter c) ∧ c < nextLetter c ∧ raises c = raises (nextLetter c) + 1 := by
  by_cases hZ : c = 'Z'
  · rw [hZ]
    decide
  · have hne : c.toNat ≠ 90 := fun heq => hZ (Char.toNat_inj.1 heq)
    have hletter := isLetter_iff.1 (isLetter_of_raises h)
    rw [raises_eq] at h
    have hnext : (nextLetter c).toNat = c.toNat + 1 := by
      rw [nextLetter, if_neg hZ]
      exact toNat_ofNat (by split_ifs at h <;> omega)
    rw [isLetter_iff, lt_iff_toNat_lt, raises_eq, raises_eq, hnext]
    split_ifs at h ⊢ <;> omega

theorem previousLetter_spec (h : 0 < lowers c) :
    isLetter (previousLetter c) ∧ previousLetter c < c ∧
      lowers c = lowers (previousLetter c) + 1 := by
  by_cases ha : c = 'a'
  · rw [ha]
    decide
  · have hne : c.toNat ≠ 97 := fun heq => ha (Char.toNat_inj.1 heq)
    have hletter := isLetter_iff.1 (isLetter_of_lowers h)
    rw [lowers_eq] at h
    have hprevious : (previousLetter c).toNat = c.toNat - 1 := by
      rw [previousLetter, if_neg ha]
      exact toNat_ofNat (by omega)
    rw [isLetter_iff, lt_iff_toNat_lt, lowers_eq, lowers_eq, hprevious]
    split_ifs at h ⊢ <;> omega

/-! ## Places -/

/-- The letters by their places. -/
theorem alphabet_eq_map :
    alphabet = (List.range 52).map fun i => Char.ofNat (if i < 26 then 65 + i else 71 + i) := by
  decide

theorem length_alphabet : alphabet.length = 52 := by
  rw [alphabet_eq_map, List.length_map, List.length_range]

theorem getElem?_alphabet (hc : isLetter c) : alphabet[lowers c]? = some c := by
  have hplace := lowers_add_raises hc
  have hcode : (if lowers c < 26 then 65 + lowers c else 71 + lowers c) = c.toNat := by
    rw [isLetter_iff] at hc
    rw [lowers_eq]
    split_ifs <;> omega
  rw [alphabet_eq_map, List.getElem?_map, List.getElem?_range (by omega), Option.map_some, hcode,
    Char.ofNat_toNat]

theorem mem_alphabet : c ∈ alphabet ↔ isLetter c := by
  refine ⟨fun hc => ?_, fun hc => List.mem_of_getElem? (getElem?_alphabet hc)⟩
  rw [alphabet_eq_map] at hc
  obtain ⟨i, hi, rfl⟩ := List.mem_map.1 hc
  rw [List.mem_range] at hi
  rw [isLetter_iff, toNat_ofNat (by split <;> omega)]
  split <;> omega

theorem pairwise_alphabet : alphabet.Pairwise (· < ·) := by
  rw [alphabet_eq_map, List.pairwise_map]
  refine List.pairwise_lt_range.imp_of_mem fun {i j} hi hj hlt => ?_
  rw [List.mem_range] at hi hj
  rw [lt_iff_toNat_lt, toNat_ofNat (by split <;> omega), toNat_ofNat (by split <;> omega)]
  split_ifs <;> omega

/-- The letters before a character. -/
def earlier (c : Char) : List Char := alphabet.take (lowers c)

/-- The letters behind a character. -/
def later (c : Char) : List Char := alphabet.drop (lowers c + 1)

theorem alphabet_eq (hc : isLetter c) : alphabet = earlier c ++ c :: later c := by
  obtain ⟨hplace, hget⟩ := List.getElem?_eq_some_iff.1 (getElem?_alphabet hc)
  have hdrop := List.drop_eq_getElem_cons hplace
  rw [hget] at hdrop
  rw [earlier, later, ← hdrop, List.take_append_drop]

theorem length_earlier (hc : isLetter c) : (earlier c).length = lowers c := by
  have hplace := lowers_add_raises hc
  rw [earlier, List.length_take, length_alphabet]
  omega

theorem length_later (hc : isLetter c) : (later c).length = raises c := by
  have hplace := lowers_add_raises hc
  rw [later, List.length_drop, length_alphabet]
  omega

theorem lt_of_mem_earlier (hc : isLetter c) (h : a ∈ earlier c) : a < c := by
  have hsorted := pairwise_alphabet
  rw [alphabet_eq hc] at hsorted
  exact (List.pairwise_append.1 hsorted).2.2 a h c List.mem_cons_self

theorem lt_of_mem_later (hc : isLetter c) (h : a ∈ later c) : c < a := by
  have hsorted := pairwise_alphabet
  rw [alphabet_eq hc] at hsorted
  exact (List.pairwise_cons.1 (List.pairwise_append.1 hsorted).2.1).1 a h

/-- No letter stands before the first one. -/
theorem earlier_A : earlier 'A' = [] := rfl

/-- No letter stands behind the last one. -/
theorem later_z : later 'z' = [] := rfl

/-- The next letter is the first one behind a letter that can be raised. -/
theorem later_eq_cons (hc : 0 < raises c) : later c = nextLetter c :: later (nextLetter c) := by
  obtain ⟨hletter, -, hraises⟩ := nextLetter_spec hc
  have hplace := lowers_add_raises (isLetter_of_raises hc)
  have hplace' := lowers_add_raises hletter
  have hnext : lowers (nextLetter c) = lowers c + 1 := by omega
  obtain ⟨hlt, hget⟩ := List.getElem?_eq_some_iff.1 (getElem?_alphabet hletter)
  have hdrop := List.drop_eq_getElem_cons hlt
  rw [hget] at hdrop
  rw [later, later, ← hdrop, hnext]

/-- The previous letter is the last one before a letter that can be lowered. -/
theorem earlier_eq_concat (hc : 0 < lowers c) :
    earlier c = earlier (previousLetter c) ++ [previousLetter c] := by
  obtain ⟨hletter, -, hlowers⟩ := previousLetter_spec hc
  obtain ⟨hlt, hget⟩ := List.getElem?_eq_some_iff.1 (getElem?_alphabet hletter)
  rw [earlier, earlier, hlowers, List.take_succ_eq_append_getElem hlt, hget]

end TracedTree.Letters
