import Mathlib
import TracedTree.Batch.Generate
import TracedTree.Proofs.Letters

/-!
# Length searches that end

The length of a walk is searched for by summing up the spaces of all lengths until there is enough.
Here the search has no bound, so that it is undefined where it goes on for ever, and so are the
ordered batches of texts that are built on it. They end, because the sum grows by one or more with
every length past that of the string: upward because a free slot can be filled, downward because a
letter can be lowered. Whatever else stands in the string may add nothing. A descending search from
a string without such a letter gains only by dropping characters and then stands still.

## Main definitions

* `Unbounded.seekLength`: the search without a bound.
* `Unbounded.generate`: ordered batches of texts whose searches have no bound.
* `summed space start rounds`: the sum after some rounds of a search.

## Main statements

* `seekLength_eq`: a search that has enough within its fuel ends without it, with the same length.
* `dom_descendingLength_iff`: the descending searches that end.
* `searches_end`: all searches of ordered batches end.
-/

namespace TracedTree

open Letters

/-! ## Searches without a bound -/

namespace Unbounded

/-- One round of a search: it ends at a length, or goes on to the next one. -/
def seekRound (space : Nat → Nat) (enough : Nat → Bool) : Nat × Nat → Nat ⊕ Nat × Nat
  | (length, sum) =>
    if enough sum then .inl length
    else .inr (length + 1, min (sum + space (length + 1)) maxCount)

/-- The first length past a given one at which the sum of the spaces is enough, if there is one. -/
def seekLength (space : Nat → Nat) (enough : Nat → Bool) (length sum : Nat) : Part Nat :=
  PFun.fix (PFun.lift (seekRound space enough)) (length, sum)

/-- The number of slots for some strings upward. -/
def ascendingLength (count : Nat) (s : List Char) : Part Nat :=
  seekLength (ascendingSpace s) (count ≤ ·) 0 0

/-- The number of slots for some strings downward. -/
def descendingLength (count : Nat) (s : List Char) : Part Nat :=
  seekLength (descendingSpace s) (count < ·) 0 1

/-- The strings that come next. -/
def ascendingStrings (count : Nat) (start : List Char) : Part (List (List Char)) := do
  let length ← ascendingLength count start
  return walk increment count (slots start length)

/-- The strings that come before. -/
def descendingStrings (count : Nat) (start : List Char) : Part (List (List Char)) :=
  if isEndless start then do
    let length ← descendingLength count start
    return walk decrement count (slots start length)
  else return droppedStrings count start

/-- The texts that follow the last of some ascending texts. -/
def ascendingTexts (count : Nat) (existing : List (List Char)) : Part Batch := do
  let strings ← ascendingStrings count (existing.getLast?.getD [])
  return .ofAscending (strings.map Batch.textKey)

/-- The texts before the first of some ascending texts that can be lowered. -/
def descendingTexts (count : Nat) (existing : List (List Char)) (duplicates : Bool) :
    Part Batch :=
  match existing with
  | [] => do
    let above ← ascendingStrings count ['a']
    let strings ← descendingStrings count (above.getLast?.getD [])
    return .ofDescending (strings.map Batch.textKey)
  | first :: _ => do
    let (start, collisions) := Batch.descentFrom first existing duplicates
    let strings ← descendingStrings (count + collisions.length) start
    return .ofDescending
      (((strings.filter (!collisions.contains ·)).take count).map Batch.textKey)

/-- Generate texts in ascending or in descending order. -/
def generate (count : Nat) (descending : Bool) (existing : List Key) (duplicates : Bool) :
    Part (Except Error Batch) :=
  if count = 0 then return .error (.invalidGeneration .noCount)
  else match existing.find? (·.kind != .text) with
    | some key => return .error (.kindMismatch .text key.kind)
    | none =>
      let texts := (existing.filterMap Key.text?).map Batch.unquoted
      .ok <$> if descending then descendingTexts count texts duplicates
        else ascendingTexts count texts

end Unbounded

variable {space : Nat → Nat} {enough : Nat → Bool} {start bound count length fuel rounds : Nat}
  {s : List Char}

/-! ## Rounds of a search -/

/-- The sum after some rounds. -/
def summed (space : Nat → Nat) (start : Nat) : Nat → Nat
  | 0 => start
  | rounds + 1 => min (summed space start rounds + space (rounds + 1)) maxCount

/-- Where every length past a bound adds something, the sum grows up to the largest count. -/
theorem le_summed (hspace : ∀ length, bound < length → 0 < space length) (hstart : start ≤ maxCount)
    (rounds : Nat) : min (start + (rounds - bound)) maxCount ≤ summed space start rounds := by
  induction rounds with
  | zero =>
      rw [summed]
      omega
  | succ rounds ih =>
      rw [summed]
      by_cases hpast : bound < rounds + 1
      · have := hspace _ hpast
        omega
      · omega

theorem seekLength_of_enough {sum : Nat} (h : enough sum) :
    Unbounded.seekLength space enough length sum = Part.some length := by
  refine Part.eq_some_iff.2 (PFun.fix_stop (Part.mem_some_iff.2 ?_))
  rw [Unbounded.seekRound, if_pos h]

theorem seekLength_of_not_enough {sum : Nat} (h : ¬ enough sum) :
    Unbounded.seekLength space enough length sum =
      Unbounded.seekLength space enough (length + 1) (min (sum + space (length + 1)) maxCount) := by
  refine PFun.fix_fwd_eq (Part.mem_some_iff.2 ?_)
  rw [Unbounded.seekRound, if_neg h]

/-- A search that has enough when its fuel is used up needs none of it. -/
theorem seekLength_eq (h : enough (summed space start (length + fuel))) :
    Unbounded.seekLength space enough length (summed space start length) =
      Part.some (searchLength space enough fuel length (summed space start length)) := by
  induction fuel generalizing length with
  | zero =>
      rw [Nat.add_zero] at h
      rw [seekLength_of_enough h, searchLength]
  | succ fuel ih =>
      rw [searchLength]
      split
      · rename_i henough
        rw [seekLength_of_enough henough]
      · rename_i hmissing
        rw [seekLength_of_not_enough hmissing]
        exact ih (by rwa [Nat.add_assoc, Nat.add_comm 1 fuel])

/-- A search that ends has enough after some rounds. -/
theorem exists_enough
    (h : (Unbounded.seekLength space enough length (summed space start length)).Dom) :
    ∃ rounds, enough (summed space start rounds) := by
  have hend := PFun.fixInduction' (C := fun round => round.2 = summed space start round.1 →
    ∃ rounds, enough (summed space start rounds)) (Part.get_mem h) ?_ ?_
  · exact hend rfl
  · intro ⟨length, sum⟩ hlast hsum
    rw [PFun.coe_val, Part.mem_some_iff, Unbounded.seekRound] at hlast
    split at hlast
    · rename_i henough
      exact ⟨length, hsum ▸ henough⟩
    · cases hlast
  · intro ⟨length, sum⟩ next _ hround ih hsum
    rw [PFun.coe_val, Part.mem_some_iff, Unbounded.seekRound] at hround
    split at hround
    · cases hround
    · obtain rfl := Sum.inr.inj hround
      exact ih (congrArg (fun sum => min (sum + space (length + 1)) maxCount) hsum)

/-! ## What a length adds -/

theorem power_pos (length : Nat) : 0 < power length := by
  have hpow : 0 < 52 ^ min length 23 := Nat.pow_pos (by decide)
  have hmax : 0 < maxCount := by decide
  rw [power]
  exact Nat.lt_min.2 ⟨hpow, hmax⟩

/-- A free slot can be filled. -/
theorem ascendingSpace_pos (h : s.length < length) : 0 < ascendingSpace s length := by
  have hfree : 0 < (slots s length).countP Option.isNone := by
    rw [slots_eq, countP_isNone]
    omega
  have hpower := power_pos ((slots s length).countP Option.isNone)
  have hmax : 0 < maxCount := by decide
  simp only [ascendingSpace, if_pos hfree]
  omega

/-- A slot adds by what it can be lowered; an empty one and any other character add nothing. -/
theorem loweredCount_cons (slot : Option Char) (rest : Slots) :
    loweredCount (slot :: rest) =
      min (min (slot.elim 0 lowers * power rest.length) maxCount + loweredCount rest) maxCount := by
  cases slot with
  | none => simp [loweredCount]
  | some c =>
      have hunfold : loweredCount (some c :: rest) =
          min (min (if isLetter c && c != 'A' then lowers c * power rest.length else 0) maxCount +
            loweredCount rest) maxCount := rfl
      rw [hunfold, Option.elim_some]
      split
      · rfl
      · rename_i hkeep
        rw [← lowers_pos_iff, Nat.not_lt, Nat.le_zero] at hkeep
        rw [hkeep, Nat.zero_mul]

/-- A letter that can be lowered is. -/
theorem loweredCount_pos {slots : Slots} {c : Char} (hc : some c ∈ slots) (hlower : 0 < lowers c) :
    0 < loweredCount slots := by
  have hmax : 0 < maxCount := by decide
  induction slots with
  | nil => cases hc
  | cons slot rest ih =>
      rw [loweredCount_cons]
      rcases List.mem_cons.1 hc with rfl | hc
      · have hown := Nat.mul_pos hlower (power_pos rest.length)
        rw [Option.elim_some]
        omega
      · have := ih hc
        omega

/-- No other character is lowered. -/
theorem loweredCount_eq_zero {slots : Slots} (h : ∀ c, some c ∈ slots → lowers c = 0) :
    loweredCount slots = 0 := by
  induction slots with
  | nil => rfl
  | cons slot rest ih =>
      have hslot : slot.elim 0 lowers = 0 := by
        cases slot with
        | none => rfl
        | some c => exact h c List.mem_cons_self
      rw [loweredCount_cons, hslot, ih fun c hc => h c (List.mem_cons_of_mem slot hc), Nat.zero_mul]
      simp

theorem some_mem_slots {c : Char} : some c ∈ slots s length ↔ c ∈ s.take length := by
  simp [slots, -List.map_take]

theorem descendingSpace_pos (hs : isEndless s) (h : s.length ≤ length) :
    0 < descendingSpace s length := by
  obtain ⟨c, hc, hlower⟩ := List.any_eq_true.1 hs
  have hmem : some c ∈ slots s length := by
    rw [some_mem_slots, List.take_of_length_le h]
    exact hc
  have hlowered := loweredCount_pos hmem (lowers_pos_iff.2 hlower)
  have hmax : 0 < maxCount := by decide
  rw [descendingSpace]
  omega

/-! ## Searches that end -/

/-- An ascending search ends. -/
theorem ascendingLength_eq (hcount : count ≤ maxCount) (s : List Char) :
    Unbounded.ascendingLength count s = Part.some (Letters.ascendingLength count s) := by
  have hsum := le_summed (fun length => ascendingSpace_pos (s := s)) (Nat.zero_le maxCount)
    (0 + (s.length + count + 1))
  exact seekLength_eq (decide_eq_true (by omega))

/-- A descending search from an endless string ends. -/
theorem descendingLength_eq (hcount : count < maxCount) (hs : isEndless s) :
    Unbounded.descendingLength count s = Part.some (Letters.descendingLength count s) := by
  have hstart : 1 ≤ maxCount := by decide
  have hspace : ∀ length, s.length < length → 0 < descendingSpace s length := fun length h =>
    descendingSpace_pos hs (Nat.le_of_lt h)
  have hsum := le_summed hspace hstart (0 + (s.length + count + 1))
  exact seekLength_eq (decide_eq_true (by omega))

/-- From any other string a descending search counts the strings that are left when characters are
dropped, as many as there are characters, and the empty string. -/
theorem summed_descendingSpace (hs : ¬ isEndless s) (rounds : Nat) :
    summed (descendingSpace s) 1 rounds = min (max 1 (min (rounds + 1) s.length)) maxCount := by
  have hmax : 1 ≤ maxCount := by decide
  induction rounds with
  | zero =>
      rw [summed]
      omega
  | succ rounds ih =>
      have hlowered : loweredCount (slots s (rounds + 1)) = 0 := by
        refine loweredCount_eq_zero fun c hc => ?_
        have hmem := List.mem_of_mem_take (some_mem_slots.1 hc)
        by_contra hlower
        exact hs (List.any_eq_true.2 ⟨c, hmem, lowers_pos_iff.1 (Nat.pos_of_ne_zero hlower)⟩)
      rw [summed, ih, descendingSpace, hlowered]
      split <;> omega

/-- **The descending searches that end.** Without a letter to lower, a search ends only if fewer
strings are wanted than characters can be dropped. -/
theorem dom_descendingLength_iff (hcount : count < maxCount) :
    (Unbounded.descendingLength count s).Dom ↔ isEndless s ∨ count < max 1 s.length := by
  by_cases hs : isEndless s
  · rw [descendingLength_eq hcount hs]
    exact iff_of_true trivial (.inl hs)
  · rw [or_iff_right hs]
    constructor
    · intro h
      obtain ⟨rounds, henough⟩ := exists_enough h
      have hsum := of_decide_eq_true henough
      rw [summed_descendingSpace hs] at hsum
      omega
    · intro h
      have hsum := summed_descendingSpace hs (0 + s.length)
      have hseek : Unbounded.descendingLength count s =
          Part.some (searchLength (descendingSpace s) (count < ·) s.length 0 1) :=
        seekLength_eq (decide_eq_true (by omega))
      rw [hseek]
      exact trivial

/-! ## Batches that are returned -/

theorem ascendingStrings_eq (hcount : count ≤ maxCount) (start : List Char) :
    Unbounded.ascendingStrings count start = Part.some (Letters.ascendingStrings count start) := by
  rw [Unbounded.ascendingStrings, ascendingLength_eq hcount]
  exact Part.bind_some ..

theorem descendingStrings_eq (hcount : count < maxCount) (start : List Char) :
    Unbounded.descendingStrings count start =
      Part.some (Letters.descendingStrings count start) := by
  rw [Unbounded.descendingStrings, Letters.descendingStrings]
  split
  · rename_i hendless
    rw [descendingLength_eq hcount hendless]
    exact Part.bind_some ..
  · rfl

theorem ascendingTexts_eq (hcount : count ≤ maxCount) (texts : List (List Char)) :
    Unbounded.ascendingTexts count texts = Part.some (Batch.ascendingTexts count texts) := by
  rw [Unbounded.ascendingTexts, ascendingStrings_eq hcount]
  exact Part.bind_some ..

/-- What a descending batch is to avoid is part of what exists. -/
theorem length_descentFrom_le (first : List Char) (texts : List (List Char)) (duplicates : Bool) :
    (Batch.descentFrom first texts duplicates).2.length ≤ texts.length := by
  rw [Batch.descentFrom]
  split
  · split
    · exact Nat.zero_le _
    · exact List.length_take_le' ..
  · split
    · exact Nat.zero_le _
    · exact (List.takeWhile_sublist _).length_le

theorem descendingTexts_eq {texts : List (List Char)} (hcount : count + texts.length < maxCount)
    (duplicates : Bool) :
    Unbounded.descendingTexts count texts duplicates =
      Part.some (Batch.descendingTexts count texts duplicates) := by
  cases texts with
  | nil =>
      rw [List.length_nil, Nat.add_zero] at hcount
      rw [Unbounded.descendingTexts, ascendingStrings_eq (Nat.le_of_lt hcount)]
      simp only [Part.bind_eq_bind, Part.bind_some]
      rw [descendingStrings_eq hcount, Part.bind_some]
      rfl
  | cons first texts =>
      have havoided := length_descentFrom_le first (first :: texts) duplicates
      simp only [Unbounded.descendingTexts]
      rw [descendingStrings_eq (Nat.lt_of_le_of_lt (Nat.add_le_add_left havoided count) hcount)]
      exact Part.bind_some ..

/-- **Ordered batches of texts are returned.** The ascending search ends for every string, and the
descending one for every endless string, with any characters in it; from another string it ends only
where dropping characters is enough. It is started from endless strings alone, so the batches end as
well, and the fuel of the searches plays no part. What is wanted and what exists are counted in
64-bit words. -/
theorem searches_end (hcount : count < 2 ^ 64) :
    (∀ s, Unbounded.ascendingLength count s = Part.some (Letters.ascendingLength count s)) ∧
    (∀ s, isEndless s →
      Unbounded.descendingLength count s = Part.some (Letters.descendingLength count s)) ∧
    (∀ s, (Unbounded.descendingLength count s).Dom ↔ isEndless s ∨ count < max 1 s.length) ∧
    ∀ (descending : Bool) (existing : List Key) (duplicates : Bool) (supply : Supply),
      existing.length < 2 ^ 64 →
      Unbounded.generate count descending existing duplicates =
        Part.some (Batch.generate count (if descending then .descending else .ascending) .text
          existing duplicates supply) := by
  have hmax : 2 ^ 64 + 2 ^ 64 < maxCount := by decide
  refine ⟨ascendingLength_eq (by omega), fun s => descendingLength_eq (by omega),
    fun s => dom_descendingLength_iff (by omega), ?_⟩
  intro descending existing duplicates supply hexisting
  have htexts : ((existing.filterMap Key.text?).map Batch.unquoted).length ≤ existing.length := by
    rw [List.length_map]
    exact List.length_filterMap_le ..
  simp only [Unbounded.generate, Batch.generate]
  split
  · rfl
  cases hother : existing.find? (·.kind != .text) with
  | some key => rfl
  | none =>
      cases descending with
      | false =>
          simp only [Bool.false_eq_true, if_false]
          rw [ascendingTexts_eq (by omega)]
          rfl
      | true =>
          simp only [if_true]
          rw [descendingTexts_eq (by omega)]
          rfl

/-- Strings with a leading `A`, signs and a character past the letters, and a descending batch that
starts at such a one and meets another. -/
theorem searches_end_signs :
    let s := ['A', '$', 'é', 'b']
    let existing : List Key := [.text "\"A\"", .text "\"A$éb\""]
    60 < 2 ^ 64 ∧ Unbounded.ascendingLength 60 s = Part.some (Letters.ascendingLength 60 s) ∧
    isEndless s ∧ Unbounded.descendingLength 60 s = Part.some (Letters.descendingLength 60 s) ∧
    ((Unbounded.descendingLength 60 s).Dom ↔ isEndless s ∨ 60 < max 1 s.length) ∧
    existing.length < 2 ^ 64 ∧
    Unbounded.generate 60 true existing false =
      Part.some (Batch.generate 60 .descending .text existing false (.seeded 1)) := by
  intro s existing
  have hcount : 60 < 2 ^ 64 := by decide
  have hexisting : existing.length < 2 ^ 64 := by decide
  obtain ⟨hascending, hdescending, hends, hbatch⟩ := searches_end hcount
  exact ⟨hcount, hascending s, by decide, hdescending s (by decide), hends s, hexisting,
    hbatch true existing false (.seeded 1) hexisting⟩

end TracedTree
