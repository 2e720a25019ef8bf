import Mathlib
import TracedTree.Proofs.Alphabet

/-!
# Walks through strings of letters

An ascending walk leads from each string to one that follows it, and a descending walk from an
endless string to smaller and smaller ones. Neither comes to a halt: `ascents` and `descents` count
the steps that are left, each step lowers the count by one, and the lengths that the walks choose
leave enough of them, although the sums they are chosen by saturate.

## Main definitions

* `stretch cs free`: the slots of a walk, some characters with free slots behind them.
* `ascents`, `descents`: how often such slots can be stepped up or down.
* `Follows s t`: the second string is a later one on an ascending walk.

## Main statements

* `exists_increment`, `exists_decrement`: what a step does while one is left.
* `le_ascentsAt`, `le_descentsAt`: the chosen lengths are long enough.
* `isChain_ascendingStrings`, `pairwise_descendingStrings`: the strings of a walk.
-/

namespace TracedTree.Letters

variable {a c : Char} {cs p q : List Char} {free : Nat}

/-! ## Single steps -/

/-- Some characters with free slots behind them. -/
def stretch (cs : List Char) (free : Nat) : Slots := cs.map some ++ List.replicate free none

theorem slots_eq (s : List Char) (length : Nat) :
    slots s length = stretch (s.take length) (length - s.length) := rfl

@[simp] theorem filled_stretch (cs : List Char) (free : Nat) : filled (stretch cs free) = cs := by
  have hmap : (cs.map some).reduceOption = cs := by
    induction cs with
    | nil => rfl
    | cons c cs ih => simp [ih]
  simp [filled, stretch, List.reduceOption_append, hmap]

theorem lastIdx?_append_cons {α : Type} {f : α → Bool} (xs : List α) {ys : List α} {x : α}
    (hx : f x) (hys : ∀ y ∈ ys, ¬ f y) : lastIdx? f (xs ++ x :: ys) = some xs.length := by
  have hnone : ys.reverse.findIdx? f = none := by simpa using hys
  simp [lastIdx?, List.findIdx?_append, List.findIdx?_cons, hnone, hx]

/-- With a free slot the string gets longer. -/
theorem increment_free (cs : List Char) (free : Nat) :
    increment (stretch cs (free + 1)) = stretch (cs ++ ['A']) free := by
  have hfind : (stretch cs (free + 1)).findIdx? (·.isNone) = some cs.length := by
    have hnone : (cs.map some).findIdx? (·.isNone) = none := by simp
    simp [stretch, List.findIdx?_append, List.replicate_succ, List.findIdx?_cons, hnone]
  rw [increment, hfind]
  simp [stretch, List.replicate_succ]

/-- Without a free slot the last letter that can be raised is, and the slots behind it get free. -/
theorem increment_full (ha : 0 < raises a) (hq : ∀ c ∈ q, raises c = 0) :
    increment (stretch (p ++ a :: q) 0) = stretch (p ++ [nextLetter a]) q.length := by
  have hfind : (stretch (p ++ a :: q) 0).findIdx? (·.isNone) = none := by simp [stretch]
  have hbehind : ∀ slot ∈ q.map some, ¬ canRaise slot := by
    intro slot hslot
    obtain ⟨c, hc, rfl⟩ := List.mem_map.1 hslot
    have hzero := hq c hc
    exact fun h => absurd (raises_pos_iff.2 h) (by omega)
  have hraise : canRaise (some a) := raises_pos_iff.1 ha
  have hlast : lastIdx? canRaise (stretch (p ++ a :: q) 0) = some p.length := by
    simpa [stretch] using lastIdx?_append_cons (p.map some) hraise hbehind
  have hfree : p.length + (q.length + 1) - (p.length + 1) = q.length := by omega
  rw [increment, hfind]
  simp only [hlast]
  simp [stretch, hfree]

theorem lastIdx?_stretch (p : List Char) (a : Char) (free : Nat) :
    lastIdx? Option.isSome (stretch (p ++ [a]) free) = some p.length ∧
      (stretch (p ++ [a]) free)[p.length]? = some (some a) := by
  have hfree : ∀ slot ∈ List.replicate free (none : Option Char), ¬ slot.isSome := by simp
  have htaken : (some a).isSome := rfl
  exact ⟨by simpa [stretch] using lastIdx?_append_cons (p.map some) htaken hfree,
    by simp [stretch]⟩

/-- A last letter that can be lowered is, and the free slots are filled. -/
theorem decrement_lower (ha : 0 < lowers a) (free : Nat) :
    decrement (stretch (p ++ [a]) free) =
      stretch (p ++ previousLetter a :: List.replicate free 'z') 0 := by
  obtain ⟨hlast, hget⟩ := lastIdx?_stretch p a free
  rw [decrement, hlast]
  simp only [hget, Option.join, Option.bind, id, lowers_pos_iff.1 ha, if_true]
  simp [stretch]

/-- Any other last character is dropped. -/
theorem decrement_drop (ha : lowers a = 0) (free : Nat) :
    decrement (stretch (p ++ [a]) free) = stretch p (free + 1) := by
  obtain ⟨hlast, hget⟩ := lastIdx?_stretch p a free
  have hkeep : ¬ (isLetter a && a != 'A') = true := by
    rw [← lowers_pos_iff]
    omega
  rw [decrement, hlast]
  simp only [hget, Option.join, Option.bind, id, hkeep]
  simp [stretch, List.replicate_succ]

/-! ## Counting the steps that are left -/

/-- How many strings other than the empty one fit into free slots. -/
def room : Nat → Nat
  | 0 => 0
  | free + 1 => 52 * (room free + 1)

theorem room_succ (free : Nat) : room (free + 1) = room free + 52 ^ (free + 1) := by
  induction free with
  | zero => rfl
  | succ free ih =>
      have hstep : room (free + 1 + 1) = 52 * (room (free + 1) + 1) := rfl
      have hlast : room (free + 1) = 52 * (room free + 1) := rfl
      have hpow : 52 ^ (free + 1 + 1) = 52 * 52 ^ (free + 1) := Nat.pow_succ'
      omega

theorem le_room (free : Nat) : free ≤ room free := by
  induction free with
  | zero => exact Nat.zero_le _
  | succ free ih =>
      have hstep : room (free + 1) = 52 * (room free + 1) := rfl
      omega

/-- The sum over some characters of a count of their own times a count for the slots behind. -/
def spread (own : Char → Nat) (behind : Nat → Nat) : List Char → Nat → Nat
  | [], _ => 0
  | c :: cs, free => own c * behind (cs.length + free) + spread own behind cs free

/-- How often some characters with free slots behind them can be stepped up. -/
def ascents (cs : List Char) (free : Nat) : Nat :=
  spread raises (room · + 1) cs free + room free

/-- How often some characters with free slots behind them can be stepped down. -/
def descents (cs : List Char) (free : Nat) : Nat :=
  spread lowers (room · + 1) cs free + cs.length

section Spread

variable {own : Char → Nat} {behind : Nat → Nat}

theorem spread_append (p q : List Char) (free : Nat) :
    spread own behind (p ++ q) free =
      spread own behind p (q.length + free) + spread own behind q free := by
  induction p with
  | nil => simp [spread]
  | cons c p ih => simp [spread, ih, Nat.add_assoc]

theorem spread_eq_zero (h : ∀ c ∈ q, own c = 0) (free : Nat) : spread own behind q free = 0 := by
  induction q with
  | nil => rfl
  | cons c q ih =>
      have hq := ih fun d hd => h d (List.mem_cons_of_mem c hd)
      simp [spread, h c List.mem_cons_self, hq]

/-- One more free slot. -/
theorem spread_succ (own : Char → Nat) (cs : List Char) (free : Nat) :
    spread own (room · + 1) cs (free + 1) =
      spread own (room · + 1) cs free + spread own (52 ^ ·) cs (free + 1) := by
  induction cs with
  | nil => rfl
  | cons c cs ih =>
      have hroom : room (cs.length + (free + 1)) + 1 =
          room (cs.length + free) + 1 + 52 ^ (cs.length + (free + 1)) := by
        have h := room_succ (cs.length + free)
        rw [← Nat.add_assoc, h]
        omega
      simp only [spread, hroom, ih, Nat.mul_add]
      omega

theorem le_spread (hc : c ∈ cs) (hown : 0 < own c) (free : Nat) :
    free ≤ spread own (room · + 1) cs free := by
  induction cs with
  | nil => cases hc
  | cons d cs ih =>
      rw [spread]
      rcases List.mem_cons.1 hc with rfl | hc
      · have hroom := le_room (cs.length + free)
        have hmul : 1 * (room (cs.length + free) + 1) ≤ own c * (room (cs.length + free) + 1) :=
          Nat.mul_le_mul_right _ hown
        omega
      · have := ih hc
        omega

end Spread

/-! Each of the four kinds of steps lowers its count by one: what then fits behind the character
that changes makes up for all but one of the strings that the change takes away. -/

theorem ascents_free (cs : List Char) (free : Nat) :
    ascents cs (free + 1) = ascents (cs ++ ['A']) free + 1 := by
  have hA : raises 'A' = 51 := by decide
  have hlength : 1 + free = free + 1 := Nat.add_comm ..
  simp only [ascents, spread_append, spread, List.length_cons, List.length_nil, hA, hlength,
    room, Nat.add_zero, Nat.zero_add]
  omega

theorem ascents_full (ha : 0 < raises a) (hq : ∀ c ∈ q, raises c = 0) :
    ascents (p ++ a :: q) 0 = ascents (p ++ [nextLetter a]) q.length + 1 := by
  have hnext := (nextLetter_spec ha).2.2
  have hlength : q.length + 1 = 1 + q.length := Nat.add_comm ..
  simp only [ascents, spread_append, spread, spread_eq_zero hq, List.length_cons, List.length_nil,
    hnext, hlength, room, Nat.add_zero, Nat.zero_add, Nat.add_mul]
  omega

/-- Letters `z` in all slots stand above every other string that fits there. -/
theorem spread_z (free : Nat) :
    spread lowers (room · + 1) (List.replicate free 'z') 0 + free = room free := by
  have hz : lowers 'z' = 51 := by decide
  induction free with
  | zero => rfl
  | succ free ih =>
      simp only [List.replicate_succ, spread, List.length_replicate, hz, Nat.add_zero, room]
      omega

theorem descents_lower (ha : 0 < lowers a) (free : Nat) :
    descents (p ++ [a]) free =
      descents (p ++ previousLetter a :: List.replicate free 'z') 0 + 1 := by
  have hprevious := (previousLetter_spec ha).2.2
  have hz := spread_z free
  have hlength : 1 + free = free + 1 := Nat.add_comm ..
  simp only [descents, spread_append, spread, List.length_cons, List.length_append,
    List.length_nil, List.length_replicate, hprevious, hlength, Nat.add_zero, Nat.zero_add,
    Nat.add_mul]
  omega

theorem descents_drop (ha : lowers a = 0) (free : Nat) :
    descents (p ++ [a]) free = descents p (free + 1) + 1 := by
  have hlength : 1 + free = free + 1 := Nat.add_comm ..
  simp only [descents, spread_append, spread, List.length_cons, List.length_append,
    List.length_nil, ha, hlength, Nat.zero_mul, Nat.add_zero, Nat.zero_add]
  omega

/-! ## Lengths that are long enough -/

theorem power_le (length : Nat) : power length ≤ 52 ^ length :=
  Nat.le_trans (Nat.min_le_left ..) (Nat.pow_le_pow_right (by decide) (Nat.min_le_left ..))

theorem countP_isOpen_le (cs : List Char) (free : Nat) :
    (stretch cs free).countP isOpen ≤ cs.length + free := by
  have h := List.countP_le_length (p := isOpen) (l := stretch cs free)
  simpa [stretch] using h

theorem raisedCount_free (free : Nat) : raisedCount (List.replicate free none) = 0 := by
  induction free with
  | zero => rfl
  | succ free ih => simp [List.replicate_succ, raisedCount, ih]

theorem loweredCount_free (free : Nat) : loweredCount (List.replicate free none) = 0 := by
  induction free with
  | zero => rfl
  | succ free ih => simp [List.replicate_succ, loweredCount, ih]

theorem raisedCount_le (cs : List Char) (free : Nat) :
    raisedCount (stretch cs free) ≤ spread raises (52 ^ ·) cs free := by
  induction cs with
  | nil => simp [stretch, raisedCount_free]
  | cons c cs ih =>
      have hpower : power ((stretch cs free).countP isOpen) ≤ 52 ^ (cs.length + free) :=
        Nat.le_trans (power_le _)
          (Nat.pow_le_pow_right (by decide) (countP_isOpen_le cs free))
      have hmul := Nat.mul_le_mul_left (raises c) hpower
      have hunfold : raisedCount (stretch (c :: cs) free) =
          min (raisedCount (stretch cs free) + min (if isLetter c then
            raises c * power ((stretch cs free).countP isOpen) else 0) maxCount) maxCount := rfl
      rw [hunfold, spread]
      split <;> omega

theorem loweredCount_le (cs : List Char) (free : Nat) :
    loweredCount (stretch cs free) ≤ spread lowers (52 ^ ·) cs free := by
  induction cs with
  | nil => simp [stretch, loweredCount_free]
  | cons c cs ih =>
      have hlength : (stretch cs free).length = cs.length + free := by simp [stretch]
      have hmul := Nat.mul_le_mul_left (lowers c) (power_le (cs.length + free))
      have hunfold : loweredCount (stretch (c :: cs) free) =
          min (min (if isLetter c && c != 'A' then
            lowers c * power (stretch cs free).length else 0) maxCount +
              loweredCount (stretch cs free)) maxCount := rfl
      rw [hunfold, hlength, spread]
      split <;> omega

/-- The slots of one length more hold one more character, or one more free slot. -/
theorem slots_succ_cases (s : List Char) (length : Nat) :
    (∃ c, s.take (length + 1) = s.take length ++ [c] ∧ length < s.length ∧
      length - s.length = 0 ∧ length + 1 - s.length = 0) ∨
    (s.take length = s ∧ s.take (length + 1) = s ∧ s.length ≤ length ∧
      length + 1 - s.length = length - s.length + 1) := by
  by_cases hlt : length < s.length
  · exact .inl ⟨s[length], List.take_succ_eq_append_getElem hlt, hlt, by omega, by omega⟩
  · exact .inr ⟨List.take_of_length_le (by omega), List.take_of_length_le (by omega), by omega,
      by omega⟩

/-- How often a string can be stepped up in the slots of a length. -/
def ascentsAt (s : List Char) (length : Nat) : Nat := ascents (s.take length) (length - s.length)

/-- How often a string can be stepped down in the slots of a length. -/
def descentsAt (s : List Char) (length : Nat) : Nat := descents (s.take length) (length - s.length)

/-- How many more steps up there are with the last slot of a length than without it. -/
def ascentsGained (s : List Char) (length : Nat) : Nat :=
  (if 0 < length - s.length then 52 ^ (length - s.length) else 0) +
    spread raises (52 ^ ·) (s.take length) (length - s.length)

/-- How many more steps down there are with the last slot of a length than without it. -/
def descentsGained (s : List Char) (length : Nat) : Nat :=
  (if length ≤ s.length then 1 else 0) +
    spread lowers (52 ^ ·) (s.take length) (length - s.length)

theorem ascentsAt_succ (s : List Char) (length : Nat) :
    ascentsAt s (length + 1) = ascentsAt s length + ascentsGained s (length + 1) := by
  rw [ascentsGained]
  rcases slots_succ_cases s length with ⟨c, htake, -, hzero, hzero'⟩ | ⟨htake, htake', -, hnext⟩
  · have hsucc := spread_succ raises (s.take length) 0
    simp only [ascentsAt, ascents, htake, hzero, hzero', spread_append, spread, List.length_cons,
      List.length_nil, Nat.add_zero, Nat.zero_add, room, Nat.pow_zero] at hsucc ⊢
    rw [if_neg (by decide)]
    omega
  · have hsucc := spread_succ raises s (length - s.length)
    have hroom := room_succ (length - s.length)
    simp only [ascentsAt, ascents, htake, htake', hnext, hsucc, hroom]
    rw [if_pos (by omega)]
    omega

theorem descentsAt_succ (s : List Char) (length : Nat) :
    descentsAt s (length + 1) = descentsAt s length + descentsGained s (length + 1) := by
  rw [descentsGained]
  rcases slots_succ_cases s length with ⟨c, htake, hlt, hzero, hzero'⟩ | ⟨htake, htake', hle, hnext⟩
  · have hsucc := spread_succ lowers (s.take length) 0
    simp only [descentsAt, descents, htake, hzero, hzero', spread_append, spread,
      List.length_append, List.length_cons, List.length_nil, Nat.add_zero, Nat.zero_add, room,
      Nat.pow_zero] at hsucc ⊢
    rw [if_pos (by omega)]
    omega
  · have hsucc := spread_succ lowers s (length - s.length)
    simp only [descentsAt, descents, htake, htake', hnext, hsucc]
    rw [if_neg (by omega)]
    omega

theorem countP_isNone (cs : List Char) (free : Nat) :
    (stretch cs free).countP Option.isNone = free := by
  simp [stretch, List.countP_append, List.countP_replicate]

theorem ascendingSpace_le (s : List Char) (length : Nat) :
    ascendingSpace s length ≤ ascentsGained s length := by
  have hraised := raisedCount_le (s.take length) (length - s.length)
  have hpower := power_le (length - s.length)
  simp only [ascendingSpace, ascentsGained, slots_eq, countP_isNone]
  split <;> omega

theorem descendingSpace_le (s : List Char) (length : Nat) :
    descendingSpace s length ≤ descentsGained s length := by
  have hlowered := loweredCount_le (s.take length) (length - s.length)
  simp only [descendingSpace, descentsGained, slots_eq]
  split <;> split <;> omega

/-- A search ends at a length up to which there is enough, or when its fuel is used up. The spaces
are summed up, so what there is in all is at least their sum. -/
theorem searchLength_spec {space total : Nat → Nat}
    (hspace : ∀ length, total length + space (length + 1) ≤ total (length + 1))
    (enough : Nat → Bool) (fuel : Nat) {length sum : Nat} (hsum : sum ≤ total length) :
    (∃ sum' ≤ total (searchLength space enough fuel length sum), enough sum') ∨
      searchLength space enough fuel length sum = length + fuel := by
  induction fuel generalizing length sum with
  | zero => exact .inr rfl
  | succ fuel ih =>
      rw [searchLength]
      split
      · exact .inl ⟨sum, hsum, by assumption⟩
      · have hnext : min (sum + space (length + 1)) maxCount ≤ total (length + 1) :=
          Nat.le_trans (Nat.min_le_left ..)
            (Nat.le_trans (Nat.add_le_add_right hsum _) (hspace length))
        rcases ih hnext with h | h
        · exact .inl h
        · exact .inr (by omega)

/-- The slots of an ascending walk have room for it. -/
theorem le_ascentsAt (count : Nat) (s : List Char) :
    count ≤ ascentsAt s (ascendingLength count s) := by
  have hspace : ∀ length, ascentsAt s length + ascendingSpace s (length + 1) ≤
      ascentsAt s (length + 1) := by
    intro length
    rw [ascentsAt_succ]
    exact Nat.add_le_add_left (ascendingSpace_le s (length + 1)) _
  have hstart : 0 ≤ ascentsAt s 0 := Nat.zero_le _
  rcases searchLength_spec hspace (count ≤ ·) (s.length + count + 1) hstart with
    ⟨sum, hsum, henough⟩ | hfuel
  · exact Nat.le_trans (of_decide_eq_true henough) hsum
  · rw [ascendingLength, hfuel, ascentsAt, ascents]
    have := le_room (0 + (s.length + count + 1) - s.length)
    omega

/-- The slots of a descending walk from an endless string have room for it. -/
theorem le_descentsAt (count : Nat) {s : List Char} (hs : isEndless s) :
    count ≤ descentsAt s (descendingLength count s) := by
  obtain ⟨c, hc, hlower⟩ := List.any_eq_true.1 hs
  have hspace : ∀ length, (descentsAt s length + 1) + descendingSpace s (length + 1) ≤
      descentsAt s (length + 1) + 1 := by
    intro length
    have := descendingSpace_le s (length + 1)
    rw [descentsAt_succ]
    omega
  have hstart : 1 ≤ descentsAt s 0 + 1 := Nat.le_add_left ..
  rcases searchLength_spec hspace (count < ·) (s.length + count + 1) hstart with
    ⟨sum, hsum, henough⟩ | hfuel
  · have := of_decide_eq_true henough
    exact Nat.le_of_lt_succ (Nat.lt_of_lt_of_le this hsum)
  · rw [descendingLength, hfuel, descentsAt, descents, List.take_of_length_le (by omega)]
    have := le_spread hc (lowers_pos_iff.2 hlower) (0 + (s.length + count + 1) - s.length)
    omega

/-! ## Walks -/

/-- The second string goes on with a letter where the first one ends, or has a greater letter where
they differ. -/
inductive Follows : List Char → List Char → Prop where
  | longer (s : List Char) {c : Char} (rest : List Char) (hc : isLetter c) :
      Follows s (s ++ c :: rest)
  | greater (p : List Char) {a b : Char} (q r : List Char) (ha : isLetter a) (hb : isLetter b)
      (hab : a < b) : Follows (p ++ a :: q) (p ++ b :: r)

/-- Strings that follow each other are in order with a quote behind both. -/
theorem Follows.lt {s t : List Char} (h : Follows s t) : s ++ ['"'] < t ++ ['"'] := by
  cases h with
  | longer _ rest hc =>
      rw [List.append_assoc, List.cons_append]
      exact List.append_left_lt (List.cons_lt_cons_iff.2 (.inl (le_letter hc).1))
  | greater p q r ha hb hab =>
      rw [List.append_assoc, List.append_assoc, List.cons_append, List.cons_append]
      exact List.append_left_lt (List.cons_lt_cons_iff.2 (.inl hab))

/-- A string that follows an endless one is endless. -/
theorem Follows.isEndless {s t : List Char} (h : Follows s t) (hs : isEndless s) :
    isEndless t := by
  cases h with
  | longer _ rest hc =>
      simp only [Letters.isEndless, List.any_append, Bool.or_eq_true] at hs ⊢
      exact .inl hs
  | greater p q r ha hb hab =>
      refine List.any_eq_true.2 ⟨_, List.mem_append_right _ List.mem_cons_self, ?_⟩
      simp only [hb, Bool.true_and, bne_iff_ne, ne_eq]
      rintro rfl
      exact Char.not_lt.2 (le_letter ha).2 hab

/-- While a step up is left, a slot is free, or a letter can be raised and is the last such one. -/
theorem increment_cases (h : 0 < ascents cs free) :
    (∃ free', free = free' + 1) ∨
      free = 0 ∧ ∃ p a q, cs = p ++ a :: q ∧ 0 < raises a ∧ ∀ c ∈ q, raises c = 0 := by
  cases free with
  | succ free => exact .inl ⟨free, rfl⟩
  | zero =>
      refine .inr ⟨rfl, ?_⟩
      cases hlast : cs.reverse.find? fun c => decide (0 < raises c) with
      | none =>
          have hzero : ∀ c ∈ cs, raises c = 0 := by simpa using hlast
          simp [ascents, spread_eq_zero hzero, room] at h
      | some a =>
          obtain ⟨ha, q, p, hcs, hq⟩ := List.find?_eq_some_iff_append.1 hlast
          refine ⟨p.reverse, a, q.reverse, ?_, of_decide_eq_true ha, by simpa using hq⟩
          rw [← cs.reverse_reverse, hcs]
          simp

/-- **A step up.** While one is left, it leads to a string that follows, and one less is left. What
the slots have cut off makes no difference. -/
theorem exists_increment (h : 0 < ascents cs free) :
    ∃ cs' free', increment (stretch cs free) = stretch cs' free' ∧
      ascents cs free = ascents cs' free' + 1 ∧
      ∀ rest, free = 0 ∨ rest = [] → Follows (cs ++ rest) cs' := by
  rcases increment_cases h with ⟨free, rfl⟩ | ⟨rfl, p, a, q, rfl, ha, hq⟩
  · refine ⟨cs ++ ['A'], free, increment_free cs free, ascents_free cs free, ?_⟩
    rintro rest (hfree | rfl)
    · cases hfree
    · rw [List.append_nil]
      exact .longer cs [] (by decide)
  · obtain ⟨hletter, hlt, -⟩ := nextLetter_spec ha
    refine ⟨_, _, increment_full ha hq, ascents_full ha hq, ?_⟩
    intro rest _
    rw [List.append_assoc, List.cons_append]
    exact .greater p _ [] (isLetter_of_raises ha) hletter hlt

/-- **A step down.** While one is left, it leads to a smaller string, and one less is left. -/
theorem exists_decrement (h : 0 < descents cs free) :
    ∃ cs' free', decrement (stretch cs free) = stretch cs' free' ∧
      descents cs free = descents cs' free' + 1 ∧ cs' < cs := by
  rcases List.eq_nil_or_concat cs with rfl | ⟨p, a, rfl⟩
  · cases h
  rw [List.concat_eq_append]
  by_cases ha : 0 < lowers a
  · refine ⟨_, 0, decrement_lower ha free, descents_lower ha free, ?_⟩
    exact List.append_left_lt (List.cons_lt_cons_iff.2 (.inl (previousLetter_spec ha).2.1))
  · have hzero : lowers a = 0 := by omega
    refine ⟨p, free + 1, decrement_drop hzero free, descents_drop hzero free, ?_⟩
    have h : p ++ [] < p ++ [a] := List.append_left_lt (List.nil_lt_cons ..)
    rwa [List.append_nil] at h

theorem isChain_walk_increment {n : Nat} (h : n ≤ ascents cs free) {rest : List Char}
    (hrest : free = 0 ∨ rest = []) :
    ((cs ++ rest) :: walk increment n (stretch cs free)).IsChain Follows := by
  induction n generalizing cs free rest with
  | zero => exact .singleton _
  | succ n ih =>
      obtain ⟨cs', free', hstep, hcount, hfollows⟩ :=
        exists_increment (Nat.lt_of_lt_of_le n.succ_pos h)
      have hwalk : ((cs' ++ []) :: walk increment n (stretch cs' free')).IsChain Follows :=
        ih (by omega) (.inr rfl)
      rw [List.append_nil] at hwalk
      rw [walk, hstep, filled_stretch]
      exact .cons_cons (hfollows rest hrest) hwalk

theorem isChain_walk_decrement {n : Nat} (h : n ≤ descents cs free) :
    (cs :: walk decrement n (stretch cs free)).IsChain fun s t => t < s := by
  induction n generalizing cs free with
  | zero => exact .singleton _
  | succ n ih =>
      obtain ⟨cs', free', hstep, hcount, hlt⟩ :=
        exists_decrement (Nat.lt_of_lt_of_le n.succ_pos h)
      rw [walk, hstep, filled_stretch]
      exact .cons_cons hlt (ih (by omega))

/-- **The strings that come next** follow the start and each other. -/
theorem isChain_ascendingStrings (count : Nat) (start : List Char) :
    (start :: ascendingStrings count start).IsChain Follows := by
  have hcut : ascendingLength count start - start.length = 0 ∨
      start.drop (ascendingLength count start) = [] := by
    rw [List.drop_eq_nil_iff]
    omega
  have h := isChain_walk_increment (le_ascentsAt count start) hcut
  rwa [List.take_append_drop] at h

/-- **The strings that come before** are smaller than the endless start, and each than the one
before it. -/
theorem pairwise_descendingStrings (count : Nat) {start : List Char} (hstart : isEndless start) :
    (start :: descendingStrings count start).Pairwise fun s t => t < s := by
  have : Trans (fun s t : List Char => t < s) (fun s t : List Char => t < s)
    (fun s t : List Char => t < s) := ⟨fun h h' => List.lt_trans h' h⟩
  have h := List.isChain_iff_pairwise.1 (isChain_walk_decrement (le_descentsAt count hstart))
  rw [descendingStrings, if_pos hstart]
  rw [List.pairwise_cons] at h ⊢
  refine ⟨fun t ht => ?_, h.2⟩
  rcases List.le_iff_lt_or_eq.1 (start.take_prefix (descendingLength count start)).le with
    hlt | heq
  · exact List.lt_trans (h.1 t ht) hlt
  · have hlt := h.1 t ht
    rwa [heq] at hlt

end TracedTree.Letters
