import Mathlib
import TracedTree.Proofs.Words

/-!
# The next and the previous words

From a string of letters a walk lists the words that come next, in order, as far as they fit into
its slots; or the strings that come before, the empty one last. The number of slots is the least
one in which there are enough words.

A descending walk begins at what of its start fits into the slots. When the start is longer, this
is itself the word just before it. It is counted among the words before the start, but it is not
listed: the walk lists the words behind it, and when all words before the start are wanted it ends
with the empty string.

## Main definitions

* `wordsBefore s length`: the words that come before a string, last one first.

## Main statements

* `walk_eq_take`: a walk lists what is left.
* `isLeast_searchLength`: a search that counts the strings ends at the least length with enough.
* `ascendingStrings_next`, `descendingStrings_previous`: the strings of the two walks.
-/

namespace TracedTree.Letters

variable {c : Char} {s t cs : List Char} {count demand length free n : Nat}

/-! ## Walks through lists -/

/-- A walk lists what is left when each step leads to the first of it. -/
theorem walk_eq_take {step : Slots → Slots} {left : List Char → Nat → List (List Char)}
    (hstep : ∀ {cs free}, (∀ c ∈ cs, isLetter c) → left cs (cs.length + free) ≠ [] →
      ∃ cs' free', step (stretch cs free) = stretch cs' free' ∧ (∀ c ∈ cs', isLetter c) ∧
        cs'.length + free' = cs.length + free ∧
        left cs (cs.length + free) = cs' :: left cs' (cs.length + free))
    (hcs : ∀ c ∈ cs, isLetter c) (hlength : cs.length + free = length)
    (hn : n ≤ (left cs length).length) :
    walk step n (stretch cs free) = (left cs length).take n := by
  induction n generalizing cs free with
  | zero => rw [walk, List.take_zero]
  | succ n ih =>
      have hne : left cs length ≠ [] := List.ne_nil_of_length_pos (by omega)
      rw [← hlength] at hne
      obtain ⟨cs', free', hto, hcs', hlength', hleft⟩ := hstep hcs hne
      rw [hlength] at hlength' hleft
      rw [hleft, List.length_cons] at hn
      rw [walk, hto, filled_stretch, hleft, List.take_succ_cons,
        ih hcs' hlength' (Nat.le_of_succ_le_succ hn)]

theorem length_take_add (s : List Char) (length : Nat) :
    (s.take length).length + (length - s.length) = length := by
  rw [List.length_take]
  omega

theorem isLetter_take (hs : ∀ c ∈ s, isLetter c) (length : Nat) :
    ∀ c ∈ s.take length, isLetter c := fun c hc => hs c (List.mem_of_mem_take hc)

theorem descentsAt_take (s : List Char) (length : Nat) :
    descentsAt (s.take length) length = descentsAt s length := by
  have hfree : length - min length s.length = length - s.length := by omega
  rw [descentsAt, List.take_take, Nat.min_self, List.length_take, hfree]
  rfl

/-! ## Exact counts

For strings of letters the spaces are no mere bounds: they count the strings of a length, up to the
largest count. -/

theorem power_eq (n : Nat) : power n = min (52 ^ n) maxCount := by
  rw [power]
  rcases Nat.le_total n 23 with hle | hle
  · rw [Nat.min_eq_left hle]
    rfl
  · have hmax : maxCount ≤ 52 ^ 23 := by decide
    have hpow : 52 ^ 23 ≤ 52 ^ n := Nat.pow_le_pow_right (by decide) hle
    rw [Nat.min_eq_right hle, Nat.min_eq_right (Nat.le_trans hmax hpow)]
    exact Nat.min_eq_right hmax

/-- Capping a factor makes no difference below the cap. -/
theorem min_mul_min (m n : Nat) : min (m * min n maxCount) maxCount = min (m * n) maxCount := by
  rcases Nat.eq_zero_or_pos m with rfl | hm
  · simp
  rcases Nat.le_total n maxCount with hle | hle
  · rw [Nat.min_eq_left hle]
  · rw [Nat.min_eq_right hle, Nat.min_eq_right (Nat.le_mul_of_pos_left _ hm),
      Nat.min_eq_right (Nat.le_trans hle (Nat.le_mul_of_pos_left _ hm))]

theorem countP_isOpen (hcs : ∀ c ∈ cs, isLetter c) (free : Nat) :
    (stretch cs free).countP isOpen = cs.length + free := by
  have hall : ∀ slot ∈ stretch cs free, isOpen slot := by
    intro slot hslot
    rcases List.mem_append.1 hslot with hslot | hslot
    · obtain ⟨c, hc, rfl⟩ := List.mem_map.1 hslot
      exact hcs c hc
    · rw [List.eq_of_mem_replicate hslot]
      rfl
  rw [List.countP_eq_length.2 hall]
  simp [stretch]

theorem raisedCount_eq (hcs : ∀ c ∈ cs, isLetter c) (free : Nat) :
    raisedCount (stretch cs free) = min (spread raises (52 ^ ·) cs free) maxCount := by
  induction cs with
  | nil => simp [stretch, raisedCount_free, spread]
  | cons c cs ih =>
      rw [List.forall_mem_cons] at hcs
      have hunfold : raisedCount (stretch (c :: cs) free) =
          min (raisedCount (stretch cs free) + min (if isLetter c then
            raises c * power ((stretch cs free).countP isOpen) else 0) maxCount) maxCount := rfl
      rw [hunfold, if_pos hcs.1, countP_isOpen hcs.2, power_eq, min_mul_min, ih hcs.2, spread]
      omega

theorem loweredCount_eq (cs : List Char) (free : Nat) :
    loweredCount (stretch cs free) = min (spread lowers (52 ^ ·) cs free) maxCount := by
  induction cs with
  | nil => simp [stretch, loweredCount_free, spread]
  | cons c cs ih =>
      have hlength : (stretch cs free).length = cs.length + free := by simp [stretch]
      have hunfold : loweredCount (stretch (c :: cs) free) =
          min (min (if isLetter c && c != 'A' then
            lowers c * power (stretch cs free).length else 0) maxCount +
              loweredCount (stretch cs free)) maxCount := rfl
      have hown : (if isLetter c && c != 'A' then lowers c * power (cs.length + free) else 0) =
          lowers c * power (cs.length + free) := by
        split
        · rfl
        · have hzero : lowers c = 0 := by
            rw [← Nat.le_zero, ← Nat.not_lt, lowers_pos_iff]
            assumption
          rw [hzero, Nat.zero_mul]
      rw [hunfold, hlength, hown, power_eq, min_mul_min, ih, spread]
      omega

theorem ascendingSpace_eq (hs : ∀ c ∈ s, isLetter c) (length : Nat) :
    ascendingSpace s length = min (ascentsGained s length) maxCount := by
  have htake := isLetter_take hs length
  simp only [ascendingSpace, ascentsGained, slots_eq, countP_isNone, raisedCount_eq htake,
    power_eq]
  generalize 52 ^ (length - s.length) = filled
  split <;> omega

theorem descendingSpace_eq (s : List Char) (length : Nat) :
    descendingSpace s length =
      min ((if length < s.length then 1 else 0) +
        spread lowers (52 ^ ·) (s.take length) (length - s.length)) maxCount := by
  simp only [descendingSpace, slots_eq, loweredCount_eq]
  omega

/-! ## The least lengths -/

/-- A search finds the least length with enough, when the spaces that it sums up count exactly what
one length has more than the last, up to the largest count, and its fuel reaches far enough. -/
theorem isLeast_searchLength (space total : Nat → Nat) (enough : Nat → Bool) (fuel length : Nat)
    (hspace : ∀ length, min (total (length + 1)) maxCount =
      min (min (total length) maxCount + space (length + 1)) maxCount)
    (henough : ∀ sum, enough (min sum maxCount) ↔ demand ≤ sum)
    (hbelow : ∀ shorter < length, ¬ demand ≤ total shorter)
    (hreach : demand ≤ total (length + fuel)) :
    IsLeast {length | demand ≤ total length}
      (searchLength space enough fuel length (min (total length) maxCount)) := by
  have hlower : length ∈ lowerBounds {length | demand ≤ total length} := fun longer hlonger =>
    Nat.le_of_not_lt fun hlt => hbelow longer hlt hlonger
  induction fuel generalizing length with
  | zero => exact ⟨hreach, hlower⟩
  | succ fuel ih =>
      rw [searchLength]
      split
      · rename_i h
        exact ⟨(henough _).1 h, hlower⟩
      · rename_i h
        have hnext : ∀ shorter < length + 1, ¬ demand ≤ total shorter := by
          intro shorter hshorter
          rcases Nat.lt_succ_iff_lt_or_eq.1 hshorter with hlt | rfl
          · exact hbelow shorter hlt
          · exact fun hdemand => h ((henough _).2 hdemand)
        have hreach : demand ≤ total (length + 1 + fuel) := by
          rwa [Nat.add_assoc, Nat.add_comm 1 fuel]
        rw [← hspace]
        exact ih (length + 1) hnext hreach fun longer hlonger =>
          Nat.le_of_not_lt fun hlt => hnext longer hlt hlonger

/-- **The length of an ascending walk** is the least one with enough words. -/
theorem isLeast_ascendingLength (hs : ∀ c ∈ s, isLetter c) (hcount : count ≤ maxCount) :
    IsLeast {length | count ≤ (wordsAfter s length).length} (ascendingLength count s) := by
  simp only [length_wordsAfter hs]
  have hspace : ∀ length, min (ascentsAt s (length + 1)) maxCount =
      min (min (ascentsAt s length) maxCount + ascendingSpace s (length + 1)) maxCount := by
    intro length
    rw [ascendingSpace_eq hs, ascentsAt_succ]
    omega
  have henough : ∀ sum, decide (count ≤ min sum maxCount) = true ↔ count ≤ sum := by
    intro sum
    rw [decide_eq_true_iff]
    omega
  have hreach : count ≤ ascentsAt s (0 + (s.length + count + 1)) := by
    have := le_room (0 + (s.length + count + 1) - s.length)
    rw [ascentsAt, ascents]
    omega
  have hzero : ascentsAt s 0 = 0 := by simp [ascentsAt, ascents, spread, room]
  have hleast := isLeast_searchLength (ascendingSpace s) (ascentsAt s) (count ≤ ·) _ 0 hspace
    henough (by simp) hreach
  rwa [hzero] at hleast

/-- **The length of a descending walk** is the least one with enough strings, the empty one set
aside. -/
theorem isLeast_descendingLength (hs : ∀ c ∈ s, isLetter c) (hendless : isEndless s)
    (hcount : count < maxCount) :
    IsLeast {length | count < (stringsBefore s length).length} (descendingLength count s) := by
  obtain ⟨c, hc, hlower⟩ := List.any_eq_true.1 hendless
  have hpos : 0 < s.length := List.length_pos_of_mem hc
  simp only [length_stringsBefore hs]
  have hspace : ∀ length,
      min (descentsAt s (length + 1) + if length + 1 < s.length then 1 else 0) maxCount =
        min (min (descentsAt s length + if length < s.length then 1 else 0) maxCount +
          descendingSpace s (length + 1)) maxCount := by
    intro length
    rw [descendingSpace_eq, descentsAt_succ, descentsGained]
    simp only [Nat.lt_iff_add_one_le]
    omega
  have henough : ∀ sum, decide (count < min sum maxCount) = true ↔ count + 1 ≤ sum := by
    intro sum
    rw [decide_eq_true_iff]
    omega
  have hreach : count + 1 ≤ descentsAt s (0 + (s.length + count + 1)) +
      if 0 + (s.length + count + 1) < s.length then 1 else 0 := by
    have := le_spread hc (lowers_pos_iff.2 hlower) (0 + (s.length + count + 1) - s.length)
    rw [descentsAt, descents, List.take_of_length_le (by omega)]
    omega
  have hzero : (descentsAt s 0 + if 0 < s.length then 1 else 0) = 1 := by
    simp [descentsAt, descents, spread, hpos]
  have hleast := isLeast_searchLength (descendingSpace s)
    (fun length => descentsAt s length + if length < s.length then 1 else 0) (count < ·) _ 0
    hspace henough (by simp) hreach
  simp only [hzero] at hleast
  exact hleast

/-! ## Words before a string -/

/-- The words up to a length that come before a string, last one first. -/
def wordsBefore (s : List Char) (length : Nat) : List (List Char) :=
  ((words length).filter (· < s)).reverse

theorem stringsBefore_eq (hs : s ≠ []) (length : Nat) :
    stringsBefore s length = wordsBefore s length ++ [[]] := by
  obtain ⟨c, s, rfl⟩ := List.exists_cons_of_ne_nil hs
  have hempty : decide (([] : List Char) < c :: s) = true := decide_eq_true (List.nil_lt_cons ..)
  rw [stringsBefore, wordsBefore, List.filter_cons, if_pos hempty, List.reverse_cons]

/-- Before what of a string fits into a length there are the words before the string. When the
string is cut off, what fits is itself the first of them. -/
theorem stringsBefore_take_eq (hs : ∀ c ∈ s, isLetter c) (hne : s ≠ [])
    (hpos : 0 < (wordsBefore s length).length) :
    stringsBefore (s.take length) length =
      (wordsBefore s length).drop (if length < s.length then 1 else 0) ++ [[]] := by
  have hbefore := stringsBefore_eq hne length
  split
  · rename_i hcut
    rw [stringsBefore_take hs hcut] at hbefore
    have hdrop := congrArg (List.drop 1) hbefore
    rwa [List.drop_append_of_le_length hpos, List.drop_one, List.tail_cons] at hdrop
  · rename_i hfits
    rw [List.take_of_length_le (Nat.le_of_not_lt hfits), hbefore, List.drop_zero]

theorem ne_nil_of_isEndless (hs : isEndless s) : s ≠ [] := by
  rintro rfl
  cases hs

/-! ## The strings of a walk -/

/-- An ascending walk lists the words after its start. -/
theorem ascendingStrings_eq_take (hs : ∀ c ∈ s, isLetter c) (count : Nat) :
    ascendingStrings count s = (wordsAfter s (ascendingLength count s)).take count := by
  have henough := le_ascentsAt count s
  generalize hlength : ascendingLength count s = length at henough ⊢
  have htake := isLetter_take hs length
  rw [← length_wordsAfter hs, ← wordsAfter_take] at henough
  rw [ascendingStrings, hlength, slots_eq,
    walk_eq_take exists_wordsAfter htake (length_take_add s length) henough, wordsAfter_take]

/-- A descending walk lists the strings before what of its start fits into its slots. -/
theorem descendingStrings_eq_take (hs : ∀ c ∈ s, isLetter c) (hendless : isEndless s)
    (count : Nat) :
    descendingStrings count s =
      (stringsBefore (s.take (descendingLength count s))
        (descendingLength count s)).take count := by
  have henough := le_descentsAt count hendless
  generalize hlength : descendingLength count s = length at henough ⊢
  have htake := isLetter_take hs length
  rw [← descentsAt_take] at henough
  have henough : count ≤ (stringsBefore (s.take length) length).length := by
    rw [length_stringsBefore htake]
    exact Nat.le_add_right_of_le henough
  rw [descendingStrings, if_pos hendless, hlength, slots_eq,
    walk_eq_take exists_stringsBefore htake (length_take_add s length) henough]

/-- **The strings that come next.** An ascending walk lists the first words after its start, up to
the least length that has enough of them. What is wanted is a 64-bit word, far below the cap. -/
theorem ascendingStrings_next (hs : ∀ c ∈ s, isLetter c) (hcount : count ≤ maxCount) :
    IsLeast {length | count ≤ (wordsAfter s length).length} (ascendingLength count s) ∧
      ascendingStrings count s = (wordsAfter s (ascendingLength count s)).take count :=
  ⟨isLeast_ascendingLength hs hcount, ascendingStrings_eq_take hs count⟩

/-- A start that is cut off to `Y`, which leaves fewer words of one letter behind it than wanted. -/
theorem ascendingStrings_next_cut :
    let s := ['Y', 'z', 'z']
    (∀ c ∈ s, isLetter c) ∧ 30 ≤ maxCount ∧
      IsLeast {length | 30 ≤ (wordsAfter s length).length} (ascendingLength 30 s) ∧
      ascendingStrings 30 s = (wordsAfter s (ascendingLength 30 s)).take 30 := by
  intro s
  have hs : ∀ c ∈ s, isLetter c := List.all_eq_true.1 (by decide)
  have hcount : 30 ≤ maxCount := by decide
  exact ⟨hs, hcount, ascendingStrings_next hs hcount⟩

theorem pairwise_wordsBefore (s : List Char) (length : Nat) :
    (wordsBefore s length).Pairwise fun t u => u < t :=
  List.pairwise_reverse.2 ((pairwise_words length).filter _)

theorem ne_nil_of_mem_wordsBefore (h : t ∈ wordsBefore s length) : t ≠ [] :=
  ne_nil_of_mem_words (List.mem_of_mem_filter (List.mem_reverse.1 h))

/-- The empty string behind some words is among the first strings when these are more than the
words. -/
theorem nil_mem_take_iff {strings : List (List Char)} (h : ∀ t ∈ strings, t ≠ []) :
    [] ∈ (strings ++ [[]]).take n ↔ strings.length < n := by
  constructor
  · intro hmem
    by_contra hle
    rw [List.take_append_of_le_length (Nat.le_of_not_lt hle)] at hmem
    exact h [] (List.mem_of_mem_take hmem) rfl
  · intro hlt
    rw [List.take_of_length_le (by simpa using hlt)]
    exact List.mem_append_right _ List.mem_cons_self

/-- The first words before a string are not the ones behind the first of them. -/
theorem take_drop_one_ne (s : List Char) (length : Nat) (hn : 0 < n)
    (henough : n ≤ (wordsBefore s length).length) :
    ((wordsBefore s length).drop 1 ++ [[]]).take n ≠ (wordsBefore s length).take n := by
  intro heq
  have hsorted := pairwise_wordsBefore s length
  have hne : ∀ t ∈ wordsBefore s length, t ≠ [] := fun t => ne_nil_of_mem_wordsBefore
  obtain ⟨first, rest, hwords⟩ := List.exists_cons_of_length_pos (Nat.lt_of_lt_of_le hn henough)
  obtain ⟨n, rfl⟩ := Nat.exists_eq_add_one_of_ne_zero (Nat.ne_zero_of_lt hn)
  rw [hwords] at heq hsorted hne
  have hmem : first ∈ (rest ++ [[]]).take (n + 1) := heq ▸ List.mem_cons_self
  rcases List.mem_append.1 (List.mem_of_mem_take hmem) with hmem | hmem
  · exact List.lt_irrefl first ((List.pairwise_cons.1 hsorted).1 first hmem)
  · exact hne first List.mem_cons_self (List.mem_singleton.1 hmem)

/-- **The strings that come before.** A descending walk chooses the least length that has enough
words before its start. When the start fits into it, the walk lists the first of these words, and
otherwise those behind the first one and then the empty string. So exactly the walks from starts
that fit list the words just before, and the empty string is listed when the start is cut off and
all words before it are wanted. -/
theorem descendingStrings_previous (hs : ∀ c ∈ s, isLetter c) (hendless : isEndless s)
    (hcount : 0 < count) (hmax : count < maxCount) :
    let length := descendingLength count s
    let before := wordsBefore s length
    IsLeast {length | count ≤ (wordsBefore s length).length} length ∧
      descendingStrings count s =
        (before.drop (if length < s.length then 1 else 0) ++ [[]]).take count ∧
      (descendingStrings count s = before.take count ↔ s.length ≤ length) ∧
      ([] ∈ descendingStrings count s ↔ length < s.length ∧ before.length = count) := by
  intro length before
  have hleast : IsLeast {length | count ≤ (wordsBefore s length).length} length := by
    have hleast := isLeast_descendingLength hs hendless hmax
    simpa only [stringsBefore_eq (ne_nil_of_isEndless hendless), List.length_append,
      List.length_singleton, Nat.lt_add_one_iff] using hleast
  have henough : count ≤ before.length := hleast.1
  have hstrings : descendingStrings count s =
      (before.drop (if length < s.length then 1 else 0) ++ [[]]).take count := by
    rw [descendingStrings_eq_take hs hendless,
      stringsBefore_take_eq hs (ne_nil_of_isEndless hendless) (Nat.lt_of_lt_of_le hcount henough)]
  refine ⟨hleast, hstrings, ?_, ?_⟩
  · rw [hstrings]
    split
    · rename_i hcut
      exact iff_of_false (take_drop_one_ne s length hcount henough) (Nat.not_le_of_lt hcut)
    · rename_i hfits
      rw [List.drop_zero, List.take_append_of_le_length henough]
      exact iff_of_true rfl (Nat.le_of_not_lt hfits)
  · rw [hstrings, nil_mem_take_iff fun t ht =>
      ne_nil_of_mem_wordsBefore (List.mem_of_mem_drop ht), List.length_drop]
    change before.length - _ < count ↔ _
    split <;> omega

/-- A start that is cut off to `b`, and all words of one letter before it. -/
theorem descendingStrings_previous_cut :
    let s := ['b', 'A']
    let length := descendingLength 28 s
    let before := wordsBefore s length
    (∀ c ∈ s, isLetter c) ∧ isEndless s ∧ 0 < 28 ∧ 28 < maxCount ∧
      IsLeast {length | 28 ≤ (wordsBefore s length).length} length ∧
      descendingStrings 28 s =
        (before.drop (if length < s.length then 1 else 0) ++ [[]]).take 28 ∧
      (descendingStrings 28 s = before.take 28 ↔ s.length ≤ length) ∧
      ([] ∈ descendingStrings 28 s ↔ length < s.length ∧ before.length = 28) := by
  intro s length before
  have hs : ∀ c ∈ s, isLetter c := List.all_eq_true.1 (by decide)
  have hmax : 28 < maxCount := by decide
  exact ⟨hs, by decide, by decide, hmax,
    descendingStrings_previous hs (by decide) (by decide) hmax⟩

/-- Before `bA` there are 28 words of one letter, the first of them `b`. A walk that wants one of
them skips it, and a walk that wants them all ends with the empty string. -/
theorem exists_descendingStrings_skipping :
    ∃ s, (∀ c ∈ s, isLetter c) ∧ isEndless s ∧
      IsLeast {length | 1 ≤ (wordsBefore s length).length} 1 ∧
      IsLeast {length | 28 ≤ (wordsBefore s length).length} 1 ∧
      (wordsBefore s 1).take 1 = [['b']] ∧ descendingStrings 1 s = [['a']] ∧
      [] ∈ descendingStrings 28 s := by
  have hbefore : (wordsBefore ['b', 'A'] 1).length = 28 := by decide
  have hleast : ∀ count, 0 < count → count ≤ 28 →
      IsLeast {length | count ≤ (wordsBefore ['b', 'A'] length).length} 1 := by
    intro count hpos hle
    refine ⟨hle.trans_eq hbefore.symm, fun length hlength => ?_⟩
    cases length with
    | zero => exact absurd hlength (Nat.not_le_of_lt hpos)
    | succ length => exact Nat.succ_le_succ (Nat.zero_le length)
  exact ⟨['b', 'A'], List.all_eq_true.1 (by decide), by decide,
    hleast 1 (by decide) (by decide), hleast 28 (by decide) (by decide), by decide, by decide,
    by decide⟩

end TracedTree.Letters
