import Mathlib
import TracedTree.Proofs.Letters

/-!
# The strings of letters in order

The strings of letters up to a length stand in lexicographic order when they are laid out by their
first letters. So do those behind a string of letters and those before it: they begin with the same
letter and go on behind or before the rest of the string, or they begin with a later or an earlier
letter. A step of a walk leads to the first of them.

## Main definitions

* `words length`: the strings of one letter or more up to a length, in order.
* `wordsAfter s length`: those that come after a string, next one first.
* `stringsBefore s length`: those that come before a string, next one first, and the empty string.

## Main statements

* `mem_words`, `pairwise_words`: these are all the strings of letters, in order.
* `exists_wordsAfter`, `exists_stringsBefore`: a step leads to the first string that is left.
* `length_wordsAfter`, `length_stringsBefore`: as many strings are left as steps.
-/

namespace TracedTree.Letters

variable {a c : Char} {letters s t cs p q : List Char} {length free : Nat}

/-! ## Words -/

/-- The strings of one letter or more up to a length, in order. -/
def words : Nat → List (List Char)
  | 0 => []
  | length + 1 => alphabet.flatMap fun c => ([] :: words length).map (c :: ·)

/-- The words that begin with one of some letters, which any word or none may follow. -/
def begun (letters : List Char) (length : Nat) : List (List Char) :=
  letters.flatMap fun c => ([] :: words length).map (c :: ·)

theorem words_succ (length : Nat) : words (length + 1) = begun alphabet length := rfl

@[simp] theorem begun_nil (length : Nat) : begun [] length = [] := rfl

theorem begun_cons (c : Char) (letters : List Char) (length : Nat) :
    begun (c :: letters) length = ([] :: words length).map (c :: ·) ++ begun letters length := rfl

theorem begun_append (p q : List Char) (length : Nat) :
    begun (p ++ q) length = begun p length ++ begun q length := List.flatMap_append

/-- The words that begin with a letter stand between those that begin with an earlier or a later
one. -/
theorem words_around (hc : isLetter c) (length : Nat) :
    words (length + 1) = begun (earlier c) length ++
      (([] :: words length).map (c :: ·) ++ begun (later c) length) := by
  rw [words_succ, alphabet_eq hc, begun_append, begun_cons]

theorem mem_begun : t ∈ begun letters length ↔
    ∃ c ∈ letters, ∃ u, (u = [] ∨ u ∈ words length) ∧ t = c :: u := by
  simp only [begun, List.mem_flatMap, List.mem_map, List.mem_cons, eq_comm (a := t)]

/-- The words are the strings of letters up to a length, without the empty one. -/
theorem mem_words : s ∈ words length ↔ s ≠ [] ∧ s.length ≤ length ∧ ∀ c ∈ s, isLetter c := by
  induction length generalizing s with
  | zero =>
      simp only [words, List.not_mem_nil, false_iff]
      rintro ⟨hne, hlength, -⟩
      exact hne (List.length_eq_zero_iff.1 (Nat.le_zero.1 hlength))
  | succ length ih =>
      rw [words_succ, mem_begun]
      cases s with
      | nil => simp
      | cons c s =>
          have hrest : (s = [] ∨ s ∈ words length) ↔ s.length ≤ length ∧ ∀ a ∈ s, isLetter a := by
            rw [ih]
            by_cases hs : s = []
            · simp [hs]
            · simp [hs]
          simp only [List.cons.injEq, mem_alphabet, List.length_cons, List.forall_mem_cons]
          constructor
          · rintro ⟨_, hc, _, hu, rfl, rfl⟩
            have h := hrest.1 hu
            exact ⟨List.cons_ne_nil c s, Nat.succ_le_succ h.1, hc, h.2⟩
          · rintro ⟨-, hlength, hc, hs⟩
            exact ⟨c, hc, s, hrest.2 ⟨Nat.le_of_succ_le_succ hlength, hs⟩, rfl, rfl⟩

theorem ne_nil_of_mem_words (h : s ∈ words length) : s ≠ [] := (mem_words.1 h).1

/-- The words are in order. -/
theorem pairwise_words (length : Nat) : (words length).Pairwise (· < ·) := by
  induction length with
  | zero => exact .nil
  | succ length ih =>
      have hstrings : ([] :: words length).Pairwise (· < ·) := by
        refine List.pairwise_cons.2 ⟨fun s hs => ?_, ih⟩
        obtain ⟨c, u, rfl⟩ := List.exists_cons_of_ne_nil (ne_nil_of_mem_words hs)
        exact List.nil_lt_cons ..
      refine List.pairwise_flatMap.2 ⟨fun c _ => ?_, pairwise_alphabet.imp fun hlt s hs t ht => ?_⟩
      · refine List.pairwise_map.2 (hstrings.imp fun hlt => ?_)
        exact List.cons_lt_cons_iff.2 (.inr ⟨rfl, hlt⟩)
      · obtain ⟨u, -, rfl⟩ := List.mem_map.1 hs
        obtain ⟨v, -, rfl⟩ := List.mem_map.1 ht
        exact List.cons_lt_cons_iff.2 (.inl hlt)

theorem length_begun (letters : List Char) {count : Nat} (h : (words length).length = count) :
    (begun letters length).length = letters.length * (count + 1) := by
  induction letters with
  | nil => simp
  | cons c letters ih =>
      rw [begun_cons, List.length_append, List.length_map, List.length_cons, h, ih,
        List.length_cons, Nat.add_mul, Nat.one_mul, Nat.add_comm]

/-- There are as many words as free slots can be filled in ways. -/
theorem length_words (length : Nat) : (words length).length = room length := by
  induction length with
  | zero => rfl
  | succ length ih =>
      rw [words_succ, length_begun alphabet ih]
      rfl

theorem lt_of_mem_begun (h : ∀ a ∈ letters, c < a) (ht : t ∈ begun letters length) :
    c :: s < t := by
  obtain ⟨a, ha, u, -, rfl⟩ := mem_begun.1 ht
  exact List.cons_lt_cons_iff.2 (.inl (h a ha))

theorem mem_begun_lt (h : ∀ a ∈ letters, a < c) (ht : t ∈ begun letters length) :
    t < c :: s := by
  obtain ⟨a, ha, u, -, rfl⟩ := mem_begun.1 ht
  exact List.cons_lt_cons_iff.2 (.inl (h a ha))

/-! ## The words after a string -/

/-- The words up to a length that come after a string, in order. -/
def wordsAfter (s : List Char) (length : Nat) : List (List Char) :=
  (words length).filter (s < ·)

theorem wordsAfter_nil (length : Nat) : wordsAfter [] length = words length := by
  refine List.filter_eq_self.2 fun t ht => decide_eq_true ?_
  obtain ⟨c, u, rfl⟩ := List.exists_cons_of_ne_nil (ne_nil_of_mem_words ht)
  exact List.nil_lt_cons ..

@[simp] theorem wordsAfter_zero (s : List Char) : wordsAfter s 0 = [] := rfl

/-- The words after a string begin with its first letter, or with a later one. -/
theorem wordsAfter_cons (hc : isLetter c) (s : List Char) (length : Nat) :
    wordsAfter (c :: s) (length + 1) =
      (wordsAfter s length).map (c :: ·) ++ begun (later c) length := by
  have hearlier : (begun (earlier c) length).filter (c :: s < ·) = [] := by
    refine List.filter_eq_nil_iff.2 fun t ht h => ?_
    have hlt := mem_begun_lt (s := s) (fun _ => lt_of_mem_earlier hc) ht
    exact List.lt_irrefl _ (List.lt_trans hlt (of_decide_eq_true h))
  have hsame : (([] :: words length).map (c :: ·)).filter (c :: s < ·) =
      (wordsAfter s length).map (c :: ·) := by
    have hrest : ([] :: words length).filter ((fun t => decide (c :: s < t)) ∘ (c :: ·)) =
        wordsAfter s length := by
      simp [wordsAfter, Function.comp_def]
    rw [List.filter_map, hrest]
  have hlater : (begun (later c) length).filter (c :: s < ·) = begun (later c) length :=
    List.filter_eq_self.2 fun t ht =>
      decide_eq_true (lt_of_mem_begun (fun _ => lt_of_mem_later hc) ht)
  rw [wordsAfter, words_around hc, List.filter_append, List.filter_append, hearlier, hsame, hlater,
    List.nil_append]

/-- What a word is too short to reach makes no difference. -/
theorem take_lt_iff (ht : t.length ≤ length) : s.take length < t ↔ s < t := by
  induction length generalizing s t with
  | zero =>
      obtain rfl := List.length_eq_zero_iff.1 (Nat.le_zero.1 ht)
      simp
  | succ length ih =>
      cases s with
      | nil => rfl
      | cons c s =>
          cases t with
          | nil => simp
          | cons a t =>
              rw [List.take_succ_cons, List.cons_lt_cons_iff, List.cons_lt_cons_iff,
                ih (Nat.le_of_succ_le_succ ht)]

theorem wordsAfter_take (s : List Char) (length : Nat) :
    wordsAfter (s.take length) length = wordsAfter s length :=
  List.filter_congr fun _ ht => decide_eq_decide.2 (take_lt_iff (mem_words.1 ht).2.1)

/-- No word of the same length comes after letters that cannot be raised. -/
theorem wordsAfter_last (hq : ∀ c ∈ q, isLetter c ∧ raises c = 0) :
    wordsAfter q q.length = [] := by
  induction q with
  | nil => rfl
  | cons c q ih =>
      rw [List.forall_mem_cons] at hq
      have hlater : later c = [] := by
        rw [← List.length_eq_zero_iff, length_later hq.1.1, hq.1.2]
      simp [wordsAfter_cons hq.1.1, ih hq.2, hlater]

/-- With room for it, the string with one more `A` comes next. -/
theorem wordsAfter_free (hcs : ∀ c ∈ cs, isLetter c) (h : cs.length < length) :
    wordsAfter cs length = (cs ++ ['A']) :: wordsAfter (cs ++ ['A']) length := by
  obtain ⟨length, rfl⟩ := Nat.exists_eq_add_one_of_ne_zero (Nat.ne_zero_of_lt h)
  induction cs generalizing length with
  | nil =>
      have hA : isLetter 'A' := by decide
      rw [wordsAfter_nil, words_around hA, earlier_A, begun_nil, List.nil_append, List.nil_append,
        wordsAfter_cons hA, wordsAfter_nil]
      rfl
  | cons c cs ih =>
      rw [List.forall_mem_cons] at hcs
      have hlength : cs.length < length := Nat.lt_of_succ_lt_succ h
      obtain ⟨length, rfl⟩ := Nat.exists_eq_add_one_of_ne_zero (Nat.ne_zero_of_lt hlength)
      rw [List.cons_append, wordsAfter_cons hcs.1, wordsAfter_cons hcs.1, ih hcs.2 _ hlength]
      rfl

/-- Without, the string comes next that ends in a raised last letter. -/
theorem wordsAfter_full (hp : ∀ c ∈ p, isLetter c) (ha : 0 < raises a)
    (hq : ∀ c ∈ q, isLetter c ∧ raises c = 0) :
    wordsAfter (p ++ a :: q) (p ++ a :: q).length =
      (p ++ [nextLetter a]) :: wordsAfter (p ++ [nextLetter a]) (p ++ a :: q).length := by
  induction p with
  | nil =>
      rw [List.nil_append, List.nil_append, List.length_cons,
        wordsAfter_cons (isLetter_of_raises ha), wordsAfter_last hq, later_eq_cons ha, begun_cons,
        wordsAfter_cons (nextLetter_spec ha).1, wordsAfter_nil]
      rfl
  | cons c p ih =>
      rw [List.forall_mem_cons] at hp
      simp only [List.cons_append, List.length_cons]
      rw [wordsAfter_cons hp.1, wordsAfter_cons hp.1, ih hp.2]
      rfl

/-- There are as many words after a string as steps up from it. -/
theorem length_wordsAfter (hs : ∀ c ∈ s, isLetter c) (length : Nat) :
    (wordsAfter s length).length = ascentsAt s length := by
  induction s generalizing length with
  | nil => simp [wordsAfter_nil, length_words, ascentsAt, ascents, spread]
  | cons c s ih =>
      rw [List.forall_mem_cons] at hs
      cases length with
      | zero => simp [ascentsAt, ascents, spread, room]
      | succ length =>
          have hlength : min length s.length + (length - s.length) = length := by omega
          rw [wordsAfter_cons hs.1, List.length_append, List.length_map, ih hs.2,
            length_begun _ (length_words length), length_later hs.1]
          simp only [ascentsAt, ascents, List.take_succ_cons, spread, List.length_cons,
            Nat.add_sub_add_right, List.length_take, hlength]
          omega

/-! ## The strings before a string -/

/-- The empty string and the words up to a length that come before a string, last one first. -/
def stringsBefore (s : List Char) (length : Nat) : List (List Char) :=
  (([] :: words length).filter (· < s)).reverse

@[simp] theorem stringsBefore_nil (length : Nat) : stringsBefore [] length = [] := by
  simp [stringsBefore]

@[simp] theorem stringsBefore_cons_zero (c : Char) (s : List Char) :
    stringsBefore (c :: s) 0 = [[]] := by
  simp [stringsBefore, words]

/-- The strings before a string begin with its first letter, or with an earlier one. -/
theorem stringsBefore_cons (hc : isLetter c) (s : List Char) (length : Nat) :
    stringsBefore (c :: s) (length + 1) =
      (stringsBefore s length).map (c :: ·) ++ (begun (earlier c) length).reverse ++ [[]] := by
  have hearlier : (begun (earlier c) length).filter (· < c :: s) = begun (earlier c) length :=
    List.filter_eq_self.2 fun t ht =>
      decide_eq_true (mem_begun_lt (fun _ => lt_of_mem_earlier hc) ht)
  have hsame : (([] :: words length).map (c :: ·)).filter (· < c :: s) =
      (([] :: words length).filter (· < s)).map (c :: ·) := by
    have hrest : ([] :: words length).filter ((fun t => decide (t < c :: s)) ∘ (c :: ·)) =
        ([] :: words length).filter (· < s) :=
      List.filter_congr fun t _ => by simp
    rw [List.filter_map, hrest]
  have hlater : (begun (later c) length).filter (· < c :: s) = [] := by
    refine List.filter_eq_nil_iff.2 fun t ht h => ?_
    have hlt := lt_of_mem_begun (s := s) (fun _ => lt_of_mem_later hc) ht
    exact List.lt_irrefl _ (List.lt_trans hlt (of_decide_eq_true h))
  have hempty : decide (([] : List Char) < c :: s) = true := decide_eq_true (List.nil_lt_cons ..)
  rw [stringsBefore, words_around hc, List.filter_cons, if_pos hempty, List.filter_append,
    List.filter_append, hearlier, hsame, hlater]
  simp [stringsBefore]

/-- The last of all strings is the one of letters `z`. -/
theorem reverse_words (length : Nat) :
    ([] :: words length).reverse =
      List.replicate length 'z' :: stringsBefore (List.replicate length 'z') length := by
  induction length with
  | zero => rfl
  | succ length ih =>
      have hz : isLetter 'z' := by decide
      rw [List.replicate_succ, stringsBefore_cons hz, words_around hz, later_z, begun_nil,
        List.append_nil, List.reverse_cons, List.reverse_append, ← List.map_reverse, ih]
      rfl

/-- Before a last letter that can be lowered, it is lowered and the free slots are filled. -/
theorem stringsBefore_lower (hp : ∀ c ∈ p, isLetter c) (ha : 0 < lowers a) (free : Nat) :
    stringsBefore (p ++ [a]) (p.length + 1 + free) =
      (p ++ previousLetter a :: List.replicate free 'z') ::
        stringsBefore (p ++ previousLetter a :: List.replicate free 'z') (p.length + 1 + free) := by
  induction p with
  | nil =>
      rw [List.nil_append, List.nil_append, List.length_nil, Nat.zero_add, Nat.add_comm 1 free,
        stringsBefore_cons (isLetter_of_lowers ha), stringsBefore_nil, earlier_eq_concat ha,
        begun_append, begun_cons, begun_nil, List.append_nil, List.reverse_append,
        ← List.map_reverse, reverse_words, stringsBefore_cons (previousLetter_spec ha).1]
      simp
  | cons c p ih =>
      rw [List.forall_mem_cons] at hp
      have hlength : (c :: p).length + 1 + free = p.length + 1 + free + 1 := by
        simp only [List.length_cons]
        omega
      rw [hlength, List.cons_append, List.cons_append, stringsBefore_cons hp.1,
        stringsBefore_cons hp.1, ih hp.2]
      rfl

/-- Before any other last letter, it is dropped. -/
theorem stringsBefore_drop (hp : ∀ c ∈ p, isLetter c) (ha : isLetter a) (hzero : lowers a = 0)
    (free : Nat) :
    stringsBefore (p ++ [a]) (p.length + 1 + free) =
      p :: stringsBefore p (p.length + 1 + free) := by
  induction p with
  | nil =>
      have hearlier : earlier a = [] := by
        rw [← List.length_eq_zero_iff, length_earlier ha, hzero]
      rw [List.nil_append, List.length_nil, Nat.zero_add, Nat.add_comm 1 free,
        stringsBefore_cons ha, hearlier]
      simp
  | cons c p ih =>
      rw [List.forall_mem_cons] at hp
      have hlength : (c :: p).length + 1 + free = p.length + 1 + free + 1 := by
        simp only [List.length_cons]
        omega
      rw [hlength, List.cons_append, stringsBefore_cons hp.1, stringsBefore_cons hp.1, ih hp.2]
      rfl

/-- What is cut off from a string leaves the next one before it. -/
theorem stringsBefore_take (hs : ∀ c ∈ s, isLetter c) (h : length < s.length) :
    stringsBefore s length = s.take length :: stringsBefore (s.take length) length := by
  induction s generalizing length with
  | nil => cases h
  | cons c s ih =>
      rw [List.forall_mem_cons] at hs
      cases length with
      | zero => simp
      | succ length =>
          rw [List.take_succ_cons, stringsBefore_cons hs.1, stringsBefore_cons hs.1,
            ih hs.2 (Nat.lt_of_succ_lt_succ h)]
          rfl

/-- There is one string more before a string than steps down from what of it is not cut off. -/
theorem length_stringsBefore (hs : ∀ c ∈ s, isLetter c) (length : Nat) :
    (stringsBefore s length).length =
      descentsAt s length + if length < s.length then 1 else 0 := by
  induction s generalizing length with
  | nil => simp [descentsAt, descents, spread]
  | cons c s ih =>
      rw [List.forall_mem_cons] at hs
      cases length with
      | zero => simp [descentsAt, descents, spread]
      | succ length =>
          have hlength : min length s.length + (length - s.length) = length := by omega
          rw [stringsBefore_cons hs.1, List.length_append, List.length_append, List.length_map,
            ih hs.2, List.length_reverse, length_begun _ (length_words length),
            length_earlier hs.1]
          simp only [descentsAt, descents, List.take_succ_cons, spread, List.length_cons,
            Nat.add_sub_add_right, List.length_take, hlength, List.length_nil,
            Nat.add_lt_add_iff_right]
          omega

/-! ## Steps -/

theorem ascentsAt_add (cs : List Char) (free : Nat) :
    ascentsAt cs (cs.length + free) = ascents cs free := by
  rw [ascentsAt, List.take_of_length_le (Nat.le_add_right ..), Nat.add_sub_cancel_left]

/-- **A step up** leads to the first word that is left. -/
theorem exists_wordsAfter (hcs : ∀ c ∈ cs, isLetter c) (h : wordsAfter cs (cs.length + free) ≠ []) :
    ∃ cs' free', increment (stretch cs free) = stretch cs' free' ∧ (∀ c ∈ cs', isLetter c) ∧
      cs'.length + free' = cs.length + free ∧
      wordsAfter cs (cs.length + free) = cs' :: wordsAfter cs' (cs.length + free) := by
  have hleft : 0 < ascents cs free := by
    rw [← ascentsAt_add, ← length_wordsAfter hcs]
    exact List.length_pos_iff.2 h
  rcases increment_cases hleft with ⟨free, rfl⟩ | ⟨rfl, p, a, q, rfl, ha, hq⟩
  · refine ⟨cs ++ ['A'], free, increment_free cs free, ?_, ?_, wordsAfter_free hcs (by omega)⟩
    · exact List.forall_mem_append.2 ⟨hcs, List.forall_mem_singleton.2 (by decide)⟩
    · simp only [List.length_append, List.length_singleton]
      omega
  · obtain ⟨hp, hcs⟩ := List.forall_mem_append.1 hcs
    have hq : ∀ c ∈ q, isLetter c ∧ raises c = 0 := fun c hc =>
      ⟨hcs c (List.mem_cons_of_mem a hc), hq c hc⟩
    refine ⟨p ++ [nextLetter a], q.length, increment_full ha fun c hc => (hq c hc).2, ?_, ?_,
      wordsAfter_full hp ha hq⟩
    · exact List.forall_mem_append.2 ⟨hp, List.forall_mem_singleton.2 (nextLetter_spec ha).1⟩
    · simp only [List.length_append, List.length_cons, List.length_nil]
      omega

/-- **A step down** leads to the first string that is left. -/
theorem exists_stringsBefore (hcs : ∀ c ∈ cs, isLetter c)
    (h : stringsBefore cs (cs.length + free) ≠ []) :
    ∃ cs' free', decrement (stretch cs free) = stretch cs' free' ∧ (∀ c ∈ cs', isLetter c) ∧
      cs'.length + free' = cs.length + free ∧
      stringsBefore cs (cs.length + free) = cs' :: stringsBefore cs' (cs.length + free) := by
  rcases List.eq_nil_or_concat cs with rfl | ⟨p, a, rfl⟩
  · exact absurd (stringsBefore_nil _) h
  rw [List.concat_eq_append] at hcs ⊢
  obtain ⟨hp, ha⟩ := List.forall_mem_append.1 hcs
  rw [List.length_append, List.length_singleton]
  by_cases hlower : 0 < lowers a
  · refine ⟨p ++ previousLetter a :: List.replicate free 'z', 0, decrement_lower hlower free, ?_,
      ?_, stringsBefore_lower hp hlower free⟩
    · refine List.forall_mem_append.2 ⟨hp, List.forall_mem_cons.2
        ⟨(previousLetter_spec hlower).1, fun c hc => ?_⟩⟩
      rw [List.eq_of_mem_replicate hc]
      decide
    · simp only [List.length_append, List.length_cons, List.length_replicate]
      omega
  · have hzero : lowers a = 0 := by omega
    exact ⟨p, free + 1, decrement_drop hzero free, hp, by omega,
      stringsBefore_drop hp (ha a List.mem_cons_self) hzero free⟩

end TracedTree.Letters
