import Mathlib
import TracedTree.Proofs.Batch
import TracedTree.Proofs.NextWords

/-!
# Ordered batches of texts

Ordered batches that are generated next to texts in quotes have as many keys as wanted, in order. An
ascending batch goes on behind the last text, whatever stands between the quotes. A descending one
stays below the first text that can be lowered; its walk may meet texts before that, but it makes
one more step for each of them. Between strings of letters the order of keys is that of the
strings, since a quote stands before every letter.

## Main statements

* `generate_ascending`: the keys of an ascending batch.
* `generate_descending`: the keys of a descending batch between strings of letters.
-/

namespace TracedTree.Batch

open Letters

variable {count : Nat} {s t start : List Char} {strings avoided : List (List Char)}

/-! ## The order of strings in quotes -/

/-- A quote stands before every letter, so a shorter string in quotes stays before its
continuations. -/
theorem quote_lt_quote (ht : ∀ c ∈ t, isLetter c) (h : s < t) : s ++ ['"'] < t ++ ['"'] := by
  induction s generalizing t with
  | nil =>
      cases t with
      | nil => cases h
      | cons c t => exact List.cons_lt_cons_iff.2 (.inl (le_letter (ht c List.mem_cons_self)).1)
  | cons a s ih =>
      cases t with
      | nil => cases h
      | cons c t =>
          rw [List.forall_mem_cons] at ht
          rcases List.cons_lt_cons_iff.1 h with hlt | ⟨rfl, hlt⟩
          · exact List.cons_lt_cons_iff.2 (.inl hlt)
          · exact List.cons_lt_cons_iff.2 (.inr ⟨rfl, ih ht.2 hlt⟩)

theorem textKey_lt_textKey (ht : ∀ c ∈ t, isLetter c) (h : s < t) :
    (textKey s).lt (textKey t) := by
  simp only [textKey, Key.lt_text_iff, String.toList_ofList]
  exact List.cons_lt_cons_iff.2 (.inr ⟨rfl, quote_lt_quote ht h⟩)

/-- Ascending keys of strings of letters come from ascending strings. -/
theorem pairwise_of_ascending (hletters : ∀ s ∈ strings, ∀ c ∈ s, isLetter c)
    (hsorted : Ascending (strings.map textKey)) : strings.Pairwise fun s t => ¬ t < s :=
  (List.pairwise_map.1 hsorted).imp_of_mem fun hs _ hle hlt =>
    Key.lt_iff_not_le.1 (textKey_lt_textKey (hletters _ hs) hlt) hle

/-! ## Ascending batches -/

theorem length_walk (step : Slots → Slots) (n : Nat) (slots : Slots) :
    (walk step n slots).length = n := by
  induction n generalizing slots with
  | zero => rfl
  | succ n ih => rw [walk, List.length_cons, ih]

/-- No key in quotes is refused as a number. -/
theorem find?_textKey (strings : List (List Char)) :
    (strings.map textKey).find? (·.kind != .text) = none := by
  simp [textKey, Key.kind]

theorem generate_ascendingTexts (hcount : 0 < count) (strings : List (List Char))
    (duplicates : Bool) (supply : Supply) :
    Batch.generate count .ascending .text (strings.map textKey) duplicates supply =
      .ok (ascendingTexts count strings) := by
  simp only [Batch.generate, if_neg (Nat.ne_of_gt hcount), find?_textKey, texts_textKey]

theorem generate_descendingTexts (hcount : 0 < count) (strings : List (List Char))
    (duplicates : Bool) (supply : Supply) :
    Batch.generate count .descending .text (strings.map textKey) duplicates supply =
      .ok (descendingTexts count strings duplicates) := by
  simp only [Batch.generate, if_neg (Nat.ne_of_gt hcount), find?_textKey, texts_textKey]

/-- **An ascending batch of texts extends upwards.** Next to ascending texts in quotes it has as
many keys in quotes as wanted. They ascend, and they stand behind all that exist. -/
theorem generate_ascending (hcount : 0 < count) (hsorted : Ascending (strings.map textKey))
    (duplicates : Bool) (supply : Supply) :
    ∃ (b : Batch) (new : List (List Char)),
      Batch.generate count .ascending .text (strings.map textKey) duplicates supply = .ok b ∧
      b.keys = new.map textKey ∧ b.keys.length = count ∧
      b.keys.Pairwise (fun k j => k.lt j) ∧
      ∀ a ∈ strings.map textKey, ∀ k ∈ b.keys, a.lt k := by
  obtain ⟨hbehind, hpairwise⟩ :=
    List.pairwise_cons.1 (pairwise_ascendingStrings count (strings.getLast?.getD []))
  refine ⟨_, _, generate_ascendingTexts hcount strings duplicates supply, rfl, ?_, ?_, ?_⟩
  · exact (List.length_map _).trans (length_walk ..)
  · exact List.pairwise_map.2 hpairwise
  · intro a ha k hk
    obtain ⟨s, hs, rfl⟩ := List.mem_map.1 ha
    obtain ⟨t, ht, rfl⟩ := List.mem_map.1 hk
    exact Key.lt_of_le_of_lt (textKey_le_getLast hsorted hs) (hbehind t ht)

/-- Behind a string of letters `z` and one with a sign in it. -/
theorem generate_ascending_sign :
    let existing := [['a'], ['a', 'z'], ['z', '$', 'z']]
    Ascending (existing.map textKey) ∧ 0 < 60 ∧
    ∃ (b : Batch) (new : List (List Char)),
      Batch.generate 60 .ascending .text (existing.map textKey) false (.seeded 1) = .ok b ∧
      b.keys = new.map textKey ∧ b.keys.length = 60 ∧
      b.keys.Pairwise (fun k j => k.lt j) ∧
      ∀ a ∈ existing.map textKey, ∀ k ∈ b.keys, a.lt k := by
  intro existing
  have hsorted : (existing.map textKey).Pairwise fun a b => a.le b := by decide
  exact ⟨hsorted, by decide, generate_ascending (by decide) hsorted false (.seeded 1)⟩

/-! ## Descending batches -/

/-- In a sorted list all that stands below a bound comes before the rest. -/
theorem mem_takeWhile_of_lt (hsorted : strings.Pairwise fun s t => ¬ t < s) (hs : s ∈ strings)
    (hlt : s < start) : s ∈ strings.takeWhile (· < start) := by
  induction strings with
  | nil => cases hs
  | cons t strings ih =>
      rw [List.pairwise_cons] at hsorted
      have ht : t < start := by
        rcases List.mem_cons.1 hs with rfl | hs
        · exact hlt
        · exact List.lt_of_le_of_lt (hsorted.1 s hs) hlt
      rw [List.takeWhile_cons, if_pos (decide_eq_true ht)]
      rcases List.mem_cons.1 hs with rfl | hs
      · exact List.mem_cons_self
      · exact List.mem_cons_of_mem t (ih hsorted.2 hs)

/-- A descending batch starts at no text behind one that can be lowered, and below its start it
knows all texts. -/
theorem descentFrom_spec (hsorted : strings.Pairwise fun s t => ¬ t < s) (first : List Char) :
    (∀ s ∈ strings, isEndless s → ¬ s < (descentFrom first strings false).1) ∧
      ∀ s ∈ strings, s < (descentFrom first strings false).1 →
        s ∈ (descentFrom first strings false).2 := by
  cases hfind : strings.findIdx? isEndless with
  | none =>
      rw [List.findIdx?_eq_none_iff] at hfind
      simp only [descentFrom, List.findIdx?_eq_none_iff.2 hfind]
      refine ⟨fun s hs hendless => ?_, fun s hs hlt => mem_takeWhile_of_lt hsorted hs hlt⟩
      rw [hfind s hs] at hendless
      cases hendless
  | some i =>
      obtain ⟨hi, -, hbefore⟩ := List.findIdx?_eq_some_iff_getElem.1 hfind
      have hbehind : ∀ j (hj : j < strings.length), i ≤ j → ¬ strings[j] < strings[i] := by
        intro j hj hle
        rcases Nat.lt_or_eq_of_le hle with hlt | rfl
        · exact List.pairwise_iff_getElem.1 hsorted i j hi hj hlt
        · exact List.lt_irrefl _
      simp only [descentFrom, hfind, List.getElem?_eq_getElem hi, Option.getD_some]
      constructor
      · intro s hs hendless
        obtain ⟨j, hj, rfl⟩ := List.mem_iff_getElem.1 hs
        exact hbehind j hj (Nat.le_of_not_lt fun hlt => hbefore j hlt hendless)
      · intro s hs hlt
        obtain ⟨j, hj, rfl⟩ := List.mem_iff_getElem.1 hs
        have hji : j < i := Nat.lt_of_not_le fun hle => hbehind j hj hle hlt
        exact List.mem_take_iff_getElem.2 ⟨j, by omega, rfl⟩

/-- A descending batch between texts of letters is clear. -/
theorem clear_descending (hletters : ∀ s ∈ strings, ∀ c ∈ s, isLetter c)
    (hsorted : Ascending (strings.map textKey)) :
    Clear count .descending .text (strings.map textKey) := by
  intro s hs hlt
  have hmem := mem_texts hs
  rw [texts_textKey] at hmem hlt ⊢
  exact (descentFrom_spec (pairwise_of_ascending hletters hsorted) _).2 s hmem hlt

/-- The start of a descending batch consists of letters. -/
theorem isLetter_descentFrom {first : List Char} (hfirst : ∀ c ∈ first, isLetter c)
    (hletters : ∀ s ∈ strings, ∀ c ∈ s, isLetter c) :
    ∀ c ∈ (descentFrom first strings false).1, isLetter c := by
  cases hfind : strings.findIdx? isEndless with
  | none =>
      simp only [descentFrom, hfind]
      exact List.forall_mem_append.2 ⟨hfirst, List.forall_mem_singleton.2 (by decide)⟩
  | some i =>
      obtain ⟨hi, -, -⟩ := List.findIdx?_eq_some_iff_getElem.1 hfind
      simp only [descentFrom, hfind, List.getElem?_eq_getElem hi, Option.getD_some]
      exact hletters _ (List.getElem_mem hi)

/-- The strings before a string of letters consist of letters. -/
theorem isLetter_descendingStrings (hstart : ∀ c ∈ start, isLetter c) (hendless : isEndless start)
    (hs : s ∈ descendingStrings count start) : ∀ c ∈ s, isLetter c := by
  rw [descendingStrings_eq_take hstart hendless] at hs
  have hmem := List.mem_of_mem_filter (List.mem_reverse.1 (List.mem_of_mem_take hs))
  rcases List.mem_cons.1 hmem with rfl | hmem
  · simp
  · exact (mem_words.1 hmem).2.2

/-- The strings of an ascending walk from letters consist of letters. -/
theorem isLetter_ascendingStrings (hstart : ∀ c ∈ start, isLetter c)
    (hs : s ∈ ascendingStrings count start) : ∀ c ∈ s, isLetter c := by
  rw [ascendingStrings_eq_take hstart] at hs
  exact (mem_words.1 (List.mem_of_mem_filter (List.mem_of_mem_take hs))).2.2

theorem length_descendingStrings (count : Nat) (hendless : isEndless start) :
    (descendingStrings count start).length = count := by
  rw [descendingStrings, if_pos hendless, length_walk]

/-- What is left of different strings when some are to be avoided. -/
theorem length_le_filter_add {all : List (List Char)} (hnodup : all.Nodup)
    (avoided : List (List Char)) :
    all.length ≤ (all.filter (!avoided.contains ·)).length + avoided.length := by
  have hmet : (all.filter (avoided.contains ·)).length ≤ avoided.length := by
    refine (List.subperm_of_subset (hnodup.filter _) fun s hs => ?_).length_le
    simpa using (List.mem_filter.1 hs).2
  have hsplit := List.length_eq_length_filter_add (l := all) (avoided.contains ·)
  omega

/-- The walk of a descending batch: from where it starts, and what it avoids. -/
theorem exists_descent (hcount : 0 < count) (hletters : ∀ s ∈ strings, ∀ c ∈ s, isLetter c)
    (hsorted : Ascending (strings.map textKey)) :
    ∃ (start : List Char) (avoided : List (List Char)), (∀ c ∈ start, isLetter c) ∧
      isEndless start ∧ (∀ s ∈ strings, isEndless s → ¬ s < start) ∧
      (descendingTexts count strings false).keys =
        (((descendingStrings (count + avoided.length) start).filter
          (!avoided.contains ·)).take count).map textKey := by
  cases strings with
  | nil =>
      have hendless := isEndless_ascendingStrings (Nat.ne_of_gt hcount)
      refine ⟨(ascendingStrings count ['a']).getLast?.getD [], [], ?_, hendless, by simp, ?_⟩
      · cases hlast : (ascendingStrings count ['a']).getLast? with
        | none => simp
        | some s =>
            exact isLetter_ascendingStrings (List.forall_mem_singleton.2 (by decide))
              (List.mem_of_getLast? hlast)
      · have hlength := length_descendingStrings count hendless
        simp [descendingTexts, ofDescending, List.take_of_length_le (Nat.le_of_eq hlength)]
  | cons first strings =>
      have hspec := descentFrom_spec (pairwise_of_ascending hletters hsorted) first
      exact ⟨_, _, isLetter_descentFrom (hletters first List.mem_cons_self) hletters,
        isEndless_descentFrom first (first :: strings), hspec.1, keys_descendingTexts rfl⟩

/-- **A descending batch of texts avoids existing keys.** Next to ascending strings of letters in
quotes it has as many keys as wanted. They descend, none of them exists, and they stay below the
texts that can be lowered. -/
theorem generate_descending (hcount : 0 < count) (hletters : ∀ s ∈ strings, ∀ c ∈ s, isLetter c)
    (hsorted : Ascending (strings.map textKey)) (supply : Supply) :
    ∃ b, Batch.generate count .descending .text (strings.map textKey) false supply = .ok b ∧
      b.keys.length = count ∧ b.keys.Pairwise (fun k j => j.lt k) ∧
      (∀ a ∈ strings.map textKey, ∀ k ∈ b.keys, ¬ a.same k) ∧
      ∀ s ∈ strings, isEndless s → ∀ k ∈ b.keys, k.lt (textKey s) := by
  have hgenerate : Batch.generate count .descending .text (strings.map textKey) false supply =
      .ok (descendingTexts count strings false) :=
    generate_descendingTexts hcount strings false supply
  have hfresh := fresh_generate hsorted (clear_descending hletters hsorted) hgenerate
  obtain ⟨start, avoided, hstart, hendless, hbelow, hkeys⟩ :=
    exists_descent hcount hletters hsorted
  obtain ⟨hlt, hpairwise⟩ := List.pairwise_cons.1
    (pairwise_descendingStrings (count + avoided.length) hendless)
  -- The keys are those of a part of the walk.
  have hpart : (((descendingStrings (count + avoided.length) start).filter
      (!avoided.contains ·)).take count).Sublist
        (descendingStrings (count + avoided.length) start) :=
    (List.take_sublist ..).trans List.filter_sublist
  refine ⟨_, hgenerate, ?_, ?_, hfresh.apart, ?_⟩
  · have hleft := length_le_filter_add (nodup_of_lt hpairwise) avoided
    rw [length_descendingStrings _ hendless] at hleft
    rw [hkeys, List.length_map, List.length_take]
    omega
  · rw [hkeys]
    refine List.pairwise_map.2 ((hpairwise.sublist hpart).imp_of_mem fun hs _ hlt => ?_)
    exact textKey_lt_textKey (isLetter_descendingStrings hstart hendless (hpart.subset hs)) hlt
  · intro s hs hlow k hk
    rw [hkeys] at hk
    obtain ⟨t, ht, rfl⟩ := List.mem_map.1 hk
    have ht := hlt t (hpart.subset ht)
    refine textKey_lt_textKey (hletters s hs) ?_
    rcases List.le_iff_lt_or_eq.1 (hbelow s hs hlow) with hlt | rfl
    · exact List.lt_trans ht hlt
    · exact ht

/-- Before the first text that can be lowered there are two equal ones, which the walk meets. -/
theorem generate_descending_met :
    let existing := [['A'], ['A'], ['C'], ['b', 'A']]
    (∀ s ∈ existing, ∀ c ∈ s, isLetter c) ∧ Ascending (existing.map textKey) ∧ 0 < 60 ∧
    ∃ b, Batch.generate 60 .descending .text (existing.map textKey) false (.seeded 1) = .ok b ∧
      b.keys.length = 60 ∧ b.keys.Pairwise (fun k j => j.lt k) ∧
      (∀ a ∈ existing.map textKey, ∀ k ∈ b.keys, ¬ a.same k) ∧
      ∀ s ∈ existing, isEndless s → ∀ k ∈ b.keys, k.lt (textKey s) := by
  intro existing
  have hall : existing.all (·.all isLetter) := by decide
  have hletters : ∀ s ∈ existing, ∀ c ∈ s, isLetter c := fun s hs =>
    List.all_eq_true.1 (List.all_eq_true.1 hall s hs)
  have hsorted : (existing.map textKey).Pairwise fun a b => a.le b := by decide
  exact ⟨hletters, hsorted, by decide,
    generate_descending (by decide) hletters hsorted (.seeded 1)⟩

end TracedTree.Batch
