import Mathlib
import TracedTree.Batch.Generate
import TracedTree.Proofs.KeyOrder
import TracedTree.Proofs.Letters
import TracedTree.Proofs.Number

/-!
# Fresh batches

A batch that is generated without duplicates is fresh when its keys equal neither each other nor an
existing key. Random texts are drawn until they are new, so their batches always are. The other
batches keep away from the existing keys by the order: they count on from the largest number or
text, or down from the smallest. This works as long as the integers that are counted are numbers,
and as long as the strings between quotes are in the order of their keys. `Clear` says so.

## Main definitions

* `Distinct keys`, `Fresh existing new`: no two keys are equal, and new ones meet no existing ones.
* `Batch.bounds?`, `Batch.Exact`: where the integers of a batch lie, and that all there are numbers.
* `Batch.quotedStrings`: the existing strings that a generated one can be.
* `Batch.Clear`: the condition under which a batch is fresh.
-/

namespace TracedTree

/-- No two keys of a list are equal. -/
def Distinct (keys : List Key) : Prop := keys.Pairwise fun a b => ¬ a.same b

/-- New keys equal neither each other nor an existing one. -/
structure Fresh (existing new : List Key) : Prop where
  distinct : Distinct new
  apart : ∀ a ∈ existing, ∀ k ∈ new, ¬ a.same k

instance (keys : List Key) : Decidable (Distinct keys) :=
  inferInstanceAs (Decidable (List.Pairwise _ _))

/-! ## Equal keys -/

namespace Key

theorem same_number_iff {x y : Number} : (number x).same (number y) ↔ x.units = y.units := by
  simp [same, compare_def, order, Number.rank_eq_iff]

theorem le_number_iff {x y : Number} : (number x).le (number y) ↔ x.units ≤ y.units := by
  rw [← Number.rank_le_iff]
  exact Int.isLE_compare

theorem same_text_iff {s t : String} : (text s).same (text t) ↔ s = t := by
  simp [same, compare_def, order]

theorem lt_text_iff {s t : String} : (text s).lt (text t) ↔ s.toList < t.toList := by
  simp only [lt, beq_iff_eq]
  exact compareOfLessAndEq_eq_lt

end Key

/-! ## Draws -/

/-- What a search finds was accepted. -/
theorem Supply.searchFrom_spec {α : Type} {word : Nat → UInt64} {accept : UInt64 → Option α}
    {taken left : Nat} {a : α} (h : (searchFrom word accept taken left).1 = some a) :
    ∃ w, accept w = some a := by
  induction left generalizing taken with
  | zero => cases h
  | succ left ih =>
      rw [searchFrom] at h
      cases hw : accept (word taken) with
      | some b =>
          rw [hw] at h
          exact ⟨word taken, hw.trans h⟩
      | none =>
          rw [hw] at h
          exact ih h

/-- A draw below a positive range stays below it. -/
theorem Supply.below_lt (s : Supply) {range : Nat} (hrange : 0 < range) :
    (s.below 64 range).1 < range := by
  have hdef : (s.below 64 range).1 =
      ((searchFrom s.word (scaled? 64 range) s.taken s.left).1).getD 0 := rfl
  rw [hdef]
  cases h : (searchFrom s.word (scaled? 64 range) s.taken s.left).1 with
  | none => exact hrange
  | some drawn =>
      obtain ⟨w, hw⟩ := searchFrom_spec h
      simp only [scaled?] at hw
      split at hw
      · have hbound : w.toNat / Nat.pow 2 (64 - 64) < 2 ^ 64 := by
          simpa using w.toNat_lt
        rw [← Option.some.inj hw, Option.getD_some]
        refine Nat.div_lt_of_lt_mul ?_
        exact Nat.mul_lt_mul_of_pos_right hbound hrange
      · cases hw

namespace Batch

variable {count : Nat} {order : BatchOrder} {existing new : List Key} {numbers : List Number}
  {supply : Supply} {b : Batch} {s t : List Char}

/-! ## Numbers -/

/-- The integers between which a batch of numbers lies. -/
def bounds? (count : Nat) (numbers : List Number) : BatchOrder → Option (Int × Int)
  | .ascending =>
    let largest := numbers.getLast?.elim 0 Number.floor
    some (largest + 1, largest + count)
  | .descending =>
    let smallest := numbers.head?.elim ((count : Int) + 1) Number.ceil
    some (smallest - count, smallest - 1)
  | .random => randomRange? count numbers false

/-- Integers of at most `2 ^ 53` in magnitude lie between the bounds, and those are numbers. -/
def Exact (bounds : Int × Int) : Prop := -2 ^ 53 ≤ bounds.1 ∧ bounds.2 ≤ 2 ^ 53

instance (bounds : Int × Int) : Decidable (Exact bounds) := inferInstanceAs (Decidable (_ ∧ _))

theorem units_of_exact {bounds : Int × Int} (hexact : Exact bounds) {i : Int}
    (hlow : bounds.1 ≤ i) (hhigh : i ≤ bounds.2) : (Number.ofInt i).units = i * Number.one :=
  Number.units_ofInt (Int.le_trans hexact.1 hlow) (Int.le_trans hhigh hexact.2)

/-- Different integers of which no existing number has the value make fresh keys. -/
theorem fresh_ofInt {bounds : Int × Int} (hexact : Exact bounds) {drawn : List Int}
    (hwithin : ∀ i ∈ drawn, bounds.1 ≤ i ∧ i ≤ bounds.2) (hnodup : drawn.Nodup)
    (happart : ∀ x ∈ numbers, ∀ i ∈ drawn, x.units ≠ i * Number.one) :
    Fresh (numbers.map .number) (drawn.map .ofInt) := by
  have hunits : ∀ i ∈ drawn, (Number.ofInt i).units = i * Number.one := fun i hi =>
    units_of_exact hexact (hwithin i hi).1 (hwithin i hi).2
  constructor
  · refine List.pairwise_map.2 (hnodup.imp_of_mem ?_)
    intro i j hi hj hne hsame
    have heq := Key.same_number_iff.1 hsame
    rw [hunits i hi, hunits j hj] at heq
    exact hne (Int.eq_of_mul_eq_mul_right (Int.ne_of_gt Number.one_pos) heq)
  · intro a ha k hk hsame
    obtain ⟨x, hx, rfl⟩ := List.mem_map.1 ha
    obtain ⟨i, hi, rfl⟩ := List.mem_map.1 hk
    exact happart x hx i hi ((Key.same_number_iff.1 hsame).trans (hunits i hi))

/-- A number key is the key of its number. -/
theorem map_number (h : ∀ k ∈ existing, k.kind = .number) :
    (existing.filterMap Key.number?).map Key.number = existing := by
  induction existing with
  | nil => rfl
  | cons k existing ih =>
      have hrest := ih fun j hj => h j (List.mem_cons_of_mem k hj)
      have hk := h k List.mem_cons_self
      cases k with
      | text s => cases hk
      | number x => simp [Key.number?, hrest]

/-- Every number lies below the integers behind the largest one. -/
theorem units_lt_of_ascending (hsorted : Ascending (numbers.map .number)) {x : Number}
    (hx : x ∈ numbers) {i : Int} (hi : numbers.getLast?.elim 0 Number.floor < i) :
    x.units < i * Number.one := by
  rcases List.eq_nil_or_concat numbers with rfl | ⟨init, last, rfl⟩
  · cases hx
  rw [List.concat_eq_append] at hx hi hsorted
  have hfloor : last.floor + 1 ≤ i := by
    rw [List.getLast?_concat] at hi
    exact hi
  have hle : x.units ≤ last.units := by
    rcases List.mem_append.1 hx with hx | hx
    · rw [List.map_append] at hsorted
      exact Key.le_number_iff.1 ((List.pairwise_append.1 hsorted).2.2 _ (List.mem_map_of_mem hx) _
        (by simp))
    · rw [List.mem_singleton.1 hx]
  calc x.units ≤ last.units := hle
    _ < (last.floor + 1) * Number.one := last.units_lt_floor
    _ ≤ i * Number.one := Int.mul_le_mul_of_nonneg_right hfloor (Int.le_of_lt Number.one_pos)

/-- Every number lies above the integers before the smallest one. -/
theorem lt_units_of_ascending (hsorted : Ascending (numbers.map .number)) {x : Number}
    (hx : x ∈ numbers) {start i : Int} (hi : i < numbers.head?.elim start Number.ceil) :
    i * Number.one < x.units := by
  cases numbers with
  | nil => cases hx
  | cons first numbers =>
      have hceil : i ≤ first.ceil - 1 := by
        have : i < first.ceil := hi
        omega
      have hle : first.units ≤ x.units := by
        rcases List.mem_cons.1 hx with rfl | hx
        · exact Int.le_refl _
        · exact Key.le_number_iff.1
            ((List.pairwise_cons.1 hsorted).1 _ (List.mem_map_of_mem hx))
      calc i * Number.one ≤ (first.ceil - 1) * Number.one :=
            Int.mul_le_mul_of_nonneg_right hceil (Int.le_of_lt Number.one_pos)
        _ < first.units := first.ceil_lt_units
        _ ≤ x.units := hle

/-- The case of integers that are counted up or down. -/
theorem fresh_range {bounds : Int × Int} (hexact : Exact bounds) {f : Nat → Int}
    (hwithin : ∀ i < count, bounds.1 ≤ f i ∧ f i ≤ bounds.2) (hinjective : f.Injective)
    (happart : ∀ x ∈ numbers, ∀ i, x.units ≠ f i * Number.one) :
    Fresh (numbers.map .number) ((List.range count).map fun i => .ofInt (f i)) := by
  have hfresh : Fresh (numbers.map .number) (((List.range count).map f).map .ofInt) := by
    refine fresh_ofInt hexact ?_ (List.Nodup.map hinjective List.nodup_range) ?_
    · intro i hi
      obtain ⟨j, hj, rfl⟩ := List.mem_map.1 hi
      exact hwithin j (List.mem_range.1 hj)
    · intro x hx i hi
      obtain ⟨j, -, rfl⟩ := List.mem_map.1 hi
      exact happart x hx j
  rwa [List.map_map] at hfresh

theorem fresh_ascendingNumbers (hsorted : Ascending (numbers.map .number))
    (hexact : ∀ bounds ∈ bounds? count numbers .ascending, Exact bounds) :
    Fresh (numbers.map .number) (ascendingNumbers count numbers).keys := by
  refine fresh_range (hexact _ rfl) ?_ ?_ ?_
  · intro i hi
    dsimp only
    omega
  · intro i j heq
    dsimp only at heq
    omega
  · intro x hx i
    exact Int.ne_of_lt (units_lt_of_ascending hsorted hx (by omega))

theorem fresh_descendingNumbers (hsorted : Ascending (numbers.map .number))
    (hexact : ∀ bounds ∈ bounds? count numbers .descending, Exact bounds) :
    Fresh (numbers.map .number) (descendingNumbers count numbers).keys := by
  refine fresh_range (hexact _ rfl) ?_ ?_ ?_
  · intro i hi
    dsimp only
    omega
  · intro i j heq
    dsimp only at heq
    omega
  · intro x hx i
    have hbelow := Int.sub_lt_self (numbers.head?.elim ((count : Int) + 1) Number.ceil)
      (Int.natCast_pos.2 i.succ_pos)
    exact Int.ne_of_gt (lt_units_of_ascending hsorted hx hbelow)

section Drawing

variable {α : Type} [BEq α] [Hashable α] {taken : Std.HashSet α} {x : α} {xs : List α}

/-- Different values of which none is taken. -/
structure Unseen (taken : Std.HashSet α) (xs : List α) : Prop where
  nodup : xs.Nodup
  free : ∀ x ∈ xs, taken.contains x = false

theorem Unseen.nil (taken : Std.HashSet α) : Unseen taken [] := ⟨List.nodup_nil, by simp⟩

/-- A free value comes before values that are drawn when it is taken. -/
theorem Unseen.cons [LawfulBEq α] (h : Unseen (taken.insert x) xs) (hx : taken.contains x = false) :
    Unseen taken (x :: xs) := by
  have hfree : ∀ y ∈ xs, (x == y) = false ∧ taken.contains y = false := by
    intro y hy
    have htaken := h.free y hy
    rwa [Std.HashSet.contains_insert, Bool.or_eq_false_iff] at htaken
  refine ⟨List.nodup_cons.2 ⟨fun hmem => ?_, h.nodup⟩, ?_⟩
  · simpa using (hfree x hmem).1
  · intro y hy
    rcases List.mem_cons.1 hy with rfl | hy
    · exact hx
    · exact (hfree y hy).2

end Drawing

/-- What is drawn without duplicates is new, and lies within the range. -/
theorem drawIntegers_spec {low : Int} {width : Nat} (hwidth : 0 < width) {fuel missing : Nat}
    {taken : Std.HashSet Int} {known drawn : List Int} {supply : Supply}
    (h : drawIntegers low width false fuel missing taken known supply = some drawn) :
    ∃ new, drawn = known.reverse ++ new ∧ Unseen taken new ∧
      ∀ i ∈ new, low ≤ i ∧ i < low + width := by
  induction fuel generalizing missing taken known supply with
  | zero =>
      cases missing with
      | zero => exact ⟨[], by simpa [drawIntegers] using h.symm, .nil taken, by simp⟩
      | succ missing => cases h
  | succ fuel ih =>
      cases missing with
      | zero => exact ⟨[], by simpa [drawIntegers] using h.symm, .nil taken, by simp⟩
      | succ missing =>
          have hoffset := supply.below_lt hwidth
          simp only [drawIntegers, Bool.false_or] at h
          split at h
          · cases h
          split at h
          · rename_i hfree
            obtain ⟨new, rfl, hnew, hwithin⟩ := ih h
            refine ⟨(low + (supply.below 64 width).1) :: new, by simp,
              hnew.cons (by simpa using hfree), ?_⟩
            intro i hi
            rcases List.mem_cons.1 hi with rfl | hi
            · omega
            · exact hwithin i hi
          · exact ih h

/-- An integer that fits into 64 bits is not changed by holding it within. -/
theorem integers_singleton {x : Number} {i : Int} (hunits : x.units = i * Number.one)
    (hi : i.natAbs < 2 ^ 63) : integers [x] = [i] := by
  have hclamp : max (-maxInteger - 1) (min i maxInteger) = i := by
    rw [maxInteger]
    omega
  simp [integers, Number.isWhole_of_units hunits, Number.truncate_eq hunits, hclamp]

/-- An existing number with the value of a small integer of the range is taken. -/
theorem mem_takenBetween {low high i : Int} (hlow : low ≤ i) (hhigh : i ≤ high)
    (hsmall : -2 ^ 53 ≤ i ∧ i ≤ 2 ^ 53) {x : Number} (hx : x ∈ numbers)
    (hunits : x.units = i * Number.one) : (takenBetween numbers low high).contains i := by
  have hsub : (integers [x]).Sublist (integers numbers) :=
    ((List.singleton_sublist.2 hx).filter _).map _
  rw [integers_singleton hunits (by omega), List.singleton_sublist] at hsub
  rw [takenBetween, Std.HashSet.contains_ofList, List.contains_iff_mem]
  exact List.mem_filter.2 ⟨hsub, by simp [hlow, hhigh]⟩

theorem fresh_randomNumbers (hexact : ∀ bounds ∈ bounds? count numbers .random, Exact bounds)
    (h : randomNumbers count numbers false supply = .ok b) :
    Fresh (numbers.map .number) b.keys := by
  rw [randomNumbers] at h
  split at h
  · cases h
  rename_i low high hrange
  have hexact := hexact (low, high) hrange
  simp only at h
  split at h
  · cases h
  rename_i hordered
  split at h
  · cases h
  split at h
  · cases h
  rename_i drawn hdrawn
  obtain rfl := Except.ok.inj h
  obtain ⟨new, hnew, hunseen, hrange⟩ := drawIntegers_spec (by omega) hdrawn
  obtain rfl : drawn = new := hnew
  have hwithin : ∀ i ∈ drawn, low ≤ i ∧ i ≤ high := by
    intro i hi
    have := hrange i hi
    omega
  refine fresh_ofInt hexact hwithin hunseen.nodup ?_
  intro x hx i hi hunits
  have hbetween := hwithin i hi
  have htaken := mem_takenBetween hbetween.1 hbetween.2
    ⟨Int.le_trans hexact.1 hbetween.1, Int.le_trans hbetween.2 hexact.2⟩ hx hunits
  rw [hunseen.free i hi] at htaken
  cases htaken

/-! ## Texts -/

open Letters

/-- The strings between the quotes of the existing keys that have quotes. -/
def quotedStrings (existing : List Key) : List (List Char) :=
  ((existing.filterMap Key.text?).filter fun text =>
    Key.isQuoted text && 2 ≤ text.toList.length).map unquoted

theorem same_textKey_iff {s t : List Char} : (textKey s).same (textKey t) ↔ s = t := by
  simp [textKey, Key.same_text_iff, String.ofList_inj]

theorem textKey_lt (h : Follows s t) : (textKey s).lt (textKey t) := by
  simp only [textKey, Key.lt_text_iff, String.toList_ofList]
  exact List.cons_lt_cons_iff.2 (.inr ⟨rfl, h.lt⟩)

theorem isQuoted_ofList (s : List Char) :
    (Key.isQuoted (String.ofList ('"' :: s ++ ['"'])) &&
      2 ≤ (String.ofList ('"' :: s ++ ['"'])).toList.length) = true := by
  have hlast : ('"' :: s ++ ['"']).getLast? = some '"' := List.getLast?_concat
  rw [Key.isQuoted, String.toList_ofList, hlast]
  simp

theorem unquoted_ofList (s : List Char) : unquoted (String.ofList ('"' :: s ++ ['"'])) = s := by
  simp only [unquoted, isQuoted_ofList, if_true]
  rw [String.toList_ofList, List.cons_append, List.tail_cons, List.dropLast_concat]

/-- The texts of keys in quotes, read without them. -/
theorem texts_textKey (strings : List (List Char)) :
    ((strings.map textKey).filterMap Key.text?).map unquoted = strings := by
  induction strings with
  | nil => rfl
  | cons s strings ih =>
      change unquoted _ :: ((strings.map textKey).filterMap Key.text?).map unquoted = _
      rw [ih, unquoted_ofList]

/-- The last of some ascending texts stands behind all of them. -/
theorem textKey_le_getLast {strings : List (List Char)}
    (hsorted : Ascending (strings.map textKey)) (hs : s ∈ strings) :
    (textKey s).le (textKey (strings.getLast?.getD [])) := by
  rcases List.eq_nil_or_concat strings with rfl | ⟨init, last, rfl⟩
  · cases hs
  rw [List.concat_eq_append] at hs hsorted ⊢
  rw [List.getLast?_concat, Option.getD_some]
  rcases List.mem_append.1 hs with hs | hs
  · rw [List.map_append] at hsorted
    exact (List.pairwise_append.1 hsorted).2.2 _ (List.mem_map_of_mem hs) _ (by simp)
  · rw [List.mem_singleton.1 hs]
    exact Key.le_refl _

theorem mem_texts (hs : s ∈ quotedStrings existing) :
    s ∈ (existing.filterMap Key.text?).map unquoted := by
  obtain ⟨text, htext, rfl⟩ := List.mem_map.1 hs
  exact List.mem_map_of_mem (List.mem_of_mem_filter htext)

/-- An existing key that equals the key of a string is that string in quotes. -/
theorem mem_quotedStrings {a : Key} (ha : a ∈ existing) {s : List Char}
    (hsame : a.same (textKey s)) : s ∈ quotedStrings existing := by
  obtain ⟨text, rfl, htext⟩ : ∃ text, a = .text text ∧
      text = String.ofList ('"' :: s ++ ['"']) := by
    cases a with
    | number x => cases hsame
    | text text => exact ⟨text, rfl, Key.same_text_iff.1 hsame⟩
  rw [quotedStrings, ← unquoted_ofList s, ← htext]
  refine List.mem_map_of_mem (List.mem_filter.2 ⟨List.mem_filterMap.2 ⟨_, ha, rfl⟩, ?_⟩)
  rw [htext]
  exact isQuoted_ofList s

/-- Different strings that no existing key has between quotes make fresh keys. -/
theorem fresh_textKey {strings : List (List Char)} (hnodup : strings.Nodup)
    (happart : ∀ s ∈ quotedStrings existing, s ∉ strings) :
    Fresh existing (strings.map textKey) := by
  constructor
  · exact List.pairwise_map.2 (hnodup.imp fun hne hsame => hne (same_textKey_iff.1 hsame))
  · intro a ha k hk hsame
    obtain ⟨s, hs, rfl⟩ := List.mem_map.1 hk
    exact happart s (mem_quotedStrings ha hsame) hs

/-- The keys of an ascending walk stand behind its start and behind each other. -/
theorem pairwise_ascendingStrings (count : Nat) (start : List Char) :
    (start :: ascendingStrings count start).Pairwise fun s t => (textKey s).lt (textKey t) := by
  have : Trans (fun s t => (textKey s).lt (textKey t) = true)
    (fun s t => (textKey s).lt (textKey t) = true) (fun s t => (textKey s).lt (textKey t) = true) :=
    ⟨fun h h' => Key.lt_of_le_of_lt (Key.le_of_lt h) h'⟩
  exact List.isChain_iff_pairwise.1
    ((isChain_ascendingStrings count start).imp fun _ _ h => textKey_lt h)

theorem fresh_ascendingTexts {texts : List (List Char)}
    (hbelow : ∀ s ∈ quotedStrings existing, (textKey s).le (textKey (texts.getLast?.getD []))) :
    Fresh existing (ascendingTexts count texts).keys := by
  have hpairwise :=
    List.pairwise_cons.1 (pairwise_ascendingStrings count (texts.getLast?.getD []))
  refine fresh_textKey (hpairwise.2.imp ?_) ?_
  · rintro s _ hlt rfl
    exact Key.not_same_of_lt hlt (Key.same_refl _)
  · intro s hs hmem
    have hlt := Key.lt_of_le_of_lt (hbelow s hs) (hpairwise.1 s hmem)
    exact Key.not_same_of_lt hlt (Key.same_refl _)

/-- A descending batch starts at an endless string. -/
theorem isEndless_descentFrom (first : List Char) (texts : List (List Char)) :
    isEndless (descentFrom first texts false).1 := by
  cases hfind : texts.findIdx? isEndless with
  | none => simp [descentFrom, hfind, isEndless, isLetter]
  | some i =>
      obtain ⟨hi, hendless, -⟩ := List.findIdx?_eq_some_iff_getElem.1 hfind
      simpa [descentFrom, hfind, hi] using hendless

theorem nodup_of_lt {strings : List (List Char)} (h : strings.Pairwise fun s t => t < s) :
    strings.Nodup := by
  refine h.imp ?_
  rintro s _ hlt rfl
  exact List.lt_irrefl s hlt

/-- Without a text a descending batch starts at an endless string as well. -/
theorem isEndless_ascendingStrings (hcount : count ≠ 0) :
    isEndless ((ascendingStrings count ['a']).getLast?.getD []) := by
  have : Trans (fun s t => isEndless s → isEndless t) (fun s t => isEndless s → isEndless t)
    (fun s t => isEndless s → isEndless t) := ⟨fun h h' hs => h' (h hs)⟩
  have hchain := (isChain_ascendingStrings count ['a']).imp
    fun s t (h : Follows s t) => (h.isEndless : isEndless s → isEndless t)
  have hall := (List.pairwise_cons.1 (List.isChain_iff_pairwise.1 hchain)).1
  cases hlast : (ascendingStrings count ['a']).getLast? with
  | none =>
      obtain ⟨n, rfl⟩ := Nat.exists_eq_succ_of_ne_zero hcount
      cases List.getLast?_eq_none_iff.1 hlast
  | some t => exact hall t (List.mem_of_getLast? hlast) (by decide)

/-- The keys of a descending batch, by where its walk starts and what the walk is to avoid. -/
theorem keys_descendingTexts {texts avoided : List (List Char)} {first start : List Char}
    (hfrom : descentFrom first (first :: texts) false = (start, avoided)) :
    (descendingTexts count (first :: texts) false).keys =
      (((descendingStrings (count + avoided.length) start).filter
        (!avoided.contains ·)).take count).map textKey := by
  simp only [descendingTexts, hfrom, ofDescending]

theorem fresh_descendingTexts {texts : List (List Char)} (hcount : count ≠ 0)
    (htexts : ∀ s ∈ quotedStrings existing, s ∈ texts)
    (havoided : ∀ s ∈ quotedStrings existing,
      s < (descentFrom (texts.head?.getD []) texts false).1 →
        s ∈ (descentFrom (texts.head?.getD []) texts false).2) :
    Fresh existing (descendingTexts count texts false).keys := by
  cases texts with
  | nil =>
      have hpairwise :=
        List.pairwise_cons.1 (pairwise_descendingStrings count (isEndless_ascendingStrings hcount))
      refine fresh_textKey (nodup_of_lt hpairwise.2) ?_
      intro s hs
      cases htexts s hs
  | cons first texts =>
      obtain ⟨start, avoided, hfrom⟩ : ∃ start avoided,
          descentFrom first (first :: texts) false = (start, avoided) := ⟨_, _, rfl⟩
      have hendless := isEndless_descentFrom first (first :: texts)
      rw [List.head?_cons, Option.getD_some, hfrom] at havoided
      rw [hfrom] at hendless
      have hpairwise := List.pairwise_cons.1
        (pairwise_descendingStrings (count + avoided.length) hendless)
      rw [keys_descendingTexts hfrom]
      refine fresh_textKey (((nodup_of_lt hpairwise.2).filter _).sublist (List.take_sublist ..)) ?_
      -- The walk stays below its start, and what it can meet there is left out.
      intro s hs hmem
      obtain ⟨hmem, hnew⟩ := List.mem_filter.1 (List.mem_of_mem_take hmem)
      have hmeets := havoided s hs (hpairwise.1 s hmem)
      simp [hmeets] at hnew

theorem drawStrings_spec {sums : List Float} {fuel missing : Nat} {taken : Std.HashSet String}
    {known drawn : List (List Char)} {supply : Supply}
    (h : drawStrings sums false fuel missing taken known supply = some drawn) :
    ∃ new, drawn = known.reverse ++ new ∧ Unseen taken (new.map String.ofList) := by
  induction fuel generalizing missing taken known supply with
  | zero =>
      cases missing with
      | zero => exact ⟨[], by simpa [drawStrings] using h.symm, .nil taken⟩
      | succ missing => cases h
  | succ fuel ih =>
      cases missing with
      | zero => exact ⟨[], by simpa [drawStrings] using h.symm, .nil taken⟩
      | succ missing =>
          simp only [drawStrings, Bool.false_or] at h
          split at h
          · cases h
          split at h
          · rename_i hfree
            obtain ⟨new, rfl, hnew⟩ := ih h
            exact ⟨_ :: new, by simp, hnew.cons (by simpa using hfree)⟩
          · exact ih h

theorem fresh_randomTexts {texts : List (List Char)}
    (htexts : ∀ s ∈ quotedStrings existing, s ∈ texts)
    (h : randomTexts count texts false supply = .ok b) : Fresh existing b.keys := by
  simp only [randomTexts] at h
  split at h
  · cases h
  rename_i drawn hdrawn
  obtain rfl := Except.ok.inj h
  obtain ⟨new, hnew, hunseen⟩ := drawStrings_spec hdrawn
  obtain rfl : drawn = new := hnew
  refine fresh_textKey (hunseen.nodup.of_map _) fun s hs hmem => ?_
  have htaken := hunseen.free _ (List.mem_map_of_mem hmem)
  rw [Std.HashSet.contains_ofList] at htaken
  have hmem : String.ofList s ∈ texts.map String.ofList := List.mem_map_of_mem (htexts s hs)
  rw [← List.contains_iff_mem, htaken] at hmem
  cases hmem

/-! ## Batches of both kinds -/

/-- The cases in which the ways of avoiding existing keys work. Integers of at most `2 ^ 53` are not
rounded. An ascending batch of texts starts where no text in quotes stands behind, and a descending
one knows all those in quotes below its start. Random texts are always compared. -/
def Clear (count : Nat) (order : BatchOrder) (kind : Kind) (existing : List Key) : Prop :=
  let texts := (existing.filterMap Key.text?).map unquoted
  match kind, order with
  | .number, order =>
    ∀ bounds ∈ bounds? count (existing.filterMap Key.number?) order, Exact bounds
  | .text, .ascending =>
    ∀ s ∈ quotedStrings existing, (textKey s).le (textKey (texts.getLast?.getD []))
  | .text, .descending =>
    let (start, avoided) := descentFrom (texts.head?.getD []) texts false
    ∀ s ∈ quotedStrings existing, s < start → s ∈ avoided
  | .text, .random => True

instance (count : Nat) (order : BatchOrder) (kind : Kind) (existing : List Key) :
    Decidable (Clear count order kind existing) :=
  match kind, order with
  | .number, order =>
    inferInstanceAs (Decidable (∀ bounds ∈ bounds? count _ order, Exact bounds))
  | .text, .ascending =>
    inferInstanceAs (Decidable (∀ s ∈ quotedStrings existing, _))
  | .text, .descending =>
    inferInstanceAs (Decidable (∀ s ∈ quotedStrings existing, s < _ → s ∈ _))
  | .text, .random => inferInstanceAs (Decidable True)

/-- **A clear batch is fresh.** -/
theorem fresh_generate {kind : Kind} (hsorted : Ascending existing)
    (hclear : Clear count order kind existing)
    (h : Batch.generate count order kind existing false supply = .ok b) :
    Fresh existing b.keys := by
  simp only [Batch.generate] at h
  split at h
  · cases h
  rename_i hcount
  split at h
  · cases h
  rename_i hkind
  have hkind : ∀ k ∈ existing, k.kind = kind := by simpa using hkind
  cases kind with
  | number =>
      have hnumbers := map_number hkind
      rw [← hnumbers] at hsorted ⊢
      cases order with
      | ascending =>
          obtain rfl := Except.ok.inj h
          exact fresh_ascendingNumbers hsorted hclear
      | descending =>
          obtain rfl := Except.ok.inj h
          exact fresh_descendingNumbers hsorted hclear
      | random => exact fresh_randomNumbers hclear h
  | text =>
      have htexts : ∀ s ∈ quotedStrings existing, s ∈ (existing.filterMap Key.text?).map unquoted :=
        fun s hs => mem_texts hs
      cases order with
      | ascending =>
          obtain rfl := Except.ok.inj h
          exact fresh_ascendingTexts hclear
      | descending =>
          obtain rfl := Except.ok.inj h
          exact fresh_descendingTexts hcount htexts hclear
      | random => exact fresh_randomTexts htexts h

end Batch

end TracedTree
