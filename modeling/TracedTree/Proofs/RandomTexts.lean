import Mathlib
import TracedTree.Proofs.Drawing
import TracedTree.Proofs.TextBatches

/-!
# Random batches of texts

Random texts are words of letters up to a length at which there are more than twice as many words
as keys that exist or are wanted. So less than half of the words are taken at every draw, and a draw
can always find a free one. The lengths are drawn by weights that are machine floats; whatever these
are, a length from one to the longest comes out.

## Main definitions

* `longestText count texts`: the longest length that is drawn.
* `drawWord longest`: a single draw.

## Main statements

* `lt_room_requiredLength`: there are more words than demanded.
* `generate_random_texts`: the draws of a batch, and its keys.
-/

namespace TracedTree

open Letters

/-! ## Room for what is demanded -/

namespace Letters

theorem room_mono : Monotone room := monotone_nat_of_le_succ fun length => by
  rw [room_succ]
  exact Nat.le_add_right ..

/-- Up to the required length there are more words than demanded. -/
theorem lt_room_requiredLength (demand : Nat) : demand < room (requiredLength demand) := by
  have hspace : ∀ length, room length + power (length + 1) ≤ room (length + 1) := by
    intro length
    rw [room_succ]
    exact Nat.add_le_add_left (power_le _) _
  rcases searchLength_spec hspace (demand < ·) (demand + 1) (Nat.zero_le (room 0)) with
    ⟨sum, hsum, henough⟩ | hfuel
  · exact Nat.lt_of_lt_of_le (of_decide_eq_true henough) hsum
  · have hroom := le_room (0 + (demand + 1))
    rw [requiredLength, hfuel]
    omega

theorem nodup_words (length : Nat) : (words length).Nodup := by
  refine (pairwise_words length).imp ?_
  rintro s _ hlt rfl
  exact List.lt_irrefl s hlt

/-- The words stand between the first letter and the longest word of last letters. -/
theorem mem_words_bounds {s : List Char} {length : Nat} (hs : s ∈ words length) :
    (s = ['A'] ∨ ['A'] < s) ∧
      (s = List.replicate length 'z' ∨ s < List.replicate length 'z') := by
  have hlength : 0 < length := by
    obtain ⟨hne, hle, -⟩ := mem_words.1 hs
    exact Nat.lt_of_lt_of_le (List.length_pos_iff.2 hne) hle
  constructor
  · have hmem := hs
    rw [← wordsAfter_nil, wordsAfter_free (List.forall_mem_nil _) hlength] at hmem
    rcases List.mem_cons.1 hmem with rfl | hmem
    · exact .inl rfl
    · exact .inr (of_decide_eq_true (List.mem_filter.1 hmem).2)
  · have hmem : s ∈ ([] :: words length).reverse := List.mem_reverse.2 (List.mem_cons_of_mem [] hs)
    rw [reverse_words] at hmem
    rcases List.mem_cons.1 hmem with rfl | hmem
    · exact .inl rfl
    · exact .inr (of_decide_eq_true (List.mem_filter.1 (List.mem_reverse.1 hmem)).2)

end Letters

namespace Batch

variable {count : Nat} {existing : List Key} {texts : List (List Char)} {supply : Supply}
  {s : List Char} {length longest : Nat}

/-! ## A single draw -/

/-- The longest length that is drawn. -/
def longestText (count : Nat) (texts : List (List Char)) : Nat :=
  max (requiredLength (2 * (count + texts.length))) ((texts.map List.length).max?.getD 0)

/-- Draw a length up to the longest, and then letters. -/
def drawWord (longest : Nat) (supply : Supply) : List Char × Supply :=
  let (length, supply) := drawLength (weightSums longest) supply
  drawLetters length supply

theorem length_foldl_fst {β σ ι : Type} {f : List β × σ → ι → List β × σ}
    (hf : ∀ acc i, (f acc i).1.length = acc.1.length + 1) (is : List ι) (acc : List β × σ) :
    (is.foldl f acc).1.length = acc.1.length + is.length := by
  induction is generalizing acc with
  | nil => rfl
  | cons i is ih =>
      rw [List.foldl_cons, ih, hf, List.length_cons]
      omega

/-- There is one sum of weights for every length. -/
theorem length_weightSums (longest : Nat) : (weightSums longest).length = longest := by
  rw [weightSums, List.length_reverse, length_foldl_fst (fun _ _ => rfl)]
  simp

theorem drawLength_bounds (hlongest : 0 < longest) (supply : Supply) :
    1 ≤ (drawLength (weightSums longest) supply).1 ∧
      (drawLength (weightSums longest) supply).1 ≤ longest := by
  have hle : ∀ p : Float → Bool,
      ((weightSums longest).dropLast.takeWhile p).length ≤ longest - 1 := by
    intro p
    have h := (List.takeWhile_sublist (l := (weightSums longest).dropLast) p).length_le
    rwa [List.length_dropLast, length_weightSums] at h
  simp only [drawLength]
  have := hle (· ≤ supply.unit.1 * (weightSums longest).getLast?.getD 0)
  omega

theorem drawLetters_spec (length : Nat) (supply : Supply) :
    (drawLetters length supply).1.length = length ∧
      (∀ c ∈ (drawLetters length supply).1, isLetter c) ∧
      (drawLetters length supply).2.left ≤ supply.left := by
  induction length generalizing supply with
  | zero => simp [drawLetters]
  | succ length ih =>
      obtain ⟨hlength, hletters, hleft⟩ := ih (supply.below 64 alphabet.length).2
      have hused := supply.left_below_le 64 alphabet.length
      have hletter : isLetter (alphabet[(supply.below 64 alphabet.length).1]?.getD 'A') := by
        cases h : alphabet[(supply.below 64 alphabet.length).1]? with
        | none => decide
        | some c => exact mem_alphabet.1 (List.mem_of_getElem? h)
      refine ⟨congrArg Nat.succ hlength, List.forall_mem_cons.2 ⟨hletter, hletters⟩, ?_⟩
      simp only [drawLetters]
      omega

/-- What is drawn is a word up to the longest length. -/
theorem drawWord_mem (hlongest : 0 < longest) (supply : Supply) :
    (drawWord longest supply).1 ∈ words longest := by
  obtain ⟨hlow, hhigh⟩ := drawLength_bounds hlongest supply
  obtain ⟨hlength, hletters, -⟩ := drawLetters_spec (drawLength (weightSums longest) supply).1
    (drawLength (weightSums longest) supply).2
  refine mem_words.2 ⟨List.ne_nil_of_length_pos ?_, ?_, hletters⟩
  · exact Nat.lt_of_lt_of_eq hlow hlength.symm
  · exact Nat.le_trans (Nat.le_of_eq hlength) hhigh

theorem left_drawWord_le (longest : Nat) (supply : Supply) :
    (drawWord longest supply).2.left ≤ supply.left - 1 := by
  have hunit := supply.left_unit
  obtain ⟨-, -, hleft⟩ := drawLetters_spec (drawLength (weightSums longest) supply).1
    (drawLength (weightSums longest) supply).2
  exact Nat.le_trans hleft (Nat.le_of_eq hunit)

/-! ## The draws of a batch -/

/-- What exists is taken at first. -/
def firstTexts (texts : List (List Char)) (supply : Supply) : Drawing (List Char) String :=
  .start (.ofList (texts.map String.ofList)) supply

/-- Strings are drawn one by one. -/
theorem drawsBy_drawStrings (longest : Nat) :
    Drawing.DrawsBy (drawWord longest) String.ofList (drawStrings (weightSums longest) false) where
  enough fuel _ _ _ := by cases fuel <;> rfl
  missing _ _ _ _ _ := rfl

theorem exists_ends_drawStrings (count longest : Nat) (texts : List (List Char))
    (supply : Supply) :
    ∃ last, Drawing.Reached (drawWord longest) String.ofList count (firstTexts texts supply) last ∧
      last.Ends count (drawStrings (weightSums longest) false (supply.left + 1) count
        (.ofList (texts.map String.ofList)) [] supply) :=
  Drawing.exists_ends (drawsBy_drawStrings longest) (left_drawWord_le longest)
    (Nat.lt_succ_self _) (Nat.zero_add count) .first

theorem longestText_pos (count : Nat) (texts : List (List Char)) : 0 < longestText count texts := by
  have hroom := lt_room_requiredLength (2 * (count + texts.length))
  refine Nat.lt_of_lt_of_le (Nat.pos_of_ne_zero fun hzero => ?_) (Nat.le_max_left ..)
  rw [hzero] at hroom
  exact Nat.not_lt_zero _ hroom

/-- At every draw less than half of the words are taken. -/
theorem free_words {d : Drawing (List Char) String}
    (hd : Drawing.Reached (drawWord (longestText count texts)) String.ofList count
      (firstTexts texts supply) d) (hmissing : d.found.length < count) :
    2 * (words (longestText count texts)).countP (d.taken.contains <| String.ofList ·) <
        (words (longestText count texts)).length ∧
      ∃ s ∈ words (longestText count texts), d.taken.contains (String.ofList s) = false := by
  obtain ⟨-, hsize, -⟩ := hd.invariant (P := fun _ => True) fun _ => trivial
  have hfirst : (Std.HashSet.ofList (texts.map String.ofList)).size ≤ texts.length :=
    Nat.le_trans Std.HashSet.size_ofList_le (Nat.le_of_eq (List.length_map _))
  have hcode : Function.Injective String.ofList := fun _ _ => String.ofList_inj.1
  have htaken := countP_contains_le_size hcode (nodup_words (longestText count texts)) d.taken
  have hroom := lt_room_requiredLength (2 * (count + texts.length))
  have hlongest : room (requiredLength (2 * (count + texts.length))) ≤
      room (longestText count texts) := room_mono (Nat.le_max_left ..)
  rw [← length_words (longestText count texts)] at hlongest
  exact ⟨by omega, exists_free (by omega)⟩

/-! ## The keys of a batch -/

/-- A word stands in the range of its batch. -/
theorem textKey_bounds (hs : s ∈ words longest) :
    (textKey ['A']).le (textKey s) ∧ (textKey s).le (textKey (List.replicate longest 'z')) := by
  obtain ⟨hlow, hhigh⟩ := mem_words_bounds hs
  constructor
  · rcases hlow with rfl | hlt
    · exact Key.le_refl _
    · exact Key.le_of_lt (textKey_lt_textKey (mem_words.1 hs).2.2 hlt)
  · rcases hhigh with heq | hlt
    · rw [← heq]
      exact Key.le_refl _
    · refine Key.le_of_lt (textKey_lt_textKey (fun c hc => ?_) hlt)
      rw [List.eq_of_mem_replicate hc]
      decide

/-- A batch is made of the words that are drawn, unless the supply runs dry. -/
theorem randomTexts_eq (count : Nat) (texts : List (List Char)) (supply : Supply) :
    randomTexts count texts false supply =
      (drawStrings (weightSums (longestText count texts)) false (supply.left + 1) count
        (.ofList (texts.map String.ofList)) [] supply).elim
          (.error (.invalidGeneration .exhausted)) fun drawn =>
            .ok ⟨drawn.map textKey, textKey ['A'],
              textKey (List.replicate (longestText count texts) 'z')⟩ := by
  rw [randomTexts, ← longestText]
  split
  · rename_i h
    rw [h, Option.elim_none]
  · rename_i drawn h
    rw [h, Option.elim_some]

/-- The keys of a batch come from words that do not exist. -/
theorem keys_randomTexts {b : Batch} (hb : randomTexts count texts false supply = .ok b) :
    b.keys.length = count ∧ ∀ k ∈ b.keys, b.low.le k ∧ k.le b.high ∧
      ∃ s, k = textKey s ∧ s ∈ words (longestText count texts) ∧ s ∉ texts := by
  obtain ⟨last, hlast, hends⟩ :=
    exists_ends_drawStrings count (longestText count texts) texts supply
  rw [randomTexts_eq] at hb
  cases hdrawn : drawStrings (weightSums (longestText count texts)) false (supply.left + 1) count
      (.ofList (texts.map String.ofList)) [] supply with
  | none =>
      rw [hdrawn] at hb
      cases hb
  | some drawn =>
      rw [hdrawn] at hb hends
      obtain rfl := Except.ok.inj hb
      obtain ⟨new, hnew, hunseen⟩ := drawStrings_spec hdrawn
      obtain rfl : drawn = new := hnew
      obtain ⟨hlength, hwords⟩ := hlast.drawn (drawWord_mem (longestText_pos count texts)) hends
      refine ⟨by rw [List.length_map, hlength], fun k hk => ?_⟩
      obtain ⟨s, hs, rfl⟩ := List.mem_map.1 hk
      have hword := hwords s hs
      refine ⟨(textKey_bounds hword).1, (textKey_bounds hword).2, s, rfl, hword, fun hmem => ?_⟩
      have hfree := hunseen.free _ (List.mem_map_of_mem hs)
      rw [Std.HashSet.contains_ofList, ← Bool.not_eq_true, List.contains_iff_mem] at hfree
      exact hfree (List.mem_map_of_mem hmem)

theorem generate_eq_randomTexts (hcount : 0 < count) (hexisting : ∀ k ∈ existing, k.kind = .text)
    (supply : Supply) :
    Batch.generate count .random .text existing false supply =
      randomTexts count ((existing.filterMap Key.text?).map unquoted) false supply := by
  have hkind : existing.find? (·.kind != .text) = none := by simpa using hexisting
  simp only [Batch.generate, if_neg (Nat.ne_of_gt hcount), hkind]

/-- A word does not begin with a quote. -/
theorem unquoted_of_letters (hs : ∀ c ∈ s, isLetter c) : unquoted (String.ofList s) = s := by
  have hplain : Key.isQuoted (String.ofList s) = false := by
    rw [Key.isQuoted, String.toList_ofList]
    cases s with
    | nil => rfl
    | cons c s =>
        have hne : c ≠ '"' := ne_of_gt (le_letter (hs c List.mem_cons_self)).1
        simp [hne]
  simp only [unquoted, hplain, Bool.false_and, Bool.false_eq_true, if_false, String.toList_ofList]

/-- A word that is no text without its quotes is no key without them. -/
theorem not_same_text (hs : ∀ c ∈ s, isLetter c)
    (hnew : s ∉ (existing.filterMap Key.text?).map unquoted) {a : Key} (ha : a ∈ existing) :
    ¬ a.same (.text (String.ofList s)) := by
  intro hsame
  cases a with
  | number x => cases hsame
  | text text =>
      rw [Key.same_text_iff.1 hsame] at ha
      refine hnew (List.mem_map.2 ⟨_, List.mem_filterMap.2 ⟨_, ha, rfl⟩, unquoted_of_letters hs⟩)

/-- **A random batch of texts can be completed, and is fresh.** At every draw less than half of the
words up to the longest length are taken, so one is free. The batch is refused only when the words
of the supply run out. Otherwise it has as many keys as wanted, which are words in quotes within the
range of the batch. They equal neither each other nor an existing key, and no existing key is such a
word without its quotes either. -/
theorem generate_random_texts (hcount : 0 < count) (hexisting : ∀ k ∈ existing, k.kind = .text)
    (supply : Supply) :
    let texts := (existing.filterMap Key.text?).map unquoted
    let longest := longestText count texts
    let Reached := Drawing.Reached (drawWord longest) String.ofList count (firstTexts texts supply)
    (∀ d, Reached d → d.found.length < count →
      2 * (words longest).countP (d.taken.contains <| String.ofList ·) < (words longest).length ∧
      ∃ s ∈ words longest, d.taken.contains (String.ofList s) = false) ∧
    (∃ last result, Reached last ∧ last.Ends count result ∧
      Batch.generate count .random .text existing false supply =
        result.elim (.error (.invalidGeneration .exhausted)) fun drawn =>
          .ok ⟨drawn.map textKey, textKey ['A'], textKey (List.replicate longest 'z')⟩) ∧
    ∀ b, Batch.generate count .random .text existing false supply = .ok b →
      b.keys.length = count ∧ Fresh existing b.keys ∧
      ∀ k ∈ b.keys, b.low.le k ∧ k.le b.high ∧
        ∃ s, k = textKey s ∧ s ≠ [] ∧ (∀ c ∈ s, isLetter c) ∧
          ∀ a ∈ existing, ¬ a.same (.text (String.ofList s)) := by
  intro texts longest Reached
  rw [generate_eq_randomTexts hcount hexisting]
  obtain ⟨last, hlast, hends⟩ := exists_ends_drawStrings count longest texts supply
  refine ⟨fun d => free_words, ⟨last, _, hlast, hends, randomTexts_eq count texts supply⟩, ?_⟩
  intro b hb
  obtain ⟨hlength, hkeys⟩ := keys_randomTexts hb
  refine ⟨hlength, fresh_randomTexts (fun s => mem_texts) hb, fun k hk => ?_⟩
  obtain ⟨hlow, hhigh, s, hs, hword, hnew⟩ := hkeys k hk
  obtain ⟨hne, -, hletters⟩ := mem_words.1 hword
  exact ⟨hlow, hhigh, s, hs, hne, hletters, fun a => not_same_text hletters hnew⟩

/-- Next to a text in quotes, one without and an empty one. -/
theorem generate_random_texts_mixed :
    let existing : List Key := [.text "", .text "\"A\"", .text "b"]
    let texts := (existing.filterMap Key.text?).map unquoted
    let longest := longestText 60 texts
    let supply := Supply.seeded 1
    let Reached := Drawing.Reached (drawWord longest) String.ofList 60 (firstTexts texts supply)
    0 < 60 ∧ (∀ k ∈ existing, k.kind = .text) ∧
    (∀ d, Reached d → d.found.length < 60 →
      2 * (words longest).countP (d.taken.contains <| String.ofList ·) < (words longest).length ∧
      ∃ s ∈ words longest, d.taken.contains (String.ofList s) = false) ∧
    (∃ last result, Reached last ∧ last.Ends 60 result ∧
      Batch.generate 60 .random .text existing false supply =
        result.elim (.error (.invalidGeneration .exhausted)) fun drawn =>
          .ok ⟨drawn.map textKey, textKey ['A'], textKey (List.replicate longest 'z')⟩) ∧
    ∀ b, Batch.generate 60 .random .text existing false supply = .ok b →
      b.keys.length = 60 ∧ Fresh existing b.keys ∧
      ∀ k ∈ b.keys, b.low.le k ∧ k.le b.high ∧
        ∃ s, k = textKey s ∧ s ≠ [] ∧ (∀ c ∈ s, isLetter c) ∧
          ∀ a ∈ existing, ¬ a.same (.text (String.ofList s)) := by
  intro existing texts longest supply Reached
  have hcount : 0 < 60 := by decide
  have hexisting : ∀ k ∈ existing, k.kind = .text := by decide
  exact ⟨hcount, hexisting, generate_random_texts hcount hexisting supply⟩

end Batch

end TracedTree
