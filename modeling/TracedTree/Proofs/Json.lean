import Mathlib.Data.List.Forall2
import Mathlib.Data.List.TakeWhile
import TracedTree.Json.Reader
import TracedTree.Proofs.Quoted

/-!
# JSON texts read back

A value that is made from texts, natural numbers, truth values, arrays and records reads back from
the text that is written for it. Between the two stand the tokens of the value: scanning the
written text gives them, and the reader builds the value from them.

## Main definitions

* `Json.Plain j`: the value is made from texts, natural numbers and truth values.
* `Json.Scans text tokens`: scanning the text gives the tokens, whatever follows.
* `Json.Builds tokens j`: reading the tokens gives the value, wherever it is expected.
* `Json.ReadsBack text j`: the text scans to tokens that build the value.

## Main statements

* `Json.read?_write`: a plain value reads back.
-/

namespace TracedTree

/-! ## Numerals -/

namespace Numeral

/-- A number other than zero is not written with a zero in front. -/
theorem head?_toDigits_ne {n : Nat} (hn : n ≠ 0) : (Nat.toDigits 10 n).head? ≠ some '0' := by
  induction n using Nat.strongRecOn with
  | _ n ih =>
      by_cases hlow : n < 10
      · have hdigit : ∀ m < 10, m ≠ 0 → Nat.digitChar m ≠ '0' := by decide
        rw [Nat.toDigits_of_lt_base hlow]
        simpa using hdigit n hlow hn
      · have hhead := ih (n / 10) (by omega) (by omega)
        rw [Nat.toDigits_of_base_le (by decide) (by omega)]
        obtain ⟨c, rest, hc⟩ :=
          List.exists_cons_of_ne_nil (Nat.toDigits_ne_nil (n := n / 10) (b := 10))
        rw [hc] at hhead ⊢
        simpa using hhead

theorem isDigit_toDigits (n : Nat) : ∀ c ∈ Nat.toDigits 10 n, c.isDigit = true :=
  fun _ hc => Nat.isDigit_of_mem_toDigits (by decide) (by decide) hc

/-- The digits of a natural number are a numeral without sign, fraction and exponent. -/
theorem ofChars?_toDigits (n : Nat) :
    ofChars? (Nat.toDigits 10 n) = some ⟨false, Nat.toDigits 10 n, [], none, true⟩ := by
  have hdigits := isDigit_toDigits n
  have hzero : (Nat.toDigits 10 n).head? = some '0' → (Nat.toDigits 10 n).length = 1 := by
    intro h
    by_cases hn : n = 0
    · subst hn
      rfl
    · exact absurd h (head?_toDigits_ne hn)
  obtain ⟨c, rest, hc⟩ := List.exists_cons_of_ne_nil (Nat.toDigits_ne_nil (n := n) (b := 10))
  rw [hc] at hdigits hzero ⊢
  have hsign : c ≠ '-' := by
    rintro rfl
    exact absurd (hdigits '-' List.mem_cons_self) (by decide)
  have htake : (c :: rest).takeWhile Char.isDigit = c :: rest := by
    rwa [List.takeWhile_eq_self_iff]
  have hdrop : (c :: rest).dropWhile Char.isDigit = [] := by
    rwa [List.dropWhile_eq_nil_iff]
  have hwhole : whole? (c :: rest) = some (c :: rest, []) := by
    have hnot : ¬ ((c :: rest).head? = some '0' ∧ (c :: rest).length ≠ 1) :=
      fun h => h.2 (hzero h.1)
    simp only [whole?, digits?, htake, hdrop, Option.bind_eq_bind, Option.bind_some, if_neg hnot]
  simp [ofChars?, hsign, hwhole, fraction?, exponent?]

/-- A 64-bit word reads back from its digits. -/
theorem word?_toDigits {n : Nat} (hn : n < Nat.pow 2 64) :
    (ofChars? (Nat.toDigits 10 n)).bind word? = some n := by
  have hlow : ¬ Nat.pow 2 64 ≤ n := Nat.not_le.2 hn
  rw [ofChars?_toDigits, Option.bind_some, word?]
  simp only [Decimal.digitsValue, Nat.ofDigitChars_ten_toDigits]
  simpa using hlow

/-- What is read as a word is a 64-bit word. -/
theorem lt_of_word? {m : Numeral} {n : Nat} (h : m.word? = some n) : n < Nat.pow 2 64 := by
  rw [word?] at h
  split at h
  · cases h
  · rename_i hword
    obtain rfl := Option.some.inj h
    simp only [Bool.or_eq_true, decide_eq_true_eq, not_or, Nat.not_le] at hword
    exact hword.2

end Numeral

namespace Json

/-- The values that are made from texts, natural numbers and truth values. -/
inductive Plain : Json → Prop where
  | null : Plain .null
  | bool (b : Bool) : Plain (.bool b)
  | ofNat (n : Nat) : Plain (.ofNat n)
  | ofText (s : String) : Plain (.ofText s)
  | array {elements : List Json} (h : ∀ j ∈ elements, Plain j) : Plain (.array elements)
  | record {members : List (String × Json)} (h : ∀ m ∈ members, Plain m.2) :
      Plain (.record members)

/-! ## From text to tokens -/

/-- The text goes on with a character that ends a word, or not at all. -/
def Ends (rest : List Char) : Prop := ∀ c ∈ rest.head?, isWordChar c = false

/-- Between tokens the text gives the tokens, when something follows that ends a word. -/
def Scans (text : List Char) (tokens : List Token) : Prop :=
  ∀ known rest, Ends rest →
    Scan.run? .between known (text ++ rest) = Scan.run? .between (tokens.reverse ++ known) rest

variable {c : Char} {m : Mark} {text more : List Char} {tokens others : List Token}

theorem scans_nil : Scans [] [] := fun _ _ _ => rfl

theorem isWordChar_of_mark (hm : Mark.ofChar? c = some m) : isWordChar c = false := by
  unfold Mark.ofChar? at hm
  split at hm <;> first | decide | cases hm

theorem start?_mark (hm : Mark.ofChar? c = some m) :
    Scan.start? c = some (.between, [.mark m]) := by
  unfold Mark.ofChar? at hm
  split at hm <;> cases hm <;> rfl

theorem Scans.mark_cons (hm : Mark.ofChar? c = some m) (h : Scans text tokens) :
    Scans (c :: text) (.mark m :: tokens) := by
  intro known rest hrest
  rw [List.cons_append, Scan.run?, Scan.step?, start?_mark hm]
  simp only [List.reverse_cons, List.reverse_nil, List.nil_append, List.singleton_append]
  rw [h _ _ hrest, List.append_assoc, List.singleton_append]

/-- A mark ends whatever stands before it. -/
theorem Scans.append_mark (h : Scans text tokens) (hm : Mark.ofChar? c = some m)
    (hmore : Scans more others) : Scans (text ++ c :: more) (tokens ++ .mark m :: others) := by
  intro known rest hrest
  have hend : Ends (c :: more ++ rest) := by
    intro d hd
    obtain rfl : c = d := by simpa using hd
    exact isWordChar_of_mark hm
  rw [List.append_assoc, h _ _ hend, hmore.mark_cons hm _ _ hrest, List.reverse_append,
    List.append_assoc]

theorem scans_quote (s : String) : Scans (quote (Quoted.encode s)) [.string (Quoted.encode s)] := by
  intro known rest _
  have hquote : Scan.step? .between '"' = some (.string [], []) := rfl
  rw [quote, List.cons_append, Scan.run?, hquote, List.append_assoc]
  exact Quoted.run?_encode s known rest

/-- Word characters are taken up to the first other character. -/
theorem run?_word {word : List Char} (hword : ∀ c ∈ word, isWordChar c = true) (seen : List Char)
    (known : List Token) {rest : List Char} (hrest : Ends rest) :
    Scan.run? (.word seen) known (word ++ rest) =
      Scan.run? .between (.word (seen.reverse ++ word) :: known) rest := by
  induction word generalizing seen with
  | nil =>
      rw [List.nil_append, List.append_nil]
      cases rest with
      | nil => simp [Scan.run?, Scan.finish?]
      | cons d rest =>
          have hd : isWordChar d = false := hrest d rfl
          rw [Scan.run?, Scan.run?, Scan.step?, Scan.step?, hd]
          cases Scan.start? d <;> simp
  | cons d word ih =>
      have hd : isWordChar d = true := hword d List.mem_cons_self
      rw [List.cons_append, Scan.run?, Scan.step?, if_pos hd]
      simp only [List.reverse_nil, List.nil_append]
      rw [ih fun e he => hword e (List.mem_cons_of_mem d he)]
      simp

theorem scans_word {word : List Char} (hword : ∀ c ∈ word, isWordChar c = true) (hne : word ≠ []) :
    Scans word [.word word] := by
  intro known rest hrest
  obtain ⟨d, word, rfl⟩ := List.exists_cons_of_ne_nil hne
  have hd : isWordChar d = true := hword d List.mem_cons_self
  have hstart : Scan.start? d = some (.word [d], []) := by
    have hgap : isGap d = false := by
      rw [← Bool.not_eq_true]
      intro hgap
      simp only [isGap, Bool.or_eq_true, beq_iff_eq] at hgap
      rcases hgap with ((rfl | rfl) | rfl) | rfl <;> exact absurd hd (by decide)
    have hquote : d ≠ '"' := by
      rintro rfl
      exact absurd hd (by decide)
    simp [Scan.start?, hgap, hquote, hd]
  have hstep : Scan.step? .between d = some (.word [d], []) := hstart
  rw [List.cons_append, Scan.run?, hstep]
  exact run?_word (fun e he => hword e (List.mem_cons_of_mem d he)) [d] known hrest

/-- Texts with commas between them. -/
theorem Scans.append_commas {texts : List (List Char)} {tokenLists : List (List Token)}
    (h : Scans text tokens) (hall : List.Forall₂ Scans texts tokenLists) :
    Scans (text ++ texts.flatMap (',' :: ·))
      (tokens ++ tokenLists.flatMap (.mark .comma :: ·)) := by
  induction hall generalizing text tokens with
  | nil => simpa using h
  | cons hnext _ ih =>
      simp only [List.flatMap_cons, List.cons_append]
      exact h.append_mark rfl (ih hnext)

theorem intercalate_comma {α : Type} (comma : α) (xs : List α) (xss : List (List α)) :
    [comma].intercalate (xs :: xss) = xs ++ xss.flatMap (comma :: ·) := by
  induction xss generalizing xs with
  | nil => simp [List.intercalate_singleton]
  | cons ys yss ih =>
      rw [List.intercalate_cons_cons, ih, List.flatMap_cons]
      simp

/-! ## From tokens to values -/

/-- Where a value is expected, the tokens give it. -/
def Builds (tokens : List Token) (j : Json) : Prop :=
  ∀ outer rest, (Reading.value outer).run? (tokens ++ rest) = (Reading.after j outer).run? rest

/-- Where the name of a member is expected, the tokens give the member. -/
def BuildsMember (tokens : List Token) (member : List Char × Json) : Prop :=
  ∀ before outer rest, (Reading.name before outer).run? (tokens ++ rest) =
    (Reading.after member.2 (.member before member.1 :: outer)).run? rest

variable {j : Json} {name : List Char} {tokenLists : List (List Token)}

/-- A value does not begin with the end of an array, so it may stand first in one. -/
theorem Builds.firstElement (h : Builds tokens j) (outer : List Open) (rest : List Token) :
    (Reading.firstElement outer).run? (tokens ++ rest) =
      (Reading.after j (.element [] :: outer)).run? rest := by
  rw [← h]
  cases tokens with
  | nil => cases h [] []
  | cons t tokens =>
      by_cases ht : t = .mark .endArray
      · subst ht
        cases h [] []
      · rw [List.cons_append, Reading.run?, Reading.run?, Reading.step?, Reading.step?]
        exact ht

theorem Builds.member (h : Builds tokens j) (hname : Quoted.isWellFormed name = true) :
    BuildsMember (.string name :: .mark .colon :: tokens) (name, j) := by
  intro before outer rest
  rw [List.cons_append, Reading.run?, Reading.step?, Reading.name?, if_pos hname]
  exact h _ rest

/-- The name of a member is read likewise right behind the beginning of an object. -/
theorem BuildsMember.firstName {member : List Char × Json} (h : BuildsMember tokens member)
    (outer : List Open) (rest : List Token) :
    (Reading.firstName outer).run? (tokens ++ rest) =
      (Reading.after member.2 (.member [] member.1 :: outer)).run? rest := by
  rw [← h]
  cases tokens with
  | nil => cases h [] [] []
  | cons t tokens =>
      by_cases ht : t = .mark .endObject
      · subst ht
        cases h [] [] []
      · rw [List.cons_append, Reading.run?, Reading.run?, Reading.step?, Reading.step?]
        exact ht

theorem after_elements {elements : List Json} (hall : List.Forall₂ Builds tokenLists elements)
    (j : Json) (before : List Json) (outer : List Open) (rest : List Token) :
    (Reading.after j (.element before :: outer)).run?
        (tokenLists.flatMap (.mark .comma :: ·) ++ .mark .endArray :: rest) =
      (Reading.after (.array (before.reverse ++ j :: elements)) outer).run? rest := by
  induction hall generalizing j before with
  | nil =>
      rw [List.flatMap_nil, List.nil_append, Reading.run?, Reading.step?, List.reverse_cons]
  | @cons tokens next _ _ hnext _ ih =>
      rw [List.flatMap_cons, List.cons_append, List.cons_append, Reading.run?, Reading.step?,
        List.append_assoc]
      simp only
      rw [hnext, ih, List.reverse_cons, List.append_assoc, List.singleton_append]

theorem after_members {members : List (List Char × Json)}
    (hall : List.Forall₂ BuildsMember tokenLists members) (member : List Char × Json)
    (before : List (List Char × Json)) (outer : List Open) (rest : List Token) :
    (Reading.after member.2 (.member before member.1 :: outer)).run?
        (tokenLists.flatMap (.mark .comma :: ·) ++ .mark .endObject :: rest) =
      (Reading.after (.object (before.reverse ++ member :: members)) outer).run? rest := by
  induction hall generalizing member before with
  | nil =>
      rw [List.flatMap_nil, List.nil_append, Reading.run?, Reading.step?, List.reverse_cons]
  | @cons tokens next _ _ hnext _ ih =>
      rw [List.flatMap_cons, List.cons_append, List.cons_append, Reading.run?, Reading.step?,
        List.append_assoc]
      simp only
      rw [hnext, ih, List.reverse_cons, List.append_assoc, List.singleton_append]

/-! ## Written values -/

/-- Scanning the text gives tokens that build the value. -/
def ReadsBack (text : List Char) (j : Json) : Prop := ∃ tokens, Scans text tokens ∧ Builds tokens j

theorem readsBack_word {word : List Char} (hword : ∀ c ∈ word, isWordChar c = true)
    (hne : word ≠ []) (hj : ofWord? word = some j) : ReadsBack word j := by
  refine ⟨[.word word], scans_word hword hne, fun outer rest => ?_⟩
  rw [List.singleton_append, Reading.run?, Reading.step?, Reading.begin?, hj]
  rfl

theorem readsBack_ofNat (n : Nat) : ReadsBack (ofNat n).writeChars (ofNat n) := by
  have hdigits := Numeral.isDigit_toDigits n
  have hword : ∀ c ∈ Nat.toDigits 10 n, isWordChar c = true := by
    intro c hc
    simp [isWordChar, Char.isAlphanum, hdigits c hc]
  have hname : ∀ name : List Char, 'l' ∈ name ∨ 'e' ∈ name → Nat.toDigits 10 n ≠ name := by
    rintro name (hl | he) rfl
    · exact absurd (hdigits _ hl) (by decide)
    · exact absurd (hdigits _ he) (by decide)
  rw [ofNat, writeChars]
  refine readsBack_word hword Nat.toDigits_ne_nil ?_
  rw [ofWord?, if_neg (hname _ (by decide)), if_neg (hname _ (by decide)),
    if_neg (hname _ (by decide)), Numeral.ofChars?_toDigits, Option.map_some]

theorem readsBack_ofText (s : String) : ReadsBack (ofText s).writeChars (ofText s) := by
  rw [ofText, writeChars]
  refine ⟨_, scans_quote s, fun outer rest => ?_⟩
  rw [List.singleton_append, Reading.run?, Reading.step?, Reading.begin?,
    if_pos (Quoted.isWellFormed_encode s)]

theorem readsBack_array {elements : List Json}
    (h : ∀ j ∈ elements, ReadsBack j.writeChars j) :
    ReadsBack (array elements).writeChars (array elements) := by
  have hall : ∃ tokenLists, List.Forall₂ Scans (writeElements elements) tokenLists ∧
      List.Forall₂ Builds tokenLists elements := by
    induction elements with
    | nil => exact ⟨[], .nil, .nil⟩
    | cons j js ih =>
        obtain ⟨tokens, hscans, hbuilds⟩ := h j List.mem_cons_self
        obtain ⟨others, hscans', hbuilds'⟩ := ih fun i hi => h i (List.mem_cons_of_mem j hi)
        exact ⟨tokens :: others, .cons hscans hscans', .cons hbuilds hbuilds'⟩
  obtain ⟨tokenLists, hscans, hbuilds⟩ := hall
  cases hbuilds with
  | nil =>
      exact ⟨[.mark .beginArray, .mark .endArray], (scans_nil.mark_cons rfl).mark_cons rfl,
        fun outer rest => rfl⟩
  | @cons tokens j others js hfirst hrest =>
      rw [writeElements] at hscans
      obtain ⟨hfirst', hrest'⟩ := List.forall₂_cons.1 hscans
      rw [writeChars, writeElements, intercalate_comma]
      refine ⟨_, ((hfirst'.append_commas hrest').append_mark rfl scans_nil).mark_cons rfl,
        fun outer rest => ?_⟩
      rw [List.cons_append, Reading.run?, Reading.step?, Reading.begin?]
      simp only [List.append_assoc, List.singleton_append]
      rw [hfirst.firstElement, after_elements hrest, List.reverse_nil, List.nil_append]

theorem readsBack_record {members : List (String × Json)}
    (h : ∀ m ∈ members, ReadsBack m.2.writeChars m.2) :
    ReadsBack (record members).writeChars (record members) := by
  rw [record]
  have hall : ∃ tokenLists,
      List.Forall₂ Scans (writeMembers (members.map fun m => (Quoted.encode m.1, m.2))) tokenLists ∧
        List.Forall₂ BuildsMember tokenLists (members.map fun m => (Quoted.encode m.1, m.2)) := by
    induction members with
    | nil => exact ⟨[], .nil, .nil⟩
    | cons m ms ih =>
        obtain ⟨tokens, hscans, hbuilds⟩ := h m List.mem_cons_self
        obtain ⟨others, hscans', hbuilds'⟩ := ih fun i hi => h i (List.mem_cons_of_mem m hi)
        have hmember := hbuilds.member (Quoted.isWellFormed_encode m.1)
        exact ⟨_, .cons ((scans_quote m.1).append_mark rfl hscans) hscans', .cons hmember hbuilds'⟩
  obtain ⟨tokenLists, hscans, hbuilds⟩ := hall
  generalize (members.map fun m => (Quoted.encode m.1, m.2)) = written at hscans hbuilds ⊢
  cases hbuilds with
  | nil =>
      exact ⟨[.mark .beginObject, .mark .endObject], (scans_nil.mark_cons rfl).mark_cons rfl,
        fun outer rest => rfl⟩
  | @cons tokens m others ms hfirst hrest =>
      rw [writeMembers] at hscans
      obtain ⟨hfirst', hrest'⟩ := List.forall₂_cons.1 hscans
      rw [writeChars, writeMembers, intercalate_comma]
      refine ⟨_, ((hfirst'.append_commas hrest').append_mark rfl scans_nil).mark_cons rfl,
        fun outer rest => ?_⟩
      rw [List.cons_append, Reading.run?, Reading.step?, Reading.begin?]
      simp only [List.append_assoc, List.singleton_append]
      rw [hfirst.firstName, after_members hrest, List.reverse_nil, List.nil_append]

theorem readsBack_write (h : Plain j) : ReadsBack j.writeChars j := by
  induction h with
  | null => exact readsBack_word (List.all_eq_true.1 rfl) (List.cons_ne_nil _ _) rfl
  | bool b => cases b <;> exact readsBack_word (List.all_eq_true.1 rfl) (List.cons_ne_nil _ _) rfl
  | ofNat n => exact readsBack_ofNat n
  | ofText s => exact readsBack_ofText s
  | array _ ih => exact readsBack_array ih
  | record _ ih => exact readsBack_record ih

/-- **A value reads back from the text that is written for it.** -/
theorem read?_write (h : Plain j) : read? j.write = some j := by
  obtain ⟨tokens, hscans, hbuilds⟩ := readsBack_write h
  have htokens : tokens? j.writeChars = some tokens := by
    have hrun := hscans [] [] nofun
    rw [List.append_nil, List.append_nil] at hrun
    simpa [tokens?, Scan.run?, Scan.finish?] using hrun
  have hreading := hbuilds [] []
  rw [List.append_nil] at hreading
  simp [read?, write, htokens, hreading, Reading.run?, Reading.result?]

end Json

end TracedTree
