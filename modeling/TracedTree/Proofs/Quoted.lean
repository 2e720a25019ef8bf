import TracedTree.Json.Token

/-!
# Quoted texts read back

Every character is written as itself, as a backslash with one letter, or as a backslash with four
hexadecimal digits. From these three forms follows that the escapes of a written text resolve to
its characters, and that the written text ends at the first quote that closes it.

## Main statements

* `Quoted.decode?_encode`: the written form of a text reads back as the text.
* `Quoted.run?_encode`: scanning a written text and its closing quote gives one token.
-/

namespace TracedTree.Quoted

/-- The character needs no escape. -/
def IsPlain (c : Char) : Prop := c ≠ '"' ∧ c ≠ '\\' ∧ ¬ c.toNat < 0x20

theorem eq_ofNat {c : Char} {n : Nat} (h : c.toNat = n) : c = Char.ofNat n := by
  rw [← h, Char.ofNat_toNat]

/-- The two last hexadecimal digits of a control character. -/
theorem hexValue4?_control : ∀ n < 0x20,
    hexValue4? '0' '0' (hexDigit (n / 16)) (hexDigit n) = some n ∧
      IsPlain (hexDigit (n / 16)) ∧ IsPlain (hexDigit n) := by
  unfold IsPlain
  decide

/-- The three forms in which a character is written. -/
theorem encodeChar_cases (c : Char) :
    encodeChar c = [c] ∧ IsPlain c ∨
    (∃ e, encodeChar c = ['\\', e] ∧ escape? e = some c ∧ e ≠ 'u' ∧ ¬ e.toNat < 0x20) ∨
    ∃ a b, encodeChar c = ['\\', 'u', '0', '0', a, b] ∧ hexValue4? '0' '0' a b = some c.toNat ∧
      IsPlain a ∧ IsPlain b ∧ c.toNat < 0x20 := by
  by_cases hquote : c = '"'
  · exact .inr (.inl ⟨'"', by simp [encodeChar, hquote], by rw [hquote]; rfl, by decide⟩)
  by_cases hback : c = '\\'
  · exact .inr (.inl ⟨'\\', by simp [encodeChar, hback], by rw [hback]; rfl, by decide⟩)
  by_cases hb : c.toNat = 0x08
  · refine .inr (.inl ⟨'b', by simp [encodeChar, hquote, hback, hb], ?_, by decide⟩)
    rw [eq_ofNat hb]
    rfl
  by_cases hf : c.toNat = 0x0c
  · refine .inr (.inl ⟨'f', by simp [encodeChar, hquote, hback, hf], ?_, by decide⟩)
    rw [eq_ofNat hf]
    rfl
  by_cases hn : c = '\n'
  · exact .inr (.inl ⟨'n', by simp [encodeChar, hn], by rw [hn]; rfl, by decide⟩)
  by_cases hr : c = '\r'
  · exact .inr (.inl ⟨'r', by simp [encodeChar, hr], by rw [hr]; rfl, by decide⟩)
  by_cases ht : c = '\t'
  · exact .inr (.inl ⟨'t', by simp [encodeChar, ht], by rw [ht]; rfl, by decide⟩)
  by_cases hlow : c.toNat < 0x20
  · obtain ⟨hhex, ha, hb'⟩ := hexValue4?_control c.toNat hlow
    refine .inr (.inr ⟨_, _, ?_, hhex, ha, hb', hlow⟩)
    simp [encodeChar, hquote, hback, hb, hf, hn, hr, ht, hlow]
  · refine .inl ⟨?_, hquote, hback, hlow⟩
    simp [encodeChar, hquote, hback, hb, hf, hn, hr, ht, hlow]

/-! ## Resolving escapes -/

/-- The written form of a character resolves to one piece, and the piece joins as the character. -/
theorem exists_piece (c : Char) :
    ∃ p, (∀ known rest, piecesAfter known (encodeChar c ++ rest) = piecesAfter (p :: known) rest) ∧
      ∀ known rest, joinAfter known (p :: rest) = joinAfter (c :: known) rest := by
  rcases encodeChar_cases c with ⟨hc, hplain⟩ | ⟨e, hc, he, hu, -⟩ | ⟨a, b, hc, hhex, -, -, hlow⟩
  · refine ⟨.char c, fun known rest => ?_, fun known rest => rfl⟩
    rw [hc, List.singleton_append, piecesAfter]
    · simp [hplain.2.1]
    · simp [hplain.2.1]
    · simp [hplain.2.1]
  · refine ⟨.char c, fun known rest => ?_, fun known rest => rfl⟩
    rw [hc, List.cons_append, List.singleton_append, piecesAfter, he]
    simp [hu]
  · refine ⟨.unit c.toNat, fun known rest => ?_, fun known rest => ?_⟩
    · rw [hc]
      simp only [List.cons_append, List.nil_append]
      rw [piecesAfter, hhex]
    · have hunit : c.toNat < 0xd800 ∨ 0xdfff < c.toNat := .inl (by omega)
      rw [joinAfter.eq_def]
      simp only [if_pos hunit, Char.ofNat_toNat]

/-- The pieces of a written text join as the text. -/
theorem exists_pieces (cs : List Char) :
    ∃ ps, (∀ known, piecesAfter known (cs.flatMap encodeChar) = some (known.reverse ++ ps)) ∧
      ∀ known, joinAfter known ps = some (known.reverse ++ cs) := by
  induction cs with
  | nil => exact ⟨[], fun known => by simp [piecesAfter], fun known => by simp [joinAfter]⟩
  | cons c cs ih =>
      obtain ⟨p, hp, hp'⟩ := exists_piece c
      obtain ⟨ps, hps, hps'⟩ := ih
      refine ⟨p :: ps, fun known => ?_, fun known => ?_⟩
      · rw [List.flatMap_cons, hp, hps]
        simp
      · rw [hp', hps']
        simp

/-- The written form of a text reads back as the text. -/
theorem decode?_encode (s : String) : decode? (encode s) = some s := by
  obtain ⟨ps, hps, hjoin⟩ := exists_pieces s.toList
  simp [decode?, encode, pieces?, hps, hjoin]

theorem isWellFormed_encode (s : String) : isWellFormed (encode s) = true := by
  obtain ⟨ps, hps, -⟩ := exists_pieces s.toList
  simp [isWellFormed, encode, pieces?, hps]

/-! ## Scanning -/

open Json (Scan Token)

theorem step?_plain {c : Char} (hc : IsPlain c) (seen : List Char) :
    Scan.step? (.string seen) c = some (.string (c :: seen), []) := by
  simp [Scan.step?, hc.1, hc.2.1, hc.2.2]

theorem run?_plain {c : Char} (hc : IsPlain c) (seen : List Char) (known : List Token)
    (rest : List Char) :
    Scan.run? (.string seen) known (c :: rest) = Scan.run? (.string (c :: seen)) known rest := by
  rw [Scan.run?, step?_plain hc]
  rfl

/-- A backslash takes the character behind it along. -/
theorem run?_escape {e : Char} (he : ¬ e.toNat < 0x20) (seen : List Char) (known : List Token)
    (rest : List Char) :
    Scan.run? (.string seen) known ('\\' :: e :: rest) =
      Scan.run? (.string (e :: '\\' :: seen)) known rest := by
  have hback : Scan.step? (.string seen) '\\' = some (.escaped ('\\' :: seen), []) := rfl
  have hnext : Scan.step? (.escaped ('\\' :: seen)) e = some (.string (e :: '\\' :: seen), []) := by
    simp [Scan.step?, he]
  rw [Scan.run?, hback]
  simp only [List.reverse_nil, List.nil_append]
  rw [Scan.run?, hnext]
  rfl

theorem run?_encodeChar (c : Char) (seen : List Char) (known : List Token) (rest : List Char) :
    Scan.run? (.string seen) known (encodeChar c ++ rest) =
      Scan.run? (.string ((encodeChar c).reverse ++ seen)) known rest := by
  have hzero : IsPlain '0' := by
    unfold IsPlain
    decide
  rcases encodeChar_cases c with ⟨hc, hplain⟩ | ⟨e, hc, -, -, he⟩ | ⟨a, b, hc, -, ha, hb, -⟩
  · rw [hc]
    exact run?_plain hplain seen known rest
  · rw [hc]
    exact run?_escape he seen known rest
  · rw [hc]
    simp only [List.cons_append, List.nil_append]
    rw [run?_escape (by decide), run?_plain hzero, run?_plain hzero, run?_plain ha, run?_plain hb]
    rfl

/-- A written text ends at the quote that closes it. -/
theorem run?_encode (s : String) (known : List Token) (rest : List Char) :
    Scan.run? (.string []) known (encode s ++ '"' :: rest) =
      Scan.run? .between (.string (encode s) :: known) rest := by
  have hscan : ∀ (cs seen : List Char),
      Scan.run? (.string seen) known (cs.flatMap encodeChar ++ '"' :: rest) =
        Scan.run? .between (.string (seen.reverse ++ cs.flatMap encodeChar) :: known) rest := by
    intro cs
    induction cs with
    | nil =>
        intro seen
        rw [List.flatMap_nil, List.nil_append, List.append_nil, Scan.run?]
        rfl
    | cons c cs ih =>
        intro seen
        rw [List.flatMap_cons, List.append_assoc, run?_encodeChar, ih]
        simp
  exact hscan s.toList []

end TracedTree.Quoted
