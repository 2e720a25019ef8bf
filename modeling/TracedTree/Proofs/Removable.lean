import TracedTree.Proofs.Batch
import TracedTree.Proofs.Commands
import TracedTree.Proofs.RoundTrip

/-!
# Keys that can be removed

What is typed in is taken for a number if it can be read as one, and a key is removed by typing in
how it is shown. So every number can be removed, since its text reads back as the number, and every
text that is not taken for a number. A text that reads as a number and is not quoted, as an
imported tree may hold, is out of reach: nothing that is typed in stands for it.

## Main definitions

* `Key.isTypable`: the key is what its label is taken for.

## Main statements

* `Key.same_ofInput_label_iff`: which keys are what their labels are taken for.
* `Session.Led.removable_iff`: what becomes of a removal by label.
-/

namespace TracedTree

namespace Number

/-- The text of a number is not quoted. -/
theorem isQuoted_text (x : Number) : Key.isQuoted x.text = false := by
  rw [Key.isQuoted, Bool.and_eq_false_iff]
  refine .inl (beq_eq_false_iff_ne.2 fun hhead => ?_)
  rcases x.mem_text '"' (List.mem_of_mem_head? hhead) with h | h | h
  · exact absurd h (by decide)
  · exact absurd h (by decide)
  · exact absurd h (by decide)

end Number

namespace Key

variable {k : Key} {s : String}

/-! ## Labels that are typed in -/

/-- The key is a number, or a text that is quoted or does not read as a number. -/
def isTypable : Key → Bool
  | number _ => true
  | text s => isQuoted s || (readNumber? s).isNone

theorem ofInput_number (x : Number) : ofInput (number x).label = (number x).unsigned := by
  cases hzero : x.isZero with
  | true =>
      have hread : ofInput "0" = number .zero := by decide
      simp [label, unsigned, hzero, hread]
  | false =>
      simp [label, unsigned, ofInput, hzero, x.isQuoted_text, readNumber?_text hzero]

/-- A text that is quoted or does not read as a number is taken for itself. -/
theorem ofInput_text (hs : (text s).isTypable = true) : ofInput s = text s := by
  rw [isTypable, Bool.or_eq_true, Option.isNone_iff_eq_none] at hs
  rw [ofInput]
  split
  · rfl
  · rename_i hquoted
    rw [hs.resolve_left hquoted]

/-- Every other text is taken for a number. -/
theorem exists_ofInput_eq_number (hs : (text s).isTypable = false) :
    ∃ x, ofInput s = number x := by
  rw [isTypable, Bool.or_eq_false_iff] at hs
  obtain ⟨x, hx⟩ := Option.isSome_iff_exists.1 (Option.isNone_eq_false_iff.1 hs.2)
  exact ⟨x, by simp [ofInput, hs.1, hx]⟩

/-- Whatever is typed in, the key that it is taken for can be typed in. -/
theorem isTypable_ofInput (raw : String) : (ofInput raw).isTypable = true := by
  cases hraw : (text raw).isTypable with
  | true =>
      rw [ofInput_text hraw]
      exact hraw
  | false =>
      obtain ⟨x, hx⟩ := exists_ofInput_eq_number hraw
      rw [hx]
      rfl

theorem isTypable_eq_of_same {a : Key} (h : a.same k) : a.isTypable = k.isTypable := by
  have hkind := kind_eq_of_same h
  cases a with
  | number x =>
      cases k with
      | number y => rfl
      | text t => cases hkind
  | text s =>
      cases k with
      | number y => cases hkind
      | text t => rw [same_text_iff.1 h]

/-- The keys that can be typed in are those that their labels are taken for. -/
theorem same_ofInput_label_iff (k : Key) :
    (ofInput k.label).same k = true ↔ k.isTypable = true := by
  constructor
  · intro h
    rw [← isTypable_eq_of_same h]
    exact isTypable_ofInput k.label
  · intro hk
    cases k with
    | number x =>
        rw [ofInput_number]
        exact unsigned_same _
    | text s =>
        rw [label, ofInput_text hk]
        exact same_refl _

/-- Nothing that is typed in is taken for any other key. -/
theorem not_same_ofInput (hk : k.isTypable = false) (raw : String) : ¬ (ofInput raw).same k := by
  intro h
  have htypable := isTypable_ofInput raw
  rw [isTypable_eq_of_same h, hk] at htypable
  cases htypable

/-- The label of a key that cannot be typed in is taken for a key of the other kind. -/
theorem kind_ofInput_label (hk : k.isTypable = false) : (ofInput k.label).kind ≠ k.kind := by
  cases k with
  | number x => cases hk
  | text s =>
      obtain ⟨x, hx⟩ := exists_ofInput_eq_number hk
      rw [label, hx]
      intro h
      cases h

end Key

namespace Session

variable {s : Session} {k : Key}

/-! ## Removals by label -/

/-- The removal of a key that is foreseen is queued. -/
theorem removeKey_of_any {raw : String} (h : s.futureKeys.any (Key.ofInput raw).same = true) :
    s.removeKey raw = .ok (Key.ofInput raw,
      { s with sequencer := s.sequencer.removeKeys [Key.ofInput raw] }) := by
  rw [removeKey, checkRemove]
  simp only [h, if_true, ok_bind, pure_eq_ok]

/-- The removal of a key that is not foreseen is refused. -/
theorem removeKey_of_any_eq_false {raw : String}
    (h : s.futureKeys.any (Key.ofInput raw).same = false) :
    s.removeKey raw = .error (.invalidKey (.absent (Key.ofInput raw))) := by
  rw [removeKey, checkRemove]
  simp only [h, Bool.false_eq_true, if_false, error_bind]

/-- Keys of another kind than the tree's are not foreseen. -/
theorem Led.any_same_eq_false (hs : Led Tree.Valid s) (hk : k.kind ≠ s.tree.kind) :
    s.futureKeys.any k.same = false := by
  rw [List.any_eq_false]
  intro a ha hsame
  exact hk ((Key.kind_eq_of_same hsame).trans (hs.kind_of_mem_futureKeys a ha))

/-- **What is shown can be removed by its label**, unless it is taken for something else. In every
session, the label of a foreseen key that is a number, or a text that is quoted or does not read as
a number, is accepted, and the removal of a key equal to it comes to the end of the queue. The
label of any other foreseen key is refused as absent and leaves the session as it is, and no input
at all stands for that key. -/
theorem Led.removable_iff (hs : Led Tree.Valid s) (hk : k ∈ s.futureKeys) :
    (k.isTypable = true → ∃ j u, s.removeKey k.label = .ok (j, u) ∧ j.same k ∧
      u.sequencer.queue = s.sequencer.queue ++ [.remove j] ∧ u.tree = s.tree ∧
      u.settings = s.settings) ∧
    (k.isTypable = false →
      s.removeKey k.label = .error (.invalidKey (.absent (Key.ofInput k.label))) ∧
      s.obey (.removeKey k.label) = s ∧
      ∀ raw j u, s.removeKey raw = .ok (j, u) → ¬ j.same k) := by
  constructor
  · intro htypable
    have hsame : (Key.ofInput k.label).same k = true := (Key.same_ofInput_label_iff k).2 htypable
    refine ⟨_, _, removeKey_of_any (List.any_eq_true.2 ⟨k, hk, hsame⟩), hsame, ?_, ?_, rfl⟩
    · rw [Sequencer.removeKeys_eq, Sequencer.queue_foldl_enqueue]
      rfl
    · rw [tree, Sequencer.removeKeys_eq, Sequencer.tree_foldl_enqueue]
      rfl
  · intro htypable
    have hkind : (Key.ofInput k.label).kind ≠ s.tree.kind := by
      rw [← hs.kind_of_mem_futureKeys k hk]
      exact Key.kind_ofInput_label htypable
    have hrefused := removeKey_of_any_eq_false (hs.any_same_eq_false hkind)
    refine ⟨hrefused, by rw [Session.obey, hrefused]; rfl, fun raw j u h => ?_⟩
    obtain ⟨key, hkey, h⟩ := bind_eq_ok_iff.1 h
    obtain ⟨rfl, -⟩ := Prod.mk.inj (Except.ok.inj h)
    rw [checkRemove] at hkey
    split at hkey
    · obtain rfl := Except.ok.inj hkey
      exact Key.not_same_ofInput htypable raw
    · cases hkey

/-- A text in quotes, which is removed by its label, next to the same text without them, which is
not. -/
theorem removable_iff_quotes :
    let t : Tree := ⟨2, .text, ⟨1, [.text "\"5\"", .text "5"], []⟩, ⟨1, {}⟩, none, by decide⟩
    let s := ((ofTree {} .default).replace t).obey (.addKey "x")
    Led Tree.Valid s ∧
    (.text "\"5\"" ∈ s.futureKeys ∧ ∃ j u, s.removeKey "\"5\"" = .ok (j, u) ∧
      j.same (.text "\"5\"") ∧ u.sequencer.queue = s.sequencer.queue ++ [.remove j] ∧
      u.tree = s.tree ∧ u.settings = s.settings) ∧
    (.text "5" ∈ s.futureKeys ∧
      s.removeKey "5" = .error (.invalidKey (.absent (Key.ofInput "5"))) ∧
      s.obey (.removeKey "5") = s ∧
      ∀ raw j u, s.removeKey raw = .ok (j, u) → ¬ j.same (.text "5")) := by
  intro t s
  have ht : t.Valid := (Tree.check_eq_ok_iff t).1 (by decide +kernel)
  have hcreate : create {} = .ok (ofTree {} .default) := rfl
  have hs : Led Tree.Valid s := ((Led.create hcreate).replace ht).obey (.addKey "x")
  have hquoted : .text "\"5\"" ∈ s.futureKeys := by decide +kernel
  have hplain : .text "5" ∈ s.futureKeys := by decide +kernel
  exact ⟨hs, ⟨hquoted, (hs.removable_iff hquoted).1 (by decide +kernel)⟩,
    hplain, (hs.removable_iff hplain).2 (by decide +kernel)⟩

/-- An imported text that reads as a number is foreseen and cannot be removed by its label. -/
theorem exists_key_out_of_reach :
    let text := "\x7b\"maxKeys\":4,\"keyType\":\"string\"," ++
      "\"nodeData\":\x7b\"name\":\x7b\"id\":1,\"keys\":[\"5\"]\x7d\x7d\x7d"
    let s := (ofTree {} .default).obey (.importTree text)
    Led Tree.Valid s ∧ s.futureKeys = [.text "5"] ∧
      s.removeKey (Key.text "5").label = .error (.invalidKey (.absent (.ofInt 5))) := by
  intro text s
  have hcreate : create {} = .ok (ofTree {} .default) := rfl
  have hfuture : s.futureKeys = [.text "5"] := by decide +kernel
  have hinput : Key.ofInput "5" = .ofInt 5 := by decide +kernel
  refine ⟨(Led.create hcreate).obey (.importTree text), hfuture, ?_⟩
  rw [← hinput]
  refine removeKey_of_any_eq_false ?_
  rw [hfuture]
  decide +kernel

end Session

end TracedTree
