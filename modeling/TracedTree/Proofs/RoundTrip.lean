import TracedTree.Proofs.Check
import TracedTree.Proofs.Decimal
import TracedTree.Proofs.Decoder
import TracedTree.Proofs.Restore
import TracedTree.Proofs.Run

/-!
# Export and import

A tree that was exported is imported again as the same tree: capacity, kind, nodes and identities
are those that it had, and each key is equal to the one in its place. Only the sign of a zero is
lost, as it is not shown. What a document does not hold starts anew: the counters, the recording,
and the identities above the largest one in use.

The only trees that are refused are too high for the levels of nesting of a text; those that were
imported are not.

## Main definitions

* `Key.unsigned k`: the key as it reads back from its label.
* `Tree.reopened t`: the tree as it reads back from its text.
* `Tree.Restored t u`: what the second tree has of the first.

## Main statements

* `Key.ofText?_label`: labels read back.
* `Tree.Valid.importText_exportText_iff`: a valid tree is imported again exactly up to height 61.
* `Tree.import_export`: every tree of a run, and every imported one, is restored.
-/

namespace TracedTree

/-! ## Labels -/

namespace Text

theorem trim_eq_self {text : List Char} (h : ∀ c ∈ text, isBlank c = false) : trim text = text := by
  have hdrop : ∀ xs : List Char, (∀ c ∈ xs, isBlank c = false) → xs.dropWhile isBlank = xs := by
    intro xs hxs
    cases xs with
    | nil => rfl
    | cons c xs => rw [List.dropWhile_cons, hxs c List.mem_cons_self, if_neg Bool.false_ne_true]
  rw [trim, hdrop text h, hdrop _ fun c hc => h c (List.mem_reverse.1 hc), List.reverse_reverse]

end Text

namespace Number

theorem mem_positional {digits : List Char} {point : Int} {c : Char}
    (hc : c ∈ Decimal.positional digits point) : c ∈ digits ∨ c = '0' ∨ c = '.' := by
  rw [Decimal.positional] at hc
  split at hc
  · simp only [List.cons_append, List.mem_cons, List.mem_append, List.mem_replicate] at hc
    tauto
  · split at hc
    · simp only [List.mem_append, List.mem_replicate] at hc
      tauto
    · simp only [List.mem_append, List.mem_cons] at hc
      rcases hc with hc | rfl | hc
      · exact .inl (List.mem_of_mem_take hc)
      · exact .inr (.inr rfl)
      · exact .inl (List.mem_of_mem_drop hc)

theorem isBlank_of_isDigit {c : Char} (hc : c.isDigit = true) : Text.isBlank c = false := by
  have hlow : 48 ≤ c.toNat ∧ c.toNat ≤ 57 := by
    simpa [Char.isDigit, UInt32.le_iff_toNat_le] using hc
  simp only [Text.isBlank, Bool.or_eq_false_iff, Bool.and_eq_false_iff, decide_eq_false_iff_not,
    beq_eq_false_iff_ne]
  omega

/-- The text of a number consists of digits, with a sign and a point at most. -/
theorem mem_text (x : Number) :
    ∀ c ∈ x.text.toList, c = '-' ∨ c = '.' ∨ c.isDigit = true := by
  intro c hc
  have hbody : c = '-' ∨ c ∈ (x.shortest .outward).significant ∨ c = '0' ∨ c = '.' := by
    rw [text, String.toList_ofList, Decimal.signed] at hc
    by_cases hzero : x.isZero = true
    · rw [if_pos hzero] at hc
      split at hc <;> simp only [List.mem_cons, List.not_mem_nil, or_false] at hc <;> tauto
    · rw [if_neg hzero] at hc
      split at hc
      · exact (List.mem_cons.1 hc).imp id mem_positional
      · exact .inr (mem_positional hc)
  rcases hbody with rfl | hc | rfl | rfl
  · exact .inl rfl
  · exact .inr (.inr (Decimal.isDigit_of_mem_significant c hc))
  · exact .inr (.inr (by decide))
  · exact .inr (.inl rfl)

theorem isBlank_of_mem_text (x : Number) : ∀ c ∈ x.text.toList, Text.isBlank c = false := by
  intro c hc
  rcases x.mem_text c hc with rfl | rfl | hc
  · decide
  · decide
  · exact isBlank_of_isDigit hc

end Number

namespace Key

/-- The key as it reads back from its label: a zero has lost its sign. -/
def unsigned : Key → Key
  | number x => number (if x.isZero then .zero else x)
  | text s => text s

theorem unsigned_same (k : Key) : k.unsigned.same k := by
  cases k with
  | text s => exact same_refl _
  | number x =>
      rw [unsigned]
      split
      · rename_i hzero
        have hplace : x.place = 0 := by simpa [Number.isZero] using hzero
        have hrank : x.rank = Number.zero.rank := by
          rw [Number.rank, Number.rank, hplace]
          simp [Number.zero]
        rw [same, compare_def, order, hrank, Std.ReflOrd.compare_self]
        rfl
      · exact same_refl _

@[simp] theorem label_unsigned (k : Key) : k.unsigned.label = k.label := by
  cases k with
  | text s => rfl
  | number x =>
      have hz : Number.zero.isZero = true := rfl
      by_cases hzero : x.isZero = true <;> simp [unsigned, label, hzero, hz]

theorem readNumber?_text {x : Number} (hx : x.isZero = false) : readNumber? x.text = some x := by
  rw [readNumber?, Text.trim_eq_self x.isBlank_of_mem_text, Number.read?_text hx]

/-- The label of a key reads back as the key. -/
theorem ofText?_label (k : Key) : ofText? k.label k.kind = some k.unsigned := by
  cases k with
  | text s => rfl
  | number x =>
      cases hzero : x.isZero with
      | true =>
          have hread : readNumber? "0" = some .zero := by decide
          simp [label, kind, ofText?, unsigned, hzero, hread]
      | false => simp [label, kind, ofText?, unsigned, hzero, readNumber?_text hzero]

end Key

namespace Node

variable {α β : Type}

theorem map_congr {f g : α → β} {n : Node α} (h : ∀ m ∈ n.preorder, ∀ k ∈ m.keys, f k = g k) :
    n.map f = n.map g := by
  induction n with
  | step id keys children ih =>
      rw [preorder_mk, List.forall_mem_cons, List.forall_mem_flatMap] at h
      rw [map_mk, map_mk, List.map_congr_left h.1,
        List.map_congr_left fun c hc => ih c hc (h.2 c hc)]

end Node

namespace Tree

variable {s t u : Tree}

/-- The tree as it reads back from its text. -/
def reopened (t : Tree) : Tree :=
  { t with root := t.root.map Key.unsigned, ledger := ⟨t.root.maxId, {}⟩, recording := none }

/-- What the second tree has of the first one, from whose text it was imported. -/
structure Restored (t u : Tree) : Prop where
  maxKeys : u.maxKeys = t.maxKeys
  kind : u.kind = t.kind
  /-- The nodes and their identities are the same; each key is replaced by an equal one. -/
  root : u.root = t.root.map Key.unsigned
  counters : u.counters = {}
  lastId : u.ledger.lastId = u.root.maxId
  recording : u.recording = none
  exportText : u.exportText = t.exportText

theorem restored_reopened (t : Tree) : Restored t t.reopened := by
  refine ⟨rfl, rfl, rfl, rfl, (Node.maxId_map _ _).symm, rfl, ?_⟩
  have hpicture : t.reopened.picture = t.picture := by
    rw [picture, picture, Node.picture, reopened, Node.map_map]
    exact Node.map_congr fun m _ k _ => Key.label_unsigned k
  rw [exportText, exportText, document, document, hpicture]
  rfl

theorem Valid.readable_document (ht : t.Valid) : t.document.Readable := by
  intro n hn raw hraw
  rw [document, picture, Node.picture, Node.preorder_map] at hn
  obtain ⟨m, hm, rfl⟩ := List.mem_map.1 hn
  rw [Node.keys_map] at hraw
  obtain ⟨k, hk, rfl⟩ := List.mem_map.1 hraw
  rw [document, ← ht.kinds m hm k hk, Key.ofText?_label]
  rfl

theorem Valid.restored_document (ht : t.Valid) :
    t.document.restored t.two_le_maxKeys = t.reopened := by
  have hroot : t.document.root = t.root.map Key.unsigned := by
    rw [Document.root, document, picture, Node.picture, Node.map_map]
    refine Node.map_congr fun m hm k hk => ?_
    rw [Function.comp_apply, Document.keyOf, ← ht.kinds m hm k hk, Key.ofText?_label]
    rfl
  simp only [Document.restored, hroot, Node.maxId_map]
  rfl

theorem Valid.reopened (ht : t.Valid) : t.reopened.Valid :=
  ht.relabel Key.unsigned_same ((Node.maxId_le_iff _ _).1 (Nat.le_refl _)) none

/-- A valid tree whose document fits is imported again. -/
theorem Valid.importText_exportText (ht : t.Valid) (hfits : t.document.Fits) :
    importText t.exportText = .ok t.reopened := by
  refine importText_eq_ok_iff.2 ⟨t.document, Document.readText_write hfits, ?_⟩
  refine Document.tree_eq_ok_iff.2 ⟨t.two_le_maxKeys, ht.readable_document, ?_⟩
  rw [ht.restored_document]
  exact ⟨ht.reopened, rfl⟩

theorem fits_document (hmax : t.maxKeys < Nat.pow 2 64)
    (hids : ∀ id ∈ t.root.ids, id < Nat.pow 2 64) :
    t.document.Fits ↔ t.height ≤ 61 := by
  have hheight : t.document.picture.height = t.height := Node.height_map ..
  constructor
  · intro h
    have hlow := h.picture.height
    rw [hheight, Decoder.maxLevels] at hlow
    omega
  · intro h
    refine ⟨hmax, ?_, ?_⟩
    · rw [document, picture, Node.ids_picture]
      exact hids
    · rw [hheight, Decoder.maxLevels]
      omega

/-- An imported tree fits. Its ledger and its recording are those that it has after another round
as well. -/
theorem fits_of_importText {text : String} (h : importText text = .ok t) :
    t.document.Fits ∧ t.reopened = { t with root := t.root.map Key.unsigned } := by
  obtain ⟨d, hd, htree⟩ := importText_eq_ok_iff.1 h
  obtain ⟨hcap, -, -, rfl⟩ := Document.tree_eq_ok_iff.1 htree
  have hfits := Document.fits_of_readText hd
  refine ⟨⟨hfits.maxKeys, ?_, ?_⟩, rfl⟩
  · rw [document, picture, Node.ids_picture, Document.restored, Document.root, Node.ids_map]
    exact hfits.picture.ids
  · rw [document, picture, Node.picture, Node.height_map, Document.restored, Document.root,
      Node.height_map]
    exact hfits.picture.height

/-- **A valid tree is imported again exactly when** its height is at most 61, as long as its
capacity and its identities are 64-bit words. -/
theorem Valid.importText_exportText_iff (ht : t.Valid) (hmax : t.maxKeys < Nat.pow 2 64)
    (hids : t.ledger.lastId < Nat.pow 2 64) :
    importText t.exportText = .ok t.reopened ↔ t.height ≤ 61 := by
  have hfits := fits_document hmax fun id hid => Nat.lt_of_le_of_lt (ht.ids_le id hid) hids
  constructor
  · intro h
    have hlow := (fits_of_importText h).1.picture.height
    have hheight : t.reopened.document.picture.height = t.height :=
      (Node.height_map ..).trans (Node.height_map ..)
    rw [hheight, Decoder.maxLevels] at hlow
    omega
  · exact fun h => ht.importText_exportText (hfits.2 h)

/-- **Export and import are inverse to each other.** Every tree that a run from a fresh or imported
tree comes through is imported from its text as the same tree, as long as its height is at most
61 and its capacity and its identities are 64-bit words. A tree that was imported meets these
conditions, whatever its text looked like, and keeps its ledger as well. -/
theorem import_export :
    (∀ k : Key, k.unsigned.same k) ∧
    (∀ (s t : Tree) (calls : List Call) (answers : List Answer),
      s.Initial → s.run calls = .ok (answers, t) →
      t.maxKeys < Nat.pow 2 64 → t.ledger.lastId < Nat.pow 2 64 → t.height ≤ 61 →
        ∃ u, importText t.exportText = .ok u ∧ Restored t u) ∧
    ∀ (text : String) (t : Tree), importText text = .ok t →
      ∃ u, importText t.exportText = .ok u ∧ Restored t u ∧
        u = { t with root := t.root.map Key.unsigned } := by
  refine ⟨Key.unsigned_same, ?_, ?_⟩
  · intro s t calls answers hs hrun hmax hids hheight
    obtain ⟨_, u, hrun', hu, -⟩ := hs.valid.exists_run calls
    obtain ⟨-, rfl⟩ := Prod.mk.inj (Except.ok.inj (hrun'.symm.trans hrun))
    exact ⟨_, (hu.importText_exportText_iff hmax hids).2 hheight, restored_reopened u⟩
  · intro text t h
    obtain ⟨hfits, hsame⟩ := fits_of_importText h
    have ht := (valid_importText h).1
    exact ⟨_, ht.importText_exportText hfits, restored_reopened t, hsame⟩

/-- A tree of two levels that was built in a run, and then the one that is imported from it. -/
theorem import_export_two_levels :
    ∃ answers t, (empty 2 .text (by decide)).run
        [.operate (.add (.text "b")), .operate (.add (.text " \"a")), .operate (.add (.text "c"))] =
        .ok (answers, t) ∧
      t.maxKeys < Nat.pow 2 64 ∧ t.ledger.lastId < Nat.pow 2 64 ∧ t.height = 1 ∧
      ∃ u, importText t.exportText = .ok u ∧ Restored t u ∧
        ∃ v, importText u.exportText = .ok v ∧ Restored u v ∧
          v = { u with root := u.root.map Key.unsigned } := by
  have hinitial : (empty 2 .text (by decide)).Initial := .inl ⟨2, .text, rfl⟩
  have hrun : (empty 2 .text (by decide)).run
      [.operate (.add (.text "b")), .operate (.add (.text " \"a")), .operate (.add (.text "c"))] =
      .ok ([.added, .added, .added],
        ⟨2, .text, ⟨3, [.text "b"], [⟨1, [.text " \"a"], []⟩, ⟨2, [.text "c"], []⟩]⟩,
          ⟨3, ⟨1, 0, 0, 0⟩⟩, none, by decide⟩) := by
    decide
  obtain ⟨u, hu, hrestored⟩ := import_export.2.1 _ _ _ _ hinitial hrun (by decide) (by decide)
    (by decide)
  exact ⟨_, _, hrun, by decide, by decide, by decide, u, hu, hrestored,
    import_export.2.2 _ u hu⟩

end Tree

end TracedTree
