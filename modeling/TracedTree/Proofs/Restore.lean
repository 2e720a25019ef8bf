import TracedTree.Proofs.Relabel
import TracedTree.Proofs.Tree

/-!
# Which documents are accepted

A document is restored by reading each label as a key, node by node, and checking the tree that
comes out. Of the checks on the way, those of single nodes are implied by the one at the end, so a
document is accepted exactly when its capacity is large enough, its labels can be read, and the
tree with these keys is valid.

## Main definitions

* `Document.Readable d`: every label reads as a key of the declared kind.
* `Document.restored d`: the tree of the keys that the labels read as.
-/

namespace TracedTree

/-- A list is read element by element when each element either has one reading or none. -/
theorem mapM_eq_ok_iff {ε α β : Type} {f : α → Except ε β} {P : α → Prop} {g : α → β}
    {xs : List α} (h : ∀ x ∈ xs, ∀ y, f x = .ok y ↔ P x ∧ y = g x) (ys : List β) :
    xs.mapM f = .ok ys ↔ (∀ x ∈ xs, P x) ∧ ys = xs.map g := by
  induction xs generalizing ys with
  | nil => simp [eq_comm]
  | cons x xs ih =>
      have hx := h x List.mem_cons_self
      have hxs := ih fun a ha => h a (List.mem_cons_of_mem x ha)
      rw [List.mapM_cons, bind_eq_ok_iff, List.forall_mem_cons, List.map_cons]
      constructor
      · rintro ⟨y, hy, hrest⟩
        obtain ⟨others, hothers, hcons⟩ := bind_eq_ok_iff.1 hrest
        obtain ⟨hP, rfl⟩ := (hx y).1 hy
        obtain ⟨hPs, rfl⟩ := (hxs others).1 hothers
        exact ⟨⟨hP, hPs⟩, (Except.ok.inj hcons).symm⟩
      · rintro ⟨⟨hP, hPs⟩, rfl⟩
        refine ⟨g x, (hx _).2 ⟨hP, rfl⟩, ?_⟩
        rw [(hxs _).2 ⟨hPs, rfl⟩]
        rfl

namespace Document

/-- The key that a label reads as; a label that cannot be read stays a text. -/
def keyOf (kind : Kind) (raw : String) : Key := (Key.ofText? raw kind).getD (.text raw)

/-- Every label reads as a key of the declared kind. -/
def Readable (d : Document) : Prop :=
  ∀ n ∈ d.picture.preorder, ∀ raw ∈ n.keys, (Key.ofText? raw d.kind).isSome

/-- The nodes of the picture with keys in the place of the labels. -/
def root (d : Document) : Node Key := d.picture.map (keyOf d.kind)

/-- The tree of these nodes, with the largest identity as the last one handed out, counters at
zero and nothing recorded. -/
def restored (d : Document) (two_le_maxKeys : 2 ≤ d.maxKeys) : Tree :=
  ⟨d.maxKeys, d.kind, d.root, ⟨d.root.maxId, {}⟩, none, two_le_maxKeys⟩

variable {maxKeys : Nat} {kind : Kind} {d : Document} {t : Tree}

/-! ## Reading nodes -/

theorem readKey_eq_ok_iff (kind : Kind) (raw : String) (k : Key) :
    readKey kind raw = .ok k ↔ (Key.ofText? raw kind).isSome ∧ k = keyOf kind raw := by
  rw [readKey, keyOf]
  cases Key.ofText? raw kind <;> simp [eq_comm]

/-- What the reader wants of one node. -/
structure ReadableNode (maxKeys : Nat) (kind : Kind) (n : Picture) : Prop where
  capacity : n.keys.length ≤ maxKeys
  fits : n.Fits
  labels : ∀ raw ∈ n.keys, (Key.ofText? raw kind).isSome

theorem readNode_mk (id : Nat) (labels : List String) (children : List Picture) :
    readNode maxKeys kind ⟨id, labels, children⟩ =
      if maxKeys < labels.length then .error (.overfullNode id labels.length maxKeys)
      else if !children.isEmpty && children.length != labels.length + 1 then
        .error (.childMismatch id labels.length children.length)
      else do
        return ⟨id, ← labels.mapM (readKey kind), ← children.mapM (readNode maxKeys kind)⟩ := by
  rw [readNode, Node.fold_mk, ← readNode]
  simp only [List.mapM_map, List.isEmpty_map, List.length_map]
  split
  · rfl
  · split <;> rfl

/-- Nodes are read exactly when each of them can be read, and into the keys of their labels. -/
theorem readNode_eq_ok_iff (p : Picture) (n : Node Key) :
    readNode maxKeys kind p = .ok n ↔
      (∀ m ∈ p.preorder, ReadableNode maxKeys kind m) ∧ n = p.map (keyOf kind) := by
  induction p using Node.induction generalizing n with
  | step id labels children ih =>
      have hlabels := mapM_eq_ok_iff fun raw (_ : raw ∈ labels) => readKey_eq_ok_iff kind raw
      have hchildren := mapM_eq_ok_iff ih
      rw [readNode_mk, Node.map_mk, Node.preorder_mk, List.forall_mem_cons, List.forall_mem_flatMap]
      by_cases hcap : maxKeys < labels.length
      · rw [if_pos hcap]
        constructor
        · intro h
          cases h
        · exact fun h => absurd h.1.1.capacity (Nat.not_le.2 hcap)
      rw [if_neg hcap]
      by_cases hfits : (⟨id, labels, children⟩ : Picture).Fits
      · have hlen : ¬ (!children.isEmpty && children.length != labels.length + 1) = true := by
          rcases hfits with h | h <;> simp_all
        rw [if_neg hlen]
        constructor
        · intro h
          obtain ⟨ks, hks, h⟩ := bind_eq_ok_iff.1 h
          obtain ⟨cs, hcs, h⟩ := bind_eq_ok_iff.1 h
          obtain ⟨hread, rfl⟩ := (hlabels ks).1 hks
          obtain ⟨hbelow, rfl⟩ := (hchildren cs).1 hcs
          exact ⟨⟨⟨Nat.not_lt.1 hcap, hfits, hread⟩, hbelow⟩, (Except.ok.inj h).symm⟩
        · rintro ⟨⟨hnode, hbelow⟩, rfl⟩
          rw [(hlabels _).2 ⟨hnode.labels, rfl⟩, ok_bind, (hchildren _).2 ⟨hbelow, rfl⟩]
          rfl
      · have hlen : (!children.isEmpty && children.length != labels.length + 1) = true := by
          simp_all [Node.Fits]
        rw [if_pos hlen]
        constructor
        · intro h
          cases h
        · exact fun h => absurd h.1.1.fits hfits

/-! ## Restoring -/

/-- A valid tree has nodes that can be read wherever its labels can. -/
theorem readableNode_of_valid {hcap : 2 ≤ d.maxKeys} (hd : d.Readable)
    (hvalid : (d.restored hcap).Valid) :
    ∀ m ∈ d.picture.preorder, ReadableNode d.maxKeys d.kind m := by
  intro m hm
  have hmem : m.map (keyOf d.kind) ∈ (d.restored hcap).root.preorder := by
    rw [restored, root, Node.preorder_map]
    exact List.mem_map_of_mem hm
  have hlen := hvalid.capacity _ hmem
  rw [Node.keys_map, List.length_map] at hlen
  exact ⟨hlen, Node.fits_map.1 (hvalid.fits _ hmem), hd m hm⟩

/-- **A document is accepted exactly when** its capacity is large enough, its labels can be read,
and the tree with these keys is valid; and then it is this tree that is restored. -/
theorem tree_eq_ok_iff :
    d.tree = .ok t ↔
      ∃ hcap : 2 ≤ d.maxKeys, d.Readable ∧ (d.restored hcap).Valid ∧ t = d.restored hcap := by
  rw [tree]
  constructor
  · intro h
    split at h
    · rename_i hcap
      obtain ⟨n, hn, h⟩ := bind_eq_ok_iff.1 h
      obtain ⟨hread, rfl⟩ := (readNode_eq_ok_iff _ _).1 hn
      simp only at h
      split at h
      · rename_i hcheck
        obtain rfl := Except.ok.inj h
        exact ⟨hcap, fun m hm => (hread m hm).labels, (Tree.check_eq_ok_iff _).1 hcheck, rfl⟩
      · cases h
    · cases h
  · rintro ⟨hcap, hd, hvalid, rfl⟩
    have hread := (readNode_eq_ok_iff _ _).2 ⟨readableNode_of_valid hd hvalid, rfl⟩
    have hcheck := (Tree.check_eq_ok_iff _).2 hvalid
    rw [dif_pos hcap, hread, ok_bind]
    simp only [restored, root] at hcheck ⊢
    rw [hcheck]
    rfl

end Document

namespace Tree

/-- A text is imported exactly when it is that of an acceptable document. -/
theorem importText_eq_ok_iff {text : String} {t : Tree} :
    importText text = .ok t ↔ ∃ d, Decoder.document.readText text = some d ∧ d.tree = .ok t := by
  rw [importText]
  cases Decoder.document.readText text with
  | none => simp
  | some d => simp [mapError_eq_ok_iff]

/-- **The checker is exact, and so is what import lets through.** A tree passes the check exactly
when it is valid. A text is imported exactly when it decodes to a document whose capacity is at
least two, whose labels all read as keys of the declared kind, and whose nodes form a valid tree
with these keys; and it is this tree that comes out. -/
theorem check_and_import_exact :
    (∀ t : Tree, t.check = .ok () ↔ t.Valid) ∧
    ∀ (text : String) (t : Tree), importText text = .ok t ↔
      ∃ d, Decoder.document.readText text = some d ∧
        ∃ hcap : 2 ≤ d.maxKeys, d.Readable ∧ (d.restored hcap).Valid ∧ t = d.restored hcap := by
  refine ⟨check_eq_ok_iff, fun text t => ?_⟩
  simp only [importText_eq_ok_iff, Document.tree_eq_ok_iff]

end Tree

end TracedTree
