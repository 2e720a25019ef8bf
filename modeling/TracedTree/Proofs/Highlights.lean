import Mathlib.Data.List.Nodup
import Mathlib.Data.List.ReduceOption
import TracedTree.Proofs.Frames

/-!
# Highlights refer to what is shown

A highlight names nodes by their identities, slots and gaps by their numbers, and edges by the
identities at both ends. `Highlight.Refers` says that all of them are to be found in a picture. Each
way to extend a highlight keeps this, as long as what is added is shown; and what is shown in the
picture of a child is shown within its parent as well, so the frames of a child stay grounded when
the parent shows them.

## Main definitions

* `Node.Displays id slots`, `Node.Joins source target`: a node or an edge is found in a tree.
* `NodeHighlight.Fits slots`: the emphasis fits a node with a number of slots.
* `Highlight.Refers p`: everything that is emphasized is found in a picture.
* `Issued last ids`: the identities are different, and none is newer than the last one.
* `Renewed last ids shown`: the identities that are shown are different, and old or new.
* `Grounded last n frames`: frames of an operation below `n` refer to their pictures, which show the
  identities of `n` and newer ones.
-/

namespace TracedTree

/-! ## Tables -/

namespace Table

variable {κ ν : Type} [Ord κ] [Std.LawfulEqOrd κ] {t : Table κ ν} {k : κ} {v : ν}

theorem mem_entries_of_get? (h : t.get? k = some v) : (k, v) ∈ t.entries := by
  obtain ⟨⟨k', v'⟩, hfind, rfl⟩ := Option.map_eq_some_iff.1 h
  have hkey := List.find?_some hfind
  simp only [beq_iff_eq, Std.LawfulEqOrd.compare_eq_iff_eq] at hkey
  rw [hkey]
  exact List.mem_of_find?_eq_some hfind

/-- An entry of a changed table is an old one, or it is the changed one. -/
theorem mem_entries_alter [Std.TransOrd κ] {f : Option ν → ν} {e : κ × ν}
    (he : e ∈ (t.alter k f).entries) :
    e ∈ t.entries ∨ e = (k, f none) ∨ ∃ v, (k, v) ∈ t.entries ∧ e = (k, f (some v)) := by
  rcases mem_insertEntry he with rfl | he
  · cases hget : t.get? k with
    | none => exact .inr (.inl rfl)
    | some v => exact .inr (.inr ⟨v, mem_entries_of_get? hget, rfl⟩)
  · exact .inl he

theorem mem_keys_insertEntry {j : κ} (entries : List (κ × ν)) :
    j ∈ (insertEntry k v entries).map Prod.fst ↔ j = k ∨ j ∈ entries.map Prod.fst := by
  induction entries with
  | nil => simp [insertEntry]
  | cons e rest ih =>
      rw [insertEntry]
      split
      · simp
      · rename_i hkey
        rw [Std.LawfulEqOrd.compare_eq_iff_eq] at hkey
        simp [hkey]
      · simp only [List.map_cons, List.mem_cons, ih]
        exact or_left_comm

theorem mem_keys_insert [Std.TransOrd κ] {j : κ} : j ∈ (t.insert k v).keys ↔ j = k ∨ j ∈ t.keys :=
  mem_keys_insertEntry t.entries

end Table

/-! ## The emphasis on one node -/

theorem mem_appendNew {xs : List Nat} {x y : Nat} : y ∈ appendNew xs x ↔ y = x ∨ y ∈ xs := by
  rw [appendNew]
  split
  · rename_i hx
    rw [List.contains_iff_mem] at hx
    constructor
    · exact .inr
    · rintro (rfl | hy)
      · exact hx
      · exact hy
  · simp [or_comm]

theorem nodup_appendNew {xs : List Nat} (hxs : xs.Nodup) (x : Nat) : (appendNew xs x).Nodup := by
  rw [appendNew]
  split
  · exact hxs
  · rename_i hx
    rw [List.contains_iff_mem] at hx
    rw [List.nodup_append]
    refine ⟨hxs, by simp, ?_⟩
    intro a ha b hb hab
    rw [List.mem_singleton] at hb
    exact hx (hb ▸ hab ▸ ha)

namespace NodeHighlight

/-- The slots and gaps exist in a node with some number of slots, none is named twice, and exactly
these have messages. -/
structure Fits (n : NodeHighlight) (slots : Nat) : Prop where
  indices_lt : ∀ i ∈ n.indices, i < slots
  indices_nodup : n.indices.Nodup
  mem_indices : ∀ i, i ∈ n.indices ↔ i ∈ n.indexMessages.keys
  separators_le : ∀ i ∈ n.separators, i ≤ slots
  separators_nodup : n.separators.Nodup
  mem_separators : ∀ i, i ∈ n.separators ↔ i ∈ n.separatorMessages.keys

variable {n : NodeHighlight} {slots i : Nat}

theorem fits_none (slots : Nat) : none.Fits slots := by
  constructor <;> simp [none, Table.empty, Table.keys]

theorem Fits.index (hn : n.Fits slots) (hi : i < slots) (message : String) :
    Fits { n with
      indices := appendNew n.indices i, indexMessages := n.indexMessages.insert i message }
      slots := by
  refine ⟨?_, nodup_appendNew hn.indices_nodup i, ?_, hn.separators_le, hn.separators_nodup,
    hn.mem_separators⟩
  · intro j hj
    rcases mem_appendNew.1 hj with rfl | hj
    · exact hi
    · exact hn.indices_lt j hj
  · intro j
    rw [mem_appendNew, Table.mem_keys_insert, hn.mem_indices]

theorem Fits.separator (hn : n.Fits slots) (hi : i ≤ slots) (message : String) :
    Fits { n with
      separators := appendNew n.separators i
      separatorMessages := n.separatorMessages.insert i message } slots := by
  refine ⟨hn.indices_lt, hn.indices_nodup, hn.mem_indices, ?_,
    nodup_appendNew hn.separators_nodup i, ?_⟩
  · intro j hj
    rcases mem_appendNew.1 hj with rfl | hj
    · exact hi
    · exact hn.separators_le j hj
  · intro j
    rw [mem_appendNew, Table.mem_keys_insert, hn.mem_separators]

end NodeHighlight

/-! ## What a tree shows -/

namespace Node

variable {α β : Type} {n m c p : Node α} {id slots : Nat}

/-- A node with an identity and a number of keys is in the tree. -/
def Displays (p : Node α) (id slots : Nat) : Prop :=
  ∃ n ∈ p.preorder, n.id = id ∧ n.keys.length = slots

/-- Two nodes with given identities are in the tree, the second a child of the first. -/
def Joins (p : Node α) (source target : Nat) : Prop :=
  ∃ n ∈ p.preorder, ∃ c ∈ n.children, n.id = source ∧ c.id = target

/-- All that is below a node of a tree is in the tree. -/
theorem mem_preorder_trans (hn : n ∈ p.preorder) (hm : m ∈ n.preorder) : m ∈ p.preorder := by
  induction p with
  | step id keys children ih =>
      rw [preorder_mk] at hn
      rcases List.mem_cons.1 hn with rfl | hn
      · exact hm
      · obtain ⟨c, hc, hn⟩ := List.mem_flatMap.1 hn
        exact mem_preorder_of_mem_children hc (ih c hc hn)

theorem mem_preorder_child (hn : n ∈ p.preorder) (hc : c ∈ n.children) : c ∈ p.preorder :=
  mem_preorder_trans hn (mem_preorder_of_mem_children hc (mem_preorder_self c))

theorem displays_of_mem (hn : n ∈ p.preorder) : p.Displays n.id n.keys.length := ⟨n, hn, rfl, rfl⟩

theorem joins_of_mem (hn : n ∈ p.preorder) (hc : c ∈ n.children) : p.Joins n.id c.id :=
  ⟨n, hn, c, hc, rfl, rfl⟩

theorem Displays.mono (hm : m ∈ p.preorder) (h : m.Displays id slots) : p.Displays id slots := by
  obtain ⟨n, hn, hshown⟩ := h
  exact ⟨n, mem_preorder_trans hm hn, hshown⟩

theorem Joins.mono {source target : Nat} (hm : m ∈ p.preorder) (h : m.Joins source target) :
    p.Joins source target := by
  obtain ⟨n, hn, c, hc, hjoined⟩ := h
  exact ⟨n, mem_preorder_trans hm hn, c, hc, hjoined⟩

/-- A tree whose keys are replaced shows as many slots and the same edges. -/
theorem Displays.map (h : p.Displays id slots) (f : α → β) : (p.map f).Displays id slots := by
  obtain ⟨n, hn, rfl, rfl⟩ := h
  rw [Displays, preorder_map]
  exact ⟨n.map f, List.mem_map_of_mem hn, by simp, by simp⟩

theorem Joins.map {source target : Nat} (h : p.Joins source target) (f : α → β) :
    (p.map f).Joins source target := by
  obtain ⟨n, hn, c, hc, rfl, rfl⟩ := h
  rw [Joins, preorder_map]
  exact ⟨n.map f, List.mem_map_of_mem hn, c.map f, by simpa using ⟨c, hc, rfl⟩, by simp, by simp⟩

/-- Where no identity occurs twice, it belongs to one node. -/
theorem Displays.unique {slots' : Nat} (hp : p.ids.Nodup) (h : p.Displays id slots)
    (h' : p.Displays id slots') : slots' = slots := by
  obtain ⟨n, hn, rfl, rfl⟩ := h
  obtain ⟨m, hm, hid, rfl⟩ := h'
  rw [List.inj_on_of_nodup_map hp hm hn hid]

end Node

/-! ## Extending a highlight -/

namespace Highlight

/-- The picture shows every emphasized node, slot, gap and edge. -/
structure Refers (h : Highlight) (p : Picture) : Prop where
  nodes : ∀ e ∈ h.nodes.entries, ∃ slots, p.Displays e.1 slots ∧ e.2.Fits slots
  edges : ∀ e ∈ h.edges.entries, ∃ source target, e.1 = edgeName source target ∧
    p.Joins source target

variable {h : Highlight} {p q m : Picture} {id slots i : Nat}

theorem refers_none (p : Picture) : none.Refers p := by
  constructor <;> simp [none, Table.empty]

theorem Refers.mono (hm : m ∈ p.preorder) (hr : h.Refers m) : h.Refers p := by
  constructor
  · intro e he
    obtain ⟨slots, hdisplays, hfits⟩ := hr.nodes e he
    exact ⟨slots, hdisplays.mono hm, hfits⟩
  · intro e he
    obtain ⟨source, target, hname, hjoins⟩ := hr.edges e he
    exact ⟨source, target, hname, hjoins.mono hm⟩

theorem Refers.edge {source target : Nat} (hr : h.Refers p) (hjoins : p.Joins source target)
    (full : Bool) : (h.edge source target full).Refers p := by
  refine ⟨hr.nodes, ?_⟩
  intro e he
  rcases Table.mem_insertEntry he with rfl | he
  · exact ⟨source, target, rfl, hjoins⟩
  · exact hr.edges e he

variable (hp : p.ids.Nodup)

include hp

/-- The emphasis on a node may be changed in a way that fits the node. -/
theorem Refers.onNode {f : NodeHighlight → NodeHighlight} (hr : h.Refers p)
    (hdisplays : p.Displays id slots) (hf : ∀ n : NodeHighlight, n.Fits slots → (f n).Fits slots) :
    (h.onNode id f).Refers p := by
  refine ⟨?_, hr.edges⟩
  intro e he
  rcases Table.mem_entries_alter he with he | rfl | ⟨n, hn, rfl⟩
  · exact hr.nodes e he
  · exact ⟨slots, hdisplays, hf _ (NodeHighlight.fits_none slots)⟩
  · obtain ⟨slots', hdisplays', hfits⟩ := hr.nodes _ hn
    obtain rfl := hdisplays.unique hp hdisplays'
    exact ⟨slots', hdisplays, hf n hfits⟩

theorem Refers.node (hr : h.Refers p) (hdisplays : p.Displays id slots) (full : Bool)
    (message : String) : (h.node id full message).Refers p := by
  refine hr.onNode hp hdisplays ?_
  intro n hn
  exact ⟨hn.indices_lt, hn.indices_nodup, hn.mem_indices, hn.separators_le, hn.separators_nodup,
    hn.mem_separators⟩

theorem Refers.index (hr : h.Refers p) (hdisplays : p.Displays id slots) (hi : i < slots)
    (message : String) : (h.index id i message).Refers p :=
  hr.onNode hp hdisplays fun _ hn => hn.index hi message

theorem Refers.separator (hr : h.Refers p) (hdisplays : p.Displays id slots) (hi : i ≤ slots)
    (message : String) : (h.separator id i message).Refers p :=
  hr.onNode hp hdisplays fun _ hn => hn.separator hi message

omit hp in
theorem Refers.foldl {ι : Type} {f : Highlight → ι → Highlight} {xs : List ι} (hr : h.Refers p)
    (hf : ∀ x ∈ xs, ∀ h : Highlight, h.Refers p → (f h x).Refers p) :
    (xs.foldl f h).Refers p := by
  induction xs generalizing h with
  | nil => exact hr
  | cons x xs ih =>
      obtain ⟨hx, hxs⟩ := List.forall_mem_cons.1 hf
      exact ih (hx h hr) hxs

theorem Refers.ownSlots (hr : h.Refers p) (hm : m ∈ p.preorder) : (h.ownSlots m).Refers p := by
  have hslots : ((List.range m.keys.length).foldl (fun h i => h.index m.id i "") h).Refers p := by
    refine hr.foldl ?_
    intro i hi h hr
    exact hr.index hp (Node.displays_of_mem hm) (List.mem_range.1 hi) ""
  refine hslots.foldl ?_
  intro c hc h hr
  exact hr.edge (Node.joins_of_mem hm hc) false

theorem Refers.below (hr : h.Refers p) (hm : m ∈ p.preorder) : (h.below m).Refers p := by
  refine hr.foldl ?_
  intro n hn h hr
  exact hr.ownSlots hp (Node.mem_preorder_trans hm hn)

theorem Refers.slotBelow (hr : h.Refers p) (hm : m ∈ p.preorder) (hi : i < m.keys.length) :
    (h.slotBelow m i).Refers p := by
  refine (hr.index hp (Node.displays_of_mem hm) hi "").foldl ?_
  intro c hc h hr
  have hchild : c ∈ m.children := by
    rw [List.reduceOption_mem_iff] at hc
    simp only [List.mem_cons, List.not_mem_nil, or_false] at hc
    rcases hc with hc | hc <;> exact List.mem_of_getElem? hc.symm
  exact (hr.edge (Node.joins_of_mem hm hchild) false).below hp (Node.mem_preorder_child hm hchild)

theorem Refers.slotsBelow {slots : List Nat} (hr : h.Refers p) (hm : m ∈ p.preorder)
    (hslots : ∀ i ∈ slots, i < m.keys.length) : (h.slotsBelow m slots).Refers p := by
  refine hr.foldl ?_
  intro i hi h hr
  exact hr.slotBelow hp hm (hslots i hi)

end Highlight

/-! ## Identities that are shown -/

/-- The identities are different, and all have been handed out. -/
structure Issued (last : Nat) (ids : List Nat) : Prop where
  nodup : ids.Nodup
  le : ∀ id ∈ ids, id ≤ last

theorem Issued.part {last : Nat} {left ids right : List Nat}
    (h : Issued last (left ++ ids ++ right)) : Issued last ids := by
  refine ⟨(List.nodup_append.1 (List.nodup_append.1 h.nodup).1).2.1, ?_⟩
  intro id hid
  exact h.le id (by simp [hid])

/-- No identity occurs twice among those that are shown, and each is one of some identities or newer
than the last one that had been handed out. -/
structure Renewed (last : Nat) (ids shown : List Nat) : Prop where
  nodup : shown.Nodup
  old_or_new : ∀ id ∈ shown, id ∈ ids ∨ last < id

namespace Renewed

variable {last : Nat} {ids shown more : List Nat}

theorem refl (hids : ids.Nodup) : Renewed last ids ids := ⟨hids, fun _ hid => .inl hid⟩

theorem trans (h : Renewed last ids shown) (h' : Renewed last shown more) :
    Renewed last ids more := by
  refine ⟨h'.nodup, ?_⟩
  intro id hid
  rcases h'.old_or_new id hid with hid | hid
  · exact h.old_or_new id hid
  · exact .inr hid

/-- What is shown in the place of a part is shown within the whole. -/
theorem within (h : Renewed last ids shown) {left right : List Nat}
    (hids : Issued last (left ++ ids ++ right)) :
    Renewed last (left ++ ids ++ right) (left ++ shown ++ right) := by
  obtain ⟨hnodup, hle⟩ := hids
  constructor
  · simp only [List.nodup_append, List.mem_append] at hnodup hle ⊢
    obtain ⟨⟨hleft, -, hdisjoint⟩, hright, hdisjoint'⟩ := hnodup
    refine ⟨⟨hleft, h.nodup, ?_⟩, hright, ?_⟩
    · intro a ha x hx hax
      rcases h.old_or_new x hx with hx | hx
      · exact hdisjoint a ha x hx hax
      · have := hle a (.inl (.inl ha))
        omega
    · rintro a (ha | ha) x hx hax
      · exact hdisjoint' a (.inl ha) x hx hax
      · rcases h.old_or_new a ha with ha | ha
        · exact hdisjoint' a (.inr ha) x hx hax
        · have := hle x (.inr hx)
          omega
  · simp only [List.mem_append]
    rintro id ((hid | hid) | hid)
    · exact .inl (.inl (.inl hid))
    · rcases h.old_or_new id hid with hid | hid
      · exact .inl (.inl (.inr hid))
      · exact .inr hid
    · exact .inl (.inr hid)

end Renewed

/-! ## Grounded frames -/

/-- The frames refer to their pictures, which show the identities of a node, or newer ones. -/
def Grounded (last : Nat) (n : Node Key) (frames : List Frame) : Prop :=
  ∀ f ∈ frames, Renewed last n.ids f.picture.ids ∧ f.highlight.Refers f.picture

section Grounded

variable {last : Nat} {n m : Node Key} {frames more : List Frame}

theorem grounded_nil (last : Nat) (n : Node Key) : Grounded last n [] := nofun

theorem Grounded.append (h : Grounded last n frames) (h' : Grounded last n more) :
    Grounded last n (frames ++ more) :=
  List.forall_mem_append.2 ⟨h, h'⟩

/-- Frames of a node that takes the place of another one. -/
theorem Grounded.of_renewed (hm : Renewed last n.ids m.ids) (h : Grounded last m frames) :
    Grounded last n frames := by
  intro f hf
  obtain ⟨hids, hrefers⟩ := h f hf
  exact ⟨hm.trans hids, hrefers⟩

theorem Renewed.picture {ids : List Nat} (hm : Renewed last ids m.ids) :
    Renewed last ids m.picture.ids := by
  rwa [Node.ids_picture]

/-- Frames that show a node itself. -/
theorem grounded_of_refers (hm : Renewed last n.ids m.ids)
    (h : ∀ f ∈ frames, f.picture = m.picture ∧ f.highlight.Refers m.picture) :
    Grounded last n frames := by
  intro f hf
  obtain ⟨hpicture, hrefers⟩ := h f hf
  rw [hpicture]
  exact ⟨hm.picture, hrefers⟩

/-- Nodes and edges of a tree are found in its picture. -/
theorem Node.mem_picture (hm : m ∈ n.preorder) : m.picture ∈ n.picture.preorder := by
  rw [Node.picture, Node.preorder_map]
  exact List.mem_map_of_mem hm

theorem Node.displays_picture (hm : m ∈ n.preorder) : n.picture.Displays m.id m.keys.length :=
  (Node.displays_of_mem hm).map Key.label

theorem Node.joins_picture {c : Node Key} (hm : m ∈ n.preorder) (hc : c ∈ m.children) :
    n.picture.Joins m.id c.id :=
  (Node.joins_of_mem hm hc).map Key.label

section Within

variable {before others : List Key} {left right : List (Node Key)} {c : Node Key}

theorem Node.ids_opened {α : Type} (id : Nat) (keys : List α) (left : List (Node α)) (c : Node α)
    (right : List (Node α)) :
    Node.ids ⟨id, keys, left ++ c :: right⟩ =
      id :: left.flatMap Node.ids ++ c.ids ++ right.flatMap Node.ids := by
  simp [Node.ids_mk]

theorem Node.flatMap_ids_picture (ns : List (Node Key)) :
    (ns.map Node.picture).flatMap Node.ids = ns.flatMap Node.ids := by
  rw [List.flatMap_map]
  exact List.flatMap_congr fun n _ => Node.ids_picture n

theorem Issued.child {id : Nat} {keys : List Key}
    (h : Issued last (Node.ids ⟨id, keys, left ++ c :: right⟩)) : Issued last c.ids := by
  rw [Node.ids_opened] at h
  exact h.part

/-- What is shown in the place of a child is shown within its parent. -/
theorem Renewed.opened {shown : List Nat} (h : Renewed last c.ids shown) {id : Nat}
    {keys : List Key} (hids : Issued last (Node.ids ⟨id, keys, left ++ c :: right⟩)) :
    Renewed last (Node.ids ⟨id, keys, left ++ c :: right⟩)
      (id :: left.flatMap Node.ids ++ shown ++ right.flatMap Node.ids) := by
  rw [Node.ids_opened] at hids ⊢
  exact h.within hids

/-- Frames of a child are grounded within the parent. -/
theorem Grounded.within (h : Grounded last c frames) (hlen : left.length = before.length) {id : Nat}
    {keys : List Key} (hids : Issued last (Node.ids ⟨id, keys, left ++ c :: right⟩))
    (others : List Key) (b : Node Key) :
    Grounded last ⟨id, keys, left ++ c :: right⟩
      (frames.map (Frame.within (Node.picture ⟨id, others, left ++ b :: right⟩)
        before.length)) := by
  refine List.forall_mem_map.2 ?_
  intro f hf
  obtain ⟨hrenewed, hrefers⟩ := h f hf
  rw [Frame.within, withChild_picture hlen, Node.ids_opened _ _ _ f.picture,
    Node.flatMap_ids_picture, Node.flatMap_ids_picture]
  refine ⟨hrenewed.opened hids, hrefers.mono ?_⟩
  exact Node.mem_preorder_of_mem_children (c := f.picture) (by simp) (Node.mem_preorder_self _)

end Within

end Grounded

end TracedTree
