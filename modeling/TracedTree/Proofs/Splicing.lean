import TracedTree.Proofs.Focus
import TracedTree.Proofs.Highlights

/-!
# Nodes found by identity

Pictures are searched and changed by identity: the node that is meant is the first one that has it.
Where no identity occurs twice this is the node at the end of a path, wherever it stands, so that a
search by identity finds it, and a change by identity changes what stands at the end of the path
and nothing around it. Frames that are drawn by identity are then frames of that node.

## Main statements

* `Node.find?_id`, `Highlight.subtree_id`: a search by identity finds any node of a tree.
* `Node.modify_plug`, `Node.modify_child`: a change by identity is a change in place.
* `modify_picture_plug`, `subtree_draw`: the same for the picture of a tree around a node.
* `Issued.nodup_proposed`: an identity that is proposed is different from all in the tree.
-/

namespace TracedTree

/-! ## Identities around a node -/

section Around

variable {α : Type} {a b : Node α} {extra : List Nat}

theorem ids_close (y : Layer α) (n : Node α) :
    (y.close n).ids = y.id :: y.left.flatMap Node.ids ++ n.ids ++ y.right.flatMap Node.ids :=
  Node.ids_opened ..

/-- The identities of a node stand in one piece among those of the tree around it. -/
theorem exists_ids_plug (ctx : List (Layer α)) :
    ∃ left right, ∀ n : Node α, (plug ctx n).ids = left ++ n.ids ++ right := by
  induction ctx with
  | nil => exact ⟨[], [], fun n => by simp [plug]⟩
  | cons y ctx ih =>
      obtain ⟨left, right, hplug⟩ := ih
      refine ⟨left ++ y.id :: y.left.flatMap Node.ids, y.right.flatMap Node.ids ++ right,
        fun n => ?_⟩
      rw [plug, hplug, ids_close]
      simp

/-- What a node has more than another one, the tree around it has more as well. -/
theorem perm_ids_plug (ctx : List (Layer α)) (h : a.ids.Perm (b.ids ++ extra)) :
    (plug ctx a).ids.Perm ((plug ctx b).ids ++ extra) := by
  obtain ⟨left, right, hplug⟩ := exists_ids_plug ctx
  rw [hplug, hplug]
  exact Node.perm_around h left right

theorem ids_plug_congr (ctx : List (Layer α)) (h : a.ids = b.ids) :
    (plug ctx a).ids = (plug ctx b).ids := by
  obtain ⟨left, right, hplug⟩ := exists_ids_plug ctx
  rw [hplug, hplug, h]

theorem sublist_ids_plug (ctx : List (Layer α)) (h : a.ids.Sublist b.ids) :
    (plug ctx a).ids.Sublist (plug ctx b).ids := by
  obtain ⟨left, right, hplug⟩ := exists_ids_plug ctx
  rw [hplug, hplug]
  exact (h.append_left left).append_right right

theorem ids_sublist_plug (ctx : List (Layer α)) (n : Node α) : n.ids.Sublist (plug ctx n).ids := by
  obtain ⟨left, right, hplug⟩ := exists_ids_plug ctx
  rw [hplug]
  exact (List.sublist_append_right left n.ids).trans (List.sublist_append_left _ right)

theorem mem_preorder_plug {n m : Node α} (ctx : List (Layer α)) (hm : m ∈ n.preorder) :
    m ∈ (plug ctx n).preorder := by
  induction ctx generalizing n with
  | nil => exact hm
  | cons y ctx ih =>
      exact ih (Node.mem_preorder_of_mem_children (c := n) (by simp [Layer.close]) hm)

theorem exists_close {n c : Node α} {i : Nat} (hc : n.children[i]? = some c) :
    ∃ y : Layer α, n = y.close c ∧ y.left.length = i := by
  obtain ⟨id, keys, children⟩ := n
  obtain ⟨hlt, rfl⟩ := List.getElem?_eq_some_iff.1 hc
  refine ⟨⟨id, keys, children.take i, children.drop (i + 1)⟩, ?_,
    List.length_take_of_le (Nat.le_of_lt hlt)⟩
  rw [Layer.close, ← List.drop_eq_getElem_cons hlt, List.take_append_drop]

theorem modify_close (y : Layer α) (c : Node α) (f : Node α → Node α) :
    { y.close c with children := (y.close c).children.modify y.left.length f } = y.close (f c) := by
  simp [Layer.close, List.modify_eq_take_drop]

end Around

/-! ## Searching by identity -/

/-- Where no identity occurs twice, every node of a tree is found by its identity. -/
theorem Node.find?_id {α : Type} {n p : Node α} (hp : p.ids.Nodup) (hn : n ∈ p.preorder) :
    p.find? n.id = some n := by
  cases hfind : p.find? n.id with
  | none =>
      have hother := List.find?_eq_none.1 hfind n hn
      simp at hother
  | some m =>
      have hid : m.id = n.id := by simpa using List.find?_some hfind
      rw [List.inj_on_of_nodup_map hp (List.mem_of_find?_eq_some hfind) hn hid]

theorem Highlight.subtree_id {n p : Picture} (hp : p.ids.Nodup) (hn : n ∈ p.preorder)
    (h : Highlight) (slots : List Nat) : h.subtree n.id slots p = h.slotsBelow n slots := by
  rw [subtree, Node.find?_id hp hn, Option.elim_some]

/-! ## Changing by identity -/

namespace Node

variable {α : Type} {n c d p : Node α} {ctx : List (Layer α)} {id : Nat} {f : Node α → Node α}

theorem modifyFirst?_eq_none {cs : List (Node α)} (h : ∀ c ∈ cs, modify? id f c = none) :
    modifyFirst? id f cs = none := by
  induction cs with
  | nil => rw [modifyFirst?]
  | cons c cs ih =>
      obtain ⟨hc, hcs⟩ := List.forall_mem_cons.1 h
      rw [modifyFirst?, hc, ih hcs]
      rfl

theorem modifyFirst?_append {left : List (Node α)} (hleft : ∀ b ∈ left, modify? id f b = none)
    (hc : modify? id f c = some d) (right : List (Node α)) :
    modifyFirst? id f (left ++ c :: right) = some (left ++ d :: right) := by
  induction left with
  | nil => rw [List.nil_append, modifyFirst?, hc, List.nil_append]
  | cons b left ih =>
      obtain ⟨hb, hrest⟩ := List.forall_mem_cons.1 hleft
      rw [List.cons_append, modifyFirst?, hb, ih hrest]
      rfl

/-- Nothing is changed in a tree without the identity. -/
theorem modify?_eq_none (hid : id ∉ n.ids) : modify? id f n = none := by
  induction n with
  | step i keys children ih =>
      rw [ids_mk, List.mem_cons, not_or, List.mem_flatMap] at hid
      obtain ⟨hne, hbelow⟩ := hid
      rw [modify?, if_neg (Ne.symm hne),
        modifyFirst?_eq_none fun c hc => ih c hc fun hmem => hbelow ⟨c, hc, hmem⟩]
      rfl

theorem modify?_self (n : Node α) (f : Node α → Node α) : modify? n.id f n = some (f n) := by
  obtain ⟨id, keys, children⟩ := n
  rw [modify?, if_pos rfl]

/-- A child is changed in its place. -/
theorem modify?_close {y : Layer α} (hids : (y.close c).ids.Nodup)
    (hc : modify? id f c = some d) : modify? id f (y.close c) = some (y.close d) := by
  have hmem : id ∈ c.ids := by
    by_contra hid
    rw [modify?_eq_none hid] at hc
    cases hc
  rw [ids_close, List.nodup_append, List.nodup_append, List.nodup_cons] at hids
  obtain ⟨⟨⟨hself, -⟩, -, hbefore⟩, -, -⟩ := hids
  have hne : y.id ≠ id := hbefore y.id (by simp) id hmem
  have hleft : ∀ b ∈ y.left, modify? id f b = none := by
    refine fun b hb => modify?_eq_none fun hid => ?_
    exact hbefore id (List.mem_cons_of_mem _ (List.mem_flatMap.2 ⟨b, hb, hid⟩)) id hmem rfl
  rw [Layer.close, modify?, if_neg hne, modifyFirst?_append hleft hc]
  rfl

theorem modify?_plug (hids : (plug ctx c).ids.Nodup) (hc : modify? id f c = some d) :
    modify? id f (plug ctx c) = some (plug ctx d) := by
  induction ctx generalizing c d with
  | nil => exact hc
  | cons y ctx ih =>
      exact ih hids (modify?_close (hids.sublist (ids_sublist_plug ctx (y.close c))) hc)

/-- **A change by identity** reaches the node at the end of a path, and nothing around it. -/
theorem modify_plug (hids : (plug ctx n).ids.Nodup) (f : Node α → Node α) :
    (plug ctx n).modify n.id f = plug ctx (f n) := by
  rw [modify, modify?_plug hids (modify?_self n f), Option.getD_some]

/-- A child is changed at its position. -/
theorem modify_child {i : Nat} (hids : (plug ctx p).ids.Nodup) (hc : p.children[i]? = some c)
    (f : Node α → Node α) :
    (plug ctx p).modify c.id f = plug ctx { p with children := p.children.modify i f } := by
  obtain ⟨y, rfl, rfl⟩ := exists_close hc
  rw [modify_close]
  have hwhole : (plug (y :: ctx) c).ids.Nodup := hids
  exact modify_plug hwhole f

theorem perm_ids_modify_child {i : Nat} {extra : List Nat} (hc : p.children[i]? = some c)
    (hf : (f c).ids.Perm (c.ids ++ extra)) :
    (ids { p with children := p.children.modify i f }).Perm (p.ids ++ extra) := by
  obtain ⟨y, rfl, rfl⟩ := exists_close hc
  rw [modify_close]
  exact perm_ids_plug [y] hf

end Node

/-! ## What has been handed out in a tree -/

section Issued

variable {ctx : List (Layer Key)} {n m : Node Key} {ledger l : Ledger} {s last : Nat}

theorem Issued.plug_perm {α : Type} {ctx : List (Layer α)} {n m : Node α}
    (h : Issued last (plug ctx n).ids) (hperm : m.ids.Perm n.ids) :
    Issued last (plug ctx m).ids := by
  have hextra : m.ids.Perm (n.ids ++ []) := by rwa [List.append_nil]
  have hwhole := perm_ids_plug ctx hextra
  rw [List.append_nil] at hwhole
  exact ⟨hwhole.nodup_iff.2 h.nodup, fun id hid => h.le id (hwhole.mem_iff.1 hid)⟩

/-- What is proposed is different from all that has been handed out. -/
theorem Issued.nodup_proposed {ids more : List Nat} (h : Issued l.lastId ids)
    (hperm : more.Perm (ids ++ [l.proposedId])) : more.Nodup := by
  rw [hperm.nodup_iff, List.nodup_append]
  refine ⟨h.nodup, by simp, ?_⟩
  intro a ha b hb
  have hle := h.le a ha
  rw [List.mem_singleton.1 hb, Ledger.proposedId]
  omega

theorem HandedOut.issued_plug (hout : HandedOut s ledger l n.ids m.ids)
    (h : Issued ledger.lastId (plug ctx n).ids) : Issued l.lastId (plug ctx m).ids := by
  have hwhole : HandedOut s ledger l (plug ctx n).ids (plug ctx m).ids :=
    ⟨perm_ids_plug ctx hout.perm, hout.lastId_eq⟩
  obtain ⟨hnodup, hle⟩ := hwhole.nodup h.nodup h.le
  exact ⟨hnodup, hle⟩

end Issued

/-! ## Drawing by identity -/

section Draw

variable {ctx : List (Layer Key)} {n : Node Key} {q m : Picture}

theorem nodup_draw (hids : (plug ctx n).ids.Nodup) : (draw ctx n.picture).ids.Nodup := by
  rwa [← picture_plug, Node.ids_picture]

/-- A picture in the place of a node is drawn in the tree around it. -/
theorem modify_picture_plug (hids : (plug ctx n).ids.Nodup) (f : Picture → Picture) :
    (plug ctx n).picture.modify n.id f = draw ctx (f n.picture) := by
  rw [picture_plug, ← Node.id_picture]
  exact Node.modify_plug (nodup_draw hids) f

theorem subtree_draw (hids : (draw ctx q).ids.Nodup) (hm : m ∈ q.preorder) (h : Highlight)
    (slots : List Nat) : h.subtree m.id slots (draw ctx q) = h.slotsBelow m slots :=
  Highlight.subtree_id hids (mem_preorder_plug _ hm) h slots

end Draw

namespace Guarded

variable {D : Prop} {capacity : Nat} {ctx : List (Layer Key)} {n m : Node Key} {l : Ledger}

theorem leads_shownWith (id : Nat) (p : Picture) :
    Leads D capacity ctx (shownWith id p) n l
      (pure ((plug ctx n).picture.modify id fun _ => p)) n l [] :=
  leads_getPicture (f := fun shown => pure (shown.modify id fun _ => p))
    (.refl D capacity ctx _ n l)

/-- The emphasis below some slots of a node that is found by its identity. -/
theorem leads_recordSubtree (hids : D → (plug ctx n).ids.Nodup) (hm : m ∈ n.preorder)
    (h : Highlight) (slots : List Nat) :
    Leads D capacity ctx (recordSubtree h m.id slots) n l (pure ()) n l
      [⟨n.picture, h.slotsBelow m.picture slots, l.counters⟩] := by
  refine leads_getPicture (f := fun shown => record shown (h.subtree m.id slots shown))
    (leads_record fun hD => ⟨picture_plug ctx n, ?_⟩)
  rw [picture_plug, ← Node.id_picture]
  exact subtree_draw (nodup_draw (hids hD)) (Node.mem_picture hm) h slots

end Guarded

end TracedTree
