import TracedTree.Playback.Sequencer
import TracedTree.Proofs.Check
import TracedTree.Proofs.Remove
import TracedTree.Tree.Export

/-!
# Operations on valid trees

On a valid tree no operation fails for a reason inside the tree, and what comes out is valid
again. The keys are a sorted list of which an insertion is `Inserted` and a removal `Removed`;
`Tree.Valid.refines_sorted_list` puts this together for keys of either kind.

## Main definitions

* `Tree.Alike t u`: both trees have one capacity and one kind.
-/

namespace TracedTree

variable {capacity h held : Nat} {k : Key}

/-! ## The new root -/

namespace Growth

theorem inorder_root (g : Growth × Ledger) : (root g).1.inorder = g.1.inorder := by
  obtain ⟨g, l⟩ := g
  cases g with
  | whole n => rfl
  | halves left median right =>
      simp only [root, inorder]
      rw [Node.inorder_inner (by simp)]
      simp

/-- A new root takes the next identity. -/
theorem ids_root (g : Growth × Ledger) :
    ∃ s, HandedOut s g.2 (root g).2 g.1.ids (root g).1.ids := by
  obtain ⟨g, l⟩ := g
  cases g with
  | whole n => exact ⟨0, .refl l n.ids⟩
  | halves left median right =>
      refine ⟨1, ?_, rfl⟩
      simp only [root, ids, Node.ids_mk, List.flatMap_cons, List.flatMap_nil, List.append_nil,
        List.range'_one]
      exact (List.perm_append_singleton l.freshId _).symm

/-- The root that grows keeps the capacity, and holds a key if it has children. -/
theorem Filled.root {g : Growth × Ledger} (hg : g.1.Filled capacity h held) (hcap : 2 ≤ capacity)
    (hheld : h ≠ 0 → held ≠ 0) :
    ∃ i, (Growth.root g).1.Balanced capacity i ∧ (Growth.root g).1.keys.length ≤ capacity ∧
      ((Growth.root g).1.children ≠ [] → (Growth.root g).1.keys ≠ []) := by
  obtain ⟨g, l⟩ := g
  cases g with
  | whole n =>
      obtain ⟨hn, hlow, hhigh⟩ := hg
      refine ⟨h, hn, hhigh, fun hne hnil => ?_⟩
      simp only [Growth.root] at hne hnil
      rw [hnil] at hlow
      refine hheld ?_ (Nat.le_zero.1 hlow)
      rintro rfl
      exact hne hn
  | halves left median right =>
      obtain ⟨hleft, hright⟩ := hg
      have hopen : Node.Opened capacity h ([] : List Key) [] [] [] := ⟨rfl, rfl, by simp⟩
      refine ⟨h + 1, hopen.balanced_halves hleft hright l.freshId median, ?_, by simp [Growth.root]⟩
      simp only [Growth.root, List.length_singleton]
      omega

end Growth

namespace Node

/-- A root without keys has one child, which takes its place; any other root stays. -/
theorem collapse_cases {n : Node Key} (hn : n.Balanced capacity h) :
    n.collapse = n ∧ (n.children ≠ [] → n.keys ≠ []) ∨
    ∃ i c, n = ⟨n.id, [], [c]⟩ ∧ n.collapse = c ∧ c.Filled capacity i := by
  obtain ⟨id, keys, children⟩ := n
  cases keys with
  | cons k keys => exact .inl ⟨rfl, by simp⟩
  | nil =>
      cases h with
      | zero =>
          obtain rfl : children = [] := hn
          exact .inl ⟨rfl, by simp⟩
      | succ h =>
          obtain ⟨hlen, hfilled⟩ := balanced_succ.1 hn
          obtain ⟨c, rfl⟩ := List.length_eq_one_iff.1 hlen
          exact .inr ⟨h, c, rfl, rfl, hfilled c List.mem_cons_self⟩

/-- A root that gives way drops its identity. -/
theorem ids_collapse_sublist (n : Node Key) : n.collapse.ids.Sublist n.ids := by
  obtain ⟨id, keys, children⟩ := n
  cases keys with
  | cons k keys => exact .refl _
  | nil =>
      cases children with
      | nil => exact .refl _
      | cons c children => simp [collapse, ids_mk]

theorem Balanced.collapse {n : Node Key} (hn : n.Balanced capacity h) (hcap : 2 ≤ capacity)
    (hlen : n.keys.length ≤ capacity) :
    ∃ i, n.collapse.Balanced capacity i ∧ n.collapse.keys.length ≤ capacity ∧
      (n.collapse.children ≠ [] → n.collapse.keys ≠ []) ∧
      n.collapse.inorder = n.inorder ∧ n.collapse.ids.Sublist n.ids := by
  have hids := n.ids_collapse_sublist
  rcases collapse_cases hn with ⟨heq, hroot⟩ | ⟨i, c, hn', heq, hc⟩
  · rw [heq] at hids ⊢
    exact ⟨h, hn, hlen, hroot, rfl, hids⟩
  · rw [heq] at hids ⊢
    refine ⟨i, hc.1, hc.2.2, fun _ => hc.keys_ne_nil hcap, ?_, hids⟩
    rw [hn', inorder_inner (by simp)]
    simp

/-- A root with a key above its children stays. -/
theorem Balanced.collapse_eq {n : Node Key} (hn : n.Balanced capacity h)
    (hroot : n.children ≠ [] → n.keys ≠ []) : n.collapse = n := by
  rcases collapse_cases hn with ⟨heq, -⟩ | ⟨i, c, hn', -, -⟩
  · exact heq
  · rw [hn'] at hroot
    simp at hroot

end Node

namespace Tree

variable {t u : Tree}

/-- Both trees have one capacity and one kind. -/
structure Alike (t u : Tree) : Prop where
  maxKeys : u.maxKeys = t.maxKeys
  kind : u.kind = t.kind

@[simp] theorem advance_root (t : Tree) (root : Node Key) (ledger : Ledger)
    (frames : Unit → List Frame) : (t.advance root ledger frames).root = root := rfl

@[simp] theorem advance_ledger (t : Tree) (root : Node Key) (ledger : Ledger)
    (frames : Unit → List Frame) : (t.advance root ledger frames).ledger = ledger := rfl

@[simp] theorem advance_keys (t : Tree) (root : Node Key) (ledger : Ledger)
    (frames : Unit → List Frame) : (t.advance root ledger frames).keys = root.inorder := rfl

/-- An insertion that succeeds appends its frames to the recording. -/
theorem recording_add (h : t.add k = .ok u) :
    u.recording = t.recording.map (· ++ t.addFrames k) := by
  rw [add] at h
  split at h
  · cases h
  split at h
  · cases h
  · obtain rfl := Except.ok.inj h
    rfl

/-- An insertion of a key of the tree's kind succeeds and puts the key in its place. -/
theorem Valid.exists_add (ht : t.Valid) (hk : k.kind = t.kind) :
    ∃ u, t.add k = .ok u ∧ u.Valid ∧ Alike t u ∧ Inserted k t.keys u.keys := by
  obtain ⟨h, hbal, hlen, hroot, hasc, hkinds, hnodup, hle⟩ := t.valid_iff.1 ht
  have hcap := t.two_le_maxKeys
  obtain ⟨g, hg, hfilled, hins⟩ := Node.inserted_insert (k := k) (by omega) hbal hlen hasc t.ledger
  obtain ⟨g', s, hg', hout, -⟩ := Node.ids_insert (k := k) (by omega) hbal hlen t.ledger
  obtain rfl : g = g' := Except.ok.inj (hg.symm.trans hg')
  have hheld : h ≠ 0 → t.root.keys.length ≠ 0 := by
    intro hh hnil
    refine hroot ?_ (List.length_eq_zero_iff.1 hnil)
    rw [← List.isEmpty_eq_false_iff, hbal.isEmpty_eq]
    simpa using hh
  obtain ⟨i, hbal', hlen', hroot'⟩ := hfilled.root hcap hheld
  -- The identities of the divisions are followed by that of the new root.
  obtain ⟨e, hout'⟩ := Growth.ids_root g
  obtain ⟨hnodup', hle'⟩ := (hout.trans hout').nodup hnodup hle
  have hins' : Inserted k t.keys (Growth.root g).1.inorder := by
    rw [Growth.inorder_root]
    exact hins
  refine ⟨t.advance (Growth.root g).1 (Growth.root g).2 fun _ => t.addFrames k, ?_, ?_,
    ⟨rfl, rfl⟩, hins'⟩
  · simp [add, hk, hg]
  · refine (valid_iff _).2 ⟨i, hbal', hlen', hroot', hins'.ascending hasc, ?_, hnodup', hle'⟩
    intro a ha
    rcases hins'.mem_iff.1 ha with rfl | ha
    · exact hk
    · exact hkinds a ha

/-- A removal of a key of the tree's kind succeeds. Where the key was, one occurrence is gone;
where it was not, root and ledger are the same as before. -/
theorem Valid.exists_remove (ht : t.Valid) (hk : k.kind = t.kind) :
    ∃ found u, t.remove k = .ok (found, u) ∧ u.Valid ∧ Alike t u ∧
      (found = true ∧ Removed k t.keys u.keys ∨
        found = false ∧ (∀ a ∈ t.keys, ¬ k.same a) ∧ u.root = t.root ∧ u.ledger = t.ledger) := by
  obtain ⟨h, hbal, hlen, hroot, hasc, hkinds, hnodup, hle⟩ := t.valid_iff.1 ht
  have hcap := t.two_le_maxKeys
  obtain ⟨r, hr, hshrunk, hacc⟩ := Node.exists_remove (k := k) hcap hbal hroot hasc t.ledger
  obtain ⟨i, hbal', hlen', hroot', hinorder, hsub⟩ :=
    hshrunk.balanced.collapse hcap (Nat.le_trans hshrunk.length_le hlen)
  obtain ⟨ds, hperm, hlast, -⟩ := hshrunk.dropped
  have hids : r.node.collapse.ids.Subset t.root.ids ∧ r.node.collapse.ids.Nodup := by
    have hwhole := hperm.nodup_iff.1 hnodup
    refine ⟨fun id hid => hperm.mem_iff.2 (List.mem_append_left _ (hsub.subset hid)), ?_⟩
    exact (List.nodup_append.1 hwhole).1.sublist hsub
  have hremove : t.remove k = .ok (r.found,
      t.advance r.node.collapse r.ledger fun _ => t.removeFrames k) := by
    simp [remove, hk, minKeys, hr]
  have hsublist : r.node.inorder.Sublist t.root.inorder := by
    cases hacc with
    | found hremoved => exact hremoved.sublist
    | absent _ => exact List.Sublist.refl _
  refine ⟨r.found, _, hremove, (valid_iff _).2 ⟨i, hbal', hlen', hroot', ?_, ?_, hids.2, ?_⟩,
    ⟨rfl, rfl⟩, ?_⟩
  · rw [advance_keys, hinorder]
    exact hasc.sublist hsublist
  · intro a ha
    rw [advance_keys, hinorder] at ha
    exact hkinds a (hsublist.subset ha)
  · intro id hid
    rw [advance_ledger, hlast]
    exact hle id (hids.1 hid)
  · rw [advance_keys, hinorder, advance_root, advance_ledger]
    cases hacc with
    | found hremoved => exact .inl ⟨rfl, hremoved⟩
    | absent hnone => exact .inr ⟨rfl, hnone, hbal.collapse_eq hroot, rfl⟩

/-- Keys of the other kind are absent from a valid tree. -/
theorem Valid.not_same_of_kind_ne (ht : t.Valid) (hk : k.kind ≠ t.kind) :
    ∀ a ∈ t.keys, ¬ k.same a := by
  intro a ha hsame
  exact hk ((Key.kind_eq_of_same hsame).trans (ht.kind_of_mem_keys a ha))

/-- **A valid tree refines a sorted list of keys.** A key of the tree's kind is put in its place,
and any other one is refused. A removal answers whether the key occurs; if so one occurrence is
taken out, and otherwise nothing of the tree has changed but what it records. -/
theorem Valid.refines_sorted_list (ht : t.Valid) (k : Key) :
    (k.kind = t.kind → ∃ u, t.add k = .ok u ∧ u.Valid ∧ Alike t u ∧ Ascending u.keys ∧
      Inserted k t.keys u.keys) ∧
    (k.kind ≠ t.kind → t.add k = .error (.kindMismatch t.kind k.kind) ∧
      (Operation.add k).apply t = t) ∧
    ∃ found u, t.remove k = .ok (found, u) ∧ u.Valid ∧ Alike t u ∧ Ascending u.keys ∧
      (found = true ↔ ∃ a ∈ t.keys, k.same a) ∧ (found = true → Removed k t.keys u.keys) ∧
      (found = false → u.root = t.root ∧ u.ledger = t.ledger) := by
  refine ⟨fun hk => ?_, fun hk => ?_, ?_⟩
  · obtain ⟨u, hu, hvalid, halike, hins⟩ := ht.exists_add hk
    exact ⟨u, hu, hvalid, halike, hvalid.ascending, hins⟩
  · have hadd : t.add k = .error (.kindMismatch t.kind k.kind) := by simp [add, hk]
    refine ⟨hadd, ?_⟩
    simp [Operation.apply, hadd]
  · by_cases hk : k.kind = t.kind
    · obtain ⟨found, u, hu, hvalid, halike, hcases⟩ := ht.exists_remove hk
      refine ⟨found, u, hu, hvalid, halike, hvalid.ascending, ?_⟩
      rcases hcases with ⟨rfl, hremoved⟩ | ⟨rfl, hnone, hsame⟩
      · have hany := hremoved.any_same
        rw [List.any_eq_true] at hany
        exact ⟨⟨fun _ => hany, fun _ => rfl⟩, fun _ => hremoved, by simp⟩
      · exact ⟨⟨by simp, fun ⟨a, ha, h⟩ => absurd h (hnone a ha)⟩, by simp, fun _ => hsame⟩
    · have hnone := ht.not_same_of_kind_ne hk
      refine ⟨false, t, by simp [remove, hk], ht, ⟨rfl, rfl⟩, ht.ascending, ?_, by simp, by simp⟩
      exact ⟨by simp, fun ⟨a, ha, h⟩ => absurd h (hnone a ha)⟩

/-- A tree of two levels whose separator occurs below it as well, and the key that equals it. -/
theorem refines_sorted_list_two_levels :
    let t : Tree := ⟨2, .number, ⟨3, [.ofInt 2], [⟨1, [.ofInt 1, .ofInt 2], []⟩,
      ⟨2, [.ofInt 3], []⟩]⟩, ⟨3, {}⟩, none, by decide⟩
    t.Valid ∧
    (Kind.number = t.kind → ∃ u, t.add (.ofInt 2) = .ok u ∧ u.Valid ∧ Alike t u ∧
      Ascending u.keys ∧ Inserted (.ofInt 2) t.keys u.keys) ∧
    (Kind.number ≠ t.kind → t.add (.ofInt 2) = .error (.kindMismatch t.kind .number) ∧
      (Operation.add (.ofInt 2)).apply t = t) ∧
    ∃ found u, t.remove (.ofInt 2) = .ok (found, u) ∧ u.Valid ∧ Alike t u ∧ Ascending u.keys ∧
      (found = true ↔ ∃ a ∈ t.keys, (Key.ofInt 2).same a) ∧
      (found = true → Removed (.ofInt 2) t.keys u.keys) ∧
      (found = false → u.root = t.root ∧ u.ledger = t.ledger) := by
  intro t
  have ht : t.Valid := (check_eq_ok_iff t).1 (by decide +kernel)
  exact ⟨ht, ht.refines_sorted_list (.ofInt 2)⟩

/-! ## Where valid trees come from -/

theorem valid_empty (maxKeys : Nat) (kind : Kind) (hcap : 2 ≤ maxKeys) :
    (empty maxKeys kind hcap).Valid := by
  refine (valid_iff _).2 ⟨0, rfl, Nat.zero_le _, by simp [empty], ?_, ?_, ?_, ?_⟩ <;>
    simp [empty, keys, Ascending, Node.ids_mk]

theorem valid_ofMaxKeys {maxKeys : Nat} {kind : Kind} (h : ofMaxKeys maxKeys kind = .ok t) :
    t.Valid ∧ t.recording = none := by
  rw [ofMaxKeys] at h
  split at h
  · obtain rfl := Except.ok.inj h
    exact ⟨valid_empty maxKeys kind _, rfl⟩
  · cases h

/-- Restoring only lets valid trees through, which record nothing. -/
theorem valid_document {d : Document} (h : d.tree = .ok t) : t.Valid ∧ t.recording = none := by
  rw [Document.tree] at h
  split at h
  · obtain ⟨root, -, h⟩ := bind_eq_ok_iff.1 h
    simp only at h
    split at h
    · rename_i hcheck
      obtain rfl := Except.ok.inj h
      exact ⟨(check_eq_ok_iff _).1 hcheck, rfl⟩
    · cases h
  · cases h

theorem valid_importText {text : String} (h : importText text = .ok t) :
    t.Valid ∧ t.recording = none := by
  rw [importText] at h
  split at h
  · cases h
  · exact valid_document (mapError_eq_ok_iff.1 h)

end Tree

end TracedTree
