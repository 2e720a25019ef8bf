import TracedTree.Proofs.RemoveHighlights

/-!
# Names of edges

The name of an edge is the identity of the upper node followed directly by that of the lower one.
Nothing tells where the first one ends, so two edges of a tree can have one name: `112` joins 1 to
12, and also 11 to 2. `edgeName_eq_iff` says when: the digits of one upper node go on behind those
of the other one, by digits with which the other lower node begins. Edges whose upper nodes have
equally many digits never share a name.

## Main definitions

* `EdgeOverlap p c q d`: the edge from `p` to `c` can be read as the one from `q` to `d`, which has
  a longer identity in front.
-/

namespace TracedTree

/-- The digits of `q` are those of `p` and some more, with which the digits of `c` begin; those of
`d` are the rest. -/
def EdgeOverlap (p c q d : Nat) : Prop :=
  ∃ shared, shared ≠ [] ∧ Nat.toDigits 10 q = Nat.toDigits 10 p ++ shared ∧
    Nat.toDigits 10 c = shared ++ Nat.toDigits 10 d

section Digits

variable {p c q d : Nat}

theorem eq_of_toDigits_eq (h : Nat.toDigits 10 p = Nat.toDigits 10 q) : p = q := by
  rw [← Nat.ofDigitChars_ten_toDigits (n := p), h, Nat.ofDigitChars_ten_toDigits]

theorem edgeName_eq_iff_toDigits : edgeName p c = edgeName q d ↔
    Nat.toDigits 10 p ++ Nat.toDigits 10 c = Nat.toDigits 10 q ++ Nat.toDigits 10 d := by
  rw [← String.toList_inj]
  simp [edgeName]

/-- Two edges have one name exactly if they are the same or overlap. -/
theorem edgeName_eq_iff : edgeName p c = edgeName q d ↔
    p = q ∧ c = d ∨ EdgeOverlap p c q d ∨ EdgeOverlap q d p c := by
  rw [edgeName_eq_iff_toDigits]
  constructor
  · rw [List.append_eq_append_iff]
    rintro (⟨shared, hq, hc⟩ | ⟨shared, hp, hd⟩)
    · by_cases hnil : shared = []
      · rw [hnil, List.append_nil] at hq
        rw [hnil, List.nil_append] at hc
        exact .inl ⟨eq_of_toDigits_eq hq.symm, eq_of_toDigits_eq hc⟩
      · exact .inr (.inl ⟨shared, hnil, hq, hc⟩)
    · by_cases hnil : shared = []
      · rw [hnil, List.append_nil] at hp
        rw [hnil, List.nil_append] at hd
        exact .inl ⟨eq_of_toDigits_eq hp, eq_of_toDigits_eq hd.symm⟩
      · exact .inr (.inr ⟨shared, hnil, hp, hd⟩)
  · rintro (⟨rfl, rfl⟩ | ⟨shared, -, hq, hc⟩ | ⟨shared, -, hp, hd⟩)
    · rfl
    · rw [hq, hc, List.append_assoc]
    · rw [hp, hd, List.append_assoc]

theorem EdgeOverlap.length_lt (h : EdgeOverlap p c q d) :
    (Nat.toDigits 10 p).length < (Nat.toDigits 10 q).length := by
  obtain ⟨shared, hne, hq, -⟩ := h
  rw [hq, List.length_append]
  have := List.length_pos_iff.2 hne
  omega

/-- Where the upper nodes have equally many digits, the name tells the edge. -/
theorem edgeName_inj (hlen : (Nat.toDigits 10 p).length = (Nat.toDigits 10 q).length)
    (h : edgeName p c = edgeName q d) : p = q ∧ c = d := by
  rcases edgeName_eq_iff.1 h with hsame | hover | hover
  · exact hsame
  · exact absurd hlen (Nat.ne_of_lt hover.length_lt)
  · exact absurd hlen (Nat.ne_of_gt hover.length_lt)

end Digits

/-! ## Tables -/

namespace Table

variable {κ ν : Type} [Ord κ] [Std.LawfulEqOrd κ] {j k : κ}

theorem get?_insertEntry [DecidableEq κ] (v : ν) (entries : List (κ × ν)) :
    ((insertEntry k v entries).find? fun e => compare j e.1 == .eq).map (·.2) =
      if j = k then some v else (entries.find? fun e => compare j e.1 == .eq).map (·.2) := by
  induction entries with
  | nil => by_cases h : j = k <;> simp [insertEntry, h]
  | cons e rest ih =>
      rw [insertEntry]
      split
      · by_cases h : j = k <;> simp [h]
      · rename_i hkey
        rw [Std.LawfulEqOrd.compare_eq_iff_eq] at hkey
        by_cases h : j = k <;> simp [h, ← hkey]
      · rename_i hkey
        by_cases he : j = e.1
        · have hne : j ≠ k := by
            rintro rfl
            simp [he] at hkey
          have hfound : (compare j e.1 == .eq) = true := by simp [he]
          simp only [List.find?_cons, hfound, if_neg hne]
        · simpa [he] using ih

theorem get?_insert [DecidableEq κ] [Std.TransOrd κ] (t : Table κ ν) (v : ν) :
    (t.insert k v).get? j = if j = k then some v else t.get? j :=
  get?_insertEntry v t.entries

end Table

/-! ## Edges of a tree -/

namespace Node

variable {α : Type} {p n c m d : Node α}

/-- Where no identity occurs twice, two edges with the same identities are the same. -/
theorem edge_eq_of_ids (hp : p.ids.Nodup) (hn : n ∈ p.preorder) (hc : c ∈ n.children)
    (hm : m ∈ p.preorder) (hd : d ∈ m.children) (hid : n.id = m.id) (hid' : c.id = d.id) :
    n = m ∧ c = d :=
  ⟨List.inj_on_of_nodup_map hp hn hm hid,
    List.inj_on_of_nodup_map hp (mem_preorder_child hn hc) (mem_preorder_child hm hd) hid'⟩

end Node

namespace Tree

variable {t : Tree}

/-- **Edges share a name only if their identities overlap.** Perform any operation on a valid tree
that is recording, and take any two edges of the tree or of the picture in a frame that the
operation adds. They have one name exactly if they are the same edge or their identities overlap,
which needs upper nodes with different numbers of digits. Emphasizing one of them changes the
emphasis on the other one only in this case. -/
theorem Valid.edges_named (ht : t.Valid) (op : Operation) :
    ∃ answer u frames, t.startRecording.operate op = .ok (answer, u) ∧
      u.recording = some (t.recording.getD [] ++ frames) ∧
      ∀ p ∈ t.picture :: frames.map Frame.picture,
        ∀ n ∈ p.preorder, ∀ c ∈ n.children, ∀ m ∈ p.preorder, ∀ d ∈ m.children,
          (edgeName n.id c.id = edgeName m.id d.id ↔ n = m ∧ c = d ∨
            EdgeOverlap n.id c.id m.id d.id ∨ EdgeOverlap m.id d.id n.id c.id) ∧
          ((Nat.toDigits 10 n.id).length = (Nat.toDigits 10 m.id).length →
            edgeName n.id c.id = edgeName m.id d.id → n = m ∧ c = d) ∧
          ∀ (h : Highlight) (full : Bool),
            (h.edge n.id c.id full).edges.get? (edgeName m.id d.id) =
              if edgeName m.id d.id = edgeName n.id c.id then some full
              else h.edges.get? (edgeName m.id d.id) := by
  have hstart : t.startRecording.Valid := ht.withRecording _
  obtain ⟨answer, u, frames, hop, hrecording, hgrounded⟩ := hstart.grounded_operate op
  refine ⟨answer, u, frames, hop, hrecording, ?_⟩
  have hids : ∀ p ∈ t.picture :: frames.map Frame.picture, p.ids.Nodup := by
    rw [List.forall_mem_cons, List.forall_mem_map]
    refine ⟨?_, fun f hf => (hgrounded f hf).1.nodup⟩
    rw [picture, Node.ids_picture]
    exact ht.ids_nodup
  intro p hp n hn c hc m hm d hd
  have hsame := Node.edge_eq_of_ids (hids p hp) hn hc hm hd
  refine ⟨?_, ?_, fun h full => Table.get?_insert h.edges full⟩
  · rw [edgeName_eq_iff]
    constructor
    · rintro (⟨hid, hid'⟩ | hover)
      · exact .inl (hsame hid hid')
      · exact .inr hover
    · rintro (⟨rfl, rfl⟩ | hover)
      · exact .inl ⟨rfl, rfl⟩
      · exact .inr hover
  · intro hlen hname
    obtain ⟨hid, hid'⟩ := edgeName_inj hlen hname
    exact hsame hid hid'

/-- In a tree of two levels of inner nodes the root is 1, with a child 12, and its other child 11
has a child 2. -/
theorem edges_named_two_levels :
    let t : Tree := ⟨2, .text, ⟨1, [.text "m"],
      [⟨12, [.text "c"], [⟨13, [.text "a"], []⟩, ⟨14, [.text "e"], []⟩]⟩,
        ⟨11, [.text "t"], [⟨2, [.text "p"], []⟩, ⟨3, [.text "x"], []⟩]⟩]⟩,
      ⟨14, {}⟩, none, by decide⟩
    t.Valid ∧ EdgeOverlap 1 12 11 2 ∧
    ∃ answer u frames, t.startRecording.operate (.add (.text "b")) = .ok (answer, u) ∧
      u.recording = some (t.recording.getD [] ++ frames) ∧
      ∀ p ∈ t.picture :: frames.map Frame.picture,
        ∀ n ∈ p.preorder, ∀ c ∈ n.children, ∀ m ∈ p.preorder, ∀ d ∈ m.children,
          (edgeName n.id c.id = edgeName m.id d.id ↔ n = m ∧ c = d ∨
            EdgeOverlap n.id c.id m.id d.id ∨ EdgeOverlap m.id d.id n.id c.id) ∧
          ((Nat.toDigits 10 n.id).length = (Nat.toDigits 10 m.id).length →
            edgeName n.id c.id = edgeName m.id d.id → n = m ∧ c = d) ∧
          ∀ (h : Highlight) (full : Bool),
            (h.edge n.id c.id full).edges.get? (edgeName m.id d.id) =
              if edgeName m.id d.id = edgeName n.id c.id then some full
              else h.edges.get? (edgeName m.id d.id) := by
  intro t
  have ht : t.Valid := (check_eq_ok_iff t).1 (by decide)
  exact ⟨ht, ⟨['1'], by decide, by decide, by decide⟩, ht.edges_named (.add (.text "b"))⟩

/-- Two edges of a valid tree have one name, and an insertion that goes down the first one
emphasizes the second one as well. -/
theorem exists_edges_one_name :
    ∃ t : Tree, t.Valid ∧
      ∃ n ∈ t.picture.preorder, ∃ c ∈ n.children, ∃ m ∈ t.picture.preorder, ∃ d ∈ m.children,
        n.id = 1 ∧ c.id = 12 ∧ m.id = 11 ∧ d.id = 2 ∧
        edgeName n.id c.id = edgeName m.id d.id ∧
        ∃ f ∈ t.addFrames (.text "b"), f.picture = t.picture ∧
          f.highlight.nodes.keys = [c.id] ∧
          f.highlight.edges.get? (edgeName m.id d.id) = some true := by
  let t : Tree := ⟨2, .text, ⟨1, [.text "m"],
    [⟨12, [.text "c"], [⟨13, [.text "a"], []⟩, ⟨14, [.text "e"], []⟩]⟩,
      ⟨11, [.text "t"], [⟨2, [.text "p"], []⟩, ⟨3, [.text "x"], []⟩]⟩]⟩,
    ⟨14, {}⟩, none, by decide⟩
  exact ⟨t, (check_eq_ok_iff t).1 (by decide), by decide +kernel⟩

end Tree

end TracedTree
