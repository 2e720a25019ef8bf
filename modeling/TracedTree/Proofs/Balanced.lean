import TracedTree.Proofs.Inorder

/-!
# Balanced nodes

`Node.Balanced` says everything about the shape of a subtree except how many keys its own root
holds. That number is the only thing that goes wrong while an operation is under way: a node may
hold one key too many before it is divided, or one too few before it is repaired. A node whose own
number is right as well is `Node.Filled`.

## Main definitions

* `Node.Balanced capacity h n`: all leaves stand `h` levels below `n`, every inner node has one
  more child than keys, and every node below `n` holds between half the capacity and the capacity.
* `Node.Filled capacity h n`: the same, and `n` itself is within these limits.
* `Node.Opened capacity h before after left right`: the parts of a node around one child, all other
  children being filled.
-/

namespace TracedTree

namespace Node

variable {α : Type} {capacity h : Nat}

/-- All leaves stand `h` levels below the node, inner nodes fit their children, and the nodes
below this one keep the limits of the capacity. -/
def Balanced (capacity : Nat) : Nat → Node α → Prop
  | 0, n => n.children = []
  | h + 1, n => n.children.length = n.keys.length + 1 ∧
      ∀ c ∈ n.children, Balanced capacity h c ∧ capacity / 2 ≤ c.keys.length ∧
        c.keys.length ≤ capacity

/-- A balanced node that keeps the limits of the capacity itself. -/
def Filled (capacity h : Nat) (n : Node α) : Prop :=
  n.Balanced capacity h ∧ capacity / 2 ≤ n.keys.length ∧ n.keys.length ≤ capacity

theorem balanced_zero {n : Node α} : n.Balanced capacity 0 ↔ n.children = [] := Iff.rfl

theorem balanced_succ {n : Node α} :
    n.Balanced capacity (h + 1) ↔
      n.children.length = n.keys.length + 1 ∧ ∀ c ∈ n.children, c.Filled capacity h := Iff.rfl

/-- A capacity of two leaves no filled node without keys. -/
theorem Filled.keys_ne_nil {n : Node α} (hn : n.Filled capacity h) (hcap : 2 ≤ capacity) :
    n.keys ≠ [] := by
  intro hnil
  have hlow := hn.2.1
  rw [hnil, List.length_nil] at hlow
  omega

/-- A node above others is no leaf, so what is asked of inner nodes is asked of it. -/
theorem Balanced.keys_ne_nil {n : Node α} (hn : n.Balanced capacity (h + 1))
    (hne : n.children ≠ [] → n.keys ≠ []) : n.keys ≠ [] := by
  refine hne fun hnil => ?_
  have hlen := (balanced_succ.1 hn).1
  simp [hnil] at hlen

theorem Balanced.isEmpty_eq {n : Node α} (hn : n.Balanced capacity h) :
    n.children.isEmpty = (h == 0) := by
  cases h with
  | zero => simp [balanced_zero.1 hn]
  | succ h =>
      have hlen := (balanced_succ.1 hn).1
      cases hc : n.children <;> simp [hc] at hlen ⊢

/-! ## Joining and dividing -/

section Join

variable {i j : Nat} {keys others : List α} {children more : List (Node α)}

theorem Balanced.join (hl : Balanced capacity h ⟨i, keys, children⟩)
    (hr : Balanced capacity h ⟨j, others, more⟩) (id : Nat) (k : α) :
    Balanced capacity h ⟨id, keys ++ k :: others, children ++ more⟩ := by
  cases h with
  | zero =>
      simp only [balanced_zero] at hl hr ⊢
      simp [hl, hr]
  | succ h =>
      simp only [balanced_succ] at hl hr ⊢
      refine ⟨?_, fun c hc => (List.mem_append.1 hc).elim (hl.2 c) (hr.2 c)⟩
      simp only [List.length_append, List.length_cons]
      omega

/-- The keys of two joined nodes, in one balanced node. -/
theorem Balanced.inorder_join (hl : Balanced capacity h ⟨i, keys, children⟩)
    (hr : Balanced capacity h ⟨j, others, more⟩) (id : Nat) (k : α) :
    inorder ⟨id, keys ++ k :: others, children ++ more⟩ =
      inorder ⟨i, keys, children⟩ ++ k :: inorder ⟨j, others, more⟩ := by
  apply Node.inorder_join
  cases h with
  | zero => exact .inl ⟨balanced_zero.1 hl, balanced_zero.1 hr⟩
  | succ h =>
      refine .inr ⟨(balanced_succ.1 hl).1, ?_⟩
      intro hnil
      have hlen := (balanced_succ.1 hr).1
      simp [hnil] at hlen

/-- A balanced node can be divided at a key, its children in step with its keys. -/
theorem Balanced.divide {id : Nat} {k : α}
    (hn : Balanced capacity h ⟨id, keys ++ k :: others, children ++ more⟩)
    (hc : children = (children ++ more).take (keys.length + 1)) (i j : Nat) :
    Balanced capacity h ⟨i, keys, children⟩ ∧ Balanced capacity h ⟨j, others, more⟩ := by
  cases h with
  | zero => simpa only [balanced_zero, List.append_eq_nil_iff] using hn
  | succ h =>
      simp only [balanced_succ, List.length_append, List.length_cons] at hn ⊢
      have hlen := congrArg List.length hc
      simp only [List.length_take, List.length_append] at hlen
      refine ⟨⟨by omega, ?_⟩, by omega, ?_⟩
      · intro c h
        exact hn.2 c (List.mem_append_left _ h)
      · intro c h
        exact hn.2 c (List.mem_append_right _ h)

end Join

/-! ## Opening at a child -/

/-- The parts of a node around one of its children: keys and children on both sides in equal
numbers, and all these children filled. -/
structure Opened (capacity h : Nat) (before after : List α) (left right : List (Node α)) :
    Prop where
  left_length : left.length = before.length
  right_length : right.length = after.length
  siblings : ∀ d ∈ left ++ right, d.Filled capacity h

section Opened

variable {before after : List α} {left right : List (Node α)}

/-- A node of some height can be opened between any two of its keys. -/
theorem Balanced.opened {n : Node α} (hn : n.Balanced capacity (h + 1))
    (hk : n.keys = before ++ after) :
    ∃ left c right, n = ⟨n.id, before ++ after, left ++ c :: right⟩ ∧
      Opened capacity h before after left right ∧ c.Filled capacity h := by
  obtain ⟨id, keys, children⟩ := n
  obtain rfl : keys = before ++ after := hk
  obtain ⟨hlen, hfilled⟩ := balanced_succ.1 hn
  simp only [List.length_append] at hlen hfilled
  have hbound : before.length < children.length := by omega
  have hsplit : children = children.take before.length ++
      children[before.length] :: children.drop (before.length + 1) := by
    rw [← List.drop_eq_getElem_cons hbound, List.take_append_drop]
  refine ⟨children.take before.length, children[before.length],
    children.drop (before.length + 1), ?_, ⟨?_, ?_, ?_⟩, ?_⟩
  · rw [← hsplit]
  · rw [List.length_take]
    omega
  · rw [List.length_drop]
    omega
  · rw [List.forall_mem_append]
    constructor
    · intro d hd
      exact hfilled d (List.mem_of_mem_take hd)
    · intro d hd
      exact hfilled d (List.mem_of_mem_drop hd)
  · exact hfilled _ (List.getElem_mem hbound)

/-- Opened at its last child, a node has nothing right of it. -/
theorem Balanced.opened_last {n : Node α} (hn : n.Balanced capacity (h + 1)) :
    ∃ left c, n = ⟨n.id, n.keys ++ [], left ++ [c]⟩ ∧ Opened capacity h n.keys [] left [] ∧
      c.Filled capacity h := by
  obtain ⟨left, c, right, hn', hopen, hc⟩ := hn.opened (List.append_nil n.keys).symm
  obtain rfl : right = [] := List.length_eq_zero_iff.1 hopen.right_length
  exact ⟨left, c, hn', hopen, hc⟩

theorem Opened.filled_left (ho : Opened capacity h before after left right) :
    ∀ d ∈ left, d.Filled capacity h := (List.forall_mem_append.1 ho.siblings).1

theorem Opened.filled_right (ho : Opened capacity h before after left right) :
    ∀ d ∈ right, d.Filled capacity h := (List.forall_mem_append.1 ho.siblings).2

theorem Opened.balanced (ho : Opened capacity h before after left right) {c : Node α}
    (hc : c.Filled capacity h) (id : Nat) :
    Balanced capacity (h + 1) ⟨id, before ++ after, left ++ c :: right⟩ := by
  rw [balanced_succ]
  constructor
  · simp only [List.length_append, List.length_cons, ho.left_length, ho.right_length]
    omega
  · rw [List.forall_mem_append, List.forall_mem_cons]
    exact ⟨ho.filled_left, hc, ho.filled_right⟩

/-- Where two children with a key between them take the place of the child. -/
theorem Opened.balanced_halves (ho : Opened capacity h before after left right) {c d : Node α}
    (hc : c.Filled capacity h) (hd : d.Filled capacity h) (id : Nat) (k : α) :
    Balanced capacity (h + 1) ⟨id, before ++ k :: after, left ++ c :: d :: right⟩ := by
  have hopen : Opened capacity h before (k :: after) left (d :: right) := by
    refine ⟨ho.left_length, by simp [ho.right_length], ?_⟩
    rw [List.forall_mem_append, List.forall_mem_cons]
    exact ⟨ho.filled_left, hd, ho.filled_right⟩
  exact hopen.balanced hc id

end Opened

end Node

end TracedTree
