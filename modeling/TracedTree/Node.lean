/-!
# Nodes

A node has an identity, a list of keys and a list of children; it is a leaf when it has no
children. The type of keys is a parameter: a live tree holds keys, a picture of it holds their
labels. Most queries are views of two walks: `Node.preorder` lists the nodes of a tree from the
root downward, and `Node.fold` combines what the children give into what the parent gives.
-/

namespace TracedTree

/-- A node with everything below it. -/
structure Node (α : Type) where
  id : Nat
  keys : List α
  children : List (Node α)
deriving Repr

namespace Node

variable {α β : Type}

/-- A property that passes from the children of a node to the node holds of every node. -/
@[elab_as_elim, induction_eliminator]
theorem induction {P : Node α → Prop}
    (step : ∀ id keys children, (∀ c ∈ children, P c) → P ⟨id, keys, children⟩) (n : Node α) :
    P n :=
  Node.rec (motive_1 := P) (motive_2 := fun cs => ∀ c ∈ cs, P c)
    (fun id keys children ih => step id keys children ih)
    (by simp)
    (fun c cs hc hcs d hd => by
      rcases List.mem_cons.1 hd with rfl | hd
      · exact hc
      · exact hcs d hd)
    n

/-! ## Equality -/

section Equality

variable [DecidableEq α]

mutual

/-- Decide whether two nodes are equal. -/
def decEq : (m n : Node α) → Decidable (m = n)
  | ⟨i, ks, cs⟩, ⟨j, ls, ds⟩ =>
    if hi : i = j then
      if hk : ks = ls then
        match decEqAll cs ds with
        | isTrue hc => isTrue (by rw [hi, hk, hc])
        | isFalse hc => isFalse fun h => hc (by injection h)
      else isFalse fun h => hk (by injection h)
    else isFalse fun h => hi (by injection h)

/-- Decide whether two lists of nodes are equal. -/
def decEqAll : (ms ns : List (Node α)) → Decidable (ms = ns)
  | [], [] => isTrue rfl
  | [], _ :: _ => isFalse nofun
  | _ :: _, [] => isFalse nofun
  | m :: ms, n :: ns =>
    match decEq m n, decEqAll ms ns with
    | isTrue h, isTrue hs => isTrue (by rw [h, hs])
    | isFalse h, _ => isFalse fun e => h (by injection e)
    | _, isFalse hs => isFalse fun e => hs (by injection e)

end

instance : DecidableEq (Node α) := decEq

end Equality

/-! ## Walks -/

mutual

/-- Combine the results of the children of every node, from the leaves upward. -/
def fold (f : Nat → List α → List β → β) : Node α → β
  | ⟨id, keys, children⟩ => f id keys (foldAll f children)

/-- `fold` on each node of a list. -/
def foldAll (f : Nat → List α → List β → β) : List (Node α) → List β
  | [] => []
  | c :: cs => fold f c :: foldAll f cs

end

theorem foldAll_eq_map (f : Nat → List α → List β → β) (cs : List (Node α)) :
    foldAll f cs = cs.map (fold f) := by
  induction cs with
  | nil => rfl
  | cons c cs ih => simp [foldAll, ih]

theorem fold_mk (f : Nat → List α → List β → β) (id : Nat) (keys : List α)
    (children : List (Node α)) :
    fold f ⟨id, keys, children⟩ = f id keys (children.map (fold f)) := by
  rw [fold, foldAll_eq_map]

mutual

/-- The node and all below it, every node before its children. -/
def preorder : Node α → List (Node α)
  | ⟨id, keys, children⟩ => ⟨id, keys, children⟩ :: preorderAll children

/-- `preorder` on each node of a list, joined. -/
def preorderAll : List (Node α) → List (Node α)
  | [] => []
  | c :: cs => preorder c ++ preorderAll cs

end

theorem preorderAll_eq_flatMap (cs : List (Node α)) : preorderAll cs = cs.flatMap preorder := by
  induction cs with
  | nil => rfl
  | cons c cs ih => simp [preorderAll, ih]

theorem preorder_mk (id : Nat) (keys : List α) (children : List (Node α)) :
    preorder ⟨id, keys, children⟩ = ⟨id, keys, children⟩ :: children.flatMap preorder := by
  rw [preorder, preorderAll_eq_flatMap]

/-! ## Views -/

/-- The node has no children. -/
def isLeaf (n : Node α) : Bool := n.children.isEmpty

/-- The number of edges on the longest way down. -/
def height : Node α → Nat :=
  fold fun _ _ heights => ((heights.map (· + 1)).max?).getD 0

/-- What the children hold, with the separators between them. A separator without a child on
its left is left out. -/
def weave : List (List α) → List α → List α
  | [], _ => []
  | below :: rest, [] => below ++ weave rest []
  | below :: rest, k :: keys => below ++ k :: weave rest keys

/-- All keys from left to right. -/
def inorder : Node α → List α :=
  fold fun _ keys below => if below.isEmpty then keys else weave below keys

/-- The identities, every node before its children. -/
def ids (n : Node α) : List Nat := n.preorder.map Node.id

/-- The largest identity. -/
def maxId (n : Node α) : Nat := n.ids.foldl max n.id

/-- The number of nodes. -/
def nodeCount (n : Node α) : Nat := n.preorder.length

/-- The number of nodes with at least one key. -/
def holderCount (n : Node α) : Nat := n.preorder.countP (!·.keys.isEmpty)

/-- The number of keys. -/
def keyCount (n : Node α) : Nat := (n.preorder.flatMap keys).length

/-- The distances of the leaves from the root, from left to right. -/
def leafDepths : Node α → List Nat :=
  fold fun _ _ depths => if depths.isEmpty then [0] else depths.flatten.map (· + 1)

/-- The same tree with every key replaced. -/
def map (f : α → β) : Node α → Node β :=
  fold fun id keys children => ⟨id, keys.map f, children⟩

theorem map_mk (f : α → β) (id : Nat) (keys : List α) (children : List (Node α)) :
    map f ⟨id, keys, children⟩ = ⟨id, keys.map f, children.map (map f)⟩ := fold_mk ..

/-- The first node with a given identity. -/
def find? (n : Node α) (id : Nat) : Option (Node α) := n.preorder.find? (·.id == id)

mutual

/-- Change the first node with a given identity; nothing when there is none. -/
def modify? (target : Nat) (f : Node α → Node α) : Node α → Option (Node α)
  | ⟨id, keys, children⟩ =>
    if id = target then some (f ⟨id, keys, children⟩)
    else (modifyFirst? target f children).map (⟨id, keys, ·⟩)

/-- `modify?` on the first node of a list in which it succeeds. -/
def modifyFirst? (target : Nat) (f : Node α → Node α) : List (Node α) → Option (List (Node α))
  | [] => none
  | c :: cs =>
    match modify? target f c with
    | some d => some (d :: cs)
    | none => (modifyFirst? target f cs).map (c :: ·)

end

/-- Change the first node with a given identity, if there is one. -/
def modify (n : Node α) (target : Nat) (f : Node α → Node α) : Node α :=
  (modify? target f n).getD n

end Node

end TracedTree
