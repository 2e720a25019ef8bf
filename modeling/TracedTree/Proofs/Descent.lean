import TracedTree.Proofs.Insert
import TracedTree.Proofs.Valid

/-!
# The way down

A key is sent from a node into the child behind all separators that stand before the key, and from
there on into a leaf. `Node.descent` lists the nodes that it passes.

## Main definitions

* `Node.descent k n`: the nodes from `n` down to the leaf that the separators lead the key to.
-/

namespace TracedTree

namespace Node

mutual

/-- The nodes that a key is sent through, from the node itself down. -/
def descent (k : Key) : Node Key → List (Node Key)
  | ⟨id, keys, children⟩ =>
    ⟨id, keys, children⟩ :: descentAt k (childIndex ⟨id, keys, children⟩ k) children

/-- The way down from the node at a position of a list. -/
def descentAt (k : Key) : Nat → List (Node Key) → List (Node Key)
  | _, [] => []
  | 0, c :: _ => descent k c
  | i + 1, _ :: cs => descentAt k i cs

end

variable {capacity h : Nat} {k : Key} {n c : Node Key}

/-- Going along a list to a position is looking up what is there. -/
theorem eq_elim_of_steps {β : Type} {f : Nat → List (Node Key) → β} {missing : β}
    {found : Node Key → β} (hnil : ∀ i, f i [] = missing)
    (hzero : ∀ c cs, f 0 (c :: cs) = found c) (hsucc : ∀ i c cs, f (i + 1) (c :: cs) = f i cs)
    (i : Nat) (cs : List (Node Key)) :
    f i cs = cs[i]?.elim missing found := by
  induction cs generalizing i with
  | nil => exact hnil i
  | cons c cs ih =>
      cases i with
      | zero => exact hzero c cs
      | succ i => exact (hsucc i c cs).trans (ih i)

theorem descentAt_eq (k : Key) (i : Nat) (cs : List (Node Key)) :
    descentAt k i cs = cs[i]?.elim [] (descent k) :=
  eq_elim_of_steps (fun _ => rfl) (fun _ _ => rfl) (fun _ _ _ => rfl) i cs

/-- The way down goes on in the child that the separators lead to. -/
theorem descent_eq (k : Key) (n : Node Key) :
    n.descent k = n :: n.children[n.childIndex k]?.elim [] (descent k) := by
  obtain ⟨id, keys, children⟩ := n
  rw [descent, descentAt_eq]

theorem descent_leaf (k : Key) (id : Nat) (keys : List Key) :
    descent k ⟨id, keys, []⟩ = [⟨id, keys, []⟩] := by
  rw [descent_eq]
  rfl

theorem descent_opened {before after : List Key} {left right : List (Node Key)}
    (h : left.length = before.length) (hroute : Route k before after) (id : Nat) :
    descent k ⟨id, before ++ after, left ++ c :: right⟩ =
      ⟨id, before ++ after, left ++ c :: right⟩ :: c.descent k := by
  have hchild : (left ++ c :: right)[before.length]? = some c := by simp [← h]
  rw [descent_eq]
  simp only [childIndex, hroute.takeWhile_eq, hchild, Option.elim_some]

/-- The way down from a balanced node passes one node on every level. -/
theorem Balanced.length_descent (hn : n.Balanced capacity h) : (n.descent k).length = h + 1 := by
  induction h generalizing n with
  | zero =>
      obtain ⟨id, keys, children⟩ := n
      obtain rfl : children = [] := hn
      rw [descent_leaf, List.length_singleton]
  | succ h ih =>
      obtain ⟨before, after, hkeys, hroute⟩ := exists_route k n.keys
      obtain ⟨left, c, right, hn', hopen, hc⟩ := hn.opened hkeys
      rw [hn', descent_opened hopen.left_length hroute, List.length_cons, ih hc.1]

end Node

end TracedTree
