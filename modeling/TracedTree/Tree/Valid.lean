import TracedTree.Tree

/-!
# Valid trees

`Tree.Valid` says what a tree built by its operations satisfies: the shape, the occupancy and the
order of a search tree of its capacity, keys of one kind, and identities that are accounted for.
`Tree.check` looks for the first flaw in one walk over the nodes, which compares keys only within
a node and with the nearest separators, and two passes over depths and identities.
-/

namespace TracedTree

/-- A node fits its children: it has none, or one more than keys. -/
def Node.Fits {α : Type} (n : Node α) : Prop :=
  n.children = [] ∨ n.children.length = n.keys.length + 1

/-- The tree is a search tree of its capacity and kind with identities from its ledger. -/
structure Tree.Valid (t : Tree) : Prop where
  fits : ∀ n ∈ t.root.preorder, n.Fits
  root_keys : t.root.children ≠ [] → t.root.keys ≠ []
  capacity : ∀ n ∈ t.root.preorder, n.keys.length ≤ t.maxKeys
  occupancy : ∀ n ∈ t.root.children.flatMap Node.preorder, t.minKeys ≤ n.keys.length
  kinds : ∀ n ∈ t.root.preorder, ∀ k ∈ n.keys, k.kind = t.kind
  ascending : t.keys.Pairwise fun a b => a.le b
  level : ∀ d ∈ t.root.leafDepths, ∀ e ∈ t.root.leafDepths, d = e
  ids_nodup : t.root.ids.Nodup
  ids_le : ∀ id ∈ t.root.ids, id ≤ t.ledger.lastId

namespace Node

/-- Two neighbouring keys of a list stand in the wrong order. -/
def hasDescent : List Key → Bool
  | a :: b :: rest => b.lt a || hasDescent (b :: rest)
  | _ => false

/-- The first of some flaws that applies. -/
def firstFlaw (flaws : List (Option Flaw)) : Except Flaw Unit :=
  (flaws.findSome? fun flaw => flaw).elim (.ok ()) .error

/-- Check the keys of one node between two bounds, which the keys may equal. -/
def checkKeys (maxKeys : Nat) (kind : Kind) (id : Nat) (keys : List Key)
    (lower upper : Option Key) (isRoot : Bool) : Except Flaw Unit :=
  let held := keys.length
  let below := do
    let bound ← lower
    let key ← keys.head?
    if key.lt bound then some (Flaw.belowBound id key bound) else none
  let above := do
    let bound ← upper
    let key ← keys.getLast?
    if bound.lt key then some (Flaw.aboveBound id key bound) else none
  firstFlaw [
    if hasDescent keys then some (.unsortedKeys id) else none,
    if maxKeys < held then some (.overfull id held maxKeys) else none,
    if !isRoot && held < maxKeys / 2 then some (.underfull id held (maxKeys / 2)) else none,
    below,
    above,
    (keys.find? (·.kind != kind)).map (.wrongKind id)]

/-- Check that an inner node fits its children. -/
def checkChildren (id held children : Nat) (isRoot : Bool) : Except Flaw Unit :=
  firstFlaw [
    if held + 1 ≠ children then some (.childMismatch id held children) else none,
    if isRoot && held == 0 then some (.emptyInnerRoot id) else none]

mutual

/-- Check a node and all below it between two bounds. -/
def check (maxKeys : Nat) (kind : Kind) (lower upper : Option Key) (isRoot : Bool) :
    Node Key → Except Flaw Unit
  | ⟨id, keys, children⟩ => do
    checkKeys maxKeys kind id keys lower upper isRoot
    if children.isEmpty then return ()
    checkChildren id keys.length children.length isRoot
    checkAll maxKeys kind lower upper keys children

/-- Check children, each between the separators beside it. -/
def checkAll (maxKeys : Nat) (kind : Kind) (lower upper : Option Key) :
    List Key → List (Node Key) → Except Flaw Unit
  | _, [] => return ()
  | [], c :: cs => do
    check maxKeys kind lower upper false c
    checkAll maxKeys kind upper upper [] cs
  | k :: keys, c :: cs => do
    check maxKeys kind lower (some k) false c
    checkAll maxKeys kind (some k) upper keys cs

end

/-- Check that all leaves have one depth. -/
def checkDepths (n : Node Key) : Except Flaw Unit :=
  match n.leafDepths.min?, n.leafDepths.max? with
  | some least, some greatest =>
    if least ≠ greatest then .error (.unevenLeaves least greatest) else .ok ()
  | _, _ => .ok ()

/-- The first element of a list that occurs before. -/
def firstRepeat (seen : List Nat) : List Nat → Option Nat
  | [] => none
  | x :: xs => if seen.contains x then some x else firstRepeat (x :: seen) xs

/-- Check that no identity occurs twice. -/
def checkIds (n : Node Key) : Except Flaw Unit :=
  (firstRepeat [] n.ids).elim (.ok ()) (.error <| .repeatedId ·)

end Node

namespace Tree

/-- Look for the first flaw of a tree. -/
def check (t : Tree) : Except Flaw Unit := do
  t.root.check t.maxKeys t.kind none none true
  t.root.checkDepths
  t.root.checkIds
  if t.ledger.lastId < t.root.maxId then throw (.staleLastId t.ledger.lastId t.root.maxId)

/-- The first flaw of a tree, if it has one. -/
def flaw? (t : Tree) : Option Flaw :=
  match t.check with
  | .ok () => none
  | .error flaw => some flaw

end Tree

end TracedTree
