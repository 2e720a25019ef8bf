import TracedTree.Proofs.Results
import TracedTree.Proofs.Valid

/-!
# The checker is exact

`Tree.check` finds no flaw exactly on valid trees. It compares the keys of a node with the nearest
separators only. Under these bounds a subtree is in order when its keys, with the bounds around
them, form one ascending list, and this condition splits at every separator in the way the walk
does.

## Main definitions

* `Node.Proper maxKeys kind isRoot n`: what the checker wants of one node apart from the order.
-/

namespace TracedTree

namespace Node

variable {maxKeys : Nat} {kind : Kind} {isRoot : Bool} {lower upper : Option Key} {n : Node Key}

/-- The limits and kinds that the checker wants of one node. -/
structure Proper (maxKeys : Nat) (kind : Kind) (isRoot : Bool) (n : Node Key) : Prop where
  fits : n.Fits
  root_keys : isRoot = true → n.children ≠ [] → n.keys ≠ []
  capacity : n.keys.length ≤ maxKeys
  occupancy : isRoot = false → maxKeys / 2 ≤ n.keys.length
  kinds : ∀ k ∈ n.keys, k.kind = kind

/-! ## The keys of one node -/

theorem firstFlaw_eq_ok_iff (flaws : List (Option Flaw)) :
    firstFlaw flaws = .ok () ↔ ∀ flaw ∈ flaws, flaw = none := by
  rw [firstFlaw, ← List.findSome?_eq_none_iff]
  cases flaws.findSome? fun flaw => flaw <;> simp

theorem ascending_cons_cons {a b : Key} {keys : List Key} :
    Ascending (a :: b :: keys) ↔ a.le b ∧ Ascending (b :: keys) := by
  have hsplit := @ascending_append_cons b [a] keys
  simpa [Ascending] using hsplit

theorem hasDescent_eq_false_iff (keys : List Key) :
    hasDescent keys = false ↔ Ascending keys := by
  induction keys with
  | nil => simp [hasDescent, Ascending]
  | cons a keys ih =>
      cases keys with
      | nil => simp [hasDescent, Ascending]
      | cons b keys =>
          rw [ascending_cons_cons, ← ih, ← Key.not_lt_iff_le]
          simp [hasDescent]

/-- A list between two bounds, where the bounds are in order themselves. -/
theorem ascending_between_iff (hbounds : Ascending (lower.toList ++ upper.toList))
    (keys : List Key) :
    Ascending (lower.toList ++ keys ++ upper.toList) ↔
      Ascending keys ∧ (∀ b ∈ lower, ∀ k ∈ keys.head?, b.le k) ∧
        ∀ b ∈ upper, ∀ k ∈ keys.getLast?, k.le b := by
  by_cases hnil : keys = []
  · subst hnil
    simpa [Ascending] using hbounds
  have hupper : Ascending (keys ++ upper.toList) ↔
      Ascending keys ∧ ∀ b ∈ upper, ∀ k ∈ keys.getLast?, k.le b := by
    obtain ⟨init, y, rfl⟩ : ∃ init y, keys = init ++ [y] :=
      ⟨_, _, (List.dropLast_concat_getLast hnil).symm⟩
    cases upper with
    | none => simp
    | some b =>
        rw [List.append_assoc, List.singleton_append, ascending_append_cons]
        simp [Ascending]
  obtain ⟨x, rest, rfl⟩ := List.exists_cons_of_ne_nil hnil
  rw [List.append_assoc, List.cons_append, ascending_append_cons, ← List.cons_append, hupper]
  have hhead : Ascending (lower.toList ++ [x]) ↔ ∀ b ∈ lower, ∀ k ∈ (x :: rest).head?, b.le k := by
    cases lower <;> simp [Ascending]
  rw [hhead]
  exact ⟨fun h => ⟨h.2.1, h.1, h.2.2⟩, fun h => ⟨h.2.1, h.1, h.2.2⟩⟩

/-- The keys of a node pass when they are in order between the bounds and keep the limits. -/
theorem checkKeys_eq_ok_iff (hbounds : Ascending (lower.toList ++ upper.toList)) (id : Nat)
    (keys : List Key) :
    checkKeys maxKeys kind id keys lower upper isRoot = .ok () ↔
      Ascending (lower.toList ++ keys ++ upper.toList) ∧ keys.length ≤ maxKeys ∧
        (isRoot = false → maxKeys / 2 ≤ keys.length) ∧ ∀ k ∈ keys, k.kind = kind := by
  rw [checkKeys, firstFlaw_eq_ok_iff, ascending_between_iff hbounds]
  simp only [List.mem_cons, List.not_mem_nil, or_false, forall_eq_or_imp, forall_eq]
  have hdescent : (if hasDescent keys then some (Flaw.unsortedKeys id) else none) = none ↔
      Ascending keys := by
    rw [← hasDescent_eq_false_iff]
    simp
  have hbelow : (do
      let bound ← lower
      let key ← keys.head?
      if key.lt bound then some (Flaw.belowBound id key bound) else none) = none ↔
        ∀ b ∈ lower, ∀ k ∈ keys.head?, b.le k := by
    cases lower <;> cases keys.head? <;> simp [← Key.not_lt_iff_le]
  have habove : (do
      let bound ← upper
      let key ← keys.getLast?
      if bound.lt key then some (Flaw.aboveBound id key bound) else none) = none ↔
        ∀ b ∈ upper, ∀ k ∈ keys.getLast?, k.le b := by
    cases upper <;> cases keys.getLast? <;> simp [← Key.not_lt_iff_le]
  have hkinds : (keys.find? (·.kind != kind)).map (Flaw.wrongKind id) = none ↔
      ∀ k ∈ keys, k.kind = kind := by
    simp
  have hcapacity : (if maxKeys < keys.length then some (Flaw.overfull id keys.length maxKeys)
      else none) = none ↔ keys.length ≤ maxKeys := by
    simp
  have hoccupancy : (if !isRoot && keys.length < maxKeys / 2 then
      some (Flaw.underfull id keys.length (maxKeys / 2)) else none) = none ↔
        (isRoot = false → maxKeys / 2 ≤ keys.length) := by
    cases isRoot <;> simp
  rw [hdescent, hcapacity, hoccupancy, hbelow, habove, hkinds]
  constructor
  · rintro ⟨hasc, hcap, hocc, hlow, hhigh, hkind⟩
    exact ⟨⟨hasc, hlow, hhigh⟩, hcap, hocc, hkind⟩
  · rintro ⟨⟨hasc, hlow, hhigh⟩, hcap, hocc, hkind⟩
    exact ⟨hasc, hcap, hocc, hlow, hhigh, hkind⟩

theorem checkChildren_eq_ok_iff (id held children : Nat) :
    checkChildren id held children isRoot = .ok () ↔
      children = held + 1 ∧ (isRoot = true → held ≠ 0) := by
  rw [checkChildren, firstFlaw_eq_ok_iff, eq_comm (a := children)]
  cases isRoot <;> simp

/-! ## The walk over all nodes -/

/-- What the checker finds about a node, given what it finds about the nodes below it. -/
def CheckedAs (maxKeys : Nat) (kind : Kind) (isRoot : Bool) (n : Node Key) : Prop :=
  ∀ lower upper : Option Key, Ascending (lower.toList ++ upper.toList) →
    (n.check maxKeys kind lower upper isRoot = .ok () ↔
      n.Proper maxKeys kind isRoot ∧
      (∀ m ∈ n.children.flatMap preorder, m.Proper maxKeys kind false) ∧
      Ascending (lower.toList ++ n.inorder ++ upper.toList))

/-- The children of a node, each between its separators. -/
theorem checkAll_eq_ok_iff {children : List (Node Key)} {keys : List Key}
    (hlen : children.length = keys.length + 1)
    (hchildren : ∀ c ∈ children, c.CheckedAs maxKeys kind false)
    (hkeys : Ascending (lower.toList ++ keys ++ upper.toList)) :
    checkAll maxKeys kind lower upper keys children = .ok () ↔
      (∀ m ∈ children.flatMap preorder, m.Proper maxKeys kind false) ∧
      Ascending (lower.toList ++ weave (children.map inorder) keys ++ upper.toList) := by
  have hpreorder : ∀ c : Node Key, (∀ m ∈ c.preorder, m.Proper maxKeys kind false) ↔
      c.Proper maxKeys kind false ∧
        ∀ m ∈ c.children.flatMap preorder, m.Proper maxKeys kind false := by
    intro c
    rw [preorder_eq, List.forall_mem_cons]
  induction children generalizing keys lower with
  | nil => simp at hlen
  | cons c children ih =>
      simp only [List.flatMap_cons, List.mem_append, or_imp, forall_and, hpreorder c]
      cases keys with
      | nil =>
          obtain rfl : children = [] := List.length_eq_zero_iff.1 (Nat.succ.inj hlen)
          rw [List.append_nil] at hkeys
          rw [checkAll, checks_eq_ok_iff, hchildren c List.mem_cons_self lower upper hkeys]
          simp [checkAll, and_assoc]
      | cons k keys =>
          rw [List.append_assoc, List.cons_append, ascending_append_cons] at hkeys
          have hrest : checkAll maxKeys kind (some k) upper keys children = .ok () ↔
              (∀ m ∈ children.flatMap preorder, m.Proper maxKeys kind false) ∧
                Ascending (k :: weave (children.map inorder) keys ++ upper.toList) :=
            ih (Nat.succ.inj hlen) (fun d hd => hchildren d (List.mem_cons_of_mem c hd)) hkeys.2
          rw [checkAll, checks_eq_ok_iff, hchildren c List.mem_cons_self lower (some k) hkeys.1,
            hrest]
          have hsplit : Ascending (lower.toList ++
              (c.inorder ++ k :: weave (children.map inorder) keys) ++ upper.toList) ↔
                Ascending (lower.toList ++ c.inorder ++ [k]) ∧
                  Ascending (k :: weave (children.map inorder) keys ++ upper.toList) := by
            rw [← List.append_assoc, List.append_assoc, List.cons_append, ascending_append_cons]
          rw [List.map_cons, weave_cons_cons, hsplit]
          exact ⟨fun h => ⟨⟨⟨h.1.1, h.1.2.1⟩, h.2.1⟩, h.1.2.2, h.2.2⟩,
            fun h => ⟨⟨h.1.1.1, h.1.1.2, h.2.1⟩, h.1.2, h.2.2⟩⟩

/-- **The walk is exact.** Between two bounds that are in order, it passes exactly the nodes that
are proper, with everything below them, and whose keys are in order between the bounds. -/
theorem checkedAs (n : Node Key) (isRoot : Bool) : n.CheckedAs maxKeys kind isRoot := by
  induction n generalizing isRoot with
  | step id keys children ih =>
      intro lower upper hbounds
      rw [check, checks_eq_ok_iff, checkKeys_eq_ok_iff hbounds]
      by_cases hnil : children = []
      · subst hnil
        simp only [List.isEmpty_nil, if_true, inorder_leaf, List.flatMap_nil]
        constructor
        · rintro ⟨⟨hasc, hcap, hocc, hkinds⟩, -⟩
          exact ⟨⟨.inl rfl, by simp, hcap, hocc, hkinds⟩, by simp, hasc⟩
        · rintro ⟨hproper, -, hasc⟩
          exact ⟨⟨hasc, hproper.capacity, hproper.occupancy, hproper.kinds⟩, rfl⟩
      · have hempty : children.isEmpty = false := List.isEmpty_eq_false_iff.2 hnil
        simp only [hempty, Bool.false_eq_true, if_false]
        rw [checks_eq_ok_iff, checkChildren_eq_ok_iff, inorder_inner hnil]
        constructor
        · rintro ⟨⟨hasc, hcap, hocc, hkinds⟩, ⟨hlen, hroot⟩, hall⟩
          have hwalk := checkAll_eq_ok_iff hlen (fun c hc => ih c hc false) hasc
          obtain ⟨hbelow, hweave⟩ := hwalk.1 hall
          refine ⟨⟨.inr hlen, ?_, hcap, hocc, hkinds⟩, hbelow, hweave⟩
          intro h _
          exact List.ne_nil_of_length_pos (Nat.pos_of_ne_zero (hroot h))
        · rintro ⟨hproper, hbelow, hweave⟩
          have hlen : children.length = keys.length + 1 := hproper.fits.resolve_left hnil
          have hsub : keys.Sublist (weave (children.map inorder) keys) := by
            refine keys_sublist_weave ?_
            rw [List.length_map]
            omega
          have hasc : Ascending (lower.toList ++ keys ++ upper.toList) :=
            hweave.sublist ((hsub.append_left _).append_right _)
          refine ⟨⟨hasc, hproper.capacity, hproper.occupancy, hproper.kinds⟩, ⟨hlen, ?_⟩,
            (checkAll_eq_ok_iff hlen (fun c hc => ih c hc false) hasc).2 ⟨hbelow, hweave⟩⟩
          intro h hzero
          exact hproper.root_keys h hnil (List.length_eq_zero_iff.1 hzero)

/-! ## Depths and identities -/

theorem checkDepths_eq_ok_iff (n : Node Key) :
    n.checkDepths = .ok () ↔ ∀ d ∈ n.leafDepths, ∀ e ∈ n.leafDepths, d = e := by
  have hne := leafDepths_ne_nil n
  obtain ⟨least, hmin⟩ := Option.ne_none_iff_exists'.1 fun h => hne (List.min?_eq_none_iff.1 h)
  obtain ⟨greatest, hmax⟩ := Option.ne_none_iff_exists'.1 fun h => hne (List.max?_eq_none_iff.1 h)
  obtain ⟨hleast, hle⟩ := List.min?_eq_some_iff.1 hmin
  obtain ⟨hgreatest, hge⟩ := List.max?_eq_some_iff.1 hmax
  have hcheck : n.checkDepths = .ok () ↔ least = greatest := by
    simp [checkDepths, hmin, hmax]
  rw [hcheck]
  constructor
  · rintro rfl d hd e he
    have := hle d hd
    have := hge d hd
    have := hle e he
    have := hge e he
    omega
  · intro h
    exact h least hleast greatest hgreatest

theorem firstRepeat_eq_none_iff (seen ids : List Nat) :
    firstRepeat seen ids = none ↔ ids.Nodup ∧ ∀ id ∈ ids, id ∉ seen := by
  induction ids generalizing seen with
  | nil => simp [firstRepeat]
  | cons id ids ih =>
      by_cases hseen : id ∈ seen
      · simp [firstRepeat, hseen]
      · simp only [firstRepeat, List.contains_iff_mem, hseen, if_false, ih, List.mem_cons, not_or,
          List.nodup_cons, forall_eq_or_imp, not_false_eq_true, true_and]
        constructor
        · rintro ⟨hnodup, hids⟩
          exact ⟨⟨fun h => (hids id h).1 rfl, hnodup⟩, fun i hi => (hids i hi).2⟩
        · rintro ⟨⟨hid, hnodup⟩, hids⟩
          exact ⟨hnodup, fun i hi => ⟨fun h => hid (h ▸ hi), hids i hi⟩⟩

theorem checkIds_eq_ok_iff (n : Node Key) : n.checkIds = .ok () ↔ n.ids.Nodup := by
  have hrepeat := firstRepeat_eq_none_iff [] n.ids
  rw [checkIds]
  cases h : firstRepeat [] n.ids <;> simpa [h] using hrepeat

theorem foldl_max_le_iff (ids : List Nat) (i b : Nat) :
    ids.foldl max i ≤ b ↔ i ≤ b ∧ ∀ id ∈ ids, id ≤ b := by
  induction ids generalizing i with
  | nil => simp
  | cons id ids ih =>
      rw [List.foldl_cons, ih, Nat.max_le, List.forall_mem_cons, and_assoc]

theorem maxId_le_iff (n : Node Key) (b : Nat) : n.maxId ≤ b ↔ ∀ id ∈ n.ids, id ≤ b := by
  obtain ⟨id, keys, children⟩ := n
  rw [maxId, foldl_max_le_iff, ids_mk]
  simp

end Node

namespace Tree

open Node

/-- **The checker is exact.** It finds no flaw exactly on valid trees. -/
theorem check_eq_ok_iff (t : Tree) : t.check = .ok () ↔ t.Valid := by
  have hbounds : Ascending ((none : Option Key).toList ++ (none : Option Key).toList) :=
    List.Pairwise.nil
  have hlast : (if t.ledger.lastId < t.root.maxId then
      (throw (.staleLastId t.ledger.lastId t.root.maxId) : Except Flaw Unit)
      else pure ()) = .ok () ↔ ∀ id ∈ t.root.ids, id ≤ t.ledger.lastId := by
    rw [← maxId_le_iff, ← Nat.not_lt]
    by_cases h : t.ledger.lastId < t.root.maxId <;>
      simp [h]
  rw [check, checks_eq_ok_iff, checks_eq_ok_iff, checks_eq_ok_iff,
    checkedAs t.root true none none hbounds, checkDepths_eq_ok_iff, checkIds_eq_ok_iff, hlast]
  simp only [Option.toList_none, List.nil_append, List.append_nil]
  constructor
  · rintro ⟨⟨hroot, hbelow, hasc⟩, hlevel, hnodup, hle⟩
    have hall : ∀ m ∈ t.root.preorder, m = t.root ∨ m.Proper t.maxKeys t.kind false := by
      intro m hm
      rw [preorder_eq] at hm
      exact (List.mem_cons.1 hm).imp id (hbelow m)
    refine ⟨fun m hm => ?_, hroot.root_keys rfl, fun m hm => ?_, fun m hm => ?_, fun m hm => ?_,
      hasc, hlevel, hnodup, hle⟩
    · rcases hall m hm with rfl | h
      · exact hroot.fits
      · exact h.fits
    · rcases hall m hm with rfl | h
      · exact hroot.capacity
      · exact h.capacity
    · exact (hbelow m hm).occupancy rfl
    · rcases hall m hm with rfl | h
      · exact hroot.kinds
      · exact h.kinds
  · intro ht
    refine ⟨⟨⟨ht.fits _ (mem_preorder_self _), fun _ => ht.root_keys,
      ht.capacity _ (mem_preorder_self _), by simp, ht.kinds _ (mem_preorder_self _)⟩, ?_,
      ht.ascending⟩, ht.level, ht.ids_nodup, ht.ids_le⟩
    intro m hm
    have hmem : m ∈ t.root.preorder := by
      rw [preorder_eq]
      exact List.mem_cons_of_mem _ hm
    exact ⟨ht.fits m hmem, by simp, ht.capacity m hmem, fun _ => ht.occupancy m hm,
      ht.kinds m hmem⟩

end Tree

end TracedTree
