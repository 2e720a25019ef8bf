import TracedTree.Proofs.Balanced
import TracedTree.Proofs.KeyOrder

/-!
# Insertion below a node

An insertion never fails on a balanced node. What comes out keeps the shape, has the key put in
its place, and has exactly the new identities that the ledger handed out. The three statements
are inductions along the same descent, which `insert_induction` states once: a leaf, an inner node
whose child stays whole, and an inner node whose child is divided.

## Main definitions

* `Growth.Filled`: a grown node keeps the limits of the capacity, in one part or in two.
* `Growth.inorder`, `Growth.ids`: the keys and the identities of what has grown.
* `HandedOut s ledger l ids more`: the ledger has handed out `s` identities, which came to `ids`.
-/

namespace TracedTree

namespace Growth

/-- What has grown keeps the limits: a whole node has not lost keys, and halves are filled. -/
def Filled (capacity h held : Nat) : Growth → Prop
  | whole n => n.Balanced capacity h ∧ held ≤ n.keys.length ∧ n.keys.length ≤ capacity
  | halves left _ right => left.Filled capacity h ∧ right.Filled capacity h

/-- The keys from left to right. -/
def inorder : Growth → List Key
  | whole n => n.inorder
  | halves left median right => left.inorder ++ median :: right.inorder

/-- The identities, of the left half first. -/
def ids : Growth → List Nat
  | whole n => n.ids
  | halves left _ right => left.ids ++ right.ids

end Growth

/-- A ledger has handed out some identities one after the other, and they came to others. -/
structure HandedOut (s : Nat) (ledger l : Ledger) (ids more : List Nat) : Prop where
  perm : more.Perm (ids ++ List.range' ledger.freshId s)
  lastId_eq : l.lastId = ledger.lastId + s

namespace HandedOut

variable {s s' : Nat} {ledger l l' : Ledger} {ids more more' : List Nat}

theorem refl (ledger : Ledger) (ids : List Nat) : HandedOut 0 ledger ledger ids ids :=
  ⟨by simp, rfl⟩

theorem trans (h : HandedOut s ledger l ids more) (h' : HandedOut s' l l' more more') :
    HandedOut (s + s') ledger l' ids more' := by
  have hfresh : l.freshId = ledger.freshId + s := by
    simp only [Ledger.freshId, h.lastId_eq]
    omega
  constructor
  · have hlater := h'.perm
    rw [hfresh] at hlater
    rw [← List.range'_append_1, ← List.append_assoc]
    exact hlater.trans (h.perm.append_right _)
  · rw [h'.lastId_eq, h.lastId_eq, Nat.add_assoc]

/-- What comes to a part comes to the whole. -/
theorem within (h : HandedOut s ledger l ids more) (left right : List Nat) :
    HandedOut s ledger l (left ++ ids ++ right) (left ++ more ++ right) :=
  ⟨Node.perm_around h.perm left right, h.lastId_eq⟩

/-- Identities that were handed out are new. -/
theorem nodup (h : HandedOut s ledger l ids more) (hids : ids.Nodup)
    (hle : ∀ id ∈ ids, id ≤ ledger.lastId) : more.Nodup ∧ ∀ id ∈ more, id ≤ l.lastId := by
  have hnew : ∀ id ∈ List.range' ledger.freshId s, ledger.lastId < id ∧ id ≤ l.lastId := by
    intro id hid
    have hbounds := List.mem_range'_1.1 hid
    have hlast := h.lastId_eq
    simp only [Ledger.freshId] at hbounds
    omega
  constructor
  · rw [h.perm.nodup_iff, List.nodup_append]
    refine ⟨hids, List.nodup_range', ?_⟩
    intro a ha b hb hab
    have := hle a ha
    have := (hnew b hb).1
    omega
  · intro id hid
    rcases List.mem_append.1 (h.perm.mem_iff.1 hid) with hid | hid
    · have := hle id hid
      have := h.lastId_eq
      omega
    · exact (hnew id hid).2

end HandedOut

namespace Node

variable {capacity h : Nat} {k : Key} {ledger : Ledger}

/-! ## One step -/

/-- A node with at most one key too many stays as it is, or is divided around its middle key into
halves that hold the least number of keys. -/
theorem settle_cases {n : Node Key} (hlen : n.keys.length ≤ capacity + 1) (ledger : Ledger) :
    n.keys.length ≤ capacity ∧ n.settle capacity ledger = (.whole n, ledger) ∨
    ∃ keys median others children more,
      n = ⟨n.id, keys ++ median :: others, children ++ more⟩ ∧
      keys.length = (capacity + 1) / 2 ∧ others.length = capacity / 2 ∧
      children = (children ++ more).take (keys.length + 1) ∧
      n.settle capacity ledger = (.halves ⟨n.id, keys, children⟩ median
        ⟨ledger.freshId, others, more⟩, ledger.split) := by
  obtain ⟨id, keys, children⟩ := n
  by_cases hfull : keys.length ≤ capacity
  · exact .inl ⟨hfull, by simp [settle, hfull]⟩
  · have hkeys : keys.length = capacity + 1 := by
      have := hlen
      simp only at this
      omega
    have hmid : keys.length / 2 < keys.length := by omega
    refine .inr ⟨keys.take (keys.length / 2), keys[keys.length / 2],
      keys.drop (keys.length / 2 + 1), children.take (keys.length / 2 + 1),
      children.drop (keys.length / 2 + 1), ?_, ?_, ?_, ?_, ?_⟩
    · rw [← List.drop_eq_getElem_cons hmid, List.take_append_drop, List.take_append_drop]
    · rw [List.length_take]
      omega
    · rw [List.length_drop]
      omega
    · rw [List.take_append_drop, List.length_take, Nat.min_eq_left (Nat.le_of_lt hmid)]
    · simp only [settle, hfull, if_false, divide, middle]
      rw [List.drop_eq_getElem_cons hmid]

theorem filled_settle {n : Node Key} {held : Nat} (hn : n.Balanced capacity h)
    (hheld : held ≤ n.keys.length) (hlen : n.keys.length ≤ capacity + 1) (hcap : 0 < capacity) :
    (n.settle capacity ledger).1.Filled capacity h held := by
  rcases settle_cases hlen ledger with ⟨hfull, heq⟩ | ⟨ks, m, os, cs, ds, hn', hks, hos, hcs, heq⟩
  · rw [heq]
    exact ⟨hn, hheld, hfull⟩
  · rw [hn'] at hn
    obtain ⟨hleft, hright⟩ := hn.divide hcs n.id ledger.freshId
    rw [heq]
    refine ⟨⟨hleft, ?_, ?_⟩, hright, ?_, ?_⟩ <;> simp only <;> omega

theorem inorder_settle {n : Node Key} (hn : n.Balanced capacity h)
    (hlen : n.keys.length ≤ capacity + 1) :
    (n.settle capacity ledger).1.inorder = n.inorder := by
  rcases settle_cases hlen ledger with ⟨-, heq⟩ | ⟨ks, m, os, cs, ds, hn', -, -, hcs, heq⟩
  · rw [heq]
    rfl
  · rw [hn'] at hn
    obtain ⟨hleft, hright⟩ := hn.divide hcs n.id ledger.freshId
    rw [heq, hn']
    exact (hleft.inorder_join hright n.id m).symm

/-- A division hands out one identity, that of the right half. -/
theorem ids_settle {n : Node Key} (hlen : n.keys.length ≤ capacity + 1) (ledger : Ledger) :
    ∃ s, HandedOut s ledger (n.settle capacity ledger).2 n.ids
        (n.settle capacity ledger).1.ids ∧
      (n.settle capacity ledger).2.counters =
        { ledger.counters with splits := ledger.counters.splits + s } := by
  rcases settle_cases hlen ledger with ⟨-, heq⟩ | ⟨ks, m, os, cs, ds, hn', -, -, -, heq⟩
  · rw [heq]
    exact ⟨0, .refl ledger n.ids, rfl⟩
  · rw [heq]
    refine ⟨1, ⟨?_, rfl⟩, rfl⟩
    rw [hn']
    simp only [Growth.ids, ids_mk, List.flatMap_append, List.range'_one, List.cons_append]
    refine List.Perm.cons _ ?_
    rw [List.append_assoc]
    refine List.Perm.append_left _ ?_
    exact (List.perm_append_singleton ledger.freshId (ds.flatMap ids)).symm

theorem length_withKey (n : Node Key) : (n.withKey k).keys.length = n.keys.length + 1 := by
  have happ := congrArg List.length
    (List.takeWhile_append_dropWhile (p := (·.le k)) (l := n.keys))
  simp only [withKey, List.length_append, List.length_cons] at happ ⊢
  omega

theorem ids_withKey (n : Node Key) (k : Key) : (n.withKey k).ids = n.ids := ids_with_keys n _

/-- The key in its slot of a leaf. -/
theorem inserted_withKey (id : Nat) {keys : List Key} (hk : Ascending keys) :
    Inserted k keys (withKey ⟨id, keys, []⟩ k).keys := by
  refine ⟨keys.takeWhile (·.le k), keys.dropWhile (·.le k),
    List.takeWhile_append_dropWhile.symm, rfl, ?_, ?_⟩
  · intro a ha
    exact List.all_eq_true.1 List.all_takeWhile a ha
  · refine le_of_mem_dropWhile hk fun b hb => Key.le_of_lt (Key.lt_iff_not_le.2 ?_)
    simp [hb]

/-! ## The descent -/

section Descent

variable {before after : List Key} {left right : List (Node Key)}

theorem insertAt_append (left : List (Node Key)) (c : Node Key) (right : List (Node Key)) :
    insertAt capacity k ledger left.length (left ++ c :: right) =
      insert capacity k ledger c := by
  induction left with
  | nil => rfl
  | cons d left ih => exact ih

theorem withChild_append {α : Type} {left : List (Node α)} {i : Nat} (h : left.length = i)
    (right : List (Node α)) (id : Nat) (keys : List α) (c d : Node α) :
    withChild ⟨id, keys, left ++ c :: right⟩ i d = ⟨id, keys, left ++ d :: right⟩ := by
  subst h
  simp [withChild]

theorem withHalves_append (h : left.length = before.length) (id : Nat) (c l : Node Key)
    (m : Key) (r : Node Key) :
    withHalves ⟨id, before ++ after, left ++ c :: right⟩ before.length l m r =
      ⟨id, before ++ m :: after, left ++ l :: r :: right⟩ := by
  simp [withHalves, ← h, List.drop_append]

/-- An inner node sends a key into the child behind all separators that stand before the key. -/
theorem insert_opened (h : left.length = before.length)
    (hindex : (before ++ after).takeWhile (·.lt k) = before) (id : Nat) (c : Node Key) :
    insert capacity k ledger ⟨id, before ++ after, left ++ c :: right⟩ =
      (insert capacity k ledger c).map
        (receive ⟨id, before ++ after, left ++ c :: right⟩ capacity before.length) := by
  have hi : childIndex ⟨id, before ++ after, left ++ c :: right⟩ k = before.length := by
    simp only [childIndex, hindex]
  have hne : (left ++ c :: right).isEmpty = false := by simp
  rw [insert]
  simp only [hi, hne, Bool.false_eq_true, if_false]
  rw [← h, insertAt_append]

end Descent

/-- What is known about the separators on both sides of the child that a key is sent into. -/
structure Route (k : Key) (before after : List Key) : Prop where
  takeWhile_eq : (before ++ after).takeWhile (·.lt k) = before
  dropWhile_eq : (before ++ after).dropWhile (·.lt k) = after

theorem exists_route (k : Key) (keys : List Key) :
    ∃ before after, keys = before ++ after ∧ Route k before after := by
  have happ : keys.takeWhile (·.lt k) ++ keys.dropWhile (·.lt k) = keys :=
    List.takeWhile_append_dropWhile
  exact ⟨keys.takeWhile (·.lt k), keys.dropWhile (·.lt k), happ.symm, ⟨by rw [happ], by rw [happ]⟩⟩

/-- **Induction along an insertion.** A property that a leaf has with the key in it, and that
passes from the child that the key is sent into to its parent, holds of every insertion below a
balanced node; and such an insertion succeeds. -/
theorem insert_induction (ledger : Ledger) {P : Nat → Node Key → Growth × Ledger → Prop}
    (leaf : ∀ id keys, (withKey ⟨id, keys, []⟩ k).keys.length ≤ capacity + 1 →
      P 0 ⟨id, keys, []⟩ ((withKey ⟨id, keys, []⟩ k).settle capacity ledger))
    (whole : ∀ {h id before after left right c d l}, Opened capacity h before after left right →
      c.Filled capacity h → Route k before after →
      (Growth.whole d).Filled capacity h c.keys.length → P h c (.whole d, l) →
      P (h + 1) ⟨id, before ++ after, left ++ c :: right⟩
        (.whole ⟨id, before ++ after, left ++ d :: right⟩, l))
    (halves : ∀ {h id before after left right c d m e l},
      Opened capacity h before after left right → c.Filled capacity h → Route k before after →
      (before ++ m :: after).length ≤ capacity + 1 →
      d.Filled capacity h → e.Filled capacity h →
      P h c (.halves d m e, l) →
      P (h + 1) ⟨id, before ++ after, left ++ c :: right⟩
        (settle ⟨id, before ++ m :: after, left ++ d :: e :: right⟩ capacity l))
    (hcap : 0 < capacity) {h : Nat} {n : Node Key} (hn : n.Balanced capacity h)
    (hlen : n.keys.length ≤ capacity) :
    ∃ g, n.insert capacity k ledger = .ok g ∧ g.1.Filled capacity h n.keys.length ∧ P h n g := by
  induction h generalizing n with
  | zero =>
      obtain ⟨id, keys, children⟩ := n
      obtain rfl : children = [] := hn
      have hwith : (withKey ⟨id, keys, []⟩ k).keys.length ≤ capacity + 1 := by
        rw [length_withKey]
        exact Nat.succ_le_succ hlen
      refine ⟨_, by rw [insert]; rfl, ?_, leaf id keys hwith⟩
      refine filled_settle rfl ?_ hwith hcap
      rw [length_withKey]
      exact Nat.le_succ _
  | succ h ih =>
      obtain ⟨before, after, hkeys, hroute⟩ := exists_route k n.keys
      obtain ⟨left, c, right, hn', hopen, hc⟩ := hn.opened hkeys
      rw [hkeys] at hlen
      obtain ⟨⟨g, l⟩, hg, hfilled, hP⟩ := ih hc.1 hc.2.2
      rw [hn', insert_opened hopen.left_length hroute.takeWhile_eq, hg]
      refine ⟨_, rfl, ?_⟩
      cases g with
      | whole d =>
          simp only [receive, withChild_append hopen.left_length]
          have hd : d.Filled capacity h :=
            ⟨hfilled.1, Nat.le_trans hc.2.1 hfilled.2.1, hfilled.2.2⟩
          exact ⟨⟨hopen.balanced hd _, Nat.le_refl _, hlen⟩, whole hopen hc hroute hfilled hP⟩
      | halves d m e =>
          have hlen' : (before ++ m :: after).length ≤ capacity + 1 := by
            rw [List.length_append, List.length_cons, ← Nat.add_assoc, ← List.length_append]
            exact Nat.succ_le_succ hlen
          simp only [receive, withHalves_append hopen.left_length]
          refine ⟨filled_settle (hopen.balanced_halves hfilled.1 hfilled.2 _ m) ?_ hlen' hcap,
            halves hopen hc hroute hlen' hfilled.1 hfilled.2 hP⟩
          simp only [List.length_append, List.length_cons]
          omega

/-! ## Keys -/

section Keys

variable {before after : List Key} {left right : List (Node Key)}

/-- What hangs left of separators that stand before a key stands before it as well. -/
theorem lt_of_mem_weave {xs : List (List Key)} {ks : List Key} (h : xs.length = ks.length)
    (hasc : Ascending (weave xs ks)) (hlt : ∀ a ∈ ks, a.lt k) : ∀ a ∈ weave xs ks, a.lt k := by
  induction xs generalizing ks with
  | nil => simp
  | cons x xs ih =>
      obtain ⟨s, ks, rfl⟩ := List.exists_cons_of_length_eq_add_one h.symm
      rw [weave_cons_cons] at hasc ⊢
      obtain ⟨hxs, hrest⟩ := ascending_append_cons.1 hasc
      have hs : s.lt k := hlt s List.mem_cons_self
      intro a ha
      rcases List.mem_append.1 ha with ha | ha
      · exact Key.lt_of_le_of_lt ((List.pairwise_append.1 hxs).2.2 a ha s (by simp)) hs
      · rcases List.mem_cons.1 ha with rfl | ha
        · exact hs
        · exact ih (Nat.succ.inj h) (List.pairwise_cons.1 hrest).2
            (fun a ha => hlt a (List.mem_cons_of_mem _ ha)) a ha

theorem Route.lt_before (hr : Route k before after) : ∀ a ∈ before, a.lt k := by
  rw [← hr.takeWhile_eq]
  intro a ha
  exact List.all_eq_true.1 List.all_takeWhile a ha

/-- The separator right of the child does not stand before the key. -/
theorem Route.le_head {s : Key} {rest : List Key} (hr : Route k before (s :: rest)) :
    k.le s := by
  refine Key.not_lt_iff_le.1 ?_
  have hhead := List.head?_dropWhile_not (·.lt k) (before ++ s :: rest)
  rw [hr.dropWhile_eq] at hhead
  simpa using hhead

/-- The keys around the child that a key is sent into leave the key its place in the child. -/
theorem Route.bounds (hr : Route k before after) (ho : Opened capacity h before after left right)
    {xs : List Key} (hasc : Ascending (weave (left.map inorder) before ++ xs ++
      weave ([] :: right.map inorder) after)) :
    (∀ a ∈ weave (left.map inorder) before, a.lt k) ∧
      ∀ b ∈ weave ([] :: right.map inorder) after, k.le b := by
  obtain ⟨hleft, hright, -⟩ := List.pairwise_append.1 hasc
  refine ⟨lt_of_mem_weave (by simpa using ho.left_length) (List.pairwise_append.1 hleft).1
    hr.lt_before, ?_⟩
  cases after with
  | nil =>
      have hnil : right = [] := List.length_eq_zero_iff.1 ho.right_length
      simp [hnil]
  | cons s rest =>
      rw [weave_cons_cons, List.nil_append] at hright ⊢
      intro b hb
      rcases List.mem_cons.1 hb with rfl | hb
      · exact hr.le_head
      · exact Key.le_trans hr.le_head ((List.pairwise_cons.1 hright).1 b hb)

/-- A key that finds its place in the child finds it among the keys of the node. -/
theorem Route.inserted (hr : Route k before after) (ho : Opened capacity h before after left right)
    {xs ys : List Key} (hasc : Ascending (weave (left.map inorder) before ++ xs ++
      weave ([] :: right.map inorder) after)) (hins : Ascending xs → Inserted k xs ys) :
    Inserted k (weave (left.map inorder) before ++ xs ++ weave ([] :: right.map inorder) after)
      (weave (left.map inorder) before ++ ys ++ weave ([] :: right.map inorder) after) := by
  obtain ⟨hleft, hright⟩ := hr.bounds ho hasc
  refine (hins (ascending_middle hasc)).within ?_ hright
  intro a ha
  exact Key.le_of_lt (hleft a ha)

end Keys

/-- An insertion puts the key in its place among the keys of the subtree. -/
theorem inserted_insert (hcap : 0 < capacity) {n : Node Key} (hn : n.Balanced capacity h)
    (hlen : n.keys.length ≤ capacity) (hasc : Ascending n.inorder) (ledger : Ledger) :
    ∃ g, n.insert capacity k ledger = .ok g ∧ g.1.Filled capacity h n.keys.length ∧
      Inserted k n.inorder g.1.inorder := by
  have key := insert_induction ledger (k := k)
    (P := fun _ n g => Ascending n.inorder → Inserted k n.inorder g.1.inorder)
    ?leaf ?whole ?halves hcap hn hlen
  · obtain ⟨g, hg, hfilled, hP⟩ := key
    exact ⟨g, hg, hfilled, hP hasc⟩
  case leaf =>
    intro id keys hlen hasc
    rw [inorder_leaf] at hasc ⊢
    have hwith : (withKey ⟨id, keys, []⟩ k).Balanced capacity 0 := rfl
    rw [inorder_settle hwith hlen]
    simpa [withKey] using inserted_withKey (k := k) id hasc
  case whole =>
    intro h id before after left right c d l hopen hc hroute _ ih hasc
    simp only [Growth.inorder, inorder_open hopen.left_length] at hasc ih ⊢
    exact hroute.inserted hopen hasc ih
  case halves =>
    intro h id before after left right c d m e l hopen hc hroute hlen hd he ih hasc
    rw [inorder_open hopen.left_length] at hasc
    have hwithin := hroute.inserted hopen hasc ih
    rw [inorder_settle (hopen.balanced_halves hd he _ m) hlen, inorder_open hopen.left_length,
      inorder_open hopen.left_length, List.map_cons, weave_cons_cons, weave_cons e.inorder]
    simpa [Growth.inorder] using hwithin

/-! ## Identities -/

/-- An insertion keeps all identities and adds those that the ledger hands out, one for every
division that it counts. -/
theorem ids_insert (hcap : 0 < capacity) {n : Node Key} (hn : n.Balanced capacity h)
    (hlen : n.keys.length ≤ capacity) (ledger : Ledger) :
    ∃ g s, n.insert capacity k ledger = .ok g ∧ HandedOut s ledger g.2 n.ids g.1.ids ∧
      g.2.counters = { ledger.counters with splits := ledger.counters.splits + s } := by
  have key := insert_induction ledger (k := k)
    (P := fun _ n g => ∃ s, HandedOut s ledger g.2 n.ids g.1.ids ∧
      g.2.counters = { ledger.counters with splits := ledger.counters.splits + s })
    ?leaf ?whole ?halves hcap hn hlen
  · obtain ⟨g, hg, -, s, hP⟩ := key
    exact ⟨g, s, hg, hP⟩
  case leaf =>
    intro id keys hlen
    rw [← ids_withKey _ k]
    exact ids_settle hlen ledger
  case whole =>
    intro h id before after left right c d l _ _ _ _ ih
    obtain ⟨s, hout, hcounters⟩ := ih
    refine ⟨s, ?_, hcounters⟩
    have hwithin := hout.within (id :: left.flatMap ids) (right.flatMap ids)
    simpa [Growth.ids, ids_mk] using hwithin
  case halves =>
    intro h id before after left right c d m e l _ _ _ hlen _ _ ih
    obtain ⟨s, hout, hcounters⟩ := ih
    obtain ⟨t, hout', hcounters'⟩ := ids_settle
      (n := ⟨id, before ++ m :: after, left ++ d :: e :: right⟩) hlen l
    refine ⟨s + t, .trans ?_ hout', ?_⟩
    · have hwithin := hout.within (id :: left.flatMap ids) (right.flatMap ids)
      simpa [Growth.ids, ids_mk] using hwithin
    · simp only at hcounters
      rw [hcounters', hcounters, Nat.add_assoc]

end Node

end TracedTree
