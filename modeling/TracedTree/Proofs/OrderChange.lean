import Mathlib.Data.List.Forall2
import TracedTree.Proofs.Agreement

/-!
# Another order for the same keys

A tree is rebuilt by inserting its keys in random order into an empty one. Whatever the order is,
the keys come out as they were: two ascending lists with equally many copies of every key agree
place by place. Equal keys need not be identical, so the two zeros may have changed places. A
session whose order is changed therefore foresees what it foresaw before.

## Main definitions

* `SameKeys xs ys`: the keys of two lists are equal place by place.

## Main statements

* `sameKeys_of_countP_eq`: an ascending list is determined by the numbers of its keys.
* `Session.rebuild_keeps_keys`: rebuilt trees and sessions with another order keep their keys.
-/

namespace TracedTree

/-! ## Equal keys place by place -/

/-- The keys of two lists are equal place by place. -/
def SameKeys (xs ys : List Key) : Prop := List.Forall₂ (fun a b => a.same b) xs ys

section SameKeys

variable {xs ys : List Key}

theorem SameKeys.refl (xs : List Key) : SameKeys xs xs :=
  List.forall₂_same.2 fun a _ => Key.same_refl a

/-- An ascending list begins with a key that does not stand behind any of its keys. -/
theorem le_of_mem_ascending {x a : Key} (hx : Ascending (x :: xs)) (ha : a ∈ x :: xs) : x.le a := by
  rcases List.mem_cons.1 ha with rfl | ha
  · exact Key.le_refl a
  · exact (List.pairwise_cons.1 hx).1 a ha

/-- A key that is counted in an ascending list does not stand before its first one. -/
theorem le_of_countP_pos {x k : Key} (hx : Ascending (x :: xs))
    (hk : 0 < (x :: xs).countP k.same) : x.le k := by
  obtain ⟨a, ha, hsame⟩ := List.countP_pos_iff.1 hk
  exact Key.le_trans (le_of_mem_ascending hx ha) (Key.same_iff.1 hsame).2

/-- Ascending lists with equally many copies of every key agree place by place. -/
theorem sameKeys_of_countP_eq (hx : Ascending xs) (hy : Ascending ys)
    (hcount : ∀ k : Key, xs.countP k.same = ys.countP k.same) : SameKeys xs ys := by
  induction xs generalizing ys with
  | nil =>
      cases ys with
      | nil => exact .nil
      | cons y ys =>
          have hnone := hcount y
          simp [Key.same_refl] at hnone
  | cons x xs ih =>
      have hfirst : 0 < (x :: xs).countP x.same := by simp [Key.same_refl]
      cases ys with
      | nil =>
          rw [hcount x] at hfirst
          exact absurd hfirst (Nat.lt_irrefl 0)
      | cons y ys =>
          have hfirst' : 0 < (y :: ys).countP y.same := by simp [Key.same_refl]
          have hsame : x.same y := by
            refine Key.same_iff.2 ⟨le_of_countP_pos hx ?_, le_of_countP_pos hy ?_⟩
            · rwa [hcount y]
            · rwa [← hcount x]
          refine .cons hsame (ih (List.pairwise_cons.1 hx).2 (List.pairwise_cons.1 hy).2 ?_)
          intro k
          have hboth := hcount k
          have hcongr : k.same x = k.same y := by
            rw [Key.same_comm k x, Key.same_comm k y, Key.same_congr hsame]
          rw [List.countP_cons, List.countP_cons, hcongr] at hboth
          omega

end SameKeys

namespace Session

variable {keys more : List Key}

/-- From equal keys equal ones are foreseen. -/
theorem sameKeys_foresee (h : SameKeys keys more) (op : Operation) :
    SameKeys (foresee keys op) (foresee more op) := by
  cases op with
  | add k => exact List.rel_append h (SameKeys.refl [k])
  | remove k =>
      refine List.rel_filter (fun a b hab => ?_) h
      simp only [Key.same_congr hab]

theorem sameKeys_foldl_foresee (h : SameKeys keys more) (queue : List Operation) :
    SameKeys (queue.foldl foresee keys) (queue.foldl foresee more) := by
  induction queue generalizing keys more with
  | nil => exact h
  | cons op queue ih => exact ih (sameKeys_foresee h op)

end Session

/-! ## Rebuilding -/

namespace Tree

variable {t : Tree} {maxKeys : Nat}

/-- A tree with a large enough capacity can be rebuilt, and its keys are as they were. -/
theorem Valid.exists_rebuild_sameKeys (ht : t.Valid) (hcap : 2 ≤ maxKeys) (supply : Supply) :
    ∃ u, t.rebuild maxKeys supply = .ok u ∧ u.Valid ∧ u.maxKeys = maxKeys ∧ u.kind = t.kind ∧
      SameKeys u.keys t.keys := by
  obtain ⟨u, hu, hvalid, hmax, hkind, -, hperm⟩ := ht.exists_rebuild hcap supply
  exact ⟨u, hu, hvalid, hmax, hkind,
    sameKeys_of_countP_eq hvalid.ascending ht.ascending fun k => hperm.countP_eq k.same⟩

theorem rebuild_of_lt (t : Tree) (hcap : maxKeys < 2) (supply : Supply) :
    t.rebuild maxKeys supply = .error (.invalidOrder (.tooSmall (maxKeys + 1))) := by
  have hfresh : ofMaxKeys maxKeys t.kind = .error (.invalidOrder (.tooSmall (maxKeys + 1))) :=
    dif_neg (Nat.not_le.2 hcap)
  rw [rebuild, hfresh, error_bind]

end Tree

/-! ## Changing the order of a session -/

namespace Session

variable {s : Session} {order : Nat}

theorem checkOrder_eq_ok (horder : 3 ≤ order) : checkOrder order = .ok () :=
  if_neg (Nat.not_lt.2 horder)

/-- The order that the tree has already leaves the session as it is. -/
theorem setOrder_of_eq (horder : 3 ≤ order) (hsame : order - 1 = s.tree.maxKeys)
    (supply : Supply) : s.setOrder order supply = .ok s := by
  rw [setOrder, checkOrder_eq_ok horder, ok_bind]
  exact if_pos hsame

/-- Any other order comes with a rebuilt tree. -/
theorem setOrder_of_ne (horder : 3 ≤ order) (hne : order - 1 ≠ s.tree.maxKeys) {supply : Supply}
    {t : Tree} (ht : s.tree.rebuild (order - 1) supply = .ok t) :
    s.setOrder order supply =
      .ok ⟨{ s.settings with maxKeys := order - 1 }, s.sequencer.replaceTree t⟩ := by
  rw [setOrder, checkOrder_eq_ok horder, ok_bind]
  simp only [if_neg hne, ht, ok_bind, pure_eq_ok]

/-- An order that is large enough is taken over, and keys, queue and forecast are as before. -/
theorem exists_setOrder (hs : s.tree.Valid) (hagrees : s.Agrees) (horder : 3 ≤ order)
    (supply : Supply) :
    ∃ u, s.setOrder order supply = .ok u ∧ u.tree.Valid ∧ u.tree.kind = s.tree.kind ∧
      u.tree.maxKeys = order - 1 ∧ u.settings.maxKeys = order - 1 ∧
      u.sequencer.queue = s.sequencer.queue ∧ SameKeys u.tree.keys s.tree.keys ∧
      SameKeys u.futureKeys s.futureKeys := by
  by_cases hsame : order - 1 = s.tree.maxKeys
  · exact ⟨s, setOrder_of_eq horder hsame supply, hs, rfl, hsame.symm,
      hagrees.maxKeys.trans hsame.symm, rfl, .refl _, .refl _⟩
  · have hcap : 2 ≤ order - 1 := by omega
    obtain ⟨t, ht, hvalid, hmax, hkind, hkeys⟩ := hs.exists_rebuild_sameKeys hcap supply
    exact ⟨_, setOrder_of_ne horder hsame ht, hvalid, hkind, hmax, rfl, rfl, hkeys,
      sameKeys_foldl_foresee hkeys s.sequencer.queue⟩

/-- **Another order keeps the keys**, whatever the random words are. A valid tree can be rebuilt
with every capacity of at least two, as a valid tree of that capacity and of the same kind with
the same keys, and with no smaller capacity. So every session takes an order of at least three
over to its tree and its settings, and keeps the keys of the tree, the queue and the future
keys. -/
theorem rebuild_keeps_keys :
    (∀ (t : Tree) (maxKeys : Nat) (supply : Supply), t.Valid →
      (2 ≤ maxKeys → ∃ u, t.rebuild maxKeys supply = .ok u ∧ u.Valid ∧ u.maxKeys = maxKeys ∧
        u.kind = t.kind ∧ SameKeys u.keys t.keys) ∧
      (maxKeys < 2 →
        t.rebuild maxKeys supply = .error (.invalidOrder (.tooSmall (maxKeys + 1))))) ∧
    ∀ (s : Session) (order : Nat) (supply : Supply),
      Led Tree.Valid s → 3 ≤ order →
        ∃ u, s.setOrder order supply = .ok u ∧ u.tree.Valid ∧ u.tree.kind = s.tree.kind ∧
          u.tree.maxKeys = order - 1 ∧ u.settings.maxKeys = order - 1 ∧
          u.sequencer.queue = s.sequencer.queue ∧ SameKeys u.tree.keys s.tree.keys ∧
          SameKeys u.futureKeys s.futureKeys := by
  refine ⟨fun t maxKeys supply ht => ⟨fun hcap => ?_, fun hcap => ?_⟩, ?_⟩
  · exact ht.exists_rebuild_sameKeys hcap supply
  · exact t.rebuild_of_lt hcap supply
  · intro s order supply hs horder
    exact exists_setOrder hs.valid hs.agrees horder supply

/-- A tree with both zeros, put in place while it is recording, and a session over it in the middle
of a playback, with work queued. -/
theorem rebuild_keeps_keys_zeros :
    let zero : Key := .number ⟨true, 0, by decide⟩
    let t : Tree := ⟨2, .number, ⟨3, [.ofInt 0], [⟨1, [zero, .ofInt 0], []⟩,
      ⟨2, [.ofInt 3], []⟩]⟩, ⟨3, {}⟩, some [], by decide⟩
    let start := (((ofTree {} .default).replace t).obey (.addKey "5")).obey (.removeKey "0")
    let s := start.obey .nextFrame
    t.Valid ∧ Led Tree.Valid s ∧
    (∃ u, t.rebuild 3 (.seeded 7) = .ok u ∧ u.Valid ∧ u.maxKeys = 3 ∧ u.kind = t.kind ∧
      SameKeys u.keys t.keys) ∧
    t.rebuild 1 (.seeded 7) = .error (.invalidOrder (.tooSmall 2)) ∧
    ∃ u, s.setOrder 3 (.seeded 7) = .ok u ∧ u.tree.Valid ∧ u.tree.kind = s.tree.kind ∧
      u.tree.maxKeys = 2 ∧ u.settings.maxKeys = 2 ∧ u.sequencer.queue = s.sequencer.queue ∧
      SameKeys u.tree.keys s.tree.keys ∧ SameKeys u.futureKeys s.futureKeys := by
  intro zero t start s
  have ht : t.Valid := (Tree.check_eq_ok_iff t).1 (by decide +kernel)
  have hcreate : create {} = .ok (ofTree {} .default) := rfl
  have hstart : Led Tree.Valid start :=
    (((Led.create hcreate).replace ht).obey (.addKey "5")).obey (.removeKey "0")
  have hs : Led Tree.Valid s := hstart.obey .nextFrame
  exact ⟨ht, hs, (rebuild_keeps_keys.1 t 3 (.seeded 7) ht).1 (by decide),
    (rebuild_keeps_keys.1 t 1 (.seeded 7) ht).2 (by decide),
    rebuild_keeps_keys.2 s 3 (.seeded 7) hs (by decide)⟩

end Session

end TracedTree
