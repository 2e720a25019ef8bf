import Mathlib.Order.Basic
import TracedTree.Proofs.Insert
import TracedTree.Proofs.Relabel

/-!
# What a sequence of frames shows

The frames of an operation begin with a part in which nothing has happened yet, and go on with a
part that shows the keys as they will be. Both are kept when the frames of a child are shown within
the picture of its parent, and so is the course of the counters.

## Main definitions

* `Still p c frames`: all frames show the picture `p` with the counters `c`.
* `Shows keys frames`: all frames show the labels of the keys from left to right.
* `Counted c frames d`: the counters of the frames rise from `c` to `d`.
* `Ends p c frames`: if there is a last frame, it shows the picture `p` with the counters `c`.
-/

namespace TracedTree

/-! ## Counters -/

namespace Counters

/-- No count is smaller. -/
instance : LE Counters where
  le c d := c.splits ≤ d.splits ∧ c.merges ≤ d.merges ∧ c.smallRotations ≤ d.smallRotations ∧
    c.bigRotations ≤ d.bigRotations

instance : Preorder Counters where
  le_refl _ := ⟨Nat.le_refl _, Nat.le_refl _, Nat.le_refl _, Nat.le_refl _⟩
  le_trans _ _ _ h h' := ⟨Nat.le_trans h.1 h'.1, Nat.le_trans h.2.1 h'.2.1,
    Nat.le_trans h.2.2.1 h'.2.2.1, Nat.le_trans h.2.2.2 h'.2.2.2⟩

end Counters

/-- The counters of the frames do not fall, and stay between two given ones. -/
structure Counted (c : Counters) (frames : List Frame) (d : Counters) : Prop where
  le : c ≤ d
  between : ∀ f ∈ frames, c ≤ f.counters ∧ f.counters ≤ d
  sorted : (frames.map Frame.counters).Pairwise (· ≤ ·)

namespace Counted

variable {c d e : Counters} {frames more : List Frame}

theorem nil (h : c ≤ d) : Counted c [] d := ⟨h, nofun, .nil⟩

theorem append (h : Counted c frames d) (h' : Counted d more e) :
    Counted c (frames ++ more) e := by
  refine ⟨h.le.trans h'.le, ?_, ?_⟩
  · rw [List.forall_mem_append]
    exact ⟨fun f hf => ⟨(h.between f hf).1, (h.between f hf).2.trans h'.le⟩,
      fun f hf => ⟨h.le.trans (h'.between f hf).1, (h'.between f hf).2⟩⟩
  · rw [List.map_append, List.pairwise_append]
    refine ⟨h.sorted, h'.sorted, ?_⟩
    simp only [List.forall_mem_map]
    exact fun f hf g hg => (h.between f hf).2.trans (h'.between g hg).1

theorem of_forall (hle : c ≤ d) (h : ∀ f ∈ frames, f.counters = d) : Counted c frames d := by
  refine ⟨hle, fun f hf => ?_, ?_⟩
  · rw [h f hf]
    exact ⟨hle, le_refl d⟩
  · rw [List.pairwise_map, List.pairwise_iff_forall_sublist]
    intro f g hfg
    rw [h f (hfg.subset (by simp)), h g (hfg.subset (by simp))]

theorem mono (h : Counted c frames d) (hle : d ≤ e) : Counted c frames e := by
  have happ := h.append (nil hle)
  rwa [List.append_nil] at happ

theorem within (h : Counted c frames d) (parent : Picture) (i : Nat) :
    Counted c (frames.map (Frame.within parent i)) d := by
  refine ⟨h.le, List.forall_mem_map.2 h.between, ?_⟩
  rw [List.map_map]
  exact h.sorted

end Counted

/-! ## Pictures -/

/-- The frames show one picture with one state of the counters. -/
def Still (p : Picture) (c : Counters) (frames : List Frame) : Prop :=
  ∀ f ∈ frames, f.picture = p ∧ f.counters = c

/-- The frames show the labels of the keys from left to right. -/
def Shows (keys : List Key) (frames : List Frame) : Prop :=
  ∀ f ∈ frames, f.picture.inorder = keys.map Key.label

/-- If there is a last frame, it shows the picture with the counters. -/
def Ends (p : Picture) (c : Counters) (frames : List Frame) : Prop :=
  ∀ f ∈ frames.getLast?, f.picture = p ∧ f.counters = c

variable {c d : Counters} {frames more : List Frame} {keys : List Key} {p : Picture}

theorem Still.append (h : Still p c frames) (h' : Still p c more) : Still p c (frames ++ more) :=
  List.forall_mem_append.2 ⟨h, h'⟩

theorem Still.counted (h : Still p c frames) : Counted c frames c :=
  .of_forall (le_refl c) fun f hf => (h f hf).2

theorem Still.ends (h : Still p c frames) : Ends p c frames :=
  fun f hf => h f (List.mem_of_getLast? hf)

theorem Still.shows {n : Node Key} (h : Still n.picture c frames) : Shows n.inorder frames := by
  intro f hf
  rw [(h f hf).1, Node.inorder_picture]

theorem shows_nil : Shows keys [] := nofun

theorem Shows.append (h : Shows keys frames) (h' : Shows keys more) : Shows keys (frames ++ more) :=
  List.forall_mem_append.2 ⟨h, h'⟩

theorem ends_nil : Ends p c [] := nofun

theorem Ends.append (h' : Ends p c more) (hne : more ≠ []) : Ends p c (frames ++ more) := by
  intro f hf
  rw [List.getLast?_append_of_ne_nil _ hne] at hf
  exact h' f hf

/-! ## Frames of a child -/

section Within

variable {id : Nat} {before after : List Key} {left right : List (Node Key)} {b : Node Key}

/-- The parent shows a picture in the place of its child. -/
theorem withChild_picture (h : left.length = before.length) (id : Nat) (keys : List Key)
    (b : Node Key) (right : List (Node Key)) (p : Picture) :
    (Node.picture ⟨id, keys, left ++ b :: right⟩).withChild before.length p =
      ⟨id, keys.map Key.label, left.map Node.picture ++ p :: right.map Node.picture⟩ := by
  rw [Node.picture_mk, List.map_append, List.map_cons, Node.withChild_append (by simpa using h)]

theorem Still.within {a : Node Key} (hs : Still a.picture c frames)
    (h : left.length = before.length) :
    Still (Node.picture ⟨id, keys, left ++ a :: right⟩) c
      (frames.map (Frame.within (Node.picture ⟨id, keys, left ++ b :: right⟩) before.length)) := by
  refine List.forall_mem_map.2 fun f hf => ⟨?_, (hs f hf).2⟩
  rw [Frame.within, withChild_picture h, (hs f hf).1]
  simp

theorem Ends.within {a : Node Key} (he : Ends a.picture c frames)
    (h : left.length = before.length) :
    Ends (Node.picture ⟨id, keys, left ++ a :: right⟩) c
      (frames.map (Frame.within (Node.picture ⟨id, keys, left ++ b :: right⟩) before.length)) := by
  intro f hf
  rw [List.getLast?_map] at hf
  obtain ⟨g, hg, rfl⟩ := Option.map_eq_some_iff.1 hf
  rw [Frame.within, withChild_picture h, (he g hg).1]
  exact ⟨by simp, (he g hg).2⟩

/-- What hangs left and right of the child is shown on both sides of what the child shows. -/
theorem inorder_withChild (h : left.length = before.length) (id : Nat) (b : Node Key)
    {labels : List String} (hp : p.inorder = labels) :
    ((Node.picture ⟨id, before ++ after, left ++ b :: right⟩).withChild before.length p).inorder =
      (Node.weave (left.map Node.inorder) before).map Key.label ++ labels ++
        (Node.weave ([] :: right.map Node.inorder) after).map Key.label := by
  have hbelow : ∀ ns : List (Node Key), (ns.map Node.picture).map Node.inorder =
      (ns.map Node.inorder).map (List.map Key.label) := by
    intro ns
    rw [List.map_map, List.map_map]
    exact List.map_congr_left fun n _ => Node.inorder_picture n
  rw [withChild_picture h, List.map_append, Node.inorder_open (by simpa using h), hp, hbelow,
    hbelow, ← Node.weave_map, ← Node.weave_map, List.map_cons, List.map_nil]

theorem Shows.within (hs : Shows keys frames) (h : left.length = before.length) :
    Shows (Node.weave (left.map Node.inorder) before ++ keys ++
        Node.weave ([] :: right.map Node.inorder) after)
      (frames.map (Frame.within (Node.picture ⟨id, before ++ after, left ++ b :: right⟩)
        before.length)) := by
  refine List.forall_mem_map.2 fun f hf => ?_
  rw [Frame.within, inorder_withChild h id b (hs f hf), List.map_append, List.map_append]

end Within

end TracedTree
