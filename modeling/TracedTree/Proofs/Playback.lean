import TracedTree.Proofs.Recording

/-!
# What playback executes

Whatever is shown, playback only takes operations from the front of the queue and applies them to
the tree in their order; recorded or not makes no difference to the tree.

## Main definitions

* `Sequencer.Advanced s s'`: between the two, some operations have been taken from the queue and
  applied.
-/

namespace TracedTree

/-! ## Recorded operations -/

namespace Tree

variable {t : Tree}

/-- An operation executed under recording leaves the tree that it leaves without. -/
theorem record_tree (ht : t.recording = none) (op : Operation) :
    (op.record t).2 = op.apply t ∧ (op.apply t).recording = none := by
  have hself : ({ t with recording := none } : Tree) = t := by rw [← ht]
  have hstart : t.startRecording = { t with recording := some [] } := by
    rw [startRecording, ht]
    rfl
  rcases operate_uniform t op with ⟨e, he⟩ | ⟨answer, root, ledger, frames, hop⟩
  · have hquiet := he none
    rw [hself] at hquiet
    rw [Operation.record, apply_eq, apply_eq, hstart, he, hquiet]
    exact ⟨hself, ht⟩
  · have hquiet := hop none
    rw [hself] at hquiet
    rw [Operation.record, apply_eq, apply_eq, hstart, hop, hquiet]
    exact ⟨rfl, rfl⟩

/-- A tree that records nothing goes on recording nothing. -/
theorem recording_foldl_apply (ht : t.recording = none) (ops : List Operation) :
    (ops.foldl Operation.apply t).recording = none := by
  induction ops generalizing t with
  | nil => exact ht
  | cons op ops ih => exact ih (record_tree ht op).2

end Tree

namespace Sequencer

variable {s : Sequencer}

/-! ## The queue -/

@[simp] theorem tree_enqueue (s : Sequencer) (op : Operation) : (s.enqueue op).tree = s.tree := by
  simp only [enqueue]
  split <;> rfl

@[simp] theorem queue_enqueue (s : Sequencer) (op : Operation) :
    (s.enqueue op).queue = s.queue ++ [op] := by
  simp only [enqueue]
  split <;> rfl

theorem addKeys_eq (s : Sequencer) (keys : List Key) :
    s.addKeys keys = (keys.map .add).foldl enqueue s := by
  rw [List.foldl_map]
  rfl

theorem removeKeys_eq (s : Sequencer) (keys : List Key) :
    s.removeKeys keys = (keys.map .remove).foldl enqueue s := by
  rw [List.foldl_map]
  rfl

@[simp] theorem tree_foldl_enqueue (s : Sequencer) (ops : List Operation) :
    (ops.foldl enqueue s).tree = s.tree := by
  induction ops generalizing s with
  | nil => rfl
  | cons op ops ih => rw [List.foldl_cons, ih, tree_enqueue]

@[simp] theorem queue_foldl_enqueue (s : Sequencer) (ops : List Operation) :
    (ops.foldl enqueue s).queue = s.queue ++ ops := by
  induction ops generalizing s with
  | nil => simp
  | cons op ops ih =>
      rw [List.foldl_cons, ih, queue_enqueue, List.append_assoc, List.singleton_append]

/-! ## Steps -/

/-- Some operations from the front of the queue have been applied to the tree, and the others are
still queued. -/
def Advanced (s s' : Sequencer) : Prop :=
  ∃ done, s.queue = done ++ s'.queue ∧ s'.tree = done.foldl Operation.apply s.tree

theorem Advanced.refl (s : Sequencer) : Advanced s s := ⟨[], rfl, rfl⟩

theorem advanced_showFrom (queue : List Operation) (hs : s.tree.recording = none) :
    ∃ done, queue = done ++ (showFrom queue s).2.queue ∧
      (showFrom queue s).2.tree = done.foldl Operation.apply s.tree := by
  induction queue generalizing s with
  | nil =>
      rw [showFrom]
      split <;> exact ⟨[], rfl, rfl⟩
  | cons op queue ih =>
      rw [showFrom]
      split
      · exact ⟨[], rfl, rfl⟩
      · obtain ⟨hrecord, hquiet⟩ := Tree.record_tree hs op
        have htree : (s.fill op).tree = op.apply s.tree := hrecord
        obtain ⟨done, hqueue, hdone⟩ := @ih (s.fill op) (htree ▸ hquiet)
        refine ⟨op :: done, ?_, ?_⟩
        · rw [List.cons_append, ← hqueue]
        · rw [hdone, htree, List.foldl_cons]

theorem advanced_nextFrame (hs : s.tree.recording = none) : Advanced s s.nextFrame.2 :=
  advanced_showFrom s.queue hs

theorem advanced_previousFrame (s : Sequencer) : Advanced s s.previousFrame.2 := by
  rw [previousFrame]
  split <;> exact ⟨[], rfl, rfl⟩

theorem advanced_finalFrame (s : Sequencer) : Advanced s s.finalFrame.2 :=
  ⟨s.queue, (List.append_nil _).symm, rfl⟩

/-- A tick shows the next frame, or the final one, or nothing. -/
theorem tick_cases (s : Sequencer) :
    s.tick.2 = s.nextFrame.2 ∨ s.tick.2 = s.finalFrame.2 ∨ s.tick.2 = s := by
  rw [tick]
  split
  · split
    · exact .inl rfl
    · exact .inr (.inl rfl)
    · exact .inr (.inr rfl)
  · exact .inr (.inr rfl)

theorem advanced_tick (hs : s.tree.recording = none) : Advanced s s.tick.2 := by
  rcases s.tick_cases with h | h | h <;> rw [h]
  · exact advanced_nextFrame hs
  · exact advanced_finalFrame s
  · exact .refl s

end Sequencer

end TracedTree
