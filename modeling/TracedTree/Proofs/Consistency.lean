import TracedTree.Proofs.History
import TracedTree.Proofs.Outcome

/-!
# Reachable sequencers are consistent

The commands of a sequencer change its queue, its window, its cursor and its state, and none of
them changes all four. `Sequencer.Consistent` says how the four fit each other; every command keeps
it, and what may be asked of a sequencer between two commands follows from it. In particular queued
work is never stranded: ticks of the timer go on showing frames until the queue is empty.

## Main definitions

* `Sequencer.Reached`: the sequencers that commands lead to, with trees put in by hand on the way.
* `Sequencer.Consistent`: cursor, window, queue and state fit each other.
-/

namespace TracedTree

namespace Sequencer

/-- Commands lead to the sequencer from one that was just made, and other trees may have been put
in the place of its tree meanwhile. -/
inductive Reached : Sequencer → Prop where
  | ofTree {t : Tree} (ht : t.Valid) (hquiet : t.recording = none) (settings : PlaybackSettings) :
      Reached (ofTree t settings)
  | obey {s : Sequencer} (hs : Reached s) (c : Command) : Reached (s.obey c)
  | addKeys {s : Sequencer} (hs : Reached s) (keys : List Key) : Reached (s.addKeys keys)
  | removeKeys {s : Sequencer} (hs : Reached s) (keys : List Key) : Reached (s.removeKeys keys)
  | replaceTree {s : Sequencer} (hs : Reached s) {t : Tree} (ht : t.Valid)
      (hquiet : t.recording = none) : Reached (s.replaceTree t)

/-- The cursor stands in the window or right behind it, nothing waits before anything was queued or
after the queue ran out, and the tree is not recording. -/
structure Consistent (s : Sequencer) : Prop where
  cursor_le : s.cursor ≤ s.buffer.length
  idle : s.state = .idle → s.queue = [] ∧ s.buffer = []
  converged : s.state = .converged → s.queue = []
  quiet : s.tree.recording = none

variable {s : Sequencer}

/-! ## States -/

theorem inSequence_iff : s.inSequence = true ↔ s.state ≠ .idle ∧ s.state ≠ .converged := by
  cases h : s.state <;> simp [inSequence, h]

theorem waitingState_ne (mode : Mode) :
    waitingState mode ≠ .idle ∧ waitingState mode ≠ .converged := by
  cases mode <;> decide

theorem shownState_ne (mode : Mode) : shownState mode ≠ .idle ∧ shownState mode ≠ .converged := by
  cases mode <;> decide

/-- In a state of playing there is nothing to say about the queue. -/
theorem consistent_of_ne (hcursor : s.cursor ≤ s.buffer.length)
    (hstate : s.state ≠ .idle ∧ s.state ≠ .converged) (hquiet : s.tree.recording = none) :
    Consistent s :=
  ⟨hcursor, fun h => absurd h hstate.1, fun h => absurd h hstate.2, hquiet⟩

/-- Where the queue has run out, nothing waits. -/
theorem consistent_of_converged (hcursor : s.cursor ≤ s.buffer.length)
    (hstate : s.state = .converged) (hqueue : s.queue = []) (hquiet : s.tree.recording = none) :
    Consistent s := by
  refine ⟨hcursor, ?_, fun _ => hqueue, hquiet⟩
  intro hidle
  rw [hstate] at hidle
  contradiction

/-! ## One command -/

theorem Consistent.enqueue (hs : Consistent s) (op : Operation) : Consistent (s.enqueue op) := by
  rw [Sequencer.enqueue]
  split
  · exact consistent_of_ne hs.cursor_le (waitingState_ne _) hs.quiet
  · rename_i hstate
    rw [not_or] at hstate
    exact consistent_of_ne hs.cursor_le hstate hs.quiet

theorem Consistent.foldl_enqueue (hs : Consistent s) (ops : List Operation) :
    Consistent (ops.foldl Sequencer.enqueue s) := by
  induction ops generalizing s with
  | nil => exact hs
  | cons op ops ih => exact ih (hs.enqueue op)

/-- Whatever is executed to show a frame, the cursor stays in the window. -/
theorem consistent_showFrom (queue : List Operation) (hcursor : s.cursor ≤ s.buffer.length)
    (hquiet : s.tree.recording = none) : Consistent (showFrom queue s).2 := by
  induction queue generalizing s with
  | nil =>
      rw [showFrom]
      split
      · exact consistent_of_ne hcursor (shownState_ne _) hquiet
      · exact consistent_of_converged hcursor rfl rfl hquiet
  | cons op queue ih =>
      rw [showFrom]
      split
      · exact consistent_of_ne hcursor (shownState_ne _) hquiet
      · obtain ⟨hrecord, hquiet'⟩ := Tree.record_tree hquiet op
        have htree : (s.fill op).tree = op.apply s.tree := hrecord
        have hfill : (s.fill op).cursor ≤ (s.fill op).buffer.length := by simp [fill]
        exact ih hfill (htree ▸ hquiet')

theorem Consistent.nextFrame (hs : Consistent s) : Consistent s.nextFrame.2 := by
  have hmoved : s.moved.cursor ≤ s.moved.buffer.length := by
    have hcursor := hs.cursor_le
    simp only [moved]
    split <;> omega
  exact consistent_showFrom s.queue hmoved hs.quiet

theorem Consistent.previousFrame (hs : Consistent s) : Consistent s.previousFrame.2 := by
  rw [Sequencer.previousFrame]
  split
  · exact hs
  · rename_i cursor hcursor
    have hle := hs.cursor_le
    exact ⟨by simp only; omega, hs.idle, hs.converged, hs.quiet⟩

theorem Consistent.finalFrame (hs : Consistent s) : Consistent s.finalFrame.2 :=
  consistent_of_converged (Nat.le_refl 0) rfl rfl (Tree.recording_foldl_apply hs.quiet s.queue)

theorem Consistent.tick (hs : Consistent s) : Consistent s.tick.2 := by
  rcases s.tick_cases with h | h | h <;> rw [h]
  · exact hs.nextFrame
  · exact hs.finalFrame
  · exact hs

theorem Consistent.setMode (hs : Consistent s) (mode : Mode) : Consistent (s.setMode mode) := by
  by_cases hplaying : s.inSequence = true
  · have hstate : (s.setMode mode).state = waitingState mode := by
      simp [Sequencer.setMode, hplaying]
    exact consistent_of_ne hs.cursor_le (hstate ▸ waitingState_ne mode) hs.quiet
  · have hstate : (s.setMode mode).state = s.state := by
      simp [Sequencer.setMode, hplaying]
    exact ⟨hs.cursor_le, fun h => hs.idle (hstate ▸ h), fun h => hs.converged (hstate ▸ h),
      hs.quiet⟩

/-- **The step.** Every command keeps a sequencer consistent. -/
theorem Consistent.obey (hs : Consistent s) (c : Command) : Consistent (s.obey c) := by
  cases c with
  | enqueue op => exact hs.enqueue op
  | nextFrame => exact hs.nextFrame
  | previousFrame => exact hs.previousFrame
  | finalFrame => exact hs.finalFrame
  | tick => exact hs.tick
  | setMode mode => exact hs.setMode mode
  | setSpeed speed => exact ⟨hs.cursor_le, hs.idle, hs.converged, hs.quiet⟩

/-- **The run.** Every sequencer that commands lead to is consistent. -/
theorem Reached.consistent (hs : Reached s) : Consistent s := by
  induction hs with
  | ofTree ht hquiet settings => exact ⟨Nat.le_refl 0, fun _ => ⟨rfl, rfl⟩, nofun, hquiet⟩
  | obey hs c ih => exact ih.obey c
  | addKeys hs keys ih =>
      rw [addKeys_eq]
      exact ih.foldl_enqueue _
  | removeKeys hs keys ih =>
      rw [removeKeys_eq]
      exact ih.foldl_enqueue _
  | replaceTree hs ht hquiet ih =>
      exact ⟨Nat.le_refl 0, fun h => ⟨(ih.idle h).1, rfl⟩, ih.converged, hquiet⟩

/-! ## What follows -/

theorem Consistent.inSequence (hs : Consistent s) (hqueue : s.queue ≠ []) :
    s.inSequence = true := by
  rw [inSequence_iff]
  constructor
  · intro hidle
    exact hqueue (hs.idle hidle).1
  · intro hconverged
    exact hqueue (hs.converged hconverged)

theorem Consistent.isSome_previousFrame (hs : Consistent s) :
    s.previousFrame.1.isSome = s.hasPrevious := by
  have hle := hs.cursor_le
  cases hcursor : s.cursor with
  | zero => simp [Sequencer.previousFrame, hasPrevious, hcursor]
  | succ cursor =>
      have hlt : cursor < s.buffer.length := by omega
      simp [Sequencer.previousFrame, hasPrevious, hcursor, hlt]

/-- A tick of the timer shows something as long as anything is queued. -/
theorem Consistent.isSome_tick (hs : Consistent s) (hqueue : s.queue ≠ [])
    (hmode : s.settings.mode ≠ .step) : s.tick.1.isSome = true := by
  have hplaying := hs.inSequence hqueue
  cases h : s.settings.mode with
  | step => exact absurd h hmode
  | _ => simp [Sequencer.tick, hplaying, h]

/-! ## Ticking until the queue is empty -/

theorem settings_showFrom (queue : List Operation) (s : Sequencer) :
    (showFrom queue s).2.settings = s.settings := by
  induction queue generalizing s with
  | nil =>
      rw [showFrom]
      split <;> rfl
  | cons op queue ih =>
      rw [showFrom]
      split
      · rfl
      · rw [ih]
        rfl

/-- A step forward takes an operation from the queue, or it goes on by one frame in the window. -/
theorem Consistent.nextFrame_advances (hs : Consistent s) (hqueue : s.queue ≠ []) :
    s.nextFrame.2.queue.length < s.queue.length ∨
    s.nextFrame.2.queue = s.queue ∧ s.nextFrame.2.buffer = s.buffer ∧
      s.nextFrame.2.cursor = s.cursor + 1 ∧ s.cursor < s.buffer.length := by
  have hnext : s.nextFrame = showFrom s.queue s.moved := rfl
  rw [hnext]
  cases hframe : s.moved.buffer[s.moved.cursor]? with
  | some frame =>
      rw [showFrom_of_some hframe]
      obtain ⟨hlt, -⟩ := List.getElem?_eq_some_iff.1 hframe
      have hne : s.buffer ≠ [] := List.ne_nil_of_length_pos (Nat.zero_lt_of_lt hlt)
      simp only [moved, List.isEmpty_iff, hne, if_false] at hlt ⊢
      exact .inr ⟨trivial, trivial, by omega, by omega⟩
  | none =>
      obtain ⟨op, rest, hsplit⟩ := List.exists_cons_of_ne_nil hqueue
      rw [hsplit, showFrom_cons_of_none hframe]
      obtain ⟨hrecord, hquiet⟩ := Tree.record_tree hs.quiet op
      have htree : (s.moved.fill op).tree = op.apply s.tree := hrecord
      obtain ⟨done, hdone, -⟩ := advanced_showFrom rest (htree ▸ hquiet)
      have hlength := congrArg List.length hdone
      rw [List.length_append] at hlength
      exact .inl (by rw [List.length_cons]; omega)

/-- In auto mode ticks show the rest of the window, and then the frames of one operation after the
other. -/
theorem Consistent.exists_ticks_auto (hs : Consistent s) (hmode : s.settings.mode = .auto) :
    ∃ n, (s.play (List.replicate n .tick)).queue = [] := by
  -- Operations that wait count first, frames that are left in the window second.
  induction hlength : s.queue.length using Nat.strongRecOn generalizing s with
  | ind waiting ih =>
  induction hleft : s.buffer.length - s.cursor using Nat.strongRecOn generalizing s with
  | ind left ih' =>
  by_cases hqueue : s.queue = []
  · exact ⟨0, hqueue⟩
  have htick : s.tick.2 = s.nextFrame.2 := by
    simp [Sequencer.tick, hs.inSequence hqueue, hmode]
  have hmode' : s.nextFrame.2.settings.mode = .auto := by
    rw [Sequencer.nextFrame, settings_showFrom]
    exact hmode
  have hrest : ∃ n, (s.nextFrame.2.play (List.replicate n .tick)).queue = [] := by
    rcases hs.nextFrame_advances hqueue with hless | ⟨hsame, hbuffer, hcursor, hlt⟩
    · exact ih _ (hlength ▸ hless) hs.nextFrame hmode' rfl
    · refine ih' _ ?_ hs.nextFrame hmode' (by rw [hsame, hlength]) rfl
      rw [hbuffer, hcursor]
      omega
  obtain ⟨n, hn⟩ := hrest
  refine ⟨n + 1, ?_⟩
  rw [List.replicate_succ, play, List.foldl_cons]
  change ((s.tick.2).play (List.replicate n .tick)).queue = []
  rw [htick]
  exact hn

/-- Ticks of the timer empty the queue. -/
theorem Consistent.exists_ticks (hs : Consistent s) (hmode : s.settings.mode ≠ .step) :
    ∃ n, (s.play (List.replicate n .tick)).queue = [] := by
  cases h : s.settings.mode with
  | step => exact absurd h hmode
  | auto => exact hs.exists_ticks_auto h
  | instant =>
      by_cases hqueue : s.queue = []
      · exact ⟨0, hqueue⟩
      · refine ⟨1, ?_⟩
        change s.tick.2.queue = []
        simp [Sequencer.tick, hs.inSequence hqueue, h, Sequencer.finalFrame]

/-- **Reachable sequencers are consistent.** The cursor stands in the window or right behind it,
and there is a step back exactly if the sequencer says so. While anything is queued the playback
goes on: the timer shows a frame at its next tick, unless only explicit steps are asked for, and
enough ticks work the queue off. Before anything was queued both queue and window are empty, and
when the playback has converged the queue is. Between two commands the tree is not recording. -/
theorem Reached.consistency (hs : Reached s) :
    s.cursor ≤ s.buffer.length ∧
    s.previousFrame.1.isSome = s.hasPrevious ∧
    (s.queue ≠ [] → s.inSequence = true ∧
      (s.settings.mode ≠ .step → s.tick.1.isSome = true ∧
        ∃ n, (s.play (List.replicate n .tick)).queue = [])) ∧
    (s.state = .idle → s.queue = [] ∧ s.buffer = []) ∧
    (s.state = .converged → s.queue = []) ∧
    s.tree.recording = none := by
  have hconsistent := hs.consistent
  refine ⟨hconsistent.cursor_le, hconsistent.isSome_previousFrame, ?_, hconsistent.idle,
    hconsistent.converged, hconsistent.quiet⟩
  intro hqueue
  refine ⟨hconsistent.inSequence hqueue, ?_⟩
  intro hmode
  exact ⟨hconsistent.isSome_tick hqueue hmode, hconsistent.exists_ticks hmode⟩

/-- Work that was queued after the playback had converged, before another tree was put in, and a
window that keeps nothing. -/
theorem consistency_small :
    let start := ofTree .default { mode := .instant, capacity := 0 }
    let converged := ((start.addKeys [.ofInt 1, .ofInt 2]).obey .nextFrame).obey .finalFrame
    let s := ((converged.removeKeys [.ofInt 1, .ofInt 3]).replaceTree
      (.empty 2 .number (by decide))).obey (.setMode .auto)
    Reached s ∧ s.queue ≠ [] ∧ s.settings.mode ≠ .step ∧
    s.cursor ≤ s.buffer.length ∧
    s.previousFrame.1.isSome = s.hasPrevious ∧
    (s.queue ≠ [] → s.inSequence = true ∧
      (s.settings.mode ≠ .step → s.tick.1.isSome = true ∧
        ∃ n, (s.play (List.replicate n .tick)).queue = [])) ∧
    (s.state = .idle → s.queue = [] ∧ s.buffer = []) ∧
    (s.state = .converged → s.queue = []) ∧
    s.tree.recording = none := by
  intro start converged s
  have hstart : Reached start := .ofTree (Tree.valid_empty _ _ _) rfl _
  have hconverged : Reached converged := ((hstart.addKeys _).obey _).obey _
  have hs : Reached s :=
    ((hconverged.removeKeys _).replaceTree (Tree.valid_empty _ _ _) rfl).obey _
  have hqueue : s.queue = converged.queue ++ [.remove (.ofInt 1), .remove (.ofInt 3)] := by
    change (converged.removeKeys _).queue = _
    rw [removeKeys_eq, queue_foldl_enqueue]
    rfl
  have hmode : s.settings.mode = .auto := rfl
  exact ⟨hs, by simp [hqueue], by simp [hmode], hs.consistency⟩

end Sequencer

end TracedTree
