import TracedTree.Proofs.Playback

/-!
# The history behind the window

A sequencer shows frames from a bounded window. Behind the window stands a history that is never
cut: the frames of every operation that a step forward executed since the window was last emptied,
in their order. The window is the end of this history, the cursor is a position in it, and steps
move the position by one. `Sequencer.Window` is the invariant, `exists_showFrom` says what a step
forward keeps of it, and `Recorded.window` that all commands keep it.

## Main definitions

* `Tree.recorded`: an operation between the start and the end of a recording.
* `Tree.recordings`: what operations record on a tree, one list of frames for each.
* `Sequencer.stepped`: the operations that a step forward executes.
* `Sequencer.Recorded s log`: steps forward have recorded the log since the window was last empty.
* `Sequencer.position`: where the cursor stands in the history.
* `Sequencer.Window`: the window is the end of the history that the capacity asks for.
-/

namespace TracedTree

namespace Tree

/-- The frames of an operation and the tree behind it, where a recording starts before the operation
and ends behind it. An operation that fails shows nothing and leaves the tree as it is. -/
def recorded (t : Tree) (op : Operation) : List Frame × Tree :=
  (((t.startRecording.operate op).toOption.map Prod.snd).getD t.startRecording).finishRecording

/-- What operations record on a tree, one after the other. -/
def recordings (t : Tree) : List Operation → List (List Frame)
  | [] => []
  | op :: ops => (t.recorded op).1 :: (t.recorded op).2.recordings ops

theorem record_eq (t : Tree) (op : Operation) : op.record t = t.recorded op := by
  rw [Operation.record, apply_eq]
  rfl

end Tree

namespace Sequencer

/-- The operations that a step forward executes: those that it takes from the queue. -/
def stepped (s : Sequencer) : List Operation :=
  s.queue.take (s.queue.length - s.nextFrame.2.queue.length)

/-- The log holds what each operation recorded that was executed by a step forward since the
sequencer was made, or its window was emptied. -/
inductive Recorded : Sequencer → List (List Frame) → Prop where
  | ofTree {t : Tree} (ht : t.Valid) (hquiet : t.recording = none) (settings : PlaybackSettings) :
      Recorded (ofTree t settings) []
  | enqueue {s : Sequencer} {log : List (List Frame)} (hs : Recorded s log) (op : Operation) :
      Recorded (s.enqueue op) log
  | nextFrame {s : Sequencer} {log : List (List Frame)} (hs : Recorded s log) :
      Recorded s.nextFrame.2 (log ++ s.tree.recordings s.stepped)
  | previousFrame {s : Sequencer} {log : List (List Frame)} (hs : Recorded s log) :
      Recorded s.previousFrame.2 log
  | finalFrame {s : Sequencer} {log : List (List Frame)} (hs : Recorded s log) :
      Recorded s.finalFrame.2 []
  | replaceTree {s : Sequencer} {log : List (List Frame)} (hs : Recorded s log) {t : Tree}
      (ht : t.Valid) (hquiet : t.recording = none) : Recorded (s.replaceTree t) []
  | setMode {s : Sequencer} {log : List (List Frame)} (hs : Recorded s log) (mode : Mode) :
      Recorded (s.setMode mode) log
  | setSpeed {s : Sequencer} {log : List (List Frame)} (hs : Recorded s log) (speed : Float) :
      Recorded (s.setSpeed speed) log

/-- How many frames the operation recorded that was executed last. -/
def latest (log : List (List Frame)) : Nat := (log.getLast?.getD []).length

/-- The number of frames of the history before the cursor. -/
def position (s : Sequencer) (log : List (List Frame)) : Nat :=
  log.flatten.length - s.buffer.length + s.cursor

/-- The window is the end of the history: the frames of the operation executed last, and before
them as many as the capacity asks for and the history has. -/
structure Window (s : Sequencer) (log : List (List Frame)) : Prop where
  suffix : s.buffer <:+ log.flatten
  length_eq : s.buffer.length =
    min s.settings.capacity (log.flatten.length - latest log) + latest log
  cursor_le : s.cursor ≤ s.buffer.length

variable {s u : Sequencer} {log : List (List Frame)}

/-! ## The window -/

theorem window_empty (hbuffer : s.buffer = []) (hcursor : s.cursor = 0) : Window s [] :=
  ⟨by simp [hbuffer], by simp [hbuffer, latest], by simp [hcursor]⟩

/-- Tree, queue and state do not matter. -/
theorem Window.congr (hs : Window s log) (hbuffer : u.buffer = s.buffer)
    (hcapacity : u.settings.capacity = s.settings.capacity) (hcursor : u.cursor ≤ s.cursor) :
    Window u log := by
  refine ⟨hbuffer ▸ hs.suffix, ?_, ?_⟩
  · rw [hbuffer, hcapacity]
    exact hs.length_eq
  · rw [hbuffer]
    exact Nat.le_trans hcursor hs.cursor_le

theorem Window.position_le (hs : Window s log) : position s log ≤ log.flatten.length := by
  have hle := hs.suffix.length_le
  have hcursor := hs.cursor_le
  rw [position]
  omega

/-- The frame at the cursor is the one at the position in the history. -/
theorem Window.getElem?_position (hs : Window s log) :
    log.flatten[position s log]? = s.buffer[s.cursor]? := by
  obtain ⟨before, hbefore⟩ := hs.suffix
  have hposition : position s log = before.length + s.cursor := by
    rw [position, ← hbefore, List.length_append]
    omega
  rw [hposition, ← hbefore, List.getElem?_append_right (Nat.le_add_right ..),
    Nat.add_sub_cancel_left]

/-- Nothing stands at the cursor exactly if it is at the end of the history. -/
theorem Window.position_eq_iff (hs : Window s log) :
    position s log = log.flatten.length ↔ s.buffer[s.cursor]? = none := by
  have hle := hs.position_le
  rw [← hs.getElem?_position, List.getElem?_eq_none_iff]
  omega

/-! ## Executing an operation -/

theorem latest_append (log : List (List Frame)) (frames : List Frame) :
    latest (log ++ [frames]) = frames.length := by
  simp [latest]

/-- Executing an operation appends its frames to the history and cuts the window before them. The
cursor comes to stand at the end of the history as it was. -/
theorem Window.fill (hs : Window s log) (op : Operation) :
    Window (s.fill op) (log ++ [(s.tree.recorded op).1]) ∧
      position (s.fill op) (log ++ [(s.tree.recorded op).1]) = log.flatten.length := by
  rw [← Tree.record_eq]
  obtain ⟨before, hbefore⟩ := hs.suffix
  have hlength := hs.length_eq
  have hhistory : log.flatten.length = before.length + s.buffer.length := by
    rw [← hbefore, List.length_append]
  refine ⟨⟨?_, ?_, ?_⟩, ?_⟩
  · have hkept : s.buffer.drop (s.buffer.length - s.settings.capacity) <:+ log.flatten :=
      (List.drop_suffix _ _).trans hs.suffix
    obtain ⟨earlier, hearlier⟩ := hkept
    exact ⟨earlier, by simp [Sequencer.fill, ← hearlier]⟩
  · simp only [Sequencer.fill, List.length_append, List.length_drop, latest_append,
      List.flatten_append, List.flatten_singleton]
    omega
  · simp [Sequencer.fill]
  · simp only [position, Sequencer.fill, List.length_append, List.length_drop,
      List.flatten_append, List.flatten_singleton]
    omega

/-! ## Steps forward -/

theorem showFrom_of_some {frame : Frame} (h : s.buffer[s.cursor]? = some frame)
    (queue : List Operation) :
    showFrom queue s = (frame, { s with queue, state := shownState s.settings.mode }) := by
  cases queue <;> rw [showFrom, h]

theorem showFrom_nil_of_none (h : s.buffer[s.cursor]? = none) :
    showFrom [] s = (s.tree.settledFrame, { s with queue := [], state := .converged }) := by
  rw [showFrom, h]

theorem showFrom_cons_of_none (h : s.buffer[s.cursor]? = none) (op : Operation)
    (queue : List Operation) : showFrom (op :: queue) s = showFrom queue (s.fill op) := by
  rw [showFrom, h]

theorem shownState_ne_converged (mode : Mode) : shownState mode ≠ .converged := by
  cases mode <;> decide

/-- What happens when a frame is shown from a position, where `done` are the operations that are
executed and `r` is the result. -/
structure Showing (queue : List Operation) (s : Sequencer) (log : List (List Frame))
    (done : List Operation) (r : Frame × Sequencer) : Prop where
  queue_eq : queue = done ++ r.2.queue
  tree_eq : r.2.tree = done.foldl Operation.apply s.tree
  window : Window r.2 (log ++ s.tree.recordings done)
  position_eq : position r.2 (log ++ s.tree.recordings done) = position s log
  /-- Operations are executed only at the end of the history. -/
  at_end : done ≠ [] → position s log = log.flatten.length
  /-- Operations are executed only until one has recorded a frame. -/
  silent : ∀ frames ∈ (s.tree.recordings done).dropLast, frames = []
  /-- The frame at the position is shown, or the tree at rest when the operations ran out. -/
  shown : (log ++ s.tree.recordings done).flatten[position s log]? = some r.1 ∧
      r.2.state = shownState s.settings.mode ∨
    position s log = (log ++ s.tree.recordings done).flatten.length ∧ r.2.queue = [] ∧
      r.1 = r.2.tree.settledFrame ∧ r.2.state = .converged

theorem Window.showing_some (hs : Window s log) {frame : Frame}
    (hframe : s.buffer[s.cursor]? = some frame) (queue : List Operation) :
    Showing queue s log [] (showFrom queue s) := by
  rw [showFrom_of_some hframe]
  have hlog : log ++ s.tree.recordings [] = log := List.append_nil log
  refine ⟨rfl, rfl, ?_, ?_, by simp, by simp [Tree.recordings], .inl ⟨?_, rfl⟩⟩
  · rw [hlog]
    exact hs.congr rfl rfl (Nat.le_refl _)
  · rw [hlog]
    rfl
  · rw [hlog, hs.getElem?_position, hframe]

theorem Window.showing_nil (hs : Window s log) (hframe : s.buffer[s.cursor]? = none) :
    Showing [] s log [] (showFrom [] s) := by
  rw [showFrom_nil_of_none hframe]
  have hlog : log ++ s.tree.recordings [] = log := List.append_nil log
  refine ⟨rfl, rfl, ?_, ?_, by simp, by simp [Tree.recordings], .inr ⟨?_, rfl, rfl, rfl⟩⟩
  · rw [hlog]
    exact hs.congr rfl rfl (Nat.le_refl _)
  · rw [hlog]
    rfl
  · rw [hlog]
    exact hs.position_eq_iff.2 hframe

/-- Where no frame stands at the cursor, showing goes on behind the first operation. -/
theorem Window.showing_cons (hs : Window s log) (hquiet : s.tree.recording = none)
    (hframe : s.buffer[s.cursor]? = none) {op : Operation} {queue done : List Operation}
    (h : Showing queue (s.fill op) (log ++ [(s.tree.recorded op).1]) done
      (showFrom queue (s.fill op))) :
    Showing (op :: queue) s log (op :: done) (showFrom (op :: queue) s) := by
  have hend := hs.position_eq_iff.2 hframe
  have htree : (s.fill op).tree = (s.tree.recorded op).2 := by
    rw [← Tree.record_eq]
    rfl
  have happly : (s.fill op).tree = op.apply s.tree := (Tree.record_tree hquiet op).1
  have hlog : log ++ [(s.tree.recorded op).1] ++ (s.fill op).tree.recordings done =
      log ++ s.tree.recordings (op :: done) := by
    rw [htree, Tree.recordings, List.append_assoc, List.singleton_append]
  have hstay : position (s.fill op) (log ++ [(s.tree.recorded op).1]) = position s log := by
    rw [(hs.fill op).2, hend]
  obtain ⟨hqueue, htree', hwindow, hposition, hexecuted, hsilent, hshown⟩ := h
  rw [hlog] at hwindow hposition hshown
  rw [hstay] at hposition hexecuted hshown
  rw [showFrom_cons_of_none hframe]
  refine ⟨?_, ?_, hwindow, hposition, fun _ => hend, ?_, hshown⟩
  · rw [List.cons_append, ← hqueue]
  · rw [htree', happly, List.foldl_cons]
  · -- Another operation is executed only if this one has recorded nothing.
    intro frames hframes
    cases done with
    | nil => simp [Tree.recordings] at hframes
    | cons op' done =>
        rw [Tree.recordings, Tree.recordings, List.dropLast_cons_cons, List.mem_cons] at hframes
        rcases hframes with rfl | hframes
        · have hsame := hexecuted (by simp)
          rw [hend, List.flatten_append, List.length_append, List.flatten_singleton] at hsame
          exact List.length_eq_zero_iff.1 (by omega)
        · refine hsilent frames ?_
          rw [htree, Tree.recordings]
          exact hframes

theorem Window.exists_showing (hs : Window s log) (hquiet : s.tree.recording = none)
    (queue : List Operation) : ∃ done, Showing queue s log done (showFrom queue s) := by
  induction queue generalizing s log with
  | nil =>
      cases hframe : s.buffer[s.cursor]? with
      | some frame => exact ⟨[], hs.showing_some hframe []⟩
      | none => exact ⟨[], hs.showing_nil hframe⟩
  | cons op queue ih =>
      cases hframe : s.buffer[s.cursor]? with
      | some frame => exact ⟨[], hs.showing_some hframe (op :: queue)⟩
      | none =>
          obtain ⟨hrecord, hquiet'⟩ := Tree.record_tree hquiet op
          have htree : (s.fill op).tree = op.apply s.tree := hrecord
          obtain ⟨done, hdone⟩ := ih (hs.fill op).1 (htree ▸ hquiet')
          exact ⟨op :: done, hs.showing_cons hquiet hframe hdone⟩

/-- The sequencer with its cursor moved on as far as the window goes. -/
def moved (s : Sequencer) : Sequencer :=
  { s with cursor := if s.buffer.isEmpty then s.cursor else min (s.cursor + 1) s.buffer.length }

/-- Moving the cursor on moves the position by one, as far as the history goes. -/
theorem Window.moved (hs : Window s log) :
    Window s.moved log ∧ position s.moved log = min (position s log + 1) log.flatten.length := by
  have hcursor := hs.cursor_le
  have hle := hs.suffix.length_le
  by_cases hbuffer : s.buffer = []
  · have hmoved : s.moved.cursor = s.cursor := by simp [Sequencer.moved, hbuffer]
    have hsame : s.moved.buffer = s.buffer := rfl
    refine ⟨hs.congr rfl rfl (Nat.le_of_eq hmoved), ?_⟩
    rw [position, position, hmoved, hsame]
    rw [hbuffer, List.length_nil] at hcursor ⊢
    omega
  · have hmoved : s.moved.cursor = min (s.cursor + 1) s.buffer.length := by
      simp [Sequencer.moved, hbuffer]
    refine ⟨⟨hs.suffix, hs.length_eq, ?_⟩, ?_⟩
    · rw [hmoved]
      exact Nat.min_le_right ..
    · have hsame : s.moved.buffer = s.buffer := rfl
      rw [position, position, hmoved, hsame]
      omega

/-- **What a step forward does.** The position moves on by one, as far as the history goes, and
what happens then is told by `Showing`. -/
theorem Window.showing_nextFrame (hs : Window s log) (hquiet : s.tree.recording = none) :
    Showing s.queue s.moved log s.stepped s.nextFrame := by
  obtain ⟨done, hdone⟩ := hs.moved.1.exists_showing (s := s.moved) hquiet s.queue
  have hnext : showFrom s.queue s.moved = s.nextFrame := rfl
  rw [hnext] at hdone
  have hstepped : s.stepped = done := by
    have hqueue := hdone.queue_eq
    rw [stepped]
    nth_rewrite 1 [hqueue]
    rw [hqueue, List.length_append, Nat.add_sub_cancel_right, List.take_left']
    rfl
  rw [hstepped]
  exact hdone

/-! ## Steps back -/

/-- **What a step back does.** If the frame before the position is in the window, it is shown and
the position moves back by one; otherwise nothing happens. -/
theorem Window.previousFrame (hs : Window s log) :
    (log.flatten.length - s.buffer.length < position s log →
      ∃ frame, log.flatten[position s log - 1]? = some frame ∧
        s.previousFrame = (some frame, { s with cursor := s.cursor - 1 }) ∧
        Window s.previousFrame.2 log ∧
        position s.previousFrame.2 log = position s log - 1) ∧
    (position s log ≤ log.flatten.length - s.buffer.length → s.previousFrame = (none, s)) := by
  constructor
  · intro hbefore
    obtain ⟨cursor, hcursor⟩ : ∃ cursor, s.cursor = cursor + 1 := by
      rw [position] at hbefore
      exact ⟨s.cursor - 1, by omega⟩
    have hstep : s.previousFrame = (s.buffer[cursor]?, { s with cursor }) := by
      rw [Sequencer.previousFrame, hcursor]
    have hwindow : Window { s with cursor } log :=
      hs.congr rfl rfl (hcursor ▸ Nat.le_succ cursor)
    have hposition : position { s with cursor } log = position s log - 1 := by
      simp only [position, hcursor]
      omega
    have hframe := hwindow.getElem?_position
    rw [hposition] at hframe
    have hlt : cursor < s.buffer.length := by
      have hle := hs.cursor_le
      omega
    refine ⟨s.buffer[cursor], ?_, ?_, ?_, ?_⟩
    · rw [hframe]
      exact List.getElem?_eq_getElem hlt
    · rw [hstep, List.getElem?_eq_getElem hlt, hcursor]
      rfl
    · rw [hstep]
      exact hwindow
    · rw [hstep]
      exact hposition
  · intro hbefore
    have hcursor : s.cursor = 0 := by
      rw [position] at hbefore
      omega
    rw [Sequencer.previousFrame, hcursor]

/-! ## Whole playbacks -/

/-- **What every command preserves.** The window is the end of the history, and the tree is not
recording. -/
theorem Recorded.window (hs : Recorded s log) : Window s log ∧ s.tree.recording = none := by
  induction hs with
  | ofTree ht hquiet settings => exact ⟨window_empty rfl rfl, hquiet⟩
  | @enqueue s log hs op ih =>
      have hkept : (s.enqueue op).buffer = s.buffer ∧ (s.enqueue op).settings = s.settings ∧
          (s.enqueue op).cursor = s.cursor := by
        rw [Sequencer.enqueue]
        split <;> exact ⟨rfl, rfl, rfl⟩
      obtain ⟨hbuffer, hsettings, hcursor⟩ := hkept
      refine ⟨ih.1.congr hbuffer (by rw [hsettings]) (Nat.le_of_eq hcursor), ?_⟩
      rw [tree_enqueue]
      exact ih.2
  | @nextFrame s log hs ih =>
      have hshowing := ih.1.showing_nextFrame ih.2
      refine ⟨hshowing.window, ?_⟩
      rw [hshowing.tree_eq]
      exact Tree.recording_foldl_apply ih.2 s.stepped
  | @previousFrame s log hs ih =>
      have hback := ih.1.previousFrame
      by_cases hposition : log.flatten.length - s.buffer.length < position s log
      · obtain ⟨frame, -, hstep, hwindow, -⟩ := hback.1 hposition
        exact ⟨hwindow, by rw [hstep]; exact ih.2⟩
      · rw [hback.2 (Nat.le_of_not_lt hposition)]
        exact ih
  | @finalFrame s log hs ih =>
      exact ⟨window_empty rfl rfl, Tree.recording_foldl_apply ih.2 s.queue⟩
  | replaceTree hs ht hquiet ih => exact ⟨window_empty rfl rfl, hquiet⟩
  | setMode hs mode ih => exact ⟨ih.1.congr rfl rfl (Nat.le_refl _), ih.2⟩
  | setSpeed hs speed ih => exact ⟨ih.1.congr rfl rfl (Nat.le_refl _), ih.2⟩

/-- **The window refines the history.** Take any playback and its history since the window was last
emptied. The window is the end of the history that the capacity asks for. A step forward moves the
position on by one as far as the history goes; it executes operations only at the end, and only
until one has recorded a frame, and then it shows the frame at the position, or converges with the
tree at rest when the queue ran out. A step back shows the frame before the position and moves
there, as long as that frame is in the window, and otherwise does nothing. -/
theorem Recorded.refines_history (hs : Recorded s log) :
    let history := log.flatten
    let kept := min s.settings.capacity (history.length - latest log) + latest log
    let next := s.nextFrame
    let further := s.tree.recordings s.stepped
    let moved := min (position s log + 1) history.length
    (s.buffer = history.drop (history.length - kept) ∧ kept ≤ history.length ∧
      s.cursor ≤ s.buffer.length) ∧
    (s.queue = s.stepped ++ next.2.queue ∧
      next.2.tree = s.stepped.foldl Operation.apply s.tree ∧
      position next.2 (log ++ further) = moved ∧
      (s.stepped ≠ [] → moved = history.length) ∧
      (∀ frames ∈ further.dropLast, frames = []) ∧
      (next.2.state ≠ .converged → (history ++ further.flatten)[moved]? = some next.1) ∧
      (next.2.state = .converged → next.2.queue = [] ∧ next.1 = next.2.tree.settledFrame) ∧
      (next.2.state = .converged ↔ (history ++ further.flatten).length = moved)) ∧
    (history.length - s.buffer.length < position s log →
      ∃ frame, history[position s log - 1]? = some frame ∧
        s.previousFrame = (some frame, { s with cursor := s.cursor - 1 }) ∧
        position s.previousFrame.2 log = position s log - 1) ∧
    (position s log ≤ history.length - s.buffer.length → s.previousFrame = (none, s)) := by
  intro history kept next further moved
  obtain ⟨hwindow, hquiet⟩ := hs.window
  obtain ⟨hqueue, htree, -, hposition, hend, hsilent, hshown⟩ :=
    hwindow.showing_nextFrame hquiet
  rw [hwindow.moved.2] at hposition hend hshown
  have hback := hwindow.previousFrame
  have hkept : kept = s.buffer.length := hwindow.length_eq.symm
  refine ⟨⟨?_, ?_, hwindow.cursor_le⟩, ⟨hqueue, htree, hposition, hend, hsilent, ?_⟩, ?_,
    hback.2⟩
  · rw [hkept]
    exact List.suffix_iff_eq_drop.1 hwindow.suffix
  · rw [hkept]
    exact hwindow.suffix.length_le
  · rw [List.flatten_append] at hshown
    rcases hshown with ⟨hframe, hstate⟩ | ⟨hlength, hempty, hframe, hstate⟩
    · have hplaying : next.2.state ≠ .converged := by
        rw [hstate]
        exact shownState_ne_converged _
      obtain ⟨hlt, -⟩ := List.getElem?_eq_some_iff.1 hframe
      exact ⟨fun _ => hframe, fun h => absurd h hplaying,
        fun h => absurd h hplaying, fun h => absurd h (Nat.ne_of_gt hlt)⟩
    · exact ⟨fun h => absurd hstate h, fun _ => ⟨hempty, hframe⟩, fun _ => hlength.symm,
        fun _ => hstate⟩
  · intro hbefore
    obtain ⟨frame, hframe, hstep, -, hposition'⟩ := hback.1 hbefore
    exact ⟨frame, hframe, hstep, hposition'⟩

/-- A window that keeps nothing behind the cursor, after a refused text that recorded nothing and
the insertion of a number. -/
theorem refines_history_small :
    let start := ofTree .default { mode := .step, capacity := 0 }
    let before := (start.enqueue (.add (.text "a"))).enqueue (.add (.ofInt 1))
    let s := before.nextFrame.2
    let log := before.tree.recordings before.stepped
    let history := log.flatten
    let kept := min s.settings.capacity (history.length - latest log) + latest log
    let next := s.nextFrame
    let further := s.tree.recordings s.stepped
    let moved := min (position s log + 1) history.length
    Recorded s log ∧
    (s.buffer = history.drop (history.length - kept) ∧ kept ≤ history.length ∧
      s.cursor ≤ s.buffer.length) ∧
    (s.queue = s.stepped ++ next.2.queue ∧
      next.2.tree = s.stepped.foldl Operation.apply s.tree ∧
      position next.2 (log ++ further) = moved ∧
      (s.stepped ≠ [] → moved = history.length) ∧
      (∀ frames ∈ further.dropLast, frames = []) ∧
      (next.2.state ≠ .converged → (history ++ further.flatten)[moved]? = some next.1) ∧
      (next.2.state = .converged → next.2.queue = [] ∧ next.1 = next.2.tree.settledFrame) ∧
      (next.2.state = .converged ↔ (history ++ further.flatten).length = moved)) ∧
    (history.length - s.buffer.length < position s log →
      ∃ frame, history[position s log - 1]? = some frame ∧
        s.previousFrame = (some frame, { s with cursor := s.cursor - 1 }) ∧
        position s.previousFrame.2 log = position s log - 1) ∧
    (position s log ≤ history.length - s.buffer.length → s.previousFrame = (none, s)) := by
  intro start before s log history kept next further moved
  have hstart : Recorded start [] := .ofTree (Tree.valid_empty _ _ _) rfl _
  have hs : Recorded s ([] ++ log) :=
    ((hstart.enqueue (.add (.text "a"))).enqueue (.add (.ofInt 1))).nextFrame
  rw [List.nil_append] at hs
  clear_value s log
  exact ⟨hs, hs.refines_history⟩

end Sequencer

end TracedTree
