import TracedTree.Proofs.Playback

/-!
# The outcome of playback

What a sequencer comes to in the end is decided by its tree and its queue: the outcome is the tree
after everything queued was applied, without recording. Stepping, rewinding, ticking and
fast-forwarding move operations from the queue into the tree and leave the outcome as it is; only
queueing an operation changes it, by that operation. So two playbacks of the same operations that
both empty the queue end in the same tree.

## Main definitions

* `Sequencer.outcome`: the tree after everything queued was applied.
* `Sequencer.Command`, `Sequencer.obey`, `Sequencer.play`: what can be asked of a sequencer, and
  the sequencer after one command and after several.
* `Sequencer.enqueued`: the operations that some commands queue.
-/

namespace TracedTree

namespace Tree

/-- On a valid tree operations run one after the other without breaking off, and the tree that
they end in is the one that applying them gives. -/
theorem Valid.run_operations {t : Tree} (ht : t.Valid) (ops : List Operation) :
    (ops.foldl Operation.apply t).Valid ∧
      ∃ answers, t.run (ops.map .operate) = .ok (answers, ops.foldl Operation.apply t) := by
  induction ops generalizing t with
  | nil => exact ⟨ht, [], rfl⟩
  | cons op ops ih =>
      obtain ⟨answer, u, hop, hu, -⟩ := ht.exists_perform (.operate op)
      obtain ⟨hvalid, answers, hrest⟩ := ih hu
      rw [List.foldl_cons, apply_of_operate hop]
      exact ⟨hvalid, answer :: answers, run_cons hop hrest⟩

end Tree

namespace Sequencer

/-- The tree after everything queued was applied in its order, without recording. -/
def outcome (s : Sequencer) : Tree := s.queue.foldl Operation.apply s.tree

/-- What can be asked of a sequencer that keeps its tree. -/
inductive Command where
  | enqueue (op : Operation)
  | nextFrame
  | previousFrame
  | finalFrame
  | tick
  | setMode (mode : Mode)
  | setSpeed (speed : Float)

/-- The sequencer after a command. -/
def obey (s : Sequencer) : Command → Sequencer
  | .enqueue op => s.enqueue op
  | .nextFrame => s.nextFrame.2
  | .previousFrame => s.previousFrame.2
  | .finalFrame => s.finalFrame.2
  | .tick => s.tick.2
  | .setMode mode => s.setMode mode
  | .setSpeed speed => s.setSpeed speed

/-- The sequencer after several commands. -/
def play (s : Sequencer) (commands : List Command) : Sequencer := commands.foldl obey s

/-- The operation that a command queues. -/
def Command.operation? : Command → Option Operation
  | .enqueue op => some op
  | _ => none

/-- The operations that some commands queue, in their order. -/
def enqueued (commands : List Command) : List Operation := commands.filterMap Command.operation?

variable {s u : Sequencer}

/-! ## One command -/

theorem outcome_enqueue (s : Sequencer) (op : Operation) :
    (s.enqueue op).outcome = op.apply s.outcome := by
  simp [outcome]

/-- Operations count the same in the queue and in the tree. -/
theorem Advanced.outcome_eq (h : Advanced s u) : u.outcome = s.outcome := by
  obtain ⟨done, hqueue, htree⟩ := h
  rw [outcome, outcome, hqueue, htree, List.foldl_append]

/-- A command that queues nothing only lets the playback advance. -/
theorem advanced_obey (hs : s.tree.recording = none) {c : Command} (hc : c.operation? = none) :
    Advanced s (s.obey c) := by
  cases c with
  | enqueue op => cases hc
  | nextFrame => exact advanced_nextFrame hs
  | previousFrame => exact advanced_previousFrame s
  | finalFrame => exact advanced_finalFrame s
  | tick => exact advanced_tick hs
  | setMode mode => exact .refl s
  | setSpeed speed => exact .refl s

theorem Command.eq_enqueue {c : Command} {op : Operation} (hc : c.operation? = some op) :
    c = .enqueue op := by
  cases c with
  | enqueue op' => rw [Option.some.inj hc]
  | _ => cases hc

/-- **What one command does.** The outcome changes by the operation that the command queues, if
any, and the tree by the operations that it executes. -/
theorem outcome_obey (hs : s.tree.recording = none) (c : Command) :
    (s.obey c).outcome = c.operation?.toList.foldl Operation.apply s.outcome ∧
      ∃ done : List Operation, (s.obey c).tree = done.foldl Operation.apply s.tree := by
  cases hc : c.operation? with
  | none =>
      have hadvanced := advanced_obey hs hc
      have houtcome := hadvanced.outcome_eq
      obtain ⟨done, -, htree⟩ := hadvanced
      exact ⟨houtcome, done, htree⟩
  | some op =>
      obtain rfl := Command.eq_enqueue hc
      exact ⟨outcome_enqueue s op, [], tree_enqueue s op⟩

/-! ## Whole playbacks -/

theorem enqueued_cons (c : Command) (commands : List Command) :
    enqueued (c :: commands) = c.operation?.toList ++ enqueued commands := by
  cases h : c.operation? <;> simp [enqueued, h]

/-- **What a playback does.** The outcome changes by the queued operations in their order, and the
tree by the executed ones. -/
theorem outcome_play (hs : s.tree.recording = none) (commands : List Command) :
    (s.play commands).outcome = (enqueued commands).foldl Operation.apply s.outcome ∧
      ∃ done : List Operation, (s.play commands).tree = done.foldl Operation.apply s.tree := by
  induction commands generalizing s with
  | nil => exact ⟨rfl, [], rfl⟩
  | cons c commands ih =>
      obtain ⟨houtcome, done, htree⟩ := outcome_obey hs c
      have hquiet : (s.obey c).tree.recording = none := by
        rw [htree]
        exact Tree.recording_foldl_apply hs done
      obtain ⟨hrest, more, hmore⟩ := ih hquiet
      refine ⟨?_, done ++ more, ?_⟩
      · rw [enqueued_cons, List.foldl_append, ← houtcome]
        exact hrest
      · rw [List.foldl_append, ← htree]
        exact hmore

/-- **Playback does not change the outcome.** Take any sequencer whose tree is valid and records
nothing, and play it back by any commands. What is queued then can be carried out, an insertion of
a key of the wrong kind being refused, and leads to the outcome. No step changes the outcome, and
queueing an operation applies it to the outcome. So the outcome is that of the beginning with the
operations applied that were queued since, and once the queue is empty the tree is this outcome. -/
theorem playback_keeps_outcome (hs : s.tree.Valid) (hquiet : s.tree.recording = none)
    (commands : List Command) :
    let u := s.play commands
    (∃ answers, u.tree.run (u.queue.map .operate) = .ok (answers, u.outcome)) ∧
    (∀ op, (u.enqueue op).outcome = op.apply u.outcome) ∧
    u.nextFrame.2.outcome = u.outcome ∧
    u.previousFrame.2.outcome = u.outcome ∧
    u.tick.2.outcome = u.outcome ∧
    u.finalFrame.2.outcome = u.outcome ∧
    (∀ mode, (u.setMode mode).outcome = u.outcome) ∧
    (∀ speed, (u.setSpeed speed).outcome = u.outcome) ∧
    u.outcome = (enqueued commands).foldl Operation.apply s.outcome ∧
    (u.queue = [] → u.tree = (enqueued commands).foldl Operation.apply s.outcome) := by
  intro u
  obtain ⟨houtcome, done, htree⟩ := outcome_play hquiet commands
  have hvalid : u.tree.Valid := htree ▸ (hs.run_operations done).1
  have hu : u.tree.recording = none := htree ▸ Tree.recording_foldl_apply hquiet done
  have hkeep : ∀ c : Command, c.operation? = none → (u.obey c).outcome = u.outcome :=
    fun c hc => (advanced_obey hu hc).outcome_eq
  refine ⟨(hvalid.run_operations u.queue).2, outcome_enqueue u, hkeep .nextFrame rfl,
    hkeep .previousFrame rfl, hkeep .tick rfl, hkeep .finalFrame rfl,
    fun mode => hkeep (.setMode mode) rfl, fun speed => hkeep (.setSpeed speed) rfl,
    houtcome, fun hempty => ?_⟩
  have hrest : u.outcome = u.tree := by rw [outcome, hempty, List.foldl_nil]
  rw [← hrest]
  exact houtcome

/-- A playback that steps forward and back, refuses a text, changes the mode and ends by ticking,
with a window that keeps one frame. -/
theorem playback_keeps_outcome_small :
    let s := ofTree .default { mode := .step, capacity := 1 }
    let commands : List Command := [.enqueue (.add (.ofInt 1)), .enqueue (.add (.text "a")),
      .nextFrame, .previousFrame, .enqueue (.remove (.ofInt 1)), .setMode .instant, .tick]
    let u := s.play commands
    s.tree.Valid ∧ s.tree.recording = none ∧
    (∃ answers, u.tree.run (u.queue.map .operate) = .ok (answers, u.outcome)) ∧
    (∀ op, (u.enqueue op).outcome = op.apply u.outcome) ∧
    u.nextFrame.2.outcome = u.outcome ∧
    u.previousFrame.2.outcome = u.outcome ∧
    u.tick.2.outcome = u.outcome ∧
    u.finalFrame.2.outcome = u.outcome ∧
    (∀ mode, (u.setMode mode).outcome = u.outcome) ∧
    (∀ speed, (u.setSpeed speed).outcome = u.outcome) ∧
    u.outcome = (enqueued commands).foldl Operation.apply s.outcome ∧
    (u.queue = [] → u.tree = (enqueued commands).foldl Operation.apply s.outcome) := by
  intro s commands u
  have hs : s.tree.Valid := Tree.valid_empty _ _ _
  exact ⟨hs, rfl, playback_keeps_outcome hs rfl commands⟩

end Sequencer

end TracedTree
