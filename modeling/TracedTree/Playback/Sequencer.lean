import TracedTree.Playback.Settings
import TracedTree.Tree

/-!
# Sequencers

A sequencer owns a tree, the operations that wait for it, and a window of frames with a cursor. An
operation is executed, under recording, when the cursor moves past the last frame; some frames
before it are kept for steps back. Fast-forwarding executes everything that waits without
recording.
-/

namespace TracedTree

/-- An operation that waits for a tree. -/
inductive Operation where
  | add (key : Key)
  | remove (key : Key)
deriving DecidableEq

namespace Operation

/-- The key of an operation. -/
def key : Operation → Key
  | add k => k
  | remove k => k

/-- How an operation is shown. -/
def label : Operation → String
  | add k => "add " ++ k.label
  | remove k => "remove " ++ k.label

/-- The tree after the operation. An operation that fails leaves the tree as it was. -/
def apply (t : Tree) : Operation → Tree
  | add k => (t.add k).toOption.getD t
  | remove k => ((t.remove k).toOption.map (·.2)).getD t

/-- The tree after the operation, and the frames that it recorded. -/
def record (op : Operation) (t : Tree) : List Frame × Tree :=
  (op.apply t.startRecording).finishRecording

end Operation

/-- What a playback is doing. -/
inductive PlaybackState where
  /-- Nothing was queued yet. -/
  | idle
  /-- Work is queued for instant playback. -/
  | buffering
  | playingStep
  | playingAuto
  /-- The queue ran out and the tree at rest was shown. -/
  | converged
deriving DecidableEq, Repr

/-- A tree with the operations that wait for it and the frames recorded so far. -/
structure Sequencer where
  tree : Tree
  queue : List Operation
  buffer : List Frame
  cursor : Nat
  state : PlaybackState
  settings : PlaybackSettings

namespace Sequencer

/-- A sequencer to which nothing was given yet. -/
def ofTree (tree : Tree) (settings : PlaybackSettings) : Sequencer :=
  ⟨tree, [], [], 0, .idle, settings⟩

/-- The playback has not converged although there was something to play. -/
def inSequence (s : Sequencer) : Bool :=
  s.state == .buffering || s.state == .playingStep || s.state == .playingAuto

/-- There is a frame before the cursor. -/
def hasPrevious (s : Sequencer) : Bool := 0 < s.cursor

/-- The state in which queued work waits in a mode. -/
def waitingState : Mode → PlaybackState
  | .step => .playingStep
  | .auto => .playingAuto
  | .instant => .buffering

/-- The state after a frame was shown in a mode. -/
def shownState : Mode → PlaybackState
  | .step => .playingStep
  | _ => .playingAuto

/-! ## The queue -/

/-- Put an operation at the end of the queue. -/
def enqueue (s : Sequencer) (op : Operation) : Sequencer :=
  let s := { s with queue := s.queue ++ [op] }
  if s.state = .idle ∨ s.state = .converged then
    { s with state := waitingState s.settings.mode }
  else s

/-- Queue the insertion of some keys. -/
def addKeys (s : Sequencer) (keys : List Key) : Sequencer :=
  keys.foldl (fun s k => s.enqueue (.add k)) s

/-- Queue the removal of some keys. -/
def removeKeys (s : Sequencer) (keys : List Key) : Sequencer :=
  keys.foldl (fun s k => s.enqueue (.remove k)) s

/-! ## Playback -/

/-- Execute an operation under recording. Of the frames before, only the last ones are kept, as
many as the capacity, and the cursor comes to stand behind them. -/
def fill (s : Sequencer) (op : Operation) : Sequencer :=
  let kept := s.buffer.drop (s.buffer.length - s.settings.capacity)
  let (frames, tree) := op.record s.tree
  { s with tree, buffer := kept ++ frames, cursor := kept.length }

/-- Execute operations until there is a frame at the cursor, and show it. When the operations run
out the playback converges and shows the tree at rest. -/
def showFrom : List Operation → Sequencer → Frame × Sequencer
  | [], s =>
    match s.buffer[s.cursor]? with
    | some frame => (frame, { s with queue := [], state := shownState s.settings.mode })
    | none => (s.tree.settledFrame, { s with queue := [], state := .converged })
  | op :: rest, s =>
    match s.buffer[s.cursor]? with
    | some frame => (frame, { s with queue := op :: rest, state := shownState s.settings.mode })
    | none => showFrom rest (s.fill op)

/-- Step forward by one frame. -/
def nextFrame (s : Sequencer) : Frame × Sequencer :=
  let cursor := if s.buffer.isEmpty then s.cursor else min (s.cursor + 1) s.buffer.length
  showFrom s.queue { s with cursor }

/-- Step back by one frame, if there is one in the window. -/
def previousFrame (s : Sequencer) : Option Frame × Sequencer :=
  match s.cursor with
  | 0 => (none, s)
  | cursor + 1 => (s.buffer[cursor]?, { s with cursor })

/-- Execute everything that is queued without recording, and show the tree at rest. -/
def finalFrame (s : Sequencer) : Frame × Sequencer :=
  let tree := s.queue.foldl Operation.apply s.tree
  (tree.settledFrame, { s with tree, queue := [], buffer := [], cursor := 0, state := .converged })

/-- What a tick of the timer shows: the next frame in auto mode and the final frame in instant
mode, as long as the playback has not converged. -/
def tick (s : Sequencer) : Option Frame × Sequencer :=
  if s.inSequence then
    match s.settings.mode with
    | .auto => let (frame, s) := s.nextFrame; (some frame, s)
    | .instant => let (frame, s) := s.finalFrame; (some frame, s)
    | .step => (none, s)
  else (none, s)

/-! ## Changes -/

/-- Put another tree in the place of the old one. The frames of the old one are dropped, and the
queue stays. -/
def replaceTree (s : Sequencer) (tree : Tree) : Sequencer :=
  { s with tree, buffer := [], cursor := 0 }

/-- Change the mode. -/
def setMode (s : Sequencer) (mode : Mode) : Sequencer :=
  { s with
    settings := { s.settings with mode }
    state := if s.inSequence then waitingState mode else s.state }

/-- Change the speed. -/
def setSpeed (s : Sequencer) (speed : Float) : Sequencer :=
  { s with settings := { s.settings with speed } }

end Sequencer

end TracedTree
