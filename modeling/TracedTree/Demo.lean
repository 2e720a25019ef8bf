import TracedTree.Session
import TracedTree.Tree.Stats

/-!
# The demonstration

Every preset is played step by step and described in lines of text: one line for each frame, how
far one can step back at the end, and the shape of the tree. A last part queues random keys and
plays them at once.
-/

namespace TracedTree.Demo

/-- A text with blanks in front up to a width. -/
def padLeft (width : Nat) (text : String) : String :=
  String.ofList (List.replicate (width - text.length) ' ') ++ text

/-- A text with blanks behind up to a width. -/
def padRight (width : Nat) (text : String) : String :=
  text ++ String.ofList (List.replicate (width - text.length) ' ')

/-- The messages at the nodes of a frame. -/
def describe (frame : Frame) : String :=
  let messages := (frame.highlight.nodes.values.map (·.message)).filter (!·.isEmpty)
  if messages.isEmpty then "-" else String.intercalate " / " messages

/-- The line of a frame. -/
def frameLine (step : Nat) (frame : Frame) : String :=
  let c := frame.counters
  padLeft 3 (toString step) ++ ": " ++ padRight 40 (describe frame) ++
    s!" splits={c.splits} merges={c.merges} rotations={c.smallRotations}/{c.bigRotations}"

/-- Step forward while the playback has not converged, and describe every frame. The fuel bounds
the number of steps. -/
def playForward : Nat → Nat → Session → List String × Session
  | 0, _, s => ([], s)
  | fuel + 1, step, s =>
    if s.sequencer.inSequence then
      let (frame, s) := s.nextFrame
      let (lines, s) := playForward fuel (step + 1) s
      (frameLine step frame :: lines, s)
    else ([], s)

/-- How many steps back lead to a frame. -/
def stepsBack : Nat → Session → Nat
  | 0, _ => 0
  | fuel + 1, s =>
    match s.previousFrame with
    | (some _, s) => stepsBack fuel s + 1
    | (none, _) => 0

/-- The number of steps after which a playback is cut off. -/
def maxSteps : Nat := 10000

/-- The line for the shape of a tree. -/
def statsLine (t : Tree) : String :=
  let stats := t.stats
  s!"Height {stats.height}, {stats.nodeCount} nodes, {stats.keyCount} keys, filling degree " ++
    stats.fillingDegree.textTwoPlaces

/-- The lines under a title. -/
def underTitle (title : String) (lines : List String) : List String :=
  ["", title, "------------------------------"] ++ lines

/-- The lines of a preset. -/
def presetLines (p : Preset) : Except Error (List String) := do
  let loaded ← (← Session.create {}).loadPreset p
  let (lines, s) := playForward maxSteps 1 (loaded.setMode .step)
  let back := s!"Frames available for backward replay: {stepsBack maxSteps s}"
  return lines ++ [back, statsLine s.tree] ++ s.tree.outline.splitOn "\n"

/-- The lines before the part with random keys, the blank line in front of it included. -/
def steadyLines : List String :=
  ["B-tree Frame Sequencer Demo", "==========================="] ++
    Preset.all.flatMap (fun p =>
      underTitle (p.title ++ " preset") ((presetLines p).toOption.getD [])) ++ [""]

/-- The lines of the part with random keys. -/
def generatedLines (supply more : Supply) : Except Error (List String) := do
  let s := (← Session.seeded { initialKeys := 10 } supply).setMode .instant
  let (batch, s) ← s.generate 15 .random .number more
  let queued :=
    s!"Queued {batch.keys.length} keys between {batch.low.label} and {batch.high.label}"
  let (_, s) := s.tick
  let c := s.tree.counters
  let counters := [("splits", c.splits), ("merges", c.merges),
    ("small_rotations", c.smallRotations), ("big_rotations", c.bigRotations)]
  let listed := String.intercalate ", " (counters.map fun (name, n) => name ++ ": " ++ toString n)
  return [queued,
    s!"Settled tree with {s.tree.size} keys, counters Counters " ++ "\x7b " ++ listed ++ " \x7d",
    s.exportTree.getD "(empty tree)"]

end TracedTree.Demo
