import TracedTree.Batch.Generate
import TracedTree.Playback.Sequencer
import TracedTree.Session.Preset
import TracedTree.Session.Settings
import TracedTree.Tree.Export
import TracedTree.Tree.Order

/-!
# Sessions

A session is a sequencer with the commands that feed its queue. Commands are checked against the
future keys, those that the tree will hold when the queue has been worked off, so input is judged
by what will be there and not by what is shown at the moment. A command that is refused leaves
the session as it was.
-/

namespace TracedTree

/-- A sequencer with the settings for its tree and its commands. -/
structure Session where
  settings : SessionSettings
  sequencer : Sequencer

namespace Session

/-- The tree of the session. -/
def tree (s : Session) : Tree := s.sequencer.tree

/-- A session with a given tree. -/
def ofTree (settings : SessionSettings) (tree : Tree) : Session :=
  ⟨settings, .ofTree tree settings.playback⟩

/-- A session with an empty number tree. -/
def create (settings : SessionSettings) : Except Error Session := do
  return ofTree settings (← Tree.ofMaxKeys settings.maxKeys .number)

/-- A session whose tree holds random numbers from the start. -/
def seeded (settings : SessionSettings) (supply : Supply) : Except Error Session := do
  let tree ← Tree.ofMaxKeys settings.maxKeys .number
  if settings.initialKeys = 0 then return ofTree settings tree
  let batch ← Batch.generate settings.initialKeys .random .number [] false supply
  return ofTree settings (← tree.addAll batch.keys).resetCounters

/-! ## The tree -/

/-- Put another tree in place. Queue and frames start over. -/
def replace (s : Session) (tree : Tree) : Session :=
  ofTree { s.settings with maxKeys := tree.maxKeys } tree

/-- An empty tree of the same capacity. -/
def freshTree (s : Session) (kind : Kind) : Tree :=
  .empty s.tree.maxKeys kind s.tree.two_le_maxKeys

/-- Start over with an empty number tree of the same capacity. -/
def reset (s : Session) : Session := s.replace (s.freshTree .number)

/-- Rebuild the tree with another order. The queue stays. -/
def setOrder (s : Session) (order : Nat) (supply : Supply) : Except Error Session := do
  checkOrder order
  let maxKeys := order - 1
  if maxKeys = s.tree.maxKeys then return s
  let rebuilt ← s.tree.rebuild maxKeys supply
  return ⟨{ s.settings with maxKeys }, s.sequencer.replaceTree rebuilt⟩

/-- Rebuild the tree with an order that was typed in. -/
def setOrderText (s : Session) (raw : String) (supply : Supply) : Except Error Session := do
  let maxKeys ← readOrder raw
  s.setOrder (maxKeys + 1) supply

/-- Put an imported tree in place. -/
def importTree (s : Session) (text : String) : Except Error Session := do
  return s.replace (← Tree.importText text)

/-- The text of the tree, unless the tree is empty. -/
def exportTree (s : Session) : Option String :=
  if s.tree.isEmpty then none else some s.tree.exportText

/-! ## Settings -/

/-- Change the mode of playback. -/
def setMode (s : Session) (mode : Mode) : Session :=
  ⟨{ s.settings with playback := { s.settings.playback with mode } }, s.sequencer.setMode mode⟩

/-- Change the speed of playback. -/
def setSpeed (s : Session) (speed : Float) : Session :=
  ⟨{ s.settings with playback := { s.settings.playback with speed } },
    s.sequencer.setSpeed speed⟩

/-- Allow or refuse duplicate keys. -/
def setAllowDuplicates (s : Session) (allowDuplicates : Bool) : Session :=
  { s with settings := { s.settings with allowDuplicates } }

/-- Put the tree of a preset in place and queue its operations for automatic playback. -/
def loadPreset (s : Session) (p : Preset) : Except Error Session := do
  let tree ← p.document.tree.mapError .malformedImport
  let s := ((s.replace tree).setMode .auto).setSpeed PlaybackSettings.defaultSpeed
  return { s with sequencer := (s.sequencer.addKeys p.adds).removeKeys p.removes }

/-! ## Keys -/

/-- The keys after one more operation of the queue: an added key comes last, and of a removed key
no copy stays. -/
def foresee (keys : List Key) : Operation → List Key
  | .add k => keys ++ [k]
  | .remove k => keys.filter (!·.same k)

/-- The keys that the tree will hold when the queue has been worked off. -/
def futureKeys (s : Session) : List Key := s.sequencer.queue.foldl foresee s.tree.keys

/-- There is nothing to come: the tree is empty and so is the queue. -/
def isBare (s : Session) : Bool := s.tree.isEmpty && s.sequencer.queue.isEmpty

/-- The kind that a new key must have: that of the last future key, or that of the tree unless
the session is bare. -/
def expectedKind (s : Session) (future : List Key) : Option Kind :=
  match future.getLast? with
  | some key => some key.kind
  | none => if s.isBare then none else some s.tree.kind

/-- Check input for an insertion. -/
def checkAdd (s : Session) (raw : String) : Except Error Key := do
  if raw.isEmpty then throw (.invalidKey .empty)
  let key := Key.ofInput raw
  let future := s.futureKeys
  if let some expected := s.expectedKind future then
    if key.kind ≠ expected then throw (.kindMismatch expected key.kind)
  if !s.settings.allowDuplicates && future.any key.same then
    throw (.invalidKey (.duplicate raw))
  return key

/-- Check input for a removal. -/
def checkRemove (s : Session) (raw : String) : Except Error Key :=
  let key := Key.ofInput raw
  if s.futureKeys.any key.same then .ok key else .error (.invalidKey (.absent key))

/-- A bare session takes over the kind of its first key. -/
def adoptKind (s : Session) (kind : Kind) : Session :=
  if s.isBare && s.tree.kind != kind then
    { s with sequencer := s.sequencer.replaceTree (s.freshTree kind) }
  else s

/-- Queue the insertion of keys of a kind. -/
def queueKeys (s : Session) (kind : Kind) (keys : List Key) : Session :=
  let s := s.adoptKind kind
  { s with sequencer := s.sequencer.addKeys keys }

/-- Queue the insertion of a key that was typed in. -/
def addKey (s : Session) (raw : String) : Except Error (Key × Session) := do
  let key ← s.checkAdd raw
  return (key, s.queueKeys key.kind [key])

/-- Queue the removal of a key that was typed in. -/
def removeKey (s : Session) (raw : String) : Except Error (Key × Session) := do
  let key ← s.checkRemove raw
  return (key, { s with sequencer := s.sequencer.removeKeys [key] })

/-- Generate keys next to the future ones and queue them. The kind that is asked for counts only
when any kind may come. -/
def generate (s : Session) (count : Nat) (order : BatchOrder) (kind : Kind) (supply : Supply) :
    Except Error (Batch × Session) := do
  let future := s.futureKeys.mergeSort Key.le
  let kind := (s.expectedKind future).getD kind
  let batch ← Batch.generate count order kind future s.settings.allowDuplicates supply
  return (batch, s.queueKeys kind batch.keys)

/-! ## Playback -/

/-- Step forward by one frame. -/
def nextFrame (s : Session) : Frame × Session :=
  let (frame, sequencer) := s.sequencer.nextFrame
  (frame, { s with sequencer })

/-- Step back by one frame. -/
def previousFrame (s : Session) : Option Frame × Session :=
  let (frame, sequencer) := s.sequencer.previousFrame
  (frame, { s with sequencer })

/-- Execute everything that is queued. -/
def finalFrame (s : Session) : Frame × Session :=
  let (frame, sequencer) := s.sequencer.finalFrame
  (frame, { s with sequencer })

/-- What a tick of the timer shows. -/
def tick (s : Session) : Option Frame × Session :=
  let (frame, sequencer) := s.sequencer.tick
  (frame, { s with sequencer })

end Session

end TracedTree
