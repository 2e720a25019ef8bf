import TracedTree.Playback.Settings

/-!
# Session settings

The settings of a session, and their JSON form, in which every setting has a default.
-/

namespace TracedTree

/-- The settings of a session. -/
structure SessionSettings where
  maxKeys : Nat := 4
  /-- The random keys that a seeded session starts with. -/
  initialKeys : Nat := 25
  allowDuplicates : Bool := false
  playback : PlaybackSettings := {}

/-- The JSON value of session settings. -/
def SessionSettings.toJson (s : SessionSettings) : Json :=
  .record [
    ("maxKeys", .ofNat s.maxKeys),
    ("initialKeys", .ofNat s.initialKeys),
    ("allowDuplicates", .bool s.allowDuplicates),
    ("sequencer", s.playback.toJson)]

namespace Decoder

/-- Read session settings. -/
def sessionSettings : Decoder SessionSettings :=
  record ["maxKeys", "initialKeys", "allowDuplicates", "sequencer"] fun
    | levels, [maxKeys, initialKeys, allowDuplicates, playback] => do
      return {
        maxKeys := ← optional word levels maxKeys 4
        initialKeys := ← optional word levels initialKeys 25
        allowDuplicates := ← optional bool levels allowDuplicates false
        playback := ← optional playbackSettings levels playback {} }
    | _, _ => none

end Decoder

end TracedTree
