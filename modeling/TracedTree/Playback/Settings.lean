import TracedTree.Error
import TracedTree.Json.Decoder

/-!
# Playback settings

How queued operations are played back, and the settings as JSON. A speed runs from zero, the
slowest, to four, at which frames follow each other without delay; other speeds are kept as they
are. In JSON every setting has a default.
-/

namespace TracedTree

/-- How queued operations are played back. -/
inductive Mode where
  /-- One frame for every explicit step. -/
  | step
  /-- One frame for every tick of a timer. -/
  | auto
  /-- Only the final frame. -/
  | instant
deriving DecidableEq, Repr

/-- The name of a mode. -/
def Mode.name : Mode → String
  | step => "step"
  | auto => "auto"
  | instant => "instant"

/-- The mode with a given name. -/
def Mode.ofName? (name : String) : Option Mode :=
  [step, auto, instant].find? (·.name == name)

/-- The mode with a given name, or an error that shows the name. -/
def Mode.ofName (name : String) : Except Error Mode :=
  (ofName? name).elim (.error (.unknownMode name)) .ok

/-- The settings of a playback. -/
structure PlaybackSettings where
  mode : Mode := .auto
  speed : Float := 2
  /-- The frames that are kept behind the cursor when the next operation is recorded. -/
  capacity : Nat := 50

namespace PlaybackSettings

/-- The speed of settings for which none is asked. -/
def defaultSpeed : Float := 2

/-- The delay between two frames in milliseconds: four seconds at speed zero, one second less for
each unit of speed, and never below zero. -/
def cadence (s : PlaybackSettings) : Nat := (4000 - s.speed * 1000).toUInt64.toNat

end PlaybackSettings

/-- The JSON value of a float; a value that is not finite has none. -/
def Json.ofFloat (x : Float) : Json :=
  match Number.ofFloat? x with
  | some n => .number n.numeral.toList
  | none => .null

/-- The JSON value of playback settings. -/
def PlaybackSettings.toJson (s : PlaybackSettings) : Json :=
  .record [("mode", .ofText s.mode.name), ("speed", .ofFloat s.speed),
    ("bufferCapacity", .ofNat s.capacity)]

namespace Decoder

/-- Read playback settings. -/
def playbackSettings : Decoder PlaybackSettings :=
  record ["mode", "speed", "bufferCapacity"] fun
    | levels, [mode, speed, capacity] => do
      return {
        mode := ← optional (choice Mode.ofName?) levels mode .auto
        speed := ← optional (fun n j => (number n j).map Number.toFloat) levels speed
          PlaybackSettings.defaultSpeed
        capacity := ← optional word levels capacity 50 }
    | _, _ => none

end Decoder

end TracedTree
