import Mathlib.Data.List.Induction
import TracedTree.Proofs.Consistency

/-!
# Frames ahead of the cursor

As long as a playback is in sequence, ticks of the timer show the frames ahead of the cursor one
after the other. A step back moves the cursor but leaves the state of the playback as it is. So a
playback that has converged stays converged while it is taken back, and the frames that come to lie
ahead of the cursor are out of sequence: the timer does not show them. `rewound_iff` says that this
is the only way in which frames ahead are out of sequence.

## Main definitions

* `Sequencer.Command.isPassive`: the command does not get a converged playback going again.
* `Sequencer.Rewound s commands`: the commands let a playback converge and then only take it back.
-/

namespace TracedTree

namespace Sequencer

/-- The command neither queues anything nor asks for a frame other than the previous one, unless
the playback is in sequence. -/
def Command.isPassive : Command → Bool
  | .previousFrame | .tick | .setMode _ | .setSpeed _ => true
  | .enqueue _ | .nextFrame | .finalFrame => false

/-- The command is a step back. -/
def Command.isStepBack : Command → Bool
  | .previousFrame => true
  | _ => false

/-- Some first commands let the playback converge behind at least two frames, and the others only
take it back, by two frames or more. -/
def Rewound (s : Sequencer) (commands : List Command) : Prop :=
  ∃ before after, commands = before ++ after ∧ (s.play before).state = .converged ∧
    (s.play before).cursor = (s.play before).buffer.length ∧
    2 ≤ (s.play before).buffer.length ∧
    (∀ c ∈ after, c.isPassive = true) ∧ 2 ≤ after.countP Command.isStepBack

variable {s : Sequencer} {c : Command}

theorem play_append (s : Sequencer) (before after : List Command) :
    s.play (before ++ after) = (s.play before).play after :=
  List.foldl_append

/-! ## After the playback has converged -/

theorem inSequence_eq_false (hs : s.state = .converged) : s.inSequence = false := by
  simp [inSequence, hs]

/-- A passive command leaves a converged playback converged, and only a step back moves its
cursor. -/
theorem obey_passive (hs : s.state = .converged) (hc : c.isPassive = true) :
    (s.obey c).state = .converged ∧ (s.obey c).buffer = s.buffer ∧
      (s.obey c).cursor = s.cursor - [c].countP Command.isStepBack := by
  have hout := inSequence_eq_false hs
  cases c with
  | previousFrame =>
      cases hcursor : s.cursor <;>
        simp [obey, previousFrame, Command.isStepBack, hcursor, hs]
  | tick => simp [obey, tick, Command.isStepBack, hout, hs]
  | setMode mode => simp [obey, setMode, Command.isStepBack, hout, hs]
  | setSpeed speed => simp [obey, setSpeed, Command.isStepBack, hs]
  | enqueue op => cases hc
  | nextFrame => cases hc
  | finalFrame => cases hc

/-- Passive commands take a converged playback back by as many frames as there are steps back. -/
theorem play_passive (hs : s.state = .converged) {commands : List Command}
    (hcommands : ∀ c ∈ commands, c.isPassive = true) :
    (s.play commands).state = .converged ∧ (s.play commands).buffer = s.buffer ∧
      (s.play commands).cursor = s.cursor - commands.countP Command.isStepBack := by
  induction commands generalizing s with
  | nil => exact ⟨hs, rfl, rfl⟩
  | cons c commands ih =>
      obtain ⟨hc, hrest⟩ := List.forall_mem_cons.1 hcommands
      obtain ⟨hstate, hbuffer, hcursor⟩ := obey_passive hs hc
      obtain ⟨hstate', hbuffer', hcursor'⟩ := ih hstate hrest
      refine ⟨hstate', hbuffer'.trans hbuffer, ?_⟩
      change ((s.obey c).play commands).cursor = _
      have happend : c :: commands = [c] ++ commands := rfl
      rw [hcursor', hcursor, happend, List.countP_append, Nat.sub_add_eq]

/-! ## How a playback comes to be converged -/

/-- Showing a frame lets the playback converge only at the end of the window. -/
theorem cursor_showFrom (queue : List Operation) (hcursor : s.cursor ≤ s.buffer.length)
    (h : (showFrom queue s).2.state = .converged) :
    (showFrom queue s).2.cursor = (showFrom queue s).2.buffer.length := by
  induction queue generalizing s with
  | nil =>
      cases hframe : s.buffer[s.cursor]? with
      | some frame =>
          rw [showFrom_of_some hframe] at h
          exact absurd h (shownState_ne_converged _)
      | none =>
          rw [showFrom_nil_of_none hframe]
          exact Nat.le_antisymm hcursor (List.getElem?_eq_none_iff.1 hframe)
  | cons op queue ih =>
      cases hframe : s.buffer[s.cursor]? with
      | some frame =>
          rw [showFrom_of_some hframe] at h
          exact absurd h (shownState_ne_converged _)
      | none =>
          rw [showFrom_cons_of_none hframe] at h ⊢
          exact ih (by simp [fill]) h

theorem Consistent.cursor_nextFrame (hs : Consistent s)
    (h : s.nextFrame.2.state = .converged) :
    s.nextFrame.2.cursor = s.nextFrame.2.buffer.length := by
  have hmoved : s.moved.cursor ≤ s.moved.buffer.length := by
    have hcursor := hs.cursor_le
    simp only [moved]
    split <;> omega
  exact cursor_showFrom s.queue hmoved h

/-- **The step.** Where the playback has converged after a command, the command let it converge at
the end of the window, or it had converged before and the command is passive. -/
theorem Consistent.converged_obey (hs : Consistent s) (h : (s.obey c).state = .converged) :
    (s.obey c).cursor = (s.obey c).buffer.length ∨ s.state = .converged ∧ c.isPassive = true := by
  cases c with
  | enqueue op =>
      rw [Sequencer.obey, Sequencer.enqueue] at h
      split at h
      · exact absurd h (waitingState_ne _).2
      · rename_i hstate
        exact absurd h fun h => hstate (.inr h)
  | nextFrame => exact .inl (hs.cursor_nextFrame h)
  | previousFrame =>
      rw [Sequencer.obey, Sequencer.previousFrame] at h
      refine .inr ⟨?_, rfl⟩
      split at h <;> exact h
  | finalFrame => exact .inl rfl
  | tick =>
      rw [Sequencer.obey, Sequencer.tick] at h ⊢
      split at h
      · rename_i hplaying
        rw [if_pos hplaying]
        cases hmode : s.settings.mode with
        | auto =>
            rw [hmode] at h
            exact .inl (hs.cursor_nextFrame h)
        | instant => exact .inl rfl
        | step =>
            rw [hmode] at h
            exact absurd h (inSequence_iff.1 hplaying).2
      · exact .inr ⟨h, rfl⟩
  | setMode mode =>
      refine .inr ⟨?_, rfl⟩
      rw [Sequencer.obey, Sequencer.setMode] at h
      simp only at h
      split at h
      · exact absurd h (waitingState_ne _).2
      · exact h
  | setSpeed speed => exact .inr ⟨h, rfl⟩

theorem Consistent.play (hs : Consistent s) (commands : List Command) :
    Consistent (s.play commands) := by
  induction commands generalizing s with
  | nil => exact hs
  | cons c commands ih => exact ih (hs.obey c)

/-- **The run.** A playback that has converged did so at the end of the window at some time, and
since then there were only passive commands. -/
theorem exists_convergence (hs : Consistent s) (hstate : s.state ≠ .converged)
    {commands : List Command} (h : (s.play commands).state = .converged) :
    ∃ before after, commands = before ++ after ∧ (s.play before).state = .converged ∧
      (s.play before).cursor = (s.play before).buffer.length ∧
      ∀ c ∈ after, c.isPassive = true := by
  -- Backward from the last command, as far as the commands are passive.
  induction commands using List.reverseRecOn with
  | nil => exact absurd h hstate
  | append_singleton commands c ih =>
      have hplay : s.play (commands ++ [c]) = (s.play commands).obey c := play_append s commands [c]
      rw [hplay] at h
      rcases (hs.play commands).converged_obey h with hend | ⟨hbefore, hc⟩
      · exact ⟨commands ++ [c], [], by simp, by rw [hplay]; exact h, by rw [hplay]; exact hend,
          by simp⟩
      · obtain ⟨before, after, rfl, hconverged, hend, hafter⟩ := ih hbefore
        refine ⟨before, after ++ [c], by simp, hconverged, hend, ?_⟩
        rw [List.forall_mem_append, List.forall_mem_singleton]
        exact ⟨hafter, hc⟩

/-- Frames lie ahead of the cursor out of sequence exactly where a playback was rewound after it had
converged. -/
theorem rewound_iff (hs : Consistent s) (hstate : s.state = .idle) (commands : List Command) :
    Rewound s commands ↔ (s.play commands).cursor + 1 < (s.play commands).buffer.length ∧
      (s.play commands).inSequence = false := by
  constructor
  · rintro ⟨before, after, rfl, hconverged, hend, hlength, hafter, hback⟩
    obtain ⟨hstate', hbuffer, hcursor⟩ := play_passive hconverged hafter
    rw [play_append, hbuffer, hcursor, hend]
    exact ⟨by omega, inSequence_eq_false hstate'⟩
  · rintro ⟨hahead, hout⟩
    have hconverged : (s.play commands).state = .converged := by
      by_contra hne
      have hidle : (s.play commands).state = .idle := by
        by_contra hidle
        rw [inSequence_iff.2 ⟨hidle, hne⟩] at hout
        cases hout
      rw [((hs.play commands).idle hidle).2] at hahead
      exact absurd hahead (Nat.not_lt_zero _)
    obtain ⟨before, after, rfl, hbefore, hend, hafter⟩ :=
      exists_convergence hs (by simp [hstate]) hconverged
    obtain ⟨-, hbuffer, hcursor⟩ := play_passive hbefore hafter
    rw [play_append, hbuffer, hcursor, hend] at hahead
    exact ⟨before, after, rfl, hbefore, hend, by omega, hafter, by omega⟩

/-! ## Ticks -/

/-- In auto mode a tick shows the frame ahead of the cursor. -/
theorem tick_of_ahead (hplaying : s.inSequence = true) (hmode : s.settings.mode = .auto)
    (hahead : s.cursor + 1 < s.buffer.length) :
    s.tick =
      (s.buffer[s.cursor + 1]?, { s with cursor := s.cursor + 1, state := .playingAuto }) := by
  have hne : s.buffer.isEmpty = false := by
    rw [List.isEmpty_eq_false_iff]
    exact List.ne_nil_of_length_pos (by omega)
  have hmin : min (s.cursor + 1) s.buffer.length = s.cursor + 1 := by omega
  obtain ⟨frame, hframe⟩ : ∃ frame, s.buffer[s.cursor + 1]? = some frame :=
    ⟨_, List.getElem?_eq_getElem hahead⟩
  have hshow := showFrom_of_some (s := { s with cursor := s.cursor + 1 }) hframe s.queue
  simp only [tick, hplaying, if_true, hmode, nextFrame, hne, Bool.false_eq_true, if_false, hmin,
    hshow, hframe, shownState]

/-- Ticks show the frames ahead of the cursor one after the other. -/
theorem ticks_of_ahead (hplaying : s.inSequence = true) (hmode : s.settings.mode = .auto) (i : Nat)
    (hahead : s.cursor + i + 1 < s.buffer.length) :
    (s.play (List.replicate i .tick)).tick.1 = s.buffer[s.cursor + i + 1]? := by
  induction i generalizing s with
  | zero => rw [List.replicate_zero, play, List.foldl_nil, tick_of_ahead hplaying hmode hahead]
  | succ i ih =>
      have htick := tick_of_ahead hplaying hmode (by omega)
      have hrest := ih (s := s.tick.2) (by rw [htick]; rfl) (by rw [htick]; exact hmode)
        (by rw [htick]; simp only; omega)
      rw [List.replicate_succ, play, List.foldl_cons]
      change (s.tick.2.play (List.replicate i .tick)).tick.1 = _
      rw [hrest, htick, Nat.add_assoc s.cursor 1 i, Nat.add_comm 1 i]

/-- Out of sequence ticks do nothing. -/
theorem ticks_of_out (hout : s.inSequence = false) (i : Nat) :
    (s.play (List.replicate i .tick)).tick = (none, s) := by
  have htick : s.tick = (none, s) := by simp [tick, hout]
  induction i with
  | zero => exact htick
  | succ i ih =>
      rw [List.replicate_succ, play, List.foldl_cons]
      change (s.tick.2.play (List.replicate i .tick)).tick = _
      rw [htick]
      exact ih

/-- **Frames ahead of the cursor are in sequence, unless the playback was rewound.** Take any
commands on a sequencer that was just made, and let frames lie ahead of the cursor after them. The
playback is in sequence exactly if the commands did not let it converge and then only took it back.
If it is, ticks of the timer show the frames ahead in their order in auto mode; and if it is not,
they show nothing and change nothing. -/
theorem frames_ahead_in_sequence {t : Tree} (hquiet : t.recording = none)
    (settings : PlaybackSettings) (commands : List Command) :
    let s := (ofTree t settings).play commands
    s.cursor + 1 < s.buffer.length →
    (s.inSequence = true ↔ ¬ Rewound (ofTree t settings) commands) ∧
    (s.inSequence = true → s.settings.mode = .auto →
      ∀ i, s.cursor + i + 1 < s.buffer.length →
        (s.play (List.replicate i .tick)).tick.1 = s.buffer[s.cursor + i + 1]?) ∧
    (s.inSequence = false → ∀ i, (s.play (List.replicate i .tick)).tick = (none, s)) := by
  intro s hahead
  have hstart : Consistent (ofTree t settings) :=
    ⟨Nat.le_refl 0, fun _ => ⟨rfl, rfl⟩, nofun, hquiet⟩
  refine ⟨?_, fun hplaying hmode i => ticks_of_ahead hplaying hmode i, ticks_of_out⟩
  rw [rewound_iff hstart rfl, not_and, Bool.not_eq_false]
  exact ⟨fun hplaying _ => hplaying, fun h => h hahead⟩

/-- Two frames of which the first is shown: the second is in sequence. -/
theorem frames_ahead_in_sequence_small :
    let t := Tree.default
    let commands : List Command := [.enqueue (.add (.ofInt 5)), .nextFrame]
    let s := (ofTree t {}).play commands
    t.recording = none ∧ s.cursor + 1 < s.buffer.length ∧ s.settings.mode = .auto ∧
    (s.inSequence = true ↔ ¬ Rewound (ofTree t {}) commands) ∧
    (s.inSequence = true → s.settings.mode = .auto →
      ∀ i, s.cursor + i + 1 < s.buffer.length →
        (s.play (List.replicate i .tick)).tick.1 = s.buffer[s.cursor + i + 1]?) ∧
    (s.inSequence = false → ∀ i, (s.play (List.replicate i .tick)).tick = (none, s)) := by
  intro t commands s
  have hahead : s.cursor + 1 < s.buffer.length := by decide +kernel
  exact ⟨rfl, hahead, rfl, frames_ahead_in_sequence rfl {} commands hahead⟩

/-- A playback of one insertion that has converged and was taken back by both of its frames is out
of sequence, and a tick does not show the second frame. -/
theorem exists_frames_ahead_out_of_sequence :
    ∃ (t : Tree) (commands : List Command), t.Valid ∧ t.recording = none ∧
      let s := (ofTree t {}).play commands
      s.cursor + 1 < s.buffer.length ∧ s.settings.mode = .auto ∧ s.inSequence = false ∧
        s.tick.1 = none := by
  refine ⟨.default, [.enqueue (.add (.ofInt 5)), .nextFrame, .nextFrame, .nextFrame,
    .previousFrame, .previousFrame], Tree.valid_empty _ _ _, rfl, ?_, rfl, rfl, rfl⟩
  decide +kernel

end Sequencer

end TracedTree
