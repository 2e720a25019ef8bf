import TracedTree.Proofs.Session

/-!
# Trees put in place by hand

A session may be given another tree at any time, also one in the middle of a recording. What such a
tree has recorded so far comes before the frames of the next operation that is shown, and is gone
then: it changes what is seen, but neither keys nor queue. So a session into which only valid trees
are put is sound apart from the recording, and commands cannot tell it from the session without it.

## Main definitions

* `Session.Led Allowed`: the sessions that commands lead to, where allowed trees may be put in
  place by hand.
* `Session.quiet`: the session without what its tree is recording.

## Main statements

* `Session.quiet_obey`: outside of playback, commands do not depend on the recording.
* `Session.Led.sound`: sessions into which only valid trees are put are sound apart from it.
-/

namespace TracedTree

/-! ## Operations -/

namespace Tree

variable {t : Tree}

theorem quiet_apply (t : Tree) (op : Operation) : (op.apply t).quiet = op.apply t.quiet := by
  rw [apply_eq, apply_eq]
  rcases operate_uniform t op with ⟨e, he⟩ | ⟨answer, root, ledger, frames, hop⟩
  · have hself : t.operate op = .error e := he t.recording
    have hquiet : t.quiet.operate op = .error e := he none
    rw [hself, hquiet]
    rfl
  · have hself : t.operate op = .ok (answer, { t with
        root, ledger, recording := t.recording.map (· ++ frames) }) := hop t.recording
    have hquiet : t.quiet.operate op =
        .ok (answer, { t with root, ledger, recording := none }) := hop none
    rw [hself, hquiet]
    rfl

/-- Resetting the counters touches nothing that validity is about. -/
theorem Valid.resetCounters (ht : t.Valid) : t.resetCounters.Valid :=
  ⟨ht.fits, ht.root_keys, ht.capacity, ht.occupancy, ht.kinds, ht.ascending, ht.level,
    ht.ids_nodup, ht.ids_le⟩

/-- An operation that is recorded leaves a tree that records nothing. -/
theorem record_quiet (t : Tree) (op : Operation) : (op.record t).2 = op.apply t.quiet :=
  quiet_apply t.startRecording op

theorem quiet_foldl_apply (t : Tree) (ops : List Operation) :
    (ops.foldl Operation.apply t).quiet = ops.foldl Operation.apply t.quiet := by
  induction ops generalizing t with
  | nil => rfl
  | cons op ops ih => rw [List.foldl_cons, List.foldl_cons, ih, quiet_apply]

end Tree

/-! ## Playback -/

namespace Sequencer

variable {s : Sequencer}

/-- The sequencer without what its tree is recording. -/
def quiet (s : Sequencer) : Sequencer := { s with tree := s.tree.quiet }

theorem quiet_enqueue (s : Sequencer) (op : Operation) :
    (s.enqueue op).quiet = s.quiet.enqueue op := by
  rw [enqueue, enqueue]
  split <;> rename_i h
  · exact (if_pos h).symm
  · exact (if_neg h).symm

theorem quiet_foldl_enqueue (s : Sequencer) (ops : List Operation) :
    (ops.foldl enqueue s).quiet = ops.foldl enqueue s.quiet := by
  induction ops generalizing s with
  | nil => rfl
  | cons op ops ih => rw [List.foldl_cons, List.foldl_cons, ih, quiet_enqueue]

theorem quiet_addKeys (s : Sequencer) (keys : List Key) :
    (s.addKeys keys).quiet = s.quiet.addKeys keys := by
  rw [addKeys_eq, addKeys_eq, quiet_foldl_enqueue]

theorem quiet_removeKeys (s : Sequencer) (keys : List Key) :
    (s.removeKeys keys).quiet = s.quiet.removeKeys keys := by
  rw [removeKeys_eq, removeKeys_eq, quiet_foldl_enqueue]

/-- The first operation that is shown ends the recording. -/
theorem advanced_quiet_showFrom (queue : List Operation) (s : Sequencer) :
    ∃ done, queue = done ++ (showFrom queue s).2.queue ∧
      (showFrom queue s).2.tree.quiet = done.foldl Operation.apply s.tree.quiet := by
  cases queue with
  | nil =>
      rw [showFrom]
      split <;> exact ⟨[], rfl, rfl⟩
  | cons op queue =>
      rw [showFrom]
      split
      · exact ⟨[], rfl, rfl⟩
      · have htree : (s.fill op).tree = op.apply s.tree.quiet := Tree.record_quiet s.tree op
        have hquiet : (s.fill op).tree.recording = none := by
          rw [htree, ← Tree.quiet_apply]
          rfl
        obtain ⟨done, hqueue, hdone⟩ := advanced_showFrom queue hquiet
        refine ⟨op :: done, ?_, ?_⟩
        · rw [List.cons_append, ← hqueue]
        · rw [hdone, Tree.quiet_foldl_apply, htree, Tree.quiet_apply]
          rfl

theorem advanced_quiet_nextFrame (s : Sequencer) : Advanced s.quiet s.nextFrame.2.quiet :=
  advanced_quiet_showFrom s.queue _

theorem advanced_quiet_previousFrame (s : Sequencer) :
    Advanced s.quiet s.previousFrame.2.quiet := by
  rw [previousFrame]
  split <;> exact .refl _

theorem advanced_quiet_finalFrame (s : Sequencer) : Advanced s.quiet s.finalFrame.2.quiet :=
  ⟨s.queue, (List.append_nil _).symm, Tree.quiet_foldl_apply s.tree s.queue⟩

theorem advanced_quiet_tick (s : Sequencer) : Advanced s.quiet s.tick.2.quiet := by
  rcases s.tick_cases with h | h | h <;> rw [h]
  · exact advanced_quiet_nextFrame s
  · exact advanced_quiet_finalFrame s
  · exact .refl _

end Sequencer

namespace Session

variable {s u : Session}

/-! ## Commands -/

/-- The session without what its tree is recording. -/
def quiet (s : Session) : Session := { s with sequencer := s.sequencer.quiet }

/-- The command shows frames. -/
def Command.isPlayback : Command → Bool
  | nextFrame | previousFrame | finalFrame | tick => true
  | _ => false

theorem quiet_queueKeys (s : Session) (kind : Kind) (keys : List Key) :
    (s.queueKeys kind keys).quiet = s.quiet.queueKeys kind keys := by
  have hadopt : (s.adoptKind kind).quiet = s.quiet.adoptKind kind := by
    rw [adoptKind, adoptKind]
    split <;> rename_i h
    · exact (if_pos h).symm
    · exact (if_neg h).symm
  rw [queueKeys, queueKeys, ← hadopt]
  simp only [quiet, Sequencer.quiet_addKeys]

theorem quiet_setOrder (s : Session) (order : Nat) (supply : Supply) :
    ((s.setOrder order supply).toOption.getD s).quiet =
      ((s.quiet.setOrder order supply).toOption.getD s.quiet).quiet := by
  have hrebuild : s.quiet.tree.rebuild (order - 1) supply = s.tree.rebuild (order - 1) supply := rfl
  have hmax : s.quiet.tree.maxKeys = s.tree.maxKeys := rfl
  rw [setOrder, setOrder]
  cases checkOrder order with
  | error e => rfl
  | ok _ =>
      simp only [ok_bind, hmax, hrebuild]
      split
      · rfl
      · cases s.tree.rebuild (order - 1) supply with
        | error e => rfl
        | ok t => rfl

/-- Outside of playback, a command does to a session what it does to the one without the
recording. -/
theorem quiet_obey (s : Session) {c : Command} (hc : c.isPlayback = false) :
    (s.obey c).quiet = (s.quiet.obey c).quiet := by
  cases c with
  | addKey raw =>
      have hcheck : s.quiet.checkAdd raw = s.checkAdd raw := rfl
      rw [obey, obey, addKey, addKey, hcheck]
      cases s.checkAdd raw with
      | error e => rfl
      | ok key => exact (quiet_queueKeys s _ _).trans (quiet_queueKeys s.quiet _ _).symm
  | removeKey raw =>
      have hcheck : s.quiet.checkRemove raw = s.checkRemove raw := rfl
      rw [obey, obey, removeKey, removeKey, hcheck]
      cases s.checkRemove raw with
      | error e => rfl
      | ok key =>
          have hqueue := (Sequencer.quiet_removeKeys s.sequencer [key]).trans
            (Sequencer.quiet_removeKeys s.sequencer.quiet [key]).symm
          exact congrArg (Session.mk s.settings) hqueue
  | generate count order kind supply =>
      have hfuture : s.quiet.futureKeys = s.futureKeys := rfl
      have hkind (future : List Key) : s.quiet.expectedKind future = s.expectedKind future := rfl
      have hsettings : s.quiet.settings = s.settings := rfl
      simp only [obey, generate, hfuture, hkind, hsettings]
      generalize Batch.generate _ _ _ _ _ _ = r
      cases r with
      | error e => rfl
      | ok batch => exact (quiet_queueKeys s _ _).trans (quiet_queueKeys s.quiet _ _).symm
  | setOrder order supply => exact quiet_setOrder s order supply
  | setOrderText raw supply =>
      rw [obey, obey, setOrderText, setOrderText]
      cases readOrder raw with
      | error e => rfl
      | ok maxKeys => exact quiet_setOrder s (maxKeys + 1) supply
  | importTree text =>
      rw [obey, obey, importTree, importTree]
      cases Tree.importText text with
      | error e => rfl
      | ok t => rfl
  | loadPreset p =>
      rw [obey, obey, loadPreset, loadPreset]
      cases p.document.tree with
      | error e => rfl
      | ok t => rfl
  | reset => rfl
  | setAllowDuplicates allow => rfl
  | setMode mode => rfl
  | setSpeed speed => rfl
  | nextFrame | previousFrame | finalFrame | tick => cases hc

/-! ## Sessions that commands lead to -/

/-- What is sound stays so without what is recorded. -/
theorem Sound.to_quiet (hs : s.Sound) : s.quiet.Sound := ⟨hs.valid.quiet, rfl, hs.feasible⟩

/-- **What one command preserves**, whatever the tree is recording. -/
theorem sound_quiet_obey (hs : s.quiet.Sound) (c : Command) : (s.obey c).quiet.Sound := by
  cases hc : c.isPlayback with
  | false =>
      rw [quiet_obey s hc]
      exact (hs.obey c).to_quiet
  | true =>
      cases c with
      | nextFrame => exact hs.advanced (Sequencer.advanced_quiet_nextFrame s.sequencer)
      | previousFrame => exact hs.advanced (Sequencer.advanced_quiet_previousFrame s.sequencer)
      | finalFrame => exact hs.advanced (Sequencer.advanced_quiet_finalFrame s.sequencer)
      | tick => exact hs.advanced (Sequencer.advanced_quiet_tick s.sequencer)
      | _ => cases hc

/-- The sessions that commands lead to from a new one, which may start empty or with random keys,
when at any time an allowed tree may be put in place of the tree as well. -/
inductive Led (Allowed : Tree → Prop) : Session → Prop where
  | create {settings : SessionSettings} {s : Session} (h : Session.create settings = .ok s) :
      Led Allowed s
  | seeded {settings : SessionSettings} {supply : Supply} {s : Session}
      (h : Session.seeded settings supply = .ok s) : Led Allowed s
  | obey {s : Session} (hs : Led Allowed s) (c : Command) : Led Allowed (s.obey c)
  | replace {s : Session} (hs : Led Allowed s) {t : Tree} (ht : Allowed t) :
      Led Allowed (s.replace t)

/-- What a seeded session starts with: a fresh tree of the capacity asked for, to which some
number keys were added. -/
theorem exists_tree_of_seeded {settings : SessionSettings} {supply : Supply}
    (h : Session.seeded settings supply = .ok s) :
    ∃ fresh t keys, Tree.ofMaxKeys settings.maxKeys .number = .ok fresh ∧
      fresh.addAll keys = .ok t ∧ (∀ k ∈ keys, k.kind = .number) ∧
      (s = ofTree settings t ∨ s = ofTree settings t.resetCounters) := by
  obtain ⟨fresh, hfresh, h⟩ := bind_eq_ok_iff.1 h
  split at h
  · obtain rfl := Except.ok.inj h
    exact ⟨fresh, fresh, [], hfresh, rfl, nofun, .inl rfl⟩
  · obtain ⟨batch, hbatch, h⟩ := bind_eq_ok_iff.1 h
    obtain ⟨t, ht, h⟩ := bind_eq_ok_iff.1 h
    obtain rfl := Except.ok.inj h
    exact ⟨fresh, t, batch.keys, hfresh, ht, Batch.kind_of_generate hbatch, .inr rfl⟩

/-- A seeded session is sound. -/
theorem sound_seeded {settings : SessionSettings} {supply : Supply}
    (h : Session.seeded settings supply = .ok s) : s.Sound := by
  obtain ⟨fresh, t, keys, hfresh, ht, hkinds, hs⟩ := exists_tree_of_seeded h
  obtain ⟨hvalid, hquiet⟩ := Tree.valid_ofMaxKeys hfresh
  have hkind : fresh.kind = .number := by
    rw [Tree.ofMaxKeys] at hfresh
    split at hfresh
    · rw [← Except.ok.inj hfresh]
      rfl
    · cases hfresh
  obtain ⟨u, hu, hvalid', -, -, hquiet'⟩ := hvalid.exists_addAll fun k hk =>
    (hkinds k hk).trans hkind.symm
  obtain rfl : u = t := Except.ok.inj (hu.symm.trans ht)
  rcases hs with rfl | rfl
  · exact sound_ofTree hvalid' (hquiet' hquiet)
  · exact sound_ofTree hvalid'.resetCounters (hquiet' hquiet)

/-- **What a whole run preserves.** Where only valid trees are put in place, every session is sound
apart from what its tree is recording. -/
theorem Led.sound (hs : Led Tree.Valid s) : s.quiet.Sound := by
  induction hs with
  | create h => exact (Reachable.create h).sound.to_quiet
  | seeded h => exact (sound_seeded h).to_quiet
  | obey hs c ih => exact sound_quiet_obey ih c
  | replace hs ht ih => exact ⟨ht.quiet, rfl, trivial⟩

theorem Led.valid (hs : Led Tree.Valid s) : s.tree.Valid :=
  hs.sound.valid.withRecording s.tree.recording

theorem Led.kind_of_mem_futureKeys (hs : Led Tree.Valid s) :
    ∀ k ∈ s.futureKeys, k.kind = s.tree.kind := hs.sound.kind_of_mem_futureKeys

end Session

end TracedTree
