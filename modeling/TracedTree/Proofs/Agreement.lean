import TracedTree.Proofs.Commands
import TracedTree.Proofs.Consistency

/-!
# Settings agree with what is running

A session keeps the capacity and the settings of playback apart from the sequencer, which works
with its own copies of them. Commands that put another tree in place or change a setting change
both copies, and no other command changes either, so the two never drift apart. This needs nothing
of the trees that are put in place.

## Main definitions

* `Session.Agrees`: the settings of a session are those that its sequencer works with.
* `Sequencer.SameSetup`: two sequencers work with one capacity and the same settings.
-/

namespace TracedTree

/-! ## Capacity and kind -/

namespace Tree

variable {t u : Tree}

theorem Alike.refl (t : Tree) : Alike t t := ⟨rfl, rfl⟩

theorem Alike.trans {v : Tree} (h : Alike t u) (h' : Alike u v) : Alike t v :=
  ⟨h'.maxKeys.trans h.maxKeys, h'.kind.trans h.kind⟩

/-- No operation changes the capacity or the kind, whatever the tree looks like. -/
theorem alike_apply (t : Tree) (op : Operation) : Alike t (op.apply t) := by
  rw [apply_eq]
  rcases operate_uniform t op with ⟨e, he⟩ | ⟨answer, root, ledger, frames, hop⟩
  · have hfailed : t.operate op = .error e := he t.recording
    rw [hfailed]
    exact .refl t
  · have hdone := hop t.recording
    rw [show ({ t with recording := t.recording } : Tree) = t from rfl] at hdone
    rw [hdone]
    exact ⟨rfl, rfl⟩

theorem alike_record (t : Tree) (op : Operation) : Alike t (op.record t).2 := by
  have h := alike_apply t.startRecording op
  exact ⟨h.maxKeys, h.kind⟩

theorem alike_foldl_apply (t : Tree) (ops : List Operation) :
    Alike t (ops.foldl Operation.apply t) := by
  induction ops generalizing t with
  | nil => exact .refl t
  | cons op ops ih => exact (alike_apply t op).trans (ih (op.apply t))

theorem alike_add {k : Key} (h : t.add k = .ok u) : Alike t u := by
  have happly : (Operation.add k).apply t = u := by simp [Operation.apply, h]
  rw [← happly]
  exact alike_apply t (.add k)

theorem alike_addAll {keys : List Key} (h : t.addAll keys = .ok u) : Alike t u := by
  induction keys generalizing t with
  | nil =>
      obtain rfl := Except.ok.inj h
      exact .refl t
  | cons k keys ih =>
      rw [addAll, List.foldlM_cons] at h
      obtain ⟨v, hv, h⟩ := bind_eq_ok_iff.1 h
      exact (alike_add hv).trans (ih h)

theorem maxKeys_ofMaxKeys {maxKeys : Nat} {kind : Kind} (h : ofMaxKeys maxKeys kind = .ok t) :
    t.maxKeys = maxKeys := by
  rw [ofMaxKeys] at h
  split at h
  · obtain rfl := Except.ok.inj h
    rfl
  · cases h

theorem maxKeys_rebuild {maxKeys : Nat} {supply : Supply} (h : t.rebuild maxKeys supply = .ok u) :
    u.maxKeys = maxKeys := by
  obtain ⟨fresh, hfresh, hadd⟩ := bind_eq_ok_iff.1 h
  exact (alike_addAll hadd).maxKeys.trans (maxKeys_ofMaxKeys hfresh)

end Tree

/-! ## What playback keeps -/

namespace Sequencer

variable {s u : Sequencer}

/-- The two sequencers work with the same settings and with trees of one capacity. -/
structure SameSetup (s u : Sequencer) : Prop where
  settings : u.settings = s.settings
  maxKeys : u.tree.maxKeys = s.tree.maxKeys

theorem SameSetup.refl (s : Sequencer) : SameSetup s s := ⟨rfl, rfl⟩

theorem SameSetup.trans {v : Sequencer} (h : SameSetup s u) (h' : SameSetup u v) :
    SameSetup s v := ⟨h'.settings.trans h.settings, h'.maxKeys.trans h.maxKeys⟩

theorem sameSetup_enqueue (s : Sequencer) (op : Operation) : SameSetup s (s.enqueue op) := by
  rw [enqueue]
  split <;> exact ⟨rfl, rfl⟩

theorem sameSetup_foldl_enqueue (s : Sequencer) (ops : List Operation) :
    SameSetup s (ops.foldl enqueue s) := by
  induction ops generalizing s with
  | nil => exact .refl s
  | cons op ops ih => exact (sameSetup_enqueue s op).trans (ih (s.enqueue op))

theorem sameSetup_addKeys (s : Sequencer) (keys : List Key) : SameSetup s (s.addKeys keys) := by
  rw [addKeys_eq]
  exact sameSetup_foldl_enqueue s _

theorem sameSetup_removeKeys (s : Sequencer) (keys : List Key) :
    SameSetup s (s.removeKeys keys) := by
  rw [removeKeys_eq]
  exact sameSetup_foldl_enqueue s _

theorem maxKeys_showFrom (queue : List Operation) (s : Sequencer) :
    (showFrom queue s).2.tree.maxKeys = s.tree.maxKeys := by
  induction queue generalizing s with
  | nil =>
      rw [showFrom]
      split <;> rfl
  | cons op queue ih =>
      rw [showFrom]
      split
      · rfl
      · exact (ih (s.fill op)).trans (Tree.alike_record s.tree op).maxKeys

theorem sameSetup_nextFrame (s : Sequencer) : SameSetup s s.nextFrame.2 :=
  ⟨settings_showFrom .., maxKeys_showFrom ..⟩

theorem sameSetup_previousFrame (s : Sequencer) : SameSetup s s.previousFrame.2 := by
  rw [previousFrame]
  split <;> exact ⟨rfl, rfl⟩

theorem sameSetup_finalFrame (s : Sequencer) : SameSetup s s.finalFrame.2 :=
  ⟨rfl, (Tree.alike_foldl_apply s.tree s.queue).maxKeys⟩

theorem sameSetup_tick (s : Sequencer) : SameSetup s s.tick.2 := by
  rcases s.tick_cases with h | h | h <;> rw [h]
  · exact sameSetup_nextFrame s
  · exact sameSetup_finalFrame s
  · exact .refl s

end Sequencer

namespace Session

variable {s u : Session}

/-! ## Agreement -/

/-- The settings of a session are those that its sequencer works with. -/
structure Agrees (s : Session) : Prop where
  maxKeys : s.settings.maxKeys = s.tree.maxKeys
  playback : s.settings.playback = s.sequencer.settings

theorem agrees_ofTree {settings : SessionSettings} {t : Tree} (h : settings.maxKeys = t.maxKeys) :
    (ofTree settings t).Agrees := ⟨h, rfl⟩

theorem agrees_replace (s : Session) (t : Tree) : (s.replace t).Agrees := agrees_ofTree rfl

/-- What neither the session nor its sequencer changes goes on agreeing. -/
theorem Agrees.congr (hs : s.Agrees) (hmax : u.settings.maxKeys = s.settings.maxKeys)
    (hplay : u.settings.playback = s.settings.playback)
    (hsetup : Sequencer.SameSetup s.sequencer u.sequencer) : u.Agrees :=
  ⟨hmax.trans (hs.maxKeys.trans hsetup.maxKeys.symm),
    hplay.trans (hs.playback.trans hsetup.settings.symm)⟩

/-- A kind that is taken over comes with an empty tree of the old capacity. -/
theorem sameSetup_queueKeys (s : Session) (kind : Kind) (keys : List Key) :
    Sequencer.SameSetup s.sequencer (s.queueKeys kind keys).sequencer ∧
      (s.queueKeys kind keys).settings = s.settings := by
  have hadopt : Sequencer.SameSetup s.sequencer (s.adoptKind kind).sequencer ∧
      (s.adoptKind kind).settings = s.settings := by
    rw [adoptKind]
    split
    · exact ⟨⟨rfl, rfl⟩, rfl⟩
    · exact ⟨.refl _, rfl⟩
  exact ⟨hadopt.1.trans (Sequencer.sameSetup_addKeys _ keys), hadopt.2⟩

theorem Agrees.queueKeys (hs : s.Agrees) (kind : Kind) (keys : List Key) :
    (s.queueKeys kind keys).Agrees := by
  obtain ⟨hsetup, hsettings⟩ := sameSetup_queueKeys s kind keys
  exact hs.congr (by rw [hsettings]) (by rw [hsettings]) hsetup

theorem Agrees.setOrder (hs : s.Agrees) {order : Nat} {supply : Supply}
    (h : s.setOrder order supply = .ok u) : u.Agrees := by
  obtain ⟨-, -, h⟩ := bind_eq_ok_iff.1 h
  simp only at h
  split at h
  · obtain rfl := Except.ok.inj h
    exact hs
  · obtain ⟨t, ht, h⟩ := bind_eq_ok_iff.1 h
    obtain rfl := Except.ok.inj h
    exact ⟨(Tree.maxKeys_rebuild ht).symm, hs.playback⟩

theorem Agrees.setMode (hs : s.Agrees) (mode : Mode) : (s.setMode mode).Agrees :=
  ⟨hs.maxKeys, by rw [Session.setMode, hs.playback]; rfl⟩

theorem Agrees.setSpeed (hs : s.Agrees) (speed : Float) : (s.setSpeed speed).Agrees :=
  ⟨hs.maxKeys, by rw [Session.setSpeed, hs.playback]; rfl⟩

theorem agrees_loadPreset {p : Preset} (h : s.loadPreset p = .ok u) : u.Agrees := by
  obtain ⟨t, -, h⟩ := bind_eq_ok_iff.1 h
  obtain rfl := Except.ok.inj h
  have hset := ((agrees_replace s t).setMode .auto).setSpeed PlaybackSettings.defaultSpeed
  refine hset.congr rfl rfl ?_
  exact (Sequencer.sameSetup_addKeys _ p.adds).trans (Sequencer.sameSetup_removeKeys _ p.removes)

/-- **What one command preserves.** -/
theorem Agrees.obey (hs : s.Agrees) (c : Command) : (s.obey c).Agrees := by
  cases c with
  | addKey raw =>
      refine toOption_map_getD (P := Agrees) hs fun r hr => ?_
      obtain ⟨key, -, hr⟩ := bind_eq_ok_iff.1 hr
      obtain rfl := Except.ok.inj hr
      exact hs.queueKeys key.kind [key]
  | removeKey raw =>
      refine toOption_map_getD (P := Agrees) hs fun r hr => ?_
      obtain ⟨key, -, hr⟩ := bind_eq_ok_iff.1 hr
      obtain rfl := Except.ok.inj hr
      exact hs.congr rfl rfl (Sequencer.sameSetup_removeKeys _ [key])
  | generate count order kind supply =>
      refine toOption_map_getD (P := Agrees) hs fun r hr => ?_
      obtain ⟨batch, -, hr⟩ := bind_eq_ok_iff.1 hr
      obtain rfl := Except.ok.inj hr
      exact hs.queueKeys _ batch.keys
  | setOrder order supply => exact toOption_getD (P := Agrees) hs fun u hu => hs.setOrder hu
  | setOrderText raw supply =>
      refine toOption_getD (P := Agrees) hs fun u hu => ?_
      obtain ⟨maxKeys, -, hu⟩ := bind_eq_ok_iff.1 hu
      exact hs.setOrder hu
  | importTree text =>
      refine toOption_getD (P := Agrees) hs fun u hu => ?_
      obtain ⟨t, -, hu⟩ := bind_eq_ok_iff.1 hu
      obtain rfl := Except.ok.inj hu
      exact agrees_replace s t
  | loadPreset p => exact toOption_getD (P := Agrees) hs fun u hu => agrees_loadPreset hu
  | reset => exact agrees_replace s _
  | setAllowDuplicates allow => exact hs.congr rfl rfl (.refl _)
  | setMode mode => exact hs.setMode mode
  | setSpeed speed => exact hs.setSpeed speed
  | nextFrame => exact hs.congr rfl rfl (Sequencer.sameSetup_nextFrame s.sequencer)
  | previousFrame => exact hs.congr rfl rfl (Sequencer.sameSetup_previousFrame s.sequencer)
  | finalFrame => exact hs.congr rfl rfl (Sequencer.sameSetup_finalFrame s.sequencer)
  | tick => exact hs.congr rfl rfl (Sequencer.sameSetup_tick s.sequencer)

/-- **What a whole run preserves.** -/
theorem Led.agrees {Allowed : Tree → Prop} (hs : Led Allowed s) : s.Agrees := by
  induction hs with
  | create h =>
      obtain ⟨t, ht, h⟩ := bind_eq_ok_iff.1 h
      obtain rfl := Except.ok.inj h
      exact agrees_ofTree (Tree.maxKeys_ofMaxKeys ht).symm
  | seeded h =>
      obtain ⟨fresh, t, keys, hfresh, ht, -, hs⟩ := exists_tree_of_seeded h
      have hmax := (Tree.alike_addAll ht).maxKeys.trans (Tree.maxKeys_ofMaxKeys hfresh)
      rcases hs with rfl | rfl
      · exact agrees_ofTree hmax.symm
      · exact agrees_ofTree hmax.symm
  | obey hs c ih => exact ih.obey c
  | replace hs ht ih => exact agrees_replace _ _

/-- **Settings never drift.** In every session that commands lead to, empty or seeded at the start,
whatever trees are put in place and whichever commands are refused, the capacity that is kept is
that of the tree, and mode, speed and window of playback are those that the sequencer works
with. -/
theorem Led.settings_agree {Allowed : Tree → Prop} (hs : Led Allowed s) :
    s.settings.maxKeys = s.tree.maxKeys ∧
    s.settings.playback.mode = s.sequencer.settings.mode ∧
    s.settings.playback.speed = s.sequencer.settings.speed ∧
    s.settings.playback.capacity = s.sequencer.settings.capacity := by
  obtain ⟨hmax, hplay⟩ := hs.agrees
  rw [hplay]
  exact ⟨hmax, rfl, rfl, rfl⟩

/-- A session in which a tree of another capacity is put in place, settings change, a text is taken
in place of numbers, a refused order follows an accepted one, and the session starts over. -/
theorem settings_agree_reset :
    let t := Tree.empty 7 .number (by decide)
    let start := ((ofTree {} .default).obey (.setMode .step)).replace t
    let s := (((((start.obey (.setSpeed 3)).obey (.addKey "a")).obey (.setOrder 4 (.seeded 1))).obey
      (.setOrder 2 (.seeded 2))).obey .tick).obey .reset
    Led (fun _ => True) s ∧
    s.settings.maxKeys = s.tree.maxKeys ∧
    s.settings.playback.mode = s.sequencer.settings.mode ∧
    s.settings.playback.speed = s.sequencer.settings.speed ∧
    s.settings.playback.capacity = s.sequencer.settings.capacity := by
  intro t start s
  have hcreate : create {} = .ok (ofTree {} .default) := rfl
  have hnew : Led (fun _ => True) (ofTree {} .default) := .create hcreate
  have hstart : Led (fun _ => True) start := (hnew.obey (.setMode .step)).replace trivial
  have hs : Led (fun _ => True) s :=
    (((((hstart.obey (.setSpeed 3)).obey (.addKey "a")).obey (.setOrder 4 (.seeded 1))).obey
      (.setOrder 2 (.seeded 2))).obey .tick).obey .reset
  exact ⟨hs, hs.settings_agree⟩

end Session

end TracedTree
