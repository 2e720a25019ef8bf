import TracedTree.Proofs.Forecast
import TracedTree.Proofs.Playback
import TracedTree.Proofs.Rebuild

/-!
# Reachable sessions

A session is used through its commands, of which a refused one leaves it as it was. Every session
that commands lead to is sound: its tree is valid and not recording, and its queue is feasible for
the keys of the tree.

## Main definitions

* `Session.Command`, `Session.obey`: the commands, and the session after one of them.
* `Session.Reachable`: the sessions that commands lead to from a new one.
* `Session.Sound`: the invariant of reachable sessions.
-/

namespace TracedTree

/-! ## Batches -/

theorem Batch.kind_of_randomNumbers {count : Nat} {existing : List Number} {duplicates : Bool}
    {supply : Supply} {b : Batch} (h : randomNumbers count existing duplicates supply = .ok b) :
    ∀ k ∈ b.keys, k.kind = .number := by
  rw [randomNumbers] at h
  split at h
  · cases h
  · simp only at h
    split at h
    · cases h
    split at h
    · cases h
    split at h
    · cases h
    · obtain rfl := Except.ok.inj h
      intro k hk
      obtain ⟨i, -, rfl⟩ := List.mem_map.1 hk
      rfl

theorem Batch.kind_of_randomTexts {count : Nat} {existing : List (List Char)} {duplicates : Bool}
    {supply : Supply} {b : Batch} (h : randomTexts count existing duplicates supply = .ok b) :
    ∀ k ∈ b.keys, k.kind = .text := by
  simp only [randomTexts] at h
  split at h
  · cases h
  · obtain rfl := Except.ok.inj h
    intro k hk
    obtain ⟨s, -, rfl⟩ := List.mem_map.1 hk
    rfl

theorem Batch.kind_of_descendingTexts (count : Nat) (existing : List (List Char))
    (duplicates : Bool) : ∀ k ∈ (descendingTexts count existing duplicates).keys,
      k.kind = .text := by
  intro k hk
  cases existing with
  | nil | cons first existing =>
      obtain ⟨s, -, rfl⟩ := List.mem_map.1 hk
      rfl

/-- The keys of a batch are of the kind that was asked for. -/
theorem Batch.kind_of_generate {count : Nat} {order : BatchOrder} {kind : Kind}
    {existing : List Key} {duplicates : Bool} {supply : Supply} {b : Batch}
    (h : Batch.generate count order kind existing duplicates supply = .ok b) :
    ∀ k ∈ b.keys, k.kind = kind := by
  simp only [Batch.generate] at h
  split at h
  · cases h
  split at h
  · cases h
  cases kind with
  | number =>
      cases order with
      | random => exact kind_of_randomNumbers h
      | ascending | descending =>
          obtain rfl := Except.ok.inj h
          intro k hk
          obtain ⟨i, -, rfl⟩ := List.mem_map.1 hk
          rfl
  | text =>
      cases order with
      | ascending =>
          obtain rfl := Except.ok.inj h
          intro k hk
          obtain ⟨s, -, rfl⟩ := List.mem_map.1 hk
          rfl
      | descending =>
          obtain rfl := Except.ok.inj h
          exact kind_of_descendingTexts _ _ _
      | random => exact kind_of_randomTexts h

namespace Session

/-! ## Commands -/

/-- What can be asked of a session. -/
inductive Command where
  | addKey (raw : String)
  | removeKey (raw : String)
  | generate (count : Nat) (order : BatchOrder) (kind : Kind) (supply : Supply)
  | setOrder (order : Nat) (supply : Supply)
  | setOrderText (raw : String) (supply : Supply)
  | importTree (text : String)
  | loadPreset (p : Preset)
  | reset
  | setAllowDuplicates (allow : Bool)
  | setMode (mode : Mode)
  | setSpeed (speed : Float)
  | nextFrame
  | previousFrame
  | finalFrame
  | tick

/-- The session after a command. A refused command leaves it as it was. -/
def obey (s : Session) : Command → Session
  | .addKey raw => ((s.addKey raw).toOption.map (·.2)).getD s
  | .removeKey raw => ((s.removeKey raw).toOption.map (·.2)).getD s
  | .generate count order kind supply =>
    ((s.generate count order kind supply).toOption.map (·.2)).getD s
  | .setOrder order supply => (s.setOrder order supply).toOption.getD s
  | .setOrderText raw supply => (s.setOrderText raw supply).toOption.getD s
  | .importTree text => (s.importTree text).toOption.getD s
  | .loadPreset p => (s.loadPreset p).toOption.getD s
  | .reset => s.reset
  | .setAllowDuplicates allow => s.setAllowDuplicates allow
  | .setMode mode => s.setMode mode
  | .setSpeed speed => s.setSpeed speed
  | .nextFrame => s.nextFrame.2
  | .previousFrame => s.previousFrame.2
  | .finalFrame => s.finalFrame.2
  | .tick => s.tick.2

/-- The sessions that commands lead to from a new one. -/
inductive Reachable : Session → Prop where
  | create {settings : SessionSettings} {s : Session} (h : Session.create settings = .ok s) :
      Reachable s
  | obey {s : Session} (hs : Reachable s) (c : Command) : Reachable (s.obey c)

/-- The tree is valid and not recording, and no queued operation is foreseen to fail. -/
structure Sound (s : Session) : Prop where
  valid : s.tree.Valid
  quiet : s.tree.recording = none
  feasible : Feasible s.tree.kind s.tree.keys s.sequencer.queue

variable {s u : Session}

/-! ## New trees and settings -/

theorem sound_ofTree {settings : SessionSettings} {t : Tree} (ht : t.Valid)
    (hquiet : t.recording = none) : (ofTree settings t).Sound := ⟨ht, hquiet, trivial⟩

/-- Only tree and queue matter. -/
theorem Sound.congr (hs : s.Sound) (htree : u.tree = s.tree)
    (hqueue : u.sequencer.queue = s.sequencer.queue) : u.Sound := by
  refine ⟨htree ▸ hs.valid, htree ▸ hs.quiet, ?_⟩
  rw [htree, hqueue]
  exact hs.feasible

/-- Operations that are not foreseen to fail may be queued. -/
theorem Sound.enqueue (hs : s.Sound) {ops : List Operation}
    (hu : u.sequencer = ops.foldl Sequencer.enqueue s.sequencer)
    (hops : Feasible s.tree.kind s.futureKeys ops) : u.Sound := by
  have htree : u.tree = s.tree := by
    rw [tree, hu, Sequencer.tree_foldl_enqueue]
    rfl
  refine ⟨htree ▸ hs.valid, htree ▸ hs.quiet, ?_⟩
  rw [htree, hu, Sequencer.queue_foldl_enqueue]
  exact feasible_append.2 ⟨hs.feasible, hops⟩

theorem Sound.importTree (hs : s.Sound) (text : String) : (s.obey (.importTree text)).Sound := by
  refine toOption_getD (P := Sound) hs ?_
  intro u hu
  obtain ⟨t, ht, hu⟩ := bind_eq_ok_iff.1 hu
  obtain rfl := Except.ok.inj hu
  have himport := Tree.valid_importText ht
  exact sound_ofTree himport.1 himport.2

theorem sound_reset (s : Session) : s.reset.Sound :=
  sound_ofTree (Tree.valid_empty _ _ _) rfl

theorem Sound.setOrder (hs : s.Sound) {order : Nat} {supply : Supply}
    (h : s.setOrder order supply = .ok u) : u.Sound := by
  obtain ⟨-, -, h⟩ := bind_eq_ok_iff.1 h
  simp only at h
  split at h
  · obtain rfl := Except.ok.inj h
    exact hs
  obtain ⟨t, hrebuild, h⟩ := bind_eq_ok_iff.1 h
  obtain rfl := Except.ok.inj h
  obtain ⟨t', hfresh, -⟩ := bind_eq_ok_iff.1 hrebuild
  have hcap : 2 ≤ order - 1 := by
    by_cases hcap : 2 ≤ order - 1
    · exact hcap
    · simp [Tree.ofMaxKeys, hcap] at hfresh
  obtain ⟨u, hu, hvalid, -, hkind, hquiet, hperm⟩ := hs.valid.exists_rebuild hcap supply
  obtain rfl : u = t := Except.ok.inj (hu.symm.trans hrebuild)
  refine ⟨hvalid, hquiet, ?_⟩
  have hcovers : Covers s.tree.keys u.keys := by
    intro k hk
    obtain ⟨a, ha, hsame⟩ := hk
    exact ⟨a, hperm.mem_iff.2 ha, hsame⟩
  have hfeasible := hs.feasible.mono hcovers
  rw [← hkind] at hfeasible
  exact hfeasible

/-! ## Keys -/

/-- The check of an insertion as a chain of conditions. -/
theorem checkAdd_eq (s : Session) (raw : String) :
    s.checkAdd raw =
      if raw.isEmpty then .error (.invalidKey .empty)
      else if (s.expectedKind s.futureKeys).any (· ≠ (Key.ofInput raw).kind) then
        .error (.kindMismatch ((s.expectedKind s.futureKeys).getD .number) (Key.ofInput raw).kind)
      else if !s.settings.allowDuplicates && s.futureKeys.any (Key.ofInput raw).same then
        .error (.invalidKey (.duplicate raw))
      else .ok (Key.ofInput raw) := by
  by_cases hempty : raw.isEmpty
  · simp [checkAdd, hempty]
  cases hexpected : s.expectedKind s.futureKeys with
  | none =>
      simp [checkAdd, hempty, hexpected]
  | some expected =>
      by_cases hkind : (Key.ofInput raw).kind = expected
      · simp [checkAdd, hempty, hexpected, hkind]
      · simp [checkAdd, hempty, hexpected, hkind, Ne.symm hkind]

/-- A key that may be inserted is of the expected kind. -/
theorem kind_of_checkAdd {raw : String} {key : Key} (h : s.checkAdd raw = .ok key) :
    ∀ expected, s.expectedKind s.futureKeys = some expected → key.kind = expected := by
  intro expected hexpected
  rw [checkAdd_eq, hexpected] at h
  by_cases hkind : (Key.ofInput raw).kind = expected
  · split at h
    · cases h
    split at h
    · cases h
    split at h
    · cases h
    · rw [← Except.ok.inj h, hkind]
  · by_cases hempty : raw.isEmpty <;> simp [hempty, Ne.symm hkind] at h

/-- A key that may be removed is foreseen. -/
theorem mem_of_checkRemove {raw : String} {key : Key} (h : s.checkRemove raw = .ok key) :
    ∃ a ∈ s.futureKeys, key.same a := by
  simp only [checkRemove] at h
  split at h
  · rename_i hany
    rw [← Except.ok.inj h]
    exact List.any_eq_true.1 hany
  · cases h

theorem kind_of_mem_foldl {kind : Kind} {keys : List Key} {queue : List Operation}
    (hkeys : ∀ k ∈ keys, k.kind = kind) (hq : Feasible kind keys queue) :
    ∀ k ∈ queue.foldl foresee keys, k.kind = kind := by
  induction queue generalizing keys with
  | nil => exact hkeys
  | cons op queue ih =>
      refine ih ?_ hq.2
      cases op with
      | add j =>
          intro k hk
          rcases List.mem_append.1 hk with hk | hk
          · exact hkeys k hk
          · rw [List.mem_singleton.1 hk]
            exact hq.1
      | remove j =>
          intro k hk
          exact hkeys k (List.mem_of_mem_filter hk)

/-- The future keys of a sound session are of the kind of its tree. -/
theorem Sound.kind_of_mem_futureKeys (hs : s.Sound) : ∀ k ∈ s.futureKeys, k.kind = s.tree.kind := by
  exact kind_of_mem_foldl hs.valid.kind_of_mem_keys hs.feasible

/-- A kind that passes as the expected one is that of the tree, unless the session is bare. -/
theorem Sound.kind_eq (hs : s.Sound) {future : List Key} (hperm : future.Perm s.futureKeys)
    {kind : Kind} (h : ∀ expected, s.expectedKind future = some expected → kind = expected) :
    s.isBare = true ∨ kind = s.tree.kind := by
  by_cases hbare : s.isBare
  · exact .inl hbare
  refine .inr (h _ ?_)
  rw [expectedKind]
  cases hlast : future.getLast? with
  | none => simp [hbare]
  | some key =>
      have hmem := hperm.mem_iff.1 (List.mem_of_getLast? hlast)
      simp [hs.kind_of_mem_futureKeys key hmem]

/-- After a kind has been taken over, it is that of the tree, and the future is the same. -/
theorem Sound.adoptKind (hs : s.Sound) {kind : Kind}
    (h : s.isBare = true ∨ kind = s.tree.kind) :
    (s.adoptKind kind).Sound ∧ (s.adoptKind kind).tree.kind = kind := by
  rw [Session.adoptKind]
  by_cases hadopt : (s.isBare && s.tree.kind != kind) = true
  · rw [if_pos hadopt]
    have hqueue : s.sequencer.queue = [] := by
      simp only [isBare, Bool.and_eq_true] at hadopt
      exact List.isEmpty_iff.1 hadopt.1.2
    refine ⟨⟨Tree.valid_empty _ _ _, rfl, ?_⟩, rfl⟩
    change Feasible _ _ s.sequencer.queue
    rw [hqueue]
    trivial
  · rw [if_neg hadopt]
    refine ⟨hs, ?_⟩
    rcases h with hbare | hkind
    · simpa [hbare] using hadopt
    · exact hkind.symm

theorem feasible_adds {kind : Kind} {keys more : List Key} (h : ∀ k ∈ more, k.kind = kind) :
    Feasible kind keys (more.map .add) := by
  induction more generalizing keys with
  | nil => trivial
  | cons k more ih =>
      exact ⟨h k List.mem_cons_self, ih fun j hj => h j (List.mem_cons_of_mem k hj)⟩

theorem Sound.queueKeys (hs : s.Sound) {kind : Kind} {keys : List Key}
    (h : s.isBare = true ∨ kind = s.tree.kind) (hkeys : ∀ k ∈ keys, k.kind = kind) :
    (s.queueKeys kind keys).Sound := by
  have hadopt := hs.adoptKind h
  refine hadopt.1.enqueue (Sequencer.addKeys_eq _ keys) ?_
  rw [hadopt.2]
  exact feasible_adds hkeys

theorem Sound.addKey (hs : s.Sound) (raw : String) : (s.obey (.addKey raw)).Sound := by
  refine toOption_map_getD (P := Sound) hs ?_
  intro r hr
  obtain ⟨key, hkey, hr⟩ := bind_eq_ok_iff.1 hr
  obtain rfl := Except.ok.inj hr
  have hkind := hs.kind_eq (List.Perm.refl _) (kind_of_checkAdd hkey)
  exact hs.queueKeys hkind (by simp)

theorem Sound.removeKey (hs : s.Sound) (raw : String) : (s.obey (.removeKey raw)).Sound := by
  refine toOption_map_getD (P := Sound) hs ?_
  intro r hr
  obtain ⟨key, hkey, hr⟩ := bind_eq_ok_iff.1 hr
  obtain rfl := Except.ok.inj hr
  refine hs.enqueue (Sequencer.removeKeys_eq _ [key]) ?_
  exact ⟨mem_of_checkRemove hkey, trivial⟩

theorem Sound.generate (hs : s.Sound) (count : Nat) (order : BatchOrder) (kind : Kind)
    (supply : Supply) : (s.obey (.generate count order kind supply)).Sound := by
  refine toOption_map_getD (P := Sound) hs ?_
  intro r hr
  obtain ⟨batch, hbatch, hr⟩ := bind_eq_ok_iff.1 hr
  obtain rfl := Except.ok.inj hr
  have hperm : (s.futureKeys.mergeSort Key.le).Perm s.futureKeys := List.mergeSort_perm _ _
  refine hs.queueKeys (hs.kind_eq hperm ?_) (Batch.kind_of_generate hbatch)
  intro expected hexpected
  rw [hexpected]
  rfl

/-! ## Playback -/

/-- Along executed operations the tree stays valid and quiet, and the rest of the queue feasible. -/
theorem foldl_apply {t : Tree} {done rest : List Operation} (ht : t.Valid)
    (hquiet : t.recording = none) (hq : Feasible t.kind t.keys (done ++ rest)) :
    (done.foldl Operation.apply t).Valid ∧ (done.foldl Operation.apply t).recording = none ∧
      Feasible (done.foldl Operation.apply t).kind (done.foldl Operation.apply t).keys rest := by
  induction done generalizing t with
  | nil => exact ⟨ht, hquiet, hq⟩
  | cons op done ih =>
      have hvalid := (ht.valid_apply op).1
      have hquiet' := (Tree.record_tree hquiet op).2
      exact ih hvalid hquiet' (Feasible.apply ht hq)

theorem Sound.advanced (hs : s.Sound) (h : Sequencer.Advanced s.sequencer u.sequencer) :
    u.Sound := by
  obtain ⟨done, hqueue, htree⟩ := h
  have hfeasible := hs.feasible
  rw [hqueue] at hfeasible
  have hdone := foldl_apply hs.valid hs.quiet hfeasible
  have htree' : u.tree = done.foldl Operation.apply s.tree := htree
  rw [← htree'] at hdone
  exact ⟨hdone.1, hdone.2.1, hdone.2.2⟩

/-! ## Presets -/

/-- The operations of a preset can be carried out on its tree. -/
theorem feasible_preset (p : Preset) :
    ∃ t, p.document.tree = .ok t ∧
      Feasible t.kind t.keys (p.adds.map .add ++ p.removes.map .remove) := by
  have hpreset : (p.document.tree.toOption.any fun t => decide
      (Feasible t.kind t.keys (p.adds.map .add ++ p.removes.map .remove))) = true := by
    cases p <;> decide +kernel
  cases h : p.document.tree with
  | error e => simp [h] at hpreset
  | ok t => exact ⟨t, rfl, by simpa [h] using hpreset⟩

theorem sound_loadPreset (s : Session) (p : Preset) : (s.obey (.loadPreset p)).Sound := by
  obtain ⟨t, ht, hfeasible⟩ := feasible_preset p
  have hdocument := Tree.valid_document ht
  have hobey : (s.obey (.loadPreset p)).tree = t ∧ (s.obey (.loadPreset p)).sequencer.queue =
      p.adds.map .add ++ p.removes.map .remove := by
    simp [obey, Session.loadPreset, ht, Sequencer.addKeys_eq, Sequencer.removeKeys_eq, tree,
      replace, ofTree, Session.setMode, Session.setSpeed, Sequencer.setMode, Sequencer.setSpeed,
      Sequencer.ofTree]
  refine ⟨hobey.1 ▸ hdocument.1, hobey.1 ▸ hdocument.2, ?_⟩
  rw [hobey.1, hobey.2]
  exact hfeasible

/-! ## The invariant -/

/-- **What one command preserves.** -/
theorem Sound.obey (hs : s.Sound) (c : Command) : (s.obey c).Sound := by
  cases c with
  | addKey raw => exact hs.addKey raw
  | removeKey raw => exact hs.removeKey raw
  | generate count order kind supply => exact hs.generate count order kind supply
  | setOrder order supply =>
      refine toOption_getD (P := Sound) hs ?_
      intro u hu
      exact hs.setOrder hu
  | setOrderText raw supply =>
      refine toOption_getD (P := Sound) hs ?_
      intro u hu
      obtain ⟨maxKeys, -, hu⟩ := bind_eq_ok_iff.1 hu
      exact hs.setOrder hu
  | importTree text => exact hs.importTree text
  | loadPreset p => exact sound_loadPreset s p
  | reset => exact sound_reset s
  | setAllowDuplicates allow => exact hs.congr rfl rfl
  | setMode mode => exact hs.congr rfl rfl
  | setSpeed speed => exact hs.congr rfl rfl
  | nextFrame => exact hs.advanced (Sequencer.advanced_nextFrame hs.quiet)
  | previousFrame => exact hs.advanced (Sequencer.advanced_previousFrame s.sequencer)
  | finalFrame => exact hs.advanced (Sequencer.advanced_finalFrame s.sequencer)
  | tick => exact hs.advanced (Sequencer.advanced_tick hs.quiet)

/-- **What a whole run preserves.** Every reachable session is sound. -/
theorem Reachable.sound (hs : Reachable s) : s.Sound := by
  induction hs with
  | @create settings s h =>
      obtain ⟨t, ht, h⟩ := bind_eq_ok_iff.1 h
      obtain rfl := Except.ok.inj h
      have hfresh := Tree.valid_ofMaxKeys ht
      exact sound_ofTree hfresh.1 hfresh.2
  | obey hs c ih => exact ih.obey c

/-! ## The forecast -/

/-- **When the future keys come true.** In a reachable session they are, as a multiset, the keys
of the tree after everything queued was executed, exactly if every queued removal meets one equal
key in the tree at its turn. This holds whether multisets are compared up to identity of keys or
up to equality in the order. -/
theorem Reachable.futureKeys_iff (hs : Reachable s) :
    (s.futureKeys.Perm s.finalFrame.2.tree.keys ↔
      ∀ before k after, s.sequencer.queue = before ++ .remove k :: after →
        (before.foldl Operation.apply s.tree).keys.countP k.same = 1) ∧
    ((∀ k : Key, s.futureKeys.countP k.same = s.finalFrame.2.tree.keys.countP k.same) ↔
      ∀ before k after, s.sequencer.queue = before ++ .remove k :: after →
        (before.foldl Operation.apply s.tree).keys.countP k.same = 1) := by
  have hsound := hs.sound
  have hfinal : s.finalFrame.2.tree = s.sequencer.queue.foldl Operation.apply s.tree := rfl
  have hperm : Lone s.tree s.sequencer.queue → s.futureKeys.Perm s.finalFrame.2.tree.keys := by
    intro hlone
    rw [hfinal]
    exact perm_of_lone hsound.valid (List.Perm.refl _) hsound.feasible hlone
  have hlone : (∀ k : Key, s.futureKeys.countP k.same = s.finalFrame.2.tree.keys.countP k.same) →
      Lone s.tree s.sequencer.queue := by
    intro hcount
    rw [hfinal] at hcount
    exact (lone_of_countP_eq hsound.valid (fun _ => Nat.le_refl _) hsound.feasible hcount).2
  rw [← lone_iff]
  constructor
  · exact ⟨fun h => hlone fun k => h.countP_eq _, hperm⟩
  · exact ⟨hlone, fun h k => (hperm h).countP_eq _⟩

theorem reachable_default : Reachable (ofTree {} .default) := by
  have h : Session.create {} = .ok (ofTree {} .default) := rfl
  exact .create h

/-- A key that is queued once and then removed. -/
theorem futureKeys_iff_small :
    let s := ((ofTree {} .default).obey (.addKey "5")).obey (.removeKey "5")
    Reachable s ∧
    (s.futureKeys.Perm s.finalFrame.2.tree.keys ↔
      ∀ before k after, s.sequencer.queue = before ++ .remove k :: after →
        (before.foldl Operation.apply s.tree).keys.countP k.same = 1) ∧
    ((∀ k : Key, s.futureKeys.countP k.same = s.finalFrame.2.tree.keys.countP k.same) ↔
      ∀ before k after, s.sequencer.queue = before ++ .remove k :: after →
        (before.foldl Operation.apply s.tree).keys.countP k.same = 1) := by
  intro s
  have hs : Reachable s := (reachable_default.obey (.addKey "5")).obey (.removeKey "5")
  exact ⟨hs, hs.futureKeys_iff⟩

/-- With duplicates allowed, a key that is queued twice and removed once is not foreseen, but the
tree ends with one copy of it. -/
theorem exists_futureKeys_ne :
    ∃ s, Reachable s ∧ s.futureKeys = [] ∧ s.finalFrame.2.tree.keys = [.ofInt 5] ∧
      ¬ s.futureKeys.Perm s.finalFrame.2.tree.keys := by
  let s := ((((ofTree {} .default).obey (.setAllowDuplicates true)).obey (.addKey "5")).obey
    (.addKey "5")).obey (.removeKey "5")
  have hs : Reachable s := (((reachable_default.obey (.setAllowDuplicates true)).obey
    (.addKey "5")).obey (.addKey "5")).obey (.removeKey "5")
  have hfuture : s.futureKeys = [] := by decide +kernel
  have hkeys : s.finalFrame.2.tree.keys = [.ofInt 5] := by decide +kernel
  refine ⟨s, hs, hfuture, hkeys, ?_⟩
  rw [hfuture, hkeys]
  intro hperm
  simpa using hperm.length_eq

end Session

end TracedTree
