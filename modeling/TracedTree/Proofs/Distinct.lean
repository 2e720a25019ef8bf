import TracedTree.Proofs.Batch
import TracedTree.Proofs.Session

/-!
# Sessions that refuse duplicates

A key that is typed in is compared with the future keys, and a generated one is meant to keep away
from them. As long as every batch is clear, no two future keys of a session that refuses duplicates
are equal. The invariant speaks of all keys that are foreseen along the queue, because each of them
is among the keys of the tree at its turn: where no two are equal, a removal takes out the only copy
of its key, so the tree holds what was foreseen. A batch that is not clear can repeat a key.

## Main definitions

* `Session.Unrepeated keys queue`: no two keys that are foreseen along a queue are equal.
* `Session.Single`: the invariant of a session that refuses duplicates.
* `Session.Command.isPlain`, `Session.Command.Clear`, `Session.ClearRun`: the commands that count,
  and the condition on their batches.
* `Session.run`: the session after some commands.
-/

namespace TracedTree

variable {keys more new : List Key}

/-! ## Distinct keys -/

theorem Distinct.perm (h : Distinct keys) (hperm : keys.Perm more) : Distinct more := by
  refine (hperm.pairwise_iff ?_).1 h
  intro a b hne hsame
  exact hne (Key.same_symm hsame)

theorem distinct_append : Distinct (keys ++ new) ↔
    Distinct keys ∧ Distinct new ∧ ∀ a ∈ keys, ∀ k ∈ new, ¬ a.same k := List.pairwise_append

/-- In a list without equal keys exactly one equals a key that occurs. -/
theorem Distinct.countP_same (h : Distinct keys) {k : Key} (hk : ∃ a ∈ keys, k.same a) :
    keys.countP k.same = 1 := by
  obtain ⟨a, ha, hsame⟩ := hk
  obtain ⟨before, after, rfl⟩ := List.append_of_mem ha
  obtain ⟨-, hafter, hbefore⟩ := distinct_append.1 h
  have hnone : ∀ b, k.same b → a.same b := fun b hb => Key.same_trans (Key.same_symm hsame) hb
  have hzero : before.countP k.same = 0 := List.countP_eq_zero.2 fun b hb hkb =>
    hbefore b hb a List.mem_cons_self (Key.same_symm (hnone b hkb))
  have hzero' : after.countP k.same = 0 := List.countP_eq_zero.2 fun b hb hkb =>
    (List.pairwise_cons.1 hafter).1 b hb (hnone b hkb)
  rw [List.countP_append, List.countP_cons_of_pos hsame, hzero, hzero']

theorem ascending_mergeSort (keys : List Key) : Ascending (keys.mergeSort Key.le) :=
  List.pairwise_mergeSort (fun a b c => Key.le_trans (a := a) (b := b) (c := c))
    (fun a b => by simpa using Key.le_total a b) keys

namespace Session

variable {queue rest : List Operation} {op : Operation} {t : Tree} {s u : Session}

/-! ## Queues -/

/-- No two foreseen keys are equal, before a queue and after each of its operations. -/
def Unrepeated : List Key → List Operation → Prop
  | keys, [] => Distinct keys
  | keys, op :: queue => Distinct keys ∧ Unrepeated (foresee keys op) queue

theorem Unrepeated.distinct (h : Unrepeated keys queue) : Distinct keys := by
  cases queue with
  | nil => exact h
  | cons op queue => exact h.1

theorem unrepeated_append :
    Unrepeated keys (queue ++ rest) ↔
      Unrepeated keys queue ∧ Unrepeated (queue.foldl foresee keys) rest := by
  induction queue generalizing keys with
  | nil => exact ⟨fun h => ⟨h.distinct, h⟩, fun h => h.2⟩
  | cons op queue ih => simp [Unrepeated, ih, and_assoc]

theorem foresee_perm (hperm : keys.Perm more) (op : Operation) :
    (foresee keys op).Perm (foresee more op) := by
  cases op with
  | add k => exact hperm.append_right [k]
  | remove k => exact hperm.filter _

theorem Unrepeated.perm (h : Unrepeated keys queue) (hperm : keys.Perm more) :
    Unrepeated more queue := by
  induction queue generalizing keys more with
  | nil => exact Distinct.perm h hperm
  | cons op queue ih => exact ⟨h.1.perm hperm, ih h.2 (foresee_perm hperm op)⟩

/-- Without equal keys the tree holds what is foreseen after an operation. -/
theorem keys_apply_perm (ht : t.Valid) (hop : Admits t.kind t.keys op) (h : Distinct t.keys) :
    (foresee t.keys op).Perm (op.apply t).keys := by
  cases op with
  | add k =>
      have hins := ht.inserted_apply hop
      exact (List.perm_append_singleton k t.keys).trans hins.perm.symm
  | remove k =>
      rw [← (ht.removed_apply hop).filter_eq (h.countP_same hop)]
      exact List.Perm.refl _

/-- Along executed operations the rest of the queue stays without equal keys. -/
theorem Unrepeated.foldl_apply {done rest : List Operation} (ht : t.Valid)
    (hq : Feasible t.kind t.keys (done ++ rest)) (h : Unrepeated t.keys (done ++ rest)) :
    Unrepeated (done.foldl Operation.apply t).keys rest := by
  induction done generalizing t with
  | nil => exact h
  | cons op done ih =>
      have hrest := h.2.perm (keys_apply_perm ht hq.1 h.1)
      exact ih (ht.valid_apply op).1 (Feasible.apply ht hq) hrest

/-- Fresh keys may be inserted one after the other. -/
theorem unrepeated_adds (h : Distinct keys) (hnew : Fresh keys new) :
    Unrepeated keys (new.map .add) := by
  induction new generalizing keys with
  | nil => exact h
  | cons k new ih =>
      obtain ⟨hk, hrest⟩ := List.pairwise_cons.1 hnew.distinct
      have hapart := hnew.apart
      refine ⟨h, ih ?_ ⟨hrest, ?_⟩⟩
      · refine distinct_append.2 ⟨h, List.pairwise_singleton .., ?_⟩
        intro a ha j hj
        rw [List.mem_singleton.1 hj]
        exact hapart a ha k List.mem_cons_self
      · intro a ha j hj
        rcases List.mem_append.1 ha with ha | ha
        · exact hapart a ha j (List.mem_cons_of_mem k hj)
        · rw [List.mem_singleton.1 ha]
          exact hk j hj

/-! ## Commands -/

/-- The command neither puts another tree in place nor changes what is allowed: keys come and go,
and the queue is played. -/
def Command.isPlain : Command → Bool
  | .addKey _ | .removeKey _ | .generate .. | .setMode _ | .setSpeed _ | .nextFrame
  | .previousFrame | .finalFrame | .tick => true
  | .setOrder .. | .setOrderText .. | .importTree _ | .loadPreset _ | .reset
  | .setAllowDuplicates _ => false

/-- A batch is clear next to the foreseen keys. Nothing is asked of other commands. -/
def Command.Clear (s : Session) : Command → Prop
  | .generate count order kind _ =>
    let future := s.futureKeys.mergeSort Key.le
    Batch.Clear count order ((s.expectedKind future).getD kind) future
  | _ => True

/-! ## Sessions -/

/-- A sound session that refuses duplicates and foresees no equal keys. -/
structure Single (s : Session) : Prop where
  sound : s.Sound
  refuses : s.settings.allowDuplicates = false
  unrepeated : Unrepeated s.tree.keys s.sequencer.queue

theorem Single.distinct (hs : s.Single) : Distinct s.futureKeys := by
  have h := hs.unrepeated
  rw [← List.append_nil s.sequencer.queue, unrepeated_append] at h
  exact h.2

theorem Single.enqueue (hs : s.Single) (hsettings : u.settings = s.settings)
    {ops : List Operation} (hops : u.sequencer = ops.foldl Sequencer.enqueue s.sequencer)
    (hfeasible : Feasible s.tree.kind s.futureKeys ops)
    (hunrepeated : Unrepeated s.futureKeys ops) : u.Single := by
  have htree : u.tree = s.tree := by
    rw [tree, hops, Sequencer.tree_foldl_enqueue]
    rfl
  refine ⟨hs.sound.enqueue hops hfeasible, hsettings ▸ hs.refuses, ?_⟩
  rw [htree, hops, Sequencer.queue_foldl_enqueue]
  exact unrepeated_append.2 ⟨hs.unrepeated, hunrepeated⟩

theorem Single.adoptKind (hs : s.Single) {kind : Kind}
    (h : s.isBare = true ∨ kind = s.tree.kind) (hnew : Fresh s.futureKeys new) :
    (s.adoptKind kind).Single ∧ Fresh (s.adoptKind kind).futureKeys new := by
  have hsound := (hs.sound.adoptKind h).1
  rw [Session.adoptKind] at hsound ⊢
  by_cases hadopt : (s.isBare && s.tree.kind != kind) = true
  · rw [if_pos hadopt] at hsound ⊢
    have hqueue : s.sequencer.queue = [] := by
      simp only [isBare, Bool.and_eq_true] at hadopt
      exact List.isEmpty_iff.1 hadopt.1.2
    have hfuture : futureKeys { s with
        sequencer := s.sequencer.replaceTree (s.freshTree kind) } = [] := by
      change s.sequencer.queue.foldl foresee [] = []
      rw [hqueue]
      rfl
    rw [hfuture]
    refine ⟨⟨hsound, hs.refuses, ?_⟩, hnew.distinct, by simp⟩
    change Unrepeated [] s.sequencer.queue
    rw [hqueue]
    exact List.Pairwise.nil
  · rw [if_neg hadopt]
    exact ⟨hs, hnew⟩

theorem Single.queueKeys (hs : s.Single) {kind : Kind}
    (h : s.isBare = true ∨ kind = s.tree.kind) (hkeys : ∀ k ∈ new, k.kind = kind)
    (hnew : Fresh s.futureKeys new) : (s.queueKeys kind new).Single := by
  obtain ⟨hadopt, hfresh⟩ := hs.adoptKind h hnew
  refine hadopt.enqueue rfl (Sequencer.addKeys_eq _ new) ?_ (unrepeated_adds hadopt.distinct hfresh)
  rw [(hs.sound.adoptKind h).2]
  exact feasible_adds hkeys

/-- Where duplicates are refused, a key that may be inserted is not foreseen. -/
theorem not_same_of_checkAdd {raw : String} {key : Key}
    (hrefuses : s.settings.allowDuplicates = false) (h : s.checkAdd raw = .ok key) :
    ∀ a ∈ s.futureKeys, ¬ key.same a := by
  rw [checkAdd_eq, hrefuses] at h
  split at h
  · cases h
  split at h
  · cases h
  split at h
  · cases h
  · rename_i hnone
    obtain rfl := Except.ok.inj h
    simpa using hnone

theorem Single.addKey (hs : s.Single) (raw : String) : (s.obey (.addKey raw)).Single := by
  refine toOption_map_getD (P := Single) hs ?_
  intro r hr
  obtain ⟨key, hkey, hr⟩ := bind_eq_ok_iff.1 hr
  obtain rfl := Except.ok.inj hr
  have hkind := hs.sound.kind_eq (List.Perm.refl _) (kind_of_checkAdd hkey)
  refine hs.queueKeys hkind (by simp) ⟨List.pairwise_singleton .., ?_⟩
  intro a ha k hk hsame
  rw [List.mem_singleton.1 hk] at hsame
  have hnone := not_same_of_checkAdd hs.refuses hkey
  exact hnone a ha (Key.same_symm hsame)

theorem Single.removeKey (hs : s.Single) (raw : String) : (s.obey (.removeKey raw)).Single := by
  refine toOption_map_getD (P := Single) hs ?_
  intro r hr
  obtain ⟨key, hkey, hr⟩ := bind_eq_ok_iff.1 hr
  obtain rfl := Except.ok.inj hr
  refine hs.enqueue rfl (Sequencer.removeKeys_eq _ [key]) ?_ ?_
  · exact ⟨mem_of_checkRemove hkey, trivial⟩
  · exact ⟨hs.distinct, hs.distinct.filter _⟩

theorem Single.generate (hs : s.Single) {count : Nat} {order : BatchOrder} {kind : Kind}
    {supply : Supply} (hclear : Command.Clear s (.generate count order kind supply)) :
    (s.obey (.generate count order kind supply)).Single := by
  refine toOption_map_getD (P := Single) hs ?_
  intro r hr
  obtain ⟨batch, hbatch, hr⟩ := bind_eq_ok_iff.1 hr
  obtain rfl := Except.ok.inj hr
  have hperm : (s.futureKeys.mergeSort Key.le).Perm s.futureKeys := List.mergeSort_perm _ _
  rw [hs.refuses] at hbatch
  have hfresh := Batch.fresh_generate (ascending_mergeSort s.futureKeys) hclear hbatch
  refine hs.queueKeys (hs.sound.kind_eq hperm ?_) (Batch.kind_of_generate hbatch)
    ⟨hfresh.distinct, fun a ha => hfresh.apart a (hperm.mem_iff.2 ha)⟩
  intro expected hexpected
  rw [hexpected]
  rfl

theorem Single.advanced (hs : s.Single) (hsettings : u.settings = s.settings)
    (h : Sequencer.Advanced s.sequencer u.sequencer) : u.Single := by
  refine ⟨hs.sound.advanced h, hsettings ▸ hs.refuses, ?_⟩
  obtain ⟨done, hqueue, htree⟩ := h
  have hfeasible := hs.sound.feasible
  have hunrepeated := hs.unrepeated
  rw [hqueue] at hfeasible hunrepeated
  have hdone := Unrepeated.foldl_apply hs.sound.valid hfeasible hunrepeated
  have htree' : u.tree = done.foldl Operation.apply s.tree := htree
  rwa [← htree'] at hdone

/-- **What one plain command preserves**, as long as its batch is clear. -/
theorem Single.obey (hs : s.Single) {c : Command} (hplain : c.isPlain) (hclear : c.Clear s) :
    (s.obey c).Single := by
  cases c with
  | addKey raw => exact hs.addKey raw
  | removeKey raw => exact hs.removeKey raw
  | generate count order kind supply => exact hs.generate hclear
  | setMode mode => exact ⟨hs.sound.obey (.setMode mode), hs.refuses, hs.unrepeated⟩
  | setSpeed speed => exact ⟨hs.sound.obey (.setSpeed speed), hs.refuses, hs.unrepeated⟩
  | nextFrame => exact hs.advanced rfl (Sequencer.advanced_nextFrame hs.sound.quiet)
  | previousFrame => exact hs.advanced rfl (Sequencer.advanced_previousFrame s.sequencer)
  | finalFrame => exact hs.advanced rfl (Sequencer.advanced_finalFrame s.sequencer)
  | tick => exact hs.advanced rfl (Sequencer.advanced_tick hs.sound.quiet)
  | setOrder | setOrderText | importTree | loadPreset | reset | setAllowDuplicates => cases hplain

/-! ## Runs -/

/-- The session after some commands. -/
def run (s : Session) (cs : List Command) : Session := cs.foldl obey s

/-- Every batch is clear when it is generated. -/
def ClearRun : Session → List Command → Prop
  | _, [] => True
  | s, c :: cs => c.Clear s ∧ ClearRun (s.obey c) cs

/-- **What a whole run preserves.** -/
theorem Single.run (hs : s.Single) {cs : List Command} (hplain : ∀ c ∈ cs, c.isPlain)
    (hclear : ClearRun s cs) : (s.run cs).Single := by
  induction cs generalizing s with
  | nil => exact hs
  | cons c cs ih =>
      have hstep := hs.obey (hplain c List.mem_cons_self) hclear.1
      exact ih hstep (fun d hd => hplain d (List.mem_cons_of_mem c hd)) hclear.2

theorem single_create {settings : SessionSettings} (h : create settings = .ok s)
    (hrefuses : settings.allowDuplicates = false) : s.Single := by
  have hsound := (Reachable.create h).sound
  obtain ⟨t, ht, h⟩ := bind_eq_ok_iff.1 h
  obtain rfl := Except.ok.inj h
  refine ⟨hsound, hrefuses, ?_⟩
  rw [Tree.ofMaxKeys] at ht
  split at ht
  · obtain rfl := Except.ok.inj ht
    exact List.Pairwise.nil
  · cases ht

/-- **No duplicate is queued where duplicates are refused.** When plain commands are given to a new
session and every batch is clear, no two of its future keys are ever equal. -/
theorem distinct_futureKeys {settings : SessionSettings} (h : create settings = .ok s)
    (hrefuses : settings.allowDuplicates = false) {cs : List Command}
    (hplain : ∀ c ∈ cs, c.isPlain) (hclear : ClearRun s cs) :
    Distinct (s.run cs).futureKeys :=
  ((single_create h hrefuses).run hplain hclear).distinct

/-- A run with numbers, and one with a text in quotes and one without. -/
theorem distinct_futureKeys_small :
    let s := ofTree {} .default
    let numbers : List Command := [.addKey "5", .generate 3 .descending .number (.seeded 1),
      .nextFrame, .removeKey "4", .addKey "4.5", .finalFrame]
    let texts : List Command := [.addKey "\"B\"", .addKey "c d",
      .generate 3 .ascending .number (.seeded 1), .tick, .removeKey "c d", .previousFrame]
    Distinct (s.run numbers).futureKeys ∧ Distinct (s.run texts).futureKeys := by
  intro s numbers texts
  have hcreate : create {} = .ok s := rfl
  have hnumber : (s.obey (.addKey "5")).futureKeys = [.ofInt 5] := by decide +kernel
  have hclear : Command.Clear (s.obey (.addKey "5"))
      (.generate 3 .descending .number (.seeded 1)) := by
    simp only [Command.Clear, hnumber, List.mergeSort_singleton]
    decide +kernel
  have htext : ((s.obey (.addKey "\"B\"")).obey (.addKey "c d")).futureKeys =
      [.text "\"B\"", .text "c d"] := by decide +kernel
  have hsorted : [Key.text "\"B\"", .text "c d"].mergeSort Key.le =
      [.text "\"B\"", .text "c d"] := List.mergeSort_of_pairwise (by decide)
  have hclear' : Command.Clear ((s.obey (.addKey "\"B\"")).obey (.addKey "c d"))
      (.generate 3 .ascending .number (.seeded 1)) := by
    simp only [Command.Clear, htext, hsorted]
    decide +kernel
  exact ⟨distinct_futureKeys hcreate rfl (by decide)
      ⟨trivial, hclear, trivial, trivial, trivial, trivial, trivial⟩,
    distinct_futureKeys hcreate rfl (by decide)
      ⟨trivial, trivial, hclear', trivial, trivial, trivial, trivial⟩⟩

/-- Two runs of plain commands that leave equal future keys. Behind `2 ^ 53` comes an odd integer,
which is rounded back to it. And a batch of texts starts from the key that is last in the order, an
unquoted `A`, although the strings between quotes have come further. -/
theorem exists_equal_futureKeys :
    ∃ s, create {} = .ok s ∧ s.settings.allowDuplicates = false ∧
      (∃ cs : List Command, (∀ c ∈ cs, c.isPlain) ∧
        (s.run cs).futureKeys = [.ofInt (2 ^ 53), .ofInt (2 ^ 53)] ∧
        ¬ Distinct (s.run cs).futureKeys) ∧
      ∃ cs : List Command, (∀ c ∈ cs, c.isPlain) ∧
        (s.run cs).futureKeys = [.text "\"B\"", .text "A", .text "\"B\""] ∧
        ¬ Distinct (s.run cs).futureKeys := by
  let s := ofTree {} .default
  have hnumber : (s.obey (.addKey "9007199254740992")).futureKeys = [.ofInt (2 ^ 53)] := by
    decide +kernel
  have htext : ((s.obey (.addKey "\"B\"")).obey (.addKey "A")).futureKeys =
      [.text "\"B\"", .text "A"] := by decide +kernel
  have hsorted : [Key.text "\"B\"", .text "A"].mergeSort Key.le =
      [.text "\"B\"", .text "A"] := List.mergeSort_of_pairwise (by decide)
  have hnumbers : (s.run [.addKey "9007199254740992",
      .generate 1 .ascending .number (.seeded 1)]).futureKeys =
        [.ofInt (2 ^ 53), .ofInt (2 ^ 53)] := by
    change ((((s.obey (.addKey "9007199254740992")).generate 1 .ascending .number
      (.seeded 1)).toOption.map (·.2)).getD (s.obey (.addKey "9007199254740992"))).futureKeys = _
    simp only [Session.generate, hnumber, List.mergeSort_singleton]
    decide +kernel
  have htexts : (s.run [.addKey "\"B\"", .addKey "A",
      .generate 1 .ascending .text (.seeded 1)]).futureKeys =
        [.text "\"B\"", .text "A", .text "\"B\""] := by
    change (((((s.obey (.addKey "\"B\"")).obey (.addKey "A")).generate 1 .ascending .text
      (.seeded 1)).toOption.map (·.2)).getD
        ((s.obey (.addKey "\"B\"")).obey (.addKey "A"))).futureKeys = _
    simp only [Session.generate, htext, hsorted]
    decide +kernel
  refine ⟨s, rfl, rfl, ⟨_, by decide, hnumbers, ?_⟩, _, by decide, htexts, ?_⟩
  · rw [hnumbers]
    decide +kernel
  · rw [htexts]
    decide +kernel

end Session

end TracedTree
