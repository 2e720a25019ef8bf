import TracedTree.Proofs.Outcome
import TracedTree.Proofs.Session

/-!
# Accepted commands are carried out

A session judges a command by the future keys when it is given, and executes it later on a tree
that other commands may have changed in between. No accepted command comes to nothing: at its turn
every queued insertion is of the tree's kind and succeeds, and every queued removal finds its key.
A feasible queue runs without a failure, and the queue of a sound session is feasible.

## Main definitions

* `Operation.success`: what an operation that succeeds gives back.
* `Session.Attained`: the sessions that commands and valid trees put in place lead to.
-/

namespace TracedTree

/-- What an operation that succeeds gives back: the key was inserted, or it was found. -/
def Operation.success : Operation → Tree.Answer
  | .add _ => .added
  | .remove _ => .removed true

namespace Session

variable {t : Tree} {op : Operation} {queue : List Operation} {s : Session}

/-! ## Feasible queues -/

/-- What is not foreseen to fail succeeds. -/
theorem operate_of_admits (ht : t.Valid) (hop : Admits t.kind t.keys op) :
    t.operate op = .ok (op.success, op.apply t) := by
  cases op with
  | add k =>
      obtain ⟨u, hu, -⟩ := ht.exists_add hop
      simp [Tree.operate, Operation.apply, Operation.success, hu]
  | remove k =>
      obtain ⟨a, ha, hsame⟩ := hop
      have hkind : k.kind = t.kind := (Key.kind_eq_of_same hsame).trans (ht.kind_of_mem_keys a ha)
      obtain ⟨found, u, hu, -, -, ⟨rfl, -⟩ | ⟨-, hnone, -⟩⟩ := ht.exists_remove hkind
      · simp [Tree.operate, Operation.apply, Operation.success, hu]
      · exact absurd hsame (hnone a ha)

/-- A feasible queue runs through and every operation of it succeeds. -/
theorem Feasible.run_eq (ht : t.Valid) (hq : Feasible t.kind t.keys queue) :
    t.run (queue.map .operate) =
      .ok (queue.map Operation.success, queue.foldl Operation.apply t) := by
  induction queue generalizing t with
  | nil => rfl
  | cons op queue ih =>
      have hop := operate_of_admits ht hq.1
      have hrest := ih (ht.valid_apply op).1 (Feasible.apply ht hq)
      exact Tree.run_cons hop hrest

theorem Feasible.kind_of_add {kind : Kind} {keys : List Key} (hq : Feasible kind keys queue)
    {k : Key} (hk : .add k ∈ queue) : k.kind = kind := by
  induction queue generalizing keys with
  | nil => cases hk
  | cons op queue ih =>
      rcases List.mem_cons.1 hk with rfl | hk
      · exact hq.1
      · exact ih hq.2 hk

/-! ## Sessions -/

/-- The sessions that commands lead to from a new one, when at any time a valid tree that records
nothing may be put in place of the tree as well. -/
inductive Attained : Session → Prop where
  | create {settings : SessionSettings} {s : Session} (h : Session.create settings = .ok s) :
      Attained s
  | obey {s : Session} (hs : Attained s) (c : Command) : Attained (s.obey c)
  | replace {s : Session} (hs : Attained s) {t : Tree} (ht : t.Valid)
      (hquiet : t.recording = none) : Attained (s.replace t)

theorem Attained.sound (hs : Attained s) : s.Sound := by
  induction hs with
  | create h => exact (Reachable.create h).sound
  | obey hs c ih => exact ih.obey c
  | replace hs ht hquiet ih => exact sound_ofTree ht hquiet

/-- **No accepted command comes to nothing.** In every session the queued insertions are of the
tree's kind, and when the queue is worked off in its order, each insertion succeeds and each
removal finds its key. -/
theorem Attained.queue_succeeds (hs : Attained s) :
    (∀ k, .add k ∈ s.sequencer.queue → k.kind = s.tree.kind) ∧
    s.tree.run (s.sequencer.queue.map .operate) =
      .ok (s.sequencer.queue.map Operation.success, s.sequencer.outcome) := by
  have hsound := hs.sound
  exact ⟨fun k hk => hsound.feasible.kind_of_add hk, hsound.feasible.run_eq hsound.valid⟩

/-- A session with duplicates, in which a tree with a text is put in place while a number is queued,
and then the text is queued once more, removed once, and the order is changed. -/
theorem queue_succeeds_small :
    let t := (Operation.add (.text "a")).apply (Tree.empty 2 .text (by decide))
    let start := ((ofTree {} .default).obey (.setAllowDuplicates true)).obey (.addKey "5")
    let s := (((start.replace t).obey (.addKey "a")).obey (.removeKey "a")).obey
      (.setOrder 5 (.seeded 1))
    Attained s ∧ (∀ k, .add k ∈ s.sequencer.queue → k.kind = s.tree.kind) ∧
    s.tree.run (s.sequencer.queue.map .operate) =
      .ok (s.sequencer.queue.map Operation.success, s.sequencer.outcome) := by
  intro t start s
  have hfresh : (Tree.empty 2 .text (by decide)).Valid := Tree.valid_empty _ _ _
  have ht : t.Valid ∧ t.recording = none :=
    ⟨(hfresh.valid_apply _).1, (Tree.record_tree rfl (.add (.text "a"))).2⟩
  have hcreate : create {} = .ok (ofTree {} .default) := rfl
  have hnew : Attained (ofTree {} .default) := .create hcreate
  have hstart : Attained start := (hnew.obey (.setAllowDuplicates true)).obey (.addKey "5")
  have hs : Attained s :=
    (((hstart.replace ht.1 ht.2).obey (.addKey "a")).obey (.removeKey "a")).obey
      (.setOrder 5 (.seeded 1))
  exact ⟨hs, hs.queue_succeeds⟩

end Session

end TracedTree
