import TracedTree.Playback.Sequencer
import TracedTree.Proofs.Tree

/-!
# Runs of calls on a tree

A run is a list of calls, made one after the other: operations, and starting and finishing a
recording. A refused key is an answer, so a run breaks off only when a node is found corrupted;
on a valid tree that never happens, and every tree that a run comes through is valid.

## Main definitions

* `Tree.Call`, `Tree.Answer`: what can be asked of a tree, and what comes back.
* `Tree.perform`, `Tree.run`: one call, and a list of calls.
* `Tree.Initial`: the tree is fresh or was imported.
-/

namespace TracedTree

namespace Tree

/-- What can be asked of a tree that keeps it in use. -/
inductive Call where
  | operate (op : Operation)
  | startRecording
  | finishRecording
deriving DecidableEq

/-- What a call gives back. -/
inductive Answer where
  | added
  | refused (expected found : Kind)
  | removed (found : Bool)
  | started
  | finished (frames : List Frame)
deriving DecidableEq

/-- Perform an operation. A key of the wrong kind is refused and the tree stays as it was. -/
def operate (t : Tree) : Operation → Except Error (Answer × Tree)
  | .add k =>
    match t.add k with
    | .ok u => .ok (.added, u)
    | .error (.kindMismatch expected found) => .ok (.refused expected found, t)
    | .error e => .error e
  | .remove k => (t.remove k).map fun r => (.removed r.1, r.2)

theorem apply_eq (t : Tree) (op : Operation) :
    op.apply t = ((t.operate op).toOption.map (·.2)).getD t := by
  cases op with
  | add k =>
      cases h : t.add k with
      | ok u => simp [Operation.apply, operate, h]
      | error e => cases e <;> simp [Operation.apply, operate, h]
  | remove k => cases h : t.remove k <;> simp [Operation.apply, operate, h]

theorem apply_of_operate {t u : Tree} {op : Operation} {answer : Answer}
    (h : t.operate op = .ok (answer, u)) : op.apply t = u := by
  rw [apply_eq, h]
  rfl

/-- Perform one call. -/
def perform (t : Tree) : Call → Except Error (Answer × Tree)
  | .operate op => t.operate op
  | .startRecording => .ok (.started, t.startRecording)
  | .finishRecording => .ok (.finished t.finishRecording.1, t.finishRecording.2)

/-- Perform calls one after the other and collect the answers. -/
def run (t : Tree) : List Call → Except Error (List Answer × Tree)
  | [] => .ok ([], t)
  | c :: calls => do
    let (answer, u) ← t.perform c
    let (answers, v) ← u.run calls
    return (answer :: answers, v)

/-- The tree is fresh or was imported. -/
def Initial (t : Tree) : Prop :=
  (∃ maxKeys kind, ofMaxKeys maxKeys kind = .ok t) ∨ ∃ text, importText text = .ok t

variable {t u v : Tree} {answer : Answer} {answers more : List Answer}

/-! ## The run as a sequence of steps -/

theorem run_cons {c : Call} {calls : List Call} (hc : t.perform c = .ok (answer, u))
    (hcalls : u.run calls = .ok (answers, v)) :
    t.run (c :: calls) = .ok (answer :: answers, v) := by
  simp [run, hc, hcalls]

theorem run_cons_iff {c : Call} {calls : List Call} :
    t.run (c :: calls) = .ok (answers, v) ↔
      ∃ answer u rest, t.perform c = .ok (answer, u) ∧ u.run calls = .ok (rest, v) ∧
        answers = answer :: rest := by
  constructor
  · intro h
    rw [run] at h
    obtain ⟨⟨answer, u⟩, hc, h⟩ := bind_eq_ok_iff.1 h
    obtain ⟨⟨rest, w⟩, hcalls, h⟩ := bind_eq_ok_iff.1 h
    obtain ⟨rfl, rfl⟩ := Prod.mk.inj (Except.ok.inj h)
    exact ⟨answer, u, rest, hc, hcalls, rfl⟩
  · rintro ⟨answer, u, rest, hc, hcalls, rfl⟩
    exact run_cons hc hcalls

theorem run_append {xs ys : List Call} (hx : t.run xs = .ok (answers, u))
    (hy : u.run ys = .ok (more, v)) : t.run (xs ++ ys) = .ok (answers ++ more, v) := by
  induction xs generalizing t answers with
  | nil =>
      obtain ⟨rfl, rfl⟩ := Prod.mk.inj (Except.ok.inj hx)
      exact hy
  | cons c xs ih =>
      obtain ⟨answer, w, rest, hc, hrest, rfl⟩ := run_cons_iff.1 hx
      exact run_cons hc (ih hrest)

theorem length_run {calls : List Call} (h : t.run calls = .ok (answers, u)) :
    answers.length = calls.length := by
  induction calls generalizing t answers with
  | nil =>
      obtain ⟨rfl, rfl⟩ := Prod.mk.inj (Except.ok.inj h)
      rfl
  | cons c calls ih =>
      obtain ⟨answer, w, rest, -, hrest, rfl⟩ := run_cons_iff.1 h
      rw [List.length_cons, List.length_cons, ih hrest]

/-! ## What one step and a whole run preserve -/

/-- Whether a tree is recording does not matter for its being valid. -/
theorem Valid.withRecording (ht : t.Valid) (recording : Option (List Frame)) :
    Valid { t with recording } :=
  ⟨ht.fits, ht.root_keys, ht.capacity, ht.occupancy, ht.kinds, ht.ascending, ht.level,
    ht.ids_nodup, ht.ids_le⟩

theorem Valid.exists_perform (ht : t.Valid) (c : Call) :
    ∃ answer u, t.perform c = .ok (answer, u) ∧ u.Valid ∧ Alike t u := by
  cases c with
  | startRecording => exact ⟨_, _, rfl, ht.withRecording _, rfl, rfl⟩
  | finishRecording => exact ⟨_, _, rfl, ht.withRecording _, rfl, rfl⟩
  | operate op =>
      cases op with
      | add k =>
          by_cases hk : k.kind = t.kind
          · obtain ⟨u, hu, hvalid, halike, -⟩ := ht.exists_add hk
            exact ⟨.added, u, by simp [perform, operate, hu], hvalid, halike⟩
          · refine ⟨.refused t.kind k.kind, t, ?_, ht, rfl, rfl⟩
            simp [perform, operate, add, hk]
      | remove k =>
          by_cases hk : k.kind = t.kind
          · obtain ⟨found, u, hu, hvalid, halike, -⟩ := ht.exists_remove hk
            exact ⟨.removed found, u, by simp [perform, operate, hu], hvalid, halike⟩
          · refine ⟨.removed false, t, ?_, ht, rfl, rfl⟩
            simp [perform, operate, remove, hk]

theorem Valid.exists_run (ht : t.Valid) (calls : List Call) :
    ∃ answers u, t.run calls = .ok (answers, u) ∧ u.Valid ∧ Alike t u := by
  induction calls generalizing t with
  | nil => exact ⟨[], t, rfl, ht, rfl, rfl⟩
  | cons c calls ih =>
      obtain ⟨answer, u, hc, hu, halike⟩ := ht.exists_perform c
      obtain ⟨answers, v, hcalls, hv, halike'⟩ := ih hu
      exact ⟨answer :: answers, v, run_cons hc hcalls, hv, halike'.maxKeys.trans halike.maxKeys,
        halike'.kind.trans halike.kind⟩

theorem Initial.valid (ht : t.Initial) : t.Valid := by
  rcases ht with ⟨maxKeys, kind, h⟩ | ⟨text, h⟩
  · exact (valid_ofMaxKeys h).1
  · exact (valid_importText h).1

/-- **Invariants hold along every run.** From a fresh or imported tree every run succeeds, and the
tree that it ends in passes the check, is valid, and has the keys of every node in order. As a
prefix of a run is a run, this holds after every call. -/
theorem check_run (ht : t.Initial) (calls : List Call) :
    ∃ answers u, t.run calls = .ok (answers, u) ∧ u.check = .ok () ∧ u.Valid ∧
      ∀ n ∈ u.root.preorder, Ascending n.keys := by
  obtain ⟨answers, u, hrun, hu, -⟩ := ht.valid.exists_run calls
  exact ⟨answers, u, hrun, (check_eq_ok_iff u).2 hu, hu, hu.ascending_node⟩

/-- A run that divides a root, removes from it, and is refused a text. -/
theorem check_run_small :
    (empty 2 .number (by decide)).Initial ∧
      ∃ answers u, (empty 2 .number (by decide)).run
          [.operate (.add (.ofInt 2)), .startRecording, .operate (.add (.ofInt 1)),
            .operate (.add (.ofInt 2)), .finishRecording, .operate (.add (.text "a")),
            .operate (.remove (.ofInt 1))] = .ok (answers, u) ∧
        u.check = .ok () ∧ u.Valid ∧ ∀ n ∈ u.root.preorder, Ascending n.keys := by
  have hinitial : (empty 2 .number (by decide)).Initial := .inl ⟨2, .number, rfl⟩
  exact ⟨hinitial, check_run hinitial _⟩

end Tree

end TracedTree
