import TracedTree.Proofs.Run

/-!
# Recording is transparent

A run with recordings in it does to root, ledger and answers what the run of its operations alone
does, and a recording that is finished hands out the frames that its operations record one by one.
Both follow from the step: what an operation does to a quiet tree is what it does to a recording
one, and it appends to the recording what it records on its own.

## Main definitions

* `Tree.quiet`: the tree with its recording dropped.
* `Tree.soloFrames`: the frames of the operations of a run that find the tree recording, each
  recorded on its own.
-/

namespace TracedTree

namespace Tree

/-- The tree with its recording dropped. -/
def quiet (t : Tree) : Tree := { t with recording := none }

/-- The call is an operation. -/
def Call.isOperation : Call → Bool
  | .operate _ => true
  | _ => false

/-- The answer is that of an operation. -/
def Answer.isOutcome : Answer → Bool
  | .started => false
  | .finished _ => false
  | _ => true

/-- The frames of the operations that find the tree recording, each recorded on its own. -/
def soloFrames (t : Tree) : List Call → List Frame
  | [] => []
  | .operate op :: calls =>
    (if t.isRecording then (op.record t.quiet).1 else []) ++ (op.apply t).soloFrames calls
  | .startRecording :: calls => t.startRecording.soloFrames calls
  | .finishRecording :: calls => t.finishRecording.2.soloFrames calls

variable {t u v : Tree} {answer : Answer} {answers : List Answer}

/-! ## One operation -/

theorem Valid.quiet (ht : t.Valid) : t.quiet.Valid := ht.withRecording none

/-- What an operation does to root and ledger, and the frames that it has to offer, do not depend
on the recording. -/
theorem operate_uniform (t : Tree) (op : Operation) :
    (∃ e, ∀ r, operate { t with recording := r } op = .error e) ∨
    ∃ answer root ledger frames, ∀ r, operate { t with recording := r } op =
      .ok (answer, { t with root, ledger, recording := r.map (· ++ frames) }) := by
  cases op with
  | add k =>
      by_cases hk : k.kind = t.kind
      · cases hg : t.root.insert t.maxKeys k t.ledger with
        | error c =>
            exact .inl ⟨.corrupted c, fun r => by simp [operate, add, hk, hg]⟩
        | ok g =>
            refine .inr ⟨.added, (Growth.root g).1, (Growth.root g).2, t.addFrames k, fun r => ?_⟩
            simp only [operate, add, hk, hg, ne_eq, not_true_eq_false, if_false]
            rfl
      · refine .inr ⟨.refused t.kind k.kind, t.root, t.ledger, [], fun r => ?_⟩
        simp [operate, add, hk]
  | remove k =>
      by_cases hk : k.kind = t.kind
      · cases hr : t.root.remove t.minKeys k t.ledger with
        | error c =>
            refine .inl ⟨.corrupted c, fun r => ?_⟩
            have hr' : t.root.remove (minKeys { t with recording := r }) k t.ledger =
                .error c := hr
            simp [operate, remove, hk, hr']
        | ok removal =>
            refine .inr ⟨.removed removal.found, removal.node.collapse, removal.ledger,
              t.removeFrames k, fun r => ?_⟩
            have hr' : t.root.remove (minKeys { t with recording := r }) k t.ledger =
                .ok removal := hr
            simp only [operate, remove, hk, hr', ok_map, ne_eq, not_true_eq_false, if_false]
            rfl
      · refine .inr ⟨.removed false, t.root, t.ledger, [], fun r => ?_⟩
        simp [operate, remove, hk]

/-- **The step.** An operation does to a recording tree what it does to the quiet one, and appends
the frames that it records on its own. -/
theorem operate_quiet {op : Operation} (h : t.operate op = .ok (answer, u)) :
    t.quiet.operate op = .ok (answer, u.quiet) ∧
      u.recording = t.recording.map (· ++ (op.record t.quiet).1) := by
  rcases operate_uniform t op with ⟨e, he⟩ | ⟨a, root, ledger, frames, hop⟩
  · have hself : t.operate op = .error e := he t.recording
    rw [hself] at h
    cases h
  · have hself : t.operate op = .ok (a, { t with
        root, ledger, recording := t.recording.map (· ++ frames) }) := hop t.recording
    have hrecord : (op.record t.quiet).1 = frames := by
      have hstart : t.quiet.startRecording = { t with recording := some [] } := rfl
      rw [Operation.record, apply_eq, hstart, hop (some [])]
      rfl
    rw [hself] at h
    obtain ⟨rfl, rfl⟩ := Prod.mk.inj (Except.ok.inj h)
    exact ⟨hop none, by rw [hrecord]⟩

theorem isOutcome_of_operate {op : Operation} (h : t.operate op = .ok (answer, u)) :
    answer.isOutcome = true := by
  cases op with
  | add k =>
      rw [operate] at h
      split at h <;> cases h <;> rfl
  | remove k =>
      obtain ⟨r, -, hr⟩ := map_eq_ok_iff.1 h
      rw [← (Prod.mk.inj hr).1]
      rfl

/-! ## Whole runs -/

/-- What a run gives back for its operations, and the tree that it ends in, are those of the run of
the operations alone. -/
theorem run_quiet {calls : List Call} (h : t.run calls = .ok (answers, u)) :
    t.quiet.run (calls.filter Call.isOperation) =
      .ok (answers.filter Answer.isOutcome, u.quiet) := by
  induction calls generalizing t answers with
  | nil =>
      obtain ⟨rfl, rfl⟩ := Prod.mk.inj (Except.ok.inj h)
      rfl
  | cons c calls ih =>
      obtain ⟨answer, w, rest, hc, hrest, rfl⟩ := run_cons_iff.1 h
      cases c with
      | operate op =>
          have hstep := (operate_quiet hc).1
          have houtcome := isOutcome_of_operate hc
          rw [List.filter_cons_of_pos rfl, List.filter_cons_of_pos houtcome]
          exact run_cons hstep (ih hrest)
      | startRecording =>
          obtain ⟨rfl, rfl⟩ := Prod.mk.inj (Except.ok.inj hc)
          have htail := ih hrest
          exact htail
      | finishRecording =>
          obtain ⟨rfl, rfl⟩ := Prod.mk.inj (Except.ok.inj hc)
          have htail := ih hrest
          exact htail

/-- While no recording is finished, the frames add up. -/
theorem recording_run {calls : List Call} (h : t.run calls = .ok (answers, u))
    (hopen : Call.finishRecording ∉ calls) :
    u.recording.getD [] = t.recording.getD [] ++ t.soloFrames calls := by
  induction calls generalizing t answers with
  | nil =>
      obtain ⟨rfl, rfl⟩ := Prod.mk.inj (Except.ok.inj h)
      simp [soloFrames]
  | cons c calls ih =>
      obtain ⟨answer, w, rest, hc, hrest, rfl⟩ := run_cons_iff.1 h
      rw [List.mem_cons, not_or] at hopen
      have htail := ih hrest hopen.2
      cases c with
      | operate op =>
          have happly : op.apply t = w := apply_of_operate hc
          rw [htail, (operate_quiet hc).2, soloFrames, happly, ← List.append_assoc]
          cases hr : t.recording <;> simp [isRecording, hr]
      | startRecording =>
          obtain ⟨rfl, rfl⟩ := Prod.mk.inj (Except.ok.inj hc)
          rw [htail]
          rfl
      | finishRecording => exact absurd rfl hopen.1

/-- **Recording is transparent.** Take any run from a valid tree. Without its recordings it gives
the same answers and ends in the same tree. Where a recording is finished, the tree hands out what
it had recorded at some point before, followed by what the calls since then have recorded, each
operation on its own; and behind such a point it has recorded nothing. -/
theorem run_recording (ht : t.Valid) (calls : List Call) :
    ∃ answers u, t.run calls = .ok (answers, u) ∧
      t.quiet.run (calls.filter Call.isOperation) =
        .ok (answers.filter Answer.isOutcome, u.quiet) ∧
      ∀ before since after, calls = before ++ since ++ .finishRecording :: after →
        Call.finishRecording ∉ since →
        ∃ earlier v, t.run before = .ok (earlier, v) ∧
          answers[(before ++ since).length]? =
            some (.finished (v.recording.getD [] ++ v.soloFrames since)) ∧
          (before.getLast? = some .finishRecording → v.recording = none) := by
  obtain ⟨answers, u, hrun, -, -⟩ := ht.exists_run calls
  refine ⟨answers, u, hrun, run_quiet hrun, ?_⟩
  rintro before since after rfl hopen
  obtain ⟨as, v, hbefore, hv, -⟩ := ht.exists_run before
  obtain ⟨bs, w, hsince, hw, -⟩ := hv.exists_run since
  obtain ⟨cs, x, hafter, -⟩ := (hw.withRecording none).exists_run after
  have hfinish : w.run (.finishRecording :: after) = .ok (.finished w.finishRecording.1 :: cs, x) :=
    run_cons rfl hafter
  have hwhole := run_append (run_append hbefore hsince) hfinish
  obtain ⟨rfl, -⟩ := Prod.mk.inj (Except.ok.inj (hrun.symm.trans hwhole))
  refine ⟨as, v, hbefore, ?_, ?_⟩
  · rw [← recording_run hsince hopen, ← length_run (run_append hbefore hsince)]
    simp [finishRecording]
  · intro hlast
    obtain ⟨init, rfl⟩ : ∃ init, before = init ++ [Call.finishRecording] :=
      List.getLast?_eq_some_iff.1 hlast
    obtain ⟨ds, y, hinit, -, -⟩ := ht.exists_run init
    have hend : y.run [.finishRecording] =
        .ok ([.finished y.finishRecording.1], y.finishRecording.2) := rfl
    obtain ⟨-, rfl⟩ := Prod.mk.inj (Except.ok.inj (hbefore.symm.trans (run_append hinit hend)))
    rfl

/-- Recordings that are started twice, finished twice, and meet a refused key. -/
theorem run_recording_small :
    let t : Tree := empty 2 .text (by decide)
    let calls : List Call := [.operate (.add (.text "b")), .startRecording,
      .operate (.add (.text "a")), .startRecording, .operate (.add (.ofInt 1)),
      .operate (.add (.text "c")), .finishRecording, .operate (.remove (.text "b")),
      .finishRecording]
    t.Valid ∧ ∃ answers u, t.run calls = .ok (answers, u) ∧
      t.quiet.run (calls.filter Call.isOperation) =
        .ok (answers.filter Answer.isOutcome, u.quiet) ∧
      ∀ before since after, calls = before ++ since ++ .finishRecording :: after →
        Call.finishRecording ∉ since →
        ∃ earlier v, t.run before = .ok (earlier, v) ∧
          answers[(before ++ since).length]? =
            some (.finished (v.recording.getD [] ++ v.soloFrames since)) ∧
          (before.getLast? = some .finishRecording → v.recording = none) := by
  intro t calls
  have ht : t.Valid := valid_empty 2 .text (by decide)
  exact ⟨ht, run_recording ht calls⟩

end Tree

end TracedTree
