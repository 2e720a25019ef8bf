import TracedTree.Proofs.Run

/-!
# Identities are accounted for

The counters of a tree, its height and the identities of its nodes tell the same story. A division
and a new root take one new identity each, a merge and a root that gives way drop one each, and
nothing else changes the identities. So one number does not change in the course of a run: the
number of nodes and merges less that of divisions and levels.

## Main definitions

* `Tree.Gained t u s h`: from `t` to `u`, `s` nodes were divided and `h` levels were added.
* `Tree.Lost t u m h`: from `t` to `u`, pairs of nodes were merged `m` times and `h` levels went.
* `Tree.Continues t u`: what holds from any point of a run to any later one.
-/

namespace TracedTree

variable {capacity h held : Nat} {k : Key}

/-! ## The new root -/

/-- A new root adds one level and takes one identity. -/
theorem Growth.Filled.exists_root {g : Growth × Ledger} (hg : g.1.Filled capacity h held) :
    ∃ e, e ≤ 1 ∧ HandedOut e g.2 (Growth.root g).2 g.1.ids (Growth.root g).1.ids ∧
      (Growth.root g).2.counters = g.2.counters ∧ (Growth.root g).1.height = h + e := by
  obtain ⟨e, hout⟩ := Growth.ids_root g
  obtain ⟨g, l⟩ := g
  have hlast : (Growth.root (g, l)).2.lastId = l.lastId + e := hout.lastId_eq
  cases g with
  | whole n =>
      obtain rfl : e = 0 := by
        simp only [Growth.root] at hlast
        omega
      exact ⟨0, Nat.zero_le 1, hout, rfl, hg.1.height_eq⟩
  | halves left median right =>
      obtain rfl : e = 1 := by
        simp only [Growth.root, Ledger.issue, Ledger.freshId] at hlast
        omega
      have hopen : Node.Opened capacity h ([] : List Key) [] [] [] := ⟨rfl, rfl, by simp⟩
      exact ⟨1, Nat.le_refl 1, hout, rfl,
        (hopen.balanced_halves hg.1 hg.2 l.freshId median).height_eq⟩

/-- A root that gives way to its child takes one level and its identity along. -/
theorem Node.Balanced.exists_collapse {n : Node Key} (hn : n.Balanced capacity h) :
    ∃ gone : List Nat, gone.length ≤ 1 ∧ n.ids.Perm (n.collapse.ids ++ gone) ∧
      h = n.collapse.height + gone.length := by
  rcases collapse_cases hn with ⟨heq, -⟩ | ⟨i, c, hn', heq, hc⟩
  · rw [heq, hn.height_eq]
    exact ⟨[], by simp⟩
  · rw [heq, hc.1.height_eq]
    refine ⟨[n.id], by simp, ?_, ?_⟩
    · rw [hn', ids_mk]
      simpa using (List.perm_append_singleton n.id c.ids).symm
    · have hfilled : Opened capacity i ([] : List Key) [] [] [] := ⟨rfl, rfl, by simp⟩
      have hheight := (hfilled.balanced hc n.id).height_eq
      have hsame : n.height = h := hn.height_eq
      rw [hn'] at hsame
      exact hsame.symm.trans hheight

namespace Tree

variable {t u v : Tree}

/-- Nodes were divided and a level was added, or not; the identities that came to the tree are
those that follow the last one handed out. -/
structure Gained (t u : Tree) (s h : Nat) : Prop where
  counters_eq : u.counters = { t.counters with splits := t.counters.splits + s }
  height_eq : u.height = t.height + h
  height_le : h ≤ 1
  ids : u.root.ids.Perm (t.root.ids ++ List.range' t.ledger.freshId (s + h))
  lastId_eq : u.ledger.lastId = t.ledger.lastId + (s + h)

/-- Pairs of nodes were merged and a level went, or not, and as many identities are gone from the
tree. -/
structure Lost (t u : Tree) (m h : Nat) : Prop where
  splits_eq : u.counters.splits = t.counters.splits
  merges_eq : u.counters.merges = t.counters.merges + m
  height_eq : t.height = u.height + h
  height_le : h ≤ 1
  ids : ∃ gone, t.root.ids.Perm (u.root.ids ++ gone) ∧ gone.length = m + h
  lastId_eq : u.ledger.lastId = t.ledger.lastId

/-! ## One operation -/

theorem gained_refl (t : Tree) : Gained t t 0 0 :=
  ⟨rfl, rfl, Nat.zero_le 1, by simp, rfl⟩

theorem lost_refl (t : Tree) : Lost t t 0 0 :=
  ⟨rfl, rfl, rfl, Nat.zero_le 1, ⟨[], by simp⟩, rfl⟩

/-- An insertion accounts for the identities that it hands out. -/
theorem Valid.gained_add (ht : t.Valid) (hk : k.kind = t.kind) :
    ∃ u s h, t.add k = .ok u ∧ Gained t u s h := by
  obtain ⟨h, hbal, hlen, -⟩ := t.valid_iff.1 ht
  have hcap : 0 < t.maxKeys := Nat.zero_lt_of_lt t.two_le_maxKeys
  obtain ⟨g, s, hg, hout, hcounters⟩ := Node.ids_insert (k := k) hcap hbal hlen t.ledger
  obtain ⟨g', hg', hfilled, -⟩ :=
    Node.inserted_insert (k := k) hcap hbal hlen ht.ascending t.ledger
  obtain rfl : g = g' := Except.ok.inj (hg.symm.trans hg')
  obtain ⟨e, he, hroot, hkept, hheight⟩ := hfilled.exists_root
  refine ⟨t.advance (Growth.root g).1 (Growth.root g).2 fun _ => t.addFrames k, s, e, ?_, ?_⟩
  · simp [add, hk, hg]
  · have hwhole := hout.trans hroot
    refine ⟨hkept.trans hcounters, ?_, he, hwhole.perm, hwhole.lastId_eq⟩
    have hbefore : t.height = h := hbal.height_eq
    rw [hbefore]
    exact hheight

/-- A removal accounts for the identities that it drops. -/
theorem Valid.lost_remove (ht : t.Valid) (hk : k.kind = t.kind) :
    ∃ found u m h, t.remove k = .ok (found, u) ∧ Lost t u m h := by
  obtain ⟨h, hbal, -, hroot, hasc, -⟩ := t.valid_iff.1 ht
  obtain ⟨r, hr, hshrunk, -⟩ :=
    Node.exists_remove (k := k) t.two_le_maxKeys hbal hroot hasc t.ledger
  obtain ⟨dropped, hperm, hlast, hmerges, hsplits⟩ := hshrunk.dropped
  obtain ⟨gone, hgone, hcollapse, hheight⟩ := hshrunk.balanced.exists_collapse
  refine ⟨r.found, t.advance r.node.collapse r.ledger fun _ => t.removeFrames k, dropped.length,
    gone.length, ?_, ⟨hsplits, hmerges, ?_, hgone, ⟨gone ++ dropped, ?_, ?_⟩, hlast⟩⟩
  · simp [remove, hk, minKeys, hr]
  · have hbefore : t.height = h := hbal.height_eq
    rw [hbefore]
    exact hheight
  · rw [← List.append_assoc]
    exact hperm.trans (hcollapse.append_right dropped)
  · rw [List.length_append, Nat.add_comm]

/-- A refused key changes no identity. -/
theorem Valid.gained_operate (ht : t.Valid) (k : Key) :
    ∃ answer u s h, t.operate (.add k) = .ok (answer, u) ∧ Gained t u s h := by
  by_cases hk : k.kind = t.kind
  · obtain ⟨u, s, h, hu, hgained⟩ := ht.gained_add hk
    exact ⟨.added, u, s, h, by simp [operate, hu], hgained⟩
  · exact ⟨.refused t.kind k.kind, t, 0, 0, by simp [operate, add, hk], gained_refl t⟩

theorem Valid.lost_operate (ht : t.Valid) (k : Key) :
    ∃ answer u m h, t.operate (.remove k) = .ok (answer, u) ∧ Lost t u m h := by
  by_cases hk : k.kind = t.kind
  · obtain ⟨found, u, m, h, hu, hlost⟩ := ht.lost_remove hk
    exact ⟨.removed found, u, m, h, by simp [operate, hu], hlost⟩
  · exact ⟨.removed false, t, 0, 0, by simp [operate, remove, hk], lost_refl t⟩

/-! ## Whole runs -/

/-- A later tree of a run has no identities but those of the earlier one and new ones, and its nodes
are as many more than before as the counters and the height say. -/
structure Continues (t u : Tree) : Prop where
  lastId_le : t.ledger.lastId ≤ u.ledger.lastId
  old_or_new : ∀ id ∈ u.root.ids, id ∈ t.root.ids ∨ t.ledger.lastId < id
  balance : u.root.nodeCount + u.counters.merges + (t.counters.splits + t.height) =
    t.root.nodeCount + t.counters.merges + (u.counters.splits + u.height)

theorem length_ids (n : Node Key) : n.ids.length = n.nodeCount := by
  rw [Node.ids, List.length_map, Node.nodeCount]

theorem Continues.refl (t : Tree) : Continues t t :=
  ⟨Nat.le_refl _, fun _ h => .inl h, rfl⟩

theorem Continues.trans (h : Continues t u) (h' : Continues u v) : Continues t v := by
  refine ⟨Nat.le_trans h.lastId_le h'.lastId_le, ?_, ?_⟩
  · intro id hid
    rcases h'.old_or_new id hid with hid | hid
    · exact h.old_or_new id hid
    · exact .inr (Nat.lt_of_le_of_lt h.lastId_le hid)
  · have hfirst := h.balance
    have hsecond := h'.balance
    omega

/-- Whether a tree is recording does not matter for its identities. -/
theorem continues_of_eq (hroot : u.root = t.root) (hledger : u.ledger = t.ledger) :
    Continues t u := by
  refine ⟨Nat.le_of_eq (by rw [hledger]), ?_, ?_⟩
  · intro id hid
    exact .inl (hroot ▸ hid)
  · rw [counters, counters, height, height, hroot, hledger]

theorem Gained.continues {s h : Nat} (hg : Gained t u s h) : Continues t u := by
  have hcount := hg.ids.length_eq
  rw [List.length_append, List.length_range', length_ids, length_ids] at hcount
  refine ⟨?_, ?_, ?_⟩
  · rw [hg.lastId_eq]
    exact Nat.le_add_right ..
  · intro id hid
    rcases List.mem_append.1 (hg.ids.mem_iff.1 hid) with hid | hid
    · exact .inl hid
    · exact .inr (List.mem_range'_1.1 hid).1
  · rw [hg.counters_eq, hg.height_eq, hcount]
    simp only
    omega

theorem Lost.continues {m h : Nat} (hl : Lost t u m h) : Continues t u := by
  obtain ⟨gone, hids, hlength⟩ := hl.ids
  have hcount := hids.length_eq
  rw [List.length_append, length_ids, length_ids, hlength] at hcount
  refine ⟨Nat.le_of_eq hl.lastId_eq.symm, ?_, ?_⟩
  · intro id hid
    exact .inl (hids.mem_iff.2 (List.mem_append_left _ hid))
  · rw [hl.splits_eq, hl.merges_eq, hl.height_eq, hcount]
    omega

/-- **The step.** Every call on a valid tree goes on with its identities. -/
theorem Valid.continues_perform (ht : t.Valid) {c : Call} {answer : Answer}
    (hc : t.perform c = .ok (answer, u)) : Continues t u := by
  cases c with
  | startRecording =>
      obtain ⟨-, rfl⟩ := Prod.mk.inj (Except.ok.inj hc)
      exact continues_of_eq rfl rfl
  | finishRecording =>
      obtain ⟨-, rfl⟩ := Prod.mk.inj (Except.ok.inj hc)
      exact continues_of_eq rfl rfl
  | operate op =>
      cases op with
      | add k =>
          obtain ⟨answer', u', s, h, hu, hgained⟩ := ht.gained_operate k
          obtain ⟨-, rfl⟩ := Prod.mk.inj (Except.ok.inj (hc.symm.trans hu))
          exact hgained.continues
      | remove k =>
          obtain ⟨answer', u', m, h, hu, hlost⟩ := ht.lost_operate k
          obtain ⟨-, rfl⟩ := Prod.mk.inj (Except.ok.inj (hc.symm.trans hu))
          exact hlost.continues

/-- **The run.** So does every run. -/
theorem Valid.continues_run (ht : t.Valid) (calls : List Call) :
    ∃ answers u, t.run calls = .ok (answers, u) ∧ u.Valid ∧ Continues t u := by
  induction calls generalizing t with
  | nil => exact ⟨[], t, rfl, ht, .refl t⟩
  | cons c calls ih =>
      obtain ⟨answer, u, hc, hu, -⟩ := ht.exists_perform c
      obtain ⟨answers, v, hcalls, hv, hrest⟩ := ih hu
      exact ⟨answer :: answers, v, run_cons hc hcalls, hv, (ht.continues_perform hc).trans hrest⟩

/-- A fresh tree has one node, and nothing has been counted. -/
theorem balance_ofMaxKeys {maxKeys : Nat} {kind : Kind} (h : ofMaxKeys maxKeys kind = .ok t) :
    t.root.nodeCount = 1 ∧ t.counters = {} ∧ t.height = 0 := by
  rw [ofMaxKeys] at h
  split at h
  · obtain rfl := Except.ok.inj h
    exact ⟨rfl, rfl, rfl⟩
  · cases h

/-- **Identities are accounted for.** Take any run from a valid tree, and the tree that it comes to.
An insertion into this tree adds the identities that follow the last one handed out, as many as it
divides nodes and adds levels, and no others; a removal hands out none, and drops as many as it
merges nodes and takes levels away. Whatever comes later, an identity that was in the tree at first
and is no longer stays out of it. And from a fresh tree on, the nodes are one more than the
divisions and levels less the merges. -/
theorem Valid.identities_accounted (ht : t.Valid) (calls : List Call) :
    ∃ answers u, t.run calls = .ok (answers, u) ∧
      (∀ k, ∃ answer v s h, u.operate (.add k) = .ok (answer, v) ∧ Gained u v s h) ∧
      (∀ k, ∃ answer v m h, u.operate (.remove k) = .ok (answer, v) ∧ Lost u v m h) ∧
      (∀ later, ∃ answers' v, u.run later = .ok (answers', v) ∧
        ∀ id ∈ t.root.ids, id ∉ u.root.ids → id ∉ v.root.ids) ∧
      ((∃ maxKeys kind, ofMaxKeys maxKeys kind = .ok t) →
        u.root.nodeCount + u.counters.merges = 1 + u.counters.splits + u.height) := by
  obtain ⟨answers, u, hrun, hu, hcontinues⟩ := ht.continues_run calls
  refine ⟨answers, u, hrun, hu.gained_operate, hu.lost_operate, ?_, ?_⟩
  · intro later
    obtain ⟨answers', v, hlater, -, hrest⟩ := hu.continues_run later
    refine ⟨answers', v, hlater, ?_⟩
    intro id hid hgone hback
    rcases hrest.old_or_new id hback with hold | hnew
    · exact hgone hold
    · have hle := ht.ids_le id hid
      have hlast := hcontinues.lastId_le
      omega
  · rintro ⟨maxKeys, kind, hfresh⟩
    obtain ⟨hnodes, hcounters, hheight⟩ := balance_ofMaxKeys hfresh
    have hbalance := hcontinues.balance
    rw [hnodes, hcounters, hheight] at hbalance
    simp only at hbalance
    omega

/-- A run that divides a root and takes a key out of a leaf again. -/
theorem identities_accounted_small :
    let t := empty 2 .number (by decide)
    let calls : List Call := [.operate (.add (.ofInt 2)), .operate (.add (.ofInt 1)),
      .operate (.add (.ofInt 3)), .operate (.remove (.ofInt 1))]
    t.Valid ∧ ofMaxKeys 2 .number = .ok t ∧
    ∃ answers u, t.run calls = .ok (answers, u) ∧
      (∀ k, ∃ answer v s h, u.operate (.add k) = .ok (answer, v) ∧ Gained u v s h) ∧
      (∀ k, ∃ answer v m h, u.operate (.remove k) = .ok (answer, v) ∧ Lost u v m h) ∧
      (∀ later, ∃ answers' v, u.run later = .ok (answers', v) ∧
        ∀ id ∈ t.root.ids, id ∉ u.root.ids → id ∉ v.root.ids) ∧
      ((∃ maxKeys kind, ofMaxKeys maxKeys kind = .ok t) →
        u.root.nodeCount + u.counters.merges = 1 + u.counters.splits + u.height) := by
  intro t calls
  have ht : t.Valid := valid_empty 2 .number (by decide)
  exact ⟨ht, rfl, ht.identities_accounted calls⟩

end Tree

end TracedTree
