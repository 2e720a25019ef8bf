import TracedTree.Proofs.Run
import TracedTree.Session

/-!
# Forecasts of a queue

`Session.foresee` runs a queue on a plain list of keys, and the sequencer runs it on the tree. The
two agree on insertions. On a removal the list loses every equal key and the tree loses one, so
they agree as long as every removal meets one key; and once they differ they differ for good,
because a removal is only queued when its key is foreseen. `perm_of_lone` and `lone_of_countP_eq`
are these two directions.

## Main definitions

* `Session.Feasible kind keys queue`: no operation of the queue is foreseen to fail.
* `Session.Covers keys more`: every key that occurs in the first list occurs in the second.
* `Session.Lone t queue`: every removal of the queue meets exactly one equal key in the tree.
-/

namespace TracedTree

/-! ## One operation on a valid tree -/

namespace Tree

variable {t : Tree} {k : Key}

theorem Valid.inserted_apply (ht : t.Valid) (hk : k.kind = t.kind) :
    Inserted k t.keys ((Operation.add k).apply t).keys := by
  obtain ⟨u, hu, -, -, hins⟩ := ht.exists_add hk
  simpa [Operation.apply, hu] using hins

theorem Valid.removed_apply (ht : t.Valid) (hk : ∃ a ∈ t.keys, k.same a) :
    Removed k t.keys ((Operation.remove k).apply t).keys := by
  obtain ⟨a, ha, hsame⟩ := hk
  by_cases hkind : k.kind = t.kind
  · obtain ⟨found, u, hu, -, -, ⟨-, hremoved⟩ | ⟨-, hnone, -⟩⟩ := ht.exists_remove hkind
    · simpa [Operation.apply, hu] using hremoved
    · exact absurd hsame (hnone a ha)
  · exact absurd hsame (ht.not_same_of_kind_ne hkind a ha)

theorem Valid.valid_apply (ht : t.Valid) (op : Operation) :
    (op.apply t).Valid ∧ Alike t (op.apply t) := by
  obtain ⟨answer, u, hop, hvalid, halike⟩ := ht.exists_perform (.operate op)
  rw [apply_of_operate hop]
  exact ⟨hvalid, halike⟩

end Tree

namespace Session

variable {kind : Kind} {keys more : List Key} {op : Operation} {queue rest : List Operation}
  {t : Tree}

/-! ## Feasible queues -/

/-- An operation is not foreseen to fail: an added key is of the kind, and a removed one occurs. -/
def Admits (kind : Kind) (keys : List Key) : Operation → Prop
  | .add k => k.kind = kind
  | .remove k => ∃ a ∈ keys, k.same a

/-- No operation of a queue is foreseen to fail at its turn. -/
def Feasible (kind : Kind) : List Key → List Operation → Prop
  | _, [] => True
  | keys, op :: queue => Admits kind keys op ∧ Feasible kind (foresee keys op) queue

instance (kind : Kind) (keys : List Key) (op : Operation) : Decidable (Admits kind keys op) := by
  cases op
  · exact inferInstanceAs (Decidable (_ = _))
  · exact inferInstanceAs (Decidable (∃ a ∈ keys, _))

instance decidableFeasible (kind : Kind) :
    (keys : List Key) → (queue : List Operation) → Decidable (Feasible kind keys queue)
  | _, [] => isTrue trivial
  | keys, op :: queue =>
    have := decidableFeasible kind (foresee keys op) queue
    inferInstanceAs (Decidable (_ ∧ _))

/-- Every key that occurs in the first list occurs in the second. -/
def Covers (keys more : List Key) : Prop :=
  ∀ k : Key, (∃ a ∈ keys, k.same a) → ∃ a ∈ more, k.same a

theorem feasible_append :
    Feasible kind keys (queue ++ rest) ↔
      Feasible kind keys queue ∧ Feasible kind (queue.foldl foresee keys) rest := by
  induction queue generalizing keys with
  | nil => simp [Feasible]
  | cons op queue ih => simp [Feasible, ih, and_assoc]

theorem Covers.admits (h : Covers keys more) (hop : Admits kind keys op) :
    Admits kind more op := by
  cases op with
  | add k => exact hop
  | remove k => exact h k hop

theorem Covers.foresee (h : Covers keys more) (op : Operation) :
    Covers (foresee keys op) (foresee more op) := by
  cases op with
  | add k =>
      rintro j ⟨a, ha, hsame⟩
      rcases List.mem_append.1 ha with ha | ha
      · obtain ⟨b, hb, hb'⟩ := h j ⟨a, ha, hsame⟩
        exact ⟨b, List.mem_append_left _ hb, hb'⟩
      · exact ⟨a, List.mem_append_right _ ha, hsame⟩
  | remove k =>
      rintro j ⟨a, ha, hsame⟩
      obtain ⟨ha, hne⟩ := List.mem_filter.1 ha
      obtain ⟨b, hb, hb'⟩ := h j ⟨a, ha, hsame⟩
      refine ⟨b, List.mem_filter.2 ⟨hb, ?_⟩, hb'⟩
      have hcongr : b.same k = a.same k :=
        Key.same_congr (Key.same_trans (Key.same_symm hb') hsame) k
      rw [hcongr]
      exact hne

/-- With more keys a queue stays feasible. -/
theorem Feasible.mono (hq : Feasible kind keys queue) (h : Covers keys more) :
    Feasible kind more queue := by
  induction queue generalizing keys more with
  | nil => trivial
  | cons op queue ih => exact ⟨h.admits hq.1, ih hq.2 (h.foresee op)⟩

/-- An operation leaves at least the foreseen keys in the tree. -/
theorem covers_apply (ht : t.Valid) (hop : Admits t.kind t.keys op) :
    Covers (foresee t.keys op) (op.apply t).keys := by
  cases op with
  | add k =>
      rintro j ⟨a, ha, hsame⟩
      refine ⟨a, (ht.inserted_apply hop).mem_iff.2 ?_, hsame⟩
      rcases List.mem_append.1 ha with ha | ha
      · exact .inr ha
      · exact .inl (List.mem_singleton.1 ha)
  | remove k =>
      rintro j ⟨a, ha, hsame⟩
      obtain ⟨ha, hne⟩ := List.mem_filter.1 ha
      obtain ⟨before, b, after, hkeys, hrest, hb⟩ := ht.removed_apply hop
      refine ⟨a, ?_, hsame⟩
      rw [hkeys] at ha
      rw [hrest]
      rcases List.mem_append.1 ha with ha | ha
      · exact List.mem_append_left _ ha
      · rcases List.mem_cons.1 ha with rfl | ha
        · simp [Key.same_symm hb] at hne
        · exact List.mem_append_right _ ha

/-- Executing the first operation of a feasible queue leaves a feasible queue. -/
theorem Feasible.apply (ht : t.Valid) (hq : Feasible t.kind t.keys (op :: queue)) :
    Feasible (op.apply t).kind (op.apply t).keys queue := by
  rw [(ht.valid_apply op).2.kind]
  exact hq.2.mono (covers_apply ht hq.1)

/-! ## Forecast and outcome -/

/-- Every removal of a queue meets exactly one equal key in the tree at its turn. -/
def Lone : Tree → List Operation → Prop
  | _, [] => True
  | t, .add k :: queue => Lone ((Operation.add k).apply t) queue
  | t, .remove k :: queue => t.keys.countP k.same = 1 ∧ Lone ((Operation.remove k).apply t) queue

theorem lone_iff (t : Tree) (queue : List Operation) :
    Lone t queue ↔ ∀ before k after, queue = before ++ .remove k :: after →
      (before.foldl Operation.apply t).keys.countP k.same = 1 := by
  induction queue generalizing t with
  | nil => simp [Lone]
  | cons op queue ih =>
      have htail : Lone (op.apply t) queue ↔ ∀ before k after,
          op :: queue = op :: before ++ .remove k :: after →
            ((op :: before).foldl Operation.apply t).keys.countP k.same = 1 := by
        simp [ih]
      constructor
      · rintro h before k after heq
        cases before with
        | nil =>
            obtain ⟨rfl, rfl⟩ := List.cons.inj heq
            exact h.1
        | cons op' before =>
            obtain ⟨rfl, -⟩ := List.cons.inj heq
            refine htail.1 ?_ before k after heq
            cases op with
            | add j => exact h
            | remove j => exact h.2
      · intro h
        have hrest := htail.2 fun before k after heq => h (op :: before) k after heq
        cases op with
        | add j => exact hrest
        | remove j => exact ⟨h [] j queue rfl, hrest⟩

/-- Where every removal meets one key, the forecast is what the tree will hold. -/
theorem perm_of_lone (ht : t.Valid) (hperm : keys.Perm t.keys)
    (hq : Feasible t.kind keys queue) (hlone : Lone t queue) :
    (queue.foldl foresee keys).Perm (queue.foldl Operation.apply t).keys := by
  induction queue generalizing t keys with
  | nil => exact hperm
  | cons op queue ih =>
      obtain ⟨hvalid, halike⟩ := ht.valid_apply op
      rw [← halike.kind] at hq
      cases op with
      | add k =>
          have hins := ht.inserted_apply (hq.1.trans halike.kind)
          refine ih hvalid ?_ hq.2 hlone
          exact (List.perm_append_singleton k keys).trans
            ((hperm.cons k).trans hins.perm.symm)
      | remove k =>
          obtain ⟨a, ha, hsame⟩ := hq.1
          have hremoved := ht.removed_apply ⟨a, hperm.mem_iff.1 ha, hsame⟩
          refine ih hvalid ?_ hq.2 hlone.2
          rw [← hremoved.filter_eq hlone.1]
          exact hperm.filter _

/-- Where the forecast is right in the end, it was right before every removal, and each removal met
one key. No step makes up for a difference: a removal leaves none of its keys foreseen. -/
theorem lone_of_countP_eq (ht : t.Valid)
    (hle : ∀ j : Key, keys.countP j.same ≤ t.keys.countP j.same)
    (hq : Feasible t.kind keys queue)
    (hfinal : ∀ j : Key, (queue.foldl foresee keys).countP j.same =
      (queue.foldl Operation.apply t).keys.countP j.same) :
    (∀ j : Key, keys.countP j.same = t.keys.countP j.same) ∧ Lone t queue := by
  induction queue generalizing t keys with
  | nil => exact ⟨hfinal, trivial⟩
  | cons op queue ih =>
      obtain ⟨hvalid, halike⟩ := ht.valid_apply op
      rw [← halike.kind] at hq
      cases op with
      | add k =>
          have hins := ht.inserted_apply (hq.1.trans halike.kind)
          have hstep : ∀ j : Key, (foresee keys (.add k)).countP j.same =
              keys.countP j.same + if j.same k then 1 else 0 := by
            intro j
            simp [foresee, List.countP_append, List.countP_cons]
          have hle' : ∀ j : Key, (foresee keys (.add k)).countP j.same ≤
              ((Operation.add k).apply t).keys.countP j.same := by
            intro j
            rw [hstep, hins.countP_same]
            have := hle j
            omega
          obtain ⟨heq, hlone⟩ := ih hvalid hle' hq.2 hfinal
          refine ⟨fun j => ?_, hlone⟩
          have := heq j
          rw [hstep, hins.countP_same] at this
          omega
      | remove k =>
          obtain ⟨a, ha, hsame⟩ := hq.1
          have hpos : 0 < keys.countP k.same := List.countP_pos_iff.2 ⟨a, ha, hsame⟩
          have hmem : ∃ b ∈ t.keys, k.same b :=
            List.countP_pos_iff.1 (Nat.lt_of_lt_of_le hpos (hle k))
          have hremoved := ht.removed_apply hmem
          have hstep : ∀ j : Key, (foresee keys (.remove k)).countP j.same =
              if j.same k then 0 else keys.countP j.same := fun j => countP_filter_not_same j k keys
          have hle' : ∀ j : Key, (foresee keys (.remove k)).countP j.same ≤
              ((Operation.remove k).apply t).keys.countP j.same := by
            intro j
            rw [hstep]
            have hbefore := hremoved.countP_same j
            by_cases hj : j.same k
            · simp [hj]
            · have := hle j
              simp only [hj, Bool.false_eq_true, if_false] at hbefore ⊢
              omega
          obtain ⟨heq, hlone⟩ := ih hvalid hle' hq.2 hfinal
          have hcount : t.keys.countP k.same = 1 := by
            have hafter := heq k
            have hbefore := hremoved.countP_same k
            simp only [hstep, Key.same_refl, if_true] at hafter hbefore
            omega
          refine ⟨fun j => ?_, hcount, hlone⟩
          by_cases hj : j.same k
          · have hcongr : ∀ xs : List Key, xs.countP j.same = xs.countP k.same := fun xs =>
              List.countP_congr fun b _ => by rw [Key.same_congr hj]
            have := hle k
            rw [hcongr, hcongr]
            omega
          · have hafter := heq j
            have hbefore := hremoved.countP_same j
            rw [hstep] at hafter
            simp only [hj, Bool.false_eq_true, if_false] at hafter hbefore
            omega

end Session

end TracedTree
