import TracedTree.Key

/-!
# The order of keys and ascending lists

`Key.le`, `Key.lt` and `Key.same` are three views of one total preorder. Equal keys need not be
identical, so the two things that can happen to an ascending list are stated with the places of
the keys: `Inserted` puts a key between its neighbours, `Removed` takes one equal key out.
-/

namespace TracedTree

namespace Key

variable {a b c : Key}

theorem le_refl (a : Key) : a.le a := Std.ReflOrd.isLE_rfl

theorem le_trans (hab : a.le b) (hbc : b.le c) : a.le c := Std.TransOrd.isLE_trans hab hbc

theorem lt_iff_not_le : a.lt b ↔ ¬ b.le a := by
  have h : compare b a = (compare a b).swap := Std.OrientedOrd.eq_swap
  cases hab : compare a b <;> simp [lt, le, h, hab]

theorem not_lt_iff_le : ¬ a.lt b ↔ b.le a := by
  simp [lt_iff_not_le]

theorem le_of_lt (hab : a.lt b) : a.le b := by
  simp only [lt, beq_iff_eq] at hab
  simp [le, hab]

theorem lt_of_le_of_lt (hab : a.le b) (hbc : b.lt c) : a.lt c := by
  rw [lt_iff_not_le] at hbc ⊢
  intro hca
  exact hbc (le_trans hca hab)

theorem lt_of_lt_of_le (hab : a.lt b) (hbc : b.le c) : a.lt c := by
  rw [lt_iff_not_le] at hab ⊢
  intro hca
  exact hab (le_trans hbc hca)

theorem le_total (a b : Key) : a.le b ∨ b.le a := by
  by_cases h : b.le a
  · exact .inr h
  · exact .inl (le_of_lt (lt_iff_not_le.2 h))

/-- Two keys are equal in the order when neither stands before the other. -/
theorem same_iff : a.same b ↔ a.le b ∧ b.le a := by
  have h : compare b a = (compare a b).swap := Std.OrientedOrd.eq_swap
  cases hab : compare a b <;> simp [same, le, h, hab]

theorem not_same_of_lt (hab : a.lt b) : ¬ a.same b := by
  intro h
  exact lt_iff_not_le.1 hab (same_iff.1 h).2

/-- A key that does not stand behind another one stands before it, or with it. -/
theorem lt_of_le_of_not_same (hab : a.le b) (hne : ¬ a.same b) : a.lt b := by
  rw [lt_iff_not_le]
  intro hba
  exact hne (same_iff.2 ⟨hab, hba⟩)

theorem same_refl (a : Key) : a.same a := same_iff.2 ⟨le_refl a, le_refl a⟩

theorem same_symm (h : a.same b) : b.same a := same_iff.2 (same_iff.1 h).symm

theorem same_comm (a b : Key) : a.same b = b.same a :=
  Bool.eq_iff_iff.2 ⟨same_symm, same_symm⟩

theorem same_trans (hab : a.same b) (hbc : b.same c) : a.same c := by
  rw [same_iff] at *
  exact ⟨le_trans hab.1 hbc.1, le_trans hbc.2 hab.2⟩

/-- Equal keys are equal to the same keys. -/
theorem same_congr (h : a.same b) (c : Key) : a.same c = b.same c :=
  Bool.eq_iff_iff.2 ⟨same_trans (same_symm h), same_trans h⟩

theorem kind_eq_of_same (h : a.same b) : a.kind = b.kind := by
  cases a <;> cases b <;> simp_all [same, compare_def, order, kind]

end Key

/-! ## Ascending lists -/

/-- The keys of a list stand in ascending order. Equal keys may follow each other. -/
def Ascending (keys : List Key) : Prop := keys.Pairwise fun a b => a.le b

/-- The second list is the first with a key put in where it belongs: no key before it stands
behind it, and no key behind it stands before it. -/
def Inserted (k : Key) (xs ys : List Key) : Prop :=
  ∃ before after, xs = before ++ after ∧ ys = before ++ k :: after ∧
    (∀ a ∈ before, a.le k) ∧ ∀ b ∈ after, k.le b

/-- The second list is the first with one key taken out that equals a given one. -/
def Removed (k : Key) (xs ys : List Key) : Prop :=
  ∃ before a after, xs = before ++ a :: after ∧ ys = before ++ after ∧ k.same a

section Lists

variable {k a : Key} {xs ys left right : List Key}

/-- Two ascending lists that share a key at the seam make one ascending list. -/
theorem ascending_append_cons :
    Ascending (xs ++ a :: ys) ↔ Ascending (xs ++ [a]) ∧ Ascending (a :: ys) := by
  simp only [Ascending, List.pairwise_append, List.pairwise_cons, List.mem_cons,
    List.not_mem_nil, or_false, forall_eq_or_imp, forall_eq]
  constructor
  · rintro ⟨hx, hy, hxy⟩
    exact ⟨⟨hx, by simp, fun b hb => (hxy b hb).1⟩, hy⟩
  · rintro ⟨⟨hx, -, hxa⟩, hay, hy⟩
    refine ⟨hx, ⟨hay, hy⟩, ?_⟩
    intro b hb
    refine ⟨hxa b hb, ?_⟩
    intro c hc
    exact Key.le_trans (hxa b hb) (hay c hc)

theorem ascending_middle (h : Ascending (left ++ xs ++ right)) : Ascending xs :=
  (List.pairwise_append.1 (List.pairwise_append.1 h).1).2.1

/-- Keys put in at the right place keep a list ascending. -/
theorem Inserted.ascending (h : Inserted k xs ys) (hx : Ascending xs) : Ascending ys := by
  obtain ⟨before, after, rfl, rfl, hb, ha⟩ := h
  simp only [Ascending, List.pairwise_append, List.pairwise_cons] at hx ⊢
  refine ⟨hx.1, ⟨ha, hx.2.1⟩, ?_⟩
  intro b hb' c hc
  rcases List.mem_cons.1 hc with rfl | hc
  · exact hb b hb'
  · exact hx.2.2 b hb' c hc

/-- The place of a key between its neighbours is its place among more keys around them. -/
theorem Inserted.within (h : Inserted k xs ys) (hl : ∀ a ∈ left, a.le k)
    (hr : ∀ b ∈ right, k.le b) : Inserted k (left ++ xs ++ right) (left ++ ys ++ right) := by
  obtain ⟨before, after, rfl, rfl, hb, ha⟩ := h
  refine ⟨left ++ before, after ++ right, by simp, by simp, ?_, ?_⟩
  · intro a h
    exact (List.mem_append.1 h).elim (hl a) (hb a)
  · intro b h
    exact (List.mem_append.1 h).elim (ha b) (hr b)

theorem Inserted.perm (h : Inserted k xs ys) : ys.Perm (k :: xs) := by
  obtain ⟨before, after, rfl, rfl, -, -⟩ := h
  exact List.perm_middle

theorem Inserted.mem_iff (h : Inserted k xs ys) : a ∈ ys ↔ a = k ∨ a ∈ xs := by
  rw [h.perm.mem_iff, List.mem_cons]

/-- What is taken out of a part is taken out of the whole. -/
theorem Removed.within (h : Removed k xs ys) (left right : List Key) :
    Removed k (left ++ xs ++ right) (left ++ ys ++ right) := by
  obtain ⟨before, a, after, rfl, rfl, ha⟩ := h
  exact ⟨left ++ before, a, after ++ right, by simp, by simp, ha⟩

theorem Removed.sublist (h : Removed k xs ys) : ys.Sublist xs := by
  obtain ⟨before, a, after, rfl, rfl, -⟩ := h
  exact List.Sublist.append_left (List.sublist_cons_self a after) before

/-- A key can be taken out only where an equal one stands. -/
theorem Removed.any_same (h : Removed k xs ys) : xs.any k.same := by
  obtain ⟨before, a, after, rfl, rfl, ha⟩ := h
  simp [ha]

/-- When a key stands before the first key that fails a test, it stands before all behind it. -/
theorem le_of_mem_dropWhile {p : Key → Bool} (hx : Ascending xs)
    (hp : ∀ b, p b = false → k.le b) : ∀ b ∈ xs.dropWhile p, k.le b := by
  induction xs with
  | nil => simp
  | cons x xs ih =>
      have hcons := List.pairwise_cons.1 hx
      cases hxp : p x
      · simp only [List.dropWhile_cons, hxp, Bool.false_eq_true, if_false, List.mem_cons,
          forall_eq_or_imp]
        exact ⟨hp x hxp, fun b hb => Key.le_trans (hp x hxp) (hcons.1 b hb)⟩
      · simpa [hxp] using ih hcons.2

/-! ### Counting equal keys -/

theorem Inserted.countP_same (h : Inserted k xs ys) (j : Key) :
    ys.countP j.same = xs.countP j.same + if j.same k then 1 else 0 := by
  rw [h.perm.countP_eq, List.countP_cons]

theorem Removed.countP_same (h : Removed k xs ys) (j : Key) :
    xs.countP j.same = ys.countP j.same + if j.same k then 1 else 0 := by
  obtain ⟨before, a, after, rfl, rfl, ha⟩ := h
  have hsame : j.same a = j.same k := by
    rw [Key.same_comm j a, Key.same_comm j k, Key.same_congr ha]
  simp only [List.countP_append, List.countP_cons, hsame]
  omega

theorem countP_filter_not_same (j k : Key) (keys : List Key) :
    (keys.filter (!·.same k)).countP j.same = if j.same k then 0 else keys.countP j.same := by
  induction keys with
  | nil => simp
  | cons a keys ih =>
      by_cases ha : a.same k
      · have hsame : j.same a = j.same k := by
          rw [Key.same_comm j a, Key.same_comm j k, Key.same_congr ha]
        rw [List.filter_cons_of_neg (by simp [ha]), ih, List.countP_cons, hsame]
        cases j.same k <;> simp
      · rw [List.filter_cons_of_pos (by simp [ha]), List.countP_cons, ih, List.countP_cons]
        by_cases hj : j.same k
        · have hne : ¬ j.same a := fun h => ha (Key.same_trans (Key.same_symm h) hj)
          simp [hj, hne]
        · simp [hj]

/-- Where only one key equals the given one, taking it out leaves the keys that differ. -/
theorem Removed.filter_eq (h : Removed k xs ys) (hone : xs.countP k.same = 1) :
    xs.filter (!·.same k) = ys := by
  have hnone : ys.countP k.same = 0 := by
    have hcount := h.countP_same k
    simp only [Key.same_refl, if_true] at hcount
    omega
  have hne : ∀ b ∈ ys, b.same k = false := by
    intro b hb
    rw [Key.same_comm]
    exact Bool.eq_false_iff.2 (List.countP_eq_zero.1 hnone b hb)
  obtain ⟨before, a, after, rfl, rfl, ha⟩ := h
  have hfilter : (before ++ after).filter (!·.same k) = before ++ after :=
    List.filter_eq_self.2 fun b hb => by simp [hne b hb]
  rw [List.filter_append] at hfilter ⊢
  rw [List.filter_cons_of_neg (by simp [Key.same_symm ha]), hfilter]

end Lists

end TracedTree
