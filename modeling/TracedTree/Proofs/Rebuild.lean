import TracedTree.Proofs.Tree
import TracedTree.Tree.Order

/-!
# Rebuilding a tree

Shuffling keeps the keys and inserting them one after the other loses none, so a rebuilt tree
holds the keys of the old one, whatever the random words are.
-/

namespace TracedTree

/-! ## Shuffling -/

namespace Supply

variable {α : Type}

theorem swapIfInBounds_perm (xs : Array α) (i j : Nat) : (xs.swapIfInBounds i j).Perm xs := by
  rw [Array.swapIfInBounds_def]
  split
  · split
    · exact Array.swap_perm _ _
    · exact Array.Perm.rfl
  · exact Array.Perm.rfl

theorem shuffleFrom_perm (i : Nat) (xs : Array α) (s : Supply) :
    (shuffleFrom i xs s).1.Perm xs := by
  induction i generalizing xs s with
  | zero => exact Array.Perm.rfl
  | succ i ih => exact (ih _ _).trans (swapIfInBounds_perm xs _ _)

theorem shuffle_perm (xs : List α) (s : Supply) : (s.shuffle xs).1.Perm xs := by
  have hperm := shuffleFrom_perm (xs.length - 1) xs.toArray s
  exact Array.perm_iff_toList_perm.1 hperm

end Supply

namespace Tree

variable {t : Tree}

/-- Keys of the tree's kind can be inserted one after the other. -/
theorem Valid.exists_addAll (ht : t.Valid) {keys : List Key} (hk : ∀ k ∈ keys, k.kind = t.kind) :
    ∃ u, t.addAll keys = .ok u ∧ u.Valid ∧ Alike t u ∧ u.keys.Perm (t.keys ++ keys) ∧
      (t.recording = none → u.recording = none) := by
  induction keys generalizing t with
  | nil => exact ⟨t, rfl, ht, ⟨rfl, rfl⟩, by simp, id⟩
  | cons k keys ih =>
      obtain ⟨u, hu, hvalid, halike, hins⟩ := ht.exists_add (hk k List.mem_cons_self)
      obtain ⟨v, hv, hvalid', halike', hperm, hquiet⟩ := ih hvalid fun j hj =>
        (hk j (List.mem_cons_of_mem k hj)).trans halike.kind.symm
      refine ⟨v, ?_, hvalid', ⟨halike'.maxKeys.trans halike.maxKeys,
        halike'.kind.trans halike.kind⟩, ?_, fun hnone => hquiet ?_⟩
      · rw [addAll] at hv ⊢
        rw [List.foldlM_cons, hu]
        exact hv
      · refine hperm.trans ((hins.perm.append_right keys).trans ?_)
        exact List.perm_middle.symm
      · rw [recording_add hu, hnone]
        rfl

/-- **Rebuilding keeps the keys.** It succeeds for every capacity that is large enough. -/
theorem Valid.exists_rebuild (ht : t.Valid) {maxKeys : Nat} (hcap : 2 ≤ maxKeys)
    (supply : Supply) :
    ∃ u, t.rebuild maxKeys supply = .ok u ∧ u.Valid ∧ u.maxKeys = maxKeys ∧ u.kind = t.kind ∧
      u.recording = none ∧ u.keys.Perm t.keys := by
  have hshuffle := supply.shuffle_perm t.keys
  obtain ⟨u, hu, hvalid, halike, hperm, hquiet⟩ := (valid_empty maxKeys t.kind hcap).exists_addAll
    (fun k hk => ht.kind_of_mem_keys k (hshuffle.mem_iff.1 hk))
  refine ⟨u, ?_, hvalid, halike.maxKeys, halike.kind, hquiet rfl, hperm.trans ?_⟩
  · simpa [rebuild, ofMaxKeys, hcap] using hu
  · simpa [keys, empty] using hshuffle

end Tree

end TracedTree
