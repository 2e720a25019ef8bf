import Mathlib
import TracedTree.Random

/-!
# Drawing until enough is found

Candidates are drawn from a supply of random words until there are as many as wanted, and one that
is taken already is left aside. Whatever is drawn, at most one value becomes taken with every
candidate that is found. So where the candidates to be had outnumber those taken before and those
wanted, one of them is still free at every draw; the drawing is given up only when the words run
out.

## Main definitions

* `Drawing`: what is taken and what has been found between two draws.
* `Drawing.Reached`: the drawings that are met until enough is found.
* `Drawing.Ends`: a drawing that is over, and its result.
* `Drawing.DrawsBy`: a loop that draws step by step.

## Main statements

* `Drawing.Reached.invariant`: what holds at every draw.
* `Drawing.exists_ends`: a loop that draws step by step ends with its result.
* `exists_free`: where a free candidate is left.
-/

namespace TracedTree

/-! ## Words used up -/

namespace Supply

theorem left_searchFrom_le {α : Type} (word : Nat → UInt64) (accept : UInt64 → Option α)
    (taken left : Nat) : (searchFrom word accept taken left).2.left ≤ left - 1 := by
  induction left generalizing taken with
  | zero => exact Nat.zero_le _
  | succ left ih =>
      rw [searchFrom]
      split
      · exact Nat.le_refl _
      · have := ih (taken + 1)
        omega

theorem left_below_le (s : Supply) (bits range : Nat) : (s.below bits range).2.left ≤ s.left - 1 :=
  left_searchFrom_le ..

theorem left_unit (s : Supply) : s.unit.2.left = s.left - 1 := by
  obtain ⟨word, taken, left⟩ := s
  cases left <;> rfl

end Supply

/-! ## Drawings -/

/-- What is taken, the candidates that have been found with the last one first, and the words that
are left. -/
structure Drawing (α τ : Type) [BEq τ] [Hashable τ] where
  taken : Std.HashSet τ
  found : List α
  supply : Supply

namespace Drawing

variable {α τ : Type} [BEq τ] [Hashable τ] {draw : Supply → α × Supply} {code : α → τ}
  {count : Nat} {d first : Drawing α τ} {P : α → Prop}

/-- Nothing has been found yet. -/
def start (taken : Std.HashSet τ) (supply : Supply) : Drawing α τ := ⟨taken, [], supply⟩

/-- Draw once more. A candidate whose code is taken is left aside. -/
def next (draw : Supply → α × Supply) (code : α → τ) (d : Drawing α τ) : Drawing α τ :=
  let (candidate, supply) := draw d.supply
  if d.taken.contains (code candidate) then ⟨d.taken, d.found, supply⟩
  else ⟨d.taken.insert (code candidate), candidate :: d.found, supply⟩

/-- Draws lead to the drawing from a first one, each made because more is wanted. -/
inductive Reached (draw : Supply → α × Supply) (code : α → τ) (count : Nat)
    (first : Drawing α τ) : Drawing α τ → Prop where
  | first : Reached draw code count first first
  | next {d : Drawing α τ} (hd : Reached draw code count first d)
      (hmissing : d.found.length < count) (hleft : d.supply.left ≠ 0) :
      Reached draw code count first (d.next draw code)

/-- The drawing is over: enough has been found, or there are no more words. -/
inductive Ends (count : Nat) (d : Drawing α τ) : Option (List α) → Prop where
  | complete (henough : d.found.length = count) : Ends count d (some d.found.reverse)
  | dry (hmissing : d.found.length < count) (hleft : d.supply.left = 0) : Ends count d none

theorem supply_next (d : Drawing α τ) : (d.next draw code).supply = (draw d.supply).2 := by
  simp only [next]
  split <;> rfl

/-- **At every draw** no more has been found than is wanted, no more is taken than was at first and
what has been found, and that has all been drawn. -/
theorem Reached.invariant [EquivBEq τ] [LawfulHashable τ] {taken : Std.HashSet τ} {supply : Supply}
    (hdraw : ∀ s, P (draw s).1) (hd : Reached draw code count (start taken supply) d) :
    d.found.length ≤ count ∧ d.taken.size ≤ taken.size + d.found.length ∧ ∀ x ∈ d.found, P x := by
  induction hd with
  | first => exact ⟨Nat.zero_le _, Nat.le_refl _, by simp [start]⟩
  | @next d hd hmissing hleft ih =>
      obtain ⟨-, hsize, hfound⟩ := ih
      simp only [Drawing.next]
      split
      · exact ⟨Nat.le_of_lt hmissing, hsize, hfound⟩
      · have hinsert := d.taken.size_insert_le (k := code (draw d.supply).1)
        refine ⟨hmissing, ?_, List.forall_mem_cons.2 ⟨hdraw d.supply, hfound⟩⟩
        simp only [List.length_cons]
        omega

/-- What is given in the end are as many candidates as are wanted, and they have been drawn. -/
theorem Reached.drawn [EquivBEq τ] [LawfulHashable τ] {taken : Std.HashSet τ} {supply : Supply}
    (hdraw : ∀ s, P (draw s).1) (hd : Reached draw code count (start taken supply) d)
    {drawn : List α} (hends : d.Ends count (some drawn)) :
    drawn.length = count ∧ ∀ x ∈ drawn, P x := by
  obtain ⟨-, -, hfound⟩ := hd.invariant hdraw
  cases hends with
  | complete henough =>
      exact ⟨by rw [List.length_reverse, henough], fun x hx => hfound x (List.mem_reverse.1 hx)⟩

/-- A loop draws step by step, given how many are missing, what is taken and what has been found. It
gives nothing when the words run out before. -/
structure DrawsBy (draw : Supply → α × Supply) (code : α → τ)
    (draws : Nat → Nat → Std.HashSet τ → List α → Supply → Option (List α)) : Prop where
  enough : ∀ fuel taken found supply, draws fuel 0 taken found supply = some found.reverse
  missing : ∀ fuel missing taken found supply, draws (fuel + 1) (missing + 1) taken found supply =
    if supply.left = 0 then none
    else if !taken.contains (code (draw supply).1) then
      draws fuel missing (taken.insert (code (draw supply).1)) ((draw supply).1 :: found)
        (draw supply).2
    else draws fuel (missing + 1) taken found (draw supply).2

/-- **A loop that draws step by step ends.** Its fuel is never used up, since every draw takes a
word or more. -/
theorem exists_ends {draws : Nat → Nat → Std.HashSet τ → List α → Supply → Option (List α)}
    (hdraws : DrawsBy draw code draws) (hdraw : ∀ s, (draw s).2.left ≤ s.left - 1)
    {fuel missing : Nat} (hfuel : d.supply.left < fuel) (hcount : d.found.length + missing = count)
    (hd : Reached draw code count first d) :
    ∃ last, Reached draw code count first last ∧
      last.Ends count (draws fuel missing d.taken d.found d.supply) := by
  induction fuel generalizing d missing with
  | zero => exact absurd hfuel (Nat.not_lt_zero _)
  | succ fuel ih =>
      cases missing with
      | zero =>
          rw [hdraws.enough]
          exact ⟨d, hd, .complete hcount⟩
      | succ missing =>
          have hlt : d.found.length < count := by omega
          rw [hdraws.missing]
          split
          · rename_i hdry
            exact ⟨d, hd, .dry hlt hdry⟩
          rename_i hleft
          have hused := hdraw d.supply
          have hfuel' : (d.next draw code).supply.left < fuel := by
            rw [supply_next]
            omega
          have hnext {missing : Nat} (hcount : (d.next draw code).found.length + missing = count) :=
            ih hfuel' hcount (hd.next hlt hleft)
          split
          · rename_i hfree
            rw [Bool.not_eq_true'] at hfree
            simp only [next, hfree, Bool.false_eq_true, if_false, List.length_cons] at hnext
            exact hnext (by omega)
          · rename_i htaken
            rw [Bool.not_eq_true', Bool.not_eq_false] at htaken
            simp only [next, htaken, if_true] at hnext
            exact hnext hcount

end Drawing

/-! ## Free candidates -/

section Pool

variable {α τ : Type} [BEq τ] [Hashable τ] {code : α → τ} {pool : List α}

/-- Of candidates with different codes no more are taken than there are values taken. -/
theorem countP_contains_le_size [LawfulBEq τ] (hcode : code.Injective) (hpool : pool.Nodup)
    (taken : Std.HashSet τ) : pool.countP (taken.contains <| code ·) ≤ taken.size := by
  have hnodup : ((pool.filter (taken.contains <| code ·)).map code).Nodup :=
    (hpool.filter _).map hcode
  have hsub : (pool.filter (taken.contains <| code ·)).map code ⊆ taken.toList := by
    intro y hy
    obtain ⟨x, hx, rfl⟩ := List.mem_map.1 hy
    rw [Std.HashSet.mem_toList, ← Std.HashSet.contains_iff_mem]
    exact (List.mem_filter.1 hx).2
  calc pool.countP (taken.contains <| code ·)
      = ((pool.filter (taken.contains <| code ·)).map code).length := by
        rw [List.length_map, List.countP_eq_length_filter]
    _ ≤ taken.toList.length := (List.subperm_of_subset hnodup hsub).length_le
    _ = taken.size := Std.HashSet.length_toList

/-- Where not all candidates are taken, one is free. -/
theorem exists_free {taken : Std.HashSet τ}
    (h : pool.countP (taken.contains <| code ·) < pool.length) :
    ∃ x ∈ pool, taken.contains (code x) = false := by
  by_contra hall
  refine Nat.ne_of_lt h (List.countP_eq_length.2 fun x hx => ?_)
  by_contra hfree
  exact hall ⟨x, hx, Bool.eq_false_iff.2 hfree⟩

end Pool

end TracedTree
