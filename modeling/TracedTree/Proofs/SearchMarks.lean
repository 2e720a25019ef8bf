import TracedTree.Proofs.Descent
import TracedTree.Proofs.Probes

/-!
# Probes mark where a search ends

An operation chooses the child or the slot at which it goes on by one comparison, and marks the
probes of a node by another one. Here both are put side by side: `Node.Goal` says where the search
in a node really ends and what happens there, and `Node.Probed` how the probes of the node stand to
that. They agree but in one case: an insertion passes a separator that equals its key on the left,
and the gap right of such a separator is marked as if the search ended there.

## Main definitions

* `Node.Goal capacity n op goal`: what an operation does in a node, and at which place.
* `Node.Repeats n op`, `Node.Echo n op place`: an insertion passes a separator that equals the key.
* `Node.Probed capacity n op goal ps`: the probes of a node for a goal.
* `Node.probesOf n op`: the probes of a node in an operation.
-/

namespace TracedTree

variable {capacity h : Nat} {k : Key} {ledger : Ledger} {op : Operation}

theorem getLast?_searchMark (message : String) (found : Bool) :
    (message ++ " " ++ searchMark found).toList.getLast? = some (if found then '✓' else '?') := by
  cases found <;> simp [searchMark]

/-- The leading keys that satisfy a test are all keys that do, if smaller keys satisfy it too. -/
theorem lt_length_takeWhile_iff {keys : List Key} {p : Key → Bool} (hasc : Ascending keys)
    (hp : ∀ {a b : Key}, a.le b → p b → p a) {i : Nat} {a : Key} (ha : keys[i]? = some a) :
    i < (keys.takeWhile p).length ↔ p a := by
  induction keys generalizing i with
  | nil => cases ha
  | cons b keys ih =>
      obtain ⟨hle, hasc⟩ := List.pairwise_cons.1 hasc
      rw [List.takeWhile_cons]
      cases i with
      | zero =>
          obtain rfl : b = a := by simpa using ha
          split <;> simp [*]
      | succ i =>
          rw [List.getElem?_cons_succ] at ha
          have hba : b.le a := hle a (List.mem_of_getElem? ha)
          split
          · rw [List.length_cons, Nat.add_lt_add_iff_right, ih hasc ha]
          · rename_i hb
            exact ⟨nofun, fun h => absurd (hp hba h) hb⟩

namespace Node

variable {n c : Node Key} {i : Nat}

/-! ## What an operation does in a node -/

/-- What an operation does in a node, and the place at which it does it. An insertion goes on in the
child at a gap, or puts the key there. A removal goes on in the child at a gap, replaces the key in
a slot by its predecessor, or takes it out; in a leaf without the key there is no such place. -/
inductive Goal (capacity : Nat) (n : Node Key) : Operation → Option Place → Prop where
  | descends {k : Key} {i : Nat} {c : Node Key} (hc : n.children[i]? = some c)
      (h : ∀ ledger, n.insert capacity k ledger =
        (c.insert capacity k ledger).map (n.receive capacity i)) :
      Goal capacity n (.add k) (some (.gap i))
  | inserts {k : Key} {i : Nat} (hleaf : n.children = [])
      (h : ∀ ledger, n.insert capacity k ledger =
        .ok (settle { n with keys := n.keys.insertIdx i k } capacity ledger)) :
      Goal capacity n (.add k) (some (.gap i))
  | passes {k : Key} {i : Nat} {c : Node Key} (hc : n.children[i]? = some c)
      (hkeys : ∀ a ∈ n.keys, ¬ k.same a)
      (h : ∀ ledger, n.remove (capacity / 2) k ledger = do
        let r ← c.remove (capacity / 2) k ledger
        let (m, l) ← (n.withChild i r.node).repair (capacity / 2) i r.ledger
        return ⟨r.found, m, l⟩) :
      Goal capacity n (.remove k) (some (.gap i))
  | replaces {k a : Key} {i : Nat} {c : Node Key} (ha : n.keys[i]? = some a) (hsame : k.same a)
      (hc : n.children[i]? = some c)
      (h : ∀ ledger, n.remove (capacity / 2) k ledger = do
        let e ← c.removeMax (capacity / 2) ledger
        let (m, l) ← (n.withPredecessor i e).repair (capacity / 2) i e.ledger
        return ⟨true, m, l⟩) :
      Goal capacity n (.remove k) (some (.slot i))
  | takes {k a : Key} {i : Nat} (hleaf : n.children = []) (ha : n.keys[i]? = some a)
      (hsame : k.same a)
      (h : ∀ ledger, n.remove (capacity / 2) k ledger =
        .ok ⟨true, { n with keys := n.keys.eraseIdx i }, ledger⟩) :
      Goal capacity n (.remove k) (some (.slot i))
  | misses {k : Key} (hleaf : n.children = []) (hkeys : ∀ a ∈ n.keys, ¬ k.same a)
      (h : ∀ ledger, n.remove (capacity / 2) k ledger = .ok ⟨false, n, ledger⟩) :
      Goal capacity n (.remove k) none

/-- The gap at which an insertion goes on. -/
def insertGap (k : Key) (n : Node Key) : Nat :=
  if n.children.isEmpty then n.slotFor k else n.childIndex k

/-- The place at which a removal goes on, if there is one. -/
def removePlace (k : Key) (n : Node Key) : Option Place :=
  match n.slotOf? k with
  | some i => some (.slot i)
  | none => if n.children.isEmpty then none else some (.gap (n.childIndex k))

theorem insertAt_eq (capacity : Nat) (k : Key) (ledger : Ledger) (i : Nat) (cs : List (Node Key)) :
    insertAt capacity k ledger i cs =
      cs[i]?.elim (.error .missingChild) (insert capacity k ledger) :=
  eq_elim_of_steps (fun _ => rfl) (fun _ _ => rfl) (fun _ _ _ => rfl) i cs

theorem removeAt_eq (minimum : Nat) (k : Key) (ledger : Ledger) (i : Nat) (cs : List (Node Key)) :
    removeAt minimum k ledger i cs =
      cs[i]?.elim (.error .missingChild) (remove minimum k ledger) :=
  eq_elim_of_steps (fun _ => rfl) (fun _ _ => rfl) (fun _ _ _ => rfl) i cs

theorem removeMaxAt_eq (minimum : Nat) (ledger : Ledger) (i : Nat) (cs : List (Node Key)) :
    removeMaxAt minimum ledger i cs =
      cs[i]?.elim (.error .missingChild) (removeMax minimum ledger) :=
  eq_elim_of_steps (fun _ => rfl) (fun _ _ => rfl) (fun _ _ _ => rfl) i cs

theorem insertIdx_append {α : Type} (xs ys : List α) (a : α) :
    (xs ++ ys).insertIdx xs.length a = xs ++ a :: ys := by
  induction xs with
  | nil => rfl
  | cons x xs ih => simpa using ih

theorem withKey_eq (n : Node Key) (k : Key) :
    n.withKey k = { n with keys := n.keys.insertIdx (n.slotFor k) k } := by
  have happ := insertIdx_append (n.keys.takeWhile (·.le k)) (n.keys.dropWhile (·.le k)) k
  rw [List.takeWhile_append_dropWhile] at happ
  rw [withKey, slotFor, happ]

theorem childIndex_le (n : Node Key) (k : Key) : n.childIndex k ≤ n.keys.length :=
  (List.takeWhile_prefix _).length_le

theorem exists_child (hfits : n.Fits) (hinner : n.children ≠ []) (hi : i ≤ n.keys.length) :
    ∃ c, n.children[i]? = some c := by
  have hlen := hfits.resolve_left hinner
  exact ⟨_, List.getElem?_eq_getElem (by omega)⟩

theorem goal_add (hfits : n.Fits) (k : Key) :
    n.Goal capacity (.add k) (some (.gap (n.insertGap k))) := by
  by_cases hleaf : n.children = []
  · have hgap : n.insertGap k = n.slotFor k := by simp [insertGap, hleaf]
    rw [hgap]
    refine .inserts hleaf fun ledger => ?_
    rw [← withKey_eq]
    obtain ⟨id, keys, children⟩ := n
    simp only at hleaf
    subst hleaf
    rw [insert]
    rfl
  · have hgap : n.insertGap k = n.childIndex k := by simp [insertGap, hleaf]
    obtain ⟨c, hc⟩ := exists_child hfits hleaf (n.childIndex_le k)
    rw [hgap]
    refine .descends hc fun ledger => ?_
    obtain ⟨id, keys, children⟩ := n
    have hinner : children.isEmpty = false := List.isEmpty_eq_false_iff.2 hleaf
    simp only at hc
    rw [insert]
    simp only [hinner, Bool.false_eq_true, if_false, insertAt_eq, hc, Option.elim_some]

theorem goal_remove (hfits : n.Fits) (k : Key) :
    n.Goal capacity (.remove k) (n.removePlace k) := by
  cases hslot : n.slotOf? k with
  | some i =>
      obtain ⟨hlt, hsame, -⟩ := List.findIdx?_eq_some_iff_getElem.1 hslot
      have ha : n.keys[i]? = some n.keys[i] := List.getElem?_eq_getElem hlt
      have hplace : n.removePlace k = some (.slot i) := by simp [removePlace, hslot]
      rw [hplace]
      by_cases hleaf : n.children = []
      · refine .takes hleaf ha (Key.same_symm hsame) fun ledger => ?_
        obtain ⟨id, keys, children⟩ := n
        simp only at hleaf
        subst hleaf
        rw [remove]
        simp [removeFromLeaf, hslot]
      · obtain ⟨c, hc⟩ := exists_child hfits hleaf (Nat.le_of_lt hlt)
        refine .replaces ha (Key.same_symm hsame) hc fun ledger => ?_
        obtain ⟨id, keys, children⟩ := n
        have hinner : children.isEmpty = false := List.isEmpty_eq_false_iff.2 hleaf
        simp only at hc
        rw [remove]
        simp only [hinner, Bool.false_eq_true, if_false, hslot, removeMaxAt_eq, hc,
          Option.elim_some]
  | none =>
      have hkeys := slotOf?_eq_none hslot
      by_cases hleaf : n.children = []
      · have hplace : n.removePlace k = none := by simp [removePlace, hslot, hleaf]
        rw [hplace]
        refine .misses hleaf hkeys fun ledger => ?_
        obtain ⟨id, keys, children⟩ := n
        simp only at hleaf
        subst hleaf
        rw [remove]
        simp [removeFromLeaf, hslot]
      · have hplace : n.removePlace k = some (.gap (n.childIndex k)) := by
          simp [removePlace, hslot, hleaf]
        obtain ⟨c, hc⟩ := exists_child hfits hleaf (n.childIndex_le k)
        rw [hplace]
        refine .passes hc hkeys fun ledger => ?_
        obtain ⟨id, keys, children⟩ := n
        have hinner : children.isEmpty = false := List.isEmpty_eq_false_iff.2 hleaf
        simp only at hc
        rw [remove]
        simp only [hinner, Bool.false_eq_true, if_false, hslot, removeAt_eq, hc,
          Option.elim_some]

/-! ## What the probes show -/

/-- An insertion passes an inner node with a separator that equals the key. -/
def Repeats (n : Node Key) (op : Operation) : Prop :=
  ∃ k, op = .add k ∧ n.children ≠ [] ∧ ∃ a ∈ n.keys, k.same a

/-- A gap right of a separator that equals the inserted key. -/
def Echo (n : Node Key) (op : Operation) (place : Place) : Prop :=
  ∃ k i a, op = .add k ∧ n.children ≠ [] ∧ n.keys[i]? = some a ∧ k.same a ∧ place = .gap (i + 1)

/-- The places of a node at which an operation looks, from right to left. -/
def fromRight (n : Node Key) : Operation → List Place
  | .add _ => (downTo 0 (n.keys.length + 1)).map .gap
  | .remove _ =>
    if n.children.isEmpty then (downTo 0 n.keys.length).map .slot
    else (downTo 0 (2 * n.keys.length + 1)).map searchPlace

/-- How the probes of a node stand to the place at which the operation really goes on. -/
structure Probed (capacity : Nat) (n : Node Key) (op : Operation) (goal : Option Place)
    (ps : List Probe) : Prop where
  reached : n.Goal capacity op goal
  /-- The probes run from right to left without gaps. -/
  run : ps.map Probe.place <+: n.fromRight op
  /-- They end at the goal, -/
  ends : ∀ place, goal = some place → (ps.map Probe.place).getLast? = some place
  /-- or they look everywhere and show no check mark. -/
  misses : goal = none → ps.map Probe.place = n.fromRight op ∧ ∀ p ∈ ps, p.mark = some '?'
  marked : ∀ p ∈ ps, p.mark = some '?' ∨ p.mark = some '✓'
  /-- A check mark is shown at the goal, and at no other place but right of an equal separator. -/
  checked : ∀ p ∈ ps, p.mark = some '✓' ↔ goal = some p.place ∨ n.Echo op p.place
  /-- So if no separator is equal, all probes but the last one show a question mark. -/
  plain_iff : (∀ p ∈ ps.dropLast, p.mark = some '?') ↔ ¬ n.Repeats op

section Sweep

variable {place : Nat → Place} {message : Nat → String} {low bound : Nat} {goal : Option Place}

theorem sweep_eq (h : low < bound) : n.sweep place message low bound =
    n.sweep place message (low + 1) bound ++ [⟨n.id, place low, message low⟩] := by
  rw [sweep, downTo_eq h, List.map_append]
  rfl

theorem mem_sweep {p : Probe} : p ∈ n.sweep place message low bound ↔
    ∃ i, (low ≤ i ∧ i < bound) ∧ ⟨n.id, place i, message i⟩ = p := by
  simp only [sweep, List.mem_map, mem_downTo]

theorem places_sweep : (n.sweep place message low bound).map Probe.place =
    (downTo low bound).map place := by
  rw [sweep, List.map_map]
  rfl

/-- A sweep over the places of a node shows check marks at the goal and at echoes. -/
structure Marks (capacity : Nat) (n : Node Key) (op : Operation) (goal : Option Place)
    (place : Nat → Place) (message : Nat → String) (low bound : Nat) : Prop where
  reached : n.Goal capacity op goal
  places : n.fromRight op = (downTo 0 bound).map place
  marks : ∀ i, low ≤ i → i < bound → ∃ text found,
    message i = text ++ " " ++ searchMark found ∧
      (found = true ↔ goal = some (place i) ∨ n.Echo op (place i))

theorem Marks.mark_eq (hm : Marks capacity n op goal place message low bound) {p : Probe}
    (hp : p ∈ n.sweep place message low bound) :
    (p.mark = some '?' ∨ p.mark = some '✓') ∧
      (p.mark = some '✓' ↔ goal = some p.place ∨ n.Echo op p.place) := by
  obtain ⟨i, ⟨hlow, hbound⟩, rfl⟩ := mem_sweep.1 hp
  obtain ⟨text, found, hmessage, hfound⟩ := hm.marks i hlow hbound
  rw [← hfound, Probe.mark, hmessage, getLast?_searchMark]
  cases found <;> decide

theorem Marks.question (hm : Marks capacity n op goal place message low bound) {p : Probe}
    (hp : p ∈ n.sweep place message low bound) (hgoal : goal ≠ some p.place)
    (hecho : ¬ n.Echo op p.place) : p.mark = some '?' :=
  (hm.mark_eq hp).1.resolve_right fun h => ((hm.mark_eq hp).2.1 h).elim hgoal hecho

theorem Marks.run (hm : Marks capacity n op goal place message low bound) (hle : low ≤ bound) :
    (n.sweep place message low bound).map Probe.place <+: n.fromRight op := by
  rw [places_sweep, hm.places]
  exact (starts_downTo hle).map place

/-- The probes of a sweep that ends at the goal. -/
theorem Marks.probed (hm : Marks capacity n op (some (place low)) place message low bound)
    (hplace : Function.Injective place) (hlt : low < bound)
    (hecho : n.Repeats op ↔ ∃ i, low < i ∧ i < bound ∧ n.Echo op (place i)) :
    n.Probed capacity op (some (place low)) (n.sweep place message low bound) := by
  have hbefore : ∀ {p : Probe}, p ∈ n.sweep place message (low + 1) bound →
      p ∈ n.sweep place message low bound := by
    intro p hp
    rw [sweep_eq hlt]
    exact List.mem_append_left _ hp
  refine ⟨hm.reached, hm.run (Nat.le_of_lt hlt), ?_, nofun, fun p hp => (hm.mark_eq hp).1,
    fun p hp => (hm.mark_eq hp).2, ?_⟩
  · intro g hg
    rw [← hg, places_sweep, downTo_eq hlt, List.map_append]
    exact List.getLast?_concat
  · rw [hecho, sweep_eq hlt, List.dropLast_concat]
    constructor
    · rintro hplain ⟨i, hi, hbound, he⟩
      have hp : ⟨n.id, place i, message i⟩ ∈ n.sweep place message (low + 1) bound :=
        mem_sweep.2 ⟨i, ⟨hi, hbound⟩, rfl⟩
      have hcheck := (hm.mark_eq (hbefore hp)).2.2 (.inr he)
      rw [hplain _ hp] at hcheck
      cases hcheck
    · intro hnone p hp
      obtain ⟨i, ⟨hi, hbound⟩, rfl⟩ := mem_sweep.1 hp
      refine hm.question (hbefore hp) ?_ fun he => hnone ⟨i, hi, hbound, he⟩
      intro heq
      exact Nat.ne_of_lt hi (hplace (Option.some.inj heq))

/-- The probes of a sweep over a leaf without the key. -/
theorem Marks.probed_all (hm : Marks capacity n op none place message 0 bound) :
    n.Probed capacity op none (n.sweep place message 0 bound) := by
  have hremove : ∀ k, op ≠ .add k := by
    rintro k rfl
    cases hm.reached
  have hall : ∀ p ∈ n.sweep place message 0 bound, p.mark = some '?' := by
    intro p hp
    refine hm.question hp nofun ?_
    rintro ⟨k, -, -, hop, -⟩
    exact hremove k hop
  refine ⟨hm.reached, hm.run (Nat.zero_le _), nofun, fun _ => ⟨?_, hall⟩,
    fun p hp => (hm.mark_eq hp).1, fun p hp => (hm.mark_eq hp).2, ?_⟩
  · rw [places_sweep, hm.places]
  · refine ⟨fun _ hrepeats => ?_, fun _ p hp => hall p ((List.dropLast_sublist _).subset hp)⟩
    obtain ⟨k, hop, -⟩ := hrepeats
    exact hremove k hop

end Sweep

/-! ## The probes of a node -/

/-- The probes of a node in an operation. An empty leaf has no place to look at. -/
def probesOf (n : Node Key) : Operation → List Probe
  | .add k =>
    if n.children.isEmpty && n.keys.isEmpty then []
    else n.sweep .gap (n.gapProbe k) (n.insertGap k) (n.keys.length + 1)
  | .remove k =>
    if n.children.isEmpty then n.sweep .slot (n.slotMessage k) ((n.slotOf? k).getD 0) n.keys.length
    else
      let last := (n.slotOf? k).elim (2 * n.childIndex k) (2 * · + 1)
      n.sweep searchPlace (n.searchMessage k last) last (2 * n.keys.length + 1)

theorem id_of_mem_probesOf {p : Probe} (hp : p ∈ n.probesOf op) : p.id = n.id := by
  cases op with
  | add k =>
      rw [probesOf] at hp
      split at hp
      · cases hp
      · obtain ⟨i, -, rfl⟩ := mem_sweep.1 hp
        rfl
  | remove k =>
      simp only [probesOf] at hp
      split at hp
      · obtain ⟨i, -, rfl⟩ := mem_sweep.1 hp
        rfl
      · obtain ⟨i, -, rfl⟩ := mem_sweep.1 hp
        rfl

theorem lt_slotFor_iff (hasc : Ascending n.keys) {a : Key} (ha : n.keys[i]? = some a) :
    i < n.slotFor k ↔ a.le k :=
  lt_length_takeWhile_iff hasc (fun hab hb => Key.le_trans hab hb) ha

theorem lt_childIndex_iff (hasc : Ascending n.keys) {a : Key} (ha : n.keys[i]? = some a) :
    i < n.childIndex k ↔ a.lt k :=
  lt_length_takeWhile_iff hasc (fun hab hb => Key.lt_of_le_of_lt hab hb) ha

theorem insertGap_le (n : Node Key) (k : Key) : n.insertGap k ≤ n.keys.length := by
  rw [insertGap]
  split
  · exact (List.takeWhile_prefix _).length_le
  · exact n.childIndex_le k

/-- A key that is not greater than the inserted one lies left of the gap at which the insertion goes
on, or it is a separator that the insertion passes on the left although they are equal. -/
theorem le_iff_insertGap (hasc : Ascending n.keys) {a : Key} (ha : n.keys[i]? = some a) :
    a.le k ↔ i < n.insertGap k ∨ n.Echo (.add k) (.gap (i + 1)) := by
  by_cases hleaf : n.children = []
  · have hgap : n.insertGap k = n.slotFor k := by simp [insertGap, hleaf]
    rw [hgap, lt_slotFor_iff hasc ha]
    refine ⟨.inl, ?_⟩
    rintro (hle | ⟨_, _, _, _, hinner, -⟩)
    · exact hle
    · exact absurd hleaf hinner
  · have hgap : n.insertGap k = n.childIndex k := by simp [insertGap, hleaf]
    rw [hgap, lt_childIndex_iff hasc ha]
    constructor
    · intro hle
      by_cases hsame : k.same a
      · exact .inr ⟨k, i, a, rfl, hleaf, ha, hsame, rfl⟩
      · exact .inl (Key.lt_of_le_of_not_same hle (by rwa [Key.same_comm a k]))
    · rintro (hlt | ⟨_, j, b, hop, -, hb, hsame, hplace⟩)
      · exact Key.le_of_lt hlt
      · cases hop
        cases hplace
        obtain rfl := Option.some.inj (ha.symm.trans hb)
        exact (Key.same_iff.1 hsame).2

/-- The gap at which an insertion goes on is marked, and so are those right of equal separators. -/
theorem marks_add (hfits : n.Fits) (hasc : Ascending n.keys) (k : Key) :
    Marks capacity n (.add k) (some (.gap (n.insertGap k))) .gap (n.gapProbe k) (n.insertGap k)
      (n.keys.length + 1) := by
  refine ⟨goal_add hfits k, rfl, ?_⟩
  intro i hlow hbound
  cases i with
  | zero =>
      refine ⟨k.label, true, rfl, fun _ => .inl ?_, fun _ => rfl⟩
      rw [Nat.le_zero.1 hlow]
  | succ i =>
      obtain ⟨a, ha⟩ : ∃ a, n.keys[i]? = some a :=
        ⟨_, List.getElem?_eq_getElem (Nat.lt_of_succ_lt_succ hbound)⟩
      refine ⟨k.label, !(k.lt a), by simp [gapProbe, ha], ?_⟩
      have hends : (!(k.lt a)) = true ↔ a.le k := by
        rw [Bool.not_eq_true', ← Bool.not_eq_true, Key.not_lt_iff_le]
      have hgoal : some (Place.gap (n.insertGap k)) = some (.gap (i + 1)) ↔ i < n.insertGap k := by
        simp only [Option.some.injEq, Place.gap.injEq]
        omega
      rw [hends, hgoal, le_iff_insertGap hasc ha]

theorem repeats_add_iff (hasc : Ascending n.keys) (k : Key) :
    n.Repeats (.add k) ↔ ∃ i, n.insertGap k < i ∧ i < n.keys.length + 1 ∧
      n.Echo (.add k) (.gap i) := by
  constructor
  · rintro ⟨_, hop, hinner, a, hmem, hsame⟩
    cases hop
    obtain ⟨i, hi⟩ := List.mem_iff_getElem?.1 hmem
    have hgap : n.insertGap k = n.childIndex k := by simp [insertGap, hinner]
    have hnot : ¬ i < n.childIndex k := by
      rw [lt_childIndex_iff hasc hi, Key.not_lt_iff_le]
      exact (Key.same_iff.1 hsame).1
    have hlt : i < n.keys.length := (List.getElem?_eq_some_iff.1 hi).1
    exact ⟨i + 1, by omega, by omega, k, i, a, rfl, hinner, hi, hsame, rfl⟩
  · rintro ⟨_, -, -, _, i, a, hop, hinner, ha, hsame, -⟩
    exact ⟨_, hop, hinner, a, List.mem_of_getElem? ha, hsame⟩

theorem not_repeats_remove (n : Node Key) (k : Key) : ¬ n.Repeats (.remove k) := by
  rintro ⟨_, hop, -⟩
  cases hop

theorem not_echo_remove (n : Node Key) (k : Key) (place : Place) :
    ¬ n.Echo (.remove k) place := by
  rintro ⟨_, _, _, hop, -⟩
  cases hop

/-- A removal passes nothing that equals its key. -/
theorem repeats_remove_iff (n : Node Key) (k : Key) (place : Nat → Place) (low bound : Nat) :
    n.Repeats (.remove k) ↔ ∃ i, low < i ∧ i < bound ∧ n.Echo (.remove k) (place i) := by
  refine ⟨fun h => absurd h (n.not_repeats_remove k), ?_⟩
  rintro ⟨i, -, -, he⟩
  exact absurd he (n.not_echo_remove k _)

theorem searchPlace_injective : Function.Injective searchPlace := by
  intro i j hij
  rw [searchPlace, searchPlace] at hij
  split at hij <;> split at hij <;> simp only [Place.slot.injEq, Place.gap.injEq, reduceCtorEq]
    at hij
  · omega
  · omega

/-- In a leaf the slot of the key is marked, if it is there. -/
theorem probed_remove_leaf (hfits : n.Fits) (hleaf : n.children = []) (k : Key) :
    n.Probed capacity (.remove k) (n.removePlace k) (n.probesOf (.remove k)) := by
  have hgoal : n.Goal capacity (.remove k) _ := goal_remove hfits k
  have hright : n.fromRight (.remove k) = (downTo 0 n.keys.length).map .slot := by
    simp [fromRight, hleaf]
  have hprobes : n.probesOf (.remove k) =
      n.sweep .slot (n.slotMessage k) ((n.slotOf? k).getD 0) n.keys.length := by
    simp [probesOf, hleaf]
  rw [hprobes]
  cases hslot : n.slotOf? k with
  | none =>
      have hplace : n.removePlace k = none := by simp [removePlace, hslot, hleaf]
      rw [hplace] at hgoal ⊢
      refine Marks.probed_all ⟨hgoal, hright, fun i _ _ => ⟨k.label, _, rfl, ?_⟩⟩
      simp [hslot, not_echo_remove]
  | some slot =>
      have hplace : n.removePlace k = some (.slot slot) := by simp [removePlace, hslot]
      rw [hplace] at hgoal ⊢
      refine Marks.probed ⟨hgoal, hright, fun i _ _ => ⟨k.label, _, rfl, ?_⟩⟩
        (fun _ _ => Place.slot.inj) (slotOf?_lt hslot) (n.repeats_remove_iff k _ _ _)
      simp [hslot, not_echo_remove]

/-- Where the search in an inner node ends: at the slot of the key, or else at the gap of a
child. -/
theorem exists_searchPlace (hinner : n.children ≠ []) (k : Key) :
    ∃ last, (n.slotOf? k).elim (2 * n.childIndex k) (2 * · + 1) = last ∧
      n.removePlace k = some (searchPlace last) ∧ last < 2 * n.keys.length + 1 := by
  cases hslot : n.slotOf? k with
  | none =>
      have hle := n.childIndex_le k
      refine ⟨2 * n.childIndex k, rfl, ?_, by omega⟩
      simp [removePlace, hslot, hinner, searchPlace]
  | some slot =>
      have hlt := slotOf?_lt hslot
      have hodd : (2 * slot + 1) % 2 = 1 ∧ (2 * slot + 1) / 2 = slot := by omega
      refine ⟨2 * slot + 1, rfl, ?_, by omega⟩
      simp [removePlace, hslot, searchPlace, hodd]

/-- In an inner node the place at which a removal goes on is marked, and no other one. -/
theorem probed_remove_inner (hfits : n.Fits) (hinner : n.children ≠ []) (k : Key) :
    n.Probed capacity (.remove k) (n.removePlace k) (n.probesOf (.remove k)) := by
  have hgoal : n.Goal capacity (.remove k) _ := goal_remove hfits k
  have hright : n.fromRight (.remove k) =
      (downTo 0 (2 * n.keys.length + 1)).map searchPlace := by
    simp [fromRight, hinner]
  obtain ⟨last, hlast, hplace, hbound⟩ := exists_searchPlace hinner k
  have hprobes : n.probesOf (.remove k) =
      n.sweep searchPlace (n.searchMessage k last) last (2 * n.keys.length + 1) := by
    simp [probesOf, hinner, hlast]
  rw [hplace] at hgoal ⊢
  rw [hprobes]
  refine Marks.probed ⟨hgoal, hright, fun i _ _ => ⟨_, _, rfl, ?_⟩⟩ searchPlace_injective hbound
    (n.repeats_remove_iff k _ _ _)
  simp only [not_echo_remove, or_false, Option.some.injEq, searchPlace_injective.eq_iff, beq_iff_eq]
  exact eq_comm

/-- **The probes of one node** on the way of an operation. -/
theorem probed_probesOf (hfits : n.Fits) (hasc : Ascending n.keys) (hne : n.keys ≠ [])
    (op : Operation) : ∃ goal, n.Probed capacity op goal (n.probesOf op) := by
  cases op with
  | add k =>
      have hle := n.insertGap_le k
      refine ⟨some (.gap (n.insertGap k)), ?_⟩
      have hprobes : n.probesOf (.add k) =
          n.sweep .gap (n.gapProbe k) (n.insertGap k) (n.keys.length + 1) := by
        simp [probesOf, hne]
      rw [hprobes]
      exact (marks_add hfits hasc k).probed (fun _ _ => Place.gap.inj) (by omega)
        (repeats_add_iff hasc k)
  | remove k =>
      by_cases hleaf : n.children = []
      · exact ⟨_, probed_remove_leaf hfits hleaf k⟩
      · exact ⟨_, probed_remove_inner hfits hleaf k⟩

end Node
end TracedTree
