/-!
# Tables

A table maps keys to values and keeps its entries in strictly ascending order of the keys, so
two tables with the same entries are equal and are written in one way. `Table.insert` is the
only way to add an entry; a value inserted under a key that is present replaces the old one.
-/

namespace TracedTree

/-- A finite map whose entries are listed in ascending order of the keys. -/
structure Table (κ ν : Type) [Ord κ] where
  entries : List (κ × ν)
  ascending : entries.Pairwise fun a b => compare a.1 b.1 = .lt

namespace Table

variable {κ ν : Type} [Ord κ]

@[ext] theorem ext {s t : Table κ ν} (h : s.entries = t.entries) : s = t := by
  cases s; cases t; cases h; rfl

instance [DecidableEq κ] [DecidableEq ν] : DecidableEq (Table κ ν) := fun s t =>
  decidable_of_iff (s.entries = t.entries) ⟨ext, fun h => h ▸ rfl⟩

/-- The table without entries. -/
def empty : Table κ ν := ⟨[], .nil⟩

instance : Inhabited (Table κ ν) := ⟨empty⟩

/-- Nothing is stored. -/
def isEmpty (t : Table κ ν) : Bool := t.entries.isEmpty

/-- The keys in ascending order. -/
def keys (t : Table κ ν) : List κ := t.entries.map (·.1)

/-- The values in the order of their keys. -/
def values (t : Table κ ν) : List ν := t.entries.map (·.2)

/-- The value stored under a key. -/
def get? (t : Table κ ν) (k : κ) : Option ν :=
  (t.entries.find? fun e => compare k e.1 == .eq).map (·.2)

/-- Put an entry at its place in an ascending list, over one with an equal key. -/
def insertEntry (k : κ) (v : ν) : List (κ × ν) → List (κ × ν)
  | [] => [(k, v)]
  | e :: rest =>
    match compare k e.1 with
    | .lt => (k, v) :: e :: rest
    | .eq => (k, v) :: rest
    | .gt => e :: insertEntry k v rest

theorem mem_insertEntry {k : κ} {v : ν} {e : κ × ν} :
    {entries : List (κ × ν)} → e ∈ insertEntry k v entries → e = (k, v) ∨ e ∈ entries
  | [], h => by simpa [insertEntry] using h
  | d :: rest, h => by
    unfold insertEntry at h
    split at h
    · simpa using h
    · simp only [List.mem_cons] at h ⊢
      exact h.imp_right .inr
    · simp only [List.mem_cons] at h ⊢
      rcases h with h | h
      · exact .inr (.inl h)
      · exact (mem_insertEntry h).imp_right .inr

variable [Std.TransOrd κ]

theorem pairwise_insertEntry (k : κ) (v : ν) :
    {entries : List (κ × ν)} → entries.Pairwise (fun a b => compare a.1 b.1 = .lt) →
      (insertEntry k v entries).Pairwise fun a b => compare a.1 b.1 = .lt
  | [], _ => by simp [insertEntry]
  | d :: rest, h => by
    have hd := List.pairwise_cons.1 h
    unfold insertEntry
    split
    · rename_i hk
      refine List.pairwise_cons.2 ⟨fun e he => ?_, h⟩
      rcases List.mem_cons.1 he with rfl | he
      · exact hk
      · exact Std.TransCmp.lt_trans hk (hd.1 e he)
    · rename_i hk
      exact List.pairwise_cons.2 ⟨fun e he => Std.TransCmp.lt_of_eq_of_lt hk (hd.1 e he), hd.2⟩
    · rename_i hk
      refine List.pairwise_cons.2 ⟨fun e he => ?_, pairwise_insertEntry k v hd.2⟩
      rcases mem_insertEntry he with rfl | he
      · exact Std.OrientedCmp.lt_of_gt hk
      · exact hd.1 e he

/-- Store a value under a key. -/
def insert (t : Table κ ν) (k : κ) (v : ν) : Table κ ν :=
  ⟨insertEntry k v t.entries, pairwise_insertEntry k v t.ascending⟩

/-- Store the value that a function gives for the old one. -/
def alter (t : Table κ ν) (k : κ) (f : Option ν → ν) : Table κ ν :=
  t.insert k (f (t.get? k))

/-- The table of a list of entries; of entries with equal keys the last one stays. -/
def ofList (entries : List (κ × ν)) : Table κ ν :=
  entries.foldl (fun t e => t.insert e.1 e.2) empty

end Table

end TracedTree
