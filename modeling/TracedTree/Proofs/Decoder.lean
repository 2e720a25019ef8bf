import TracedTree.Proofs.Json
import TracedTree.Proofs.Relabel
import TracedTree.Tree.Export

/-!
# Documents read back

The decoders undo what is written: a picture reads back from its JSON value when enough levels of
nesting are left for its height and its identities are 64-bit words, and so does a document. The
decoder cannot give any other picture, so whatever was decoded once can be written and decoded
again.

## Main statements

* `Decoder.picture_toJson`: a picture of fitting height reads back.
* `Decoder.fits_of_picture`: every picture that was read fits.
* `Document.readText_write`: a document that fits reads back from its text.
-/

namespace TracedTree

/-! ## Lists -/

section Lists

variable {α β : Type}

theorem mapM_map_eq_some {f : β → Option α} {g : α → β} {xs : List α}
    (h : ∀ x ∈ xs, f (g x) = some x) : (xs.map g).mapM f = some xs := by
  induction xs with
  | nil => rfl
  | cons x xs ih =>
      rw [List.map_cons, List.mapM_cons, h x List.mem_cons_self,
        ih fun y hy => h y (List.mem_cons_of_mem x hy)]
      rfl

theorem exists_of_mem_mapM {f : β → Option α} {xs : List β} {ys : List α}
    (h : xs.mapM f = some ys) : ∀ y ∈ ys, ∃ x ∈ xs, f x = some y := by
  induction xs generalizing ys with
  | nil =>
      obtain rfl : [] = ys := by simpa using h
      nofun
  | cons x xs ih =>
      rw [List.mapM_cons] at h
      simp only [Option.bind_eq_bind, Option.bind_eq_some_iff] at h
      obtain ⟨y, hy, ys', hys, hcons⟩ := h
      obtain rfl := Option.some.inj hcons
      intro z hz
      rcases List.mem_cons.1 hz with rfl | hz
      · exact ⟨x, List.mem_cons_self, hy⟩
      · obtain ⟨a, ha, hfa⟩ := ih hys z hz
        exact ⟨a, List.mem_cons_of_mem x ha, hfa⟩

end Lists

namespace Decoder

variable {α : Type} {levels : Nat}

/-! ## Parts -/

theorem word_ofNat {n : Nat} (hn : n < Nat.pow 2 64) (levels : Nat) :
    word levels (.ofNat n) = some n := Numeral.word?_toDigits hn

theorem text_ofText (s : String) (levels : Nat) : text levels (.ofText s) = some s :=
  Quoted.decode?_encode s

theorem choice_name (kind : Kind) (levels : Nat) :
    choice Kind.ofName? levels (.ofText kind.name) = some kind := by
  rw [Json.ofText, choice, Quoted.decode?_encode]
  cases kind <;> rfl

theorem list_map {d : Decoder α} {g : α → Json} {xs : List α}
    (h : ∀ x ∈ xs, d levels (g x) = some x) :
    list d (levels + 1) (.array (xs.map g)) = some xs := mapM_map_eq_some h

/-- The names of a record resolve to what they were. -/
theorem fields_record (names : List String) (members : List (String × Json)) :
    fields names (Json.record members) = names.mapM (field members) := by
  have hread : (members.map fun m => (Quoted.encode m.1, m.2)).mapM
      (fun m : List Char × Json => do return (← Quoted.decode? m.1, m.2)) = some members := by
    refine mapM_map_eq_some fun m _ => ?_
    rw [Quoted.decode?_encode]
    rfl
  rw [Json.record, fields]
  exact congrArg (Option.bind · fun read => names.mapM (field read)) hread

theorem record_eq {names : List String} {members : List (String × Json)}
    {found : List (Option Json)} (h : names.mapM (field members) = some found)
    (read : Nat → List (Option Json) → Option α) (levels : Nat) :
    record names read (levels + 1) (Json.record members) = read levels found := by
  rw [record, fields_record, h, Option.bind_some]

/-- What is read as a word is a 64-bit word. -/
theorem lt_of_word {j : Json} {n : Nat} (h : word levels j = some n) : n < Nat.pow 2 64 := by
  unfold word at h
  split at h
  · obtain ⟨m, -, hm⟩ := Option.bind_eq_some_iff.1 h
    exact Numeral.lt_of_word? hm
  · cases h

end Decoder

/-! ## Pictures -/

namespace Node

theorem toJson_mk (id : Nat) (labels : List String) (children : List Picture) :
    toJson ⟨id, labels, children⟩ =
      Json.record
        (("name", Json.record [("id", .ofNat id), ("keys", .array (labels.map .ofText))]) ::
        if children.isEmpty then [] else [("children", .array (children.map toJson))]) := by
  rw [toJson, fold_mk, ← toJson]
  simp only [List.isEmpty_map]

theorem plain_toJson (p : Picture) : p.toJson.Plain := by
  induction p using Node.induction with
  | step id labels children ih =>
      have hname : (Json.record
          [("id", .ofNat id), ("keys", .array (labels.map .ofText))]).Plain := by
        refine .record ?_
        simp only [List.forall_mem_cons]
        refine ⟨.ofNat id, .array ?_, nofun⟩
        simpa using fun s _ => Json.Plain.ofText s
      rw [toJson_mk]
      refine .record (List.forall_mem_cons.2 ⟨hname, ?_⟩)
      split
      · nofun
      · simp only [List.forall_mem_cons]
        exact ⟨.array (by simpa using ih), nofun⟩

end Node

namespace Decoder

variable {α : Type} {levels : Nat}

theorem nodeName_toJson {id : Nat} (hid : id < Nat.pow 2 64) (labels : List String) (levels : Nat) :
    nodeName (levels + 2)
        (Json.record [("id", .ofNat id), ("keys", .array (labels.map .ofText))]) =
      some (id, labels) := by
  have hlabels : list text (levels + 1) (.array (labels.map .ofText)) = some labels :=
    list_map fun s _ => text_ofText s levels
  rw [nodeName, record_eq rfl]
  simp [required, word_ofNat hid, hlabels]

/-- What the decoder of pictures can give. -/
structure Fits (levels : Nat) (p : Picture) : Prop where
  ids : ∀ id ∈ p.ids, id < Nat.pow 2 64
  height : 2 * p.height + 3 ≤ levels

/-- **A picture reads back** when its identities are 64-bit words and the levels of nesting
suffice: a node takes two from its children, and a leaf takes three. -/
theorem picture_toJson {p : Picture} (hp : Fits levels p) : picture levels p.toJson = some p := by
  induction p using Node.induction generalizing levels with
  | step id labels children ih =>
      have hlevels := hp.height
      obtain ⟨levels, rfl⟩ : ∃ l, levels = l + 3 := ⟨levels - 3, by omega⟩
      have hid : id < Nat.pow 2 64 := hp.ids id (by simp [Node.ids_mk])
      have hname := nodeName_toJson hid labels levels
      have hbelow : (children.map Node.toJson).mapM (picture (levels + 1)) = some children := by
        refine mapM_map_eq_some fun c hc => ih c hc ⟨fun i hi => hp.ids i ?_, ?_⟩
        · rw [Node.ids_mk]
          exact List.mem_cons_of_mem id (List.mem_flatMap.2 ⟨c, hc, hi⟩)
        · have hlt : c.height < Node.height ⟨id, labels, children⟩ := Node.height_lt_of_mem hc
          omega
      rw [Node.toJson_mk, picture]
      by_cases hnil : children = []
      · subst hnil
        rw [List.isEmpty_nil, if_pos rfl, record_eq rfl]
        simp [required, optional, hname]
      · rw [if_neg (by simpa using hnil), record_eq rfl]
        simp [required, optional, hname, hbelow]

/-- A record is read with one level less for its fields. -/
theorem exists_of_record {names : List String} {read : Nat → List (Option Json) → Option α}
    {j : Json} {a : α} (h : record names read levels j = some a) :
    ∃ left found, levels = left + 1 ∧ read left found = some a := by
  cases levels with
  | zero => cases h
  | succ left =>
      obtain ⟨found, -, hread⟩ := Option.bind_eq_some_iff.1 h
      exact ⟨left, found, rfl, hread⟩

theorem lt_of_nodeName {j : Json} {id : Nat} {labels : List String}
    (h : nodeName levels j = some (id, labels)) : id < Nat.pow 2 64 ∧ 2 ≤ levels := by
  obtain ⟨left, found, rfl, hread⟩ := exists_of_record h
  split at hread
  · rename_i name below
    simp only [Option.bind_eq_bind, Option.bind_eq_some_iff] at hread
    obtain ⟨i, hi, labels', hlabels, hpair⟩ := hread
    obtain ⟨rfl, rfl⟩ := Prod.mk.inj (Option.some.inj hpair)
    obtain ⟨_, -, hword⟩ := Option.bind_eq_some_iff.1 hi
    obtain ⟨_, -, hlist⟩ := Option.bind_eq_some_iff.1 hlabels
    refine ⟨lt_of_word hword, ?_⟩
    cases left with
    | zero => cases hlist
    | succ left => omega
  · cases hread

/-- Every picture that was read fits. -/
theorem fits_of_picture {j : Json} {p : Picture} (h : picture levels j = some p) :
    Fits levels p := by
  induction levels using Nat.strongRecOn generalizing j p with
  | _ levels ih =>
      obtain _ | _ | levels := levels
      · cases h
      · cases h
      rw [picture] at h
      obtain ⟨left, found, hleft, hread⟩ := exists_of_record h
      obtain rfl : levels + 1 = left := Nat.succ.inj hleft
      simp only at hread
      split at hread
      · rename_i name below
        simp only [Option.bind_eq_bind, Option.bind_eq_some_iff] at hread
        obtain ⟨⟨id, labels⟩, hname, children, hchildren, hnode⟩ := hread
        obtain rfl : ⟨id, labels, children⟩ = p := Option.some.inj hnode
        obtain ⟨_, -, hname⟩ := Option.bind_eq_some_iff.1 hname
        obtain ⟨hid, hlow⟩ := lt_of_nodeName hname
        have hbelow : ∀ c ∈ children, Fits levels c := by
          cases below with
          | none =>
              obtain rfl : [] = children := Option.some.inj hchildren
              nofun
          | some below =>
              simp only [optional, Option.elim_some] at hchildren
              split at hchildren
              · intro c hc
                obtain ⟨e, -, he⟩ := exists_of_mem_mapM hchildren c hc
                exact ih levels (by omega) he
              · cases hchildren
        refine ⟨?_, ?_⟩
        · rw [Node.ids_mk, List.forall_mem_cons, List.forall_mem_flatMap]
          exact ⟨hid, fun c hc => (hbelow c hc).ids⟩
        · by_cases hnil : children = []
          · have hleaf : Node.height ⟨id, labels, children⟩ ≤ 0 :=
              Node.height_le_iff.2 (by simp [hnil])
            omega
          · obtain ⟨c, hc⟩ := List.exists_mem_of_ne_nil _ hnil
            have hheight : Node.height ⟨id, labels, children⟩ ≤ (levels + 2 - 3) / 2 := by
              refine Node.height_le_iff.2 fun d hd => ?_
              have hd' := (hbelow d hd).height
              omega
            have hc' := (hbelow c hc).height
            omega
      · cases hread

end Decoder

/-! ## Documents -/

namespace Document

/-- What the decoder of documents can give. -/
structure Fits (d : Document) : Prop where
  maxKeys : d.maxKeys < Nat.pow 2 64
  picture : Decoder.Fits (Decoder.maxLevels - 1) d.picture

variable {d : Document}

theorem plain_toJson (d : Document) : d.toJson.Plain := by
  refine .record ?_
  simp only [List.forall_mem_cons]
  exact ⟨.ofNat _, .ofText _, d.picture.plain_toJson, nofun⟩

theorem fits_of_decode {levels : Nat} {j : Json} (h : Decoder.document (levels + 1) j = some d) :
    d.maxKeys < Nat.pow 2 64 ∧ Decoder.Fits levels d.picture := by
  obtain ⟨left, found, hleft, hread⟩ := Decoder.exists_of_record h
  obtain rfl : levels = left := Nat.succ.inj hleft
  split at hread
  · simp only [Option.bind_eq_bind, Option.bind_eq_some_iff] at hread
    obtain ⟨maxKeys, hword, kind, -, p, hpicture, hd⟩ := hread
    obtain rfl := Option.some.inj hd
    obtain ⟨_, -, hword⟩ := Option.bind_eq_some_iff.1 hword
    obtain ⟨_, -, hpicture⟩ := Option.bind_eq_some_iff.1 hpicture
    exact ⟨Decoder.lt_of_word hword, Decoder.fits_of_picture hpicture⟩
  · cases hread

theorem decode_toJson (hd : d.Fits) : Decoder.document Decoder.maxLevels d.toJson = some d := by
  have hword := Decoder.word_ofNat hd.maxKeys (Decoder.maxLevels - 1)
  have hname := Decoder.choice_name d.kind (Decoder.maxLevels - 1)
  have hpicture := Decoder.picture_toJson hd.picture
  rw [Decoder.document, toJson, Decoder.maxLevels, Decoder.record_eq rfl]
  simp only [Decoder.maxLevels] at hword hname hpicture
  simp [Decoder.required, hword, hname, hpicture]

/-- A document reads back from its text. -/
theorem readText_write (hd : d.Fits) : Decoder.document.readText d.toJson.write = some d := by
  rw [Decoder.readText, Json.read?_write d.plain_toJson]
  exact decode_toJson hd

/-- Every document that was read fits. -/
theorem fits_of_readText {text : String} (h : Decoder.document.readText text = some d) :
    d.Fits := by
  obtain ⟨j, -, hj⟩ := Option.bind_eq_some_iff.1 h
  obtain ⟨hword, hpicture⟩ := fits_of_decode hj
  exact ⟨hword, hpicture⟩

end Document

end TracedTree
