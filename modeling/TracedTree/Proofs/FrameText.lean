import TracedTree.Proofs.Decoder

/-!
# Frames read back

The text of a frame holds numbers, labels and messages, lists, records, and tables whose keys stand
as names of members. Everything reads back as it was, as long as all numbers are 64-bit words and
the levels of nesting suffice for the picture. The decoder gives no other frame, so whatever was
read once can be written and read again.

## Main definitions

* `Frame.words f`: all numbers of a frame, those that are keys of its tables among them.
* `Frame.Fits f`: what the decoder of frames can give.

## Main statements

* `Decoder.table_record`: a table reads back from the record of its entries.
* `Decoder.highlight_toJson`: a highlight reads back.
* `Frame.text_reads_back`: a frame reads back from its text exactly when it fits.
-/

namespace TracedTree

/-! ## Tables -/

namespace Table

variable {κ ν : Type} [Ord κ] [Std.TransOrd κ]

/-- Behind all smaller keys, an entry comes last. -/
theorem insertEntry_of_lt {k : κ} (v : ν) {entries : List (κ × ν)}
    (h : ∀ e ∈ entries, compare e.1 k = .lt) : insertEntry k v entries = entries ++ [(k, v)] := by
  induction entries with
  | nil => rfl
  | cons e rest ih =>
      have hkey : compare k e.1 = .gt :=
        Std.OrientedCmp.gt_of_lt (h e List.mem_cons_self)
      rw [insertEntry, hkey, ih fun d hd => h d (List.mem_cons_of_mem e hd)]
      rfl

/-- Storing ascending entries behind those of a table appends them. -/
theorem entries_foldl_insert {rest : List (κ × ν)} (t : Table κ ν)
    (h : (t.entries ++ rest).Pairwise fun a b => compare a.1 b.1 = .lt) :
    (rest.foldl (fun t e => t.insert e.1 e.2) t).entries = t.entries ++ rest := by
  induction rest generalizing t with
  | nil => rw [List.foldl_nil, List.append_nil]
  | cons e rest ih =>
      have hbehind : ∀ d ∈ t.entries, compare d.1 e.1 = .lt := fun d hd =>
        (List.pairwise_append.1 h).2.2 d hd e List.mem_cons_self
      have hinsert : (t.insert e.1 e.2).entries = t.entries ++ [e] := insertEntry_of_lt e.2 hbehind
      have happend : t.entries ++ e :: rest = (t.insert e.1 e.2).entries ++ rest := by
        rw [hinsert, List.append_assoc, List.singleton_append]
      rw [happend] at h ⊢
      exact ih _ h

/-- A table is made from its entries. -/
theorem ofList_entries (t : Table κ ν) : ofList t.entries = t :=
  ext (entries_foldl_insert empty t.ascending)

/-- Every entry of a table stands in the list that it is made from. -/
theorem mem_of_mem_ofList {entries : List (κ × ν)} :
    ∀ e ∈ (ofList entries).entries, e ∈ entries := by
  have hkeep : ∀ (rest : List (κ × ν)) (t : Table κ ν),
      ∀ e ∈ (rest.foldl (fun t e => t.insert e.1 e.2) t).entries, e ∈ t.entries ∨ e ∈ rest := by
    intro rest
    induction rest with
    | nil => exact fun t e he => .inl he
    | cons d rest ih =>
        intro t e he
        rcases ih _ e he with he | he
        · rcases mem_insertEntry he with rfl | he
          · exact .inr List.mem_cons_self
          · exact .inl he
        · exact .inr (List.mem_cons_of_mem d he)
  intro e he
  exact (hkeep entries empty e he).resolve_left List.not_mem_nil

end Table

/-! ## Names of members -/

namespace Quoted

theorem encodeChar_plain {c : Char} (hc : IsPlain c) : encodeChar c = [c] := by
  obtain ⟨hquote, hback, hhigh⟩ := hc
  have hnamed : c ≠ '\n' ∧ c ≠ '\r' ∧ c ≠ '\t' := by
    refine ⟨?_, ?_, ?_⟩ <;> rintro rfl <;> exact hhigh (by decide)
  have hcode : c.toNat ≠ 0x08 ∧ c.toNat ≠ 0x0c := by omega
  simp [encodeChar, hquote, hback, hnamed, hcode, hhigh]

theorem isPlain_of_isDigit {c : Char} (hc : c.isDigit = true) : IsPlain c := by
  have hlow : 48 ≤ c.toNat ∧ c.toNat ≤ 57 := by
    simpa [Char.isDigit, UInt32.le_iff_toNat_le] using hc
  refine ⟨?_, ?_, by omega⟩ <;> rintro rfl <;> exact absurd hc (by decide)

/-- A number is written as its digits. -/
theorem encode_toString (n : Nat) : encode (toString n) = Nat.toDigits 10 n := by
  have hdigits : ∀ c ∈ Nat.toDigits 10 n, encodeChar c = [c] := fun c hc =>
    encodeChar_plain (isPlain_of_isDigit (Numeral.isDigit_toDigits n c hc))
  have htext : (toString n).toList = Nat.toDigits 10 n := by simp
  rw [encode, htext, List.flatMap_congr hdigits]
  simp

end Quoted

namespace Decoder

theorem wordKey_toString {n : Nat} (hn : n < Nat.pow 2 64) :
    wordKey (Quoted.encode (toString n)) = some n := by
  rw [Quoted.encode_toString]
  exact Numeral.word?_toDigits hn

theorem lt_of_wordKey {written : List Char} {n : Nat} (h : wordKey written = some n) :
    n < Nat.pow 2 64 := by
  obtain ⟨m, -, hm⟩ := Option.bind_eq_some_iff.1 h
  exact Numeral.lt_of_word? hm

/-! ## Lists and tables -/

section Table

variable {α κ ν : Type} [Ord κ] [Std.TransOrd κ] {levels : Nat} {key : List Char → Option κ}
  {d : Decoder ν} {t : Table κ ν}

/-- A table reads back from the record of its entries, if each key does from its name and each
value from what is written for it. -/
theorem table_record {name : κ → String} {value : ν → Json}
    (hkey : ∀ k ∈ t.keys, key (Quoted.encode (name k)) = some k)
    (hvalue : ∀ v ∈ t.values, d levels (value v) = some v) :
    table key d (levels + 1) (Json.record (t.entries.map fun e => (name e.1, value e.2))) =
      some t := by
  have hentries : ((t.entries.map fun e => (name e.1, value e.2)).map
      fun m => (Quoted.encode m.1, m.2)).mapM
        (fun m : List Char × Json => do return (← key m.1, ← d levels m.2)) = some t.entries := by
    rw [List.map_map]
    refine mapM_map_eq_some fun e he => ?_
    simp [hkey e.1 (List.mem_map_of_mem he), hvalue e.2 (List.mem_map_of_mem he)]
  rw [Json.record, table, hentries]
  exact congrArg some t.ofList_entries

/-- Every key and every value of a table that was read was read itself. -/
theorem exists_of_table {j : Json} (h : table key d levels j = some t) :
    ∃ left, levels = left + 1 ∧
      (∀ k ∈ t.keys, ∃ written, key written = some k) ∧ ∀ v ∈ t.values, ∃ i, d left i = some v := by
  unfold table at h
  split at h
  · rename_i left members
    simp only [Option.bind_eq_bind, Option.bind_eq_some_iff] at h
    obtain ⟨entries, hentries, htable⟩ := h
    obtain rfl := Option.some.inj htable
    have hread : ∀ e ∈ (Table.ofList entries).entries,
        (∃ written, key written = some e.1) ∧ ∃ i, d left i = some e.2 := by
      intro e he
      obtain ⟨m, -, hm⟩ := exists_of_mem_mapM hentries e (Table.mem_of_mem_ofList e he)
      simp only [Option.bind_eq_some_iff] at hm
      obtain ⟨k, hk, v, hv, hpair⟩ := hm
      obtain rfl := Option.some.inj hpair
      exact ⟨⟨_, hk⟩, _, hv⟩
    refine ⟨left, rfl, ?_, ?_⟩
    · intro k hk
      obtain ⟨e, he, rfl⟩ := List.mem_map.1 hk
      exact (hread e he).1
    · intro v hv
      obtain ⟨e, he, rfl⟩ := List.mem_map.1 hv
      exact (hread e he).2
  · cases h

/-- Every element of a list that was read was read itself. -/
theorem exists_of_list {d : Decoder α} {j : Json} {xs : List α} (h : list d levels j = some xs) :
    ∀ x ∈ xs, ∃ left i, d left i = some x := by
  unfold list at h
  split at h
  · intro x hx
    obtain ⟨i, -, hi⟩ := exists_of_mem_mapM h x hx
    exact ⟨_, i, hi⟩
  · cases h

end Table
end Decoder

/-! ## Numbers of a frame -/

/-- The numbers in the emphasis on a node. -/
def NodeHighlight.words (n : NodeHighlight) : List Nat :=
  n.indices ++ n.indexMessages.keys ++ n.separators ++ n.separatorMessages.keys

/-- The numbers of a highlight. -/
def Highlight.words (h : Highlight) : List Nat :=
  h.nodes.keys ++ h.nodes.values.flatMap NodeHighlight.words

/-- The numbers of counters. -/
def Counters.words (c : Counters) : List Nat :=
  [c.splits, c.merges, c.smallRotations, c.bigRotations]

/-- The numbers of a frame. -/
def Frame.words (f : Frame) : List Nat :=
  f.picture.ids ++ f.highlight.words ++ f.counters.words

/-- What the decoder of frames can give. -/
structure Frame.Fits (f : Frame) : Prop where
  words : ∀ n ∈ f.words, n < Nat.pow 2 64
  height : f.picture.height ≤ 61

/-! ## Records of a frame -/

namespace Decoder

variable {levels : Nat}

/-- A table with numbers as keys reads back. -/
theorem table_toJson {ν : Type} {d : Decoder ν} {value : ν → Json} {t : Table Nat ν}
    (hkeys : ∀ k ∈ t.keys, k < Nat.pow 2 64)
    (hvalues : ∀ v ∈ t.values, d levels (value v) = some v) :
    table wordKey d (levels + 1) (t.toJson value) = some t :=
  table_record (fun k hk => wordKey_toString (hkeys k hk)) hvalues

theorem list_ofNat {xs : List Nat} (hxs : ∀ x ∈ xs, x < Nat.pow 2 64) (levels : Nat) :
    list word (levels + 1) (.array (xs.map .ofNat)) = some xs :=
  list_map fun x hx => word_ofNat (hxs x hx) levels

theorem nodeHighlight_toJson {n : NodeHighlight} (hn : ∀ w ∈ n.words, w < Nat.pow 2 64)
    (levels : Nat) : nodeHighlight (levels + 2) n.toJson = some n := by
  rw [NodeHighlight.words] at hn
  simp only [List.forall_mem_append] at hn
  obtain ⟨⟨⟨hindices, hindexKeys⟩, hseparators⟩, hseparatorKeys⟩ := hn
  have hindexMessages := table_toJson hindexKeys fun s _ => text_ofText s levels
  have hseparatorMessages := table_toJson hseparatorKeys fun s _ => text_ofText s levels
  rw [nodeHighlight, NodeHighlight.toJson, record_eq rfl]
  simp [required, bool, text_ofText, list_ofNat hindices, hindexMessages, list_ofNat hseparators,
    hseparatorMessages]

theorem edge_toJson (full : Bool) (levels : Nat) :
    edge (levels + 1) (edgeToJson full) = some full := by
  rw [edge, edgeToJson, record_eq rfl]
  rfl

/-- **A highlight reads back**, with tables inside tables. -/
theorem highlight_toJson {h : Highlight} (hh : ∀ w ∈ h.words, w < Nat.pow 2 64) (levels : Nat) :
    highlight (levels + 4) h.toJson = some h := by
  rw [Highlight.words, List.forall_mem_append, List.forall_mem_flatMap] at hh
  have hnodes : table wordKey nodeHighlight (levels + 3) (h.nodes.toJson NodeHighlight.toJson) =
      some h.nodes := table_toJson hh.1 fun n hn => nodeHighlight_toJson (hh.2 n hn) levels
  have hname : ∀ s ∈ h.edges.keys, textKey (Quoted.encode (id s)) = some s := fun s _ =>
    Quoted.decode?_encode s
  have hedges := table_record hname fun full _ => edge_toJson full (levels + 1)
  rw [highlight, Highlight.toJson, record_eq rfl]
  exact Option.bind_eq_some_iff.2
    ⟨h.nodes, hnodes, Option.bind_eq_some_iff.2 ⟨h.edges, hedges, rfl⟩⟩

theorem counters_toJson {c : Counters} (hc : ∀ w ∈ c.words, w < Nat.pow 2 64) (levels : Nat) :
    counters (levels + 1) c.toJson = some c := by
  rw [Counters.words] at hc
  simp only [List.forall_mem_cons] at hc
  obtain ⟨hsplits, hmerges, hsmall, hbig, -⟩ := hc
  rw [counters, Counters.toJson, record_eq rfl]
  simp [required, word_ofNat hsplits, word_ofNat hmerges, word_ofNat hsmall, word_ofNat hbig]

/-- A required field was read. -/
theorem exists_of_required {α : Type} {d : Decoder α} {field : Option Json} {a : α}
    (h : required d levels field = some a) : ∃ j, d levels j = some a := by
  obtain ⟨j, -, hj⟩ := Option.bind_eq_some_iff.1 h
  exact ⟨j, hj⟩

theorem lt_of_required_word {field : Option Json} {n : Nat}
    (h : required word levels field = some n) : n < Nat.pow 2 64 := by
  obtain ⟨j, hj⟩ := exists_of_required h
  exact lt_of_word hj

theorem lt_of_required_list {field : Option Json} {xs : List Nat}
    (h : required (list word) levels field = some xs) : ∀ x ∈ xs, x < Nat.pow 2 64 := by
  obtain ⟨j, hj⟩ := exists_of_required h
  intro x hx
  obtain ⟨_, i, hi⟩ := exists_of_list hj x hx
  exact lt_of_word hi

theorem lt_of_required_table {ν : Type} {d : Decoder ν} {field : Option Json} {t : Table Nat ν}
    (h : required (table wordKey d) levels field = some t) : ∀ k ∈ t.keys, k < Nat.pow 2 64 := by
  obtain ⟨j, hj⟩ := exists_of_required h
  obtain ⟨_, -, hkeys, -⟩ := exists_of_table hj
  intro k hk
  obtain ⟨written, hwritten⟩ := hkeys k hk
  exact lt_of_wordKey hwritten

theorem lt_of_nodeHighlight {j : Json} {n : NodeHighlight} (h : nodeHighlight levels j = some n) :
    ∀ w ∈ n.words, w < Nat.pow 2 64 := by
  obtain ⟨left, found, rfl, hread⟩ := exists_of_record h
  split at hread
  · simp only [Option.bind_eq_bind, Option.bind_eq_some_iff] at hread
    obtain ⟨full, -, message, -, indices, hindices, indexMessages, hindexMessages, separators,
      hseparators, separatorMessages, hseparatorMessages, hn⟩ := hread
    obtain rfl := Option.some.inj hn
    rw [NodeHighlight.words]
    simp only [List.forall_mem_append]
    exact ⟨⟨⟨lt_of_required_list hindices, lt_of_required_table hindexMessages⟩,
      lt_of_required_list hseparators⟩, lt_of_required_table hseparatorMessages⟩
  · cases hread

theorem lt_of_highlight {j : Json} {h : Highlight} (hj : highlight levels j = some h) :
    ∀ w ∈ h.words, w < Nat.pow 2 64 := by
  obtain ⟨left, found, rfl, hread⟩ := exists_of_record hj
  split at hread
  · simp only [Option.bind_eq_bind, Option.bind_eq_some_iff] at hread
    obtain ⟨nodes, hnodes, edges, -, hh⟩ := hread
    obtain rfl := Option.some.inj hh
    rw [Highlight.words, List.forall_mem_append, List.forall_mem_flatMap]
    refine ⟨lt_of_required_table hnodes, ?_⟩
    obtain ⟨i, hi⟩ := exists_of_required hnodes
    obtain ⟨_, -, -, hvalues⟩ := exists_of_table hi
    intro n hn
    obtain ⟨k, hk⟩ := hvalues n hn
    exact lt_of_nodeHighlight hk
  · cases hread

theorem lt_of_counters {j : Json} {c : Counters} (h : counters levels j = some c) :
    ∀ w ∈ c.words, w < Nat.pow 2 64 := by
  obtain ⟨left, found, rfl, hread⟩ := exists_of_record h
  split at hread
  · simp only [Option.bind_eq_bind, Option.bind_eq_some_iff] at hread
    obtain ⟨splits, hsplits, merges, hmerges, small, hsmall, big, hbig, hc⟩ := hread
    obtain rfl := Option.some.inj hc
    rw [Counters.words]
    simp only [List.forall_mem_cons]
    exact ⟨lt_of_required_word hsplits, lt_of_required_word hmerges, lt_of_required_word hsmall,
      lt_of_required_word hbig, nofun⟩
  · cases hread

end Decoder

/-! ## Frames -/

/-- A table is a plain value if what is written for its values is. -/
theorem Table.plain_toJson {ν : Type} {value : ν → Json} (t : Table Nat ν)
    (h : ∀ v, (value v).Plain) : (t.toJson value).Plain := by
  refine .record ?_
  rw [List.forall_mem_map]
  exact fun e _ => h e.2

theorem NodeHighlight.plain_toJson (n : NodeHighlight) : n.toJson.Plain := by
  have hlist : ∀ xs : List Nat, (Json.array (xs.map .ofNat)).Plain := fun xs =>
    .array (List.forall_mem_map.2 fun x _ => .ofNat x)
  refine .record ?_
  simp only [List.forall_mem_cons]
  exact ⟨.bool _, .ofText _, hlist _, n.indexMessages.plain_toJson .ofText, hlist _,
    n.separatorMessages.plain_toJson .ofText, nofun⟩

theorem Highlight.plain_toJson (h : Highlight) : h.toJson.Plain := by
  have hedge : ∀ full, (edgeToJson full).Plain := fun full =>
    .record (List.forall_mem_singleton.2 (.bool full))
  refine .record ?_
  simp only [List.forall_mem_cons]
  exact ⟨h.nodes.plain_toJson NodeHighlight.plain_toJson,
    .record (List.forall_mem_map.2 fun e _ => hedge e.2), nofun⟩

theorem Counters.plain_toJson (c : Counters) : c.toJson.Plain := by
  refine .record ?_
  simp only [List.forall_mem_cons]
  exact ⟨.ofNat _, .ofNat _, .ofNat _, .ofNat _, nofun⟩

namespace Frame

variable {f : Frame}

theorem plain_toJson (f : Frame) : f.toJson.Plain := by
  refine .record ?_
  simp only [List.forall_mem_cons]
  exact ⟨f.picture.plain_toJson, f.highlight.plain_toJson, f.counters.plain_toJson, nofun⟩

theorem decode_toJson (hf : f.Fits) : Decoder.frame Decoder.maxLevels f.toJson = some f := by
  have hwords := hf.words
  rw [words] at hwords
  simp only [List.forall_mem_append] at hwords
  obtain ⟨⟨hids, hhighlight⟩, hcounters⟩ := hwords
  have hheight := hf.height
  have hpicture : Decoder.picture 126 f.picture.toJson = some f.picture :=
    Decoder.picture_toJson ⟨hids, by omega⟩
  have hhighlight' := Decoder.highlight_toJson hhighlight 122
  have hcounters' := Decoder.counters_toJson hcounters 125
  rw [Decoder.frame, toJson, Decoder.maxLevels, Decoder.record_eq rfl]
  simp [Decoder.required, hpicture, hhighlight', hcounters']

/-- Every frame that was read fits. -/
theorem fits_of_readText {text : String} (h : Decoder.frame.readText text = some f) : f.Fits := by
  obtain ⟨j, -, hj⟩ := Option.bind_eq_some_iff.1 h
  obtain ⟨left, found, hleft, hread⟩ := Decoder.exists_of_record hj
  obtain rfl : 126 = left := Nat.succ.inj hleft
  split at hread
  · simp only [Option.bind_eq_bind, Option.bind_eq_some_iff] at hread
    obtain ⟨p, hp, e, he, c, hc, hf⟩ := hread
    obtain rfl := Option.some.inj hf
    obtain ⟨_, hp⟩ := Decoder.exists_of_required hp
    obtain ⟨_, he⟩ := Decoder.exists_of_required he
    obtain ⟨_, hc⟩ := Decoder.exists_of_required hc
    have hfits := Decoder.fits_of_picture hp
    refine ⟨?_, ?_⟩
    · rw [words]
      simp only [List.forall_mem_append]
      exact ⟨⟨hfits.ids, Decoder.lt_of_highlight he⟩, Decoder.lt_of_counters hc⟩
    · have hlow := hfits.height
      change p.height ≤ 61
      omega
  · cases hread

/-- A frame that fits reads back from its text. -/
theorem readText_write (hf : f.Fits) : Decoder.frame.readText f.toJson.write = some f := by
  rw [Decoder.readText, Json.read?_write f.plain_toJson]
  exact decode_toJson hf

end Frame

/-- The field of the children is missing exactly where there are none. -/
theorem Decoder.fields_toJson (p : Picture) :
    ∃ name, fields ["name", "children"] p.toJson =
      some [some name, if p.isLeaf then none else some (.array (p.children.map Node.toJson))] := by
  obtain ⟨id, labels, children⟩ := p
  rw [Node.toJson_mk, fields_record]
  cases children with
  | nil => exact ⟨_, rfl⟩
  | cons c children => exact ⟨_, rfl⟩

/-- **Frames survive their text.** A frame reads back from the text that is written for it, equal in
every part, exactly when its numbers are 64-bit words and its picture is at most 61 levels high.
From whatever text a frame was read, it meets these conditions. A node without children is written
without the field for them, and only such a node is. -/
theorem Frame.text_reads_back :
    (∀ f : Frame, Decoder.frame.readText f.toJson.write = some f ↔ f.Fits) ∧
    (∀ (text : String) (f : Frame), Decoder.frame.readText text = some f →
      Decoder.frame.readText f.toJson.write = some f) ∧
    ∀ p : Picture, ∃ name, Decoder.fields ["name", "children"] p.toJson =
      some [some name, if p.isLeaf then none else some (.array (p.children.map Node.toJson))] :=
  ⟨fun _ => ⟨fits_of_readText, readText_write⟩,
    fun _ _ h => readText_write (fits_of_readText h), Decoder.fields_toJson⟩

/-- A frame with the largest numbers, an inner node above leaves with and without labels, and texts
that need every kind of escape; and one that is read from a text of another form. -/
theorem Frame.text_reads_back_escapes :
    (∃ f : Frame, f = ⟨⟨18446744073709551615, ["a\"b\\"], [⟨3, ["\n\r\t", "é"], []⟩, ⟨8, [], []⟩]⟩,
        ⟨Table.empty.insert 18446744073709551615 ⟨true, "\x01", [0, 0],
            Table.empty.insert 18446744073709551615 "/", [], .empty⟩,
          (Table.empty.insert "\x08" true).insert "" false⟩,
        ⟨18446744073709551615, 0, 0, 1⟩⟩ ∧
      f.Fits ∧ Decoder.frame.readText f.toJson.write = some f) ∧
    ∃ f : Frame,
      Decoder.frame.readText "[[[7, []]], [\x7b\x7d, \x7b\"\\u0039\": [true]\x7d], [1, 2, 3, 4]]" =
        some f ∧
      Decoder.frame.readText f.toJson.write = some f := by
  constructor
  · refine ⟨_, rfl, ⟨by decide, by decide⟩, ?_⟩
    exact (text_reads_back.1 _).2 ⟨by decide, by decide⟩
  · have hread : Decoder.frame.readText
        "[[[7, []]], [\x7b\x7d, \x7b\"\\u0039\": [true]\x7d], [1, 2, 3, 4]]" =
          some ⟨⟨7, [], []⟩, ⟨.empty, Table.empty.insert "9" true⟩, ⟨1, 2, 3, 4⟩⟩ := by
      decide +kernel
    exact ⟨_, hread, text_reads_back.2.1 _ _ hread⟩

end TracedTree
