import TracedTree.Proofs.Guarded
import TracedTree.Proofs.Frames

/-!
# Programs in the focus of a node

A guarded program walks the whole tree, but what it does at the end of a path concerns one node.
`Guarded.Leads` says so: wherever the node stands, the program comes to another one, with another
node and ledger, having shown some frames of the node. It composes, and what a program does to a
child it does to the parent.

Some frames are drawn by identity, and they are frames of the node only where the identities are
different. So a condition is carried along, under which the frames are as stated.

## Main definitions

* `Layer`, `plug`, `pathOf`: what is around a node in a tree, layer by layer, and the path to it.
* `Tree.focus`: a tree with a node at the end of a path, and with more frames.
* `Guarded.Leads D capacity ctx x n l y m l' frames`: the program `x` comes to the program `y`, with
  these frames of the node if `D` holds.
-/

namespace TracedTree

/-! ## Layers -/

/-- A node around one of its children. -/
structure Layer (α : Type) where
  id : Nat
  keys : List α
  left : List (Node α)
  right : List (Node α)

section Layers

variable {α β : Type}

/-- The node with a child in its place. -/
def Layer.close (y : Layer α) (c : Node α) : Node α := ⟨y.id, y.keys, y.left ++ c :: y.right⟩

/-- The layer with every key replaced. -/
def Layer.map (f : α → β) (y : Layer α) : Layer β :=
  ⟨y.id, y.keys.map f, y.left.map (Node.map f), y.right.map (Node.map f)⟩

/-- The tree around a node, whose parent is the first layer. -/
def plug : List (Layer α) → Node α → Node α
  | [], n => n
  | y :: ctx, n => plug ctx (y.close n)

/-- The path to the node in the middle of the layers. -/
def pathOf (ctx : List (Layer α)) : List Nat := ctx.map (·.left.length)

variable {ctx more : List (Layer α)} {n m : Node α} {y : Layer α}

theorem plug_append (more ctx : List (Layer α)) (n : Node α) :
    plug (more ++ ctx) n = plug ctx (plug more n) := by
  induction more generalizing n with
  | nil => rfl
  | cons y more ih => exact ih (y.close n)

theorem map_plug (f : α → β) (ctx : List (Layer α)) (n : Node α) :
    (plug ctx n).map f = plug (ctx.map (Layer.map f)) (n.map f) := by
  induction ctx generalizing n with
  | nil => rfl
  | cons y ctx ih =>
      rw [plug, ih, List.map_cons, plug]
      simp [Layer.close, Layer.map, Node.map_mk]

namespace Guarded

theorem entry_eq_ok {xs : List α} {i : Nat} {x : α} (h : xs[i]? = some x) : entry xs i = .ok x := by
  simp [entry, h]

theorem entry_close (y : Layer α) (n : Node α) :
    entry (y.close n).children y.left.length = .ok n := by
  simp [entry, Layer.close]

theorem setAt_close (y : Layer α) (n m : Node α) :
    setAt (y.close n).children y.left.length m = .ok (y.close m).children := by
  simp [setAt, Layer.close]

theorem lookUp_plug (ctx : List (Layer α)) (n : Node α) :
    lookUp (pathOf ctx) (plug ctx n) = .ok n := by
  induction ctx generalizing n with
  | nil => rfl
  | cons y ctx ih =>
      have hup : lookUp (pathOf ctx) (plug (y :: ctx) n) = .ok (y.close n) := ih (y.close n)
      rw [pathOf, List.map_cons, lookUp, ← pathOf, hup, ok_bind, entry_close]

theorem alter_plug {f : Node α → Except Fault (Node α)} (ctx : List (Layer α))
    (hf : f n = .ok m) : alter (pathOf ctx) f (plug ctx n) = .ok (plug ctx m) := by
  induction ctx generalizing n m f with
  | nil => exact hf
  | cons y ctx ih =>
      refine ih (n := y.close n) (m := y.close m) ?_
      rw [entry_close, ok_bind, hf, ok_bind, setAt_close, ok_bind]
      rfl

end Guarded

end Layers

/-! ## Focus -/

/-- A picture of a node in the picture of the tree around it. -/
def draw (ctx : List (Layer Key)) (p : Picture) : Picture := plug (ctx.map (Layer.map Key.label)) p

/-- A frame of a node shown in the tree around it. -/
def Frame.around (ctx : List (Layer Key)) (f : Frame) : Frame :=
  { f with picture := draw ctx f.picture }

/-- The tree with a node at the end of a path, another ledger, and more frames. -/
def Tree.focus (t : Tree) (ctx : List (Layer Key)) (n : Node Key) (l : Ledger)
    (frames : List Frame) : Tree :=
  { t with root := plug ctx n, ledger := l, recording := t.recording.map (· ++ frames) }

theorem picture_plug (ctx : List (Layer Key)) (n : Node Key) :
    (plug ctx n).picture = draw ctx n.picture := map_plug Key.label ctx n

theorem draw_cons (y : Layer Key) (ctx : List (Layer Key)) (b : Node Key) (p : Picture) :
    draw (y :: ctx) p = draw ctx ((y.close b).picture.withChild y.left.length p) := by
  have hwithin : (y.close b).picture.withChild y.left.length p = (y.map Key.label).close p := by
    rw [Layer.close, Node.picture_mk, List.map_append, List.map_cons,
      Node.withChild_append (List.length_map _)]
    rfl
  rw [hwithin]
  rfl

theorem Frame.around_cons (y : Layer Key) (ctx : List (Layer Key)) (b : Node Key) :
    Frame.around (y :: ctx) =
      Frame.around ctx ∘ Frame.within (y.close b).picture y.left.length := by
  funext f
  simp [Frame.around, Frame.within, draw_cons y ctx b]

theorem Frame.around_nil : Frame.around [] = id := rfl

theorem Tree.focus_self (t : Tree) : t.focus [] t.root t.ledger [] = t := by
  simp [Tree.focus, plug]

namespace Guarded

/-! ## What a program comes to -/

/-- Wherever a node stands in a tree of a capacity, the program `x` comes to what the program `y`
comes to where the node and the ledger are others and some more frames were shown. If `D` holds,
these are the given frames of the node. -/
def Leads (D : Prop) (capacity : Nat) (ctx : List (Layer Key)) {α : Type} (x : Run α) (n : Node Key)
    (l : Ledger) (y : Run α) (m : Node Key) (l' : Ledger) (frames : List Frame) : Prop :=
  ∀ t : Tree, t.maxKeys = capacity → ∀ before, ∃ shown,
    (D → shown = frames.map (Frame.around ctx)) ∧
      x.run (t.focus ctx n l before) = y.run (t.focus ctx m l' (before ++ shown))

section Leads

variable {D : Prop} {capacity : Nat} {ctx : List (Layer Key)} {α β : Type} {x y z : Run α}
  {n m o : Node Key} {l l' l'' : Ledger} {frames more : List Frame} {a : α}

/-- A program that shows nothing. -/
theorem Leads.of_run_eq (h : ∀ t : Tree, t.maxKeys = capacity → ∀ before,
      x.run (t.focus ctx n l before) = y.run (t.focus ctx m l' before)) :
    Leads D capacity ctx x n l y m l' [] := by
  intro t ht before
  exact ⟨[], fun _ => rfl, by rw [List.append_nil, h t ht]⟩

theorem Leads.refl (D : Prop) (capacity : Nat) (ctx : List (Layer Key)) (x : Run α) (n : Node Key)
    (l : Ledger) : Leads D capacity ctx x n l x n l [] := .of_run_eq fun _ _ _ => rfl

theorem Leads.trans (h : Leads D capacity ctx x n l y m l' frames)
    (h' : Leads D capacity ctx y m l' z o l'' more) :
    Leads D capacity ctx x n l z o l'' (frames ++ more) := by
  intro t ht before
  obtain ⟨shown, hshown, hrun⟩ := h t ht before
  obtain ⟨shown', hshown', hrun'⟩ := h' t ht (before ++ shown)
  refine ⟨shown ++ shown', fun hD => ?_, ?_⟩
  · rw [hshown hD, hshown' hD, List.map_append]
  · rw [hrun, hrun', List.append_assoc]

/-- What a program comes to it comes to before the rest of the program as well. -/
theorem Leads.andThen (h : Leads D capacity ctx x n l y m l' frames) (f : α → Run β) :
    Leads D capacity ctx (x >>= f) n l (y >>= f) m l' frames := by
  intro t ht before
  obtain ⟨shown, hshown, hrun⟩ := h t ht before
  refine ⟨shown, hshown, ?_⟩
  rw [StateT.run_bind, StateT.run_bind, hrun]

/-- A step that gives a result, and then the rest of the program. -/
theorem Leads.bind {f : α → Run β} {y : Run β} (h : Leads D capacity ctx x n l (pure a) m l' frames)
    (h' : Leads D capacity ctx (f a) m l' y o l'' more) :
    Leads D capacity ctx (x >>= f) n l y o l'' (frames ++ more) := by
  have hstep := h.andThen f
  rw [pure_bind] at hstep
  exact hstep.trans h'

/-- A step that shows nothing. -/
theorem Leads.next {f : α → Run β} {y : Run β} (h : Leads D capacity ctx x n l (pure a) m l' [])
    (h' : Leads D capacity ctx (f a) m l' y o l'' more) :
    Leads D capacity ctx (x >>= f) n l y o l'' more := h.bind h'

/-- A step after which nothing is shown. -/
theorem Leads.rest {f : α → Run β} {y : Run β}
    (h : Leads D capacity ctx x n l (pure a) m l' frames)
    (h' : Leads D capacity ctx (f a) m l' y o l'' []) :
    Leads D capacity ctx (x >>= f) n l y o l'' frames := by
  have hboth := h.bind h'
  rwa [List.append_nil] at hboth

/-- What a program does to a child it does to the parent, which shows the frames of the child. -/
theorem Leads.within {u : Layer Key} (h : Leads D capacity (u :: ctx) x n l y m l' frames)
    (b : Node Key) :
    Leads D capacity ctx x (u.close n) l y (u.close m) l'
      (frames.map (Frame.within (u.close b).picture u.left.length)) := by
  intro t ht before
  obtain ⟨shown, hshown, hrun⟩ := h t ht before
  refine ⟨shown, fun hD => ?_, hrun⟩
  rw [hshown hD, Frame.around_cons u ctx b, List.map_map]

/-! ## Single steps -/

/-- A step that reads the tree. -/
theorem leads_get {f : Tree → Run α} (h : ∀ t : Tree, t.maxKeys = capacity → t.root = plug ctx n →
      t.ledger = l → Leads D capacity ctx (f t) n l y m l' frames) :
    Leads D capacity ctx (get >>= f) n l y m l' frames := by
  intro t ht before
  rw [StateT.run_bind, StateT.run_get, pure_bind]
  exact h (t.focus ctx n l before) ht rfl rfl t ht before

/-- An access that succeeds. -/
theorem leads_lift {e : Except Fault α} (he : e = .ok a) :
    Leads D capacity ctx (liftM e) n l (pure a) n l [] := by
  rw [he]
  exact .of_run_eq fun _ _ _ => rfl

theorem leads_nodeAt : Leads D capacity ctx (nodeAt (pathOf ctx)) n l (pure n) n l [] := by
  refine .of_run_eq fun t _ before => ?_
  have hlook : lookUp (pathOf ctx) (t.focus ctx n l before).root = .ok n := lookUp_plug ctx n
  simp only [nodeAt, StateT.run_bind, StateT.run_get, pure_bind, hlook]
  rfl

theorem leads_alterAt {f : Node Key → Except Fault (Node Key)} (hf : f n = .ok m) :
    Leads D capacity ctx (alterAt (pathOf ctx) f) n l (pure ()) m l [] := by
  refine .of_run_eq fun t _ before => ?_
  have halter : alter (pathOf ctx) f (t.focus ctx n l before).root = .ok (plug ctx m) :=
    alter_plug ctx hf
  simp only [alterAt, StateT.run_bind, StateT.run_get, pure_bind, halter]
  rfl

theorem leads_account (f : Ledger → Ledger) :
    Leads D capacity ctx (account f) n l (pure ()) n (f l) [] := .of_run_eq fun _ _ _ => rfl

/-- A frame that is appended is a frame of the node if it shows one where `D` holds. -/
theorem leads_record {p q : Picture} {h h' : Highlight} (hf : D → p = draw ctx q ∧ h = h') :
    Leads D capacity ctx (record p h) n l (pure ()) n l [⟨q, h', l.counters⟩] := by
  intro t _ before
  refine ⟨[⟨p, h, l.counters⟩], fun hD => ?_, ?_⟩
  · obtain ⟨rfl, rfl⟩ := hf hD
    rfl
  · simp [record, Tree.focus, Tree.counters, Function.comp_def]

/-- A step that reads the picture of the tree. -/
theorem leads_getPicture {f : Picture → Run α}
    (h : Leads D capacity ctx (f (plug ctx n).picture) n l y m l' frames) :
    Leads D capacity ctx (get >>= fun t => f t.picture) n l y m l' frames := by
  refine leads_get fun t _ hroot _ => ?_
  rw [Tree.picture, hroot]
  exact h

theorem leads_recordLive (h : Highlight) :
    Leads D capacity ctx (recordLive h) n l (pure ()) n l [⟨n.picture, h, l.counters⟩] :=
  leads_getPicture (f := (record · h)) (leads_record fun _ => ⟨picture_plug ctx n, rfl⟩)

/-- A part that only records may be left out where nothing is recorded. -/
theorem leads_whenRecording {x : Run Unit} (h : Leads D capacity ctx x n l (pure ()) n l frames) :
    Leads D capacity ctx (whenRecording x) n l (pure ()) n l frames := by
  intro t ht before
  rw [whenRecording, StateT.run_bind, StateT.run_get, pure_bind]
  cases hrecording : t.recording with
  | none =>
      refine ⟨frames.map (Frame.around ctx), fun _ => rfl, ?_⟩
      simp [Tree.isRecording, Tree.focus, hrecording]
  | some recorded =>
      rw [if_pos (by simp [Tree.isRecording, Tree.focus, hrecording])]
      exact h t ht before

theorem leads_forM {ι : Type} {f : ι → Run PUnit} {g : ι → Frame} {xs : List ι}
    (h : ∀ i ∈ xs, Leads D capacity ctx (f i) n l (pure ()) n l [g i]) :
    Leads D capacity ctx (xs.forM f) n l (pure ()) n l (xs.map g) := by
  induction xs with
  | nil => exact .refl D capacity ctx _ n l
  | cons i xs ih =>
      obtain ⟨hi, hxs⟩ := List.forall_mem_cons.1 h
      exact hi.bind (ih hxs)

/-! ## Steps at a child -/

section Child

variable {u : Layer Key}

theorem leads_childAt : Leads D capacity ctx (nodeAt (u.left.length :: pathOf ctx)) (u.close n) l
    (pure n) (u.close n) l [] := by
  have hchild : Leads D capacity (u :: ctx) (nodeAt (pathOf (u :: ctx))) n l (pure n) n l [] :=
    leads_nodeAt
  exact hchild.within n

theorem leads_alterChild {f : Node Key → Except Fault (Node Key)} (hf : f n = .ok m) :
    Leads D capacity ctx (alterAt (u.left.length :: pathOf ctx) f) (u.close n) l (pure ())
      (u.close m) l [] := by
  have hchild : Leads D capacity (u :: ctx) (alterAt (pathOf (u :: ctx)) f) n l (pure ()) m l [] :=
    leads_alterAt hf
  exact hchild.within n

end Child

/-- What a program comes to at the root is the run of the program. -/
theorem Leads.run_eq {t : Tree}
    (h : Leads True t.maxKeys [] x t.root t.ledger (pure a) m l' frames) :
    x.run t = .ok (a, t.advance m l' fun _ => frames) := by
  obtain ⟨shown, hshown, hrun⟩ := h t rfl []
  rw [Frame.around_nil, List.map_id] at hshown
  rw [Tree.focus_self, hshown trivial] at hrun
  simpa [Tree.focus, Tree.advance, plug] using hrun

end Leads

end Guarded

end TracedTree
