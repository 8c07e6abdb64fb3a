import MemoTree.Proofs.Abreast
import MemoTree.Proofs.Walks

/-! # The shape of a tree

The shape of a tree (`Tree.shape`) is the tree without its handles: the keys of every node in their slots, the values
in the leaves, and the shapes of the children. Trees abreast have the same shape and the same number of nodes. -/

namespace MemoTree
open Pool NodePool Rows

/-- The nodes under a node, without their handles. -/
inductive Shape where
  | leaf (entries : List (Words × Word))
  | inner (branches : List (Words × Shape))

/-- The pairs in the used slots of a node. -/
def Node.used (node : Node) (g : Geometry) : Except Fault (List (Words × Word)) := do
  node.pairsFrom g (← node.fill g) 0

namespace Tree
variable {w : Width}

/-- The shape of what is under `node`, which is `depth` levels above the leaves. -/
def shapeUnder (t : Tree w) : (depth : Nat) → (node : Handle) → Except Fault Shape
  | 0, node => do
    let block ← t.pool.block node
    return .leaf (← block.used t.geometry)
  | depth + 1, node => do
    let block ← t.pool.block node
    return .inner (← (← block.used t.geometry).mapM fun e => do
      match Handle.ofWord? e.2 with
      | some child => return (e.1, ← shapeUnder t depth child)
      | none => throw .missingChild)

/-- The shape of a tree; a tree without entries has none. -/
def shape (t : Tree w) : Except Fault (Option Shape) :=
  match t.root with
  | none => return none
  | some root => return some (← t.shapeUnder (t.height - 1) root)

end Tree

/-! ### Loops that agree -/

namespace Agree
variable {α β γ δ : Type} {R : α → β → Prop} {S : γ → δ → Prop} {l : List α} {l' : List β}

theorem mapM {f : α → Except Fault γ} {f' : β → Except Fault δ} (hl : List.Forall₂ R l l')
    (hf : ∀ a b, R a b → Agree S (f a) (f' b)) : Agree (List.Forall₂ S) (l.mapM f) (l'.mapM f') := by
  induction hl with
  | nil => exact Agree.pure .nil
  | cons hab _ ih =>
    rw [List.mapM_cons, List.mapM_cons]
    exact Agree.bind (hf _ _ hab) fun c d hcd => Agree.bind ih fun _ _ hrest => Agree.pure (.cons hcd hrest)

theorem foldlM {f : γ → α → Except Fault γ} {f' : γ → β → Except Fault γ} (hl : List.Forall₂ R l l')
    (hf : ∀ x a b, R a b → Agree (fun c d => d = c) (f x a) (f' x b)) (x : γ) :
    Agree (fun c d => d = c) (l.foldlM f x) (l'.foldlM f' x) := by
  induction hl generalizing x with
  | nil => exact Agree.pure rfl
  | cons hab _ ih =>
    rw [List.foldlM_cons, List.foldlM_cons]
    refine Agree.bind (hf x _ _ hab) fun c d hcd => ?_
    rw [hcd]
    exact ih c

end Agree

section Nodes
variable {g : Geometry} {φ : Mates} {alive : Prop} {p p' : NodePool} {i : Nat} {h h' : Handle}
    {base : Node × Node} {n n' : Node}

theorem Twins.block (ht : Twins g φ alive p p') (hh : φ i h h') :
    Agree (fun n n' => Akin g (φ.Same i) (n, n') n n') (p.block h) (p'.block h') := fun a b ha hb => by
  obtain ⟨n, n', hn, hn', hk⟩ := ht.akin hh
  rw [hn] at ha
  rw [hn'] at hb
  cases ha
  cases hb
  exact hk

/-- The used slots of nodes that look alike hold the same keys. -/
theorem Akin.used {V : Word → Word → Prop} (hk : Akin g V base n n') (hV : Matches V) :
    Agree (List.Forall₂ fun e e' : Words × Word => e'.1 = e.1 ∧ V e.2 e'.2) (n.used g) (n'.used g) :=
  Agree.bind (Agree.of_eq (hk.fill_eq hV)) fun fill fill' ⟨hfill, hsame⟩ => by
    rw [hsame]
    have := Node.fillFrom_le hfill
    exact (hk.pairsFrom (by omega)).mono fun _ _ hl => hl.2

theorem Packs.used_eq {row : Row} (hp : Packs g n.words row) : n.used g = .ok (row.inWords g) := by
  rw [Node.used, hp.fill_eq]
  exact Packs.pairsFrom (B := []) (by rwa [List.append_nil])

/-- The children of mates are mates, one by one. -/
theorem Akin.children (hk : Akin g (φ.Same (i + 1)) base n n') (hi : 0 < i) (slots : List Nat) :
    Agree (List.Forall₂ (φ i)) (n.children g slots) (n'.children g slots) := by
  induction slots with
  | nil => exact Agree.pure .nil
  | cons j slots ih =>
    rw [Node.children, Node.children]
    refine Agree.bind (hk.child hi j) fun o o' ho => ?_
    cases ho with
    | none => exact ih
    | some hh => exact Agree.bind ih fun _ _ hl => Agree.pure (.cons hh hl)

end Nodes

namespace Abreast
variable {w : Width} {g : Geometry} {φ : Mates} {alive : Prop} {m : Nat} {t u : Tree w} {h h' : Handle}

theorem shapeUnder (ha : Abreast g φ alive m t u) (depth : Nat) : ∀ {h h'}, φ (depth + 1) h h' →
    Agree (fun s s' => s' = s) (t.shapeUnder depth h) (u.shapeUnder depth h') := by
  induction depth with
  | zero =>
    intro h h' hh
    rw [Tree.shapeUnder, Tree.shapeUnder, ha.geometry.1, ha.geometry.2]
    refine Agree.bind (ha.twins.block hh) fun n n' hk => Agree.bind (hk.used (φ.matches_same 1)) fun l l' hl => ?_
    refine Agree.pure (congrArg Shape.leaf ?_)
    induction hl with
    | nil => rfl
    | cons he _ ih => rw [ih, Prod.ext he.1 (Mates.same_leaf.mp he.2)]
  | succ depth ih =>
    intro h h' hh
    rw [Tree.shapeUnder, Tree.shapeUnder, ha.geometry.1, ha.geometry.2]
    refine Agree.bind (ha.twins.block hh) fun n n' hk => Agree.bind (hk.used (φ.matches_same _)) fun l l' hl => ?_
    refine Agree.bind (Agree.mapM (S := fun x x' => x' = x) hl fun e e' he => ?_) fun bs bs' hbs => Agree.pure ?_
    · have hrel := ((Mates.same_inner (Nat.succ_pos depth)).mp he.2).2
      cases hword : Handle.ofWord? e.2 <;> cases hword' : Handle.ofWord? e'.2 <;>
        rw [hword, hword'] at hrel <;> cases hrel
      · exact fun _ _ h => by cases h
      · rename_i hφ
        exact Agree.bind (ih hφ) fun s s' hs => Agree.pure (Prod.ext he.1 hs)
    · refine congrArg Shape.inner ?_
      induction hbs with
      | nil => rfl
      | cons hb _ ih => rw [ih, hb]

/-- Trees abreast have the same shape. -/
theorem shape (ha : Abreast g φ alive m t u) : Agree (fun s s' => s' = s) t.shape u.shape := by
  rw [Tree.shape, Tree.shape]
  rcases ha.roots with ⟨hnone, hnone'⟩ | ⟨r, r', hsome, hsome', hh⟩
  · rw [hnone, hnone']
    exact Agree.pure rfl
  · have hm := ha.twins.level hh
    rw [hsome, hsome', ha.height.1, ha.height.2]
    exact Agree.bind (ha.shapeUnder (m - 1) (by rwa [Nat.sub_add_cancel hm])) fun s s' hs =>
      Agree.pure (congrArg some hs)

theorem sizeUnder (ha : Abreast g φ alive m t u) (depth : Nat) : ∀ {h h'}, φ (depth + 1) h h' →
    Agree (fun n n' => n' = n) (t.sizeUnder depth h) (u.sizeUnder depth h') := by
  induction depth with
  | zero => exact fun _ => Agree.pure rfl
  | succ depth ih =>
    intro h h' hh
    rw [Tree.sizeUnder, Tree.sizeUnder, ha.geometry.1, ha.geometry.2]
    refine Agree.bind (ha.twins.block hh) fun n n' hk => ?_
    refine Agree.bind (Agree.of_eq (hk.fill_eq (φ.matches_same _))) fun fill fill' hfill => ?_
    rw [hfill.2]
    refine Agree.bind (hk.children (Nat.succ_pos depth) _) fun ks ks' hks => Agree.foldlM hks (fun x k k' hφ => ?_) 1
    exact Agree.bind (ih hφ) fun a b hab => Agree.pure (congrArg (x + ·) hab)

/-- Trees abreast have the same number of nodes. -/
theorem nodeCount (ha : Abreast g φ alive m t u) : Agree (fun n n' => n' = n) t.nodeCount u.nodeCount := by
  rw [Tree.nodeCount, Tree.nodeCount]
  rcases ha.roots with ⟨hnone, hnone'⟩ | ⟨r, r', hsome, hsome', hh⟩
  · rw [hnone, hnone']
    exact Agree.pure rfl
  · have hm := ha.twins.level hh
    rw [hsome, hsome', ha.height.1, ha.height.2]
    exact ha.sizeUnder (m - 1) (by rwa [Nat.sub_add_cancel hm])

end Abreast

/-! ### Every tree has a shape -/

theorem exists_mapM_ok {α β : Type} {f : α → Except Fault β} {l : List α} (hf : ∀ a ∈ l, ∃ b, f a = .ok b) :
    ∃ bs, l.mapM f = .ok bs := by
  induction l with
  | nil => exact ⟨[], rfl⟩
  | cons a l ih =>
    obtain ⟨b, hb⟩ := hf a List.mem_cons_self
    obtain ⟨bs, hbs⟩ := ih fun x hx => hf x (List.mem_cons_of_mem a hx)
    exact ⟨b :: bs, by rw [List.mapM_cons, hb, hbs]; rfl⟩

section Trees
variable {w : Width} {t : Tree w} {c : Rows} {r : Handle} {row : Row}

theorem Rooted.shapeUnder (hr : Rooted t c r) (depth : Nat) : ∀ {i h}, i + depth = t.height - 1 → h ∈ c.level r i →
    ∃ s, t.shapeUnder depth h = .ok s := by
  have hused : ∀ {i h}, i ≤ t.height - 1 → h ∈ c.level r i → ∃ n, t.pool.block h = .ok n ∧
      n.used t.geometry = .ok (Row.inWords t.geometry (c h)) := fun hi hh => by
    obtain ⟨n, hn, hpacks⟩ := hr.stand.stock.node (hr.live_level hi hh)
    exact ⟨n, hn, hpacks.used_eq⟩
  induction depth with
  | zero =>
    intro i h hi hh
    obtain ⟨n, hn, hpairs⟩ := hused (by omega) hh
    exact ⟨_, by rw [Tree.shapeUnder, hn]; simp only [bind, Except.bind, hpairs]; rfl⟩
  | succ depth ih =>
    intro i h hi hh
    obtain ⟨n, hn, hpairs⟩ := hused (by omega) hh
    obtain ⟨bs, hbs⟩ := exists_mapM_ok (l := Row.inWords t.geometry (c h)) (f := fun e : Words × Word => do
      match Handle.ofWord? e.2 with
      | some child => return (e.1, ← t.shapeUnder depth child)
      | none => throw .missingChild) fun x hx => by
        obtain ⟨e, he, rfl⟩ := List.mem_map.mp hx
        obtain ⟨k, hk⟩ := (hr.sound.inner i (by omega) h hh).2 e he
        obtain ⟨s, hs⟩ := ih (i := i + 1) (by omega) (mem_level_succ.mpr ⟨h, hh, mem_kids.mpr ⟨e, he, hk⟩⟩)
        rw [show Handle.ofWord? e.2 = some k from hk]
        exact ⟨_, by simp only [hs]; rfl⟩
    refine ⟨.inner bs, ?_⟩
    rw [Tree.shapeUnder, hn]
    simp only [bind, Except.bind, hpairs]
    exact congrArg (Except.map Shape.inner) hbs

/-- Every whole tree has a shape. -/
theorem Whole.shape (hw : Whole t row) : ∃ s, t.shape = .ok s := by
  rcases hw.state with ⟨hb, -⟩ | ⟨c, r, hr, -⟩
  · exact ⟨none, by rw [Tree.shape, hb.root]; rfl⟩
  · obtain ⟨s, hs⟩ := hr.shapeUnder (t.height - 1) (i := 0) (Nat.zero_add _) (List.mem_singleton_self r)
    exact ⟨some s, by rw [Tree.shape, hr.stand.root]; simp only [hs]; rfl⟩

end Trees
end MemoTree
