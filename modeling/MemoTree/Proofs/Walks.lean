import MemoTree.Proofs.Legible
import MemoTree.Tree.Walk

/-! # Walks

A walk visits the entries of the leaves in the order it is asked for. A walk that reaps unlinks every node after the
nodes under it, so that draining a tree leaves no node in use. The nodes under a node, each before its children, are
its family (`Rows.family`). -/

namespace MemoTree
open Pool NodePool Rows

/-! ### Orders -/

/-- A list as a walk in the given order goes through it. -/
def Order.arrange {α : Type} (order : Order) (l : List α) : List α :=
  match order with
  | .descending => l
  | .ascending => l.reverse

namespace Order
variable {α β : Type}

theorem mem_arrange {order : Order} {l : List α} {a : α} : a ∈ order.arrange l ↔ a ∈ l := by
  cases order with
  | descending => rfl
  | ascending => exact List.mem_reverse

theorem arrange_perm (order : Order) (l : List α) : (order.arrange l).Perm l := by
  cases order with
  | descending => exact List.Perm.refl _
  | ascending => exact l.reverse_perm

theorem arrange_flatMap (order : Order) (l : List α) (f : α → List β) :
    (order.arrange l).flatMap (fun a => order.arrange (f a)) = order.arrange (l.flatMap f) := by
  cases order with
  | descending => rfl
  | ascending => exact List.reverse_flatMap.symm

theorem filterMap_arrange (order : Order) (l : List α) (f : α → Option β) :
    (order.arrange l).filterMap f = order.arrange (l.filterMap f) := by
  cases order with
  | descending => rfl
  | ascending => exact List.filterMap_reverse

/-- What the used slots hold, in the order of a walk. -/
theorem filterMap_slots (order : Order) (l : List α) (f : α → Option β) :
    (order.slots l.length).filterMap (fun i => l[i]?.bind f) = (order.arrange l).filterMap f := by
  have hrange : (List.range l.length).filterMap (fun i => l[i]?.bind f) = l.filterMap f := by
    induction l with
    | nil => rfl
    | cons a l ih =>
      rw [List.length_cons, List.range_succ_eq_map, List.filterMap_cons, List.filterMap_map, List.filterMap_cons]
      change (match f a with | none => _ | some b => _) = _
      rw [← ih]
      rfl
  cases order with
  | descending => exact hrange
  | ascending =>
    show (List.range l.length).reverse.filterMap _ = l.reverse.filterMap f
    rw [List.filterMap_reverse, List.filterMap_reverse, hrange]

theorem lt_of_mem_slots {order : Order} {fill i : Nat} (hi : i ∈ order.slots fill) : i < fill := by
  cases order with
  | descending => exact List.mem_range.mp hi
  | ascending => exact List.mem_range.mp (List.mem_reverse.mp hi)

end Order

/-! ### Families -/

namespace Rows
variable {c : Rows} {h k : Handle} {d : Nat}

/-- The nodes at most `d` levels below a node, each before its children. -/
def family (c : Rows) (h : Handle) : Nat → List Handle
  | 0 => [h]
  | d + 1 => h :: (c.kids h).flatMap fun k => family c k d

theorem under_perm (c : Rows) (h : Handle) (d : Nat) :
    (c.under h (d + 1)).Perm (h :: (c.kids h).flatMap fun k => c.under k d) := by
  induction d with
  | zero =>
    rw [under, under, level_succ]
    exact List.Perm.refl _
  | succ d ih =>
    rw [under, level_succ]
    refine (ih.append_right _).trans ?_
    rw [List.cons_append]
    exact (List.flatMap_append_perm (c.kids h) (fun k => c.under k d) fun k => c.level k (d + 1)).cons h

theorem family_perm (c : Rows) (h : Handle) (d : Nat) : (c.family h d).Perm (c.under h d) := by
  induction d generalizing h with
  | zero => exact List.Perm.refl _
  | succ d ih => exact ((List.Perm.flatMap_left _ fun k _ => ih k).cons h).trans (under_perm c h d).symm

end Rows

/-! ### Visits -/

/-- A walk that has seen some entries visits another one. -/
def Tree.record {w : Width} (seen : Array (Tree.Visit w)) (e : Entry w) : Array (Tree.Visit w) :=
  seen.push ⟨e.2, e.1, seen.size⟩

section Nodes
variable {w : Width} {g : Geometry} {n : Node} {row : Row}

theorem visitLeaf_spec (hn : Shows g n row) (hg : g.keyLength = w.words) (hsmall : ∀ e ∈ row, e.1 < 2 ^ w.bits) :
    ∀ (slots : List Nat) (seen : Array (Tree.Visit w)), (∀ i ∈ slots, i < row.length) →
    Tree.visitLeaf g n slots seen =
      .ok ((slots.filterMap fun i => row[i]?.bind (Pair.entry w)).foldl Tree.record seen) := by
  intro slots
  induction slots with
  | nil => exact fun _ _ => rfl
  | cons i slots ih =>
    intro seen hslots
    have hi := hslots i List.mem_cons_self
    obtain ⟨e, he⟩ : ∃ e, row[i]? = some e := ⟨row[i], List.getElem?_eq_getElem hi⟩
    have hmem := List.mem_of_getElem? he
    have hused := hn.used e hmem
    have hentry : Pair.entry w e = some (⟨e.1, hsmall e hmem⟩, ⟨e.2, hused⟩) := dif_pos ⟨hsmall e hmem, hused⟩
    have hkey : Key.ofWords w (Words.ofNat g.keyLength e.1) = .ok ⟨e.1, hsmall e hmem⟩ := by
      rw [hg]
      exact Key.ofWords_ofNat _
    rw [Tree.visitLeaf, hn.value i e he]
    simp only [bind, Except.bind, Value.ofWord?_of_ne hused, hn.key i e he, hkey]
    rw [ih _ fun j hj => hslots j (List.mem_cons_of_mem i hj), List.filterMap_cons, he, Option.bind_some, hentry]
    rfl

theorem children_spec (hn : Shows g n row) :
    ∀ slots : List Nat, (∀ i ∈ slots, i < row.length) →
    n.children g slots = .ok (slots.filterMap fun i => row[i]?.bind Pair.child) := by
  intro slots
  induction slots with
  | nil => exact fun _ => rfl
  | cons i slots ih =>
    intro hslots
    have hi := hslots i List.mem_cons_self
    obtain ⟨e, he⟩ : ∃ e, row[i]? = some e := ⟨row[i], List.getElem?_eq_getElem hi⟩
    have hrest := ih fun j hj => hslots j (List.mem_cons_of_mem i hj)
    rw [Node.children, hn.child_eq he, List.filterMap_cons, he, Option.bind_some, Pair.child]
    cases Handle.ofWord? e.2 with
    | none => exact hrest
    | some k => exact congrArg (· >>= fun rest => .ok (k :: rest)) hrest

end Nodes

/-! ### Walks that read -/

section Reading
variable {w : Width} {t : Tree w} {c : Rows} {r : Handle} {d : Nat}

/-- A walk visits the entries under a node and leaves the nodes as they are. -/
theorem Legible.walk (hl : Legible t c r d) (order : Order) (depth : Nat) : ∀ {i : Nat} {h : Handle}
    (seen : Array (Tree.Visit w)), i + depth = d → h ∈ c.level r i →
    Runs (Tree.walk t.geometry order false depth h seen) t.pool
      (((order.arrange (c.pairs h depth)).filterMap (Pair.entry w)).foldl Tree.record seen) t.pool := by
  induction depth with
  | zero =>
    intro i h seen hi hh
    obtain ⟨n, hn, hshows⟩ := hl.node i (by omega) h hh
    have hvisit := visitLeaf_spec hshows rfl (hl.searchable.small i (by omega) h hh) (order.slots (c h).length) seen
      fun j hj => Order.lt_of_mem_slots hj
    rw [Order.filterMap_slots] at hvisit
    rw [pairs_zero]
    exact Runs.bind (Runs.read hn)
      (Runs.bind (Runs.lift hshows.fill_eq _) (Runs.bind (Runs.lift hvisit _) (Runs.pure _ _)))
  | succ depth ih =>
    intro i h seen hi hh
    obtain ⟨n, hn, hshows⟩ := hl.node i (by omega) h hh
    have hchildren := children_spec hshows (order.slots (c h).length) fun j hj => Order.lt_of_mem_slots hj
    rw [Order.filterMap_slots, Order.filterMap_arrange] at hchildren
    -- the walks through the children, one after the other
    have hwalk : ∀ (ks : List Handle) (seen : Array (Tree.Visit w)), (∀ k ∈ ks, k ∈ c.kids h) →
        Runs (ks.foldlM (fun seen child => Tree.walk t.geometry order false depth child seen) seen) t.pool
          (((ks.flatMap fun k => order.arrange (c.pairs k depth)).filterMap (Pair.entry w)).foldl Tree.record seen)
          t.pool := by
      intro ks
      induction ks with
      | nil => exact fun seen _ => Runs.pure _ _
      | cons k ks ihk =>
        intro seen hkids
        rw [List.flatMap_cons, List.filterMap_append, List.foldl_append]
        exact Runs.bind (ih seen (by omega) (mem_level_succ.mpr ⟨h, hh, hkids k List.mem_cons_self⟩))
          (ihk _ fun q hq => hkids q (List.mem_cons_of_mem k hq))
    have hkids := hwalk (order.arrange (c.kids h)) seen fun k hk => Order.mem_arrange.mp hk
    rw [Order.arrange_flatMap, ← pairs_succ] at hkids
    exact Runs.bind (Runs.read hn) (Runs.bind (Runs.lift hshows.fill_eq _) (Runs.bind (Runs.lift hchildren _)
      (Runs.bind hkids (Runs.pure _ _))))

/-- The visits of a walk through entries in the given order. -/
def Tree.visits (w : Width) (order : Order) (row : Row) : Array (Tree.Visit w) :=
  ((order.arrange row).filterMap (Pair.entry w)).foldl Tree.record #[]

/-- A visit goes through every entry and leaves the tree as it is. -/
theorem Legible.visit (hl : Legible t c r (t.height - 1)) (hroot : t.root = some r) (order : Order) :
    Runs (Tree.visit order) t (Tree.visits w order (c.pairs r (t.height - 1))) t := by
  have hwalk : Runs (Tree.onNodes (Tree.walk t.geometry order false (t.height - 1) r #[])) t
      (Tree.visits w order (c.pairs r (t.height - 1))) t :=
    Runs.onNodes (hl.walk order (t.height - 1) #[] (Nat.zero_add _) (List.mem_singleton_self r))
  refine Runs.bind (Runs.get t) ?_
  rw [hroot]
  exact Runs.bind (Runs.get _) (Runs.bind (Runs.get _) hwalk)

end Reading

/-! ### Walks that reap -/

/-- A walk that reaps takes the nodes `gone` out of use. -/
def Reaps (p p' : NodePool) (gone : List Handle) : Prop := ∀ k, p'.Live k ↔ p.Live k ∧ k ∉ gone

namespace Reaps
variable {p p' q : NodePool} {l l' : List Handle}

theorem nil (p : NodePool) : Reaps p p [] := fun _ => ⟨fun h => ⟨h, List.not_mem_nil⟩, fun h => h.1⟩

theorem append (h₁ : Reaps p p' l) (h₂ : Reaps p' q l') : Reaps p q (l ++ l') := fun k => by
  rw [h₂, h₁, List.mem_append]
  tauto

theorem perm (h : Reaps p p' l) (hl : l.Perm l') : Reaps p p' l' := fun k => by rw [h, hl.mem_iff]

end Reaps

section Reaping
variable {w : Width} {g : Geometry} {p : NodePool} {c : Rows} {h : Handle}

/-- A node is reaped after the nodes under it. -/
theorem reap_spec {α : Type} (a : α) (hs : Stock g p c) (hh : p.Live h) :
    ∃ p', Runs (do
        let _ ← NodePool.unlink h
        return a) p a p' ∧ Stock g p' c ∧ Reaps p p' [h] := by
  obtain ⟨p', back, hrun, hl, hsheds⟩ := unlink_spec hs.ledger hh
  exact ⟨p', Runs.bind hrun (Runs.pure _ _), hs.sheds hl hsheds, fun k => by simp [hsheds.live]⟩

/-- A walk that reaps visits the entries under a node `depth` levels above the leaves, and takes the nodes out of use.
-/
def Walks (w : Width) (g : Geometry) (c : Rows) (order : Order) (depth : Nat) : Prop :=
  ∀ {p : NodePool} {h : Handle} (seen : Array (Tree.Visit w)), Stock g p c → (∀ k ∈ c.family h depth, p.Live k) →
    (c.family h depth).Nodup → (∀ e ∈ c.pairs h depth, e.1 < 2 ^ w.bits) →
    ∃ p', Runs (Tree.walk g order true depth h seen) p
        (((order.arrange (c.pairs h depth)).filterMap (Pair.entry w)).foldl Tree.record seen) p' ∧
      Stock g p' c ∧ Reaps p p' (c.family h depth)

/-- The walks through some nodes, one after the other. -/
theorem Walks.all {order : Order} {depth : Nat} (hw : Walks w g c order depth) (ks : List Handle) :
    ∀ {p : NodePool} (seen : Array (Tree.Visit w)), Stock g p c →
    (∀ k ∈ ks.flatMap fun k => c.family k depth, p.Live k) →
    (ks.flatMap fun k => c.family k depth).Nodup → (∀ k ∈ ks, ∀ e ∈ c.pairs k depth, e.1 < 2 ^ w.bits) →
    ∃ p', Runs (ks.foldlM (fun seen child => Tree.walk g order true depth child seen) seen) p
        (((ks.flatMap fun k => order.arrange (c.pairs k depth)).filterMap (Pair.entry w)).foldl Tree.record seen) p' ∧
      Stock g p' c ∧ Reaps p p' (ks.flatMap fun k => c.family k depth) := by
  induction ks with
  | nil => exact fun seen hs _ _ _ => ⟨_, Runs.pure _ _, hs, Reaps.nil _⟩
  | cons k ks ih =>
    intro p seen hs hlive hnodup hsmall
    rw [List.flatMap_cons] at hlive hnodup ⊢
    obtain ⟨hnk, hnks, hdisjoint⟩ := List.nodup_append.mp hnodup
    obtain ⟨p₁, hrun₁, hs₁, hreaps₁⟩ := hw seen hs (fun q hq => hlive q (List.mem_append_left _ hq)) hnk
      (hsmall k List.mem_cons_self)
    obtain ⟨p₂, hrun₂, hs₂, hreaps₂⟩ := ih _ hs₁ (fun q hq => (hreaps₁ q).mpr ⟨hlive q (List.mem_append_right _ hq),
      fun hqk => hdisjoint q hqk q hq rfl⟩) hnks fun q hq => hsmall q (List.mem_cons_of_mem k hq)
    rw [List.flatMap_cons, List.filterMap_append, List.foldl_append]
    exact ⟨p₂, Runs.bind hrun₁ hrun₂, hs₂, hreaps₁.append hreaps₂⟩

/-- The nodes under the children of a node, in the order of a walk. -/
theorem family_arrange (c : Rows) (order : Order) (h : Handle) (depth : Nat) :
    ((order.arrange (c.kids h)).flatMap fun k => c.family k depth).Perm
    ((c.kids h).flatMap fun k => c.family k depth) :=
  (order.arrange_perm (c.kids h)).flatMap_right _

theorem children_walked {order : Order} {n : Node} (hpacks : Packs g n.words (c h)) :
    n.children g (order.slots (c h).length) = .ok (order.arrange (c.kids h)) := by
  have hchildren := children_spec hpacks.shows (order.slots (c h).length) fun i hi => Order.lt_of_mem_slots hi
  rwa [Order.filterMap_slots, Order.filterMap_arrange] at hchildren

/-- The pairs under the children of a node are those under the node. -/
theorem small_children {order : Order} {depth : Nat} (hsmall : ∀ e ∈ c.pairs h (depth + 1), e.1 < 2 ^ w.bits) :
    ∀ k ∈ order.arrange (c.kids h), ∀ e ∈ c.pairs k depth, e.1 < 2 ^ w.bits := fun k hk e he => by
  refine hsmall e ?_
  rw [pairs_succ]
  exact List.mem_flatMap.mpr ⟨k, Order.mem_arrange.mp hk, he⟩

theorem walk_spec (hg : g.keyLength = w.words) (order : Order) (depth : Nat) : Walks w g c order depth := by
  induction depth with
  | zero =>
    intro p h seen hs hlive _ hsmall
    rw [pairs_zero] at hsmall ⊢
    obtain ⟨n, hn, hpacks⟩ := hs.node (hlive h (List.mem_singleton_self h))
    have hvisit := visitLeaf_spec hpacks.shows hg hsmall (order.slots (c h).length) seen fun i hi =>
      Order.lt_of_mem_slots hi
    rw [Order.filterMap_slots] at hvisit
    obtain ⟨p', hrun, hs', hreaps⟩ :=
      reap_spec (((order.arrange (c h)).filterMap (Pair.entry w)).foldl Tree.record seen)
      hs (hlive h (List.mem_singleton_self h))
    exact ⟨p', Runs.bind (Runs.read hn) (Runs.bind (Runs.lift hpacks.fill_eq _) (Runs.bind (Runs.lift hvisit _) hrun)),
      hs', hreaps⟩
  | succ depth ih =>
    intro p h seen hs hlive hnodup hsmall
    obtain ⟨hnot, hnodup⟩ := List.nodup_cons.mp hnodup
    have hperm := family_arrange c order h depth
    obtain ⟨n, hn, hpacks⟩ := hs.node (hlive h List.mem_cons_self)
    obtain ⟨p₁, hrun₁, hs₁, hreaps₁⟩ := ih.all (order.arrange (c.kids h)) seen hs
      (fun k hk => hlive k (List.mem_cons_of_mem h (hperm.mem_iff.mp hk))) (hperm.nodup_iff.mpr hnodup)
      (small_children hsmall)
    rw [Order.arrange_flatMap, ← pairs_succ] at hrun₁
    obtain ⟨p₂, hrun₂, hs₂, hreaps₂⟩ :=
      reap_spec (((order.arrange (c.pairs h (depth + 1))).filterMap (Pair.entry w)).foldl
      Tree.record seen) hs₁ ((hreaps₁ h).mpr ⟨hlive h List.mem_cons_self, fun hh => hnot (hperm.mem_iff.mp hh)⟩)
    refine ⟨p₂, Runs.bind (Runs.read hn) (Runs.bind (Runs.lift hpacks.fill_eq _) (Runs.bind
      (Runs.lift (children_walked hpacks) _) (Runs.bind hrun₁ hrun₂))), hs₂, (hreaps₁.append hreaps₂).perm ?_⟩
    exact (List.perm_append_comm).trans (List.Perm.cons h hperm)

end Reaping

/-! ### Walks through a tree -/

section Trees
variable {w : Width} {t : Tree w} {c : Rows} {r : Handle} {row : Row}

theorem Rooted.family_nodup (hr : Rooted t c r) : (c.family r (t.height - 1)).Nodup :=
  (family_perm c r _).nodup_iff.mpr hr.sound.nodup

theorem Rooted.live_family (hr : Rooted t c r) {h : Handle} : h ∈ c.family r (t.height - 1) ↔ t.pool.Live h := by
  rw [(family_perm c r _).mem_iff, hr.live]

theorem Rooted.reap (hr : Rooted t c r) (order : Order) :
    ∃ p', Runs (Tree.walk t.geometry order true (t.height - 1) r #[]) t.pool
        (((order.arrange (c.pairs r (t.height - 1))).filterMap (Pair.entry w)).foldl Tree.record #[]) p' ∧
      Stock t.geometry p' c ∧ Reaps t.pool p' (c.family r (t.height - 1)) :=
  walk_spec rfl order _ #[] hr.stand.stock (fun _ hk => hr.live_family.mp hk) hr.family_nodup fun e he => by
    obtain ⟨h, hh, heh⟩ := mem_pairs.mp he
    exact hr.sound.small_level (Nat.le_refl _) hh heh

theorem runs_visit_rootless (hroot : t.root = none) (order : Order) :
    Runs (Tree.visit order) t (Tree.visits w order []) t := by
  have hnone : Runs (pure #[] : TreeM w (Array (Tree.Visit w))) t #[] t := Runs.pure _ _
  have hempty : Tree.visits w order [] = #[] := by cases order <;> rfl
  rw [hempty]
  refine Runs.bind (Runs.get t) ?_
  rwa [hroot]

theorem Whole.visit (hw : Whole t row) (order : Order) :
    ∃ row' : Row, row.Perm row' ∧ Runs (Tree.visit order) t (Tree.visits w order row') t := by
  rcases hw.state with ⟨hb, rfl⟩ | ⟨c, r, hr, hperm⟩
  · exact ⟨[], List.Perm.refl _, runs_visit_rootless hb.root order⟩
  · exact ⟨_, hperm, hr.legible.visit hr.stand.root order⟩

/-- The end of a draining: the tree has no root, and tells how many nodes are still out. -/
theorem drained_spec (seen : Array (Tree.Visit w)) (hs : Stock t.geometry t.pool c) :
    Runs (do
      modify fun t : Tree w => { t with root := none, height := 0, len := 0 }
      emit (.drained seen.size (← (← get).pool.outstanding))
      return seen : TreeM w (Array (Tree.Visit w))) t seen { t with root := none, height := 0, len := 0 } :=
  Runs.bind (Runs.modify _ _) (Runs.bind (Runs.get _) (Runs.bind (Runs.lift hs.ledger.outstanding_eq _)
    (Runs.bind (Runs.report _ _) (Runs.pure _ _))))

/-- Draining a tree visits what a visit would have visited, and leaves the tree without entries and without nodes in
use. -/
theorem Whole.drains (hw : Whole t row) (order : Order) :
    ∃ (row' : Row) (t' : Tree w), row.Perm row' ∧ Runs (Tree.visit order) t (Tree.visits w order row') t ∧
      Runs (Tree.drain order) t (Tree.visits w order row') t' ∧ Whole t' [] := by
  rcases hw.state with ⟨hb, rfl⟩ | ⟨c, r, hr, hperm⟩
  · have hnone : Runs (pure #[] : TreeM w (Array (Tree.Visit w))) t (Tree.visits w order []) t := by
      have hempty : Tree.visits w order [] = #[] := by cases order <;> rfl
      rw [hempty]
      exact Runs.pure _ _
    refine ⟨[], { t with root := none, height := 0, len := 0 }, List.Perm.refl _, runs_visit_rootless hb.root order,
      Runs.bind (Runs.get t) ?_, hw.pairs, hw.fits, rfl, Or.inl ⟨Bare.of_stock rfl rfl hb.stock hb.unused, rfl⟩⟩
    rw [hb.root]
    exact Runs.bind hnone (drained_spec _ hb.stock)
  · obtain ⟨p', hrun, hs, hreaps⟩ := hr.reap order
    have hwalk : Runs (Tree.onNodes (Tree.walk t.geometry order true (t.height - 1) r #[])) t
        (Tree.visits w order (c.pairs r (t.height - 1))) { t with pool := p' } := Runs.onNodes hrun
    refine ⟨_, { t with pool := p', root := none, height := 0, len := 0 }, hperm, hr.legible.visit hr.stand.root order,
      Runs.bind (Runs.get t) ?_, hw.pairs, Or.inl (hr.fits hw.fits), rfl,
      Or.inl ⟨Bare.of_stock rfl rfl hs fun h hh => ?_, rfl⟩⟩
    · rw [hr.stand.root]
      have hwalked : Stock ({ t with pool := p' } : Tree w).geometry ({ t with pool := p' } : Tree w).pool c := hs
      exact Runs.bind (Runs.get _) (Runs.bind (Runs.get _) (Runs.bind hwalk (drained_spec _ hwalked)))
    · obtain ⟨hlive, hnot⟩ := (hreaps h).mp hh
      exact hnot (hr.live_family.mpr hlive)

/-- Draining a tree visits every entry and leaves the tree without entries and without nodes in use. -/
theorem Whole.drain (hw : Whole t row) (order : Order) :
    ∃ (row' : Row) (t' : Tree w), row.Perm row' ∧ Runs (Tree.drain order) t (Tree.visits w order row') t' ∧
      Whole t' [] := by
  obtain ⟨row', t', hperm, -, hrun, hw'⟩ := hw.drains order
  exact ⟨row', t', hperm, hrun, hw'⟩

theorem Tree.size_record (es : List (Entry w)) (seen : Array (Tree.Visit w)) :
    (es.foldl Tree.record seen).size = seen.size + es.length := by
  induction es generalizing seen with
  | nil => rfl
  | cons e es ih =>
    rw [List.foldl_cons, ih, Tree.record, Array.size_push, List.length_cons]
    omega

theorem Whole.proper (hw : Whole t row) : row.Proper w := fun _ he => ⟨hw.small he, hw.used he⟩

theorem Whole.size_visits (hw : Whole t row) {row' : Row} (hperm : row.Perm row') (order : Order) :
    (Tree.visits w order row').size = row.length := by
  have hall : ((order.arrange row').filterMap (Pair.entry w)).length = (order.arrange row').length :=
    List.filterMap_length_eq_length.mpr fun e he => by
      rw [hw.proper.entry (hperm.mem_iff.mpr (Order.mem_arrange.mp he))]
      rfl
  rw [Tree.visits, Tree.size_record, hall, Array.size_empty, Nat.zero_add, (order.arrange_perm row').length_eq,
    hperm.length_eq]

theorem Whole.destroy (hw : Whole t row) : ∃ t', Runs Tree.destroy t row.length t' ∧ Whole t' [] := by
  obtain ⟨row', t', hperm, hrun, hw'⟩ := hw.drain .descending
  refine ⟨t', ?_, hw'⟩
  rw [← hw.size_visits hperm .descending]
  exact Runs.bind hrun (Runs.pure _ _)

/-! ### The number of nodes -/

theorem sizeUnder_spec (hs : Stock t.geometry t.pool c) (depth : Nat) :
    ∀ {h : Handle}, (∀ k ∈ c.family h depth, t.pool.Live k) → t.sizeUnder depth h = .ok (c.family h depth).length := by
  induction depth with
  | zero => exact fun _ => rfl
  | succ depth ih =>
    intro h hlive
    -- the children are counted one after the other
    have hcount : ∀ (ks : List Handle) (count : Nat), (∀ k ∈ ks.flatMap fun k => c.family k depth, t.pool.Live k) →
        (ks.foldlM (fun count child => return count + (← t.sizeUnder depth child)) count : Except Fault Nat) =
          .ok (count + (ks.flatMap fun k => c.family k depth).length) := by
      intro ks
      induction ks with
      | nil => exact fun _ _ => rfl
      | cons k ks ihk =>
        intro count hks
        rw [List.flatMap_cons] at hks ⊢
        rw [List.foldlM_cons, ih fun q hq => hks q (List.mem_append_left _ hq)]
        refine (ihk _ fun q hq => hks q (List.mem_append_right _ hq)).trans ?_
        rw [List.length_append, Nat.add_assoc]
    obtain ⟨n, hn, hpacks⟩ := hs.node (hlive h List.mem_cons_self)
    have hchildren := children_spec hpacks.shows (Order.descending.slots (c h).length) fun i hi =>
      Order.lt_of_mem_slots hi
    rw [Order.filterMap_slots] at hchildren
    have hkids := hcount (c.kids h) 1 fun k hk => hlive k (List.mem_cons_of_mem h hk)
    rw [Tree.sizeUnder, hn]
    simp only [bind, Except.bind, hpacks.fill_eq]
    rw [show List.range (c h).length = Order.descending.slots (c h).length from rfl, hchildren]
    refine hkids.trans ?_
    rw [family, List.length_cons, Nat.add_comm]

theorem Rooted.nodeCount (hr : Rooted t c r) : t.nodeCount = .ok (c.family r (t.height - 1)).length := by
  rw [Tree.nodeCount, hr.stand.root]
  exact sizeUnder_spec hr.stand.stock _ fun k hk => hr.live_family.mp hk

theorem Bare.nodeCount (hb : Bare t) : t.nodeCount = .ok 0 := by
  rw [Tree.nodeCount, hb.root]
  rfl

end Trees
end MemoTree
