import MemoTree.Proofs.Legible
import MemoTree.Tree.Ordered

/-! # Ordered reads

Lookups that reach different nodes of a level are for keys in the order of the nodes, so the leaves from left to right
hold their pairs in descending order. The leaf that the first slots lead to is the first one, and begins with the
largest key. -/

namespace MemoTree
open Pool NodePool Rows

/-- No key that is low enough is larger than the one a scan finds. -/
theorem Row.Descending.le_of_scan {row : Row} {e : Pair} {x : Nat} (h : row.Descending) (hscan : row.scan x = some e)
    {a : Pair} (ha : a ∈ row) (hax : a.1 ≤ x) : a.1 ≤ e.1 := by
  obtain ⟨A, B, rfl, hA⟩ := scan_split hscan
  rcases List.mem_append.mp ha with ha | ha
  · exact absurd hax (Nat.not_le.mpr (hA a ha))
  · rcases List.mem_cons.mp ha with rfl | ha
    · exact Nat.le_refl _
    · exact Nat.le_of_lt ((List.pairwise_cons.mp h.of_append.2.1).1 a ha)

/-! ### The order of the nodes of a level -/

section Levels
variable {bound : Nat} {c : Rows} {r : Handle} {d i : Nat}

/-- Lookups that reach two nodes of a level are for keys in the order of the nodes. -/
theorem Searchable.level_pairwise (hs : Searchable bound c r d) (hi : i ≤ d) :
    (c.level r i).Pairwise fun h k => ∀ x y, c.route x r i = some h → c.route y r i = some k → y < x := by
  induction i with
  | zero => exact List.pairwise_singleton _ _
  | succ i ih =>
    have hparent : ∀ h ∈ c.level r i, ∀ k ∈ c.kids h, ∀ x, c.route x r (i + 1) = some k →
        c.route x r i = some h ∧ ∃ e, (c h).scan x = some e ∧ Pair.child e = some k := fun h hh k hk x hx => by
      obtain ⟨e, he, hek⟩ := mem_kids.mp hk
      obtain ⟨hxh, hscan⟩ := hs.route_parent hi hh he hek hx
      exact ⟨hxh, e, hscan, hek⟩
    rw [level, List.pairwise_flatMap]
    refine ⟨fun h hh => ?_, (ih (Nat.le_of_succ_le hi)).imp_of_mem fun {h h'} hh hh' hlt k hk k' hk' x y hx hy =>
      hlt x y (hparent h hh k hk x hx).1 (hparent h' hh' k' hk' y hy).1⟩
    -- among the children of one node the separators tell them apart
    have hd := hs.descending i (Nat.le_of_succ_le hi) h hh
    rw [kids, List.pairwise_filterMap]
    refine hd.imp_of_mem fun {e e'} he he' hlt k hk k' hk' x y hx hy => ?_
    have hex := (hs.route_parent hi hh he hk hx).2
    have hey := (hs.route_parent hi hh he' hk' hy).2
    have hle := Row.le_of_scan hex
    by_contra hyx
    have := hd.le_of_scan hey he (by omega)
    omega

theorem Searchable.pairs_descending (hs : Searchable bound c r d) (hi : i ≤ d) : (c.pairs r i).Descending := by
  rw [Row.Descending, pairs, List.pairwise_flatMap]
  exact ⟨fun h hh => hs.descending i hi h hh, (hs.level_pairwise hi).imp_of_mem fun {h k} hh hk hlt a ha b hb =>
    hlt a.1 b.1 (hs.routed i hi h hh a ha) (hs.routed i hi k hk b hb)⟩

end Levels

/-! ### The largest key -/

section Trees
variable {w : Width} {t : Tree w} {c : Rows} {r h : Handle} {d : Nat} {row : Row}

theorem Legible.firstLeaf (hl : Legible t c r d) (steps : Nat) : ∀ {i : Nat} {h : Handle},
    i + steps = d → (c.level r i).head? = some h →
    ∃ leaf, (c.level r d).head? = some leaf ∧ t.firstLeaf steps h = .ok (some leaf) := by
  induction steps with
  | zero =>
    rintro i h rfl hhead
    exact ⟨h, hhead, rfl⟩
  | succ steps ih =>
    intro i h hi hhead
    obtain ⟨rest, hlevel⟩ := List.head?_eq_some_iff.mp hhead
    have hh : h ∈ c.level r i := by rw [hlevel]; exact List.mem_cons_self
    obtain ⟨n, hn, hshows⟩ := hl.node i (by omega) h hh
    obtain ⟨e, row, hrow⟩ := List.exists_cons_of_ne_nil (hl.full i (by omega) h hh)
    obtain ⟨k, hk⟩ := (hl.searchable.inner i (by omega) h hh).2 e (by rw [hrow]; exact List.mem_cons_self)
    have hnext : (c.level r (i + 1)).head? = some k := by
      rw [level, hlevel, List.flatMap_cons, kids, hrow, List.filterMap_cons_some hk]
      rfl
    obtain ⟨leaf, hleaf, hfirst⟩ := ih (by omega) hnext
    have hchild : n.child t.geometry 0 = .ok (some k) :=
      (hshows.child_eq (by rw [hrow]; rfl)).trans (congrArg Except.ok hk)
    refine ⟨leaf, hleaf, ?_⟩
    rw [Tree.firstLeaf, hn]
    simp only [bind, Except.bind, hchild]
    exact hfirst

/-- The last entry of a tree is the first pair of its leaves. -/
theorem Legible.last (hl : Legible t c r (t.height - 1)) (hroot : t.root = some r) :
    ∃ e rest, c.pairs r (t.height - 1) = e :: rest ∧ t.last = .ok (Pair.entry w e) := by
  obtain ⟨leaf, hleaf, hfirst⟩ := hl.firstLeaf (t.height - 1) (i := 0) (Nat.zero_add _) rfl
  obtain ⟨leaves, hlevel⟩ := List.head?_eq_some_iff.mp hleaf
  have hh : leaf ∈ c.level r (t.height - 1) := by rw [hlevel]; exact List.mem_cons_self
  obtain ⟨e, row, hrow⟩ := List.exists_cons_of_ne_nil (hl.full _ (Nat.le_refl _) leaf hh)
  refine ⟨e, row ++ leaves.flatMap c, ?_, ?_⟩
  · rw [pairs, hlevel, List.flatMap_cons, hrow, List.cons_append]
  · rw [Tree.last, hroot]
    simp only [bind, Except.bind, hfirst]
    exact hl.entryIn (Nat.le_refl _) hh (by rw [hrow]; rfl)

/-- The last entry of a whole tree is the one with the largest key. -/
theorem Whole.last (hw : Whole t row) : (t.last = .ok none ∧ row = []) ∨
    ∃ (k : Key w) (v : Value), t.last = .ok (some (k, v)) ∧ (k.val, v.val) ∈ row ∧ ∀ e ∈ row, e.1 ≤ k.val := by
  rcases hw.state with ⟨hb, hrow⟩ | ⟨c, r, hr, hperm⟩
  · refine Or.inl ⟨?_, hrow⟩
    rw [Tree.last, hb.root]
    rfl
  · have hl := hr.legible
    obtain ⟨e, rest, hpairs, hlast⟩ := hl.last hr.stand.root
    have hd := hl.searchable.pairs_descending (Nat.le_refl _)
    have hproper := hl.proper (Nat.le_refl _)
    rw [hpairs] at hperm hd hproper
    refine Or.inr ⟨_, _, hlast.trans (congrArg Except.ok (hproper.entry List.mem_cons_self)),
      hperm.mem_iff.mpr List.mem_cons_self, fun a ha => ?_⟩
    rcases List.mem_cons.mp (hperm.mem_iff.mp ha) with rfl | ha
    · exact Nat.le_refl _
    · exact Nat.le_of_lt ((List.pairwise_cons.mp hd).1 a ha)

end Trees
end MemoTree
