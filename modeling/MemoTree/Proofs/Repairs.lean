import MemoTree.Proofs.Atomicity
import MemoTree.Proofs.Ownership

/-! # What a removal does to the nodes

The removal of a key that is present takes one slot out of its leaf. From there upward along the path of the key each
node that lost a slot is mended as the rows say (`Mends`): it goes, is joined with a neighbour, or stays, and the
first that stays is the last that changes. The nodes that are neither on the path nor joined keep their words, and the
tree has as many nodes less as were unlinked. -/

namespace MemoTree
open Pool NodePool Rows

namespace Tree
variable {w : Width}

/-- The words of every node of the tree are its row in `c`, and empty slots. -/
def Holds (t : Tree w) (c : Rows) : Prop := ∀ h, t.Linked h → ∃ n, t.pool.block h = .ok n ∧
    Packs t.geometry n.words (c h)

/-- The rows of `t` were `c`. The pair of `k` and `v` was taken out of its leaf, the first node of `path`, which leads
up to the root, and mending what fell short left `s`, which is `t'`. -/
structure Mended (t : Tree w) (k : Key w) (v : Value) (c : Rows) (path : List Handle) (s : Remains)
    (t' : Tree w) : Prop where
  before : t.Holds c
  length : path.length = t.height
  passed : ∀ i h, path[i]? = some h → t.Path k.toWords (t.height - 1 - i) h
  mends : ∃ leaf A B, path.head? = some leaf ∧ c leaf = A ++ (k.val, v.val) :: B ∧
    Mends t.pairs 1 path (Function.update c leaf (A ++ B)) s
  after : t'.Holds s.rows
  root : t'.root = s.root
  height : t'.height = s.height
  linked : ∀ h, t'.Linked h ↔ t.Linked h ∧ h ∉ s.gone
  words : ∀ h n, t.Linked h → h ∉ path → h ∉ s.kin → t.pool.block h = .ok n →
    t'.Linked h ∧ ∃ n', t'.pool.block h = .ok n' ∧ n'.words = n.words
  count : ∃ nodes, t.nodeCount = .ok (nodes + s.gone.length) ∧ t'.nodeCount = .ok nodes

end Tree

section Trees
variable {w : Width} {t t' : Tree w} {c : Rows} {r : Handle} {d : Nat} {row row' : Row}

theorem Left.yields {rest : Handle → Prop} {late : List Handle} {asked : Rule → Prop} {done : Remains → Prop}
    (hl : Left t c r d rest late asked done t') : ∃ c', Stock t'.geometry t'.pool c' ∧ Yields t done t' c' := by
  rcases hl with ⟨c', _, _, hl, hy⟩ | ⟨c', hl, hy⟩
  · exact ⟨c', hl.stand.stock, hy⟩
  · exact ⟨c', hl.stock, hy⟩

theorem Whole.holds (hw : Whole t row) (hs : Stock t.geometry t.pool c) : t.Holds c := fun _ hh =>
  hs.node (hw.linked_iff.mp hh)

/-- A tree has as many nodes less as it lost. -/
theorem Whole.count_of_loses {gone : List Handle} (hw : Whole t row) (hw' : Whole t' row')
    (hl : Loses t.pool t'.pool gone) :
    ∃ nodes, t.nodeCount = .ok (nodes + gone.length) ∧ t'.nodeCount = .ok nodes := by
  obtain ⟨l, hnodup, hmem, hcount⟩ := hw.exists_nodes
  obtain ⟨l', hnodup', hmem', hcount'⟩ := hw'.exists_nodes
  have hboth : (l' ++ gone).Nodup := List.nodup_append'.mpr ⟨hnodup', hl.nodup, fun h hh hg => by
    rw [hmem', hw'.linked_iff, hl.live] at hh
    exact hh.2 hg⟩
  have hperm : l.Perm (l' ++ gone) := (List.perm_ext_iff_of_nodup hnodup hboth).mpr fun h => by
    rw [hmem, hw.linked_iff, List.mem_append, hmem', hw'.linked_iff, hl.live]
    constructor
    · intro hh
      by_cases hg : h ∈ gone
      · exact Or.inr hg
      · exact Or.inl ⟨hh, hg⟩
    · rintro (⟨hh, -⟩ | hg)
      · exact hh
      · exact hl.were h hg
  exact ⟨l'.length, by rw [hcount, hperm.length_eq, List.length_append], hcount'⟩

theorem Rooted.path_of_trail (hr : Rooted t c r) {k : Key w} {i : Nat} {h : Handle}
    (hi : (c.trail k.val r (t.height - 1))[i]? = some h) : t.Path k.toWords (t.height - 1 - i) h := by
  obtain ⟨-, hland⟩ := hr.sound.getElem?_trail (Nat.le_refl _) hi
  exact (hr.path_iff k.isLt).mpr ⟨Nat.sub_le _ _, hland⟩

/-- A node that is neither mended nor joined stays, with its words. -/
theorem Whole.words_of_mends {path : List Handle} {s : Remains} {level : Nat} {c₁ : Rows} {h : Handle} {n : Node}
    (hw : Whole t row) (hw' : Whole t' row') (hm : Mends t.pairs level path c₁ s) (hl : Loses t.pool t'.pool s.gone)
    (hs : Stock t.geometry t.pool c) (hs' : Stock t'.geometry t'.pool s.rows) (hg : t'.geometry = t.geometry)
    (hc : c₁ h = c h) (hh : t.Linked h) (hpath : h ∉ path) (hkin : h ∉ s.kin) (hn : t.pool.block h = .ok n) :
    t'.Linked h ∧ ∃ n', t'.pool.block h = .ok n' ∧ n'.words = n.words := by
  have hlive := hw.linked_iff.mp hh
  have hlive' : t'.pool.Live h := (hl.live h).mpr ⟨hlive, fun hgone => (hm.mem_of_gone hgone).elim hpath hkin⟩
  obtain ⟨m, hm₁, hpacks⟩ := hs.node hlive
  obtain rfl : m = n := Except.ok.inj (hm₁.symm.trans hn)
  obtain ⟨n', hn', hpacks'⟩ := hs'.node hlive'
  rw [hm.kept hpath hkin, hc, hg] at hpacks'
  exact ⟨hw'.linked_iff.mpr hlive', n', hn', hpacks.lays.words_unique hpacks'.lays⟩

/-- What the removal of a key that is present does to the nodes of a rooted tree. -/
theorem Rooted.mended (hr : Rooted t c r) (hw : Whole t row) {k : Key w} {v : Value}
    (he : (k.val, v.val) ∈ c.pairs r (t.height - 1)) :
    ∃ t' path s, Runs (Tree.remove k) t (some v) t' ∧ t.Mended k v c path s t' := by
  obtain ⟨d, hd⟩ := hr.exists_height
  have hd' : t.height - 1 = d := by omega
  have hlen : t.len = (c.pairs r d).length := hd' ▸ hw.len_eq hr
  rw [hd'] at he
  obtain ⟨h, A, B, t₁, hh, ht, hrun, hleft⟩ := hr.remove_some hd hw.pairs (hlen ▸ (List.length_pos_of_mem he).ne') he
  have hsound : Sound (2 ^ w.bits) c r d := hd' ▸ hr.sound
  obtain ⟨row', hperm, hwhole⟩ := hleft.whole hd hsound hh ht.row hw.pairs (hr.fits hw.fits)
  have hless : t₁.len - 1 = row'.length := by
    rw [hleft.alike.len, hlen, hperm.length_eq, List.length_cons, Nat.add_sub_cancel]
  obtain ⟨c', hstock, gone, kin, hmends, hloses⟩ := hleft.yields
  obtain ⟨path, hpath⟩ := exists_trail ht.land
  have hvalue : Value.ofWord? v.val = some v := by rw [Value.ofWord?, dif_pos v.property]
  rw [hvalue] at hrun
  have hw' := hwhole _ hless
  refine ⟨_, c.trail k.val r d, ⟨c', t₁.root, t₁.height, gone, kin⟩, hrun, hw.holds hr.stand.stock,
    ?_, fun i i' hi => ?_,
    ⟨h, A, B, ?_, ht.row, hmends⟩, hw'.holds hstock, rfl, rfl, fun i => ?_, fun i n hi hup hkin hn => ?_,
    hw.count_of_loses hw' hloses⟩
  · rw [hsound.length_trail (Nat.le_refl d), hd]
  · rw [← hd'] at hi
    exact hr.path_of_trail hi
  · rw [hpath]
    rfl
  · rw [hw'.linked_iff, hw.linked_iff]
    exact hloses.live i
  · -- a node off the path and apart from the kin is not the leaf that lost the pair
    have hih : i ≠ h := by
      rintro rfl
      exact hup (hpath ▸ List.mem_cons_self)
    exact hw.words_of_mends hw' hmends hloses hr.stand.stock hstock hleft.alike.geometry
      (Function.update_of_ne hih _ _) hi hup hkin hn

/-- A key that a lookup finds is in a leaf. -/
theorem Tree.Reachable.uses {k : Key w} {v : Value} (ht : t.Reachable) (he : Ends (Tree.lookup k) t (some v) t') :
    ∃ h i, t.Leaf h ∧ t.Uses h i k.toWords v.val := by
  obtain ⟨row, hw⟩ := ht.whole
  rcases hw.lookup k with ⟨-, _, hrun, -⟩ | ⟨v', hmem, _, hrun, -⟩
  · cases (hrun.of_ends he).1
  · obtain ⟨⟨⟩, -⟩ := hrun.of_ends he
    obtain ⟨h, i, hleaf, huses, -⟩ := hw.mem_iff.mp hmem
    exact ⟨h, i, hleaf, huses⟩

/-- The removal of a key that is present takes it out of its leaf and mends what falls short, level by level, and
nothing else: the words of the other nodes stay, and the nodes that were unlinked are missing from the count. -/
theorem Tree.Reachable.mends_removals (ht : t.Reachable) (k : Key w) (v : Value)
    (hk : ∃ h i, t.Leaf h ∧ t.Uses h i k.toWords v.val) :
    ∃ t' c path s, Runs (Tree.remove k) t (some v) t' ∧ t.Mended k v c path s t' := by
  obtain ⟨row, hw⟩ := ht.whole
  obtain ⟨h, i, hleaf, huses⟩ := hk
  have hmem : (k.val, v.val) ∈ row := hw.mem_iff.mpr ⟨h, i, hleaf, huses, k.isLt⟩
  rcases hw.state with ⟨-, rfl⟩ | ⟨c, r, hr, hperm⟩
  · cases hmem
  · obtain ⟨t', path, s, hrun, hmended⟩ := hr.mended hw (hperm.mem_iff.mp hmem)
    exact ⟨t', c, path, s, hrun, hmended⟩

end Trees

/-! ### The repair of a tree -/

/-- Without the key 10 the smaller leaf of the forked tree is short: it is joined with the other leaf, which becomes the
root. -/
theorem mends_removals_of_forked : Tree.forked.Reachable ∧
    (∃ h i, Tree.forked.Leaf h ∧ Tree.forked.Uses h i (Key.toWords (10 : Key .bits64)) Value.one.val) ∧
    ∃ t' c path s, Runs (Tree.remove 10) Tree.forked (some .one) t' ∧ Tree.forked.Mended 10 .one c path s t' ∧
      path.length = 2 ∧ s.height = 1 ∧ s.gone.length = 2 := by
  have hpresent := Tree.forked_reachable.uses (k := 10) (v := .one) (Ends.after (by decide +kernel))
  obtain ⟨t', c, path, s, hrun, hm⟩ := Tree.forked_reachable.mends_removals 10 .one hpresent
  have he : Ends (Tree.remove 10) Tree.forked (some Value.one) _ := Ends.after (by decide +kernel)
  obtain ⟨-, ht'⟩ := hrun.of_ends he
  obtain ⟨nodes, hbefore, hafter⟩ := hm.count
  rw [show Tree.forked.nodeCount = .ok 3 by decide +kernel, Except.ok.injEq] at hbefore
  rw [← ht', show (Tree.forked.after (Tree.remove 10)).nodeCount = .ok 1 by decide +kernel, Except.ok.injEq] at hafter
  refine ⟨Tree.forked_reachable, hpresent, t', c, path, s, hrun, hm, ?_, ?_, by omega⟩
  · rw [hm.length]
    decide +kernel
  · rw [← hm.height, ← ht']
    decide +kernel

end MemoTree
