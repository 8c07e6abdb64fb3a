import MemoTree.Proofs.Atomicity
import MemoTree.Proofs.Validation

/-! # Arrivals

The descent of a change agrees with that of a lookup. It may lower separators on its way, and then lookups for the key
come to the node where the change arrived, lookups for the keys that the tree holds come to the leaves where they are,
and another descent for the key writes nothing. -/

namespace MemoTree
open Pool NodePool Rows

namespace Tree
variable {w : Width}

/-- Scans for `key` lead from the root to `h`, which is on `level`. -/
def Scans (t : Tree w) (key : Words) (level : Nat) (h : Handle) : Prop :=
  ∃ r, t.root = some r ∧ Runs (onNodes (leafFor t.geometry false key (t.height - level) r)) t (some h) t

/-- A descent for `k` to `level` arrives at `h`, and `t'` is what it makes of `t`. -/
structure Arrives (t t' : Tree w) (k : Key w) (level : Nat) (h : Handle) : Prop where
  runs : Runs (nodeAt k.toWords level) t h t'
  tree : t' = { t with pool := { t.pool with blocks := t'.pool.blocks } }
  size : t'.pool.blocks.size = t.pool.blocks.size
  lowered : ∀ q i n, t.OvertopsAbove k.toWords level q i → t.pool.block q = .ok n →
    ∃ n', n.writeKey t.geometry i k.toWords = .ok n' ∧ t'.pool.block q = .ok n'
  kept : ∀ q, (∀ i, ¬t.OvertopsAbove k.toWords level q i) → t'.pool.block q = t.pool.block q
  valid : t'.validate = .ok (.ok ())
  entries : ∀ order, ∃ seen, Runs (visit order) t seen t ∧ Runs (visit order) t' seen t'
  scans : t'.Scans k.toWords level h
  leaves : ∀ (a : Key w) leaf i v, t.Leaf leaf → t.Uses leaf i a.toWords v →
    t.Scans a.toWords 1 leaf ∧ t'.Scans a.toWords 1 leaf
  again : Runs (nodeAt k.toWords level) t' h t'

end Tree

section Trees
variable {w : Width} {t t' : Tree w} {c c' : Rows} {r h : Handle} {row : Row} {i level x : Nat}

namespace Rooted

theorem scans (hr : Rooted t c r) (hx : x < 2 ^ w.bits) (hlevel : level + i = t.height) (h1 : 1 ≤ level)
    (hroute : c.route x r i = some h) : t.Scans (Words.ofNat w.words x) level h := by
  have hrun := (hr.legible_to (d := i) (by omega)).leafFor hx i (Nat.zero_add i) (List.mem_singleton_self r)
  rw [hroute] at hrun
  refine ⟨r, hr.stand.root, ?_⟩
  rw [show t.height - level = i by omega]
  exact Runs.onNodes hrun

/-- Lookups for a key that a leaf holds come to the leaf. -/
theorem scans_leaf {a : Key w} {leaf : Handle} {v : Word} (hr : Rooted t c r) (hleaf : t.Leaf leaf)
    (huses : t.Uses leaf i a.toWords v) : c.route a.val r (t.height - 1) = some leaf := by
  have hh := hr.leaf_iff.mp hleaf
  obtain ⟨e, he, hkey, -⟩ := (hr.uses_iff (Nat.le_refl _) hh).mp huses
  have hmem := List.mem_of_getElem? he
  have hsmall := hr.sound.small_level (Nat.le_refl _) hh hmem
  have hae : a.val = e.1 := Words.ofNat_inj (Nat.lt_of_lt_of_le a.isLt (Key.pow_bits_le w))
    (Nat.lt_of_lt_of_le hsmall (Key.pow_bits_le w)) hkey
  rw [hae]
  exact hr.sound.routed _ (Nat.le_refl _) leaf hh e hmem

end Rooted

theorem Whole.arrival (hw : Whole t row) (k : Key w) (h1 : 1 ≤ level) (hle : level ≤ t.height) :
    ∃ h t', t.Arrives t' k level h := by
  rcases hw.state with ⟨hb, -⟩ | ⟨c, r, hr, hperm⟩
  · have := hb.height
    omega
  obtain ⟨d, hd⟩ := hr.exists_height
  obtain ⟨i, hi⟩ : ∃ i, level + i = t.height := ⟨t.height - level, by omega⟩
  have hid : i ≤ t.height - 1 := by omega
  have hst : Stand t c r (d + 1) fun _ => False := hd ▸ hr.stand
  obtain ⟨h, hland⟩ := hr.sound.exists_land k.val hid
  have hlive : ∀ j < i, ∀ q, c.land k.val r j = some q → t.pool.Live q := fun j hj q hq =>
    hr.live_level (by omega) (mem_level_of_land hq)
  obtain ⟨p, hrun, hs, hedits⟩ := nodeAt_spec hst.stock hst.root hi k.isLt hland hlive
  obtain ⟨p', hdown, ht⟩ := descend_trims hst.stock (Nat.lt_of_lt_of_le k.isLt (Key.pow_bits_le w)) hland hlive
  obtain rfl : p = p' := congrArg Tree.pool (hrun.unique (runs_nodeAt hst.root hi hdown)).2
  -- what is left stands on the lowered rows
  have hl := Loosened.of_lowerPath hst (by omega) hs hedits k.isLt
  rw [← hd] at hl
  obtain ⟨hr', hpairs⟩ := hl.rooted hr
  have hw' : Whole ({ t with pool := p } : Tree w) row :=
    hr'.whole hw.pairs (hr.fits hw.fits) hw.len (by
      change row.Perm ((c.lowerPath k.val r i).pairs r (t.height - 1))
      rwa [hpairs])
  obtain ⟨row', hrow', hdesc⟩ := hw.exists_descending
  have hroute := route_lowerPath_self (Nat.le_refl i) hland
  refine ⟨h, { t with pool := p }, hrun, ?_, ht.size, fun q j n => hr.lowered k.isLt h1 hi ht, fun q =>
    hr.kept k.isLt h1 hi ht, hw'.validate, fun order => ⟨_, (hw.perm hrow').visit_eq hdesc order,
    (hw'.perm hrow').visit_eq hdesc order⟩, hr'.scans k.isLt hi h1 hroute, fun a leaf j v hleaf huses => ?_, ?_⟩
  · change ({ t with pool := p } : Tree w) = { t with pool := { t.pool with blocks := p.blocks } }
    rw [← ht.rest]
  · have hfound := hr.scans_leaf hleaf huses
    exact ⟨hr.scans a.isLt (by omega) (Nat.le_refl 1) hfound,
      hr'.scans a.isLt (show 1 + (t.height - 1) = t.height by omega) (Nat.le_refl 1) (route_lowerPath hfound)⟩
  · exact runs_nodeAt hr'.stand.root hi (descend_routed hr'.stand.stock
      (Nat.lt_of_lt_of_le k.isLt (Key.pow_bits_le w)) hroute fun j hj q hq =>
        hr'.live_level (show j ≤ t.height - 1 by omega) (mem_level_of_route hq))

/-- In a reachable tree a change for any key arrives on any level, and agrees with what lookups then do. -/
theorem Tree.Reachable.arrives (ht : t.Reachable) (k : Key w) (h1 : 1 ≤ level) (hle : level ≤ t.height) :
    ∃ h t', t.Arrives t' k level h := by
  obtain ⟨row, hw⟩ := ht.whole
  exact hw.arrival k h1 hle

end Trees

/-- In the cramped tree the descent for the key 10 lowers the root's last separator from 30. -/
theorem arrives_in_cramped : Tree.cramped.Reachable ∧ 1 ≤ Tree.cramped.height ∧
    ∃ h t', Tree.cramped.Arrives t' 10 1 h ∧ t'.pool.blocks ≠ Tree.cramped.pool.blocks := by
  have hle : 1 ≤ Tree.cramped.height := by decide +kernel
  obtain ⟨h, t', ha⟩ := Tree.cramped_reachable.arrives 10 (Nat.le_refl 1) hle
  have he : Ends (Tree.nodeAt (Key.toWords (10 : Key .bits64)) 1) Tree.cramped ⟨0, by decide⟩ _ :=
    Ends.after (by decide +kernel)
  obtain ⟨-, rfl⟩ := ha.runs.of_ends he
  exact ⟨Tree.cramped_reachable, hle, h, _, ha, by decide +kernel⟩

end MemoTree
