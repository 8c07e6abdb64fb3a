import MemoTree.Proofs.Insertion
import MemoTree.Proofs.Removal

/-! # Whole trees

What holds of every tree between operations. A tree is bare, without a root and with no node in use, or it has a root
and stands on all its levels; then its leaves hold the pairs it counts (`Whole`). Here is what an insertion and a
removal do to the pairs of a whole tree. -/

namespace MemoTree
open Pool NodePool Rows

/-- A tree with the root `r` that holds the rows `c`. -/
structure Rooted {w : Width} (t : Tree w) (c : Rows) (r : Handle) : Prop where
  tall : 0 < t.height
  stand : Stand t c r t.height fun _ => False
  coherent : Coherent w t.pool c []

/-- A tree without a root, of which no node is in use. -/
structure Bare {w : Width} (t : Tree w) : Prop where
  root : t.root = none
  height : t.height = 0
  stock : Stock t.geometry t.pool fun _ => []
  unused : ∀ h, ¬t.pool.Live h

/-- A tree that holds the pairs `row`, in whatever order. A tree whose nodes cannot be made has none. -/
structure Whole {w : Width} (t : Tree w) (row : Row) : Prop where
  pairs : 2 ≤ t.pairs
  fits : 8 * t.geometry.slotWords ≤ addressable ∨ t.pool.blocks.size = 0
  len : t.len = row.length
  state : (Bare t ∧ row = []) ∨ ∃ c r, Rooted t c r ∧ row.Perm (c.pairs r (t.height - 1))

section Trees
variable {w : Width} {t t' : Tree w} {c : Rows} {r h : Handle} {row : Row}

/-- If no node is in use, there are no memos. -/
theorem Bare.coherent (hb : Bare t) (c : Rows) : Coherent w t.pool c [] := by
  have hnil : ∀ h n, t.pool.block h = .ok n → n.ring.memos = [] := fun h n hn =>
    hb.stock.ledger.quiet (hb.unused h) n hn
  refine ⟨fun h n hn m hm => ?_, fun h h' n n' hn _ m hm => ?_, fun h n hn => ?_⟩
  · rw [hnil h n hn] at hm
    cases hm
  · rw [hnil h n hn] at hm
    cases hm
  · rw [hnil h n hn]
    exact List.Pairwise.nil

theorem Bare.of_stock {c : Rows} (hroot : t.root = none) (hheight : t.height = 0) (hs : Stock t.geometry t.pool c)
    (hlive : ∀ h, ¬t.pool.Live h) : Bare t :=
  ⟨hroot, hheight, hs.congr fun h hh => absurd hh (hlive h), hlive⟩

theorem Bare.of_eq (hb : Bare t) (hp : t'.pool = t.pool) (hr : t'.root = t.root) (hh : t'.height = t.height)
    (hg : t'.pairs = t.pairs) : Bare t' := by
  refine ⟨hr.trans hb.root, hh.trans hb.height, ?_, hp ▸ hb.unused⟩
  rw [Tree.geometry, hg, hp]
  exact hb.stock

/-- A standing tree stands whatever it counts. -/
theorem Stand.of_eq {m : Nat} {rest : Handle → Prop} (hst : Stand t c r m rest) (hp : t'.pool = t.pool)
    (hr : t'.root = t.root) (hh : t'.height = t.height) (hg : t'.pairs = t.pairs) : Stand t' c r m rest := by
  have hgeo : t'.geometry = t.geometry := by rw [Tree.geometry, Tree.geometry, hg]
  refine ⟨hr.trans hst.root, hh ▸ hst.height, ?_, hst.sound, ?_, hst.apart, hst.full, hh ▸ hst.inner, ?_⟩
  · rw [hgeo, hp]
    exact hst.stock
  · rw [hp]
    exact hst.live
  · rw [hh, hp]
    exact hst.quiet

namespace Rooted

theorem exists_height (hr : Rooted t c r) : ∃ d, t.height = d + 1 := ⟨t.height - 1, by have := hr.tall; omega⟩

theorem of_eq (hr : Rooted t c r) (hp : t'.pool = t.pool) (hroot : t'.root = t.root) (hh : t'.height = t.height)
    (hg : t'.pairs = t.pairs) : Rooted t' c r := by
  refine ⟨hh ▸ hr.tall, ?_, hp ▸ hr.coherent⟩
  rw [hh]
  exact hr.stand.of_eq hp hroot hh hg

theorem sound (hr : Rooted t c r) : Sound (2 ^ w.bits) c r (t.height - 1) :=
  hr.stand.sound _ (by have := hr.tall; omega)

theorem live (hr : Rooted t c r) : t.pool.Live h ↔ h ∈ c.under r (t.height - 1) := by
  rw [hr.stand.live, or_false]
  obtain ⟨d, hd⟩ := hr.exists_height
  rw [hd]
  rfl

theorem live_level (hr : Rooted t c r) {i : Nat} (hi : i ≤ t.height - 1) (hh : h ∈ c.level r i) : t.pool.Live h :=
  hr.live.mpr (mem_under_of_level hi hh)

theorem full (hr : Rooted t c r) {i : Nat} (hi : i ≤ t.height - 1) (hh : h ∈ c.level r i) : c h ≠ [] :=
  hr.stand.full h (mem_crown.mpr ⟨i, by have := hr.tall; omega, hh⟩)

theorem quiet (hr : Rooted t c r) (hh : h ∈ c.level r (t.height - 1)) : t.pool.Quiet h :=
  hr.stand.quiet (t.height - 1) (by have := hr.tall; omega) (by have := hr.tall; omega) h hh

theorem fits (hr : Rooted t c r) (hf : 8 * t.geometry.slotWords ≤ addressable ∨ t.pool.blocks.size = 0) :
    8 * t.geometry.slotWords ≤ addressable := by
  refine hf.resolve_right fun h0 => ?_
  obtain ⟨n, hn, -⟩ := hr.live_level (Nat.zero_le _) (List.mem_singleton_self r)
  have := index_lt hn
  omega

end Rooted

theorem Rooted.whole (hr : Rooted t c r) (hp : 2 ≤ t.pairs) (hf : 8 * t.geometry.slotWords ≤ addressable)
    (hlen : t.len = row.length) (hperm : row.Perm (c.pairs r (t.height - 1))) : Whole t row :=
  ⟨hp, Or.inl hf, hlen, Or.inr ⟨c, r, hr, hperm⟩⟩

/-- The pairs of a tree may be listed in any order. -/
theorem Whole.perm {row' : Row} (hw : Whole t row) (hp : row.Perm row') : Whole t row' := by
  refine ⟨hw.pairs, hw.fits, hw.len.trans hp.length_eq, ?_⟩
  rcases hw.state with ⟨hb, rfl⟩ | ⟨c, r, hr, hperm⟩
  · exact Or.inl ⟨hb, hp.nil_eq.symm⟩
  · exact Or.inr ⟨c, r, hr, hp.symm.trans hperm⟩

/-- Two pairs of a level with one key are the same pair. -/
theorem Sound.pair_unique {bound d : Nat} {e e' : Pair} (hs : Sound bound c r d) (he : e ∈ c.pairs r d)
    (he' : e' ∈ c.pairs r d) (hk : e.1 = e'.1) : e = e' := by
  obtain ⟨h, hh, hm⟩ := mem_pairs.mp he
  obtain ⟨h', hh', hm'⟩ := mem_pairs.mp he'
  have hroute := hs.routed d (Nat.le_refl d) h hh e hm
  rw [hk, hs.routed d (Nat.le_refl d) h' hh' e' hm', Option.some.injEq] at hroute
  subst hroute
  exact (hs.descending_level (Nat.le_refl d) hh).eq_of_mem hm hm' hk

theorem Whole.unique {e e' : Pair} (hw : Whole t row) (he : e ∈ row) (he' : e' ∈ row) (hk : e.1 = e'.1) : e = e' := by
  rcases hw.state with ⟨-, rfl⟩ | ⟨c, r, hr, hperm⟩
  · cases he
  · exact hr.sound.pair_unique (hperm.mem_iff.mp he) (hperm.mem_iff.mp he') hk

theorem Whole.small {e : Pair} (hw : Whole t row) (he : e ∈ row) : e.1 < 2 ^ w.bits := by
  rcases hw.state with ⟨-, rfl⟩ | ⟨c, r, hr, hperm⟩
  · cases he
  · obtain ⟨h, hh, hm⟩ := mem_pairs.mp (hperm.mem_iff.mp he)
    exact hr.sound.small_level (Nat.le_refl _) hh hm

theorem Whole.used {e : Pair} (hw : Whole t row) (he : e ∈ row) : e.2 ≠ 0 := by
  rcases hw.state with ⟨-, rfl⟩ | ⟨c, r, hr, hperm⟩
  · cases he
  · obtain ⟨h, hh, hm⟩ := mem_pairs.mp (hperm.mem_iff.mp he)
    obtain ⟨n, -, hpacks⟩ := hr.stand.stock.node (hr.live_level (Nat.le_refl _) hh)
    exact hpacks.used e hm

theorem Whole.ledger (hw : Whole t row) : Ledger t.pool [] := by
  rcases hw.state with ⟨hb, -⟩ | ⟨c, r, hr, -⟩
  · exact hb.stock.ledger
  · exact hr.stand.stock.ledger

theorem Whole.nodup (hw : Whole t row) : row.Nodup := by
  rcases hw.state with ⟨-, rfl⟩ | ⟨c, r, hr, hperm⟩
  · exact List.nodup_nil
  · refine hperm.nodup_iff.mpr (List.nodup_flatMap.mpr ⟨fun h hh => ?_, ?_⟩)
    · exact (hr.sound.descending_level (Nat.le_refl _) hh).imp fun hlt heq => by
        rw [heq] at hlt
        exact Nat.lt_irrefl _ hlt
    · refine (hr.sound.nodup_level (Nat.le_refl _)).imp_of_mem fun {h h'} hh hh' hne e he he' => hne ?_
      exact hr.sound.node_unique hh hh' he he'

theorem Whole.ne_of_perm {row' : Row} {e : Pair} (hw : Whole t row) (hp : row.Perm (e :: row')) :
    ∀ a ∈ row', a.1 ≠ e.1 := by
  intro a ha hae
  have hnot := (List.nodup_cons.mp (hp.nodup_iff.mp hw.nodup)).1
  rw [hw.unique (hp.mem_iff.mpr (List.mem_cons_of_mem e ha)) (hp.mem_iff.mpr List.mem_cons_self) hae] at ha
  exact hnot ha

end Trees
end MemoTree
