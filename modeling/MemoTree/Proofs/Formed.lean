import MemoTree.Proofs.Anatomy
import MemoTree.Proofs.Validation

/-! # Reachable trees are well formed

The structure of a tree, as it can be read from the blocks of its pool: every node that can be reached is in use and not
empty, its used slots are packed to the left and the others are zero, its keys descend within its range, and every used
slot above the lowest level leads to a node (`Tree.Formed`). Every reachable tree is so formed, and the check finds no
violation in it. -/

namespace MemoTree
open Pool NodePool Rows

/-- The block `n` of a node `d` levels below the root has `fill` used slots, packed to the left, and the others are
zero. The keys descend and are within the bounds, and above the lowest level every used slot names a child. -/
structure Tree.NodeFormed {w : Width} (t : Tree w) (d : Nat) (n : Node) (lower upper : Option Nat)
    (fill : Nat) : Prop where
  kept : n.deleted = false
  filled : 0 < fill
  fits : fill ≤ t.pairs
  used : ∀ i < fill, ∃ key value, n.pair t.geometry i = .ok (key, value) ∧ value ≠ 0
  clear : ∀ i, fill ≤ i → i < t.pairs → n.pair t.geometry i = .ok (List.replicate w.words 0, 0)
  descending : ∀ i j a b, i < j → j < fill → n.key t.geometry i = .ok a → n.key t.geometry j = .ok b → b.toNat < a.toNat
  ranged : ∀ i a, i < fill → n.key t.geometry i = .ok a → (∀ l ∈ lower, l ≤ a.toNat) ∧ ∀ u ∈ upper, a.toNat < u
  leads : d + 1 < t.height → ∀ i < fill, ∃ k, n.child t.geometry i = .ok (some k)

/-- A tree has no root if and only if it has no height; otherwise its nodes are on `height` levels. Every node is well
formed within its bounds, and the tree counts the used slots of its leaves. -/
structure Tree.Formed {w : Width} (t : Tree w) : Prop where
  rooted : t.root = none ↔ t.height = 0
  level : ∀ d h, t.Has d h → d < t.height
  node : ∀ d h lower upper, t.At d h lower upper → ∃ n fill, t.pool.block h = .ok n ∧ t.NodeFormed d n lower upper fill
  len : {s : Handle × Nat | t.Leaf s.1 ∧ ∃ key value, t.Uses s.1 s.2 key value}.encard = t.len

section Nodes
variable {w : Width} {t : Tree w} {n : Node} {row : Row} {d : Nat} {lower upper : Option Nat}

/-- A block that packs a row forms a node. -/
theorem Packs.formed (hp : Packs t.geometry n.words row) (hdel : n.deleted = false) (hne : row ≠ [])
    (hd : row.Descending) (hrange : ∀ e ∈ row, (∀ l ∈ lower, l ≤ e.1) ∧ ∀ u ∈ upper, e.1 < u)
    (hleads : d + 1 < t.height → ∀ e ∈ row, ∃ k, Pair.child e = some k) :
    t.NodeFormed d n lower upper row.length where
  kept := hdel
  filled := List.length_pos_of_ne_nil hne
  fits := hp.length_le
  used i hi := ⟨_, _, hp.pair_eq (List.getElem?_eq_getElem hi), hp.used _ (List.getElem_mem hi)⟩
  clear i hi hlt := by
    rw [hp.lays.pair_eq (Packs.free_slot hi hlt), Words.ofNat_zero]
    rfl
  descending i j a b hij hj ha hb := by
    rw [hp.toNat_key (List.getElem?_eq_getElem (Nat.lt_trans hij hj)) ha, hp.toNat_key (List.getElem?_eq_getElem hj) hb]
    exact List.pairwise_iff_getElem.mp hd i j _ hj hij
  ranged i a hi ha := by
    rw [hp.toNat_key (List.getElem?_eq_getElem hi) ha]
    exact hrange _ (List.getElem_mem hi)
  leads hlt i hi := by
    obtain ⟨k, hk⟩ := hleads hlt _ (List.getElem_mem hi)
    exact ⟨k, (hp.child_eq (List.getElem?_eq_getElem hi)).trans (congrArg Except.ok hk)⟩

end Nodes

section Trees
variable {w : Width} {t : Tree w} {c : Rows} {r h : Handle} {row : Row}

/-- The used slots of the leaves. -/
theorem Rooted.encard_slots (hr : Rooted t c r) :
    {s : Handle × Nat | t.Leaf s.1 ∧ ∃ key value, t.Uses s.1 s.2 key value}.encard =
    (c.pairs r (t.height - 1)).length := by
  have hslots : ∀ s : Handle × Nat, s ∈ {s : Handle × Nat | t.Leaf s.1 ∧ ∃ key value, t.Uses s.1 s.2 key value} ↔
      s ∈ (c.level r (t.height - 1)).flatMap fun h => (List.range (c h).length).map fun i => (h, i) := by
    rintro ⟨h, i⟩
    rw [Set.mem_ofPred_eq, hr.leaf_iff, List.mem_flatMap]
    constructor
    · rintro ⟨hh, key, value, n, hn, hpair, hne⟩
      obtain ⟨e, he, -⟩ := (hr.stand.stock.packs h n hn (hr.live_level (Nat.le_refl _) hh)).of_pair hpair hne
      exact ⟨h, hh, List.mem_map.mpr ⟨i, List.mem_range.mpr (List.getElem?_eq_some_iff.mp he).1, rfl⟩⟩
    · rintro ⟨h', hh, hi⟩
      obtain ⟨i', hi, heq⟩ := List.mem_map.mp hi
      cases heq
      have hi := List.mem_range.mp hi
      obtain ⟨n, hn, hpacks⟩ := hr.stand.stock.node (hr.live_level (Nat.le_refl _) hh)
      exact ⟨hh, _, _, n, hn, hpacks.pair_eq (List.getElem?_eq_getElem hi), hpacks.used _ (List.getElem_mem hi)⟩
  have hnodup : ((c.level r (t.height - 1)).flatMap fun h => (List.range (c h).length).map fun i => (h, i)).Nodup := by
    refine List.nodup_flatMap.mpr ⟨fun h _ => ?_, ?_⟩
    · exact List.nodup_range.map fun a b hab => (Prod.mk.inj hab).2
    · refine (hr.sound.nodup_level (Nat.le_refl _)).imp fun {h h'} hne s hs hs' => hne ?_
      obtain ⟨i, -, rfl⟩ := List.mem_map.mp hs
      obtain ⟨j, -, heq⟩ := List.mem_map.mp hs'
      exact (Prod.mk.inj heq).1.symm
  rw [encard_of_list hnodup hslots, pairs, List.length_flatMap, List.length_flatMap]
  simp only [List.length_map, List.length_range]

theorem Whole.formed (hw : Whole t row) : t.Formed := by
  rcases hw.state with ⟨hb, hrow⟩ | ⟨c, r, hr, hperm⟩
  · refine ⟨⟨fun _ => hb.height, fun _ => hb.root⟩, fun d h ⟨_, _, ha⟩ => absurd ha hb.not_at,
      fun d h _ _ ha => absurd ha hb.not_at, ?_⟩
    have hnone : {s : Handle × Nat | t.Leaf s.1 ∧ ∃ key value, t.Uses s.1 s.2 key value} = ∅ :=
      Set.eq_empty_of_forall_notMem fun s ⟨⟨_, _, ha⟩, _⟩ => hb.not_at ha
    rw [hnone, Set.encard_empty, hw.len, hrow]
    rfl
  · refine ⟨?_, fun d h hh => ?_, fun d h lower upper ha => ?_, ?_⟩
    · rw [hr.stand.root]
      exact ⟨fun h => (by cases h), fun h => absurd h (Nat.ne_of_gt hr.tall)⟩
    · have := (hr.has_iff.mp hh).1
      have := hr.tall
      omega
    · obtain ⟨hd, hh, hwithin⟩ := hr.of_at ha
      obtain ⟨n, hn, hdel, -⟩ := id (hr.live_level hd hh)
      have hpacks := hr.stand.stock.packs h n hn (hr.live_level hd hh)
      exact ⟨n, _, hn, hpacks.formed hdel (hr.full hd hh) (hr.sound.descending_level hd hh)
        (fun e he => hr.sound.within hd hh hwithin he) fun hlt => (hr.sound.inner d (by omega) h hh).2⟩
    · rw [hr.encard_slots, hw.len, hperm.length_eq]

/-- Every reachable tree is valid and well formed, whether the operations that led to it succeeded or failed. -/
theorem Tree.Reachable.valid (ht : t.Reachable) : t.validate = .ok (.ok ()) ∧ t.Formed := by
  obtain ⟨row, hw⟩ := ht.whole
  exact ⟨hw.validate, hw.formed⟩

end Trees

/-- The worn tree has three levels, of which each non-empty node is checked. -/
theorem valid_of_worn : Tree.worn.Reachable ∧ Tree.worn.height = 3 ∧ Tree.worn.validate = .ok (.ok ()) ∧
    Tree.worn.Formed :=
  ⟨Tree.worn_reachable, by decide +kernel, Tree.worn_reachable.valid⟩

end MemoTree
