import MemoTree.Proofs.Branching
import Mathlib.Data.Nat.Log

/-! # Occupancy

As long as nothing is removed, the nodes below the root are at least half full: a node below the root comes from a
full one that was halved, or was the root itself until it was full. So the numbers of nodes grow from level to level
by half the slots of a node, and the height is at most logarithmic in the number of entries. -/

namespace MemoTree
open Pool NodePool Rows

/-- Every one of the siblings is at least half full. -/
def Rule.half (pairs : Nat) : Rule := fun sizes => ∀ n ∈ sizes, pairs / 2 ≤ n

theorem Rule.half_grows (pairs : Nat) : (Rule.half pairs).Grows pairs where
  alone n hn := by
    rw [List.mem_singleton.mp hn]
    omega
  more {X Y n} h m hm := by
    have hold : ∀ i ∈ X ++ n :: Y, pairs / 2 ≤ i := h
    simp only [List.mem_append, List.mem_cons] at hm hold
    rcases hm with hm | rfl | hm
    · exact hold m (Or.inl hm)
    · exact Nat.le_succ_of_le (hold n (Or.inr (Or.inl rfl)))
    · exact hold m (Or.inr (Or.inr hm))
  split {X Y} h m hm := by
    have hold : ∀ i ∈ X ++ pairs :: Y, pairs / 2 ≤ i := h
    simp only [List.mem_append, List.mem_cons] at hm hold
    rcases hm with hm | rfl | rfl | hm
    · exact hold m (Or.inl hm)
    · exact Nat.le_refl _
    · omega
    · exact hold m (Or.inr (Or.inr hm))
  cut h _ := ⟨fun m hm => h m (List.mem_of_mem_take hm), fun m hm => h m (List.mem_of_mem_drop hm)⟩

/-- How densely a tree is filled: its nodes, the root excepted, are at least half full, the root branches, and so the
number of entries grows exponentially with the height. -/
structure Tree.Dense {w : Width} (t : Tree w) : Prop where
  half : ∀ d h, t.Has (d + 1) h → ∃ fill, t.Fill h fill ∧ t.pairs / 2 ≤ fill
  root : t.Branches
  len : 1 < t.height → 2 * (t.pairs / 2) ^ (t.height - 1) ≤ t.len
  height : 4 ≤ t.pairs → t.height ≤ Nat.log (t.pairs / 2) (t.len / 2) + 1

section Trees
variable {w : Width} {t : Tree w} {c : Rows} {r h : Handle} {d n : Nat}

/-- Nodes with at least `n` pairs each have at least `n` times as many pairs as they are. -/
theorem Rows.mul_length_le {l : List Handle} (hl : ∀ h ∈ l, n ≤ c.count h) : n * l.length ≤ (l.flatMap c).length := by
  induction l with
  | nil => exact Nat.zero_le _
  | cons h l ih =>
    have hhead : n ≤ (c h).length := hl h List.mem_cons_self
    have hrest := ih fun k hk => hl k (List.mem_cons_of_mem h hk)
    rw [List.length_cons, Nat.mul_succ, List.flatMap_cons, List.length_append]
    omega

theorem Rooted.length_level (hr : Rooted t c r) (hd : d < t.height - 1) :
    (c.level r (d + 1)).length = (c.pairs r d).length := by
  rw [level_eq_children]
  refine List.filterMap_length_eq_length.mpr fun e he => ?_
  obtain ⟨h, hh, he⟩ := mem_pairs.mp he
  exact Option.isSome_iff_exists.mpr (hr.inner hd hh he)

namespace Ruled

theorem half_le (hr : Ruled t c r (Rule.half t.pairs)) (hd : d + 1 ≤ t.height - 1) (hh : h ∈ c.level r (d + 1)) :
    t.pairs / 2 ≤ c.count h := by
  obtain ⟨p, hp, hk⟩ := mem_level_succ.mp hh
  exact hr.obeys d hd p hp _ (List.mem_map_of_mem hk)

/-- The pairs multiply from level to level. -/
theorem two_mul_pow_le (hr : Ruled t c r (Rule.half t.pairs)) (htall : 1 < t.height) (hd : d ≤ t.height - 1) :
    2 * (t.pairs / 2) ^ d ≤ (c.pairs r d).length := by
  -- the root has two pairs, and a level has a node for each pair of the level above
  induction d with
  | zero =>
    have hroot : 2 ≤ (c r).length := hr.root htall
    rwa [pairs_zero, Nat.pow_zero, Nat.mul_one]
  | succ d ih =>
    calc 2 * (t.pairs / 2) ^ (d + 1) = t.pairs / 2 * (2 * (t.pairs / 2) ^ d) := by ring
      _ ≤ t.pairs / 2 * (c.pairs r d).length := Nat.mul_le_mul_left _ (ih (by omega))
      _ = t.pairs / 2 * (c.level r (d + 1)).length := by rw [hr.rooted.length_level hd]
      _ ≤ (c.pairs r (d + 1)).length := mul_length_le fun k hk => hr.half_le hd hk

end Ruled

/-- A tree whose nodes are at least half full has a height at most logarithmic in its entries. -/
theorem Tree.height_le (hpairs : 4 ≤ t.pairs) (hlen : 1 < t.height → 2 * (t.pairs / 2) ^ (t.height - 1) ≤ t.len) :
    t.height ≤ Nat.log (t.pairs / 2) (t.len / 2) + 1 := by
  by_cases htall : 1 < t.height
  · have hpow : (t.pairs / 2) ^ (t.height - 1) ≤ t.len / 2 := by
      have := hlen htall
      omega
    have := Nat.le_log_of_pow_le (by omega) hpow
    omega
  · omega

theorem Tree.Follows.densely (hf : t.Follows t.pairs (Rule.half t.pairs)) : t.Dense := by
  have hlen : 1 < t.height → 2 * (t.pairs / 2) ^ (t.height - 1) ≤ t.len := fun htall => by
    obtain ⟨row, hw⟩ := hf.whole
    rcases hf.state with hb | ⟨c, r, hr⟩
    · rw [hb.height] at htall
      exact absurd htall (Nat.not_lt_zero 1)
    · rw [hw.len_eq hr.rooted]
      exact hr.two_mul_pow_le htall (Nat.le_refl _)
  refine ⟨fun d h hh => ?_, hf.root_branches, hlen, fun hpairs => Tree.height_le hpairs hlen⟩
  rcases hf.state with hb | ⟨c, r, hr⟩
  · obtain ⟨_, _, ha⟩ := hh
    exact absurd ha hb.not_at
  · obtain ⟨hd, hh⟩ := hr.rooted.has_iff.mp hh
    exact ⟨_, hr.rooted.fill hd hh, hr.half_le hd hh⟩

/-- A tree from which nothing was ever removed is densely filled. -/
theorem Tree.LedBy.dense {pairs : Nat} (h : t.LedBy (fun call => call.removes = false) pairs) : t.Dense := by
  have hf := h.follows (Rule.half_grows pairs) fun call hnot hremoves => by
    rw [hnot] at hremoves
    cases hremoves
  rw [← hf.pairs] at hf
  exact hf.densely

end Trees

/-! ### A tree with half full leaves -/

/-- A tree with nodes of four slots into which five entries were inserted, one of them twice. -/
def Tree.parted : Tree .bits64 :=
  (.onPool (.empty (⟨1, 4⟩ : Geometry).blockWords none) 4 true : Tree .bits64).afterAll
    [.insert (Key.ofNat _ 30) .one, .insert (Key.ofNat _ 10) .one, .insert (Key.ofNat _ 50) .one,
      .insert (Key.ofNat _ 20) .one, .insert (Key.ofNat _ 10) .one, .lookup (Key.ofNat _ 20),
      .insert (Key.ofNat _ 40) .one, .update (Key.ofNat _ 40) .one, .prev (Key.ofNat _ 40), .last]

theorem Tree.parted_led : Tree.parted.LedBy (fun call => call.removes = false) 4 :=
  LedBy.afterAll (.made (.ofConfig (c := { pairs := some 4 }) rfl) rfl) (by decide)

/-- The fifth entry halved the first leaf. -/
theorem dense_of_parted : Tree.parted.LedBy (fun call => call.removes = false) 4 ∧ Tree.parted.Dense ∧
    Tree.parted.pairs = 4 ∧ Tree.parted.height = 2 ∧ Tree.parted.len = 5 :=
  ⟨Tree.parted_led, Tree.parted_led.dense, by decide +kernel, by decide +kernel, by decide +kernel⟩

end MemoTree
