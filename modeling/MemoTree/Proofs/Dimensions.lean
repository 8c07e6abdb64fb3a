import MemoTree.Proofs.Slots
import MemoTree.Tree.Basic

/-! # Dimensions of nodes

A geometry can be used if its nodes have two slots or more and every number that lays them out is a word: then
the slots lie in the block one beside the other (`Geometry.Usable`). However large a block is asked for, as
many slots as fit into it make a geometry that can be used, or too few. A number of slots that is given is not
checked against what a word can count. The greatest ones cannot be laid out: either the keys of a node cannot
be counted (`Config.geometry_eq_overflow`), or the geometry is accepted and no tree can be made with it, since
its blocks cannot (`Config.geometry_not_usable`, `Tree.ofConfig_eq_overflow`). -/

namespace MemoTree

namespace Geometry

/-- The words of slot `n`: those of its key, and then its value. -/
def place (g : Geometry) (n : Nat) : List Nat := List.range' (n * g.keyLength) g.keyLength ++ [g.keyRegion + n]

/-- Nodes have two slots or more, the numbers that lay them out are words, and in a block of that many words each slot
has words of its own, where its key and its value are read. -/
structure Usable (g : Geometry) : Prop where
  splits : 2 ≤ g.pairs
  keyRegion : g.keyRegion < 2 ^ 64
  slotWords : g.slotWords < 2 ^ 64
  blockWords : g.blockWords < 2 ^ 64
  inside : ∀ n < g.pairs, ∀ i ∈ g.place n, i < g.slotWords
  apart : ∀ n < g.pairs, ∀ m < g.pairs, n ≠ m → (g.place n).Disjoint (g.place m)
  nodup : ∀ n < g.pairs, (g.place n).Nodup
  block : ∀ b, Node.fresh g.blockWords = .ok b → b.words.size = g.slotWords ∧ ∀ n < g.pairs,
    (∃ key, b.key g n = .ok key ∧ key.length = g.keyLength) ∧ ∃ v, b.value g n = .ok v

variable {g : Geometry} {n m i : Nat}

theorem mem_place : i ∈ g.place n ↔ (n * g.keyLength ≤ i ∧ i < n * g.keyLength + g.keyLength) ∨
    i = g.keyRegion + n := by
  simp [place, List.mem_range'_1]

theorem place_inside (hn : n < g.pairs) (hi : i ∈ g.place n) : i < g.slotWords := by
  have hend := key_end_le hn
  rw [slotWords]
  rcases mem_place.mp hi with ⟨-, hi⟩ | rfl <;> omega

theorem place_apart (hn : n < g.pairs) (hm : m < g.pairs) (hne : n ≠ m) : (g.place n).Disjoint (g.place m) := by
  intro i hi hi'
  have hend := key_end_le hn
  have hend' := key_end_le hm
  rcases mem_place.mp hi with ⟨hle, hlt⟩ | rfl
  · rcases mem_place.mp hi' with ⟨hle', hlt'⟩ | rfl
    · -- the offset in one key and in the other
      have hoff : i - n * g.keyLength < g.keyLength := by omega
      have hoff' : i - m * g.keyLength < g.keyLength := by omega
      exact hne (key_slot_inj hoff hoff' (by omega))
    · omega
  · rcases mem_place.mp hi' with ⟨-, hlt'⟩ | heq <;> omega

theorem place_nodup (hn : n < g.pairs) : (g.place n).Nodup := by
  have hend := key_end_le hn
  refine List.nodup_append.mpr ⟨List.nodup_range', by simp, ?_⟩
  intro i hi j hj
  rw [List.mem_range'_1] at hi
  rw [List.mem_singleton.mp hj]
  omega

theorem keyRegion_le_blockWords (g : Geometry) : g.keyRegion ≤ g.blockWords := by
  rw [blockWords, slotWords]
  omega

theorem usable_of_lt (hsplits : 2 ≤ g.pairs) (hlt : g.blockWords < 2 ^ 64) : g.Usable where
  splits := hsplits
  keyRegion := Nat.lt_of_le_of_lt g.keyRegion_le_blockWords hlt
  slotWords := by
    rw [blockWords] at hlt
    omega
  blockWords := hlt
  inside n hn i hi := place_inside hn hi
  apart n hn m hm hne := place_apart hn hm hne
  nodup n hn := place_nodup hn
  block b hb := by
    rw [Node.of_fresh hb, blockWords, Nat.add_sub_cancel]
    have hlays := Lays.zero g
    refine ⟨hlays.size, fun n hn => ?_⟩
    obtain ⟨s, hs⟩ := hlays.exists_slot hn
    exact ⟨⟨_, Lays.key_eq (b := ⟨_, 0, false, Ring.empty⟩) hlays hs, Words.length_ofNat _ _⟩,
      ⟨_, Lays.value_eq (b := ⟨_, 0, false, Ring.empty⟩) hlays hs⟩⟩

/-- A block that is cut into slots has no more words than were asked for, but those that every block has. -/
theorem blockWords_ofBytes_le (keyLength bytes : Nat) :
    (ofBytes keyLength bytes).blockWords ≤ max (bytes / 8) reservedWords := by
  have hcut := Nat.mul_div_le (bytes / 8 - reservedWords) (keyLength + 1)
  rw [Nat.add_mul, Nat.one_mul] at hcut
  change keyLength * ((bytes / 8 - reservedWords) / (keyLength + 1)) + (bytes / 8 - reservedWords) / (keyLength + 1) +
    reservedWords ≤ _
  omega

end Geometry

namespace Config
variable {c : Config} {w : Width}

/-- The words of a block are too many for a word only if the number of slots is given. -/
theorem blockWords_layout : 2 ^ 64 ≤ (c.layout w).blockWords ↔
    ∃ p, c.pairs = some p ∧ 2 ^ 64 ≤ (w.words + 1) * p.toNat + reservedWords := by
  rw [layout]
  cases hpairs : c.pairs with
  | none =>
    have hle := Geometry.blockWords_ofBytes_le w.words c.blockBytes.toNat
    have hbytes := c.blockBytes.toNat_lt
    simp only [Geometry.ofWidth, reservedWords, reduceCtorEq, false_and, exists_false, iff_false] at hle ⊢
    omega
  | some p => simp [Geometry.blockWords, Geometry.slotWords, Geometry.keyRegion, Nat.add_mul]

/-- So are the words of a node's keys. -/
theorem keyRegion_layout : 2 ^ 64 ≤ (c.layout w).keyRegion ↔
    ∃ p, c.pairs = some p ∧ 2 ^ 64 ≤ w.words * p.toNat := by
  constructor
  · intro hge
    obtain ⟨p, hp, -⟩ := blockWords_layout.mp (Nat.le_trans hge (c.layout w).keyRegion_le_blockWords)
    refine ⟨p, hp, ?_⟩
    simpa only [layout, hp, Geometry.keyRegion] using hge
  · rintro ⟨p, hp, hge⟩
    simpa only [layout, hp, Geometry.keyRegion] using hge

theorem geometry_eq_overflow : c.geometry w = .error .overflow ↔
    ∃ p, c.pairs = some p ∧ 2 ^ 64 ≤ w.words * p.toNat := by
  rw [← keyRegion_layout, geometry, Geometry.keysChecked]
  constructor
  · intro h
    by_contra hlt
    rw [if_pos (Nat.not_le.mp hlt)] at h
    cases h
  · intro hle
    rw [if_neg (Nat.not_lt.mpr hle)]
    rfl

/-- What a configuration answers whose keys can be counted. -/
theorem geometry_of_keyRegion (hkeys : (c.layout w).keyRegion < 2 ^ 64) : c.geometry w =
    .ok (if (c.layout w).pairs < 2 then .error (.violated (.tooFewPairs (c.layout w))) else .ok (c.layout w)) := by
  rw [geometry, Geometry.keysChecked, if_pos hkeys]
  rfl

theorem blockWords_of_few (hfew : (c.layout w).pairs < 2) : (c.layout w).blockWords < 2 ^ 64 := by
  have hkeys : (c.layout w).keyRegion ≤ 2 * 1 := by
    rw [Geometry.keyRegion, keyLength_layout]
    exact Nat.mul_le_mul (by cases w <;> decide) (Nat.le_of_lt_succ hfew)
  rw [Geometry.blockWords, Geometry.slotWords, reservedWords]
  omega

/-- Where the keys of a node can be counted and its block cannot, the geometry is accepted all the same. -/
theorem geometry_not_usable (hkeys : (c.layout w).keyRegion < 2 ^ 64)
    (hblock : 2 ^ 64 ≤ (c.layout w).blockWords) :
    c.geometry w = .ok (.ok (c.layout w)) ∧ ¬(c.layout w).Usable := by
  have hsplits : ¬(c.layout w).pairs < 2 := fun hfew => Nat.not_lt.mpr hblock (blockWords_of_few hfew)
  refine ⟨?_, fun husable => Nat.not_lt.mpr hblock husable.blockWords⟩
  rw [geometry_of_keyRegion hkeys, if_neg hsplits]

/-- A configuration is refused for having too few slots, or its geometry can be used, unless a number of slots is
given that cannot be laid out. -/
theorem geometry_usable (hfits : ∀ p, c.pairs = some p → (w.words + 1) * p.toNat + reservedWords < 2 ^ 64) :
    ((c.layout w).pairs < 2 ∧ c.geometry w = .ok (.error (.violated (.tooFewPairs (c.layout w))))) ∨
      (c.geometry w = .ok (.ok (c.layout w)) ∧ (c.layout w).Usable) := by
  have hlt : (c.layout w).blockWords < 2 ^ 64 := by
    by_contra hge
    obtain ⟨p, hp, hlarge⟩ := blockWords_layout.mp (Nat.not_lt.mp hge)
    exact Nat.not_lt.mpr hlarge (hfits p hp)
  rw [geometry_of_keyRegion (Nat.lt_of_le_of_lt (c.layout w).keyRegion_le_blockWords hlt)]
  by_cases hfew : (c.layout w).pairs < 2
  · exact Or.inl ⟨hfew, by rw [if_pos hfew]⟩
  · exact Or.inr ⟨by rw [if_neg hfew], Geometry.usable_of_lt (Nat.not_lt.mp hfew) hlt⟩

/-- The most slots that can be given for keys of two words. -/
theorem geometry_usable_at_most : (2 + 1) * 6148914691236517204 + reservedWords = 2 ^ 64 - 1 ∧
    Config.geometry { pairs := some 6148914691236517204 } .bits128 = .ok (.ok ⟨2, 6148914691236517204⟩) ∧
    (⟨2, 6148914691236517204⟩ : Geometry).Usable := by
  refine ⟨by decide, ?_⟩
  have hfits : ∀ p, some (6148914691236517204 : Word) = some p →
      (Width.bits128.words + 1) * p.toNat + reservedWords < 2 ^ 64 := by
    rintro p ⟨⟩
    decide
  have husable := geometry_usable (c := { pairs := some 6148914691236517204 }) (w := .bits128) hfits
  rcases husable with ⟨hfew, -⟩ | husable
  · exact absurd hfew (by decide)
  · exact husable

/-- A number of slots whose keys alone have more words than a word can count is neither refused nor laid out. -/
theorem not_usable_of_huge : Config.geometry { pairs := some 9223372036854775808 } .bits128 = .error .overflow ∧
    ¬((∃ e, Config.geometry { pairs := some 9223372036854775808 } .bits128 = .ok (.error (.violated e))) ∨
      ∃ g, Config.geometry { pairs := some 9223372036854775808 } .bits128 = .ok (.ok g) ∧ g.Usable) := by
  have hover : Config.geometry { pairs := some 9223372036854775808 } .bits128 = .error .overflow :=
    geometry_eq_overflow.mpr ⟨_, rfl, by decide⟩
  refine ⟨hover, ?_⟩
  rw [hover]
  rintro (⟨e, h⟩ | ⟨g, h, -⟩) <;> cases h

end Config

/-- No tree is made with blocks whose words cannot be counted, whether the keys of a node can be or not. -/
theorem Tree.ofConfig_eq_overflow {c : Config} {w : Width} :
    (Tree.ofConfig c : Except Fault (Except Error (Tree w))) = .error .overflow ↔
      ∃ p, c.pairs = some p ∧ 2 ^ 64 ≤ (w.words + 1) * p.toNat + reservedWords := by
  rw [← Config.blockWords_layout]
  constructor
  · intro h
    by_contra hlt
    rw [Nat.not_le] at hlt
    have hkeys := Nat.lt_of_le_of_lt (c.layout w).keyRegion_le_blockWords hlt
    rw [Tree.ofConfig, Config.geometry_of_keyRegion hkeys] at h
    by_cases hfew : (c.layout w).pairs < 2
    · rw [if_pos hfew] at h
      cases h
    · -- making the pool can fail as well, but in another way
      rw [if_neg hfew] at h
      simp only [bind, Except.bind, Geometry.checked, if_pos hlt, Pool.create] at h
      by_cases hreserve : c.reserve.toNat * Block.bytes Node ≤ addressable
      · rw [if_pos hreserve] at h
        cases h
      · rw [if_neg hreserve] at h
        cases h
  · intro hge
    rw [Tree.ofConfig]
    by_cases hkeys : (c.layout w).keyRegion < 2 ^ 64
    · rw [(Config.geometry_not_usable hkeys hge).1]
      simp only [bind, Except.bind, Geometry.checked, if_neg (Nat.not_lt.mpr hge)]
    · rw [Config.geometry_eq_overflow.mpr (Config.keyRegion_layout.mp (Nat.not_lt.mp hkeys))]
      rfl

end MemoTree
