import MemoTree.Proofs.Ranges
import MemoTree.Proofs.Reachable
import Mathlib.Data.Set.Card

/-! # What can be read from a tree

The nodes of a tree are those that can be reached from its root through the handles in the slots of the nodes above
(`Tree.At`), and its entries are the used slots of the nodes on the lowest level. Both are read from the blocks of the
pool alone. In a whole tree they are the levels and the pairs of its rows. -/

namespace MemoTree
open Pool NodePool Rows

namespace Tree
variable {w : Width}

/-- The handles in the slots of nodes lead from the root to `h`, which is `d` levels below it. The separator on the way
is a lower bound for the keys of `h`, and the separator in the slot before it, or else an upper bound for the parent, is
an upper bound. -/
inductive At (t : Tree w) : (d : Nat) → (h : Handle) → (lower upper : Option Nat) → Prop
  | root {r : Handle} : t.root = some r → At t 0 r none none
  | first {d : Nat} {h k : Handle} {lower upper : Option Nat} {n : Node} {key : Words} : At t d h lower upper →
      d + 1 < t.height → t.pool.block h = .ok n → n.child t.geometry 0 = .ok (some k) → n.key t.geometry 0 = .ok key →
      At t (d + 1) k (some key.toNat) upper
  | next {d i : Nat} {h k : Handle} {lower upper : Option Nat} {n : Node} {key before : Words} : At t d h lower upper →
      d + 1 < t.height → t.pool.block h = .ok n → n.child t.geometry (i + 1) = .ok (some k) →
      n.key t.geometry (i + 1) = .ok key → n.key t.geometry i = .ok before →
      At t (d + 1) k (some key.toNat) (some before.toNat)

/-- `h` is a node of the tree, `d` levels below its root. -/
def Has (t : Tree w) (d : Nat) (h : Handle) : Prop := ∃ lower upper, t.At d h lower upper

/-- `h` is a node of the tree. -/
def Linked (t : Tree w) (h : Handle) : Prop := ∃ d, t.Has d h

/-- `h` is a node of the tree above the lowest level. -/
def Inner (t : Tree w) (h : Handle) : Prop := ∃ d, t.Has d h ∧ d + 1 < t.height

/-- `h` is a node of the tree on the lowest level. -/
def Leaf (t : Tree w) (h : Handle) : Prop := t.Has (t.height - 1) h

/-- Slot `i` of the node `h` is used: it holds `key` and `value`. -/
def Uses (t : Tree w) (h : Handle) (i : Nat) (key : Words) (value : Word) : Prop :=
  ∃ n, t.pool.block h = .ok n ∧ n.pair t.geometry i = .ok (key, value) ∧ value ≠ 0

end Tree

theorem encard_of_list {α : Type} {s : Set α} {l : List α} (hn : l.Nodup) (hs : ∀ x, x ∈ s ↔ x ∈ l) :
    s.encard = l.length := by
  classical
  have hset : s = (l.toFinset : Set α) := Set.ext fun x => by
    rw [hs, Finset.mem_coe, List.mem_toFinset]
  rw [hset, Set.encard_coe_eq_coe_finsetCard, List.toFinset_card_of_nodup hn]

/-! ### Reading used slots -/

theorem Node.of_pair {g : Geometry} {n : Node} {i : Nat} {key : Words} {v : Word} (h : n.pair g i = .ok (key, v)) :
    n.key g i = .ok key ∧ n.value g i = .ok v := by
  obtain ⟨key', hk, h⟩ := Fault.of_bind h
  obtain ⟨v', hv, h⟩ := Fault.of_bind h
  cases h
  exact ⟨hk, hv⟩

namespace Packs
variable {g : Geometry} {n : Node} {row : Row} {i : Nat}

/-- A word that is not zero is read from a used slot only. -/
theorem of_value {v : Word} (hp : Packs g n.words row) (hv : n.value g i = .ok v) (hne : v ≠ 0) :
    ∃ e, row[i]? = some e ∧ e.2 = v := by
  rcases Nat.lt_or_ge i row.length with hi | hi
  · have he : row[i]? = some row[i] := List.getElem?_eq_getElem hi
    rw [hp.value_eq he] at hv
    exact ⟨_, he, Except.ok.inj hv⟩
  rcases Nat.lt_or_ge i g.pairs with hlt | hge
  · rw [hp.value_free hi hlt] at hv
    exact absurd (Except.ok.inj hv).symm hne
  · have hsize := hp.lays.size
    rw [Node.value, Array.getElem?_eq_none (by rw [hsize, Geometry.slotWords]; omega)] at hv
    cases hv

theorem of_child {k : Handle} (hp : Packs g n.words row) (hk : n.child g i = .ok (some k)) :
    ∃ e, row[i]? = some e ∧ e.child = some k := by
  obtain ⟨v, hv, hk⟩ := Fault.of_bind hk
  have hword : Handle.ofWord? v = some k := Except.ok.inj hk
  obtain ⟨e, he, rfl⟩ := hp.of_value hv fun h0 => by
    rw [h0] at hword
    cases hword
  exact ⟨e, he, hword⟩

theorem pair_eq (hp : Packs g n.words row) {e : Pair} (he : row[i]? = some e) :
    n.pair g i = .ok (Words.ofNat g.keyLength e.1, e.2) := hp.lays.pair_eq (used_slot he)

theorem of_pair {key : Words} {v : Word} (hp : Packs g n.words row) (hk : n.pair g i = .ok (key, v)) (hne : v ≠ 0) :
    ∃ e, row[i]? = some e ∧ e.2 = v ∧ key = Words.ofNat g.keyLength e.1 := by
  obtain ⟨e, he, hev⟩ := hp.of_value (Node.of_pair hk).2 hne
  rw [hp.pair_eq he] at hk
  exact ⟨e, he, hev, (Prod.mk.inj (Except.ok.inj hk)).1.symm⟩

theorem toNat_key (hp : Packs g n.words row) {e : Pair} {key : Words} (he : row[i]? = some e)
    (hk : n.key g i = .ok key) : key.toNat = e.1 := by
  rw [hp.key_eq he] at hk
  cases hk
  exact Words.toNat_ofNat (hp.small (List.mem_of_getElem? he))

/-- The words of a node tell its row. -/
theorem unique {row' : Row} (hp : Packs g n.words row) (hp' : Packs g n.words row') : row' = row := by
  have hlength : row'.length = row.length := Except.ok.inj (hp'.fill_eq.symm.trans hp.fill_eq)
  refine List.ext_getElem hlength fun i hi' hi => ?_
  have hpair := hp.pair_eq (List.getElem?_eq_getElem hi)
  rw [hp'.pair_eq (List.getElem?_eq_getElem hi'), Except.ok.injEq, Prod.mk.injEq] at hpair
  exact Prod.ext (Words.ofNat_inj (hp'.small (List.getElem_mem hi')) (hp.small (List.getElem_mem hi)) hpair.1) hpair.2

end Packs

/-! ### The nodes of whole trees -/

section Trees
variable {w : Width} {t : Tree w} {c : Rows} {r h k : Handle} {d i : Nat} {lower upper : Option Nat} {row : Row}

namespace Rooted

/-- What is in a slot of a node. -/
theorem of_child (hr : Rooted t c r) (hi : d ≤ t.height - 1) (hh : h ∈ c.level r d) {n : Node}
    (hn : t.pool.block h = .ok n) (hk : n.child t.geometry i = .ok (some k)) :
    ∃ e, (c h)[i]? = some e ∧ e.child = some k ∧ Packs t.geometry n.words (c h) := by
  have hpacks := hr.stand.stock.packs h n hn (hr.live_level hi hh)
  obtain ⟨e, he, hek⟩ := hpacks.of_child hk
  exact ⟨e, he, hek, hpacks⟩

/-- The pairs on the levels of a tree can be read from its blocks. -/
theorem pairs_unique {c' : Rows} {r' : Handle} (hr : Rooted t c r) (hr' : Rooted t c' r') (hd : d ≤ t.height - 1) :
    c'.pairs r' d = c.pairs r d := by
  obtain rfl : r' = r := Option.some.inj (hr'.stand.root.symm.trans hr.stand.root)
  have hrow : ∀ i ≤ t.height - 1, ∀ h ∈ c.level r' i, c' h = c h := fun i hi h hh => by
    have hlive := hr.live_level hi hh
    obtain ⟨n, hn, hpacks⟩ := hr.stand.stock.node hlive
    exact hpacks.unique (hr'.stand.stock.packs h n hn hlive)
  rw [pairs, pairs, level_congr fun j hj => hrow j (by omega)]
  exact List.flatMap_congr (hrow d hd)

/-- The nodes that can be reached are on the levels of the tree, and the bounds for their keys are their ranges. -/
theorem of_at (hr : Rooted t c r) (ha : t.At d h lower upper) :
    d ≤ t.height - 1 ∧ h ∈ c.level r d ∧ c.Within r d h lower upper := by
  induction ha with
  | root hroot =>
    obtain rfl := Option.some.inj (hroot.symm.trans hr.stand.root)
    exact ⟨Nat.zero_le _, List.mem_singleton_self _, within_root c _⟩
  | first _ hd hn hk hkey ih =>
    obtain ⟨hle, hh, hw⟩ := ih
    obtain ⟨e, he, hek, hpacks⟩ := hr.of_child hle hh hn hk
    rw [hpacks.toNat_key he hkey]
    exact ⟨by omega, mem_level_succ.mpr ⟨_, hh, mem_kids.mpr ⟨e, List.mem_of_getElem? he, hek⟩⟩,
      hr.sound.within_child (by omega) hh hw he hek⟩
  | @next d i h k lower upper n key before _ hd hn hk hkey hbefore ih =>
    obtain ⟨hle, hh, hw⟩ := ih
    obtain ⟨e, he, hek, hpacks⟩ := hr.of_child hle hh hn hk
    have hi : i < (c h).length := by
      have := (List.getElem?_eq_some_iff.mp he).1
      omega
    obtain ⟨b, hb⟩ : ∃ b, (c h)[i]? = some b := ⟨_, List.getElem?_eq_getElem hi⟩
    have hceiling : (c h).ceiling (i + 1) upper = some b.1 := by
      rw [Row.ceiling, if_neg (Nat.succ_ne_zero i), Nat.add_sub_cancel, hb]
      rfl
    rw [hpacks.toNat_key he hkey, hpacks.toNat_key hb hbefore, ← hceiling]
    exact ⟨by omega, mem_level_succ.mpr ⟨_, hh, mem_kids.mpr ⟨e, List.mem_of_getElem? he, hek⟩⟩,
      hr.sound.within_child (by omega) hh hw he hek⟩

/-- Every node on a level of the tree can be reached. -/
theorem has (hr : Rooted t c r) (hd : d ≤ t.height - 1) (hh : h ∈ c.level r d) : t.Has d h := by
  induction d generalizing h with
  | zero =>
    obtain rfl := List.mem_singleton.mp hh
    exact ⟨none, none, .root hr.stand.root⟩
  | succ d ih =>
    obtain ⟨p, hp, hk⟩ := mem_level_succ.mp hh
    obtain ⟨e, he, hek⟩ := mem_kids.mp hk
    obtain ⟨lower, upper, ha⟩ := ih (by omega) hp
    obtain ⟨n, hn, hpacks⟩ := hr.stand.stock.node (hr.live_level (by omega) hp)
    obtain ⟨i, hi, hie⟩ := List.getElem_of_mem he
    have hslot : (c p)[i]? = some e := by rw [List.getElem?_eq_getElem hi, hie]
    have hchild := (hpacks.child_eq hslot).trans (congrArg Except.ok hek)
    cases i with
    | zero => exact ⟨_, _, .first ha (by omega) hn hchild (hpacks.key_eq hslot)⟩
    | succ i =>
      exact ⟨_, _, .next ha (by omega) hn hchild (hpacks.key_eq hslot)
        (hpacks.key_eq (List.getElem?_eq_getElem (by omega)))⟩

theorem has_iff (hr : Rooted t c r) : t.Has d h ↔ d ≤ t.height - 1 ∧ h ∈ c.level r d := by
  refine ⟨fun ⟨lower, upper, ha⟩ => ?_, fun ⟨hd, hh⟩ => hr.has hd hh⟩
  obtain ⟨hd, hh, -⟩ := hr.of_at ha
  exact ⟨hd, hh⟩

theorem leaf_iff (hr : Rooted t c r) : t.Leaf h ↔ h ∈ c.level r (t.height - 1) :=
  hr.has_iff.trans ⟨fun h => h.2, fun h => ⟨Nat.le_refl _, h⟩⟩

end Rooted

theorem Bare.not_at (hb : Bare t) : ¬t.At d h lower upper := fun ha => by
  induction ha with
  | root hroot =>
    rw [hb.root] at hroot
    cases hroot
  | first _ _ _ _ _ ih => exact ih
  | next _ _ _ _ _ _ ih => exact ih

theorem Whole.len_eq (hw : Whole t row) (hr : Rooted t c r) : t.len = (c.pairs r (t.height - 1)).length := by
  rcases hw.state with ⟨hb, -⟩ | ⟨c', r', hr', hperm⟩
  · have := hr.tall
    rw [hb.height] at this
    exact absurd this (Nat.lt_irrefl 0)
  · rw [hw.len, hperm.length_eq, hr.pairs_unique hr' (Nat.le_refl _)]

/-- The nodes of a whole tree are the nodes of its pool that are in use. -/
theorem Whole.linked_iff (hw : Whole t row) : t.Linked h ↔ t.pool.Live h := by
  rcases hw.state with ⟨hb, -⟩ | ⟨c, r, hr, -⟩
  · exact ⟨fun ⟨_, _, _, ha⟩ => absurd ha hb.not_at, fun hl => absurd hl (hb.unused h)⟩
  · rw [hr.live, mem_under]
    exact ⟨fun ⟨d, hd⟩ => ⟨d, hr.has_iff.mp hd⟩, fun ⟨d, hd⟩ => ⟨d, hr.has_iff.mpr hd⟩⟩

/-- The pairs of a whole tree are what its leaves hold. -/
theorem Whole.mem_iff (hw : Whole t row) {e : Pair} :
    e ∈ row ↔ ∃ h i, t.Leaf h ∧ t.Uses h i (Words.ofNat w.words e.1) e.2 ∧ e.1 < 2 ^ w.bits := by
  rcases hw.state with ⟨hb, rfl⟩ | ⟨c, r, hr, hperm⟩
  · exact ⟨fun he => (by cases he), fun ⟨_, _, ⟨_, _, ha⟩, _⟩ => absurd ha hb.not_at⟩
  · rw [hperm.mem_iff, mem_pairs]
    constructor
    · rintro ⟨h, hh, he⟩
      obtain ⟨n, hn, hpacks⟩ := hr.stand.stock.node (hr.live_level (Nat.le_refl _) hh)
      obtain ⟨i, hi, hie⟩ := List.getElem_of_mem he
      exact ⟨h, i, hr.leaf_iff.mpr hh,
        ⟨n, hn, hpacks.pair_eq (by rw [List.getElem?_eq_getElem hi, hie]), hpacks.used e he⟩,
        hr.sound.small_level (Nat.le_refl _) hh he⟩
    · rintro ⟨h, i, hleaf, ⟨n, hn, hpair, hne⟩, hlt⟩
      have hh := hr.leaf_iff.mp hleaf
      have hpacks := hr.stand.stock.packs h n hn (hr.live_level (Nat.le_refl _) hh)
      obtain ⟨a, ha, hae, hkey⟩ := hpacks.of_pair hpair hne
      have hmem := List.mem_of_getElem? ha
      have heq : e.1 = a.1 := Words.ofNat_inj (Nat.lt_of_lt_of_le hlt (Key.pow_bits_le w)) (hpacks.small hmem) hkey
      exact ⟨h, hh, (Prod.ext heq hae.symm : e = a) ▸ hmem⟩

/-- A used slot of a leaf holds a pair. -/
theorem Whole.of_uses (hw : Whole t row) {key : Words} {value : Word} (hl : t.Leaf h) (hu : t.Uses h i key value) :
    ∃ e ∈ row, key = Words.ofNat w.words e.1 ∧ value = e.2 := by
  rcases hw.state with ⟨hb, rfl⟩ | ⟨c, r, hr, hperm⟩
  · obtain ⟨_, _, ha⟩ := hl
    exact absurd ha hb.not_at
  · obtain ⟨n, hn, hpair, hne⟩ := hu
    have hh := hr.leaf_iff.mp hl
    have hpacks := hr.stand.stock.packs h n hn (hr.live_level (Nat.le_refl _) hh)
    obtain ⟨e, he, hev, hkey⟩ := hpacks.of_pair hpair hne
    exact ⟨e, hperm.mem_iff.mpr (mem_pairs.mpr ⟨h, hh, List.mem_of_getElem? he⟩), hkey, hev.symm⟩

end Trees
end MemoTree
