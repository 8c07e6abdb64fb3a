import MemoTree.Proofs.Predecessors
import MemoTree.Proofs.Validation
import Mathlib.Data.List.Chain

/-! # What a check says that passes

On its way down from the root a check looks at every slot of every node that it comes to. If it finds no violation,
each of these nodes shows a row (`Node.row`), and the keys of a node are within the bounds that it was checked with,
so that scans lead to it. So the tree can be read, whatever state it is in. A node may be on several levels, and even
be its own child, but it is not twice on one level: the bounds of two nodes of a level do not meet, and no node is
empty. -/

namespace MemoTree
open Pool NodePool Rows

namespace Passes
variable {α β : Type} {a : α} {b : β} {m m' : Check α}

theorem of_bind {f : α → Check β} (h : Passes (m >>= f) b) : ∃ a, Passes m a ∧ Passes (f a) b := by
  change (m.run >>= ExceptT.bindCont f : Except Fault (Except Violation β)) = _ at h
  obtain ⟨r, hm, h⟩ := Fault.of_bind h
  cases r with
  | error violation => cases h
  | ok a => exact ⟨a, hm, h⟩

theorem of_lift {e : Except Fault α} (h : Passes (liftM e : Check α) a) : e = .ok a := by
  cases e with
  | error fault => cases h
  | ok b =>
    cases h
    rfl

theorem of_pure {a' : α} (h : Passes (Pure.pure a' : Check α) a) : a' = a := by
  cases h
  rfl

theorem not_throw (v : Violation) (a : α) : ¬Passes (throw v : Check α) a := fun h => by cases h

theorem not_throw_bind {v : Violation} {f : β → Check α} : ¬Passes (throw v >>= f) a := fun h => by
  obtain ⟨b, hb, -⟩ := h.of_bind
  exact not_throw v b hb

theorem of_unless {c : Prop} [Decidable c] (h : Passes (if c then m' else m) a) (hm : ¬Passes m' a) :
    ¬c ∧ Passes m a := by
  by_cases hc : c
  · rw [if_pos hc] at h
    exact absurd h hm
  · rw [if_neg hc] at h
    exact ⟨hc, h⟩

theorem of_guard {c : Prop} [Decidable c] {e : Except Fault β} {bad : β → Prop} [DecidablePred bad] {v : Violation}
    {rest : Unit → Check α} (h : Passes (if c then do
        let b ← liftM e
        if bad b then do
          let r ← throw v
          rest r
        else rest ()
      else rest ()) a) : (c → ∃ b, e = .ok b ∧ ¬bad b) ∧ Passes (rest ()) a := by
  by_cases hc : c
  · rw [if_pos hc] at h
    obtain ⟨b, hb, h⟩ := of_bind h
    obtain ⟨hbad, hrest⟩ := of_unless h not_throw_bind
    exact ⟨fun _ => ⟨b, of_lift hb, hbad⟩, hrest⟩
  · rw [if_neg hc] at h
    exact ⟨fun hpos => absurd hpos hc, h⟩

theorem of_forM {l : List α} {f : α → Check Unit} (h : Passes (l.forM f) ()) : ∀ x ∈ l, Passes (f x) () := by
  induction l with
  | nil => exact fun x hx => (by cases hx)
  | cons x l ih =>
    obtain ⟨⟨⟩, hx, hl⟩ := of_bind h
    intro y hy
    rcases List.mem_cons.mp hy with rfl | hy
    · exact hx
    · exact ih hl y hy

/-- A check of the first slots, one after the other. -/
theorem of_foldlM {f : α → Nat → Check α} {fill : Nat} {a' : α} (h : Passes ((List.range fill).foldlM f a) a') :
    ∃ total : Nat → α, total 0 = a ∧ total fill = a' ∧ ∀ i < fill, Passes (f (total i) i) (total (i + 1)) := by
  induction fill generalizing a' with
  | zero => exact ⟨fun _ => a, rfl, of_pure h, fun i hi => absurd hi (Nat.not_lt_zero i)⟩
  | succ fill ih =>
    rw [List.range_succ, List.foldlM_append] at h
    obtain ⟨b, hb, hlast⟩ := of_bind h
    obtain ⟨total, hzero, rfl, hf⟩ := ih hb
    rw [List.foldlM_cons] at hlast
    obtain ⟨b', hb', hpure⟩ := of_bind hlast
    obtain rfl := of_pure hpure
    -- the totals up to the last slot, and then what its check answers
    refine ⟨fun i => if i ≤ fill then total i else b', ?_, ?_, fun i hi => ?_⟩
    · exact (if_pos (Nat.zero_le _)).trans hzero
    · exact if_neg (by omega)
    · show Passes (f (if i ≤ fill then total i else b') i) (if i + 1 ≤ fill then total (i + 1) else b')
      rw [if_pos (Nat.le_of_lt_succ hi)]
      rcases Nat.lt_or_eq_of_le (Nat.le_of_lt_succ hi) with hlt | rfl
      · rw [if_pos (Nat.succ_le_of_lt hlt)]
        exact hf i hlt
      · rw [if_neg (Nat.not_succ_le_self i)]
        exact hb'

end Passes

/-! ### Nodes -/

/-- The key, as a number, and the value word that are read from a slot. -/
def Node.slot (g : Geometry) (n : Node) (i : Nat) : Pair :=
  (Words.toNat ((n.key g i).toOption.getD []), (n.value g i).toOption.getD 0)

/-- The pairs that are read from the used slots. -/
def Node.row (g : Geometry) (n : Node) : Row := (List.range ((n.fill g).toOption.getD 0)).map (n.slot g)

namespace Node
variable {g : Geometry} {n : Node} {i fill : Nat} {key : Words}

theorem of_fill (h : n.fill g = .ok fill) : fill ≤ g.pairs ∧ ∀ i < fill, ∃ v, n.value g i = .ok v ∧ v ≠ 0 := by
  rw [Node.fill, fillFrom, Nat.min_eq_left (Nat.zero_le _), Nat.sub_zero] at h
  obtain ⟨-, hle, hbefore⟩ := of_firstSlot h
  refine ⟨by omega, fun i hi => ?_⟩
  obtain ⟨v, hv, hused⟩ := Fault.of_bind (hbefore i (Nat.zero_le i) hi)
  refine ⟨v, hv, ?_⟩
  rintro rfl
  cases hused

theorem length_row (h : n.fill g = .ok fill) : (n.row g).length = fill := by
  rw [Node.row, h, List.length_map]
  exact List.length_range

theorem getElem?_slots {e : Pair} : ((List.range fill).map (n.slot g))[i]? = some e ↔ i < fill ∧ n.slot g i = e := by
  simp only [List.getElem?_map, Option.map_eq_some_iff, List.getElem?_eq_some_iff,
    List.length_range, List.getElem_range]
  constructor
  · rintro ⟨j, ⟨hi, rfl⟩, he⟩
    exact ⟨hi, he⟩
  · rintro ⟨hi, he⟩
    exact ⟨i, ⟨hi, rfl⟩, he⟩

theorem length_key (h : n.key g i = .ok key) : key.length = g.keyLength := by
  rw [Node.key] at h
  split at h
  · cases h
    simp
    omega
  · cases h

theorem key_words (h : n.key g i = .ok key) : key = Words.ofNat g.keyLength (Words.toNat key) := by
  rw [← length_key h, Words.ofNat_toNat]

theorem clear_of_clearAt (h : n.clearAt g i = .ok true) :
    n.key g i = .ok (Words.ofNat g.keyLength 0) ∧ n.value g i = .ok 0 := by
  obtain ⟨key, hk, h⟩ := Fault.of_bind h
  split at h
  · rename_i hzero
    obtain ⟨v, hv, h⟩ := Fault.of_bind h
    have hv0 : (v == 0) = true := Except.ok.inj h
    rw [key_words hk, (Words.isZero_iff key).mp hzero] at hk
    rw [beq_iff_eq.mp hv0] at hv
    exact ⟨hk, hv⟩
  · cases h

end Node

/-- A node whose first slots are used and whose others are zero shows what is read from the first ones. -/
theorem Shows.of_slots {g : Geometry} {n : Node} {fill : Nat} (hle : fill ≤ g.pairs)
    (hused : ∀ i < fill, ∃ key v, n.key g i = .ok key ∧ n.value g i = .ok v ∧ v ≠ 0)
    (hfree : ∀ i, fill ≤ i → i < g.pairs → n.key g i = .ok (Words.ofNat g.keyLength 0) ∧ n.value g i = .ok 0) :
    Shows g n ((List.range fill).map (n.slot g)) := by
  have hlen : ((List.range fill).map (n.slot g)).length = fill := by rw [List.length_map, List.length_range]
  have hslot : ∀ i < fill, n.key g i = .ok (Words.ofNat g.keyLength (n.slot g i).1) ∧
      (n.slot g i).1 < 2 ^ (64 * g.keyLength) ∧ n.value g i = .ok (n.slot g i).2 ∧ (n.slot g i).2 ≠ 0 := by
    intro i hi
    obtain ⟨key, v, hkey, hv, hv0⟩ := hused i hi
    have hsmall := Words.toNat_lt key
    rw [Node.length_key hkey] at hsmall
    rw [Node.slot, hkey, hv]
    exact ⟨congrArg Except.ok (Node.key_words hkey), hsmall, rfl, hv0⟩
  have hmem : ∀ e ∈ (List.range fill).map (n.slot g), ∃ i < fill, n.slot g i = e := by simp
  constructor
  case length_le => exact hlen.trans_le hle
  case small =>
    intro e he
    obtain ⟨i, hi, rfl⟩ := hmem e he
    exact (hslot i hi).2.1
  case used =>
    intro e he
    obtain ⟨i, hi, rfl⟩ := hmem e he
    exact (hslot i hi).2.2.2
  case key =>
    intro i e he
    obtain ⟨hi, rfl⟩ := Node.getElem?_slots.mp he
    exact (hslot i hi).1
  case value =>
    intro i e he
    obtain ⟨hi, rfl⟩ := Node.getElem?_slots.mp he
    exact (hslot i hi).2.2.1
  case key_free =>
    intro i hi hlt
    exact (hfree i (hlen ▸ hi) hlt).1
  case value_free =>
    intro i hi hlt
    exact (hfree i (hlen ▸ hi) hlt).2

section Nodes
variable {g : Geometry} {n : Node} {h : Handle} {i fill depth : Nat} {key : Words}

theorem Passes.of_checkUnused (hc : Passes (Tree.checkUnused g h n fill) ()) (hi : fill ≤ i) (hlt : i < g.pairs) :
    n.key g i = .ok (Words.ofNat g.keyLength 0) ∧ n.value g i = .ok 0 := by
  obtain ⟨b, hb, hc⟩ := Passes.of_bind (Passes.of_forM hc i (List.mem_range'_1.mpr ⟨hi, by omega⟩))
  obtain ⟨hclear, -⟩ := Passes.of_unless hc (Passes.not_throw _ _)
  have hb : n.clearAt g i = .ok b := Passes.of_lift hb
  cases b with
  | false => exact absurd rfl hclear
  | true => exact Node.clear_of_clearAt hb

theorem Passes.of_checkKeys {lower upper : Option Words} (hc : Passes (Tree.checkKeys g h n fill lower upper) ())
    (hi : i < fill) : ∃ key, n.key g i = .ok key ∧ (0 < i → n.compareKey g (i - 1) key = .ok .gt) ∧
      (∀ l ∈ lower, Words.compare key l ≠ .lt) ∧ ∀ u ∈ upper, Words.compare key u = .lt := by
  obtain ⟨key, hkey, hc⟩ := Passes.of_bind (Passes.of_forM hc i (List.mem_range.mpr hi))
  -- the key before is looked at first, then the lower bound, then the upper one
  obtain ⟨hprev, hc⟩ := Passes.of_guard hc
  refine ⟨key, Passes.of_lift hkey, fun hpos => ?_, fun l hl => ?_, fun u hu => ?_⟩
  · obtain ⟨o, ho, hgt⟩ := hprev hpos
    have hgt : o = .gt := by simpa using hgt
    rwa [hgt] at ho
  · cases hl
    simpa using (Passes.of_unless hc Passes.not_throw_bind).1
  · cases hu
    have hc : Passes (if (Words.compare key u != .lt) = true then throw (.reachesNeighbour h i) else Pure.pure ())
      () := by
      cases lower with
      | none => exact hc
      | some l => exact (Passes.of_unless hc Passes.not_throw_bind).2
    simpa using (Passes.of_unless hc (Passes.not_throw _ _)).1

/-- A node whose slots pass shows the row that is read from them. -/
theorem Passes.shows {lower upper : Option Words} (hfill : n.fill g = .ok fill)
    (hunused : Passes (Tree.checkUnused g h n fill) ()) (hkeys : Passes (Tree.checkKeys g h n fill lower upper) ()) :
    Shows g n (n.row g) := by
  obtain ⟨hle, hused⟩ := Node.of_fill hfill
  rw [Node.row, hfill]
  refine Shows.of_slots hle (fun i hi => ?_) fun i hi hlt => Passes.of_checkUnused hunused hi hlt
  obtain ⟨key, hkey, -⟩ := Passes.of_checkKeys hkeys hi
  obtain ⟨v, hv, hv0⟩ := hused i hi
  exact ⟨key, v, hkey, hv, hv0⟩

/-- Keys that pass descend within the bounds. -/
theorem Shows.between {row : Row} {lower upper : Option Nat} (hn : Shows g n row)
    (hkeys : Passes (Tree.checkKeys g h n row.length (lower.map (Words.ofNat g.keyLength))
      (upper.map (Words.ofNat g.keyLength))) ())
    (hlower : ∀ l ∈ lower, l < 2 ^ (64 * g.keyLength)) (hupper : ∀ u ∈ upper, u < 2 ^ (64 * g.keyLength)) :
    row.Descending ∧ row.Between g lower upper := by
  have hcheck : ∀ i e, row[i]? = some e → (0 < i → n.compareKey g (i - 1) (Words.ofNat g.keyLength e.1) = .ok .gt) ∧
      (∀ l ∈ lower, l ≤ e.1) ∧ ∀ u ∈ upper, e.1 < u := fun i e he => by
    obtain ⟨key, hkey, hprev, hlow, hup⟩ := Passes.of_checkKeys hkeys (List.getElem?_eq_some_iff.mp he).1
    obtain rfl : Words.ofNat g.keyLength e.1 = key := Except.ok.inj ((hn.key i e he).symm.trans hkey)
    have hsmall := hn.small e (List.mem_of_getElem? he)
    refine ⟨hprev, fun l hl => ?_, fun u hu => ?_⟩
    · have hcmp := hlow _ (Option.mem_map_of_mem _ hl)
      rwa [Words.compare_ofNat hsmall (hlower l hl), Ne, Nat.compare_eq_lt, Nat.not_lt] at hcmp
    · have hcmp := hup _ (Option.mem_map_of_mem _ hu)
      rwa [Words.compare_ofNat hsmall (hupper u hu), Nat.compare_eq_lt] at hcmp
  have hmem : ∀ e ∈ row, ∃ i, row[i]? = some e := fun e he => List.mem_iff_getElem?.mp he
  refine ⟨?_, fun l hl => ⟨hlower l hl, fun e he => ?_⟩, fun u hu => ⟨hupper u hu, fun e he => ?_⟩⟩
  · -- each key is compared with the one before it
    have : Trans (fun a b : Pair => b.1 < a.1) (fun a b : Pair => b.1 < a.1) fun a b : Pair => b.1 < a.1 :=
      ⟨fun hab hbc => hbc.trans hab⟩
    refine List.isChain_iff_pairwise.mp (List.isChain_iff_getElem.mpr fun i hi => ?_)
    have hlast := List.getElem?_eq_getElem hi
    have hcmp := (hcheck (i + 1) _ hlast).1 (Nat.succ_pos i)
    rw [Nat.add_sub_cancel, hn.compareKey_eq (List.getElem?_eq_getElem (by omega))
      (hn.small _ (List.mem_of_getElem? hlast))] at hcmp
    exact Nat.compare_eq_gt.mp (Except.ok.inj hcmp)
  · obtain ⟨i, hi⟩ := hmem e he
    exact (hcheck i e hi).2.1 l hl
  · obtain ⟨i, hi⟩ := hmem e he
    exact (hcheck i e hi).2.2 u hu

structure Node.Passed (g : Geometry) (n : Node) (lower upper : Option Nat) : Prop where
  shows : Shows g n (n.row g)
  ne_nil : n.row g ≠ []
  descending : (n.row g).Descending
  between : (n.row g).Between g lower upper

theorem Passes.of_checkNode {lower upper : Option Nat} (hc : Passes (Tree.checkNode g h n depth
      (lower.map (Words.ofNat g.keyLength)) (upper.map (Words.ofNat g.keyLength))) fill)
    (hlower : ∀ l ∈ lower, l < 2 ^ (64 * g.keyLength)) (hupper : ∀ u ∈ upper, u < 2 ^ (64 * g.keyLength)) :
    fill = (n.row g).length ∧ n.Passed g lower upper := by
  obtain ⟨-, hc⟩ := Passes.of_unless hc Passes.not_throw_bind
  obtain ⟨fill', hfill, hc⟩ := Passes.of_bind hc
  obtain ⟨hne, hc⟩ := Passes.of_unless hc Passes.not_throw_bind
  obtain ⟨⟨⟩, hunused, hc⟩ := Passes.of_bind hc
  obtain ⟨⟨⟩, hkeys, hc⟩ := Passes.of_bind hc
  obtain rfl := (Passes.of_pure hc).symm
  have hfill := Passes.of_lift hfill
  have hlen := Node.length_row hfill
  have hshows := Passes.shows hfill hunused hkeys
  rw [← hlen] at hkeys
  obtain ⟨hd, hb⟩ := hshows.between hkeys hlower hupper
  exact ⟨hlen.symm, hshows, fun hnil => hne (by rw [← hlen, hnil]; rfl), hd, hb⟩

end Nodes

/-! ### The check of a tree -/

/-- The rows that are read from the blocks. -/
def Tree.rows {w : Width} (t : Tree w) : Rows := fun h => (t.pool.block h).toOption.elim [] (Node.row t.geometry)

/-- The keys in the slots are keys of the width of the tree. -/
def Tree.Keyed {w : Width} (t : Tree w) : Prop := ∀ h n i key, t.pool.block h = .ok n → i < t.geometry.pairs →
  n.key t.geometry i = .ok key → ∃ k : Key w, key = k.toWords

section Trees
variable {w : Width} {t : Tree w} {c : Rows} {h : Handle} {d : Nat} {n : Node} {lower upper : Option Nat}

theorem Tree.rows_eq (hn : t.pool.block h = .ok n) : t.rows h = n.row t.geometry := by
  rw [Tree.rows, hn]
  rfl

/-- The nodes under `h`, down to `d` levels below it, pass with the bounds that the separators on the way to them
give. -/
def Tree.Fenced (t : Tree w) : (d : Nat) → (h : Handle) → (lower upper : Option Nat) → Prop
  | 0, h, lower, upper => ∃ n, t.pool.block h = .ok n ∧ n.Passed t.geometry lower upper
  | d + 1, h, lower, upper => (∃ n, t.pool.block h = .ok n ∧ n.Passed t.geometry lower upper) ∧
      ∀ j e, (t.rows h)[j]? = some e →
        ∃ k, Pair.child e = some k ∧ Fenced t d k (some e.1) ((t.rows h).ceiling j upper)

/-- What is under a node, down to `d` levels below it, can be read, and its keys are within the bounds of the node. -/
structure Tree.Clear (t : Tree w) (h : Handle) (d : Nat) (lower upper : Option Nat) : Prop where
  legible : Legible t t.rows h d
  between : ∀ i ≤ d, Row.Between t.geometry (t.rows.pairs h i) lower upper

namespace Tree.Clear

theorem single (hk : t.Keyed) (hn : t.pool.block h = .ok n) (hp : n.Passed t.geometry lower upper) :
    t.Clear h 0 lower upper := by
  have hrow := Tree.rows_eq hn
  refine ⟨.single ⟨n, hn, hrow ▸ hp.shows⟩ (hrow ▸ hp.ne_nil) (hrow ▸ hp.descending) fun e he => ?_, fun i hi => ?_⟩
  · rw [hrow] at he
    obtain ⟨i, hi⟩ := List.mem_iff_getElem?.mp he
    have hlt := (List.getElem?_eq_some_iff.mp hi).1
    obtain ⟨k, hkey⟩ := hk h n i _ hn (Nat.lt_of_lt_of_le hlt hp.shows.length_le) (hp.shows.key i e hi)
    rw [Words.ofNat_inj (hp.shows.small e he) (Nat.lt_of_lt_of_le k.isLt (Key.pow_bits_le w)) hkey]
    exact k.isLt
  · rw [Nat.le_zero.mp hi, pairs_zero, hrow]
    exact hp.between

/-- Each child has the keys from its separator on, up to the separator of its neighbour with larger keys. -/
theorem of_children (hnode : t.Clear h 0 lower upper) (hchildren : ∀ j e, (t.rows h)[j]? = some e →
    ∃ k, Pair.child e = some k ∧ t.Clear k d (some e.1) ((t.rows h).ceiling j upper)) :
    t.Clear h (d + 1) lower upper := by
  have hhere := List.mem_singleton_self h
  have hbetween := hnode.between 0 (Nat.le_refl 0)
  rw [pairs_zero] at hbetween
  refine ⟨.of_children hnode.legible fun e he => ?_, fun i hi => ?_⟩
  · obtain ⟨j, hj⟩ := List.mem_iff_getElem?.mp he
    obtain ⟨k, hek, hk⟩ := hchildren j e hj
    have hd := hnode.legible.searchable.descending 0 (Nat.le_refl 0) h hhere
    exact ⟨k, hek, hk.legible, fun i hi a ha => hd.scan_of_range hj (((hk.between i hi).lower e.1 rfl).2 a ha)
      fun u hu => ((hk.between i hi).upper u hu).2 a ha⟩
  · cases i with
    | zero => exact hnode.between 0 (Nat.zero_le 0)
    | succ i =>
      -- a pair below is under one of the slots, and the range of that slot is within that of the node
      have hbelow : ∀ a ∈ t.rows.pairs h (i + 1), ∃ j e k, (t.rows h)[j]? = some e ∧
          t.Clear k d (some e.1) ((t.rows h).ceiling j upper) ∧ a ∈ t.rows.pairs k i := fun a ha => by
        rw [pairs_succ] at ha
        obtain ⟨k, hk, ha⟩ := List.mem_flatMap.mp ha
        obtain ⟨e, he, hek⟩ := mem_kids.mp hk
        obtain ⟨j, hj⟩ := List.mem_iff_getElem?.mp he
        obtain ⟨k', hek', hclear⟩ := hchildren j e hj
        obtain rfl : k' = k := Option.some.inj (hek'.symm.trans hek)
        exact ⟨j, e, k', hj, hclear, ha⟩
      have hi := Nat.le_of_succ_le_succ hi
      refine ⟨fun l hl => ⟨(hbetween.lower l hl).1, fun a ha => ?_⟩, fun u hu =>
        ⟨(hbetween.upper u hu).1, fun a ha => ?_⟩⟩
      · obtain ⟨j, e, k, hj, hk, ha⟩ := hbelow a ha
        exact ((hbetween.lower l hl).2 e (List.mem_of_getElem? hj)).trans (((hk.between i hi).lower e.1 rfl).2 a ha)
      · obtain ⟨j, e, k, hj, hk, ha⟩ := hbelow a ha
        exact Row.lt_of_ceiling (List.getElem?_eq_some_iff.mp hj).1 (fun u' hu' =>
          ((hk.between i hi).upper u' hu').2 a ha) hu (hbetween.upper u hu).2

/-- Where the keys are keys of the width, what is fenced can be read. -/
theorem of_fenced (hk : t.Keyed) (hf : t.Fenced d h lower upper) : t.Clear h d lower upper := by
  induction d generalizing h lower upper with
  | zero =>
    obtain ⟨n, hn, hp⟩ := hf
    exact .single hk hn hp
  | succ d ih =>
    obtain ⟨⟨n, hn, hp⟩, hchildren⟩ := hf
    refine (single hk hn hp).of_children fun j e he => ?_
    obtain ⟨k, hek, hfenced⟩ := hchildren j e he
    exact ⟨k, hek, ih hfenced⟩

end Tree.Clear

/-- A count that is taken from child to child comes to what is under all of them. -/
theorem Rows.length_pairs_succ {total : Nat → Tally} (hcount : ∀ j e, (c h)[j]? = some e →
    ∃ k, Pair.child e = some k ∧ (total (j + 1)).entries = (total j).entries + (c.pairs k d).length) :
    (total (c h).length).entries = (total 0).entries + (c.pairs h (d + 1)).length := by
  have hupTo : ∀ m ≤ (c h).length, (total m).entries = (total 0).entries +
      ((((c h).take m).filterMap Pair.child).flatMap fun k => c.pairs k d).length := fun m hm => by
    induction m with
    | zero => rfl
    | succ m ih =>
      obtain ⟨k, hk, hnext⟩ := hcount m _ (List.getElem?_eq_getElem hm)
      rw [hnext, ih (Nat.le_of_succ_le hm), List.take_add_one, List.getElem?_eq_getElem hm, List.filterMap_append,
        List.flatMap_append, List.length_append, Option.toList_some, List.filterMap_cons_some hk, List.filterMap_nil,
        List.flatMap_singleton, Nat.add_assoc]
  rw [pairs_succ, kids, hupTo _ (Nat.le_refl _), List.take_length]

theorem Passes.of_checkChild {row : Row} {e : Pair} {j : Nat} {tally tally' : Tally} (hn : Shows t.geometry n row)
    (he : row[j]? = some e) (hc : Passes (do
      match ← n.child t.geometry j with
      | none => throw (.noChild h j)
      | some child =>
        let lower ← n.key t.geometry j
        let upper ← if j = 0 then Pure.pure (upper.map (Words.ofNat w.words)) else do
          Pure.pure (some (← n.key t.geometry (j - 1)))
        t.checkUnder d child (some lower) upper tally) tally') :
    ∃ k, Pair.child e = some k ∧ Passes (t.checkUnder d k ((some e.1).map (Words.ofNat w.words))
      ((row.ceiling j upper).map (Words.ofNat w.words)) tally) tally' := by
  obtain ⟨o, ho, hc⟩ := Passes.of_bind hc
  obtain rfl : Pair.child e = o := Except.ok.inj ((hn.child_eq he).symm.trans (Passes.of_lift ho))
  cases hk : Pair.child e with
  | none =>
    rw [hk] at hc
    exact absurd hc (Passes.not_throw _ _)
  | some k =>
    rw [hk] at hc
    obtain ⟨low, hlow, hc⟩ := Passes.of_bind hc
    obtain rfl : Words.ofNat w.words e.1 = low := Except.ok.inj ((hn.key j e he).symm.trans (Passes.of_lift hlow))
    refine ⟨k, rfl, ?_⟩
    rw [Row.ceiling]
    by_cases hj : j = 0
    · rw [if_pos hj] at hc ⊢
      obtain ⟨up, hup, hc⟩ := Passes.of_bind hc
      obtain rfl := Passes.of_pure hup
      exact hc
    · obtain ⟨b, hb⟩ : ∃ b, row[j - 1]? = some b :=
        ⟨_, List.getElem?_eq_getElem (by have := (List.getElem?_eq_some_iff.mp he).1; omega)⟩
      rw [if_neg hj] at hc ⊢
      obtain ⟨up, hup, hc⟩ := Passes.of_bind hc
      obtain rfl : Words.ofNat w.words b.1 = up := Except.ok.inj ((hn.key _ b hb).symm.trans (Passes.of_lift hup))
      obtain ⟨up, hup, hc⟩ := Passes.of_bind hc
      obtain rfl := Passes.of_pure hup
      rw [hb]
      exact hc

/-- What is under a node that passes is fenced, and its entries are counted. -/
theorem Passes.of_checkUnder (depth : Nat) : ∀ {h : Handle} {lower upper : Option Nat} {tally tally' : Tally},
    Passes (t.checkUnder depth h (lower.map (Words.ofNat w.words)) (upper.map (Words.ofNat w.words)) tally) tally' →
    (∀ l ∈ lower, l < 2 ^ (64 * w.words)) → (∀ u ∈ upper, u < 2 ^ (64 * w.words)) →
    t.Fenced depth h lower upper ∧ tally'.entries = tally.entries + (t.rows.pairs h depth).length := by
  -- on the depth: a child is checked with the bounds that its separator and the one before it give
  induction depth with
  | zero =>
    intro h lower upper tally tally' hc hlower hupper
    obtain ⟨n, hn, hc⟩ := Passes.of_bind hc
    obtain ⟨fill, hnode, hc⟩ := Passes.of_bind hc
    obtain rfl := Passes.of_pure hc
    have hn := Passes.of_lift hn
    obtain ⟨rfl, hpassed⟩ := Passes.of_checkNode hnode hlower hupper
    refine ⟨⟨n, hn, hpassed⟩, ?_⟩
    rw [pairs_zero, Tree.rows_eq hn]
  | succ depth ih =>
    intro h lower upper tally tally' hc hlower hupper
    obtain ⟨n, hn, hc⟩ := Passes.of_bind hc
    obtain ⟨fill, hnode, hc⟩ := Passes.of_bind hc
    have hn := Passes.of_lift hn
    obtain ⟨rfl, hpassed⟩ := Passes.of_checkNode hnode hlower hupper
    obtain ⟨total, hzero, rfl, hsteps⟩ := Passes.of_foldlM hc
    have hshows := hpassed.shows
    rw [← Tree.rows_eq hn] at hshows hsteps ⊢
    have hchild : ∀ j e, (t.rows h)[j]? = some e → ∃ k, Pair.child e = some k ∧
        t.Fenced depth k (some e.1) ((t.rows h).ceiling j upper) ∧
        (total (j + 1)).entries = (total j).entries + (t.rows.pairs k depth).length := fun j e he => by
      have hstep := hsteps j (List.getElem?_eq_some_iff.mp he).1
      obtain ⟨k, hek, hc⟩ := Passes.of_checkChild hshows he hstep
      refine ⟨k, hek, ih hc (fun l hl => ?_) (Row.ceiling_lt hupper hshows.small)⟩
      cases hl
      exact hshows.small e (List.mem_of_getElem? he)
    refine ⟨⟨⟨n, hn, hpassed⟩, fun j e he => ?_⟩, ?_⟩
    · obtain ⟨k, hek, hfenced, -⟩ := hchild j e he
      exact ⟨k, hek, hfenced⟩
    · have hcount : ∀ j e, (t.rows h)[j]? = some e → ∃ k, Pair.child e = some k ∧
          (total (j + 1)).entries = (total j).entries + (t.rows.pairs k depth).length := fun j e he =>
        (hchild j e he).imp fun k hk => ⟨hk.1, hk.2.2⟩
      rw [Rows.length_pairs_succ hcount, hzero]

/-- A tree that passes has no root, no height and no entries, or it is fenced from its root on and has as many entries
as it counts. -/
theorem Passes.of_check (hc : Passes t.check ()) : t.root = none ∧ t.height = 0 ∧ t.len = 0 ∨
    ∃ r, t.root = some r ∧ 0 < t.height ∧ t.Fenced (t.height - 1) r none none ∧
      (t.rows.pairs r (t.height - 1)).length = t.len := by
  rw [Tree.check] at hc
  cases hroot : t.root with
  | none =>
    rw [hroot] at hc
    have hflat := (Passes.of_unless hc (Passes.not_throw _ _)).1
    exact .inl ⟨rfl, by omega⟩
  | some r =>
    rw [hroot] at hc
    obtain ⟨htall, hc⟩ := Passes.of_unless hc Passes.not_throw_bind
    obtain ⟨tally, hunder, hc⟩ := Passes.of_bind hc
    have hlen := (Passes.of_unless hc Passes.not_throw_bind).1
    have hunder : Passes (t.checkUnder (t.height - 1) r (Option.map (Words.ofNat w.words) none)
        (Option.map (Words.ofNat w.words) none) ⟨0, 0⟩) tally := hunder
    obtain ⟨hfenced, hentries⟩ := Passes.of_checkUnder (t.height - 1) hunder (fun l hl => (by cases hl))
      (fun u hu => (by cases hu))
    rw [Nat.zero_add] at hentries
    exact .inr ⟨r, rfl, Nat.pos_of_ne_zero htall, hfenced, by rw [← hentries, not_not.mp hlen]⟩

theorem Tree.passes_of_validate (hv : t.validate = .ok (.ok ())) : Passes t.check () := by
  obtain ⟨r, hr, hv⟩ := Fault.of_bind hv
  cases r with
  | error violation => cases hv
  | ok u => exact hr

end Trees
end MemoTree
