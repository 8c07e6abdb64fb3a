import MemoTree.Proofs.Anatomy
import MemoTree.Proofs.Passing

/-! # The scans of a node agree

The place of a key is found by its order among the keys, the end of the used slots by the first slot without a value,
and a lookup goes by both, slot after slot. An empty slot has the key zero, which may also be the key of a used one.
As long as the used slots are packed to the left with descending keys and the others are zero (`Node.Packed`), the
three scans agree on every key (`Node.Scans`). -/

namespace MemoTree

namespace Node

/-- The first `fill` slots are used and their keys descend. The others are zero. -/
structure Packed (g : Geometry) (b : Node) (fill : Nat) : Prop where
  fits : fill ≤ g.pairs
  used : ∀ n < fill, ∃ key value, b.pair g n = .ok (key, value) ∧ value ≠ 0
  clear : ∀ n, fill ≤ n → n < g.pairs → b.pair g n = .ok (List.replicate g.keyLength 0, 0)
  descending : ∀ m n key key', m < n → n < fill → b.key g m = .ok key → b.key g n = .ok key' → key'.toNat < key.toNat

/-- The place of the key `k` is `pos`, behind the used slots with greater keys. The key is there if it is `found` at
all. -/
structure Scans (g : Geometry) (b : Node) (fill : Nat) (k : Words) (pos : Nat) (found : Bool) : Prop where
  position_eq : b.position g k = .ok pos
  above : {n | n < fill ∧ b.compareKey g n k = .ok .gt}.encard = pos
  le_fill : pos ≤ fill
  fillFrom_eq : b.fillFrom g pos = .ok fill
  fill_eq : b.fill g = .ok fill
  free_iff : pos = g.pairs ∨ b.value g pos = .ok 0 ↔ ∀ n < fill, b.compareKey g n k = .ok .gt
  holdsAt_eq : b.holdsAt g pos fill k = .ok found
  find_eq : b.find? g k = .ok (if found then some pos else none)
  found_iff : found ↔ ∃ n < fill, b.key g n = .ok k

end Node

/-- The pairs above a key are those in front of its place. -/
theorem Row.Descending.lt_above_iff {row : Row} {n x : Nat} {e : Pair} (h : row.Descending) (hn : row[n]? = some e) :
    n < (row.above x).length ↔ x < e.1 := by
  constructor
  · intro hlt
    rw [Row.getElem?_above hlt] at hn
    cases hn
    exact Row.lt_of_mem_above (List.getElem_mem hlt)
  · intro hx
    by_contra hge
    rw [← row.above_append_upTo x, List.getElem?_append_right (Nat.le_of_not_lt hge)] at hn
    exact absurd hx (Nat.not_lt.mpr (h.le_of_mem_upTo (List.mem_of_getElem? hn)))

namespace Shows
variable {g : Geometry} {b : Node} {row : Row} {x n : Nat} {e : Pair}

/-- Up to the end of the used slots, only the slot at the end is empty or past the last one. -/
theorem free_iff (h : Shows g b row) (hn : n ≤ row.length) : n = g.pairs ∨ b.value g n = .ok 0 ↔ n = row.length := by
  have hle := h.length_le
  constructor
  · rintro (rfl | hzero)
    · exact Nat.le_antisymm hn hle
    · by_contra hne
      have hlt := Nat.lt_of_le_of_ne hn hne
      rw [h.value n _ (List.getElem?_eq_getElem hlt)] at hzero
      exact h.used _ (List.getElem_mem hlt) (Except.ok.inj hzero)
  · rintro rfl
    rcases Nat.eq_or_lt_of_le hle with hfull | hlt
    · exact Or.inl hfull
    · exact Or.inr (h.value_free _ (Nat.le_refl _) hlt)

/-- A lookup finds a key in its place, if anywhere. -/
theorem find_eq (h : Shows g b row) (hd : row.Descending) (hx : x < 2 ^ (64 * g.keyLength)) :
    b.find? g (Words.ofNat g.keyLength x) =
      .ok (if (row.upTo x).head?.any fun e => e.1 = x then some (row.above x).length else none) := by
  rw [Row.head?_upTo]
  rcases findFrom_spec hx row (A := []) h with ⟨A, e, B, hrow, rfl, hfind⟩ | ⟨hall, hfind⟩
  · obtain rfl : row = A ++ e :: B := hrow
    obtain ⟨-, hB, hA⟩ := hd.of_append
    have habove := (Row.above_eq (fun a ha => hA a ha e List.mem_cons_self) fun a ha => by
      rcases List.mem_cons.mp ha with rfl | ha
      · exact Nat.le_refl _
      · exact Nat.le_of_lt ((List.pairwise_cons.mp hB).1 a ha)).1
    rw [hd.scan_of_mem (e := e) (by simp), habove]
    simpa [Node.find?] using hfind
  · have hnone : (row.scan x).any (fun e => e.1 = x) = false := by
      cases hs : row.scan x with
      | none => rfl
      | some e => simpa using hall e (Row.mem_of_scan hs)
    rw [hnone]
    exact hfind

/-- Whether a key is in its place is whether it is in a used slot. -/
theorem any_iff (h : Shows g b row) (hd : row.Descending) (hx : x < 2 ^ (64 * g.keyLength)) :
    ((row.upTo x).head?.any fun e => e.1 = x) ↔ ∃ n < row.length, b.key g n = .ok (Words.ofNat g.keyLength x) := by
  rw [Row.head?_upTo]
  constructor
  · intro hany
    obtain ⟨e, hs, he⟩ := (Option.any_eq_true _ _).mp hany
    obtain rfl : e.1 = x := by simpa using he
    have hplace := Row.getElem?_scan hs
    exact ⟨_, (List.getElem?_eq_some_iff.mp hplace).1, h.key _ e hplace⟩
  · rintro ⟨n, hn, hkey⟩
    have hget := List.getElem?_eq_getElem hn
    have hmem := List.getElem_mem hn
    rw [h.key n _ hget, Except.ok.injEq] at hkey
    obtain rfl := Words.ofNat_inj (h.small _ hmem) hx hkey
    rw [hd.scan_of_mem hmem]
    simp

theorem compareKey_gt (h : Shows g b row) (hd : row.Descending) (hx : x < 2 ^ (64 * g.keyLength))
    (hn : n < row.length) : b.compareKey g n (Words.ofNat g.keyLength x) = .ok .gt ↔ n < (row.above x).length := by
  have hget := List.getElem?_eq_getElem hn
  rw [h.compareKey_eq hget hx, Except.ok.injEq, Nat.compare_eq_gt, hd.lt_above_iff hget]

/-- The scans of a node that shows a row with descending keys. -/
theorem scans (h : Shows g b row) (hd : row.Descending) (hx : x < 2 ^ (64 * g.keyLength)) :
    b.Scans g row.length (Words.ofNat g.keyLength x) (row.above x).length
    ((row.upTo x).head?.any fun e => e.1 = x) where
  position_eq := h.position_eq hx
  above := by
    rw [encard_of_list List.nodup_range, List.length_range]
    intro n
    rw [List.mem_range]
    constructor
    · rintro ⟨hn, hgt⟩
      exact (h.compareKey_gt hd hx hn).mp hgt
    · intro hn
      have hlt := hn.trans_le (row.length_above_le x)
      exact ⟨hlt, (h.compareKey_gt hd hx hlt).mpr hn⟩
  le_fill := row.length_above_le x
  fillFrom_eq := h.fillFrom_eq (row.length_above_le x)
  fill_eq := h.fill_eq
  free_iff := by
    rw [h.free_iff (row.length_above_le x)]
    constructor
    · intro hall n hn
      exact (h.compareKey_gt hd hx hn).mpr (hall ▸ hn)
    · intro hall
      refine Nat.le_antisymm (row.length_above_le x) (Nat.le_of_not_lt ?_)
      intro hlt
      exact Nat.lt_irrefl _ ((h.compareKey_gt hd hx hlt).mp (hall _ hlt))
  holdsAt_eq := h.holdsAt_eq hx
  find_eq := h.find_eq hd hx
  found_iff := h.any_iff hd hx

end Shows

namespace Node.Packed
variable {g : Geometry} {b : Node} {fill : Nat} {k : Words}

theorem shows (h : b.Packed g fill) : Shows g b ((List.range fill).map (b.slot g)) := by
  refine Shows.of_slots h.fits ?_ ?_
  · intro n hn
    obtain ⟨key, value, hpair, hne⟩ := h.used n hn
    obtain ⟨hkey, hvalue⟩ := of_pair hpair
    exact ⟨key, value, hkey, hvalue, hne⟩
  · intro n hn hlt
    rw [Words.ofNat_zero]
    exact of_pair (h.clear n hn hlt)

theorem descending_row (h : b.Packed g fill) : Row.Descending ((List.range fill).map (b.slot g)) := by
  rw [Row.Descending, List.pairwise_map]
  refine List.pairwise_lt_range.imp_of_mem ?_
  intro m n hm hn hmn
  rw [List.mem_range] at hm hn
  obtain ⟨key, value, hpair, -⟩ := h.used m hm
  obtain ⟨key', value', hpair', -⟩ := h.used n hn
  obtain ⟨hkey, -⟩ := of_pair hpair
  obtain ⟨hkey', -⟩ := of_pair hpair'
  rw [slot, slot, hkey, hkey']
  exact h.descending m n key key' hmn hn hkey hkey'

/-- In a node that is packed to the left the scans agree on every key. -/
theorem scans_agree (h : b.Packed g fill) (hk : k.length = g.keyLength) : ∃ pos found, b.Scans g fill k pos found := by
  obtain ⟨x, hx, rfl⟩ := Words.exists_ofNat hk
  have hscans := h.shows.scans h.descending_row hx
  rw [List.length_map, List.length_range] at hscans
  exact ⟨_, _, hscans⟩

/-- Two of three slots are used, the second one with the key zero, which the empty slot has as well. -/
theorem scans_agree_zero : ∃ pos found,
    Node.Scans ⟨1, 3⟩ ⟨#[9, 0, 0, 5, 7, 0], 0, false, Ring.empty⟩ 2 [0] pos found := by
  refine scans_agree ⟨by decide, ?_, ?_, ?_⟩ rfl
  · intro n hn
    match n, hn with
    | 0, _ => exact ⟨[9], 5, rfl, by decide⟩
    | 1, _ => exact ⟨[0], 7, rfl, by decide⟩
  · intro n hn (hlt : n < 3)
    obtain rfl : n = 2 := by omega
    rfl
  · intro m n key key' hmn hn hkey hkey'
    obtain rfl : n = 1 := by omega
    obtain rfl : m = 0 := by omega
    obtain rfl : [9] = key := Except.ok.inj hkey
    obtain rfl : [0] = key' := Except.ok.inj hkey'
    decide

end Node.Packed
end MemoTree
