import MemoTree.Proofs.Slots
import Mathlib.Data.List.TakeWhile

/-! # Rows

The row of a node is the list of its used pairs. Its words hold the row packed to the left, and empty slots
behind it (`Packs`). A scan for a key splits the row into the pairs above the key and the others. What the scans
answer is known as soon as all slots are read as those of the row (`Shows`), whatever else the block holds. Here is
also what each operation on a node does to its row. -/

namespace MemoTree

/-- The used pairs of a node, in slot order. -/
abbrev Row := List Pair

namespace Row

/-- The pairs in front of the first one whose key is at most `k`. -/
def above (row : Row) (k : Nat) : Row := row.takeWhile fun e => k < e.1

/-- The pairs from the first one whose key is at most `k` on. -/
def upTo (row : Row) (k : Nat) : Row := row.dropWhile fun e => k < e.1

theorem above_append_upTo (row : Row) (k : Nat) : row.above k ++ row.upTo k = row := List.takeWhile_append_dropWhile

theorem lt_of_mem_above {row : Row} {k : Nat} {e : Pair} (he : e ∈ row.above k) : k < e.1 := by
  simpa using List.mem_takeWhile_imp (p := fun e : Pair => decide (k < e.1)) he

theorem head_upTo_le {row rest : Row} {k : Nat} {e : Pair} (h : row.upTo k = e :: rest) : e.1 ≤ k := by
  have hhead := List.head?_dropWhile_not (fun e : Pair => decide (k < e.1)) row
  rw [show row.dropWhile (fun e : Pair => decide (k < e.1)) = e :: rest from h] at hhead
  simpa using hhead

theorem getElem?_place (row : Row) (k : Nat) : row[(row.above k).length]? = (row.upTo k).head? := by
  have h : (row.above k ++ row.upTo k)[(row.above k).length]? = (row.upTo k).head? := by
    rw [List.getElem?_append_right (Nat.le_refl _), Nat.sub_self, List.head?_eq_getElem?]
  rwa [above_append_upTo] at h

theorem getElem?_above {row : Row} {k m : Nat} (hm : m < (row.above k).length) : row[m]? = some ((row.above k)[m]) := by
  have h : (row.above k ++ row.upTo k)[m]? = some ((row.above k)[m]) := by
    rw [List.getElem?_append_left hm, List.getElem?_eq_getElem hm]
  rwa [above_append_upTo] at h

theorem length_above_le (row : Row) (k : Nat) : (row.above k).length ≤ row.length := by
  conv_rhs => rw [← above_append_upTo row k]
  rw [List.length_append]
  omega

end Row

/-- `words` hold the pairs `row`, packed to the left. -/
structure Packs (g : Geometry) (words : Array Word) (row : Row) : Prop where
  lays : Lays g words (row ++ List.replicate (g.pairs - row.length) .zero)
  used : ∀ e ∈ row, e.2 ≠ 0

/-- Read slot by slot, the node holds the pairs `row`, and behind them zero slots. -/
structure Shows (g : Geometry) (b : Node) (row : Row) : Prop where
  length_le : row.length ≤ g.pairs
  small : ∀ e ∈ row, e.1 < 2 ^ (64 * g.keyLength)
  used : ∀ e ∈ row, e.2 ≠ 0
  key : ∀ n e, row[n]? = some e → b.key g n = .ok (Words.ofNat g.keyLength e.1)
  value : ∀ n e, row[n]? = some e → b.value g n = .ok e.2
  key_free : ∀ n, row.length ≤ n → n < g.pairs → b.key g n = .ok (Words.ofNat g.keyLength 0)
  value_free : ∀ n, row.length ≤ n → n < g.pairs → b.value g n = .ok 0

namespace Node

/-- A search among slots stops at the first one that passes. -/
theorem firstSlot_eq {holds : Nat → Except Fault Bool} {left i n : Nat} (hi : i ≤ n) (hn : n ≤ i + left)
    (hbefore : ∀ m, i ≤ m → m < n → holds m = .ok false) (hat : n < i + left → holds n = .ok true) :
    firstSlot holds left i = .ok n := by
  induction left generalizing i with
  | zero =>
    obtain rfl : i = n := by omega
    rfl
  | succ left ih =>
    rw [firstSlot]
    by_cases hin : i = n
    · subst hin
      rw [hat (by omega)]
      rfl
    · rw [hbefore i (Nat.le_refl i) (by omega)]
      exact ih (by omega) (by omega) (fun m hm hmn => hbefore m (by omega) hmn) fun hlt => hat (by omega)

end Node

namespace Shows
variable {g : Geometry} {b : Node} {row : Row} {k n : Nat} {e : Pair}

theorem child_eq (h : Shows g b row) (hn : row[n]? = some e) : b.child g n = .ok (Handle.ofWord? e.2) := by
  rw [Node.child, h.value n e hn]
  rfl

theorem child_free (h : Shows g b row) (hn : row.length ≤ n) (hp : n < g.pairs) : b.child g n = .ok none := by
  rw [Node.child, h.value_free n hn hp]
  rfl

theorem compareKey_eq (h : Shows g b row) (hn : row[n]? = some e) (hk : k < 2 ^ (64 * g.keyLength)) :
    b.compareKey g n (Words.ofNat g.keyLength k) = .ok (Ord.compare e.1 k) := by
  rw [Node.compareKey, h.key n e hn]
  exact Words.order_ofNat (h.small e (List.mem_of_getElem? hn)) hk

theorem compareKey_free (h : Shows g b row) (hn : row.length ≤ n) (hp : n < g.pairs) (hk : k < 2 ^ (64 * g.keyLength)) :
    b.compareKey g n (Words.ofNat g.keyLength k) = .ok (Ord.compare 0 k) := by
  rw [Node.compareKey, h.key_free n hn hp]
  exact Words.order_ofNat (Nat.two_pow_pos _) hk

theorem position_eq (h : Shows g b row) (hk : k < 2 ^ (64 * g.keyLength)) :
    b.position g (Words.ofNat g.keyLength k) = .ok (row.above k).length := by
  have hle := h.length_le
  have hsplit := row.above_append_upTo k
  have hlen : (row.above k).length ≤ row.length := row.length_above_le k
  refine Node.firstSlot_eq (Nat.zero_le _) (by omega) (fun m _ hm => ?_) fun hlt => ?_
  · -- in front of the place the keys are above `k`
    rw [h.compareKey_eq (Row.getElem?_above hm) hk, Nat.compare_eq_gt.mpr (Row.lt_of_mem_above (List.getElem_mem hm))]
    rfl
  · by_cases hfull : (row.above k).length = row.length
    · rw [h.compareKey_free (by omega) (by omega) hk]
      have hne : Ord.compare 0 k ≠ .gt := by
        rw [Ne, Nat.compare_eq_gt]
        exact Nat.not_lt_zero k
      show Except.ok (Ord.compare 0 k != .gt) = _
      rw [bne_iff_ne.mpr hne]
    · rcases hup : row.upTo k with _ | ⟨e, rest⟩
      · rw [hup, List.append_nil] at hsplit
        rw [hsplit] at hfull
        exact absurd rfl hfull
      · have hrow : row[(row.above k).length]? = some e := by rw [Row.getElem?_place, hup]; rfl
        rw [h.compareKey_eq hrow hk]
        have hne : Ord.compare e.1 k ≠ .gt := by
          rw [Ne, Nat.compare_eq_gt, Nat.not_lt]
          exact Row.head_upTo_le hup
        show Except.ok (Ord.compare e.1 k != .gt) = _
        rw [bne_iff_ne.mpr hne]

theorem fillFrom_eq (h : Shows g b row) {start : Nat} (hs : start ≤ row.length) :
    b.fillFrom g start = .ok row.length := by
  have hle := h.length_le
  rw [Node.fillFrom, Nat.min_eq_left (by omega)]
  refine Node.firstSlot_eq hs (by omega) (fun m hm hlt => ?_) fun hlt => ?_
  · rw [h.value m _ (List.getElem?_eq_getElem hlt)]
    show Except.ok (row[m].2 == 0) = _
    rw [beq_eq_false_iff_ne.mpr (h.used _ (List.getElem_mem hlt))]
  · rw [h.value_free _ (Nat.le_refl _) (by omega)]
    rfl

theorem fill_eq (h : Shows g b row) : b.fill g = .ok row.length := h.fillFrom_eq (Nat.zero_le _)

theorem holdsAt_eq (h : Shows g b row) (hk : k < 2 ^ (64 * g.keyLength)) :
    b.holdsAt g (row.above k).length row.length (Words.ofNat g.keyLength k) =
      .ok ((row.upTo k).head?.any fun e => e.1 = k) := by
  have hsplit := row.above_append_upTo k
  rw [Node.holdsAt]
  rcases hup : row.upTo k with _ | ⟨e, rest⟩
  · rw [hup, List.append_nil] at hsplit
    rw [if_neg (by rw [hsplit]; exact Nat.lt_irrefl _)]
    rfl
  · have hrow : row[(row.above k).length]? = some e := by rw [Row.getElem?_place, hup]; rfl
    rw [if_pos (List.getElem?_eq_some_iff.mp hrow).1, h.compareKey_eq hrow hk]
    show Except.ok (Ord.compare e.1 k == .eq) = _
    congr 1
    simp only [List.head?_cons, Option.any_some]
    rw [Bool.eq_iff_iff, beq_iff_eq, Nat.compare_eq_eq, decide_eq_true_iff]

end Shows

namespace Packs
variable {g : Geometry} {b : Node} {row : Row} {k : Nat}

theorem length_le {words : Array Word} (h : Packs g words row) : row.length ≤ g.pairs := by
  have := h.lays.count
  rw [List.length_append, List.length_replicate] at this
  omega

theorem small {words : Array Word} (h : Packs g words row) {e : Pair} (he : e ∈ row) : e.1 < 2 ^ (64 * g.keyLength) :=
  h.lays.small e (List.mem_append_left _ he)

theorem used_slot {n : Nat} {e : Pair} (hn : row[n]? = some e) :
    (row ++ List.replicate (g.pairs - row.length) .zero)[n]? = some e := by
  rw [List.getElem?_append_left (List.getElem?_eq_some_iff.mp hn).1, hn]

theorem free_slot {n : Nat} (hn : row.length ≤ n) (hp : n < g.pairs) :
    (row ++ List.replicate (g.pairs - row.length) .zero)[n]? = some .zero := by
  rw [List.getElem?_append_right hn, List.getElem?_replicate, if_pos (by omega)]

theorem key_eq (h : Packs g b.words row) {n : Nat} {e : Pair} (hn : row[n]? = some e) :
    b.key g n = .ok (Words.ofNat g.keyLength e.1) := h.lays.key_eq (used_slot hn)

theorem value_eq (h : Packs g b.words row) {n : Nat} {e : Pair} (hn : row[n]? = some e) :
    b.value g n = .ok e.2 := h.lays.value_eq (used_slot hn)

theorem value_free (h : Packs g b.words row) {n : Nat} (hn : row.length ≤ n) (hp : n < g.pairs) :
    b.value g n = .ok 0 := h.lays.value_eq (free_slot hn hp)

theorem child_eq (h : Packs g b.words row) {n : Nat} {e : Pair} (hn : row[n]? = some e) :
    b.child g n = .ok (Handle.ofWord? e.2) := h.lays.child_eq (used_slot hn)

theorem child_free (h : Packs g b.words row) {n : Nat} (hn : row.length ≤ n) (hp : n < g.pairs) :
    b.child g n = .ok none := h.lays.child_eq (free_slot hn hp)

/-- A node whose words pack a row shows the row. -/
theorem shows (h : Packs g b.words row) : Shows g b row where
  length_le := h.length_le
  small _ he := h.small he
  used := h.used
  key _ _ hn := h.key_eq hn
  value _ _ hn := h.value_eq hn
  key_free _ hn hp := h.lays.key_eq (free_slot hn hp)
  value_free _ hn hp := h.value_free hn hp

theorem position_eq (h : Packs g b.words row) (hk : k < 2 ^ (64 * g.keyLength)) :
    b.position g (Words.ofNat g.keyLength k) = .ok (row.above k).length := h.shows.position_eq hk

theorem fillFrom_eq (h : Packs g b.words row) {start : Nat} (hs : start ≤ row.length) :
    b.fillFrom g start = .ok row.length := h.shows.fillFrom_eq hs

theorem fill_eq (h : Packs g b.words row) : b.fill g = .ok row.length := h.shows.fill_eq

theorem holdsAt_eq (h : Packs g b.words row) (hk : k < 2 ^ (64 * g.keyLength)) :
    b.holdsAt g (row.above k).length row.length (Words.ofNat g.keyLength k) =
      .ok ((row.upTo k).head?.any fun e => e.1 = k) := h.shows.holdsAt_eq hk

end Packs
end MemoTree
