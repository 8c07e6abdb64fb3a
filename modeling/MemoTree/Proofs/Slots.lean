import MemoTree.Node.Shift
import MemoTree.Node.Scan
import MemoTree.Proofs.KeyOrder

/-! # A node is an array of pairs

The words of a node hold one pair of a key and a value word for each slot (`Lays`). Reading a slot reads its
pair, and writing a slot replaces its pair and no other. Keys are taken as numbers. -/

namespace MemoTree

/-- A key, as a number, and a value word. -/
abbrev Pair := Nat × Word

/-- The pair of an empty slot. -/
abbrev Pair.zero : Pair := (0, 0)

/-- `words` hold the pairs `slots`, laid out as `g` says. -/
structure Lays (g : Geometry) (words : Array Word) (slots : List Pair) : Prop where
  count : slots.length = g.pairs
  size : words.size = g.slotWords
  small : ∀ s ∈ slots, s.1 < 2 ^ (64 * g.keyLength)
  key : ∀ n s, slots[n]? = some s → ∀ m < g.keyLength,
    words[n * g.keyLength + m]? = (Words.ofNat g.keyLength s.1)[m]?
  value : ∀ n s, slots[n]? = some s → words[g.keyRegion + n]? = some s.2

namespace Geometry

/-- The words of the keys of two slots do not meet. -/
theorem key_slot_inj {l n n' m m' : Nat} (hm : m < l) (hm' : m' < l) (h : n * l + m = n' * l + m') : n = n' := by
  rcases Nat.lt_trichotomy n n' with hn | hn | hn
  · have := Nat.mul_le_mul_right l hn
    rw [Nat.succ_mul] at this
    omega
  · exact hn
  · have := Nat.mul_le_mul_right l hn
    rw [Nat.succ_mul] at this
    omega

theorem key_end_le {g : Geometry} {n : Nat} (hn : n < g.pairs) :
    n * g.keyLength + g.keyLength ≤ g.keyRegion := by
  have := Nat.mul_le_mul_right g.keyLength hn
  rw [Nat.succ_mul] at this
  rwa [keyRegion, Nat.mul_comm g.keyLength]

end Geometry

namespace Node

/-- A search among slots that comes to an end passes no slot that fits. -/
theorem of_firstSlot {holds : Nat → Except Fault Bool} {left i j : Nat} (h : firstSlot holds left i = .ok j) :
    i ≤ j ∧ j ≤ i + left ∧ ∀ m, i ≤ m → m < j → holds m = .ok false := by
  induction left generalizing i with
  | zero =>
    cases h
    exact ⟨Nat.le_refl _, Nat.le_refl _, fun m hm hlt => absurd hlt (Nat.not_lt.mpr hm)⟩
  | succ left ih =>
    obtain ⟨b, hb, h⟩ := Fault.of_bind h
    cases b with
    | true =>
      cases h
      exact ⟨Nat.le_refl _, Nat.le_add_right _ _, fun m hm hlt => absurd hlt (Nat.not_lt.mpr hm)⟩
    | false =>
      obtain ⟨hstart, hend, hbefore⟩ := ih h
      refine ⟨by omega, by omega, fun m hm hlt => ?_⟩
      rcases Nat.lt_or_eq_of_le hm with hlt' | rfl
      · exact hbefore m hlt' hlt
      · exact hb

theorem size_writeFrom (words : Array Word) (i : Nat) (ws : Words) : (writeFrom words i ws).size = words.size := by
  induction ws generalizing words i with
  | nil => rfl
  | cons w ws ih => rw [writeFrom, ih, Array.size_setIfInBounds]

/-- Writing a run of words changes the words of the run and no other. -/
theorem getElem?_writeFrom (words : Array Word) (i : Nat) (ws : Words) (hi : i + ws.length ≤ words.size) (j : Nat) :
    (writeFrom words i ws)[j]? = if i ≤ j ∧ j < i + ws.length then ws[j - i]? else words[j]? := by
  induction ws generalizing words i with
  | nil =>
    rw [writeFrom, if_neg]
    simp
  | cons w ws ih =>
    rw [List.length_cons] at hi
    rw [writeFrom, ih _ _ (by rw [Array.size_setIfInBounds]; omega), List.length_cons,
      Array.getElem?_setIfInBounds]
    by_cases hij : i = j
    · subst hij
      rw [if_neg (by omega), if_pos rfl, if_pos (by omega), if_pos (by omega), Nat.sub_self]
      rfl
    · by_cases hj : i + 1 ≤ j ∧ j < i + 1 + ws.length
      · rw [if_pos hj, if_pos (by omega), show j - i = j - (i + 1) + 1 by omega, List.getElem?_cons_succ]
      · rw [if_neg hj, if_neg hij, if_neg (by omega)]

end Node

namespace Lays
variable {g : Geometry} {b : Node} {slots : List Pair} {n : Nat} {s : Pair}

theorem lt_pairs {words : Array Word} (h : Lays g words slots) (hn : slots[n]? = some s) : n < g.pairs := by
  rw [← h.count]
  exact (List.getElem?_eq_some_iff.mp hn).1

theorem exists_slot {words : Array Word} (h : Lays g words slots) (hn : n < g.pairs) : ∃ s, slots[n]? = some s :=
  ⟨slots.get ⟨n, h.count ▸ hn⟩, List.getElem?_eq_getElem _⟩

/-- The pairs of a node tell its words. -/
theorem words_unique {words words' : Array Word} (h : Lays g words slots) (h' : Lays g words' slots) :
    words' = words := by
  refine Array.ext_getElem? fun i => ?_
  rcases Nat.lt_or_ge i g.keyRegion with hi | hi
  · have hl : 0 < g.keyLength := Nat.pos_of_mul_pos_right (Nat.zero_lt_of_lt hi)
    obtain ⟨s, hs⟩ := h.exists_slot (Nat.div_lt_of_lt_mul hi)
    have hm := Nat.mod_lt i hl
    rw [← Nat.div_add_mod' i g.keyLength, h.key _ s hs _ hm, h'.key _ s hs _ hm]
  rcases Nat.lt_or_ge i g.slotWords with hlt | hge
  · rw [Geometry.slotWords] at hlt
    obtain ⟨s, hs⟩ := h.exists_slot (n := i - g.keyRegion) (by omega)
    rw [← Nat.add_sub_of_le hi, h.value _ s hs, h'.value _ s hs]
  · rw [Array.getElem?_eq_none (by rw [h'.size]; exact hge), Array.getElem?_eq_none (by rw [h.size]; exact hge)]

theorem getElem?_set_of_some {x : Pair} (hn : slots[n]? = some s) : (slots.set n x)[n]? = some x :=
  List.getElem?_set_self (List.getElem?_eq_some_iff.mp hn).1

/-- Reading the key of a slot. -/
theorem key_eq (h : Lays g b.words slots) (hn : slots[n]? = some s) :
    b.key g n = .ok (Words.ofNat g.keyLength s.1) := by
  have hend := Geometry.key_end_le (h.lt_pairs hn)
  have hsize : n * g.keyLength + g.keyLength ≤ b.words.size := by
    rw [h.size, Geometry.slotWords]
    omega
  rw [Node.key, if_pos hsize]
  congr 1
  apply List.ext_getElem?
  intro m
  rw [Array.getElem?_toList, Array.getElem?_extract]
  by_cases hm : m < g.keyLength
  · rw [if_pos (by omega), h.key n s hn m hm]
  · rw [if_neg (by omega), List.getElem?_eq_none (by rw [Words.length_ofNat]; omega)]

theorem value_eq (h : Lays g b.words slots) (hn : slots[n]? = some s) : b.value g n = .ok s.2 := by
  rw [Node.value, h.value n s hn]

theorem pair_eq (h : Lays g b.words slots) (hn : slots[n]? = some s) :
    b.pair g n = .ok (Words.ofNat g.keyLength s.1, s.2) := by
  rw [Node.pair, h.key_eq hn, h.value_eq hn]
  rfl

theorem child_eq (h : Lays g b.words slots) (hn : slots[n]? = some s) :
    b.child g n = .ok (Handle.ofWord? s.2) := by
  rw [Node.child, h.value_eq hn]
  rfl

theorem compareKey_eq (h : Lays g b.words slots) (hn : slots[n]? = some s) {k : Nat}
    (hk : k < 2 ^ (64 * g.keyLength)) :
    b.compareKey g n (Words.ofNat g.keyLength k) = .ok (Ord.compare s.1 k) := by
  rw [Node.compareKey, h.key_eq hn]
  exact Words.order_ofNat (h.small s (List.mem_of_getElem? hn)) hk

/-- Overwriting the key of a slot. -/
theorem writeKey (h : Lays g b.words slots) (hn : slots[n]? = some s) {k : Nat}
    (hk : k < 2 ^ (64 * g.keyLength)) :
    ∃ words, b.writeKey g n (Words.ofNat g.keyLength k) = .ok { b with words := words } ∧
      Lays g words (slots.set n (k, s.2)) := by
  have hend := Geometry.key_end_le (h.lt_pairs hn)
  have hsize : n * g.keyLength + g.keyLength ≤ b.words.size := by
    rw [h.size, Geometry.slotWords]
    omega
  have hread := Node.getElem?_writeFrom b.words (n * g.keyLength) (Words.ofNat g.keyLength k)
    (by rw [Words.length_ofNat]; exact hsize)
  simp only [Words.length_ofNat] at hread
  refine ⟨Node.writeFrom b.words (n * g.keyLength) (Words.ofNat g.keyLength k), ?_, ?_⟩
  · rw [Node.writeKey, if_pos hsize, if_pos (Words.length_ofNat _ _)]
  · refine ⟨by rw [List.length_set, h.count], by rw [Node.size_writeFrom, h.size], ?_, ?_, ?_⟩
    · intro x hx
      rcases List.mem_or_eq_of_mem_set hx with hx | rfl
      · exact h.small x hx
      · exact hk
    · intro n' x hx m hm
      rw [hread]
      rw [List.getElem?_set] at hx
      by_cases hnn : n = n'
      · subst hnn
        rw [if_pos rfl, if_pos (List.getElem?_eq_some_iff.mp hn).1] at hx
        cases hx
        rw [if_pos (by omega), Nat.add_sub_cancel_left]
      · -- the keys of two slots share no word
        rw [if_neg hnn] at hx
        rw [if_neg, h.key n' x hx m hm]
        intro hin
        have hlt : n' * g.keyLength + m - n * g.keyLength < g.keyLength := by omega
        exact hnn (Geometry.key_slot_inj hlt hm (by omega))
    · intro n' x hx
      rw [hread, if_neg (by omega)]
      rw [List.getElem?_set] at hx
      by_cases hnn : n = n'
      · subst hnn
        rw [if_pos rfl, if_pos (List.getElem?_eq_some_iff.mp hn).1] at hx
        cases hx
        exact h.value n s hn
      · rw [if_neg hnn] at hx
        exact h.value n' x hx

/-- Overwriting the value word of a slot. -/
theorem writeValue (h : Lays g b.words slots) (hn : slots[n]? = some s) (v : Word) :
    ∃ words, b.writeValue g n v = .ok { b with words := words } ∧ Lays g words (slots.set n (s.1, v)) := by
  have hlt := h.lt_pairs hn
  have hsize : g.keyRegion + n < b.words.size := by
    rw [h.size, Geometry.slotWords]
    omega
  refine ⟨b.words.setIfInBounds (g.keyRegion + n) v, by rw [Node.writeValue, if_pos hsize], ?_⟩
  refine ⟨by rw [List.length_set, h.count], by rw [Array.size_setIfInBounds, h.size], ?_, ?_, ?_⟩
  · intro x hx
    rcases List.mem_or_eq_of_mem_set hx with hx | rfl
    · exact h.small x hx
    · exact h.small s (List.mem_of_getElem? hn)
  · intro n' x hx m hm
    have hx' : ∃ y, slots[n']? = some y ∧ y.1 = x.1 := by
      rw [List.getElem?_set] at hx
      by_cases hnn : n = n'
      · subst hnn
        rw [if_pos rfl, if_pos (List.getElem?_eq_some_iff.mp hn).1] at hx
        cases hx
        exact ⟨s, hn, rfl⟩
      · rw [if_neg hnn] at hx
        exact ⟨x, hx, rfl⟩
    obtain ⟨y, hy, hyx⟩ := hx'
    have hend := Geometry.key_end_le (h.lt_pairs hy)
    rw [Array.getElem?_setIfInBounds, if_neg (by omega), h.key n' y hy m hm, hyx]
  · intro n' x hx
    rw [Array.getElem?_setIfInBounds]
    rw [List.getElem?_set] at hx
    by_cases hnn : n = n'
    · subst hnn
      rw [if_pos rfl, if_pos (List.getElem?_eq_some_iff.mp hn).1] at hx
      cases hx
      rw [if_pos rfl, if_pos hsize]
    · rw [if_neg hnn] at hx
      rw [if_neg (by omega)]
      exact h.value n' x hx

/-- Overwriting a slot. -/
theorem writePair (h : Lays g b.words slots) (hn : n < g.pairs) {k : Nat} (hk : k < 2 ^ (64 * g.keyLength))
    (v : Word) :
    ∃ words, b.writePair g n (Words.ofNat g.keyLength k) v = .ok { b with words := words } ∧
      Lays g words (slots.set n (k, v)) := by
  obtain ⟨s, hs⟩ := h.exists_slot hn
  obtain ⟨words, hkey, hlays⟩ := h.writeKey hs hk
  obtain ⟨words', hvalue, hlays'⟩ :=
    Lays.writeValue (b := { b with words := words }) hlays (getElem?_set_of_some hs) v
  refine ⟨words', ?_, ?_⟩
  · rw [Node.writePair, hkey]
    exact hvalue
  · rwa [List.set_set] at hlays'

/-- Copying one slot over another. -/
theorem copySlot (h : Lays g b.words slots) {source target : Nat} (hs : slots[source]? = some s)
    (ht : target < g.pairs) :
    ∃ words, b.copySlot g source target = .ok { b with words := words } ∧
      Lays g words (slots.set target s) := by
  have hk := h.small s (List.mem_of_getElem? hs)
  obtain ⟨u, hu⟩ := h.exists_slot ht
  obtain ⟨words, hkey, hlays⟩ := h.writeKey hu hk
  have hv : Node.value { b with words := words } g source = .ok s.2 := by
    -- the key is written before the value is read, which matters where a slot is copied onto itself
    by_cases hst : target = source
    · subst hst
      rw [hu] at hs
      cases hs
      exact Lays.value_eq (b := { b with words := words }) hlays (getElem?_set_of_some hu)
    · have hother : (slots.set target (s.1, u.2))[source]? = some s := by
        rw [List.getElem?_set_ne hst, hs]
      exact Lays.value_eq (b := { b with words := words }) hlays hother
  obtain ⟨words', hvalue, hlays'⟩ :=
    Lays.writeValue (b := { b with words := words }) hlays (getElem?_set_of_some hu) s.2
  refine ⟨words', ?_, ?_⟩
  · rw [Node.copySlot, h.key_eq hs]
    show (b.writeKey g target _ >>= _) = _
    rw [hkey]
    show (Node.value _ g source >>= _) = _
    rw [hv]
    exact hvalue
  · rwa [List.set_set] at hlays'

theorem clearSlot (h : Lays g b.words slots) (hn : n < g.pairs) :
    ∃ words, b.clearSlot g n = .ok { b with words := words } ∧ Lays g words (slots.set n .zero) := by
  rw [Node.clearSlot, ← Words.ofNat_zero]
  exact h.writePair hn (Nat.two_pow_pos _) 0

/-- An array of zero words holds empty slots. -/
theorem zero (g : Geometry) : Lays g (Array.replicate g.slotWords 0) (List.replicate g.pairs .zero) where
  count := List.length_replicate
  size := Array.size_replicate
  small s hs := by
    rw [List.eq_of_mem_replicate hs]
    exact Nat.two_pow_pos _
  key n s hs m hm := by
    have hn : n < g.pairs := by simpa using (List.getElem?_eq_some_iff.mp hs).1
    have hend := Geometry.key_end_le hn
    rw [List.eq_of_mem_replicate (List.mem_of_getElem? hs), Words.ofNat_zero, Array.getElem?_replicate,
      List.getElem?_replicate, if_pos (by rw [Geometry.slotWords]; omega), if_pos hm]
  value n s hs := by
    have hn : n < g.pairs := by simpa using (List.getElem?_eq_some_iff.mp hs).1
    rw [List.eq_of_mem_replicate (List.mem_of_getElem? hs), Array.getElem?_replicate,
      if_pos (by rw [Geometry.slotWords]; omega)]

end Lays
end MemoTree
