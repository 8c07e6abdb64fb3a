import MemoTree.Proofs.Rows

/-! # Scanning a row

A lookup takes the first pair of a row whose key is at most the key it looks for (`Row.scan`). A change takes
the last pair where there is none (`Row.aim`), and lowers its key. How both fare when a row is cut, joined,
or gets and loses a pair. -/

namespace MemoTree

theorem Handle.word_of_ofWord? {word : Word} {h : Handle} (hw : Handle.ofWord? word = some h) : h.word = word := by
  unfold Handle.ofWord? at hw
  split at hw
  · cases hw
  · rename_i hne
    unfold Handle.ofIndex? at hw
    split at hw
    · cases hw
      have hpos : word.toNat ≠ 0 := fun h0 => hne (UInt64.toNat_inj.mp h0)
      rw [Handle.word, Handle.number, show word.toNat - 1 + 1 = word.toNat by omega, UInt64.ofNat_toNat]
    · cases hw

theorem Handle.word_ne_zero (h : Handle) : h.word ≠ 0 := by
  intro h0
  have := Handle.ofWord?_word h
  rw [h0] at this
  cases this

/-- The child that a pair names. -/
def Pair.child (e : Pair) : Option Handle := Handle.ofWord? e.2

@[simp] theorem Pair.child_word (k : Nat) (h : Handle) : Pair.child (k, h.word) = some h := Handle.ofWord?_word h

theorem Pair.child_eq_some {e : Pair} {h : Handle} : e.child = some h ↔ e.2 = h.word :=
  ⟨fun he => (Handle.word_of_ofWord? he).symm, fun he => by rw [Pair.child, he, Handle.ofWord?_word]⟩

namespace Row

/-- Keys descend strictly. -/
def Descending (row : Row) : Prop := row.Pairwise fun a b => b.1 < a.1

/-- The first pair whose key is at most `x`. -/
def scan (row : Row) (x : Nat) : Option Pair := row.find? fun e => e.1 ≤ x

/-- The pair a change for `x` goes to: the first one whose key is at most `x`, or else the last one. -/
def aim (row : Row) (x : Nat) : Option Pair := (row.scan x).or row.getLast?

variable {row A B : Row} {e : Pair} {x k : Nat}

@[simp] theorem scan_nil : scan [] x = none := rfl

theorem scan_append : scan (A ++ B) x = (scan A x).or (scan B x) := List.find?_append

theorem scan_cons_of_le (h : e.1 ≤ x) : scan (e :: row) x = some e := by simp [scan, h]

theorem scan_cons_of_lt (h : x < e.1) : scan (e :: row) x = scan row x := by simp [scan, h]

theorem scan_eq_none : scan row x = none ↔ ∀ e ∈ row, x < e.1 := by simp [scan]

theorem mem_of_scan (h : row.scan x = some e) : e ∈ row := List.mem_of_find?_eq_some h

theorem le_of_scan (h : row.scan x = some e) : e.1 ≤ x := by simpa using List.find?_some h

/-- The pairs in front of the one a scan finds are above the key. -/
theorem scan_split (h : row.scan x = some e) : ∃ A B, row = A ++ e :: B ∧ ∀ a ∈ A, x < a.1 := by
  obtain ⟨-, A, B, rfl, hA⟩ := List.find?_eq_some_iff_append.mp h
  exact ⟨A, B, rfl, fun a ha => by simpa using hA a ha⟩

theorem scan_split_eq (hA : ∀ a ∈ A, x < a.1) (he : e.1 ≤ x) : scan (A ++ e :: B) x = some e := by
  rw [scan_append, scan_eq_none.mpr hA, Option.none_or, scan_cons_of_le he]

/-- A scan looks at the pairs from the place of the key on. -/
theorem head?_upTo : (row.upTo x).head? = row.scan x := by
  induction row with
  | nil => rfl
  | cons e row ih =>
    by_cases he : x < e.1
    · rw [scan_cons_of_lt he, ← ih, upTo, upTo, List.dropWhile_cons_of_pos (by simpa using he)]
    · rw [scan_cons_of_le (by omega), upTo, List.dropWhile_cons_of_neg (by simpa using he)]
      rfl

theorem getElem?_scan (h : row.scan x = some e) : row[(row.above x).length]? = some e := by
  rw [getElem?_place, head?_upTo, h]

theorem length_above_of_scan (h : row.scan x = none) : (row.above x).length = row.length := by
  rw [above, List.takeWhile_eq_self_iff.mpr fun e he => by simpa using scan_eq_none.mp h e he]

theorem aim_of_scan (h : row.scan x = some e) : row.aim x = some e := by rw [aim, h, Option.some_or]

theorem aim_of_none (h : row.scan x = none) : row.aim x = row.getLast? := by rw [aim, h, Option.none_or]

theorem mem_of_aim (h : row.aim x = some e) : e ∈ row := by
  cases hs : row.scan x with
  | some e' =>
    rw [aim_of_scan hs] at h
    cases h
    exact mem_of_scan hs
  | none =>
    rw [aim_of_none hs] at h
    exact List.mem_of_getLast? h

theorem exists_aim (h : row ≠ []) (x : Nat) : ∃ e, row.aim x = some e := by
  cases hs : row.scan x with
  | some e => exact ⟨e, aim_of_scan hs⟩
  | none => exact ⟨row.getLast h, by rw [aim_of_none hs, List.getLast?_eq_some_getLast h]⟩

theorem scan_of_aim (h : row.aim x = some e) (he : e.1 ≤ x) : row.scan x = some e := by
  cases hs : row.scan x with
  | some e' =>
    rw [aim_of_scan hs] at h
    exact h
  | none => exact absurd he (Nat.not_le.mpr (scan_eq_none.mp hs e (mem_of_aim h)))

theorem aim_append_left (h : A.scan x = some e) : (A ++ B).aim x = some e :=
  aim_of_scan (by rw [scan_append, h, Option.some_or])

theorem aim_append_right (hA : A.scan x = none) (hB : B ≠ []) : (A ++ B).aim x = B.aim x := by
  rw [aim, aim, scan_append, hA, Option.none_or, List.getLast?_append, List.getLast?_eq_some_getLast hB, Option.some_or]

theorem Descending.of_append (h : (A ++ B).Descending) :
    A.Descending ∧ B.Descending ∧ ∀ a ∈ A, ∀ b ∈ B, b.1 < a.1 := List.pairwise_append.mp h

theorem Descending.append (hA : A.Descending) (hB : B.Descending) (h : ∀ a ∈ A, ∀ b ∈ B, b.1 < a.1) :
    (A ++ B).Descending := List.pairwise_append.mpr ⟨hA, hB, h⟩

theorem Descending.scan_of_mem (h : row.Descending) (he : e ∈ row) : row.scan e.1 = some e := by
  obtain ⟨A, B, rfl⟩ := List.append_of_mem he
  exact scan_split_eq (fun a ha => h.of_append.2.2 a ha e List.mem_cons_self) (Nat.le_refl _)

/-- In a descending row a scan finds the pair with the largest key that is low enough. -/
theorem Descending.scan_eq (h : row.Descending) (he : e ∈ row) (hx : e.1 ≤ x)
    (hmax : ∀ a ∈ row, a.1 ≤ x → a.1 ≤ e.1) : row.scan x = some e := by
  obtain ⟨A, B, rfl⟩ := List.append_of_mem he
  refine scan_split_eq (fun a ha => ?_) hx
  have hlt := h.of_append.2.2 a ha e List.mem_cons_self
  by_contra hle
  have := hmax a (List.mem_append_left _ ha) (Nat.le_of_not_lt hle)
  omega

theorem Descending.eq_of_mem {e' : Pair} (h : row.Descending) (he : e ∈ row) (he' : e' ∈ row) (hk : e.1 = e'.1) :
    e = e' := by
  have h1 := h.scan_of_mem he
  rw [hk, h.scan_of_mem he', Option.some.injEq] at h1
  exact h1.symm

/-- The pairs in front of the place of a key are above it, those behind are not. -/
theorem Descending.le_of_mem_upTo (h : row.Descending) (he : e ∈ row.upTo x) : e.1 ≤ x := by
  rcases hup : row.upTo x with _ | ⟨e', rest⟩
  · rw [hup] at he
    cases he
  · have hle := head_upTo_le hup
    rw [← above_append_upTo row x] at h
    rw [hup] at he h
    rcases List.mem_cons.mp he with rfl | he
    · exact hle
    · have := (List.pairwise_cons.mp h.of_append.2.1).1 e he
      omega

/-- The place of a key among descending pairs. -/
theorem above_eq (hA : ∀ a ∈ A, k < a.1) (hB : ∀ b ∈ B, b.1 ≤ k) : (A ++ B).above k = A ∧ (A ++ B).upTo k = B := by
  have hnil : B.takeWhile (fun e => k < e.1) = [] ∧ B.dropWhile (fun e => k < e.1) = B := by
    cases B with
    | nil => exact ⟨rfl, rfl⟩
    | cons b B =>
      have hb := hB b List.mem_cons_self
      have hneg : ¬ (decide (k < b.1) = true) := by simpa using hb
      exact ⟨List.takeWhile_cons_of_neg hneg, List.dropWhile_cons_of_neg hneg⟩
  have hpos : ∀ a ∈ A, decide (k < a.1) = true := fun a ha => by simpa using hA a ha
  rw [above, upTo, List.takeWhile_append_of_pos hpos, List.dropWhile_append_of_pos hpos, hnil.1, hnil.2,
    List.append_nil]
  exact ⟨rfl, rfl⟩

/-! ### Putting a pair in -/

theorem Descending.insert (h : (A ++ B).Descending) {v : Word} (hA : ∀ a ∈ A, k < a.1) (hB : ∀ b ∈ B, b.1 < k) :
    (A ++ (k, v) :: B).Descending := by
  obtain ⟨hdA, hdB, hAB⟩ := h.of_append
  refine hdA.append (List.pairwise_cons.mpr ⟨hB, hdB⟩) fun a ha b hb => ?_
  rcases List.mem_cons.mp hb with rfl | hb
  · exact hA a ha
  · exact hAB a ha b hb

/-- A pair put in takes over what a change would have led to the next one, from its key on. -/
theorem aim_insert {e : Pair} {v : Word} (hd : (A ++ e :: B).Descending) (hA : ∀ a ∈ A, k < a.1) (he : e.1 < k) :
    (A ++ (k, v) :: e :: B).aim x =
      if (A ++ e :: B).aim x = some e ∧ k ≤ x then some (k, v) else (A ++ e :: B).aim x := by
  cases hs : A.scan x with
  | some a =>
    have hne : a ≠ e := by
      rintro rfl
      have := hA a (mem_of_scan hs)
      omega
    rw [aim_append_left hs, aim_append_left hs, if_neg (by simp [hne])]
  | none =>
    rw [aim_append_right hs (by simp), aim_append_right hs (by simp)]
    by_cases hx : k ≤ x
    · rw [aim_of_scan (scan_cons_of_le hx), aim_of_scan (scan_cons_of_le (by omega)), if_pos ⟨rfl, hx⟩]
    · rw [if_neg (by omega)]
      show ((scan ((k, v) :: e :: B) x).or _) = (scan (e :: B) x).or _
      rw [scan_cons_of_lt (by simpa using hx), List.getLast?_cons_cons]

/-! ### Taking a pair out -/

/-- A scan that leads past the pair is not changed. -/
theorem scan_erase {e' : Pair} (h : (A ++ e :: B).scan x = some e') (hne : e' ≠ e) : (A ++ B).scan x = some e' := by
  rw [scan_append] at h ⊢
  cases hs : A.scan x with
  | some a => simpa [hs] using h
  | none =>
    rw [hs, Option.none_or] at h
    rw [Option.none_or]
    by_cases hx : e.1 ≤ x
    · rw [scan_cons_of_le hx] at h
      cases h
      exact absurd rfl hne
    · rwa [scan_cons_of_lt (by omega)] at h

/-! ### Lowering the last key -/

/-- The row with its last key lowered to `k`, unless a key is at most `k` already. -/
def lowered (row : Row) (k : Nat) : Row :=
  match row.scan k, row.getLast? with
  | none, some last => row.dropLast ++ [(k, last.2)]
  | _, _ => row

theorem lowered_of_scan (h : row.scan k = some e) : row.lowered k = row := by rw [lowered, h]

theorem lowered_concat (h : (A ++ [e]).scan k = none) : (A ++ [e]).lowered k = A ++ [(k, e.2)] := by
  simp [lowered, h]

/-- A row whose last key is lowered, if it has any. -/
theorem lowered_cases (row : Row) (k : Nat) :
    row.lowered k = row ∨ ∃ (A : Row) (e : Pair), row = A ++ [e] ∧ (∀ a ∈ A ++ [e], k < a.1) ∧
    row.lowered k = A ++ [(k, e.2)] := by
  cases hs : row.scan k with
  | some e => exact Or.inl (lowered_of_scan hs)
  | none =>
    rcases List.eq_nil_or_concat row with rfl | ⟨A, e, rfl⟩
    · exact Or.inl rfl
    · rw [List.concat_eq_append] at hs ⊢
      exact Or.inr ⟨A, e, rfl, scan_eq_none.mp hs, lowered_concat hs⟩

theorem lowered_lowered (row : Row) (k : Nat) : (row.lowered k).lowered k = row.lowered k := by
  rcases row.lowered_cases k with h | ⟨A, e, -, hlt, h⟩
  · rw [h, h]
  · rw [h]
    exact lowered_of_scan (e := (k, e.2))
      (scan_split_eq (fun a ha => hlt a (List.mem_append_left _ ha)) (Nat.le_refl k))

theorem length_lowered (row : Row) (k : Nat) : (row.lowered k).length = row.length := by
  rcases row.lowered_cases k with h | ⟨A, e, rfl, -, h⟩
  · rw [h]
  · rw [h]
    simp

theorem children_lowered (row : Row) (k : Nat) : (row.lowered k).filterMap Pair.child = row.filterMap Pair.child := by
  rcases row.lowered_cases k with h | ⟨A, e, rfl, -, h⟩
  · rw [h]
  · rw [h, List.filterMap_append, List.filterMap_append]
    rfl

theorem mem_lowered {row : Row} {k : Nat} {e : Pair} (h : e ∈ row.lowered k) :
    e ∈ row ∨ e.1 = k ∧ row.scan k = none ∧ ∃ s, (s, e.2) ∈ row := by
  rcases row.lowered_cases k with h' | ⟨A, e', rfl, hlt, h'⟩
  · rw [h'] at h
    exact Or.inl h
  · rw [h'] at h
    rcases List.mem_append.mp h with h | h
    · exact Or.inl (List.mem_append_left _ h)
    · obtain rfl := List.mem_singleton.mp h
      exact Or.inr ⟨rfl, scan_eq_none.mpr hlt, e'.1, List.mem_append_right _ (List.mem_singleton_self _)⟩

theorem Descending.lowered (h : row.Descending) (k : Nat) : (row.lowered k).Descending := by
  rcases row.lowered_cases k with h' | ⟨A, e, rfl, hlt, h'⟩
  · rwa [h']
  · rw [h']
    refine h.of_append.1.append (List.pairwise_singleton _ _) fun a ha b hb => ?_
    obtain rfl := List.mem_singleton.mp hb
    exact hlt a (List.mem_append_left _ ha)

/-- Lowering the last key keeps what scans find. -/
theorem scan_lowered {k : Nat} (h : row.scan x = some e) : ∃ e', (row.lowered k).scan x = some e' ∧ e'.2 = e.2 := by
  rcases row.lowered_cases k with h' | ⟨A, l, rfl, hlt, h'⟩
  · exact ⟨e, by rwa [h'], rfl⟩
  · rw [h', scan_append]
    rw [scan_append] at h
    cases hs : A.scan x with
    | some a =>
      rw [hs, Option.some_or] at h
      cases h
      exact ⟨e, rfl, rfl⟩
    | none =>
      rw [hs, Option.none_or] at h
      obtain rfl := List.mem_singleton.mp (mem_of_scan h)
      have hk := hlt e (List.mem_append_right _ (List.mem_singleton_self e))
      have hx := le_of_scan h
      refine ⟨(k, e.2), ?_, rfl⟩
      rw [Option.none_or, scan_cons_of_le (show k ≤ x by omega)]

/-- Lowering the last key keeps where changes go. -/
theorem aim_lowered (row : Row) (k x : Nat) :
    ((row.lowered k).aim x).bind Pair.child = (row.aim x).bind Pair.child := by
  cases hs : row.scan x with
  | some e =>
    obtain ⟨e', he', hc⟩ := scan_lowered (k := k) hs
    rw [aim_of_scan he', aim_of_scan hs, Option.bind_some, Option.bind_some, Pair.child, Pair.child, hc]
  | none =>
    rcases row.lowered_cases k with h | ⟨A, e, rfl, -, h⟩
    · rw [h]
    · have hA : A.scan x = none := scan_eq_none.mpr fun a ha => scan_eq_none.mp hs a (List.mem_append_left _ ha)
      have hlast : ∀ y : Nat, (A ++ [((y, e.2) : Pair)]).aim x = some (y, e.2) := fun y => by
        rw [aim_append_right hA (List.cons_ne_nil _ _), aim]
        by_cases hy : y ≤ x
        · rw [scan_cons_of_le hy]
          rfl
        · rw [scan_cons_of_lt (show x < y by omega)]
          rfl
      rw [h, hlast k, show e = (e.1, e.2) from rfl, hlast e.1]
      rfl

/-- Once the last key is lowered to `k`, a scan for `k` goes where a change goes. -/
theorem scan_lowered_self (h : row.aim k = some e) : ∃ e', (row.lowered k).scan k = some e' ∧ e'.2 = e.2 := by
  cases hs : row.scan k with
  | some e' =>
    rw [aim_of_scan hs] at h
    cases h
    exact scan_lowered hs
  | none =>
    rw [aim_of_none hs] at h
    obtain ⟨A, rfl⟩ := List.getLast?_eq_some_iff.mp h
    rw [lowered_concat hs]
    have hlt := scan_eq_none.mp hs
    exact ⟨(k, e.2), scan_split_eq (fun a ha => hlt a (List.mem_append_left _ ha)) (Nat.le_refl k), rfl⟩

end Row

theorem Shows.lt_of_scan {g : Geometry} {b : Node} {row : Row} {e : Pair} {x : Nat} (h : Shows g b row)
    (hs : row.scan x = some e) : (row.above x).length < g.pairs :=
  Nat.lt_of_lt_of_le (List.getElem?_eq_some_iff.mp (Row.getElem?_scan hs)).1 h.length_le

end MemoTree
