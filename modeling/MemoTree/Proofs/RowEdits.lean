import MemoTree.Proofs.Rows
import Mathlib.Data.List.Induction

/-! # Editing rows

Slots are moved one at a time. What a run of moves leaves in the slots is stated for the list of all slots,
cut where the run begins and ends; from it follows what putting a pair in, taking one out, dropping the
first ones and appending others do to a row. -/

namespace MemoTree

/-- The pairs of a row as a node hands them out. -/
def Row.inWords (g : Geometry) (row : Row) : List (Words × Word) := row.map fun e => (Words.ofNat g.keyLength e.1, e.2)

namespace Lays
variable {g : Geometry} {b : Node}

/-- The slots from `start` on move one slot up; the first of them keeps a copy or what it held. -/
theorem raise {words : Array Word} (M : List Pair) : ∀ {A C : List Pair} {z : Pair} {b : Node},
    b.words = words → Lays g words (A ++ M ++ z :: C) →
    ∃ words' x, Node.raise g A.length M.length b = .ok { b with words := words' } ∧
      Lays g words' (A ++ x :: M ++ C) := by
  -- the last slot moves first, so the run is taken apart from its end
  induction M using List.reverseRecOn generalizing words with
  | nil =>
    intro A C z b hw h
    refine ⟨words, z, ?_, by simpa using h⟩
    subst hw
    rfl
  | append_singleton M m ih =>
    intro A C z b hw h
    subst hw
    have hcount := h.count
    simp only [List.length_append, List.length_cons, List.length_nil] at hcount
    have hsource : (A ++ (M ++ [m]) ++ z :: C)[A.length + M.length]? = some m := by
      rw [← List.append_assoc, List.append_assoc (A ++ M), ← List.length_append]
      simp
    obtain ⟨words', hcopy, hlays⟩ := h.copySlot hsource (show A.length + M.length + 1 < g.pairs by omega)
    have hset : (A ++ (M ++ [m]) ++ z :: C).set (A.length + M.length + 1) m = A ++ M ++ m :: (m :: C) := by
      have hlen : A.length + M.length + 1 = (A ++ (M ++ [m])).length := by simp; omega
      rw [hlen]
      simp
    rw [hset] at hlays
    obtain ⟨words'', x, hraise, hlays'⟩ := ih (b := { b with words := words' }) rfl hlays
    refine ⟨words'', x, ?_, by simpa using hlays'⟩
    rw [List.length_append, List.length_singleton, Node.raise, hcopy]
    exact hraise

/-- The slots behind the first `D` from `start` on move down over them; what is left behind does not count. -/
theorem lower {words : Array Word} (M : List Pair) : ∀ {A D C : List Pair} {b : Node}, D ≠ [] →
    b.words = words → Lays g words (A ++ D ++ M ++ C) →
    ∃ words' T, Node.lower g D.length M.length A.length b = .ok { b with words := words' } ∧
      T.length = D.length ∧ Lays g words' (A ++ M ++ T ++ C) := by
  induction M generalizing words with
  | nil =>
    intro A D C b _ hw h
    subst hw
    exact ⟨b.words, D, rfl, rfl, by simpa using h⟩
  | cons m M ih =>
    intro A D C b hD hw h
    subst hw
    obtain ⟨d, D, rfl⟩ := List.exists_cons_of_ne_nil hD
    have hcount := h.count
    simp only [List.length_append, List.length_cons] at hcount
    have hsource : (A ++ d :: D ++ m :: M ++ C)[A.length + (d :: D).length]? = some m := by
      rw [← List.length_append]
      simp
    obtain ⟨words', hcopy, hlays⟩ := h.copySlot hsource (show A.length < g.pairs by omega)
    -- the gap `d :: D` moves up by one slot for each slot that is copied down over it
    have hset : (A ++ d :: D ++ m :: M ++ C).set A.length m = (A ++ [m]) ++ (D ++ [m]) ++ M ++ C := by simp
    rw [hset] at hlays
    obtain ⟨words'', T, hlower, hT, hlays'⟩ := ih (b := { b with words := words' }) (by simp) rfl hlays
    simp only [List.length_append, List.length_singleton] at hlower hT
    refine ⟨words'', T, ?_, by simpa using hT, by simpa using hlays'⟩
    show Node.lower g (d :: D).length (M.length + 1) A.length b = _
    rw [Node.lower, hcopy]
    exact hlower

/-- The slots from `start` on become empty. -/
theorem clearFrom {words : Array Word} (T : List Pair) : ∀ {A C : List Pair} {b : Node},
    b.words = words → Lays g words (A ++ T ++ C) →
    ∃ words', Node.clearFrom g T.length A.length b = .ok { b with words := words' } ∧
      Lays g words' (A ++ List.replicate T.length .zero ++ C) := by
  induction T generalizing words with
  | nil =>
    intro A C b hw h
    subst hw
    exact ⟨b.words, rfl, by simpa using h⟩
  | cons x T ih =>
    intro A C b hw h
    subst hw
    have hcount := h.count
    simp only [List.length_append, List.length_cons] at hcount
    obtain ⟨words', hclear, hlays⟩ := h.clearSlot (n := A.length) (by omega)
    have hset : (A ++ x :: T ++ C).set A.length .zero = (A ++ [.zero]) ++ T ++ C := by simp
    rw [hset] at hlays
    obtain ⟨words'', hrest, hlays'⟩ := ih (b := { b with words := words' }) rfl hlays
    rw [List.length_append, List.length_singleton] at hrest
    refine ⟨words'', ?_, by simpa [List.replicate_succ] using hlays'⟩
    rw [List.length_cons, Node.clearFrom, hclear]
    exact hrest

/-- Pairs are written over the slots from `start` on. -/
theorem writePairs {words : Array Word} (R : Row) : ∀ {A B C : List Pair} {b : Node}, B.length = R.length →
    (∀ e ∈ R, e.1 < 2 ^ (64 * g.keyLength)) → b.words = words → Lays g words (A ++ B ++ C) →
    ∃ words', Node.writePairs g A.length (R.inWords g) b = .ok { b with words := words' } ∧
      Lays g words' (A ++ R ++ C) := by
  induction R generalizing words with
  | nil =>
    intro A B C b hB _ hw h
    subst hw
    rw [List.length_nil, List.length_eq_zero_iff] at hB
    subst hB
    exact ⟨b.words, rfl, h⟩
  | cons e R ih =>
    intro A B C b hB hsmall hw h
    subst hw
    rcases B with _ | ⟨z, B⟩
    · simp at hB
    · have hcount := h.count
      simp only [List.length_append, List.length_cons] at hcount hB
      obtain ⟨words', hwrite, hlays⟩ := h.writePair (n := A.length) (by omega) (hsmall e List.mem_cons_self) e.2
      have hset : (A ++ z :: B ++ C).set A.length (e.1, e.2) = (A ++ [e]) ++ B ++ C := by simp
      rw [hset] at hlays
      obtain ⟨words'', hrest, hlays'⟩ := ih (b := { b with words := words' }) (by omega)
        (fun x hx => hsmall x (List.mem_cons_of_mem e hx)) rfl hlays
      rw [List.length_append, List.length_singleton] at hrest
      refine ⟨words'', ?_, by simpa using hlays'⟩
      rw [Row.inWords, List.map_cons, Node.writePairs, hwrite]
      exact hrest

/-- A pair goes between two runs of slots. The slot behind them is taken up. -/
theorem insertPair {A M C : List Pair} {z : Pair} {k : Nat} (h : Lays g b.words (A ++ M ++ z :: C))
    (hk : k < 2 ^ (64 * g.keyLength)) (v : Word) :
    ∃ words, b.insertPair g A.length (A ++ M).length (Words.ofNat g.keyLength k) v = .ok { b with words := words } ∧
      Lays g words (A ++ (k, v) :: M ++ C) := by
  obtain ⟨words, x, hraise, hlays⟩ := Lays.raise (b := b) M rfl h
  have hcount := hlays.count
  simp only [List.length_append, List.length_cons] at hcount
  obtain ⟨words', hwrite, hlays'⟩ := Lays.writePair (b := { b with words := words }) (n := A.length) hlays
    (by omega) hk v
  refine ⟨words', ?_, by simpa using hlays'⟩
  rw [Node.insertPair, List.length_append, Nat.add_sub_cancel_left, hraise]
  exact hwrite

/-- A pair goes from between two runs of slots. The slot behind them becomes empty. -/
theorem erasePair {A M C : List Pair} {e : Pair} (h : Lays g b.words (A ++ e :: M ++ C)) :
    ∃ words, b.erasePair g A.length (A ++ e :: M).length = .ok { b with words := words } ∧
      Lays g words (A ++ M ++ .zero :: C) := by
  have hlays : Lays g b.words (A ++ [e] ++ M ++ C) := by simpa using h
  obtain ⟨words, T, hlower, hT, hlays⟩ := Lays.lower (b := b) M (List.cons_ne_nil e []) rfl hlays
  rw [List.length_singleton] at hlower hT
  obtain ⟨x, rfl⟩ := List.length_eq_one_iff.mp hT
  have hcount := hlays.count
  simp only [List.length_append, List.length_cons, List.length_nil] at hcount
  obtain ⟨words', hclear, hlays'⟩ := Lays.clearSlot (b := { b with words := words }) (n := (A ++ M).length)
    hlays (by rw [List.length_append]; omega)
  refine ⟨words', ?_, by simpa [List.append_assoc] using hlays'⟩
  rw [Node.erasePair, List.length_append, List.length_cons,
    show A.length + (M.length + 1) - 1 - A.length = M.length by omega, hlower]
  rw [List.length_append] at hclear
  exact hclear

/-- Reading a run of slots. -/
theorem pairsFrom {b : Node} (M : Row) : ∀ {A C : List Pair}, Lays g b.words (A ++ M ++ C) →
    Node.pairsFrom g b M.length A.length = .ok (M.inWords g) := by
  induction M with
  | nil => intro A C _; rfl
  | cons e M ih =>
    intro A C h
    have hsource : (A ++ e :: M ++ C)[A.length]? = some e := by simp
    have hrest := ih (A := A ++ [e]) (C := C) (by simpa using h)
    rw [List.length_append, List.length_singleton] at hrest
    rw [List.length_cons, Node.pairsFrom, h.pair_eq hsource]
    show (Node.pairsFrom g b M.length (A.length + 1) >>= _) = _
    rw [hrest]
    rfl

end Lays

namespace Packs
variable {g : Geometry} {b : Node} {A B row : Row} {e : Pair} {k : Nat}

theorem nil (g : Geometry) : Packs g (Array.replicate g.slotWords 0) [] where
  lays := Lays.zero g
  used e he := by cases he

/-- Packed slots, with any number of empty ones behind them. -/
theorem of_lays {words : Array Word} {m : Nat} (h : Lays g words (row ++ List.replicate m .zero))
    (hused : ∀ e ∈ row, e.2 ≠ 0) : Packs g words row where
  lays := by
    have hcount := h.count
    rw [List.length_append, List.length_replicate] at hcount
    rwa [show g.pairs - row.length = m by omega]
  used := hused

/-- Putting a pair between the first pairs and the others. -/
theorem insertPair (h : Packs g b.words (A ++ B)) (hlt : (A ++ B).length < g.pairs)
    (hk : k < 2 ^ (64 * g.keyLength)) {v : Word} (hv : v ≠ 0) :
    ∃ words, b.insertPair g A.length (A ++ B).length (Words.ofNat g.keyLength k) v =
      .ok { b with words := words } ∧ Packs g words (A ++ (k, v) :: B) := by
  obtain ⟨m, hm⟩ : ∃ m, g.pairs - (A ++ B).length = m + 1 := ⟨g.pairs - (A ++ B).length - 1, by omega⟩
  have hlays := h.lays
  rw [hm, List.replicate_succ] at hlays
  obtain ⟨words, hinsert, hlays⟩ := hlays.insertPair hk v
  refine ⟨words, hinsert, of_lays hlays fun e he => ?_⟩
  rcases List.mem_append.mp he with he | he
  · exact h.used e (List.mem_append_left _ he)
  · rcases List.mem_cons.mp he with rfl | he
    · exact hv
    · exact h.used e (List.mem_append_right _ he)

/-- Taking a pair out. -/
theorem erasePair (h : Packs g b.words (A ++ e :: B)) :
    ∃ words, b.erasePair g A.length (A ++ e :: B).length = .ok { b with words := words } ∧
      Packs g words (A ++ B) := by
  obtain ⟨words, herase, hlays⟩ := h.lays.erasePair
  refine ⟨words, herase, of_lays (m := g.pairs - (A ++ e :: B).length + 1) hlays fun x hx => ?_⟩
  rcases List.mem_append.mp hx with hx | hx
  · exact h.used x (List.mem_append_left _ hx)
  · exact h.used x (List.mem_append_right _ (List.mem_cons_of_mem e hx))

/-- Taking the first pairs out. -/
theorem dropPairs (h : Packs g b.words (A ++ B)) (hA : A ≠ []) :
    ∃ words, b.dropPairs g A.length (A ++ B).length = .ok { b with words := words } ∧ Packs g words B := by
  have hlays : Lays g b.words ([] ++ A ++ B ++ List.replicate (g.pairs - (A ++ B).length) .zero) := h.lays
  obtain ⟨words, T, hlower, hT, hlays⟩ := Lays.lower (b := b) B hA rfl hlays
  obtain ⟨words', hclear, hlays'⟩ := Lays.clearFrom (b := { b with words := words }) T rfl hlays
  refine ⟨words', ?_, of_lays (m := T.length + (g.pairs - (A ++ B).length)) ?_ fun x hx => ?_⟩
  · rw [Node.dropPairs, List.length_append, Nat.add_sub_cancel_left, ← List.length_nil (α := Pair), hlower]
    rw [List.nil_append, hT] at hclear
    exact hclear
  · rw [← List.replicate_append_replicate]
    simpa using hlays'
  · exact h.used x (List.mem_append_right A hx)

/-- Appending pairs. -/
theorem writePairs (h : Packs g b.words A) (hfit : A.length + B.length ≤ g.pairs)
    (hsmall : ∀ e ∈ B, e.1 < 2 ^ (64 * g.keyLength)) (hused : ∀ e ∈ B, e.2 ≠ 0) :
    ∃ words, Node.writePairs g A.length (B.inWords g) b = .ok { b with words := words } ∧
      Packs g words (A ++ B) := by
  have hlays := h.lays
  obtain ⟨m, hm⟩ : ∃ m, g.pairs - A.length = B.length + m := ⟨g.pairs - A.length - B.length, by omega⟩
  rw [hm, ← List.replicate_append_replicate, ← List.append_assoc] at hlays
  obtain ⟨words, hwrite, hlays⟩ := Lays.writePairs (b := b) B (List.length_replicate) hsmall rfl hlays
  refine ⟨words, hwrite, of_lays hlays fun e he => ?_⟩
  rcases List.mem_append.mp he with he | he
  · exact h.used e he
  · exact hused e he

/-- Writing the first pair of an empty node. -/
theorem writePair_first (h : Packs g b.words []) (hp : 0 < g.pairs) (hk : k < 2 ^ (64 * g.keyLength)) {v : Word}
    (hv : v ≠ 0) :
    ∃ words, b.writePair g 0 (Words.ofNat g.keyLength k) v = .ok { b with words := words } ∧
    Packs g words [(k, v)] := by
  have hlays : Lays g b.words (List.replicate g.pairs .zero) := h.lays
  obtain ⟨words, hwrite, hlays⟩ := hlays.writePair hp hk v
  refine ⟨words, hwrite, of_lays (m := g.pairs - 1) ?_ fun e he => ?_⟩
  · obtain ⟨m, hm⟩ : ∃ m, g.pairs = m + 1 := ⟨g.pairs - 1, by omega⟩
    rw [hm, List.replicate_succ, List.set_cons_zero] at hlays
    rw [hm]
    exact hlays
  · rw [List.mem_singleton.mp he]
    exact hv

theorem pairsFrom (h : Packs g b.words (A ++ B)) : Node.pairsFrom g b A.length 0 = .ok (A.inWords g) :=
  Lays.pairsFrom (A := []) (C := B ++ List.replicate (g.pairs - (A ++ B).length) .zero) A (by simpa using h.lays)

/-- Overwriting a key. -/
theorem writeKey (h : Packs g b.words (A ++ e :: B)) (hk : k < 2 ^ (64 * g.keyLength)) :
    ∃ words, b.writeKey g A.length (Words.ofNat g.keyLength k) = .ok { b with words := words } ∧
      Packs g words (A ++ (k, e.2) :: B) := by
  obtain ⟨words, hwrite, hlays⟩ := h.lays.writeKey (n := A.length) (s := e) (used_slot (by simp)) hk
  refine ⟨words, hwrite, of_lays (m := g.pairs - (A ++ e :: B).length) (by simpa using hlays) fun x hx => ?_⟩
  rcases List.mem_append.mp hx with hx | hx
  · exact h.used x (List.mem_append_left _ hx)
  · rcases List.mem_cons.mp hx with rfl | hx
    · exact h.used e (List.mem_append_right _ List.mem_cons_self)
    · exact h.used x (List.mem_append_right _ (List.mem_cons_of_mem e hx))

/-- Overwriting a value word. -/
theorem writeValue (h : Packs g b.words (A ++ e :: B)) {v : Word} (hv : v ≠ 0) :
    ∃ words, b.writeValue g A.length v = .ok { b with words := words } ∧
      Packs g words (A ++ (e.1, v) :: B) := by
  obtain ⟨words, hwrite, hlays⟩ := h.lays.writeValue (n := A.length) (s := e) (used_slot (by simp)) v
  refine ⟨words, hwrite, of_lays (m := g.pairs - (A ++ e :: B).length) (by simpa using hlays) fun x hx => ?_⟩
  rcases List.mem_append.mp hx with hx | hx
  · exact h.used x (List.mem_append_left _ hx)
  · rcases List.mem_cons.mp hx with rfl | hx
    · exact hv
    · exact h.used x (List.mem_append_right _ (List.mem_cons_of_mem e hx))

end Packs
end MemoTree
