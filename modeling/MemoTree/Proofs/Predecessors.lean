import MemoTree.Proofs.Ordered

/-! # The entry before a key

Separators are lower bounds that may be too low: a descent for a key may end in a leaf, or at an internal node, that
holds nothing small enough. What is known then is that a lookup of any key from the last separator passed up to that key
ends in the same place (`Rows.Floored`), so no entry is there, and the search goes on below the separator. -/

namespace MemoTree
open Pool NodePool Rows

/-! ### Sorted pairs -/

namespace Row
variable {row row' : Row} {e : Pair} {x : Nat}

theorem Descending.eq_of_perm (h : row.Descending) (h' : row'.Descending) (hp : row.Perm row') : row = row' :=
  hp.eq_of_pairwise (fun _ _ _ _ hab hba => absurd hab (Nat.lt_asymm hba)) h h'

/-- The first pair of a descending row whose key is below `x`. -/
def below (row : Row) (x : Nat) : Option Pair := row.find? fun e => e.1 < x

theorem below_succ : row.below (x + 1) = row.scan x := by
  simp only [below, scan, Nat.lt_succ_iff]

/-- Keys that no pair has do not matter. -/
theorem below_eq_of_gap {s : Nat} (hgap : ∀ e ∈ row, ¬(s ≤ e.1 ∧ e.1 < x)) (hs : s ≤ x) :
    row.below s = row.below x := by
  induction row with
  | nil => rfl
  | cons e row ih =>
    have he := hgap e List.mem_cons_self
    have hdec : decide (e.1 < s) = decide (e.1 < x) := by rw [decide_eq_decide]; omega
    rw [below, below, List.find?_cons, List.find?_cons, hdec]
    split
    · rfl
    · exact ih fun a ha => hgap a (List.mem_cons_of_mem e ha)

theorem below_eq_none (h : ∀ e ∈ row, x ≤ e.1) : row.below x = none := by
  simpa [below] using h

theorem below_cons_of_le (h : x ≤ e.1) : below (e :: row) x = below row x := by
  simp [below, h]

theorem below_cons_of_lt (h : e.1 < x) : below (e :: row) x = some e := by
  simp [below, h]

/-- Below the key of a pair comes the next pair. -/
theorem Descending.below_key (h : row.Descending) {i : Nat} (hi : row[i]? = some e) : row.below e.1 = row[i + 1]? := by
  induction row generalizing i with
  | nil => simp at hi
  | cons a row ih =>
    obtain ⟨ha, hd⟩ := List.pairwise_cons.mp h
    rw [List.getElem?_cons_succ]
    cases i with
    | zero =>
      simp only [List.getElem?_cons_zero, Option.some.injEq] at hi
      subst hi
      rw [below_cons_of_le (Nat.le_refl _)]
      cases row with
      | nil => rfl
      | cons b row => rw [below_cons_of_lt (ha b List.mem_cons_self), List.getElem?_cons_zero]
    | succ i =>
      rw [List.getElem?_cons_succ] at hi
      rw [below_cons_of_le (Nat.le_of_lt (ha e (List.mem_of_getElem? hi))), ih hd hi]

end Row

/-! ### Descents -/

/-- A lookup of a key of at most `x`, but at least the last separator `floor` passed, comes to `h`, as one of `x` does.
The separator is a lower bound of the keys there. -/
structure Rows.Floored (c : Rows) (r : Handle) (i : Nat) (x : Nat) (h : Handle) (floor : Option Nat) : Prop where
  le : ∀ s ∈ floor, s ≤ x
  low : ∀ s ∈ floor, ∀ e ∈ c h, s ≤ e.1
  same : ∀ y ≤ x, (∀ s ∈ floor, s ≤ y) → c.route y r i = some h

/-- Where a descent for `x` ends: at `leaf`, if there is one, and so do lookups of all keys down to `floor`. -/
structure Rows.Ends (c : Rows) (r : Handle) (d : Nat) (x : Nat) (leaf : Option Handle) (floor : Option Nat) : Prop where
  le : ∀ s ∈ floor, s ≤ x
  low : ∀ h ∈ leaf, ∀ s ∈ floor, ∀ e ∈ c h, s ≤ e.1
  same : ∀ y ≤ x, (∀ s ∈ floor, s ≤ y) → c.route y r d = leaf

section Trees
variable {w : Width} {t : Tree w} {c : Rows} {r h : Handle} {row : Row} {bound d i x : Nat} {floor : Option Nat}

theorem Rows.Floored.child {k : Handle} {e : Pair} (hf : c.Floored r i x h floor) (hs : Searchable bound c r d)
    (hi : i < d) (hh : h ∈ c.level r i) (hscan : (c h).scan x = some e) (hk : e.child = some k) :
    c.Floored r (i + 1) x k (some e.1) := by
  have he := Row.mem_of_scan hscan
  refine ⟨fun s hs' => ?_, fun s hs' a ha => ?_, fun y hyx hy => ?_⟩
  · cases hs'
    exact Row.le_of_scan hscan
  · cases hs'
    exact hs.separator_le hi hh he hk ha
  · have hey : e.1 ≤ y := hy e.1 rfl
    obtain ⟨A, B, hrow, hA⟩ := Row.scan_split hscan
    have hroute : c.route y r i = some h := hf.same y hyx fun s hs' => (hf.low s hs' e he).trans hey
    rw [route_succ, hroute]
    refine look_eq_some.mpr ⟨e, ?_, hk⟩
    rw [hrow]
    exact Row.scan_split_eq (fun a ha => Nat.lt_of_le_of_lt hyx (hA a ha)) hey

theorem Rows.Floored.blind (hf : c.Floored r i x h floor) (hi : i < d) (hscan : (c h).scan x = none) :
    c.Ends r d x none floor := by
  refine ⟨hf.le, fun _ hh => (by cases hh), fun y hyx hy => ?_⟩
  have hlook : c.look y h = none := by
    rw [look, Row.scan_eq_none.mpr fun e he => Nat.lt_of_le_of_lt hyx (Row.scan_eq_none.mp hscan e he)]
    rfl
  -- the way ends at level `i + 1`, and so on all levels below
  have hnone : ∀ j, c.route y r (i + 1 + j) = none := fun j => by
    induction j with
    | zero => rw [Nat.add_zero, route_succ, hf.same y hyx hy, Option.bind_some, hlook]
    | succ j ih => rw [← Nat.add_assoc, route_succ, ih, Option.bind_none]
  obtain ⟨j, rfl⟩ : ∃ j, d = i + 1 + j := ⟨d - (i + 1), by omega⟩
  exact hnone j

theorem Legible.descent (hl : Legible t c r d) (hx : x < 2 ^ w.bits) (steps : Nat) :
    ∀ {i : Nat} {h : Handle} {floor : Option Nat}, i + steps = d → h ∈ c.level r i → c.Floored r i x h floor →
    ∃ leaf floor', t.descent (Words.ofNat w.words x) steps h (floor.map (Words.ofNat w.words)) =
      .ok ⟨leaf, floor'.map (Words.ofNat w.words)⟩ ∧ c.Ends r d x leaf floor' := by
  have hxw : x < 2 ^ (64 * t.geometry.keyLength) := Nat.lt_of_lt_of_le hx (Key.pow_bits_le w)
  induction steps with
  | zero =>
    intro i h floor hi hh hf
    obtain rfl : i = d := by omega
    refine ⟨some h, floor, rfl, hf.le, fun _ hh => ?_, hf.same⟩
    cases hh
    exact hf.low
  | succ steps ih =>
    intro i h floor hi hh hf
    obtain ⟨n, hn, hshows⟩ := hl.node i (by omega) h hh
    have hpos : n.position t.geometry (Words.ofNat w.words x) = .ok ((c h).above x).length := hshows.position_eq hxw
    have hplace := (c h).getElem?_place x
    rw [Row.head?_upTo] at hplace
    rw [Tree.descent, hn]
    simp only [bind, Except.bind, hpos]
    cases hscan : (c h).scan x with
    | some e =>
      rw [hscan] at hplace
      obtain ⟨k, hk⟩ := (hl.searchable.inner i (by omega) h hh).2 e (Row.mem_of_scan hscan)
      have hchild : n.child t.geometry ((c h).above x).length = .ok (some k) :=
        (hshows.child_eq hplace).trans (congrArg Except.ok hk)
      have hkey : n.key t.geometry ((c h).above x).length = .ok (Words.ofNat w.words e.1) := hshows.key _ e hplace
      obtain ⟨leaf, floor', hdescent, hends⟩ := ih (i := i + 1) (by omega)
        (mem_level_succ.mpr ⟨h, hh, mem_kids.mpr ⟨e, Row.mem_of_scan hscan, hk⟩⟩)
        (hf.child hl.searchable (by omega) hh hscan hk)
      refine ⟨leaf, floor', ?_, hends⟩
      rw [if_pos (hshows.lt_of_scan hscan), hchild, hkey]
      exact hdescent
    | none =>
      rw [hscan] at hplace
      have hge := List.getElem?_eq_none_iff.mp hplace
      -- all separators are above the key: the descent ends blind, with the floor it had
      refine ⟨none, floor, ?_, hf.blind (by omega) hscan⟩
      by_cases hlt : ((c h).above x).length < t.geometry.pairs
      · rw [if_pos hlt, hshows.child_free hge hlt]
        rfl
      · rw [if_neg hlt]
        rfl

/-- What a probe for `x` finds out about the pairs of the leaves. -/
inductive Row.Probed (w : Width) (row : Row) (x : Nat) : Tree.Probe w → Prop
  | found {e : Pair} : row.scan x = some e → Probed w row x (.found (Pair.entry w e))
  | below {s : Nat} : s ≤ x → (∀ e ∈ row, ¬(s ≤ e.1 ∧ e.1 < x + 1)) → Probed w row x (.below (Words.ofNat w.words s))
  | nothing : row.scan x = none → Probed w row x .nothing

/-- Where a descent ends, there is nothing to be found if the leaf has nothing. -/
theorem Rows.Ends.gap {leaf : Option Handle} (hends : c.Ends r d x leaf floor) (hs : Searchable bound c r d)
    (hnone : ∀ h ∈ leaf, (c h).scan x = none) {e : Pair} (he : e ∈ c.pairs r d) (hfloor : ∀ s ∈ floor, s ≤ e.1) :
    x < e.1 := by
  obtain ⟨h, hh, heh⟩ := mem_pairs.mp he
  by_contra hle
  have hroute := hends.same e.1 (Nat.le_of_not_lt hle) hfloor
  rw [hs.routed d (Nat.le_refl d) h hh e heh] at hroute
  exact hle (Row.scan_eq_none.mp (hnone h hroute.symm) e heh)

/-- What a scan finds in the leaf, a scan of all leaves finds. -/
theorem Rows.Ends.scan (hends : c.Ends r d x (some h) floor) (hs : Searchable bound c r d) {e : Pair}
    (hscan : (c h).scan x = some e) : (c.pairs r d).scan x = some e := by
  have hh := mem_level_of_route (hends.same x (Nat.le_refl x) hends.le)
  have he := Row.mem_of_scan hscan
  refine (hs.pairs_descending (Nat.le_refl d)).scan_eq (mem_pairs.mpr ⟨h, hh, he⟩) (Row.le_of_scan hscan)
    fun a ha hax => ?_
  rcases Nat.le_total a.1 e.1 with hle | hea
  · exact hle
  · -- a larger key that is low enough would be in the same leaf
    obtain ⟨k, hk, hak⟩ := mem_pairs.mp ha
    have hroute := hends.same a.1 hax fun s hs => (hends.low h rfl s hs e he).trans hea
    rw [hs.routed d (Nat.le_refl d) k hk a hak, Option.some.injEq] at hroute
    subst hroute
    exact (hs.descending d (Nat.le_refl d) k hk).le_of_scan hscan hak hax

/-- A probe finds the pair with the largest key that is low enough, or tells below which separator it may be. -/
theorem Legible.probe (hl : Legible t c r (t.height - 1)) (hx : x < 2 ^ w.bits) :
    ∃ result, t.probe r (Words.ofNat w.words x) = .ok result ∧ (c.pairs r (t.height - 1)).Probed w x result := by
  have hxw : x < 2 ^ (64 * t.geometry.keyLength) := Nat.lt_of_lt_of_le hx (Key.pow_bits_le w)
  have hroot : c.Floored r 0 x r none := ⟨fun s hs => (by cases hs), fun s hs => (by cases hs), fun y _ _ => rfl⟩
  obtain ⟨leaf, floor, hdescent, hends⟩ :=
    hl.descent hx (t.height - 1) (Nat.zero_add _) (List.mem_singleton_self r) hroot
  rw [Option.map_none] at hdescent
  -- a leaf that has nothing leaves only the keys below the last separator
  have hgap : (∀ h ∈ leaf, (c h).scan x = none) →
      ∃ result, (match floor.map (Words.ofNat w.words) with
        | some separator => .below separator
        | none => .nothing) = result ∧ (c.pairs r (t.height - 1)).Probed w x result := fun hnone => by
    refine ⟨_, rfl, ?_⟩
    cases floor with
    | none =>
      exact .nothing (Row.scan_eq_none.mpr fun e he => hends.gap hl.searchable hnone he fun s hs => (by cases hs))
    | some s =>
      refine .below (hends.le s rfl) fun e he ⟨hse, hex⟩ => ?_
      have := hends.gap hl.searchable hnone he fun s' hs' => (by cases hs'; exact hse)
      omega
  rw [Tree.probe]
  simp only [bind, Except.bind, hdescent]
  cases leaf with
  | none =>
    obtain ⟨result, heq, hprobed⟩ := hgap fun _ hh => (by cases hh)
    refine ⟨result, ?_, hprobed⟩
    cases floor <;> exact congrArg Except.ok heq
  | some h =>
    have hh := mem_level_of_route (hends.same x (Nat.le_refl x) hends.le)
    obtain ⟨n, hn, hshows⟩ := hl.node _ (Nat.le_refl _) h hh
    have hpos : n.position t.geometry (Words.ofNat w.words x) = .ok ((c h).above x).length := hshows.position_eq hxw
    have hplace := (c h).getElem?_place x
    rw [Row.head?_upTo] at hplace
    simp only [hn, hpos]
    cases hscan : (c h).scan x with
    | some e =>
      rw [hscan] at hplace
      have hmem := List.mem_of_getElem? hplace
      refine ⟨_, ?_, .found (hends.scan hl.searchable hscan)⟩
      rw [if_pos (hshows.lt_of_scan hscan), hshows.value _ e hplace]
      simp only [ne_eq, hshows.used e hmem, not_false_eq_true, if_true, pure, Except.pure,
        hl.entryIn (Nat.le_refl _) hh hplace]
    | none =>
      rw [hscan] at hplace
      have hge := List.getElem?_eq_none_iff.mp hplace
      obtain ⟨result, heq, hprobed⟩ := hgap fun k hk => (by cases hk; exact hscan)
      refine ⟨result, ?_, hprobed⟩
      by_cases hlt : ((c h).above x).length < t.geometry.pairs
      · rw [if_pos hlt, hshows.value_free _ hge hlt]
        cases floor <;> exact congrArg Except.ok heq
      · rw [if_neg hlt]
        cases floor <;> exact congrArg Except.ok heq

/-- The search for the last entry below a key finds the pair with the largest key below it. -/
theorem Legible.searchBelow (hl : Legible t c r (t.height - 1)) (hx : x < 2 ^ w.bits) :
    t.searchBelow r (Words.ofNat w.words x) = .ok (((c.pairs r (t.height - 1)).below x).bind (Pair.entry w)) := by
  induction x using Nat.strongRecOn with
  | ind x ih =>
    have hwords : ∀ y ≤ x, y < 2 ^ (64 * w.words) := fun y hy =>
      Nat.lt_of_le_of_lt hy (Nat.lt_of_lt_of_le hx (Key.pow_bits_le w))
    rw [Tree.searchBelow]
    cases x with
    | zero =>
      rw [if_pos ((Words.isZero_ofNat (hwords 0 (Nat.le_refl 0))).mpr rfl),
        Row.below_eq_none fun e _ => Nat.zero_le e.1]
      rfl
    | succ x =>
      obtain ⟨result, hprobe, hprobed⟩ := hl.probe (x := x) (by omega)
      rw [if_neg fun h0 => Nat.succ_ne_zero x ((Words.isZero_ofNat (hwords _ (Nat.le_refl _))).mp h0),
        Words.pred_ofNat (Nat.succ_pos x) (hwords _ (Nat.le_refl _)), Nat.succ_sub_one, hprobe, Row.below_succ]
      cases hprobed with
      | found he =>
        rw [he]
        rfl
      | nothing hnone =>
        rw [hnone]
        rfl
      | @below s hs hgap =>
        rw [← Row.below_succ, ← Row.below_eq_of_gap hgap (by omega), ← ih s (by omega) (by omega)]
        refine if_pos ?_
        rw [Words.toNat_ofNat (hwords s (by omega)), Words.toNat_ofNat (hwords _ (Nat.le_refl _))]
        omega

end Trees
end MemoTree
