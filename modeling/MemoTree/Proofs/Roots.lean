import MemoTree.Proofs.Branching
import Mathlib.Data.List.Chain

/-! # Roots with two children

A removal lets the height drop by one level. So the root branches if a node that is left with a single child never has
a child with a single pair, and whether removals see to that depends on the number of slots. With an even number of
slots, at least four, they do: among the first half of the siblings, and among the last half, there is always one with
two pairs. With five slots, of two neighbours one has two pairs. With two slots siblings with one pair each stand side
by side, and a root can be left with one child. -/

namespace MemoTree

/-! ### Two pairs in the first half and in the last half -/

/-- Unless there is only one, there is one with two pairs among the first `m` siblings. -/
def Thick (m : Nat) (l : List Nat) : Prop := 2 ≤ l.length → ∃ n ∈ l.take m, 2 ≤ n

namespace Thick
variable {m n n' : Nat} {X Y Z l l' : List Nat}

theorem near (hX : X.length < m) (hn : 2 ≤ n) : Thick m (X ++ n :: Y) := fun _ => by
  obtain ⟨k, hk⟩ : ∃ k, m - X.length = k + 1 := ⟨m - X.length - 1, by omega⟩
  refine ⟨n, ?_, hn⟩
  rw [List.take_append, hk, List.take_succ_cons]
  exact List.mem_append_right _ List.mem_cons_self

theorem far (h : Thick m (X ++ Y)) (hm : 2 ≤ m) (hX : m ≤ X.length) : Thick m (X ++ Z) := fun _ => by
  rw [List.take_append_of_le_length hX]
  rw [Thick, List.take_append_of_le_length hX, List.length_append] at h
  exact h (by omega)

/-- What comes behind the first siblings may change if it begins with one with two pairs. -/
theorem put (h : Thick m (X ++ Y)) (hm : 2 ≤ m) (hn : 2 ≤ n) : Thick m (X ++ n :: Z) := by
  rcases Nat.lt_or_ge X.length m with hX | hX
  · exact near hX hn
  · exact h.far hm hX

theorem mem_take_middle (hX : X.length < m) : n' ∈ (X ++ n :: Y).take m ↔
    n' ∈ X ∨ n' = n ∨ n' ∈ Y.take (m - X.length - 1) := by
  obtain ⟨k, hk⟩ : ∃ k, m - X.length = k + 1 := ⟨m - X.length - 1, by omega⟩
  rw [List.take_append, List.take_of_length_le (Nat.le_of_lt hX), hk, List.take_succ_cons, List.mem_append,
    List.mem_cons, Nat.add_sub_cancel]

theorem more (h : Thick m (X ++ n :: Y)) (hm : 2 ≤ m) : Thick m (X ++ (n + 1) :: Y) := by
  rcases Nat.lt_or_ge X.length m with hX | hX
  · intro hlen
    obtain ⟨k, hk, hthick⟩ := h (by simpa using hlen)
    rcases (mem_take_middle hX).mp hk with hk | rfl | hk
    · exact ⟨k, (mem_take_middle hX).mpr (Or.inl hk), hthick⟩
    · exact ⟨k + 1, (mem_take_middle hX).mpr (Or.inr (Or.inl rfl)), Nat.le_succ_of_le hthick⟩
    · exact ⟨k, (mem_take_middle hX).mpr (Or.inr (Or.inr hk)), hthick⟩
  · exact h.far hm hX

theorem drop (h : Thick m (X ++ 1 :: Y)) (hm : 2 ≤ m) : Thick m (X ++ Y) := by
  rcases Nat.lt_or_ge X.length m with hX | hX
  · intro hlen
    obtain ⟨k, hk, hthick⟩ := h (by
      rw [List.length_append, List.length_cons]
      rw [List.length_append] at hlen
      omega)
    refine ⟨k, ?_, hthick⟩
    rw [List.take_append, List.take_of_length_le (Nat.le_of_lt hX)]
    rcases (mem_take_middle hX).mp hk with hk | rfl | hk
    · exact List.mem_append_left _ hk
    · exact absurd hthick (by decide)
    · exact List.mem_append_right _ (List.take_subset_take_left Y (Nat.sub_le _ _) hk)
  · exact h.far hm hX

/-- A sibling that loses a pair keeps two, or both its neighbours have two. -/
theorem stuck (h : Thick m (X ++ (n + 1) :: Y)) (hm : 2 ≤ m) (hX : ∀ k ∈ X.getLast?, 2 ≤ n ∨ 2 ≤ k)
    (hY : ∀ k ∈ Y.head?, 2 ≤ n ∨ 2 ≤ k) : Thick m (X ++ n :: Y) := by
  rcases Nat.lt_or_ge X.length m with hlt | hge
  · by_cases hn : 2 ≤ n
    · exact near hlt hn
    · rcases List.eq_nil_or_concat X with rfl | ⟨A, k, rfl⟩
      · cases Y with
        | nil => exact fun hlen => absurd hlen (Nat.lt_irrefl 1)
        | cons k B => exact near (X := [n]) hm ((hY k rfl).resolve_left hn)
      · rw [List.concat_eq_append, List.append_assoc]
        rw [List.length_concat] at hlt
        exact near (Nat.lt_of_succ_lt hlt) ((hX k (by simp)).resolve_left hn)
  · exact h.far hm hge

theorem append (h : Thick m l) (hm : 2 ≤ m) (hone : ∀ n, l = [n] → 2 ≤ n) (h' : Thick m l') : Thick m (l ++ l') := by
  match l, h, hone with
  | [], _, _ => exact h'
  | [n], _, hone => exact near (X := []) (Nat.lt_of_lt_of_le Nat.zero_lt_two hm) (hone n rfl)
  | a :: b :: l, h, _ =>
    intro _
    obtain ⟨k, hk, hthick⟩ := h (by simp)
    exact ⟨k, List.take_append ▸ List.mem_append_left _ hk, hthick⟩

theorem append_few (h : Thick m l) (hone : ∀ n, l = [n] → 2 ≤ n) (h' : Thick m l') (hl : l.length < m) :
    Thick m (l' ++ l) := by
  match l', h' with
  | [], _ => exact h
  | a :: b :: l', h' =>
    intro _
    obtain ⟨k, hk, hthick⟩ := h' (by simp)
    exact ⟨k, List.take_append ▸ List.mem_append_left _ hk, hthick⟩
  | [a], _ =>
    rw [List.singleton_append]
    intro hlen
    rw [List.take_of_length_le (Nat.succ_le_of_lt hl)]
    match l, h, hone with
    | [], _, _ => exact absurd hlen (Nat.lt_irrefl 1)
    | [n], _, hone => exact ⟨n, by simp, hone n rfl⟩
    | b :: b' :: l, h, _ =>
      obtain ⟨k, hk, hthick⟩ := h (by simp)
      exact ⟨k, List.mem_cons_of_mem a (List.mem_of_mem_take hk), hthick⟩

end Thick

/-- There is a sibling with two pairs among the first `m` and among the last `m`. -/
def Rule.thick (m : Nat) : Rule := fun sizes => Thick m sizes ∧ Thick m sizes.reverse

def Rule.apart : Rule := List.IsChain fun a b => 2 ≤ a ∨ 2 ≤ b

/-! ### What keeps the rules -/

section Rules
variable {m n : Nat} {X Y : List Nat}

theorem thick_middle : Rule.thick m (X ++ n :: Y) ↔ Thick m (X ++ n :: Y) ∧ Thick m (Y.reverse ++ n :: X.reverse) := by
  rw [Rule.thick, List.reverse_append, List.reverse_cons, List.append_assoc, List.singleton_append]

theorem Rule.thick_grows (hm : 2 ≤ m) : (Rule.thick m).Grows (2 * m) where
  alone := ⟨fun h => absurd h (Nat.lt_irrefl 1), fun h => absurd h (Nat.lt_irrefl 1)⟩
  more h := by
    obtain ⟨h₁, h₂⟩ := thick_middle.mp h
    exact thick_middle.mpr ⟨h₁.more hm, h₂.more hm⟩
  split {X Y} h := by
    obtain ⟨h₁, h₂⟩ := thick_middle.mp h
    refine thick_middle.mpr ⟨h₁.put hm (by omega), ?_⟩
    rw [List.reverse_cons, List.append_assoc]
    exact h₂.put hm (by omega)
  cut {l} h hl := by
    rw [Nat.mul_div_cancel_left m Nat.zero_lt_two]
    have hlen : (l.take m).length = m := by
      rw [List.length_take]
      omega
    have hlen' : (l.drop m).length = m := by
      rw [List.length_drop]
      omega
    -- one thick sibling is among the first `m` and one among the last `m`: each half has its own
    obtain ⟨a, ha, ha2⟩ := h.1 (by omega)
    obtain ⟨b, hb, hb2⟩ := h.2 (by rw [List.length_reverse]; omega)
    rw [List.take_reverse, List.mem_reverse, hl, show 2 * m - m = m by omega] at hb
    refine ⟨⟨fun _ => ⟨a, ?_, ha2⟩, fun _ => ⟨a, ?_, ha2⟩⟩, ⟨fun _ => ⟨b, ?_, hb2⟩, fun _ => ⟨b, ?_, hb2⟩⟩⟩
    · rwa [List.take_of_length_le hlen.le]
    · rwa [List.take_of_length_le (by rw [List.length_reverse, hlen]), List.mem_reverse]
    · rwa [List.take_of_length_le hlen'.le]
    · rwa [List.take_of_length_le (by rw [List.length_reverse, hlen']), List.mem_reverse]

theorem Rule.thick_shrinks (hm : 2 ≤ m) : (Rule.thick m).Shrinks (2 * m) where
  less h hn := by
    obtain ⟨h₁, h₂⟩ := thick_middle.mp h
    exact thick_middle.mpr ⟨h₁.put hm (by omega), h₂.put hm (by omega)⟩
  stuck {X Y n} h hn hX hY := by
    obtain ⟨h₁, h₂⟩ := thick_middle.mp h
    have hX' : ∀ k ∈ X.getLast?, 2 ≤ n ∨ 2 ≤ k := fun k hk => by
      have := hX k hk
      omega
    have hY' : ∀ k ∈ Y.head?, 2 ≤ n ∨ 2 ≤ k := fun k hk => by
      have := hY k hk
      omega
    refine thick_middle.mpr ⟨h₁.stuck hm hX' hY', h₂.stuck hm ?_ ?_⟩
    · rwa [List.getLast?_reverse]
    · rwa [List.head?_reverse]
  drop {X Y} h := by
    obtain ⟨h₁, h₂⟩ := thick_middle.mp h
    exact ⟨h₁.drop hm, List.reverse_append ▸ h₂.drop hm⟩
  single {X Y n} h hXY := by
    obtain ⟨k, hk, hk2⟩ := h.1 (by
      have := congrArg List.length hXY
      simp at this ⊢
      omega)
    have hkn : k ∈ X ++ 1 :: Y := List.mem_of_mem_take hk
    have hmem : k = 1 ∨ k ∈ X ++ Y := by
      simp at hkn ⊢
      tauto
    rcases hmem with rfl | hmem
    · exact absurd hk2 (by decide)
    · rw [hXY, List.mem_singleton] at hmem
      exact hmem ▸ hk2
  join {X Y a b a' b'} h ha hb _ := by
    have h₁ : Thick m (X ++ a :: b :: Y) := h.1
    -- read from the right, the pair that is joined comes the other way round
    have h₂ : Thick m (Y.reverse ++ ([b] ++ a :: X.reverse)) := by
      have := h.2
      simpa using this
    exact thick_middle.mpr ⟨h₁.put hm (by omega), h₂.put hm (by omega)⟩
  gather {l l'} h h' hl hone := by
    rw [Nat.mul_div_cancel_left m Nat.zero_lt_two] at hl
    have hone' : ∀ n, l.reverse = [n] → 2 ≤ n := fun n hn => hone n (by
      rw [← List.reverse_reverse l, hn, List.reverse_singleton])
    have hl' : l.reverse.length < m := by rwa [List.length_reverse]
    refine ⟨⟨h.1.append hm hone h'.1, ?_⟩, ⟨h.1.append_few hone h'.1 hl, ?_⟩⟩
    · rw [List.reverse_append]
      exact h.2.append_few hone' h'.2 hl'
    · rw [List.reverse_append]
      exact h.2.append hm hone' h'.2

theorem Rule.apart_middle : Rule.apart (X ++ n :: Y) ↔ Rule.apart X ∧ Rule.apart Y ∧
    (∀ k ∈ X.getLast?, 2 ≤ k ∨ 2 ≤ n) ∧ ∀ k ∈ Y.head?, 2 ≤ n ∨ 2 ≤ k := by
  simp only [Rule.apart, List.isChain_append, List.isChain_cons, List.head?_cons, Option.mem_def, Option.some.injEq,
    forall_eq']
  tauto

/-- Any sibling may be exchanged for one with two pairs. -/
theorem Rule.apart_put (h : Rule.apart (X ++ n :: Y)) {n' : Nat} (hn : 2 ≤ n') : Rule.apart (X ++ n' :: Y) := by
  obtain ⟨hX, hY, -, -⟩ := apart_middle.mp h
  exact apart_middle.mpr ⟨hX, hY, fun _ _ => Or.inr hn, fun _ _ => Or.inl hn⟩

theorem Rule.apart_grows : Rule.apart.Grows 5 where
  alone := List.isChain_singleton 5
  more {X Y n} h := by
    obtain ⟨hX, hY, hXn, hnY⟩ := apart_middle.mp h
    exact apart_middle.mpr ⟨hX, hY, fun k hk => (hXn k hk).imp_right Nat.le_succ_of_le,
      fun k hk => (hnY k hk).imp_left Nat.le_succ_of_le⟩
  split h := by
    obtain ⟨hX, hY, -, -⟩ := apart_middle.mp h
    refine apart_middle.mpr ⟨hX, ?_, fun _ _ => Or.inr (by decide), fun _ _ => Or.inl (by decide)⟩
    exact List.isChain_cons.mpr ⟨fun _ _ => Or.inl (by decide), hY⟩
  cut h _ := ⟨List.IsChain.take h _, List.IsChain.drop h _⟩

theorem Rule.apart_shrinks : Rule.apart.Shrinks 5 where
  less h hn := apart_put h (by omega)
  stuck {X Y n} h hn hX hY := by
    obtain ⟨hX', hY', -, -⟩ := apart_middle.mp h
    refine apart_middle.mpr ⟨hX', hY', fun k hk => ?_, fun k hk => ?_⟩
    · have := hX k hk
      omega
    · have := hY k hk
      omega
  drop {X Y} h := by
    obtain ⟨hX, hY, hXn, -⟩ := apart_middle.mp h
    exact List.isChain_append.mpr ⟨hX, hY, fun k hk _ _ => Or.inl ((hXn k hk).resolve_right (by decide))⟩
  single {X Y n} h hXY := by
    obtain ⟨-, -, hXn, hnY⟩ := apart_middle.mp h
    rcases List.append_eq_singleton_iff.mp hXY with ⟨rfl, rfl⟩ | ⟨rfl, rfl⟩
    · exact (hnY n rfl).resolve_left (by decide)
    · exact (hXn n rfl).resolve_right (by decide)
  join {X Y a b a' b'} h ha hb _ := by
    obtain ⟨hX, hY, -, -⟩ := apart_middle.mp h
    exact apart_middle.mpr ⟨hX, (List.isChain_cons.mp hY).2, fun _ _ => Or.inr (by omega), fun _ _ => Or.inl (by omega)⟩
  gather {l l'} h h' hl hone := by
    match l, h, hl, hone with
    | [], _, _, _ => exact ⟨h', by rwa [List.append_nil]⟩
    | [n], _, _, hone =>
      have hn := hone n rfl
      exact ⟨List.isChain_cons.mpr ⟨fun _ _ => Or.inl hn, h'⟩,
        apart_middle.mpr ⟨h', .nil, fun _ _ => Or.inr hn, fun _ _ => Or.inl hn⟩⟩

end Rules

/-! ### Trees -/

/-- The root branches, unless it is a leaf, whatever calls led to the tree. -/
theorem Tree.LedBy.branches {w : Width} {t : Tree w} {allowed : Tree.Call w → Prop} {pairs : Nat}
    (h : t.LedBy allowed pairs) (hpairs : 4 ≤ pairs) (hshape : pairs % 2 = 0 ∨ pairs = 5) : t.Branches := by
  rcases hshape with heven | rfl
  · obtain ⟨m, rfl⟩ : ∃ m, pairs = 2 * m := ⟨pairs / 2, by omega⟩
    have hm : 2 ≤ m := by omega
    exact (h.follows (Rule.thick_grows hm) fun _ _ _ => Rule.thick_shrinks hm).root_branches
  · exact (h.follows Rule.apart_grows fun _ _ _ => Rule.apart_shrinks).root_branches

/-! ### Roots with two children and with one -/

/-- A tree with nodes of four slots with seven entries in three leaves, of which a removal joined the last two. -/
def Tree.regrown : Tree .bits64 :=
  (.onPool (.empty (⟨1, 4⟩ : Geometry).blockWords none) 4 true : Tree .bits64).afterAll
    [.insert (Key.ofNat _ 1) .one, .insert (Key.ofNat _ 2) .one, .insert (Key.ofNat _ 3) .one,
      .insert (Key.ofNat _ 4) .one,
      .insert (Key.ofNat _ 5) .one, .insert (Key.ofNat _ 6) .one, .insert (Key.ofNat _ 7) .one, .remove (Key.ofNat _ 2)]

theorem Tree.regrown_led : Tree.regrown.LedBy (fun _ => True) 4 :=
  LedBy.afterAll (.made (.ofConfig (c := { pairs := some 4 }) rfl) rfl) fun _ _ => trivial

theorem branches_of_regrown : Tree.regrown.LedBy (fun _ => True) 4 ∧ Tree.regrown.height = 2 ∧ Tree.regrown.Branches :=
  ⟨Tree.regrown_led, by decide +kernel, Tree.regrown_led.branches (by decide) (by decide)⟩

/-- A tree with nodes of two slots: of four leaves with one entry each below two nodes, the last two went. -/
def Tree.thinned : Tree .bits64 :=
  (.onPool (.empty (⟨1, 2⟩ : Geometry).blockWords none) 2 true : Tree .bits64).afterAll
    [.insert (Key.ofNat _ 1) .one, .insert (Key.ofNat _ 2) .one, .insert (Key.ofNat _ 3) .one,
      .insert (Key.ofNat _ 4) .one, .remove (Key.ofNat _ 2), .remove (Key.ofNat _ 1)]

theorem Tree.thinned_led : Tree.thinned.LedBy (fun call => call.removes = true ∨ ∃ k, call = .insert k .one) 2 :=
  LedBy.afterAll (.made (.ofConfig (c := { pairs := some 2 }) rfl) rfl) (by simp [Tree.Call.removes])

/-- The number of used slots of the root. -/
def Tree.rootFill {w : Width} (t : Tree w) : Option Nat := do
  let r ← t.root
  let n ← (t.pool.block r).toOption
  (n.fill t.geometry).toOption

theorem Tree.Branches.rootFill {w : Width} {t : Tree w} (h : t.Branches) (htall : 1 < t.height) :
    ∃ fill, t.rootFill = some fill ∧ 2 ≤ fill := by
  obtain ⟨r, n, fill, hroot, hn, hfill, hle, -⟩ := h htall
  exact ⟨fill, by simp [Tree.rootFill, hroot, hn, hfill, Except.toOption], hle⟩

/-- With two slots, a tree with two entries is left with a root that has one child. -/
theorem not_branches_of_thinned : Tree.thinned.LedBy (fun call => call.removes = true ∨ ∃ k, call = .insert k .one) 2 ∧
    Tree.thinned.height = 2 ∧ Tree.thinned.rootFill = some 1 ∧ ¬ Tree.thinned.Branches := by
  have hheight : Tree.thinned.height = 2 := by decide +kernel
  have hfill : Tree.thinned.rootFill = some 1 := by decide +kernel
  refine ⟨Tree.thinned_led, hheight, hfill, fun h => ?_⟩
  obtain ⟨fill, hroot, hle⟩ := h.rootFill (by omega)
  rw [hfill, Option.some.injEq] at hroot
  omega

end MemoTree
