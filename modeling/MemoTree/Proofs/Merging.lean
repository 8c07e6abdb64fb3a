import MemoTree.Proofs.Changes
import MemoTree.Proofs.Ordered
import MemoTree.Tree.Merge

/-! # Merging

An empty tree takes over the nodes of the other one, so that the two trees exchange their entries. Otherwise entries are
moved one by one: each is inserted into the one tree and then removed from the other. However the merge ends, both trees
are whole, and no entry is lost. -/

namespace MemoTree
open Pool NodePool Rows

section Trees
variable {w : Width} {t t' v : Tree w} {row vrow : Row}

/-- A tree is whole whatever its hooks and its switch for the memo rings are. -/
theorem Whole.of_eq (hw : Whole t row) (hp : t'.pool = t.pool) (hr : t'.root = t.root) (hh : t'.height = t.height)
    (hl : t'.len = t.len) (hg : t'.pairs = t.pairs) : Whole t' row := by
  have hgeo : t'.geometry = t.geometry := by rw [Tree.geometry, Tree.geometry, hg]
  refine ⟨hg ▸ hw.pairs, ?_, hl.trans hw.len, ?_⟩
  · rw [hgeo, hp]
    exact hw.fits
  · rcases hw.state with ⟨hb, hrow⟩ | ⟨c, r, hroot, hperm⟩
    · exact Or.inl ⟨hb.of_eq hp hr hh hg, hrow⟩
    · refine Or.inr ⟨c, r, hroot.of_eq hp hr hh hg, ?_⟩
      rw [hh]
      exact hperm

/-- A tree has no root if and only if it has no entries. -/
theorem Whole.isEmpty_iff (hw : Whole t row) : t.isEmpty = true ↔ row = [] := by
  rcases hw.state with ⟨hb, hrow⟩ | ⟨c, r, hr, hperm⟩
  · rw [Tree.isEmpty, hb.root]
    exact ⟨fun _ => hrow, fun _ => rfl⟩
  · rw [Tree.isEmpty, hr.stand.root]
    refine ⟨fun h => (by cases h), fun hnil => ?_⟩
    obtain ⟨h, hh⟩ := hr.sound.exists_land 0 (Nat.le_refl _)
    obtain ⟨e, rest, hrow⟩ := List.exists_cons_of_ne_nil (hr.full (Nat.le_refl _) (mem_level_of_land hh))
    have he : e ∈ row := hperm.mem_iff.mpr
      (mem_pairs.mpr ⟨h, mem_level_of_land hh, by rw [hrow]; exact List.mem_cons_self⟩)
    rw [hnil] at he
    cases he

theorem Whole.bare (hw : Whole t []) : Bare t := by
  have hempty := hw.isEmpty_iff.mpr rfl
  rcases hw.state with ⟨hb, -⟩ | ⟨c, r, hr, -⟩
  · exact hb
  · rw [Tree.isEmpty, hr.stand.root] at hempty
    cases hempty

theorem Whole.fits_of_ne (hw : Whole t row) (hne : row ≠ []) : 8 * t.geometry.slotWords ≤ addressable := by
  rcases hw.state with ⟨-, hrow⟩ | ⟨c, r, hr, -⟩
  · exact absurd hrow hne
  · exact hr.fits hw.fits

/-! ### The steps of a merge -/

section Steps
variable {t₁ v₁ : Tree w} {left moved : Nat} {k : Key w} {x : Value}

theorem moveEntries_end (hlast : v.last = .ok none) : Says (Tree.moveEntries left moved t v) (.ok (), t, v) := by
  rw [Tree.moveEntries]
  exact Says.bind (Says.lift hlast) (Says.bind (Says.report _) (Says.pure _))

theorem moveEntries_shared (hlast : v.last = .ok (some (k, x)))
    (hrun : Runs (Tree.insert k x) t (.error .duplicateKey) t₁) :
    Says (Tree.moveEntries left moved t v) (.error (.violated (.sharedKey k.val)), t₁, v) := by
  rw [Tree.moveEntries]
  exact Says.bind (Says.lift hlast) (Says.bind (Says.of_runs hrun) (Says.pure _))

theorem moveEntries_full {n : Nat} (hlast : v.last = .ok (some (k, x)))
    (hrun : Runs (Tree.insert k x) t (.error (.outOfMemory n)) t₁) :
    Says (Tree.moveEntries left moved t v) (.error (.outOfMemory n), t₁, v) := by
  rw [Tree.moveEntries]
  exact Says.bind (Says.lift hlast) (Says.bind (Says.of_runs hrun) (Says.pure _))

theorem moveEntries_step {y : Option Value} {out : Except Error Unit × Tree w × Tree w}
    (hlast : v.last = .ok (some (k, x))) (hrun : Runs (Tree.insert k x) t (.ok ()) t₁)
    (hremove : Runs (Tree.remove k) v y v₁) (hmove : Says (Tree.moveEntries left (moved + 1) t₁ v₁) out) :
    Says (Tree.moveEntries (left + 1) moved t v) out := by
  rw [Tree.moveEntries]
  exact Says.bind (Says.lift hlast) (Says.bind (Says.of_runs hrun) (Says.bind (Says.of_runs hremove) hmove))

end Steps

/-- Why a merge moves no more entries into a tree with the pairs `row`: the victim has none, or the one with its largest
key has a key of `row`, or no block is left for it. -/
inductive Row.Stops (row rest : Row) : Except Error Unit → Prop
  | empty : rest = [] → Stops row rest (.ok ())
  | shared {e : Pair} : e ∈ rest → (∀ a ∈ rest, a.1 ≤ e.1) → (∃ a ∈ row, a.1 = e.1) →
      Stops row rest (.error (.violated (.sharedKey e.1)))
  | full {e : Pair} {n : Nat} : e ∈ rest → (∀ a ∈ rest, a.1 ≤ e.1) → (∀ a ∈ row, a.1 ≠ e.1) →
      Stops row rest (.error (.outOfMemory n))

/-- Of the pairs `vrow` of the victim, `moved` went to a tree with the pairs `row`: those with the largest keys, none of
them a key of `row`. -/
structure Row.Moved (row vrow moved rest : Row) : Prop where
  split : vrow.Perm (moved ++ rest)
  above : ∀ a ∈ moved, ∀ b ∈ rest, b.1 < a.1
  fresh : ∀ a ∈ moved, ∀ b ∈ row, b.1 ≠ a.1

theorem Row.Moved.refl (row vrow : Row) : Row.Moved row vrow [] vrow :=
  ⟨List.Perm.refl _, fun _ h => (by cases h), fun _ h => (by cases h)⟩

/-- The pair with the largest key is moved before the others. -/
theorem Row.Moved.first {e : Pair} {vrow' moved rest : Row} (h : Row.Moved (e :: row) vrow' moved rest)
    (hsplit : vrow.Perm (e :: vrow')) (hfresh : ∀ b ∈ row, b.1 ≠ e.1) (hmax : ∀ a ∈ vrow', a.1 < e.1) :
    Row.Moved row vrow (e :: moved) rest := by
  refine ⟨hsplit.trans (h.split.cons e), fun a ha b hb => ?_, fun a ha b hb => ?_⟩
  · rcases List.mem_cons.mp ha with rfl | ha
    · exact hmax b (h.split.mem_iff.mpr (List.mem_append_right moved hb))
    · exact h.above a ha b hb
  · rcases List.mem_cons.mp ha with rfl | ha
    · exact hfresh b hb
    · exact h.fresh a ha b (List.mem_cons_of_mem e hb)

/-- A merge stops for the same reason if it has moved a larger key before. -/
theorem Row.Stops.of_cons {e : Pair} {rest : Row} {result : Except Error Unit} (h : Row.Stops (e :: row) rest result)
    (hmax : ∀ a ∈ rest, a.1 < e.1) : Row.Stops row rest result := by
  cases h with
  | empty hnil => exact .empty hnil
  | shared hmem hle hshared =>
    obtain ⟨a, ha, hae⟩ := hshared
    rcases List.mem_cons.mp ha with rfl | ha
    · exact absurd hae (Nat.ne_of_gt (hmax _ hmem))
    · exact .shared hmem hle ⟨a, ha, hae⟩
  | full hmem hle hne => exact .full hmem hle fun a ha => hne a (List.mem_cons_of_mem e ha)

/-- Entries are moved until the victim has none left or an insertion fails. -/
theorem Whole.moveEntries (left : Nat) : ∀ (count : Nat) {t v : Tree w} {row vrow : Row}, Whole t row → Whole v vrow →
    row ≠ [] → vrow.length ≤ left → ∃ result t' v' moved rest,
      Says (Tree.moveEntries left count t v) (result, t', v') ∧ Whole t' (moved ++ row) ∧ Whole v' rest ∧
      Row.Moved row vrow moved rest ∧ Row.Stops row rest result := by
  induction left with
  | zero =>
    intro count t v row vrow hw hv _ hlen
    obtain rfl : vrow = [] := List.length_eq_zero_iff.mp (by omega)
    rcases hv.last with ⟨hlast, -⟩ | ⟨k, x, -, hmem, -⟩
    · exact ⟨_, t, v, [], [], moveEntries_end hlast, hw, hv, .refl _ _, .empty rfl⟩
    · cases hmem
  | succ left ih =>
    intro count t v row vrow hw hv hne hlen
    -- the last entry of the victim is tried: it is shared, moved, or finds no block
    rcases hv.last with ⟨hlast, rfl⟩ | ⟨k, x, hlast, hmem, hmax⟩
    · exact ⟨_, t, v, [], [], moveEntries_end hlast, hw, hv, .refl _ _, .empty rfl⟩
    rcases hw.insert k x with ⟨hshared, t₁, hrun, hw₁⟩ |
      ⟨hnew, ⟨t₁, hrun, hw₁⟩ | ⟨inUse, t₁, hrun, hw₁, -⟩ | ⟨hlarge, -⟩⟩
    · exact ⟨_, t₁, v, [], vrow, moveEntries_shared hlast hrun, hw₁, hv, .refl _ _, .shared hmem hmax hshared⟩
    · obtain ⟨v₁, y, vrow₁, hremove, hv₁, hperm⟩ : ∃ v₁ y vrow₁, Runs (Tree.remove k) v y v₁ ∧ Whole v₁ vrow₁ ∧
          vrow.Perm ((k.val, x.val) :: vrow₁) := by
        rcases hv.remove k with ⟨hnone, -⟩ | ⟨y, hy, v₁, vrow₁, hremove, hv₁, hperm⟩
        · exact absurd rfl (hnone _ hmem)
        · have heq : (k.val, y.val) = (k.val, x.val) := hv.unique hy hmem rfl
          exact ⟨v₁, some y, vrow₁, hremove, hv₁, heq ▸ hperm⟩
      have hlen₁ := hperm.length_eq
      rw [List.length_cons] at hlen₁
      have hless : ∀ a ∈ vrow₁, a.1 < k.val := fun a ha =>
        Nat.lt_of_le_of_ne (hmax a (hperm.mem_iff.mpr (List.mem_cons_of_mem _ ha))) (hv.ne_of_perm hperm a ha)
      obtain ⟨result, t₂, v₂, moved, rest, hmove, hw₂, hv₂, hmoved, hstop⟩ := ih (count + 1) hw₁ hv₁
        (List.cons_ne_nil _ _) (by omega)
      exact ⟨result, t₂, v₂, (k.val, x.val) :: moved, rest, moveEntries_step hlast hrun hremove hmove,
        hw₂.perm List.perm_middle, hv₂, hmoved.first hperm hnew hless,
        hstop.of_cons fun a ha => hless a (hmoved.split.mem_iff.mpr (List.mem_append_right moved ha))⟩
    · exact ⟨_, t₁, v, [], vrow, moveEntries_full hlast hrun, hw₁, hv, .refl _ _, .full hmem hmax hnew⟩
    · exact absurd (hw.fits_of_ne hne) hlarge

/-- A tree without entries exchanges all but its switch for the memo rings and its hooks with the victim. -/
theorem merge_empty (hempty : t.root = none) : Says (Tree.merge t v)
    (.ok (), { v with memoize := t.memoize, hooks := t.hooks }, { t with memoize := v.memoize, hooks := v.hooks }) :=
  Says.of_pos (Option.isNone_iff_eq_none.mpr hempty) (Says.bind (Says.report _) (Says.pure _))

/-- A merge leaves two whole trees. The entries that it moves are those of the victim with the largest keys. -/
theorem Whole.merge (hw : Whole t row) (hv : Whole v vrow) : ∃ result t' v' moved rest,
    Says (Tree.merge t v) (result, t', v') ∧ Whole t' (moved ++ row) ∧ Whole v' rest ∧ Row.Moved row vrow moved rest ∧
      Row.Stops row rest result := by
  by_cases hempty : t.root = none
  · obtain rfl := hw.isEmpty_iff.mp (Option.isNone_iff_eq_none.mpr hempty)
    refine ⟨_, _, _, vrow, [], merge_empty hempty, ?_, hw.of_eq rfl rfl rfl rfl rfl, ⟨?_, fun _ _ _ h => (by cases h),
      fun _ _ _ h => (by cases h)⟩, .empty rfl⟩
    · rw [List.append_nil]
      exact hv.of_eq rfl rfl rfl rfl rfl
    · rw [List.append_nil]
  · have hsome : ¬t.isEmpty = true := fun h => hempty (Option.isNone_iff_eq_none.mp h)
    have hne : row ≠ [] := fun h => hsome (hw.isEmpty_iff.mpr h)
    obtain ⟨result, t', v', moved, rest, hmove, h⟩ := Whole.moveEntries v.len 0 hw hv hne (Nat.le_of_eq hv.len.symm)
    exact ⟨result, t', v', moved, rest, Says.of_neg hsome hmove, h⟩

end Trees
end MemoTree
