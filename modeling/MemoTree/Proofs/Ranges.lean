import MemoTree.Proofs.Whole

/-! # The range of a node

A lookup reaches a node only for the keys of its range. Going down from the root, the range is cut at each node by the
separator of the child and by the separator of its neighbour with larger keys (`Rows.Within`). Since every key of a
sound layout is led to its node, it is in the range of the node. -/

namespace MemoTree
open Pool NodePool Rows

/-- What the keys under slot `j` have to be below: the key of the slot before it. -/
def Row.ceiling (row : Row) (j : Nat) (upper : Option Nat) : Option Nat :=
  if j = 0 then upper else row[j - 1]?.map (·.1)

/-- The keys that a lookup leads to `h`, `i` levels below `r`, are at least `lower` and below `upper`. -/
def Rows.Within (c : Rows) (r : Handle) (i : Nat) (h : Handle) (lower upper : Option Nat) : Prop :=
  ∀ x, c.route x r i = some h → (∀ l ∈ lower, l ≤ x) ∧ ∀ u ∈ upper, x < u

section Rows
variable {bound : Nat} {c : Rows} {r h k : Handle} {d i j x : Nat} {e : Pair} {lower upper : Option Nat} {row : Row}

theorem Rows.within_root (c : Rows) (r : Handle) : c.Within r 0 r none none := fun x _ =>
  ⟨fun _ hl => (by cases hl), fun _ hu => (by cases hu)⟩

theorem Row.Descending.lt_before {b : Pair} (hd : row.Descending) (hj : 0 < j) (hb : row[j - 1]? = some b)
    (he : row[j]? = some e) : e.1 < b.1 := by
  obtain ⟨hj₁, rfl⟩ := List.getElem?_eq_some_iff.mp he
  obtain ⟨hj₀, rfl⟩ := List.getElem?_eq_some_iff.mp hb
  exact List.pairwise_iff_getElem.mp hd (j - 1) j hj₀ hj₁ (by omega)

/-- A scan that finds a pair passes the pair before it. -/
theorem Row.Descending.lt_of_scan {b : Pair} (hd : row.Descending) (hs : row.scan x = some e) (hj : 0 < j)
    (hb : row[j - 1]? = some b) (he : row[j]? = some e) : x < b.1 := by
  have hlt := hd.lt_before hj hb he
  obtain ⟨A, B, rfl, hA⟩ := Row.scan_split hs
  rcases List.mem_append.mp (List.mem_of_getElem? hb) with hmem | hmem
  · exact hA b hmem
  · rcases List.mem_cons.mp hmem with rfl | hmem
    · exact absurd hlt (Nat.lt_irrefl _)
    · exact absurd hlt (Nat.lt_asymm ((List.pairwise_cons.mp hd.of_append.2.1).1 b hmem))

theorem Row.ceiling_lt (hupper : ∀ u ∈ upper, u < bound) (hrow : ∀ e ∈ row, e.1 < bound) :
    ∀ u ∈ row.ceiling j upper, u < bound := by
  intro u hu
  rw [Row.ceiling] at hu
  split at hu
  · exact hupper u hu
  · obtain ⟨b, hb, rfl⟩ := Option.map_eq_some_iff.mp hu
    exact hrow b (List.mem_of_getElem? hb)

/-- Scans for the keys between a separator and its neighbour with larger keys find the separator. -/
theorem Row.Descending.scan_of_range (hd : row.Descending)
    (he : row[j]? = some e) (hle : e.1 ≤ x) (hlt : ∀ u ∈ row.ceiling j upper, x < u) : row.scan x = some e := by
  refine hd.scan_eq (List.mem_of_getElem? he) hle fun a ha hax => ?_
  obtain ⟨hj, rfl⟩ := List.getElem?_eq_some_iff.mp he
  obtain ⟨m, hm, rfl⟩ := List.mem_iff_getElem.mp ha
  have hmono : ∀ {i l : Nat} (hil : i ≤ l) (hl : l < row.length), row[l].1 ≤ row[i].1 := fun {i l} hil hl => by
    rcases Nat.lt_or_eq_of_le hil with hil | rfl
    · exact Nat.le_of_lt (List.pairwise_iff_getElem.mp hd i l (by omega) hl hil)
    · exact Nat.le_refl _
  by_cases hmj : m < j
  · have hx : x < row[j - 1].1 :=
      hlt _ (by rw [Row.ceiling, if_neg (by omega), List.getElem?_eq_getElem (by omega)]; rfl)
    have := hmono (Nat.le_sub_one_of_lt hmj) (by omega)
    omega
  · exact hmono (Nat.le_of_not_lt hmj) hm

/-- What is below the ceiling of a slot is below what the row is below. -/
theorem Row.lt_of_ceiling {u : Nat} (hj : j < row.length)
    (hx : ∀ u ∈ row.ceiling j upper, x < u) (hu : u ∈ upper) (hrow : ∀ e ∈ row, e.1 < u) : x < u := by
  by_cases hj0 : j = 0
  · rw [Row.ceiling, if_pos hj0] at hx
    exact hx u hu
  · rw [Row.ceiling, if_neg hj0, List.getElem?_eq_getElem (by omega)] at hx
    exact (hx _ rfl).trans (hrow _ (List.getElem_mem _))

/-- The range of a child. -/
theorem Sound.within_child (hs : Sound bound c r d) (hi : i < d) (hh : h ∈ c.level r i)
    (hw : c.Within r i h lower upper)
    (he : (c h)[j]? = some e) (hk : e.child = some k) : c.Within r (i + 1) k (some e.1) ((c h).ceiling j upper) := by
  intro x hx
  obtain ⟨hq, ha⟩ := hs.searchable.route_parent hi hh (List.mem_of_getElem? he) hk hx
  refine ⟨fun l hl => ?_, fun u hu => ?_⟩
  · cases hl
    exact Row.le_of_scan ha
  · rw [Row.ceiling] at hu
    split at hu
    · exact (hw x hq).2 u hu
    · rename_i hj
      obtain ⟨b, hb, rfl⟩ := Option.map_eq_some_iff.mp hu
      exact (hs.descending_level (Nat.le_of_lt hi) hh).lt_of_scan ha (Nat.pos_of_ne_zero hj) hb he

/-- The keys of a node are in its range. -/
theorem Sound.within (hs : Sound bound c r d) (hi : i ≤ d) (hh : h ∈ c.level r i) (hw : c.Within r i h lower upper)
    (he : e ∈ c h) : (∀ l ∈ lower, l ≤ e.1) ∧ ∀ u ∈ upper, e.1 < u :=
  hw e.1 (hs.routed i hi h hh e he)

end Rows
end MemoTree
