import MemoTree.Proofs.Scan
import Mathlib.Data.List.Nodup
import Mathlib.Data.List.Pairwise
import Mathlib.Logic.Function.Basic

/-! # The layout of a tree

The rows of all nodes, seen as a function of their handles, make a graph. From a root it is cut into levels
(`Rows.level`). A key leads through it in two ways: a lookup takes what a scan finds (`Rows.route`), a change
takes the last pair where a scan finds nothing (`Rows.land`). The graph is `Sound` down to some depth if no
node is linked twice and every key of a node is led to that node by a lookup. That says both that a key is at
least the separators above it and that it is below the separators of the neighbours with larger keys.

Nothing is said about what lies below the depth, so that a change of a level can be followed while the levels
below it still wait for theirs. -/

namespace MemoTree

/-- The rows of nodes. -/
abbrev Rows := Handle → Row

namespace Rows

/-- The children that the row of a node names. -/
def kids (c : Rows) (h : Handle) : List Handle := (c h).filterMap Pair.child

/-- Where a change for `x` goes from a node. -/
def step (c : Rows) (x : Nat) (h : Handle) : Option Handle := ((c h).aim x).bind Pair.child

/-- Where a lookup of `x` goes from a node. -/
def look (c : Rows) (x : Nat) (h : Handle) : Option Handle := ((c h).scan x).bind Pair.child

/-- The nodes `i` levels below `r`. -/
def level (c : Rows) (r : Handle) : Nat → List Handle
  | 0 => [r]
  | i + 1 => (level c r i).flatMap c.kids

/-- The nodes at most `d` levels below `r`. -/
def under (c : Rows) (r : Handle) : Nat → List Handle
  | 0 => [r]
  | d + 1 => under c r d ++ level c r (d + 1)

/-- The node that `i` steps lead to from `r`. -/
def follow (f : Handle → Option Handle) (r : Handle) : Nat → Option Handle
  | 0 => some r
  | i + 1 => (follow f r i).bind f

/-- The node `i` levels below `r` that a change for `x` goes to. -/
def land (c : Rows) (x : Nat) (r : Handle) (i : Nat) : Option Handle := follow (c.step x) r i

/-- The node `i` levels below `r` that a lookup of `x` goes to. -/
def route (c : Rows) (x : Nat) (r : Handle) (i : Nat) : Option Handle := follow (c.look x) r i

variable {c c' : Rows} {r h k : Handle} {i j d x : Nat}

theorem mem_kids : k ∈ c.kids h ↔ ∃ e ∈ c h, Pair.child e = some k := List.mem_filterMap

theorem step_eq_some : c.step x h = some k ↔ ∃ e, (c h).aim x = some e ∧ Pair.child e = some k :=
  Option.bind_eq_some_iff

theorem look_eq_some : c.look x h = some k ↔ ∃ e, (c h).scan x = some e ∧ Pair.child e = some k :=
  Option.bind_eq_some_iff

theorem mem_kids_of_step (hs : c.step x h = some k) : k ∈ c.kids h := by
  obtain ⟨e, he, hk⟩ := step_eq_some.mp hs
  exact mem_kids.mpr ⟨e, Row.mem_of_aim he, hk⟩

theorem step_of_look (hl : c.look x h = some k) : c.step x h = some k := by
  obtain ⟨e, he, hk⟩ := look_eq_some.mp hl
  exact step_eq_some.mpr ⟨e, Row.aim_of_scan he, hk⟩

/-! ### Levels -/

theorem mem_level_succ : k ∈ c.level r (i + 1) ↔ ∃ h ∈ c.level r i, k ∈ c.kids h := List.mem_flatMap

theorem mem_under : h ∈ c.under r d ↔ ∃ i ≤ d, h ∈ c.level r i := by
  induction d with
  | zero =>
    refine ⟨fun hh => ⟨0, Nat.le_refl 0, hh⟩, fun ⟨i, hi, hh⟩ => ?_⟩
    obtain rfl := Nat.le_zero.mp hi
    exact hh
  | succ d ih =>
    rw [under, List.mem_append, ih]
    constructor
    · rintro (⟨i, hi, hh⟩ | hh)
      · exact ⟨i, by omega, hh⟩
      · exact ⟨d + 1, Nat.le_refl _, hh⟩
    · rintro ⟨i, hi, hh⟩
      rcases Nat.lt_or_ge i (d + 1) with hlt | hge
      · exact Or.inl ⟨i, by omega, hh⟩
      · obtain rfl : i = d + 1 := by omega
        exact Or.inr hh

theorem mem_under_of_level (hi : i ≤ d) (hh : h ∈ c.level r i) : h ∈ c.under r d := mem_under.mpr ⟨i, hi, hh⟩

theorem level_succ (c : Rows) (r : Handle) (i : Nat) :
    c.level r (i + 1) = (c.kids r).flatMap fun k => c.level k i := by
  induction i with
  | zero => simp [level]
  | succ i ih =>
    rw [level, ih, List.flatMap_assoc]
    rfl

theorem mem_level_below : k ∈ c.level r (i + 1) ↔ ∃ e ∈ c r, ∃ q, Pair.child e = some q ∧ k ∈ c.level q i := by
  rw [level_succ, List.mem_flatMap]
  constructor
  · rintro ⟨q, hq, hk⟩
    obtain ⟨e, he, heq⟩ := mem_kids.mp hq
    exact ⟨e, he, q, heq, hk⟩
  · exact fun ⟨e, he, q, heq, hk⟩ => ⟨q, mem_kids.mpr ⟨e, he, heq⟩, hk⟩

/-- The levels down to `i` depend on the children of the nodes above level `i` only. -/
theorem level_congr_kids (hk : ∀ j < i, ∀ h ∈ c.level r j, c'.kids h = c.kids h) : c'.level r i = c.level r i := by
  induction i with
  | zero => rfl
  | succ i ih =>
    rw [level, level, ih fun j hj => hk j (by omega)]
    exact List.flatMap_congr fun h hh => hk i (by omega) h hh

/-- The levels down to `i` do not depend on the rows from level `i` on. -/
theorem level_congr (hc : ∀ j < i, ∀ h ∈ c.level r j, c' h = c h) : c'.level r i = c.level r i :=
  level_congr_kids fun j hj h hh => by rw [kids, kids, hc j hj h hh]

theorem under_congr (hc : ∀ j < d, ∀ h ∈ c.level r j, c' h = c h) : c'.under r d = c.under r d := by
  induction d with
  | zero => rfl
  | succ d ih => rw [under, under, ih fun j hj => hc j (by omega), level_congr hc]

theorem level_of_kids (hk : ∀ h, c'.kids h = c.kids h) : c'.level r i = c.level r i :=
  level_congr_kids fun _ _ h _ => hk h

theorem under_of_kids (hk : ∀ h, c'.kids h = c.kids h) : c'.under r d = c.under r d := by
  induction d with
  | zero => rfl
  | succ d ih => rw [under, under, ih, level_of_kids hk]

/-! ### Paths -/

theorem follow_succ (f : Handle → Option Handle) (r : Handle) (i : Nat) :
    follow f r (i + 1) = (f r).bind fun k => follow f k i := by
  induction i with
  | zero =>
    exact (Option.bind_fun_some (f r)).symm
  | succ i ih =>
    rw [follow, ih, Option.bind_assoc]
    rfl

theorem land_succ (c : Rows) (x : Nat) (r : Handle) (i : Nat) :
    c.land x r (i + 1) = (c.land x r i).bind (c.step x) := rfl

theorem route_succ (c : Rows) (x : Nat) (r : Handle) (i : Nat) :
    c.route x r (i + 1) = (c.route x r i).bind (c.look x) := rfl

theorem land_of_route (hr : c.route x r i = some h) : c.land x r i = some h := by
  induction i generalizing h with
  | zero => exact hr
  | succ i ih =>
    obtain ⟨p, hp, hl⟩ := Option.bind_eq_some_iff.mp hr
    rw [land_succ, ih hp]
    exact step_of_look hl

theorem mem_level_of_land (hl : c.land x r i = some h) : h ∈ c.level r i := by
  induction i generalizing h with
  | zero =>
    cases hl
    exact List.mem_singleton_self r
  | succ i ih =>
    obtain ⟨p, hp, hs⟩ := Option.bind_eq_some_iff.mp hl
    exact mem_level_succ.mpr ⟨p, ih hp, mem_kids_of_step hs⟩

theorem mem_level_of_route (hr : c.route x r i = some h) : h ∈ c.level r i := mem_level_of_land (land_of_route hr)

theorem land_congr (hc : ∀ j < i, ∀ h ∈ c.level r j, c' h = c h) : c'.land x r i = c.land x r i := by
  induction i with
  | zero => rfl
  | succ i ih =>
    rw [land_succ, land_succ, ih fun j hj => hc j (by omega)]
    refine Option.bind_congr fun h hh => ?_
    rw [step, step, hc i (by omega) h (mem_level_of_land hh)]

theorem route_congr (hc : ∀ j < i, ∀ h ∈ c.level r j, c' h = c h) : c'.route x r i = c.route x r i := by
  induction i with
  | zero => rfl
  | succ i ih =>
    rw [route_succ, route_succ, ih fun j hj => hc j (by omega)]
    refine Option.bind_congr fun h hh => ?_
    rw [look, look, hc i (by omega) h (mem_level_of_route hh)]

theorem land_of_step (hs : ∀ h, c'.step x h = c.step x h) : c'.land x r i = c.land x r i := by
  rw [land, land, show c'.step x = c.step x from funext hs]

/-- Changes for `x` do not come by `h` on the first `m` levels. -/
def Misses (c : Rows) (x : Nat) (r : Handle) (m : Nat) (h : Handle) : Prop := ∀ i < m, c.land x r i ≠ some h

theorem misses_succ {m : Nat} : c.Misses x r (m + 1) h ↔ c.Misses x r m h ∧ c.land x r m ≠ some h := by
  rw [Misses, Misses]
  constructor
  · exact fun hm => ⟨fun i hi => hm i (Nat.lt_succ_of_lt hi), hm m (Nat.lt_succ_self m)⟩
  · rintro ⟨hm, hlast⟩ i hi
    rcases Nat.lt_succ_iff_lt_or_eq.mp hi with hi | rfl
    · exact hm i hi
    · exact hlast

theorem misses_congr {m : Nat} (hl : ∀ i < m, c'.land x r i = c.land x r i) : c'.Misses x r m h ↔ c.Misses x r m h :=
  forall_congr' fun i => forall_congr' fun hi => by rw [hl i hi]

/-! ### Nodes are linked once -/

theorem nodup_level (hn : (c.under r d).Nodup) (hi : i ≤ d) : (c.level r i).Nodup := by
  induction d with
  | zero =>
    obtain rfl := Nat.le_zero.mp hi
    exact hn
  | succ d ih =>
    rw [under, List.nodup_append] at hn
    rcases Nat.lt_or_ge i (d + 1) with hlt | hge
    · exact ih hn.1 (by omega)
    · obtain rfl : i = d + 1 := by omega
      exact hn.2.1

/-- A node is on one level. -/
theorem level_unique (hn : (c.under r d).Nodup) (hi : i ≤ d) (hj : j ≤ d) (hhi : h ∈ c.level r i)
    (hhj : h ∈ c.level r j) : i = j := by
  induction d with
  | zero => omega
  | succ d ih =>
    rw [under, List.nodup_append] at hn
    rcases Nat.lt_or_ge i (d + 1) with hid | hid
    · rcases Nat.lt_or_ge j (d + 1) with hjd | hjd
      · exact ih hn.1 (by omega) (by omega)
      · obtain rfl : j = d + 1 := by omega
        exact absurd rfl (hn.2.2 h (mem_under_of_level (by omega) hhi) h hhj)
    · obtain rfl : i = d + 1 := by omega
      rcases Nat.lt_or_ge j (d + 1) with hjd | hjd
      · exact absurd rfl (hn.2.2 h (mem_under_of_level (by omega) hhj) h hhi)
      · omega

theorem parent_unique {p q : Handle} (hn : (c.level r (i + 1)).Nodup) (hp : p ∈ c.level r i) (hq : q ∈ c.level r i)
    (hkp : k ∈ c.kids p) (hkq : k ∈ c.kids q) : p = q := by
  by_contra hne
  have : Std.Symm (Function.onFun List.Disjoint c.kids) := ⟨fun _ _ hd _ ha hb => hd hb ha⟩
  exact (List.nodup_flatMap.mp hn).2.forall hp hq hne hkp hkq

/-- A node is linked from one slot of its parent. -/
theorem slot_unique {row : Row} (hn : (row.filterMap Pair.child).Nodup) {e e' : Pair} (he : e ∈ row) (he' : e' ∈ row)
    (hk : e.child = some k) (hk' : e'.child = some k) : e = e' := by
  induction row with
  | nil => cases he
  | cons a row ih =>
    have hmem : ∀ b : Pair, b ∈ row → b.child = some k → a.child ≠ some k := fun b hb hbk hak => by
      rw [List.filterMap_cons_some hak, List.nodup_cons] at hn
      exact hn.1 (List.mem_filterMap.mpr ⟨b, hb, hbk⟩)
    rcases List.mem_cons.mp he with rfl | her
    · rcases List.mem_cons.mp he' with rfl | her'
      · rfl
      · exact absurd hk (hmem e' her' hk')
    · rcases List.mem_cons.mp he' with rfl | her'
      · exact absurd hk' (hmem e her hk)
      · refine ih ?_ her her'
        cases ha : a.child with
        | none => rwa [List.filterMap_cons_none ha] at hn
        | some b =>
          rw [List.filterMap_cons_some ha] at hn
          exact (List.nodup_cons.mp hn).2

theorem nodup_kids (hn : (c.level r (i + 1)).Nodup) (hh : h ∈ c.level r i) : (c.kids h).Nodup :=
  (List.nodup_flatMap.mp hn).1 h hh

end Rows
end MemoTree
