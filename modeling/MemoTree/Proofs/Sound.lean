import MemoTree.Proofs.Layout

/-! # Sound layouts

What a sound layout says about its nodes, and how a sound layout is made from another one: by new rows on its
lowest level, by one more level below, or by lowering the separators on the path of a key. Searches need less than
soundness: a node may be on more than one level, as long as it is on each of them once (`Searchable`). -/

namespace MemoTree

/-- The layout is sound from the root `r` down to depth `d`: rows descend and their keys are below `bound`, rows
above the lowest level name children, no node is linked twice, and every key is found where it is. -/
structure Sound (bound : Nat) (c : Rows) (r : Handle) (d : Nat) : Prop where
  nodup : (c.under r d).Nodup
  descending : ∀ h ∈ c.under r d, (c h).Descending
  small : ∀ h ∈ c.under r d, ∀ e ∈ c h, e.1 < bound
  inner : ∀ i < d, ∀ h ∈ c.level r i, c h ≠ [] ∧ ∀ e ∈ c h, ∃ k, Pair.child e = some k
  routed : ∀ i ≤ d, ∀ h ∈ c.level r i, ∀ e ∈ c h, c.route e.1 r i = some h

/-- The layout can be searched from the root `r` down to depth `d`: as in a sound layout every key is found where it is,
but a node that is linked once on a level may be linked on other levels too. -/
structure Searchable (bound : Nat) (c : Rows) (r : Handle) (d : Nat) : Prop where
  nodup : ∀ i ≤ d, (c.level r i).Nodup
  descending : ∀ i ≤ d, ∀ h ∈ c.level r i, (c h).Descending
  small : ∀ i ≤ d, ∀ h ∈ c.level r i, ∀ e ∈ c h, e.1 < bound
  inner : ∀ i < d, ∀ h ∈ c.level r i, c h ≠ [] ∧ ∀ e ∈ c h, ∃ k, Pair.child e = some k
  routed : ∀ i ≤ d, ∀ h ∈ c.level r i, ∀ e ∈ c h, c.route e.1 r i = some h

namespace Searchable
open Rows
variable {bound : Nat} {c : Rows} {r h k p : Handle} {i d x : Nat} {e e' : Pair}

/-- A lookup that reaches a node passes its parent. -/
theorem route_parent (hs : Searchable bound c r d) (hi : i < d) (hp : p ∈ c.level r i) (he : e ∈ c p)
    (hk : e.child = some k) (hx : c.route x r (i + 1) = some k) : c.route x r i = some p ∧ (c p).scan x = some e := by
  have hnodup := hs.nodup (i + 1) hi
  obtain ⟨q, hq, hl⟩ := Option.bind_eq_some_iff.mp hx
  obtain ⟨a, ha, hak⟩ := look_eq_some.mp hl
  obtain rfl : q = p := Rows.parent_unique hnodup (mem_level_of_route hq) hp
    (mem_kids.mpr ⟨a, Row.mem_of_scan ha, hak⟩) (mem_kids.mpr ⟨e, he, hk⟩)
  obtain rfl : a = e := Rows.slot_unique (nodup_kids hnodup hp) (Row.mem_of_scan ha) he hak hk
  exact ⟨hq, ha⟩

theorem separator_le (hs : Searchable bound c r d) (hi : i < d) (hp : p ∈ c.level r i) (he : e ∈ c p)
    (hk : e.child = some k) (he' : e' ∈ c k) : e.1 ≤ e'.1 := by
  have hkl : k ∈ c.level r (i + 1) := mem_level_succ.mpr ⟨p, hp, mem_kids.mpr ⟨e, he, hk⟩⟩
  exact Row.le_of_scan (hs.route_parent hi hp he hk (hs.routed (i + 1) hi k hkl e' he')).2

end Searchable

namespace Sound
open Rows
variable {bound : Nat} {c c' : Rows} {r h k p : Handle} {i j d x : Nat} {e e' : Pair}

theorem nodup_level (hs : Sound bound c r d) (hi : i ≤ d) : (c.level r i).Nodup := Rows.nodup_level hs.nodup hi

/-- A layout is sound down to any smaller depth. -/
theorem truncate (hs : Sound bound c r d) (hi : i ≤ d) : Sound bound c r i where
  nodup := by
    induction d with
    | zero =>
      obtain rfl := Nat.le_zero.mp hi
      exact hs.nodup
    | succ d ih =>
      rcases Nat.lt_or_ge i (d + 1) with hlt | hge
      · have hn := hs.nodup
        rw [under, List.nodup_append] at hn
        refine ih ⟨hn.1, fun h hh => hs.descending h ?_, fun h hh => hs.small h ?_, fun j hj => hs.inner j (by omega),
          fun j hj => hs.routed j (by omega)⟩ (by omega)
        · exact List.mem_append_left _ hh
        · exact List.mem_append_left _ hh
      · obtain rfl : i = d + 1 := by omega
        exact hs.nodup
  descending h hh := by
    obtain ⟨j, hj, hh⟩ := mem_under.mp hh
    exact hs.descending h (mem_under_of_level (by omega) hh)
  small h hh := by
    obtain ⟨j, hj, hh⟩ := mem_under.mp hh
    exact hs.small h (mem_under_of_level (by omega) hh)
  inner j hj := hs.inner j (by omega)
  routed j hj := hs.routed j (by omega)

theorem descending_level (hs : Sound bound c r d) (hi : i ≤ d) (hh : h ∈ c.level r i) : (c h).Descending :=
  hs.descending h (mem_under_of_level hi hh)

theorem small_level (hs : Sound bound c r d) (hi : i ≤ d) (hh : h ∈ c.level r i) (he : e ∈ c h) : e.1 < bound :=
  hs.small h (mem_under_of_level hi hh) e he

theorem searchable (hs : Sound bound c r d) : Searchable bound c r d where
  nodup _ hi := hs.nodup_level hi
  descending _ hi _ hh := hs.descending_level hi hh
  small _ hi _ hh _ he := hs.small_level hi hh he
  inner := hs.inner
  routed := hs.routed

theorem parent_unique {q : Handle} (hs : Sound bound c r d) (hi : i < d) (hp : p ∈ c.level r i)
    (hq : q ∈ c.level r i) (hkp : k ∈ c.kids p) (hkq : k ∈ c.kids q) : p = q :=
  Rows.parent_unique (hs.nodup_level hi) hp hq hkp hkq

theorem slot_unique (hs : Sound bound c r d) (hi : i < d) (hp : p ∈ c.level r i) (he : e ∈ c p) (he' : e' ∈ c p)
    (hk : e.child = some k) (hk' : e'.child = some k) : e = e' :=
  Rows.slot_unique (nodup_kids (hs.nodup_level hi) hp) he he' hk hk'

/-- A change for any key reaches every level. -/
theorem exists_land (hs : Sound bound c r d) (x : Nat) (hi : i ≤ d) : ∃ h, c.land x r i = some h := by
  induction i with
  | zero => exact ⟨r, rfl⟩
  | succ i ih =>
    obtain ⟨p, hp⟩ := ih (by omega)
    obtain ⟨hne, hchild⟩ := hs.inner i (by omega) p (mem_level_of_land hp)
    obtain ⟨e, he⟩ := Row.exists_aim hne x
    obtain ⟨k, hk⟩ := hchild e (Row.mem_of_aim he)
    exact ⟨k, by rw [land_succ, hp]; exact step_eq_some.mpr ⟨e, he, hk⟩⟩

/-- Changes that come by one node come by the same nodes before it. -/
theorem land_unique {j y : Nat} (hs : Sound bound c r d) (hi : i ≤ d) (hx : c.land x r i = some h)
    (hy : c.land y r i = some h) (hj : j ≤ i) : c.land x r j = c.land y r j := by
  induction i generalizing h with
  | zero =>
    obtain rfl := Nat.le_zero.mp hj
    rfl
  | succ i ih =>
    rcases Nat.lt_or_eq_of_le hj with hj | rfl
    · obtain ⟨p, hp, hpk⟩ := Option.bind_eq_some_iff.mp hx
      obtain ⟨q, hq, hqk⟩ := Option.bind_eq_some_iff.mp hy
      obtain rfl : p = q := hs.parent_unique hi (mem_level_of_land hp) (mem_level_of_land hq) (mem_kids_of_step hpk)
        (mem_kids_of_step hqk)
      exact ih (by omega) hp hq (Nat.lt_succ_iff.mp hj)
    · rw [hx, hy]

theorem separator_le (hs : Sound bound c r d) (hi : i < d) (hp : p ∈ c.level r i) (he : e ∈ c p)
    (hk : e.child = some k) (he' : e' ∈ c k) : e.1 ≤ e'.1 := hs.searchable.separator_le hi hp he hk he'

/-- A lookup of a greater key goes where a change for it goes, as long as that is the same way. -/
theorem route_mono {y : Nat} (hs : Sound bound c r d) (hi : i ≤ d) (hy : c.route y r i = some h)
    (hx : c.land x r i = some h) (hyx : y ≤ x) : c.route x r i = some h := by
  induction i generalizing h with
  | zero => exact hy
  | succ i ih =>
    obtain ⟨p, hp, hl⟩ := Option.bind_eq_some_iff.mp hy
    obtain ⟨q, hq, hst⟩ := Option.bind_eq_some_iff.mp hx
    have hpl := mem_level_of_route hp
    have hqp : q = p := hs.parent_unique hi (mem_level_of_land hq) hpl (mem_kids_of_step hst)
      (mem_kids_of_step (step_of_look hl))
    subst hqp
    obtain ⟨a, ha, hak⟩ := look_eq_some.mp hl
    obtain ⟨b, hb, hbk⟩ := step_eq_some.mp hst
    have hab := hs.slot_unique hi hpl (Row.mem_of_scan ha) (Row.mem_of_aim hb) hak hbk
    subst hab
    have hle := Row.le_of_scan ha
    rw [route_succ, ih (by omega) hp hq]
    exact look_eq_some.mpr ⟨a, Row.scan_of_aim hb (by omega), hak⟩

/-- A lookup follows a change to a node whose separator is low enough. -/
theorem route_of_land (hs : Sound bound c r d) (hl : c.land x r (d + 1) = some h)
    (hsep : ∀ p ∈ c.level r d, ∀ e ∈ c p, Pair.child e = some h → e.1 ≤ x) : c.route x r (d + 1) = some h := by
  obtain ⟨p, hp, hst⟩ := Option.bind_eq_some_iff.mp hl
  obtain ⟨a, ha, hak⟩ := step_eq_some.mp hst
  have hpl := mem_level_of_land hp
  have hle := hsep p hpl a (Row.mem_of_aim ha) hak
  have hroute := hs.routed d (Nat.le_refl d) p hpl a (Row.mem_of_aim ha)
  rw [route_succ, hs.route_mono (Nat.le_refl d) hroute hp hle]
  exact look_eq_some.mpr ⟨a, Row.scan_of_aim ha hle, hak⟩

/-! ### Making sound layouts -/

theorem congr (hs : Sound bound c r d) (hc : ∀ h ∈ c.under r d, c' h = c h) : Sound bound c' r d := by
  have hlt : ∀ i ≤ d, ∀ j < i, ∀ h ∈ c.level r j, c' h = c h := fun i hi j hj h hh =>
    hc h (mem_under_of_level (by omega) hh)
  have hunder : c'.under r d = c.under r d := under_congr (hlt d (Nat.le_refl d))
  refine ⟨by rw [hunder]; exact hs.nodup, fun h hh => ?_, fun h hh => ?_, fun i hi h hh => ?_, fun i hi h hh => ?_⟩
  · rw [hunder] at hh
    rw [hc h hh]
    exact hs.descending h hh
  · rw [hunder] at hh
    rw [hc h hh]
    exact hs.small h hh
  · rw [level_congr (hlt i (by omega))] at hh
    rw [hc h (mem_under_of_level (by omega) hh)]
    exact hs.inner i hi h hh
  · rw [level_congr (hlt i hi)] at hh
    rw [hc h (mem_under_of_level hi hh)]
    intro e he
    rw [route_congr (hlt i hi)]
    exact hs.routed i hi h hh e he

/-- New rows on the lowest level. -/
theorem of_lowest (hs : Sound bound c r d) (hc : ∀ i < d, ∀ h ∈ c.level r i, c' h = c h)
    (hrow : ∀ h ∈ c.level r d, (c' h).Descending ∧ ∀ e ∈ c' h, e.1 < bound ∧ c.route e.1 r d = some h) :
    Sound bound c' r d := by
  have hlt : ∀ i ≤ d, ∀ j < i, ∀ h ∈ c.level r j, c' h = c h := fun i hi j hj => hc j (by omega)
  have hunder : c'.under r d = c.under r d := under_congr (hlt d (Nat.le_refl d))
  -- the rows above the lowest level are the old ones
  have hcase : ∀ h ∈ c.under r d, (∃ i < d, h ∈ c.level r i) ∨ h ∈ c.level r d := fun h hh => by
    obtain ⟨i, hi, hhi⟩ := mem_under.mp hh
    rcases Nat.lt_or_ge i d with hlt | hge
    · exact Or.inl ⟨i, hlt, hhi⟩
    · obtain rfl : i = d := by omega
      exact Or.inr hhi
  refine ⟨by rw [hunder]; exact hs.nodup, fun h hh => ?_, fun h hh => ?_, fun i hi h hh => ?_, fun i hi h hh => ?_⟩
  · rw [hunder] at hh
    rcases hcase h hh with ⟨i, hi, hhi⟩ | hhd
    · rw [hc i hi h hhi]
      exact hs.descending h hh
    · exact (hrow h hhd).1
  · rw [hunder] at hh
    rcases hcase h hh with ⟨i, hi, hhi⟩ | hhd
    · rw [hc i hi h hhi]
      exact hs.small h hh
    · exact fun e he => ((hrow h hhd).2 e he).1
  · rw [level_congr (hlt i (by omega))] at hh
    rw [hc i hi h hh]
    exact hs.inner i hi h hh
  · rw [level_congr (hlt i hi)] at hh
    intro e he
    rw [route_congr (hlt i hi)]
    rcases Nat.lt_or_ge i d with hid | hid
    · rw [hc i hid h hh] at he
      exact hs.routed i hi h hh e he
    · obtain rfl : i = d := by omega
      exact ((hrow h hh).2 e he).2

/-- One more level. -/
theorem extend (hs : Sound bound c r d) (hinner : ∀ h ∈ c.level r d, c h ≠ [] ∧ ∀ e ∈ c h, ∃ k, Pair.child e = some k)
    (hn : (c.level r (d + 1)).Nodup) (happ : ∀ h ∈ c.level r (d + 1), h ∉ c.under r d)
    (hrow : ∀ h ∈ c.level r (d + 1), (c h).Descending ∧ ∀ e ∈ c h, e.1 < bound ∧ c.route e.1 r (d + 1) = some h) :
    Sound bound c r (d + 1) where
  nodup := by
    rw [under, List.nodup_append]
    exact ⟨hs.nodup, hn, fun a ha b hb hab => happ b hb (hab ▸ ha)⟩
  descending h hh := by
    rcases List.mem_append.mp hh with hh | hh
    · exact hs.descending h hh
    · exact (hrow h hh).1
  small h hh := by
    rcases List.mem_append.mp hh with hh | hh
    · exact hs.small h hh
    · exact fun e he => ((hrow h hh).2 e he).1
  inner i hi h hh := by
    rcases Nat.lt_or_ge i d with hid | hid
    · exact hs.inner i hid h hh
    · obtain rfl : i = d := by omega
      exact hinner h hh
  routed i hi h hh := by
    rcases Nat.lt_or_ge i (d + 1) with hid | hid
    · exact hs.routed i (Nat.le_of_lt_succ hid) h hh
    · obtain rfl : i = d + 1 := by omega
      exact fun e he => ((hrow h hh).2 e he).2

/-- A single node. -/
theorem single (hd : (c r).Descending) (hsm : ∀ e ∈ c r, e.1 < bound) : Sound bound c r 0 where
  nodup := List.nodup_singleton r
  descending h hh := by
    obtain rfl := List.mem_singleton.mp hh
    exact hd
  small h hh := by
    obtain rfl := List.mem_singleton.mp hh
    exact hsm
  inner i hi := absurd hi (Nat.not_lt_zero i)
  routed i hi h hh := by
    obtain rfl := Nat.le_zero.mp hi
    obtain rfl := List.mem_singleton.mp hh
    exact fun _ _ => rfl

end Sound

/-! ### Lowering the separators on a path -/

namespace Rows

/-- The rows with the last separator lowered to `x` in the first `i` nodes on its path, where all separators are
above `x`. -/
def lowerPath (c : Rows) (x : Nat) (r : Handle) (i : Nat) : Rows :=
  fun h => if ∃ j < i, c.land x r j = some h then (c h).lowered x else c h

variable {c : Rows} {r h k : Handle} {i j x y : Nat}

theorem lowerPath_on (hj : j < i) (hl : c.land x r j = some h) : c.lowerPath x r i h = (c h).lowered x :=
  if_pos ⟨j, hj, hl⟩

theorem lowerPath_off (hl : ∀ j < i, c.land x r j ≠ some h) : c.lowerPath x r i h = c h :=
  if_neg fun ⟨j, hj, h⟩ => hl j hj h

theorem lowerPath_cases (c : Rows) (x : Nat) (r : Handle) (i : Nat) (h : Handle) :
    c.lowerPath x r i h = c h ∨ c.lowerPath x r i h = (c h).lowered x := by
  by_cases hon : ∃ j < i, c.land x r j = some h
  · exact Or.inr (if_pos hon)
  · exact Or.inl (if_neg hon)

theorem kids_lowerPath : (c.lowerPath x r i).kids h = c.kids h := by
  rcases lowerPath_cases c x r i h with hc | hc
  · rw [kids, kids, hc]
  · rw [kids, kids, hc, Row.children_lowered]

theorem step_lowerPath : (c.lowerPath x r i).step y h = c.step y h := by
  rcases lowerPath_cases c x r i h with hc | hc
  · rw [step, step, hc]
  · rw [step, step, hc, Row.aim_lowered]

theorem level_lowerPath {r' : Handle} : (c.lowerPath x r i).level r' j = c.level r' j :=
  level_of_kids fun _ => kids_lowerPath

theorem under_lowerPath {r' : Handle} : (c.lowerPath x r i).under r' j = c.under r' j :=
  under_of_kids fun _ => kids_lowerPath

theorem look_lowerPath (hl : c.look y h = some k) : (c.lowerPath x r i).look y h = some k := by
  obtain ⟨e, he, hk⟩ := look_eq_some.mp hl
  rcases lowerPath_cases c x r i h with hc | hc
  · exact look_eq_some.mpr ⟨e, by rw [hc, he], hk⟩
  · obtain ⟨e', he', hc'⟩ := Row.scan_lowered (k := x) he
    exact look_eq_some.mpr ⟨e', by rw [hc, he'], by rw [Pair.child, hc']; exact hk⟩

theorem route_lowerPath {r' : Handle} (hr : c.route y r' j = some h) : (c.lowerPath x r i).route y r' j = some h := by
  induction j generalizing h with
  | zero => exact hr
  | succ j ih =>
    obtain ⟨p, hp, hl⟩ := Option.bind_eq_some_iff.mp hr
    rw [route_succ, ih hp]
    exact look_lowerPath hl

/-- Once its path is lowered, a lookup of the key goes where a change goes. -/
theorem route_lowerPath_self (hj : j ≤ i) (hl : c.land x r j = some h) : (c.lowerPath x r i).route x r j = some h := by
  induction j generalizing h with
  | zero => exact hl
  | succ j ih =>
    obtain ⟨p, hp, hst⟩ := Option.bind_eq_some_iff.mp hl
    obtain ⟨e, he, hk⟩ := step_eq_some.mp hst
    obtain ⟨e', he', hc⟩ := Row.scan_lowered_self he
    rw [route_succ, ih (by omega) hp]
    exact look_eq_some.mpr ⟨e', by rw [lowerPath_on hj hp, he'], by rw [Pair.child, hc]; exact hk⟩

end Rows

namespace Sound
open Rows
variable {bound : Nat} {c : Rows} {r h : Handle} {i j d x : Nat}

theorem lowerPath_of_level (hs : Sound bound c r d) (hi : i ≤ j) (hj : j ≤ d) (hh : h ∈ c.level r j) :
    c.lowerPath x r i h = c h :=
  lowerPath_off fun m hm hl => by
    have := level_unique hs.nodup (by omega) hj (mem_level_of_land hl) hh
    omega

/-- Lowering the separators on the path of a key keeps a layout sound. -/
theorem lowerPath (hs : Sound bound c r d) (hx : x < bound) (hi : i ≤ d) : Sound bound (c.lowerPath x r i) r d where
  nodup := by
    rw [under_lowerPath]
    exact hs.nodup
  descending h hh := by
    rw [under_lowerPath] at hh
    rcases lowerPath_cases c x r i h with hc | hc
    · rw [hc]
      exact hs.descending h hh
    · rw [hc]
      exact (hs.descending h hh).lowered x
  small h hh e he := by
    rw [under_lowerPath] at hh
    rcases lowerPath_cases c x r i h with hc | hc
    · rw [hc] at he
      exact hs.small h hh e he
    · rw [hc] at he
      rcases Row.mem_lowered he with he | ⟨rfl, -⟩
      · exact hs.small h hh e he
      · exact hx
  inner m hm h hh := by
    rw [level_lowerPath] at hh
    obtain ⟨hne, hchild⟩ := hs.inner m hm h hh
    rcases lowerPath_cases c x r i h with hc | hc
    · rw [hc]
      exact ⟨hne, hchild⟩
    · rw [hc]
      refine ⟨?_, fun e he => ?_⟩
      · rw [Ne, ← List.length_eq_zero_iff, Row.length_lowered, List.length_eq_zero_iff]
        exact hne
      · rcases Row.mem_lowered he with he | ⟨-, -, s, hs'⟩
        · exact hchild e he
        · obtain ⟨k, hk⟩ := hchild _ hs'
          exact ⟨k, hk⟩
  routed m hm h hh e he := by
    rw [level_lowerPath] at hh
    -- a pair with a new key has the key `x` itself, and the path was lowered for `x`
    by_cases hon : ∃ j < i, c.land x r j = some h
    · obtain ⟨j, hj, hl⟩ := hon
      obtain rfl : j = m := level_unique hs.nodup (by omega) hm (mem_level_of_land hl) hh
      rw [lowerPath_on hj hl] at he
      rcases Row.mem_lowered he with he | ⟨rfl, -⟩
      · exact route_lowerPath (hs.routed j hm h hh e he)
      · exact route_lowerPath_self (by omega) hl
    · rw [lowerPath_off fun j hj hl => hon ⟨j, hj, hl⟩] at he
      exact route_lowerPath (hs.routed m hm h hh e he)

end Sound
end MemoTree
