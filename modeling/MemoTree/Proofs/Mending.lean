import MemoTree.Proofs.Siblings
import MemoTree.Proofs.Sound

/-! # What a removal mends

A node that lost a slot may be short, and mending it may take a slot of the node above, which may be short then. Here
is what that comes to, level by level, told from the rows alone (`Mends`): a node goes if it is empty, is joined with
a neighbour that it fits to if it is less than half full, and stays otherwise. A root goes if it is empty or is an
internal node with one child. The rows of nodes that are neither passed on the way up nor joined stay as they are. -/

namespace MemoTree
open Rows

namespace Rows

/-- The nodes that changes for `x` come by, from the one `d` levels below `r` up to `r`. -/
def trail (c : Rows) (x : Nat) (r : Handle) : (d : Nat) → List Handle
  | 0 => [r]
  | d + 1 => (c.land x r (d + 1)).toList ++ trail c x r d

/-- The children `f` and `q` of `o` are neighbours, `f` in front, and both have room in one node. -/
def Fits (pairs : Nat) (c : Rows) (o f q : Handle) : Prop :=
  (∃ X Y, c.kids o = X ++ f :: q :: Y) ∧ c.count f + c.count q ≤ pairs

/-- The neighbours `f` and `q` under `o` are joined: `f` holds the pairs of both, in descending order, and takes the two
slots as one under the smaller separator. -/
inductive Joins (pairs : Nat) (c : Rows) (o f q : Handle) : Rows → Prop
  | mk {A B : Row} {e₁ e₂ : Pair} : c o = A ++ e₁ :: e₂ :: B → Pair.child e₁ = some f → Pair.child e₂ = some q →
      e₂.1 < e₁.1 → c.count f + c.count q ≤ pairs → (c f ++ c q).Descending →
      Joins pairs c o f q (Function.update (Function.update c f (c f ++ c q)) o (A ++ (e₂.1, e₁.2) :: B))

end Rows

/-- What is left of a tree. -/
structure Remains where
  rows : Rows
  root : Option Handle
  height : Nat
  /-- The nodes that were unlinked, the lowest first. -/
  gone : List Handle
  /-- The siblings that were joined with nodes on the way up. -/
  kin : List Handle

/-- What is left if the first node of `path`, which leads from `level` up to the root, stays. -/
def Remains.still (c : Rows) (level : Nat) (path : List Handle) : Remains :=
  ⟨c, path.getLast?, level + path.length - 1, [], []⟩

/-- How a tree with at most `pairs` slots in a node is mended, of which a node on `level` lost a slot: the first node of
`path`, which leads up to the root. -/
inductive Mends (pairs : Nat) : (level : Nat) → (path : List Handle) → Rows → Remains → Prop
  /-- An empty root goes, and nothing is left. -/
  | emptied {level r c} : c r = [] → Mends pairs level [r] c ⟨c, none, 0, [r], []⟩
  /-- The only child of an internal root becomes the root. -/
  | lowered {level r k c e} : 1 < level → c r = [e] → Pair.child e = some k →
      Mends pairs level [r] c ⟨c, some k, level - 1, [r], []⟩
  | root {level r c} : c r ≠ [] → (1 < level → c.count r ≠ 1) → Mends pairs level [r] c (.still c level [r])
  | half {level h o path c} : c h ≠ [] → pairs / 2 ≤ c.count h →
      Mends pairs level (h :: o :: path) c (.still c level (h :: o :: path))
  | unlinked {level h o path c A e B s} : c h = [] → c o = A ++ e :: B → Pair.child e = some h →
      Mends pairs (level + 1) (o :: path) (Function.update c o (A ++ B)) s →
      Mends pairs level (h :: o :: path) c { s with gone := h :: s.gone }
  /-- The neighbour with larger keys is joined if the two fit into one node, -/
  | joinedLarger {level h o f path c c' s} : c h ≠ [] → c.count h < pairs / 2 → Joins pairs c o f h c' →
      Mends pairs (level + 1) (o :: path) c' s →
      Mends pairs level (h :: o :: path) c { s with gone := h :: s.gone, kin := f :: s.kin }
  /-- and else the one with smaller keys. -/
  | joinedSmaller {level h o q path c c' s} : c h ≠ [] → c.count h < pairs / 2 → (∀ f, ¬Fits pairs c o f h) →
      Joins pairs c o h q c' → Mends pairs (level + 1) (o :: path) c' s →
      Mends pairs level (h :: o :: path) c { s with gone := q :: s.gone, kin := q :: s.kin }
  | stuck {level h o path c} : c h ≠ [] → c.count h < pairs / 2 → (∀ f, ¬Fits pairs c o f h) →
      (∀ q, ¬Fits pairs c o h q) → Mends pairs level (h :: o :: path) c (.still c level (h :: o :: path))

namespace Rows
variable {c c' : Rows} {r h f q o i : Handle} {d x y pairs bound : Nat}

/-! ### Trails -/

theorem trail_succ (hl : c.land x r (d + 1) = some h) : c.trail x r (d + 1) = h :: c.trail x r d := by
  rw [trail, hl]
  rfl

theorem exists_trail (hl : c.land x r d = some h) : ∃ path, c.trail x r d = h :: path := by
  cases d with
  | zero =>
    cases hl
    exact ⟨[], rfl⟩
  | succ d => exact ⟨_, trail_succ hl⟩

theorem trail_congr (hl : ∀ i ≤ d, c'.land y r i = c.land x r i) : c'.trail y r d = c.trail x r d := by
  induction d with
  | zero => rfl
  | succ d ih => rw [trail, trail, hl (d + 1) (Nat.le_refl _), ih fun i hi => hl i (Nat.le_succ_of_le hi)]

theorem getLast?_trail (c : Rows) (x : Nat) (r : Handle) (d : Nat) : (c.trail x r d).getLast? = some r := by
  induction d with
  | zero => rfl
  | succ d ih => rw [trail, List.getLast?_append, ih, Option.some_or]

/-! ### Neighbours that do not fit -/

/-- A node does not fit to the neighbour in front of it if there is none or there is no room. -/
theorem not_fits_front {X Y : List Handle} (hn : (c.kids o).Nodup) (hk : c.kids o = X ++ h :: Y)
    (hX : ∀ f ∈ X.getLast?, pairs < c.count h + c.count f) (f : Handle) : ¬Fits pairs c o f h := by
  rintro ⟨⟨X', Y', hk'⟩, hfit⟩
  rw [hk, List.nodup_middle, List.nodup_cons, List.mem_append, not_or] at hn
  have hsplit : X ++ h :: Y = (X' ++ [f]) ++ h :: Y' := by rw [← hk, hk', List.append_assoc]; rfl
  obtain ⟨rfl, -⟩ := (List.append_cons_inj_of_notMem hn.1.1 hn.1.2).mp hsplit
  have := hX f (by simp)
  omega

/-- Nor does it fit to the one behind it. -/
theorem not_fits_behind {X Y : List Handle} (hn : (c.kids o).Nodup) (hk : c.kids o = X ++ h :: Y)
    (hY : ∀ q ∈ Y.head?, pairs < c.count h + c.count q) (q : Handle) : ¬Fits pairs c o h q := by
  rintro ⟨⟨X', Y', hk'⟩, hfit⟩
  rw [hk, List.nodup_middle, List.nodup_cons, List.mem_append, not_or] at hn
  obtain ⟨-, -, rfl⟩ := (List.append_cons_inj_of_notMem hn.1.1 hn.1.2).mp (hk.symm.trans hk')
  have := hY q rfl
  omega

end Rows

/-- Changes for any key come by one node of every level. -/
theorem Sound.length_trail {bound d x : Nat} {c : Rows} {r : Handle} (hs : Sound bound c r d) {i : Nat} (hi : i ≤ d) :
    (c.trail x r i).length = i + 1 := by
  induction i with
  | zero => rfl
  | succ i ih =>
    obtain ⟨h, hl⟩ := hs.exists_land x hi
    rw [trail_succ hl, List.length_cons, ih (Nat.le_of_succ_le hi)]

/-- The node at a place of the trail is where changes come by on its level. -/
theorem Sound.getElem?_trail {bound d x : Nat} {c : Rows} {r h : Handle} (hs : Sound bound c r d)
    {i j : Nat} (hi : i ≤ d) (hj : (c.trail x r i)[j]? = some h) : j ≤ i ∧ c.land x r (i - j) = some h := by
  induction i generalizing j with
  | zero =>
    cases j with
    | zero =>
      cases hj
      exact ⟨Nat.le_refl _, rfl⟩
    | succ j => cases hj
  | succ i ih =>
    obtain ⟨k, hl⟩ := hs.exists_land x hi
    rw [trail_succ hl] at hj
    cases j with
    | zero =>
      cases hj
      exact ⟨Nat.zero_le _, hl⟩
    | succ j =>
      obtain ⟨hle, hland⟩ := ih (Nat.le_of_succ_le hi) hj
      exact ⟨Nat.succ_le_succ hle, by rwa [Nat.add_sub_add_right]⟩

/-! ### Rows that stay -/

theorem Rows.Joins.other {pairs : Nat} {c c' : Rows} {o f q i : Handle} (hj : Joins pairs c o f q c') (hio : i ≠ o)
    (hif : i ≠ f) : c' i = c i := by
  obtain ⟨-, -, -, -, -, -⟩ := hj
  rw [Function.update_of_ne hio, Function.update_of_ne hif]

namespace Mends
variable {pairs level : Nat} {path : List Handle} {c : Rows} {i : Handle} {s : Remains}

/-- Nodes that are not on the way up and are not joined keep their rows. -/
theorem kept (hm : Mends pairs level path c s) (hpath : i ∉ path) (hkin : i ∉ s.kin) : s.rows i = c i := by
  induction hm with
  | emptied | lowered | root | half | stuck => rfl
  | unlinked _ _ _ _ ih =>
    obtain ⟨-, hup⟩ := List.ne_and_not_mem_of_not_mem_cons hpath
    exact (ih hup hkin).trans (Function.update_of_ne (List.ne_of_not_mem_cons hup) _ _)
  | joinedLarger _ _ hj _ ih =>
    obtain ⟨-, hup⟩ := List.ne_and_not_mem_of_not_mem_cons hpath
    obtain ⟨hif, hkin⟩ := List.ne_and_not_mem_of_not_mem_cons hkin
    exact (ih hup hkin).trans (hj.other (List.ne_of_not_mem_cons hup) hif)
  | joinedSmaller _ _ _ hj _ ih =>
    obtain ⟨hih, hup⟩ := List.ne_and_not_mem_of_not_mem_cons hpath
    obtain ⟨-, hkin⟩ := List.ne_and_not_mem_of_not_mem_cons hkin
    exact (ih hup hkin).trans (hj.other (List.ne_of_not_mem_cons hup) hih)

/-- Nodes that are unlinked are on the way up or were joined. -/
theorem mem_of_gone (hm : Mends pairs level path c s) (hi : i ∈ s.gone) : i ∈ path ∨ i ∈ s.kin := by
  induction hm with
  | emptied | lowered => exact Or.inl hi
  | root | half | stuck => cases hi
  | unlinked _ _ _ _ ih =>
    rcases List.mem_cons.mp hi with rfl | hi
    · exact Or.inl List.mem_cons_self
    · exact (ih hi).imp_left (List.mem_cons_of_mem _)
  | joinedLarger _ _ _ _ ih =>
    rcases List.mem_cons.mp hi with rfl | hi
    · exact Or.inl List.mem_cons_self
    · exact (ih hi).imp (List.mem_cons_of_mem _) (List.mem_cons_of_mem _)
  | joinedSmaller _ _ _ _ _ ih =>
    rcases List.mem_cons.mp hi with rfl | hi
    · exact Or.inr List.mem_cons_self
    · exact (ih hi).imp (List.mem_cons_of_mem _) (List.mem_cons_of_mem _)

end Mends
end MemoTree
