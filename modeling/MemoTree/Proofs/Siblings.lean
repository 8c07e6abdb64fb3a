import MemoTree.Proofs.Layout

/-! # Sizes of siblings

How well a tree is filled is told by the numbers of pairs in the children of a node, in slot order. A rule on such
lists that is kept by what an insertion does to siblings (`Rule.Grows`) is kept by a whole insertion: a node gets a
pair, or its siblings get a new one that takes the first half of a full node's pairs, or the siblings themselves are
parted because the node above them is full. A removal takes a pair from a node, and a node that is short then goes, is
joined with a neighbour, or stays short if it fits to none (`Rule.Shrinks`). -/

namespace MemoTree
open Rows

/-- A rule on the sizes of the children of a node, in slot order. -/
abbrev Rule := List Nat → Prop

/-- The rule is kept where nodes of `pairs` slots get pairs, are halved, and get a node above them. -/
structure Rule.Grows (rule : Rule) (pairs : Nat) : Prop where
  alone : rule [pairs]
  more : ∀ {X Y n}, rule (X ++ n :: Y) → rule (X ++ (n + 1) :: Y)
  split : ∀ {X Y}, rule (X ++ pairs :: Y) → rule (X ++ pairs / 2 :: (pairs - pairs / 2) :: Y)
  cut : ∀ {l}, rule l → l.length = pairs → rule (l.take (pairs / 2)) ∧ rule (l.drop (pairs / 2))

/-- The rule is kept where nodes of `pairs` slots lose pairs and are repaired. A node that is left with a single child
has a child that is not alone with a single pair. -/
structure Rule.Shrinks (rule : Rule) (pairs : Nat) : Prop where
  less : ∀ {X Y n}, rule (X ++ (n + 1) :: Y) → pairs / 2 ≤ n → rule (X ++ n :: Y)
  stuck : ∀ {X Y n}, rule (X ++ (n + 1) :: Y) → 0 < n → (∀ m ∈ X.getLast?, pairs < n + m) →
    (∀ m ∈ Y.head?, pairs < n + m) → rule (X ++ n :: Y)
  drop : ∀ {X Y}, rule (X ++ 1 :: Y) → rule (X ++ Y)
  single : ∀ {X Y n}, rule (X ++ 1 :: Y) → X ++ Y = [n] → 2 ≤ n
  join : ∀ {X Y a b a' b'}, rule (X ++ a :: b :: Y) → 0 < a' → 0 < b' →
    (a = a' ∧ b = b' + 1 ∨ a = a' + 1 ∧ b = b') → rule (X ++ (a' + b') :: Y)
  gather : ∀ {l l'}, rule l → rule l' → l.length < pairs / 2 → (∀ n, l = [n] → 2 ≤ n) → rule (l ++ l') ∧ rule (l' ++ l)

/-- `size'` are the sizes of a level once its full node `h` has given its first pairs to the new node `q`. -/
structure Splits (pairs : Nat) (level : List Handle) (h q : Handle) (size size' : Handle → Nat) : Prop where
  nodup : (q :: level).Nodup
  full : size h = pairs
  first : size' q = pairs / 2
  second : size' h = pairs - pairs / 2
  other : ∀ i ∈ level, i ≠ h → size' i = size i

namespace Splits
variable {pairs : Nat} {level level' : List Handle} {h q : Handle} {size size' : Handle → Nat}

theorem perm (hs : Splits pairs level h q size size') (hp : level'.Perm level) :
    Splits pairs level' h q size size' where
  nodup := (hp.cons q).nodup_iff.mpr hs.nodup
  full := hs.full
  first := hs.first
  second := hs.second
  other i hi := hs.other i (hp.mem_iff.mp hi)

end Splits

/-! ### Lists with one new size -/

section Lists
variable {α : Type} {size size' : α → Nat} {l X Y : List α} {h : α}

theorem map_others (hn : (X ++ h :: Y).Nodup) (ho : ∀ i ∈ X ++ h :: Y, i ≠ h → size' i = size i) :
    X.map size' = X.map size ∧ Y.map size' = Y.map size := by
  rw [List.nodup_middle, List.nodup_cons, List.mem_append, not_or] at hn
  refine ⟨List.map_congr_left fun i hi => ho i (List.mem_append_left _ hi) ?_,
    List.map_congr_left fun i hi => ho i (List.mem_append_right _ (List.mem_cons_of_mem _ hi)) ?_⟩
  · rintro rfl
    exact hn.1.1 hi
  · rintro rfl
    exact hn.1.2 hi

/-- One size of a list without repetition is another. -/
theorem map_one (hn : l.Nodup) (ho : ∀ i ∈ l, i ≠ h → size' i = size i) : l.map size' = l.map size ∨
    ∃ X Y, l = X ++ h :: Y ∧ l.map size = X.map size ++ size h :: Y.map size ∧
      l.map size' = X.map size ++ size' h :: Y.map size := by
  by_cases hh : h ∈ l
  · obtain ⟨X, Y, rfl⟩ := List.append_of_mem hh
    obtain ⟨hX, hY⟩ := map_others hn ho
    exact Or.inr ⟨X, Y, rfl, by simp, by simp [hX, hY]⟩
  · refine Or.inl (List.map_congr_left fun i hi => ho i hi ?_)
    rintro rfl
    exact hh hi

end Lists

/-! ### Rules on levels -/

namespace Rows

/-- The number of pairs of a node. -/
def count (c : Rows) (h : Handle) : Nat := (c h).length

/-- The children of each node `i` levels below `r` have sizes as the rule says. -/
def Abides (c : Rows) (rule : Rule) (size : Handle → Nat) (r : Handle) (i : Nat) : Prop :=
  ∀ h ∈ c.level r i, rule ((c.kids h).map size)

/-- The rule holds below the nodes of the first `n` levels. -/
def Obeys (c : Rows) (rule : Rule) (size : Handle → Nat) (r : Handle) (n : Nat) : Prop :=
  ∀ i < n, c.Abides rule size r i

section Levels
variable {c c' : Rows} {rule : Rule} {size size' : Handle → Nat} {r h q g : Handle} {d i n pairs : Nat}

/-- A level abides by a rule if its nodes have the children they had, of the sizes they had. -/
theorem Abides.congr (ha : c.Abides rule size r i) (hlevel : c'.level r i = c.level r i)
    (hkids : ∀ h ∈ c.level r i, c'.kids h = c.kids h) (hsize : ∀ k ∈ c.level r (i + 1), size' k = size k) :
    c'.Abides rule size' r i := fun h hh => by
  rw [hlevel] at hh
  rw [hkids h hh, List.map_congr_left fun k hk => hsize k (mem_level_succ.mpr ⟨h, hh, hk⟩)]
  exact ha h hh

theorem Obeys.congr (ho : c.Obeys rule size r n) (hkids : ∀ i < n, ∀ h ∈ c.level r i, c'.kids h = c.kids h)
    (hsize : ∀ i ≤ n, ∀ k ∈ c.level r i, size' k = size k) : c'.Obeys rule size' r n := fun i hi =>
  (ho i hi).congr (level_congr_kids fun j hj => hkids j (Nat.lt_trans hj hi)) (hkids i hi) (hsize (i + 1) hi)

theorem Obeys.mono {m : Nat} (ho : c.Obeys rule size r n) (hm : m ≤ n) : c.Obeys rule size r m :=
  fun i hi => ho i (Nat.lt_of_lt_of_le hi hm)

theorem Obeys.succ (ho : c.Obeys rule size r n) (ha : c.Abides rule size r n) : c.Obeys rule size r (n + 1) :=
  fun i hi => by
    rcases Nat.lt_or_eq_of_le (Nat.le_of_lt_succ hi) with hlt | rfl
    · exact ho i hlt
    · exact ha

/-- One size changes to one that the rule allows in its place. -/
theorem Obeys.one (ho : c.Obeys rule size r n) (hn : (c.under r n).Nodup)
    (hsize : ∀ i ≤ n, ∀ k ∈ c.level r i, k ≠ h → size' k = size k)
    (hrule : ∀ i < n, ∀ p ∈ c.level r i, ∀ X Y, c.kids p = X ++ h :: Y →
      rule (X.map size ++ size h :: Y.map size) → rule (X.map size ++ size' h :: Y.map size)) :
    c.Obeys rule size' r n := fun i hi p hp => by
  have hnodup := nodup_kids (nodup_level hn hi) hp
  rcases map_one hnodup fun k hk => hsize (i + 1) hi k (mem_level_succ.mpr ⟨p, hp, hk⟩) with
    hsame | ⟨X, Y, hkids, hold, hnew⟩
  · rw [hsame]
    exact ho i hi p hp
  · rw [hnew]
    refine hrule i hi p hp X Y hkids ?_
    rw [← hold]
    exact ho i hi p hp

theorem Obeys.more (ho : c.Obeys rule size r n) (hg : rule.Grows pairs) (hn : (c.under r n).Nodup)
    (hh : size' h = size h + 1) (hother : ∀ k, k ≠ h → size' k = size k) : c.Obeys rule size' r n :=
  ho.one hn (fun _ _ k _ => hother k) fun _ _ _ _ _ _ _ hrule => hh ▸ hg.more hrule

/-- A node gets a new sibling in front of it, which takes half of its pairs. -/
theorem Abides.split (ha : c.Abides rule size r d) (hg : rule.Grows pairs) (hlevel : c'.level r d = c.level r d)
    (hs : Splits pairs (c.level r (d + 1)) h q size size') (hgl : g ∈ c.level r d)
    (hother : ∀ i ∈ c.level r d, i ≠ g → c'.kids i = c.kids i) {X Y : List Handle} (hold : c.kids g = X ++ h :: Y)
    (hnew : c'.kids g = X ++ q :: h :: Y) : c'.Abides rule size' r d := fun i hi => by
  rw [hlevel] at hi
  have hnodup := (List.nodup_cons.mp hs.nodup).2
  have hsize : ∀ k ∈ c.kids i, k ≠ h → size' k = size k := fun k hk =>
    hs.other k (mem_level_succ.mpr ⟨i, hi, hk⟩)
  by_cases hig : i = g
  · subst hig
    rw [hold] at hsize
    obtain ⟨hX, hY⟩ := map_others (hold ▸ nodup_kids hnodup hi) hsize
    have hrule := ha i hi
    rw [hold, List.map_append, List.map_cons, hs.full] at hrule
    rw [hnew, List.map_append, List.map_cons, List.map_cons, hs.first, hs.second, hX, hY]
    exact hg.split hrule
  · rw [hother i hi hig, List.map_congr_left fun k hk => hsize k hk ?_]
    · exact ha i hi
    · rintro rfl
      exact hig (parent_unique hnodup hi hgl hk (by rw [hold]; simp))

end Levels

end Rows

/-! ### Filled layouts -/

/-- What an insertion makes of the layout `d` levels below the root: the rules hold that held, and the root is the one
it was or has two children. -/
structure Filled (pairs : Nat) (c : Rows) (r : Handle) (d : Nat) (c' : Rows) (r' : Handle) (d' : Nat) : Prop where
  obeys : ∀ {rule : Rule}, rule.Grows pairs → c.Obeys rule c.count r d → c'.Obeys rule c'.count r' d'
  root : 2 ≤ c'.count r' ∨ (r' = r ∧ d' = d ∧ c.count r ≤ c'.count r')

namespace Filled
variable {pairs : Nat} {c c' c'' : Rows} {r r' r'' : Handle} {d d' d'' : Nat}

theorem trans (h₁ : Filled pairs c r d c' r' d') (h₂ : Filled pairs c' r' d' c'' r'' d'') :
    Filled pairs c r d c'' r'' d'' where
  obeys hg ho := h₂.obeys hg (h₁.obeys hg ho)
  root := by
    rcases h₂.root with h | ⟨rfl, rfl, hle⟩
    · exact Or.inl h
    · rcases h₁.root with h | ⟨rfl, rfl, hle'⟩
      · exact Or.inl (Nat.le_trans h hle)
      · exact Or.inr ⟨rfl, rfl, Nat.le_trans hle' hle⟩

end Filled
end MemoTree
