import MemoTree.Proofs.Predecessors
import MemoTree.Proofs.Refinement

/-! # The sequence of entries

The leaves of a whole tree, from left to right, hold its pairs in descending order of their keys. So the order in
which a tree keeps its pairs is a matter of the pairs alone, and each ordered read answers something about that one
sequence: its head, the first pair below a key, the pair at an index, or all of it. -/

namespace MemoTree
open Pool NodePool Rows

/-- What `n` calls for the next entry answer, one after the other. -/
def Tree.pulls {w : Width} (t : Tree w) : (n : Nat) → Tree.Cursor w → Except Fault (List (Option (Entry w)))
  | 0, _ => return []
  | n + 1, cursor => do
    let (entry, cursor) ← t.next cursor
    return entry :: (← t.pulls n cursor)

/-- A cursor behind the first `i` entries of a sequence. -/
inductive Tree.Cursor.Stands {w : Width} (row : Row) : Nat → Tree.Cursor w → Prop
  | start : Stands row 0 .start
  | after {i : Nat} {e : Pair} (hk : e.1 < 2 ^ w.bits) : row[i]? = some e → Stands row (i + 1) (.after ⟨e.1, hk⟩)
  | done {i : Nat} : row.length ≤ i → Stands row i .done

section Trees
variable {w : Width} {t : Tree w} {row : Row} {M : Key w → Option Value}

namespace Whole

/-- Listed in descending order, the pairs are those of the leaves from left to right. -/
theorem state_eq (hw : Whole t row) (hd : row.Descending) :
    (Bare t ∧ row = []) ∨ ∃ c r, Rooted t c r ∧ row = c.pairs r (t.height - 1) := by
  rcases hw.state with h | ⟨c, r, hr, hperm⟩
  · exact Or.inl h
  · exact Or.inr ⟨c, r, hr, hd.eq_of_perm (hr.sound.searchable.pairs_descending (Nat.le_refl _)) hperm⟩

theorem exists_descending (hw : Whole t row) : ∃ row' : Row, row.Perm row' ∧ row'.Descending := by
  rcases hw.state with ⟨-, rfl⟩ | ⟨c, r, hr, hperm⟩
  · exact ⟨[], List.Perm.refl _, List.Pairwise.nil⟩
  · exact ⟨_, hperm, hr.sound.searchable.pairs_descending (Nat.le_refl _)⟩

theorem last_eq (hw : Whole t row) (hd : row.Descending) : t.last = .ok (row.head?.bind (Pair.entry w)) := by
  rcases hw.last with ⟨hlast, rfl⟩ | ⟨k, v, hlast, hmem, hmax⟩
  · exact hlast
  · cases row with
    | nil => cases hmem
    | cons e rest =>
      have hle := hmax e List.mem_cons_self
      have hek : e = (k.val, v.val) := by
        rcases List.mem_cons.mp hmem with heq | hmem
        · exact heq.symm
        · have := (List.pairwise_cons.mp hd).1 _ hmem
          omega
      rw [hlast, hek, List.head?_cons, Option.bind_some, Pair.entry, dif_pos ⟨k.isLt, v.property⟩]

theorem prev_eq (hw : Whole t row) (hd : row.Descending) (k : Key w) :
    t.prev k = .ok ((row.below k.val).bind (Pair.entry w)) := by
  rcases hw.state_eq hd with ⟨hb, rfl⟩ | ⟨c, r, hr, rfl⟩
  · rw [Tree.prev, hb.root]
    rfl
  · rw [Tree.prev, hr.stand.root]
    exact hr.legible.searchBelow k.isLt

theorem visit_eq (hw : Whole t row) (hd : row.Descending) (order : Order) :
    Runs (Tree.visit order) t (Tree.visits w order row) t := by
  rcases hw.state_eq hd with ⟨hb, rfl⟩ | ⟨c, r, hr, rfl⟩
  · exact runs_visit_rootless hb.root order
  · exact hr.legible.visit hr.stand.root order

/-- A cursor goes forward by one entry, and stays behind the last one. -/
theorem next_eq (hw : Whole t row) (hd : row.Descending) {i : Nat} {cursor : Tree.Cursor w} (hc : cursor.Stands row i) :
    ∃ cursor', t.next cursor = .ok (row[i]?.bind (Pair.entry w), cursor') ∧ cursor'.Stands row (i + 1) := by
  cases hi : row[i]? with
  | none =>
    refine ⟨.done, ?_, .done (Nat.le_succ_of_le (List.getElem?_eq_none_iff.mp hi))⟩
    cases hc with
    | start => rw [Tree.next, hw.last_eq hd, List.head?_eq_getElem?, hi]; rfl
    | after hk he => rw [Tree.next, hw.prev_eq hd, hd.below_key he, hi]; rfl
    | done => rfl
  | some e =>
    have hmem := List.mem_of_getElem? hi
    refine ⟨_, ?_, .after (hw.small hmem) hi⟩
    rw [Option.bind_some, hw.proper.entry hmem]
    cases hc with
    | start => rw [Tree.next, hw.last_eq hd, List.head?_eq_getElem?, hi, Option.bind_some, hw.proper.entry hmem]; rfl
    | after hk he => rw [Tree.next, hw.prev_eq hd, hd.below_key he, hi, Option.bind_some, hw.proper.entry hmem]; rfl
    | done hle =>
      rw [List.getElem?_eq_none_iff.mpr hle] at hi
      cases hi

theorem pulls_eq (hw : Whole t row) (hd : row.Descending) (n : Nat) : ∀ {i : Nat} {cursor : Tree.Cursor w},
    cursor.Stands row i → t.pulls n cursor = .ok ((List.range' i n).map fun j => row[j]?.bind (Pair.entry w)) := by
  induction n with
  | zero => exact fun _ => rfl
  | succ n ih =>
    intro i cursor hc
    obtain ⟨cursor', hnext, hc'⟩ := hw.next_eq hd hc
    rw [Tree.pulls, hnext]
    simp only [bind, Except.bind, ih hc']
    rfl

end Whole

/-! ### Reads of a map -/

/-- The entry of `M` with the largest key among those that satisfy `P`, if there is one. -/
inductive Tree.Largest {w : Width} (M : Key w → Option Value) (P : Key w → Prop) : Option (Entry w) → Prop
  | none : (∀ k, P k → M k = none) → Largest M P none
  | some {k : Key w} {v : Value} : P k → M k = some v → (∀ k', P k' → M k' ≠ none → k' ≤ k) → Largest M P (some (k, v))

/-- `entries` are the entries of `M`, each once, from the largest key down. -/
structure Tree.Lists {w : Width} (entries : List (Entry w)) (M : Key w → Option Value) : Prop where
  descending : entries.Pairwise fun a b => b.1 < a.1
  mem : ∀ k v, (k, v) ∈ entries ↔ M k = some v

/-- Ordered reads of `t` find the entries of `M` in the order of their keys. A walk with a cursor gives each entry and
nothing ever after; a visit in either order counts them, and changes nothing. -/
structure Tree.ReadsInOrder {w : Width} (t : Tree w) (M : Key w → Option Value) : Prop where
  last : ∃ e, t.last = .ok e ∧ Tree.Largest M (fun _ => True) e
  prev : ∀ k, ∃ e, t.prev k = .ok e ∧ Tree.Largest M (· < k) e
  walks : ∃ entries, Tree.Lists entries M ∧ entries.length = t.len ∧
    (∀ n, t.pulls n .start = .ok ((List.range n).map fun i => entries[i]?)) ∧
    ∀ order, ∃ seen, Runs (Tree.visit order) t seen t ∧ seen.size = t.len ∧
      seen.toList = (order.arrange entries).mapIdx fun i e => ⟨e.2, e.1, i⟩

/-- The visits of a walk are the entries with their indices. -/
theorem Tree.toList_record (es : List (Entry w)) (seen : Array (Tree.Visit w)) :
    (es.foldl Tree.record seen).toList = seen.toList ++ es.mapIdx fun i e => ⟨e.2, e.1, seen.size + i⟩ := by
  induction es generalizing seen with
  | nil => simp
  | cons e es ih => simp [ih, Tree.record, List.mapIdx_cons, Nat.add_assoc, Nat.add_comm 1]

namespace Row.Represents

/-- The first pair of a descending row that passes a test which passes ever after has the largest key that passes. -/
theorem largest (hr : row.Represents M) (hw : Whole t row) (hd : row.Descending) {P : Key w → Prop} {test : Pair → Bool}
    (htest : ∀ e ∈ row, ∀ k : Key w, k.val = e.1 → (test e = true ↔ P k)) :
    Tree.Largest M P ((row.find? test).bind (Pair.entry w)) := by
  cases hf : row.find? test with
  | none =>
    refine .none fun k hk => hr.eq_none fun e he hek => ?_
    have := List.find?_eq_none.mp hf e he
    exact this ((htest e he k hek.symm).mpr hk)
  | some e =>
    obtain ⟨hte, A, B, hrow, hA⟩ := List.find?_eq_some_iff_append.mp hf
    have he : e ∈ row := List.mem_of_find?_eq_some hf
    rw [Option.bind_some, hw.proper.entry he]
    refine .some ((htest e he _ rfl).mp hte) ((hr _ _).mpr he) fun k hk hM => ?_
    obtain ⟨v, hv⟩ := Option.ne_none_iff_exists'.mp hM
    have hmem := (hr k v).mp hv
    have hin := hmem
    rw [hrow] at hmem hd
    rcases List.mem_append.mp hmem with hmemA | hmemB
    · have hnot := hA _ hmemA
      rw [(htest _ hin k rfl).mpr hk] at hnot
      cases hnot
    · rcases List.mem_cons.mp hmemB with heq | hmemB
      · exact Nat.le_of_eq (congrArg Prod.fst heq)
      · exact Nat.le_of_lt ((List.pairwise_cons.mp hd.of_append.2.1).1 _ hmemB)

theorem lists (hr : row.Represents M) (hw : Whole t row) (hd : row.Descending) : Tree.Lists (row.entries w) M where
  descending := hw.proper.entries_descending hd
  mem k v := hw.proper.mem_entries.trans (hr k v).symm

end Row.Represents

theorem Whole.readsInOrder (hw : Whole t row) (hr : row.Represents M) : t.ReadsInOrder M := by
  obtain ⟨row', hperm, hd⟩ := hw.exists_descending
  replace hw := hw.perm hperm
  replace hr := hr.perm hperm
  have hlen : (row'.entries w).length = t.len := by rw [hw.len, hw.proper.length_entries]
  refine ⟨⟨_, hw.last_eq hd, ?_⟩, fun k => ⟨_, hw.prev_eq hd k, ?_⟩, row'.entries w, hr.lists hw hd, hlen, fun n => ?_,
    fun order => ⟨_, hw.visit_eq hd order, ?_, ?_⟩⟩
  · have hhead : row'.head? = row'.find? fun _ => true := by cases row' <;> rfl
    rw [hhead]
    exact hr.largest hw hd fun _ _ _ _ => ⟨fun _ => trivial, fun _ => rfl⟩
  · exact hr.largest hw hd fun e _ k' hk' => by rw [decide_eq_true_iff, ← hk']; rfl
  · rw [hw.pulls_eq hd n .start, List.range_eq_range']
    simp only [hw.proper.getElem?_entries]
  · rw [hw.size_visits (List.Perm.refl _), hw.len]
  · rw [Tree.visits, Order.filterMap_arrange, Tree.toList_record]
    simp [Row.entries]

/-- Ordered reads of a reachable tree read the map of its entries in the order of the keys, wherever its separators
are. -/
theorem Tree.Reachable.reads_in_order (ht : t.Reachable) :
    (∃ M, t.Denotes M) ∧ ∀ M, t.Denotes M → t.ReadsInOrder M := by
  obtain ⟨row, hw⟩ := ht.whole
  exact ⟨⟨_, hw.denotes⟩, fun M hM => hw.readsInOrder (hw.denotes_iff.mp hM)⟩

/-- In the worn tree a separator is left low by the removal of the smallest key under it, so that the search for the
entry before 3 starts twice. -/
theorem reads_in_order_of_worn : Tree.worn.Reachable ∧ ∃ M, Tree.worn.Denotes M ∧ Tree.worn.ReadsInOrder M := by
  obtain ⟨⟨M, hM⟩, h⟩ := Tree.worn_reachable.reads_in_order
  exact ⟨Tree.worn_reachable, M, hM, h M hM⟩

end Trees
end MemoTree
