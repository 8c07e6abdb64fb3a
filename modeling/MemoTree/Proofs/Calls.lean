import MemoTree.Proofs.Sequence
import MemoTree.Tree.Insert
import MemoTree.Tree.Remove

/-! # Calls

The operations on one tree, each with its arguments, as data, so that what two trees answer can be compared call by
call. A call that only reads answers something about the pairs of the tree, whatever their nodes look like. -/

namespace MemoTree
open Pool NodePool Rows

namespace Tree
variable {w : Width}

/-- An operation on a tree with its arguments. -/
inductive Call (w : Width) where
  | insert (key : Key w) (value : Value)
  | update (key : Key w) (value : Value)
  | remove (key : Key w)
  | lookup (key : Key w)
  | prev (key : Key w)
  | last
  | visit (order : Order)
  /-- The first `n` times a new cursor is asked for the next entry. -/
  | pulls (n : Nat)

/-- What an operation answers. -/
inductive Answer (w : Width) where
  | result (result : Except Error Unit)
  | value (value : Option Value)
  | entry (entry : Option (Entry w))
  | visits (seen : Array (Visit w))
  | entries (entries : List (Option (Entry w)))

namespace Call

/-- Runs the operation. -/
def run : Call w → TreeM w (Answer w)
  | .insert key value => return .result (← Tree.insert key value)
  | .update key value => return .result (← Tree.update key value)
  | .remove key => return .value (← Tree.remove key)
  | .lookup key => return .value (← Tree.lookup key)
  | .prev key => return .entry (← (← get).prev key)
  | .last => return .entry (← (← get).last)
  | .visit order => return .visits (← Tree.visit order)
  | .pulls n => return .entries (← (← get).pulls n .start)

/-- Whether the operation only reads. A lookup counts as a read though it may change memo rings. -/
def reads : Call w → Bool
  | .insert _ _ | .update _ _ | .remove _ => false
  | .lookup _ | .prev _ | .last | .visit _ | .pulls _ => true

/-- The answer to a read of a tree with the pairs `row`, listed in descending order. -/
inductive Reading (row : Row) : Call w → Answer w → Prop
  | lookup (k : Key w) : Reading row (.lookup k) (.value (row.toMap w k))
  | prev (k : Key w) : Reading row (.prev k) (.entry ((row.below k.val).bind (Pair.entry w)))
  | last : Reading row .last (.entry (row.head?.bind (Pair.entry w)))
  | visit (order : Order) : Reading row (.visit order) (.visits (Tree.visits w order row))
  | pulls (n : Nat) : Reading row (.pulls n) (.entries ((List.range' 0 n).map fun j => row[j]?.bind (Pair.entry w)))

theorem exists_reading (row : Row) {call : Call w} (h : call.reads = true) : ∃ answer, call.Reading row answer := by
  cases call with
  | insert | update | remove => cases h
  | lookup k => exact ⟨_, .lookup k⟩
  | prev k => exact ⟨_, .prev k⟩
  | last => exact ⟨_, .last⟩
  | visit order => exact ⟨_, .visit order⟩
  | pulls n => exact ⟨_, .pulls n⟩

end Call

/-- What operations answer, one after the other. -/
def calls : List (Call w) → TreeM w (List (Answer w))
  | [] => return []
  | call :: rest => do
    let answer ← call.run
    return answer :: (← calls rest)

/-- Any reads, one after the other, answer the same from both trees. -/
def ReadAlike (t t' : Tree w) : Prop :=
  ∀ l : List (Call w), (∀ call ∈ l, call.reads = true) →
    ∃ answers, (∃ s, Runs (calls l) t answers s) ∧ ∃ s', Runs (calls l) t' answers s'

end Tree

section Trees
variable {w : Width} {t t' : Tree w} {row : Row}

namespace Whole

theorem lookup_toMap (hw : Whole t row) (k : Key w) :
    ∃ t', Runs (Tree.lookup k) t (row.toMap w k) t' ∧ Whole t' row := by
  have hr := hw.toMap_represents
  rcases hw.lookup k with ⟨hnew, t', hrun, hw'⟩ | ⟨v, hmem, t', hrun, hw'⟩
  · rw [hr.eq_none hnew]
    exact ⟨t', hrun, hw'⟩
  · rw [(hr k v).mpr hmem]
    exact ⟨t', hrun, hw'⟩

theorem reading {call : Tree.Call w} {answer : Tree.Answer w} (hw : Whole t row) (hd : row.Descending)
    (h : call.Reading row answer) : ∃ t', Runs call.run t answer t' ∧ Whole t' row := by
  cases h with
  | lookup k =>
    obtain ⟨t', hrun, hw'⟩ := hw.lookup_toMap k
    exact ⟨t', Runs.bind hrun (Runs.pure _ _), hw'⟩
  | prev k => exact ⟨t, Runs.bind (Runs.get _) (Runs.bind (Runs.lift (hw.prev_eq hd k) _) (Runs.pure _ _)), hw⟩
  | last => exact ⟨t, Runs.bind (Runs.get _) (Runs.bind (Runs.lift (hw.last_eq hd) _) (Runs.pure _ _)), hw⟩
  | visit order => exact ⟨t, Runs.bind (hw.visit_eq hd order) (Runs.pure _ _), hw⟩
  | pulls n => exact ⟨t, Runs.bind (Runs.get _) (Runs.bind (Runs.lift (hw.pulls_eq hd n .start) _) (Runs.pure _ _)), hw⟩

/-- The answer to a read depends on the pairs alone. -/
theorem exists_answer {call : Tree.Call w} (hw : Whole t row) (hreads : call.reads = true) :
    ∃ answer, ∀ {t : Tree w}, Whole t row → ∃ t', Runs call.run t answer t' ∧ Whole t' row := by
  obtain ⟨row', hperm, hd⟩ := hw.exists_descending
  obtain ⟨answer, ha⟩ := Tree.Call.exists_reading row' hreads
  refine ⟨answer, fun hw => ?_⟩
  obtain ⟨t', hrun, hw'⟩ := (hw.perm hperm).reading hd ha
  exact ⟨t', hrun, hw'.perm hperm.symm⟩

theorem readAlike (hw : Whole t row) (hw' : Whole t' row) : t.ReadAlike t' := by
  intro l
  induction l generalizing t t' with
  | nil => exact fun _ => ⟨[], ⟨t, Runs.pure _ _⟩, t', Runs.pure _ _⟩
  | cons call l ih =>
    intro hreads
    obtain ⟨answer, hanswer⟩ := hw.exists_answer (hreads call List.mem_cons_self)
    obtain ⟨t₁, hrun, hw₁⟩ := hanswer hw
    obtain ⟨t₁', hrun', hw₁'⟩ := hanswer hw'
    obtain ⟨answers, ⟨s, hrest⟩, s', hrest'⟩ := ih hw₁ hw₁' fun call' h => hreads call' (List.mem_cons_of_mem call h)
    exact ⟨answer :: answers, ⟨s, Runs.bind hrun (Runs.bind hrest (Runs.pure _ _))⟩, s',
      Runs.bind hrun' (Runs.bind hrest' (Runs.pure _ _))⟩

end Whole
end Trees
end MemoTree
