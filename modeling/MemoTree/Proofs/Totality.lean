import MemoTree.Proofs.Sequence
import MemoTree.Proofs.Validation

/-! # Operations without faults

What the operations take for granted, of links, counts, marks, references and slots, holds in every reachable tree: no
operation on it ends in a fault, whatever its arguments are. One fault is left, and it stands for a lack of memory
rather than for a broken tree: an insertion ends in it where a node has more words than can be had in one piece. -/

namespace MemoTree
open Pool NodePool Rows

/-- Every operation on `t` ends with a result, with one exception: no node can be made that takes more than all memory
that can be addressed. Merges are with the trees that satisfy `other`, in both directions. -/
structure Tree.Total {w : Width} (t : Tree w) (other : Tree w → Prop) : Prop where
  insert : ∀ k v, (∃ result t', Runs (Tree.insert k v) t result t') ∨
    (addressable < 8 * t.geometry.slotWords ∧ Faults (Tree.insert k v) t .tooLarge)
  update : ∀ k v, ∃ result t', Runs (Tree.update k v) t result t'
  lookup : ∀ k, ∃ result t', Runs (Tree.lookup k) t result t'
  remove : ∀ k, ∃ result t', Runs (Tree.remove k) t result t'
  visit : ∀ order, ∃ seen t', Runs (Tree.visit order) t seen t'
  drain : ∀ order, ∃ seen t', Runs (Tree.drain order) t seen t'
  last : ∃ entry, t.last = .ok entry
  prev : ∀ k, ∃ entry, t.prev k = .ok entry
  next : ∀ cursor, ∃ result, t.next cursor = .ok result
  validate : ∃ result, t.validate = .ok result
  merge : ∀ v, other v → (∃ result, Says (Tree.merge t v) result) ∧ ∃ result, Says (Tree.merge v t) result

section Trees
variable {w : Width} {t v : Tree w} {row vrow : Row}

/-- A cursor finds its next entry with one of the other ordered reads. -/
theorem Tree.exists_next (hlast : ∃ entry, t.last = .ok entry) (hprev : ∀ k, ∃ entry, t.prev k = .ok entry)
    (cursor : Tree.Cursor w) : ∃ result, t.next cursor = .ok result := by
  cases cursor with
  | start =>
    obtain ⟨_ | ⟨k, x⟩, hfind⟩ := hlast
    · exact ⟨_, by rw [Tree.next, hfind]; rfl⟩
    · exact ⟨_, by rw [Tree.next, hfind]; rfl⟩
  | after k =>
    obtain ⟨_ | ⟨k', x⟩, hfind⟩ := hprev k
    · exact ⟨_, by rw [Tree.next, hfind]; rfl⟩
    · exact ⟨_, by rw [Tree.next, hfind]; rfl⟩
  | done => exact ⟨_, rfl⟩

namespace Whole

theorem exists_insert (hw : Whole t row) (k : Key w) (x : Value) : (∃ result t', Runs (Tree.insert k x) t result t') ∨
    (addressable < 8 * t.geometry.slotWords ∧ Faults (Tree.insert k x) t .tooLarge) := by
  rcases hw.insert k x with ⟨-, t', hrun, -⟩ | ⟨-, ⟨t', hrun, -⟩ | ⟨_, t', hrun, -⟩ | ⟨hlarge, hfault⟩⟩
  · exact Or.inl ⟨_, t', hrun⟩
  · exact Or.inl ⟨_, t', hrun⟩
  · exact Or.inl ⟨_, t', hrun⟩
  · exact Or.inr ⟨Nat.not_le.mp hlarge, hfault⟩

theorem exists_update (hw : Whole t row) (k : Key w) (x : Value) : ∃ result t', Runs (Tree.update k x) t result t' := by
  rcases hw.update k x with ⟨-, t', hrun, -⟩ | ⟨_, _, -, t', hrun, -⟩
  · exact ⟨_, t', hrun⟩
  · exact ⟨_, t', hrun⟩

theorem exists_lookup (hw : Whole t row) (k : Key w) : ∃ result t', Runs (Tree.lookup k) t result t' := by
  rcases hw.lookup k with ⟨-, t', hrun, -⟩ | ⟨_, -, t', hrun, -⟩
  · exact ⟨_, t', hrun⟩
  · exact ⟨_, t', hrun⟩

theorem exists_remove (hw : Whole t row) (k : Key w) : ∃ result t', Runs (Tree.remove k) t result t' := by
  rcases hw.remove k with ⟨-, t', hrun, -⟩ | ⟨_, -, t', _, hrun, -⟩
  · exact ⟨_, t', hrun⟩
  · exact ⟨_, t', hrun⟩

theorem exists_merge (hw : Whole t row) (hv : Whole v vrow) : ∃ result, Says (Tree.merge t v) result := by
  obtain ⟨_, _, _, _, _, hsays, -⟩ := hw.merge hv
  exact ⟨_, hsays⟩

theorem total (hw : Whole t row) : t.Total fun v => ∃ vrow, Whole v vrow := by
  obtain ⟨row', hperm, hd⟩ := hw.exists_descending
  have hlast := (hw.perm hperm).last_eq hd
  have hprev := (hw.perm hperm).prev_eq hd
  exact
    { insert := hw.exists_insert
      update := hw.exists_update
      lookup := hw.exists_lookup
      remove := hw.exists_remove
      visit := fun order => ⟨_, t, (hw.perm hperm).visit_eq hd order⟩
      drain := fun order => by
        obtain ⟨_, t', -, hrun, -⟩ := hw.drain order
        exact ⟨_, t', hrun⟩
      last := ⟨_, hlast⟩
      prev := fun k => ⟨_, hprev k⟩
      next := Tree.exists_next ⟨_, hlast⟩ fun k => ⟨_, hprev k⟩
      validate := ⟨_, hw.validate⟩
      merge := fun v ⟨_, hv⟩ => ⟨hw.exists_merge hv, hv.exists_merge hw⟩ }

end Whole

/-- No operation on reachable trees meets a link, a count, a mark or a slot other than it expects. -/
theorem Tree.Reachable.never_faults (ht : t.Reachable) : t.Total Tree.Reachable := by
  obtain ⟨row, hw⟩ := ht.whole
  exact { hw.total with merge := fun v hv => hw.total.merge v hv.whole }

/-- The worn tree, in which a memo names an unlinked leaf and a separator is below the keys under it, and a tree without
a free block. -/
theorem never_faults_of_worn : Tree.worn.Reachable ∧ Tree.cramped.Reachable ∧ Tree.worn.Total Tree.Reachable ∧
    ∃ result, Says (Tree.merge Tree.worn Tree.cramped) result :=
  have h := Tree.worn_reachable.never_faults
  ⟨Tree.worn_reachable, Tree.cramped_reachable, h, (h.merge _ Tree.cramped_reachable).1⟩

end Trees
end MemoTree
