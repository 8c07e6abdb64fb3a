import MemoTree.Proofs.Passing
import MemoTree.Proofs.Sequence

/-! # A check is a certificate

Whatever state a tree is in, and whatever brought it there, a check that passes certifies its reads: a visit, lookups
without memos and the ordered reads go down on their own paths, and yet they read one sequence of entries. The check
says nothing of how the nodes are shared, and does not have to. Of the keys in the slots it is asked only that they
are keys of the width of the tree: no check looks at the bits that a width leaves out. -/

namespace MemoTree
open Pool NodePool Rows

/-- Reads of `t` that ask no memo ring read `entries`, from the largest key down. They change nothing. -/
structure Tree.ReadsAs {w : Width} (t : Tree w) (entries : List (Entry w)) : Prop where
  descending : entries.Pairwise fun a b => b.1 < a.1
  len : entries.length = t.len
  visit : ∃ seen, Runs (Tree.visit .descending) t seen t ∧ seen.toList = entries.mapIdx fun i e => ⟨e.2, e.1, i⟩
  lookup : ∀ k, ∃ o, Runs (Tree.lookup k) { t with memoize := false } o { t with memoize := false } ∧
    ∀ v, o = some v ↔ (k, v) ∈ entries
  last : t.last = .ok entries.head?
  prev : ∀ k, ∃ o, t.prev k = .ok o ∧ ((o = none ∧ ∀ e ∈ entries, k ≤ e.1) ∨
    ∃ e ∈ entries, o = some e ∧ e.1 < k ∧ ∀ e' ∈ entries, e'.1 < k → e'.1 ≤ e.1)

theorem Row.Descending.le_of_below {row : Row} {e a : Pair} {x : Nat} (hd : row.Descending) (he : row.below x = some e)
    (ha : a ∈ row) (hax : a.1 < x) : a.1 ≤ e.1 := by
  cases x with
  | zero => exact absurd hax (Nat.not_lt_zero _)
  | succ x =>
    rw [Row.below_succ] at he
    exact hd.le_of_scan he ha (Nat.le_of_lt_succ hax)

section Trees
variable {w : Width} {t : Tree w} {c : Rows} {r : Handle}

theorem Tree.readsAs_nil (hroot : t.root = none) (hlen : t.len = 0) : t.ReadsAs [] where
  descending := .nil
  len := hlen.symm
  visit := ⟨_, runs_visit_rootless hroot .descending, rfl⟩
  lookup k := ⟨none, Runs.lookup_none (runs_findSlot_rootless hroot), fun v => by simp⟩
  last := by
    rw [Tree.last, hroot]
    rfl
  prev k := by
    refine ⟨none, ?_, .inl ⟨rfl, fun e he => (by cases he)⟩⟩
    rw [Tree.prev, hroot]
    rfl

/-- A tree that can be read is read as its leaves are, from left to right. -/
theorem Legible.readsAs (hl : Legible t c r (t.height - 1)) (hroot : t.root = some r)
    (hlen : (c.pairs r (t.height - 1)).length = t.len) : t.ReadsAs ((c.pairs r (t.height - 1)).entries w) := by
  have hproper := hl.proper (Nat.le_refl _)
  have hd := hl.searchable.pairs_descending (Nat.le_refl _)
  have hplain : Legible { t with memoize := false } c r (t.height - 1) := ⟨hl.searchable, hl.full, hl.node⟩
  refine ⟨hproper.entries_descending hd, hproper.length_entries.trans hlen, ⟨_, hl.visit hroot .descending, ?_⟩,
    fun k => ?_, ?_, fun k => ?_⟩
  · rw [Tree.visits, Tree.toList_record]
    simp [Row.entries, Order.arrange]
  · -- keys descend, so no other entry has the key of the one that is found
    rcases hplain.lookup hroot rfl k with ⟨habsent, hrun⟩ | ⟨v, hmem, hrun⟩
    · refine ⟨none, hrun, fun v => ⟨fun h => (by cases h), fun h => ?_⟩⟩
      exact absurd rfl (habsent _ (hproper.mem_entries.mp h))
    · refine ⟨some v, hrun, fun v' => ⟨fun h => ?_, fun h => ?_⟩⟩
      · cases h
        exact hproper.mem_entries.mpr hmem
      · have heq := hd.eq_of_mem (hproper.mem_entries.mp h) hmem rfl
        exact congrArg some (Subtype.ext (congrArg Prod.snd heq).symm)
  · obtain ⟨e, rest, hpairs, hlast⟩ := hl.last hroot
    rw [hlast, List.head?_eq_getElem?, hproper.getElem?_entries, hpairs]
    rfl
  · refine ⟨((c.pairs r (t.height - 1)).below k.val).bind (Pair.entry w), ?_, ?_⟩
    · rw [Tree.prev, hroot]
      exact hl.searchBelow k.isLt
    · cases hbelow : (c.pairs r (t.height - 1)).below k.val with
      | none =>
        refine .inl ⟨rfl, fun e he => Nat.le_of_not_lt fun hlt => ?_⟩
        exact List.find?_eq_none.mp hbelow _ (hproper.mem_entries.mp he) (decide_eq_true hlt)
      | some e =>
        have he : e ∈ c.pairs r (t.height - 1) := List.mem_of_find?_eq_some hbelow
        have hlt : e.1 < k.val := by simpa using List.find?_some hbelow
        refine .inr ⟨_, hproper.mem_entries.mpr he, hproper.entry he, hlt, fun e' he' => ?_⟩
        exact hd.le_of_below hbelow (hproper.mem_entries.mp he')

/-- If the check of a tree passes, its reads agree on one sequence of as many entries as the tree counts. -/
theorem Tree.Keyed.certified (hk : t.Keyed) (hv : t.validate = .ok (.ok ())) : ∃ entries, t.ReadsAs entries := by
  rcases Passes.of_check (Tree.passes_of_validate hv) with ⟨hroot, -, hlen⟩ | ⟨r, hroot, -, hf, hlen⟩
  · exact ⟨[], Tree.readsAs_nil hroot hlen⟩
  · exact ⟨_, (Tree.Clear.of_fenced hk hf).legible.readsAs hroot hlen⟩

/-- Words that a width fills to the last bit are always those of a key. -/
theorem Tree.keyed_of_full (hfull : w.bits = 64 * w.words) : t.Keyed := fun h n i key _ _ hkey => by
  have hsmall := Words.toNat_lt key
  have hwords := Node.key_words hkey
  rw [Node.length_key hkey] at hsmall
  exact ⟨⟨Words.toNat key, hfull ▸ hsmall⟩, hwords⟩

/-- A tree of height 3 with one node, whose only child is the node itself. Read as a handle, its value word names it. -/
def Tree.looped : Tree .bits64 where
  pool := ⟨#[⟨#[5, 0, 1, 0], 0, false, Ring.empty⟩], [], 4, none, 3, 0, 3⟩
  root := some ⟨0, by decide⟩
  height := 3
  len := 1
  pairs := 2
  memoize := true
  hooks := {}

/-- The looped tree passes, and is read as the one entry of its node. -/
theorem certified_of_looped : Tree.looped.Keyed ∧ Tree.looped.validate = .ok (.ok ()) ∧
    ∃ entries, Tree.looped.ReadsAs entries :=
  have hk : Tree.looped.Keyed := Tree.keyed_of_full rfl
  have hv : Tree.looped.validate = .ok (.ok ()) := by rfl
  ⟨hk, hv, hk.certified hv⟩

end Trees
end MemoTree
