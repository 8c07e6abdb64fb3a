import MemoTree.Proofs.Atomicity
import MemoTree.Proofs.Mirrors

/-! # The memo rings are transparent

Two trees have the same geometry and no limit on their blocks. The one uses its memo rings, the other does not. Both
start without entries and take the same calls, and between the calls any keys may be looked up in the first alone.
Then every call answers the same on both, and the trees have the same shape, whatever handles their nodes have. All
that the memos do is to keep blocks out for longer. -/

namespace MemoTree
open Pool NodePool

/-- A tree as it is made. -/
inductive Tree.Made {w : Width} : Tree w → Prop
  | empty : Made Tree.empty
  | ofConfig {c t} : Tree.ofConfig c = .ok (.ok t) → Made t

/-- Fewer blocks were made for the tree than there are handles. -/
def Tree.HandlesLeft {w : Width} (t : Tree w) : Prop := t.pool.blocks.size < 2 ^ 32 - 1

instance {w : Width} (t : Tree w) : Decidable t.HandlesLeft := inferInstanceAs (Decidable (_ < _))

/-- The same calls led to `t`, which uses its memo rings, and to `u`, which does not. Between them keys were looked up
in the first tree alone. -/
inductive Tree.Paired {w : Width} : Tree w → Tree w → Prop
  | start {t u} : t.Made → u.Made → u.pairs = t.pairs → t.pool.limit = none → u.pool.limit = none →
      t.memoize = true → u.memoize = false → Paired t u
  | call {t u t' u' a b} (call : Tree.Call w) : Paired t u → Ends call.run t a t' → Ends call.run u b u' →
      t'.HandlesLeft → u'.HandlesLeft → Paired t' u'
  | lookup {t u t' a} (k : Key w) : Paired t u → Ends (Tree.lookup k) t a t' → Paired t' u

/-- The trees cannot be told apart, handles and memos aside. Of `t` at least as many blocks are out as of `u`, of which
only the nodes are. -/
structure Tree.Agrees {w : Width} (t u : Tree w) : Prop where
  height : u.height = t.height
  len : u.len = t.len
  /-- The same keys are in the same places, and so are the values. -/
  shape : ∃ shape, t.shape = .ok shape ∧ u.shape = .ok shape
  counts : ∃ nodes out : Nat, t.nodeCount = .ok nodes ∧ u.nodeCount = .ok nodes ∧
    u.pool.outstanding = .ok nodes ∧ t.pool.outstanding = .ok out ∧ nodes ≤ out

/-- The trees agree, and every call on both answers the same and leaves trees that agree. Where no node can be made, a
call ends in a fault on both or on neither. -/
structure Tree.Transparent {w : Width} (t u : Tree w) : Prop where
  agrees : t.Agrees u
  calls : ∀ call : Tree.Call w,
    (∃ a t' b u', Runs call.run t a t' ∧ Runs call.run u b u' ∧
      (t'.HandlesLeft → u'.HandlesLeft → b = a ∧ t'.Agrees u')) ∨
    (addressable < 8 * t.geometry.slotWords ∧ Faults call.run t .tooLarge ∧ Faults call.run u .tooLarge)

section Trees
variable {w : Width} {t u : Tree w} {row : Row}

theorem Tree.Made.whole (h : t.Made) : Whole t [] := by
  cases h with
  | empty => exact Whole.empty w
  | ofConfig h => exact Whole.ofConfig h

namespace Mirrors

theorem start (ht : Whole t []) (hu : Whole u []) (hpairs : u.pairs = t.pairs) (hlimit : t.pool.limit = none)
    (hlimit' : u.pool.limit = none) (huncached : u.memoize = false) : Mirrors t u [] where
  whole := ⟨ht, hu⟩
  limit := ⟨hlimit, hlimit'⟩
  uncached := huncached
  quiet h := hu.ledger.quiet (hu.bare.unused h)
  abreast := ⟨_, _, _, ht.bare.abreast hu.bare (by rw [Tree.geometry, Tree.geometry, hpairs])⟩

theorem agrees (hm : Mirrors t u row) : t.Agrees u where
  height := by
    obtain ⟨g, φ, m, ha⟩ := hm.abreast
    rw [ha.height.1, ha.height.2]
  len := by rw [hm.whole.1.len, hm.whole.2.len]
  shape := hm.shape_eq
  counts := hm.counts

theorem calls (hm : Mirrors t u row) (call : Tree.Call w) :
    (∃ a t' b u', Runs call.run t a t' ∧ Runs call.run u b u' ∧
      (t'.HandlesLeft → u'.HandlesLeft → b = a ∧ t'.Agrees u')) ∨
    (addressable < 8 * t.geometry.slotWords ∧ Faults call.run t .tooLarge ∧ Faults call.run u .tooLarge) := by
  refine (hm.runs call).imp_left ?_
  rintro ⟨a, t', b, u', hrun, hrun'⟩
  refine ⟨a, t', b, u', hrun, hrun', fun hsize hsize' => ?_⟩
  obtain ⟨hab, row', hm'⟩ := hm.step hrun.ends hrun'.ends hsize hsize'
  exact ⟨hab, hm'.agrees⟩

end Mirrors

/-- Paired trees are mirrored, call by call. -/
theorem Tree.Paired.mirrors (h : t.Paired u) : ∃ row, Mirrors t u row := by
  induction h with
  | start ht hu hpairs hlimit hlimit' _ huncached =>
      exact ⟨[], .start ht.whole hu.whole hpairs hlimit hlimit' huncached⟩
  | call call _ he he' hsize hsize' ih =>
    obtain ⟨row, hm⟩ := ih
    exact (hm.step he he' hsize hsize').2
  | lookup k _ he ih =>
    obtain ⟨row, hm⟩ := ih
    have hcall : Ends (Tree.Call.lookup k).run _ _ _ := he.returns _
    exact ⟨row, hm.glance rfl hcall⟩

/-- Whether a tree uses its memo rings cannot be told from its answers, nor from the shape of the tree. -/
theorem Tree.Paired.transparent (h : t.Paired u) : t.Transparent u := by
  obtain ⟨row, hm⟩ := h.mirrors
  exact ⟨hm.agrees, hm.calls⟩

end Trees

/-! ### The worn tree without memos -/

/-- An insertion that can be evaluated on both trees. -/
theorem Tree.Paired.insert_after {w : Width} {t u : Tree w} {k : Key w} {v : Value} (h : t.Paired u)
    (heval : (Tree.insert k v t #[]).toOption.map (·.1.1) = some (.ok ()) ∧
      (Tree.insert k v u #[]).toOption.map (·.1.1) = some (.ok ()) ∧
      (t.after (Tree.insert k v)).HandlesLeft ∧ (u.after (Tree.insert k v)).HandlesLeft) :
    (t.after (Tree.insert k v)).Paired (u.after (Tree.insert k v)) :=
  .call (.insert k v) h ((Ends.after heval.1).returns _) ((Ends.after heval.2.1).returns _) heval.2.2.1 heval.2.2.2

theorem Tree.worn_paired : Tree.worn.Paired Tree.unremembering := by
  have hstart : Paired (.onPool (.empty (⟨1, 2⟩ : Geometry).blockWords none) 2 true : Tree .bits64)
      (.onPool (.empty (⟨1, 2⟩ : Geometry).blockWords none) 2 false) :=
    .start (.ofConfig (c := { pairs := some 2 }) rfl) (.ofConfig (c := { pairs := some 2, memoize := false }) rfl)
      rfl rfl rfl rfl rfl
  have hone := hstart.insert_after (k := 1) (v := .one) (by decide +kernel)
  have htwo := hone.insert_after (k := 2) (v := .one) (by decide +kernel)
  have hthree := htwo.insert_after (k := 3) (v := .one) (by decide +kernel)
  have hfour := hthree.insert_after (k := 4) (v := .one) (by decide +kernel)
  have hlookup := hfour.lookup 2 (Ends.after (a := some .one) (by decide +kernel))
  exact .call (.remove 2) hlookup ((Ends.after (a := some .one) (by decide +kernel)).returns _)
    ((Ends.after (a := some .one) (by decide +kernel)).returns _) (by decide +kernel) (by decide +kernel)

/-- The worn tree keeps one block more out. -/
theorem transparent_of_worn : Tree.worn.Paired Tree.unremembering ∧ Tree.worn.Transparent Tree.unremembering ∧
    Tree.worn.pool.outstanding.toOption = some 6 ∧ Tree.unremembering.pool.outstanding.toOption = some 5 :=
  ⟨Tree.worn_paired, Tree.worn_paired.transparent, by decide +kernel, by decide +kernel⟩

end MemoTree
