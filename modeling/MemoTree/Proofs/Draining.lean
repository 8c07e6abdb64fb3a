import MemoTree.Proofs.Atomicity
import MemoTree.Proofs.Returns
import MemoTree.Proofs.Validation

/-! # Draining

A node that is unlinked while its parent's ring still names it goes back when the parent is unlinked, and one that was
unlinked before goes back with the last ring that names it. So a draining leaves nothing out: no node is in use
afterwards, and a pool of which no node is in use has every block on its free list. -/

namespace MemoTree
open Pool NodePool

/-- What a draining makes of `t`: a tree without entries, to whose pool each block that was out came back once. -/
structure Tree.Drained {w : Width} (t t' : Tree w) : Prop where
  empty : t'.root = none ∧ t'.height = 0 ∧ t'.len = 0
  valid : t'.validate = .ok (.ok ())
  back : ∃ back, t'.pool.free = back ++ t.pool.free ∧ t'.pool.released = t.pool.released + back.length ∧ back.Nodup ∧
    ∀ h, h ∈ back ↔ t.pool.Out h
  allocated : t'.pool.allocated = t.pool.allocated
  balanced : t'.pool.allocated = t'.pool.released
  outstanding : t'.pool.outstanding = .ok 0
  settled : ∀ h n, t'.pool.block h = .ok n → n.refs = 0 ∧ n.ring.memos = []

section Trees
variable {w : Width} {t t' : Tree w} {row : Row} {back : List Handle}

/-- Between two pools of the same blocks, if all of them are free at last, those come back that were out. -/
theorem Regains.mem_iff {p p' : NodePool} {h : Handle} (hr : Regains p p' back) (hn : p'.free.Nodup)
    (hfree : ∀ h n, p'.block h = .ok n → h ∈ p'.free) (hmade : ∀ h ∈ p'.free, ∃ n, p'.block h = .ok n) :
    h ∈ back ↔ p.Out h := by
  rw [hr.free] at hn hfree hmade
  constructor
  · intro hback
    obtain ⟨n, hn'⟩ := hmade h (List.mem_append_left _ hback)
    exact ⟨exists_block_of_size hr.size hn', fun hf => (List.nodup_append.mp hn).2.2 h hback h hf rfl⟩
  · rintro ⟨⟨n, hn⟩, hf⟩
    obtain ⟨n', hn'⟩ := exists_block_of_size hr.size.symm hn
    exact (List.mem_append.mp (hfree h n' hn')).resolve_right hf

theorem Whole.not_live (hw : Whole t []) (hroot : t.root = none) (h : Handle) : ¬t.pool.Live h := by
  rcases hw.state with ⟨hb, -⟩ | ⟨c, r, hr, -⟩
  · exact hb.unused h
  · rw [hr.stand.root] at hroot
    cases hroot

theorem Whole.drained (hw' : Whole t' []) (hroot : t'.root = none) (hheight : t'.height = 0)
    (hback : Regains t.pool t'.pool back) : t.Drained t' := by
  have hl := hw'.ledger
  have hidle := hw'.not_live hroot
  have hfree : ∀ h n, t'.pool.block h = .ok n → h ∈ t'.pool.free := fun h n hn => (hl.idle hidle hn).2.2
  have hmade : ∀ h ∈ t'.pool.free, ∃ n, t'.pool.block h = .ok n := fun h hf => (hl.free h hf).imp fun n hn => hn.1
  have hnodup := hl.nodup
  rw [hback.free] at hnodup
  refine ⟨⟨hroot, hheight, hw'.len⟩, hw'.validate, ⟨back, hback.free, hback.released, (List.nodup_append.mp hnodup).1,
    fun h => hback.mem_iff hl.nodup hfree hmade⟩, hback.allocated, hl.balanced hidle, ?_, fun h n hn => ?_⟩
  · rw [hl.outstanding_eq, hl.out_eq_zero hidle]
  · obtain ⟨hrefs, hring, -⟩ := hl.idle hidle hn
    exact ⟨hrefs, hring⟩

/-- A draining takes the root away, whatever the tree is. -/
theorem Ends.drain {order : Order} {seen : Array (Tree.Visit w)} (h : Ends (Tree.drain order) t seen t') :
    t'.root = none ∧ t'.height = 0 := by
  have h₁ := h.bind_get
  extract_lets last at h₁
  have hlast : ∀ {seen' s}, Ends (last seen') s seen t' → t'.root = none ∧ t'.height = 0 := fun h₂ => by
    obtain ⟨_, s, hset, h₃⟩ := h₂.bind
    obtain rfl := hset.modify
    obtain ⟨_, -, h₄⟩ := h₃.bind_get.bind_lift
    obtain ⟨_, s, hemit, h₅⟩ := h₄.bind
    obtain rfl := hemit.report
    obtain ⟨-, rfl⟩ := h₅.pure
    exact ⟨rfl, rfl⟩
  cases hroot : t.root with
  | none =>
    rw [hroot] at h₁
    obtain ⟨_, _, -, h₂⟩ := h₁.bind
    exact hlast h₂
  | some root =>
    rw [hroot] at h₁
    obtain ⟨_, _, -, h₂⟩ := h₁.bind_get.bind_get.bind
    exact hlast h₂

/-- Draining a reachable tree, in either order, visits what a visit would have visited, answers how many entries there
were, and gives back every block that is out, whether its node could be reached or was deferred. -/
theorem Tree.Reachable.drains_completely (ht : t.Reachable) (order : Order) :
    ∃ seen t', Runs (Tree.visit order) t seen t ∧ Runs (Tree.drain order) t seen t' ∧
    seen.size = t.len ∧ t.Drained t' := by
  obtain ⟨row, hw⟩ := ht.whole
  obtain ⟨row', t', hperm, hvisit, hrun, hw'⟩ := hw.drains order
  obtain ⟨hroot, hheight⟩ := hrun.ends.drain
  obtain ⟨said, hsaid⟩ := hrun
  obtain ⟨⟨back, hback⟩, -⟩ := Thrifty.drain order _ _ _ _ _ (hsaid #[])
  refine ⟨_, t', hvisit, ⟨said, hsaid⟩, ?_, hw'.drained hroot hheight hback⟩
  rw [hw.size_visits hperm, hw.len]

/-- In the worn tree six blocks are out and five nodes can be reached: the sixth is the leaf that was unlinked while its
parent's ring named it. -/
theorem drains_completely_from_worn : Tree.worn.Reachable ∧ Tree.worn.pool.outstanding = .ok 6 ∧
    Tree.worn.nodeCount = .ok 5 ∧ ∀ order, ∃ seen t', Runs (Tree.visit order) Tree.worn seen Tree.worn ∧
      Runs (Tree.drain order) Tree.worn seen t' ∧ seen.size = Tree.worn.len ∧ Tree.worn.Drained t' :=
  ⟨Tree.worn_reachable, by decide +kernel, by decide +kernel, fun order => Tree.worn_reachable.drains_completely order⟩

end Trees
end MemoTree
