import MemoTree.Memo.Protocol
import MemoTree.Proofs.Allocation
import Mathlib.Tactic.Ring
import Mathlib.Algebra.Order.BigOperators.Group.List
import Mathlib.Data.List.Nodup
import Mathlib.Data.List.Perm.Subperm

/-! # The ledger of a pool

The count of a node is the number of memos that name it (`Pool.named`). While memos are dropped one by one,
their references are still owed: the ledger (`Ledger`) is kept with a list of what is owed. A deleted node goes
back when nothing is owed for it and no memo names it. Dropping memos changes the rings it empties, counts,
and the free list, on which only deleted nodes can come (`Pays`, `Sheds`). -/

namespace MemoTree

theorem Handle.index_inj {h k : Handle} (hi : h.index = k.index) : h = k := by
  cases h
  cases k
  cases hi
  rfl

/-- How many memos of a ring name a node. -/
def Ring.count (r : Ring) (h : Handle) : Nat := r.memos.countP fun m => m.child = h

theorem Ring.count_eq_zero {r : Ring} (hr : r.memos = []) (h : Handle) : r.count h = 0 := by
  rw [count, hr, List.countP_nil]

theorem Ring.memos_empty : Ring.empty.memos = [] := by decide

theorem Ring.count_pos {r : Ring} {h : Handle} : 0 < r.count h ↔ ∃ m ∈ r.memos, m.child = h := by
  simp [count, List.countP_pos_iff]

/-- The references owed for the memos of a ring. -/
theorem Ring.count_children (r : Ring) (h : Handle) : (r.memos.map (·.child)).count h = r.count h := by
  rw [List.count, List.countP_map]
  rfl

namespace Pool

/-! ### Blocks -/

section Blocks
variable {β : Type} {p : Pool β} {h k : Handle} {b b' : β}

theorem block_eq_ok : p.block h = .ok b ↔ p.blocks[h.index]? = some b := by
  rw [block]
  split <;> simp_all

theorem block_put_self (hb : p.block h = .ok b) : (p.put h b').block h = .ok b' := by
  rw [block_eq_ok] at hb ⊢
  rw [put, Array.getElem?_setIfInBounds, if_pos rfl, if_pos (Array.getElem?_eq_some_iff.mp hb).1]

theorem block_put_ne (hk : k ≠ h) : (p.put h b').block k = p.block k := by
  have hi : h.index ≠ k.index := fun hi => hk (Handle.index_inj hi.symm)
  rw [block, block, put, Array.getElem?_setIfInBounds, if_neg hi]

theorem put_self (hb : p.block h = .ok b) : p.put h b = p := by
  obtain ⟨hlt, heq⟩ := Array.getElem?_eq_some_iff.mp (block_eq_ok.mp hb)
  rw [put, Array.setIfInBounds, dif_pos hlt, ← heq, Array.set_getElem_self]

theorem block_put (hb : p.block h = .ok b) : (p.put h b').block k = if k = h then .ok b' else p.block k := by
  split
  · rename_i hk
    rw [hk, block_put_self hb]
  · rename_i hk
    exact block_put_ne hk

theorem exists_block_put (hb : p.block h = .ok b) : (∃ x, (p.put h b').block k = .ok x) ↔ ∃ x, p.block k = .ok x := by
  rw [block_put hb]
  split
  · rename_i hk
    rw [hk, hb]
    simp
  · rfl

theorem index_lt (hb : p.block h = .ok b) : h.index < p.blocks.size :=
  (Array.getElem?_eq_some_iff.mp (block_eq_ok.mp hb)).1

/-- There are no more handles of blocks than blocks. -/
theorem length_le_of_blocks {l : List Handle} (hn : l.Nodup) (hl : ∀ h ∈ l, ∃ b, p.block h = .ok b) :
    l.length ≤ p.blocks.size := by
  have hnodup : (l.map (·.index)).Nodup := hn.map_on fun _ _ _ _ hab => Handle.index_inj hab
  have hsub : l.map (·.index) ⊆ List.range p.blocks.size := fun i hi => by
    obtain ⟨h, hh, rfl⟩ := List.mem_map.mp hi
    obtain ⟨b, hb⟩ := hl h hh
    exact List.mem_range.mpr (index_lt hb)
  simpa using (hnodup.subperm hsub).length_le

theorem size_put (p : Pool β) (h : Handle) (b : β) : (p.put h b).blocks.size = p.blocks.size := Array.size_setIfInBounds

theorem block_push_self (hh : h.index = p.blocks.size) :
    ({ p with blocks := p.blocks.push b } : Pool β).block h = .ok b := by
  rw [block_eq_ok, hh]
  exact Array.getElem?_push_size

theorem block_push_ne (hk : k.index ≠ p.blocks.size) :
    ({ p with blocks := p.blocks.push b } : Pool β).block k = p.block k := by
  rw [block, block, Array.getElem?_push, if_neg hk]

/-- A new block comes to those that are there. -/
theorem block_push (hh : h.index = p.blocks.size) {x : β} :
    ({ p with blocks := p.blocks.push b } : Pool β).block k = .ok x ↔ k = h ∧ x = b ∨ p.block k = .ok x := by
  by_cases hk : k.index = p.blocks.size
  · obtain rfl := Handle.index_inj (hk.trans hh.symm)
    have hnone : p.block k ≠ .ok x := fun hx => Nat.ne_of_lt (index_lt hx) hk
    rw [block_push_self hk, Except.ok.injEq, or_iff_left hnone, eq_comm, and_iff_right rfl]
  · have hne : k ≠ h := by
      rintro rfl
      exact hk hh
    rw [block_push_ne hk, or_iff_right fun hx => hne hx.1]

end Blocks

/-! ### Who is named -/

variable {p p' : NodePool} {h k : Handle} {n n' : Node}

/-- How many memos name a node, in whatever ring they are. -/
def named (p : NodePool) (h : Handle) : Nat := (p.blocks.toList.map fun n => n.ring.count h).sum

theorem sum_set {l : List Nat} {i x y : Nat} (hx : l[i]? = some x) : (l.set i y).sum + x = l.sum + y := by
  induction l generalizing i with
  | nil => simp at hx
  | cons a l ih =>
    cases i with
    | zero =>
      simp only [List.getElem?_cons_zero, Option.some.injEq] at hx
      simp only [List.set_cons_zero, List.sum_cons]
      omega
    | succ i =>
      have := ih (i := i) (by simpa using hx)
      simp only [List.set_cons_succ, List.sum_cons]
      omega

/-- Replacing a node replaces what its ring names. -/
theorem named_put (n' : Node) (hn : p.block h = .ok n) (k : Handle) :
    (p.put h n').named k + n.ring.count k = p.named k + n'.ring.count k := by
  rw [block_eq_ok] at hn
  rw [named, named, put, Array.toList_setIfInBounds, List.map_set]
  apply sum_set
  rw [List.getElem?_map, Array.getElem?_toList, hn]
  rfl

theorem count_le_named (hn : p.block h = .ok n) (k : Handle) : n.ring.count k ≤ p.named k := by
  rw [block_eq_ok, ← Array.getElem?_toList] at hn
  exact List.le_sum_of_mem (List.mem_map_of_mem (List.mem_of_getElem? hn))

/-- A node that no memo names is named zero times. -/
theorem named_eq_zero (hsmall : p.blocks.size < 2 ^ 32)
    (hm : ∀ h n, p.block h = .ok n → ∀ m ∈ n.ring.memos, m.child ≠ k) : p.named k = 0 := by
  by_contra hne
  obtain ⟨x, hx, hpos⟩ := List.sum_pos_iff_exists_pos_nat.mp (Nat.pos_of_ne_zero hne)
  obtain ⟨n, hn, rfl⟩ := List.mem_map.mp hx
  obtain ⟨i, hi, hin⟩ := List.getElem_of_mem hn
  rw [Array.length_toList] at hi
  obtain ⟨m, hmem, hmk⟩ := Ring.count_pos.mp hpos
  refine hm ⟨i, by omega⟩ n (block_eq_ok.mpr ?_) m hmem hmk
  rw [← hin, Array.getElem_toList, Array.getElem?_eq_getElem hi]

theorem named_push (p : NodePool) (n : Node) (k : Handle) :
    ({ p with blocks := p.blocks.push n } : NodePool).named k = p.named k + n.ring.count k := by
  simp [named, List.sum_append]

/-- The block of a node that is in use: not on the free list and not deleted. -/
def Live (p : NodePool) (h : Handle) : Prop := ∃ n, p.block h = .ok n ∧ n.deleted = false ∧ h ∉ p.free

/-- Replacing a node does not change which nodes are in use, unless it marks the node. -/
theorem live_put (n' : Node) (hn : p.block h = .ok n) (hd : n'.deleted = n.deleted) :
    (p.put h n').Live k ↔ p.Live k := by
  rw [Live, Live, block_put hn]
  split
  · rename_i hk
    subst hk
    simp only [hn, Except.ok.injEq, exists_eq_left', hd]
    rfl
  · rfl

/-- Marking a node takes it out of use. -/
theorem live_put_deleted (n' : Node) (hn : p.block h = .ok n) (hd : n'.deleted = true) :
    (p.put h n').Live k ↔ p.Live k ∧ k ≠ h := by
  rw [Live, Live, block_put hn]
  split
  · rename_i hk
    subst hk
    simp [hd]
  · rename_i hk
    exact ⟨fun hx => ⟨hx, hk⟩, fun hx => hx.1⟩

/-- Giving a node back takes it out of use. -/
theorem live_back (p : NodePool) (h k : Handle) (released : Nat) :
    ({ p with free := h :: p.free, released := released } : NodePool).Live k ↔ p.Live k ∧ k ≠ h := by
  constructor
  · rintro ⟨x, hx, hd, hf⟩
    rw [List.mem_cons, not_or] at hf
    exact ⟨⟨x, hx, hd, hf.2⟩, hf.1⟩
  · rintro ⟨⟨x, hx, hd, hf⟩, hk⟩
    exact ⟨x, hx, hd, fun hm => hf ((List.mem_cons.mp hm).resolve_left hk)⟩

theorem not_live_of_free (hf : h ∈ p.free) : ¬p.Live h := fun hl => by
  obtain ⟨-, -, -, hout⟩ := hl
  exact hout hf

theorem not_live_of_deleted (hn : p.block h = .ok n) (hd : n.deleted = true) : ¬p.Live h := by
  rintro ⟨x, hx, hx', -⟩
  rw [hn] at hx
  cases hx
  rw [hd] at hx'
  cases hx'

/-- The number of blocks that are not on the free list. -/
def out (p : NodePool) : Nat := p.blocks.size - p.free.length

/-! ### The ledger -/

/-- The counts of all nodes are right, except that they are too high by what is `owed`, and the free list holds
what nobody uses. -/
structure Ledger (p : NodePool) (owed : List Handle) : Prop where
  refs : ∀ h n, p.block h = .ok n → n.refs = p.named h + owed.count h
  known : ∀ h n, p.block h = .ok n → ∀ m ∈ n.ring.memos, ∃ b, p.block m.child = .ok b
  debtor : ∀ h ∈ owed, ∃ b, p.block h = .ok b
  nodup : p.free.Nodup
  free : ∀ h ∈ p.free, ∃ n, p.block h = .ok n ∧ n.refs = 0 ∧ n.ring.memos = []
  deleted : ∀ h n, p.block h = .ok n → n.deleted = true → n.ring.memos = [] ∧ (n.refs = 0 → h ∈ p.free)
  counts : p.allocated + p.free.length = p.released + p.blocks.size
  small : p.blocks.size < 2 ^ 32

namespace Ledger
variable {owed owed' : List Handle}

/-- Replacing a node, and giving it back, keeps the ledger if what the node's ring names and what is owed
balance. -/
theorem put (gone : List Handle) (hl : Ledger p owed) (hn : p.block h = .ok n)
    (hbal : ∀ k, n'.ring.count k + owed'.count k + (if k = h then n.refs else 0) =
      n.ring.count k + owed.count k + (if k = h then n'.refs else 0))
    (hknown : ∀ m ∈ n'.ring.memos, ∃ b, p.block m.child = .ok b) (howed : ∀ k ∈ owed', ∃ b, p.block k = .ok b)
    (hdel : n'.deleted = true → n'.ring.memos = [] ∧ (n'.refs = 0 → h ∈ gone ++ p.free))
    (hfree : h ∈ gone ++ p.free → n'.refs = 0 ∧ n'.ring.memos = []) (hgone : gone = [] ∨ gone = [h] ∧ h ∉ p.free) :
    Ledger { p.put h n' with free := gone ++ p.free, released := p.released + gone.length } owed' where
  refs k x hx := by
    change (p.put h n').block k = .ok x at hx
    change x.refs = (p.put h n').named k + owed'.count k
    have hnamed := named_put n' hn k
    have hbal := hbal k
    rw [block_put hn] at hx
    split at hx
    · rename_i hk
      cases hx
      have := hl.refs h n hn
      rw [if_pos hk, if_pos hk] at hbal
      rw [hk] at hnamed hbal ⊢
      omega
    · rename_i hk
      have := hl.refs k x hx
      rw [if_neg hk, if_neg hk] at hbal
      omega
  known k x hx m hm := by
    refine (exists_block_put hn).mpr ?_
    change (p.put h n').block k = .ok x at hx
    rw [block_put hn] at hx
    split at hx
    · cases hx
      exact hknown m hm
    · exact hl.known k x hx m hm
  debtor k hk := (exists_block_put hn).mpr (howed k hk)
  nodup := by
    rcases hgone with rfl | ⟨rfl, hout⟩
    · exact hl.nodup
    · exact List.nodup_cons.mpr ⟨hout, hl.nodup⟩
  free k hk := by
    change ∃ x, (p.put h n').block k = .ok x ∧ _
    rw [block_put hn]
    split
    · rename_i hkh
      subst hkh
      exact ⟨n', rfl, hfree hk⟩
    · rename_i hkh
      refine hl.free k ?_
      rcases hgone with rfl | ⟨rfl, -⟩
      · exact hk
      · exact (List.mem_cons.mp hk).resolve_left hkh
  deleted k x hx hd := by
    change (p.put h n').block k = .ok x at hx
    rw [block_put hn] at hx
    split at hx
    · rename_i hkh
      cases hx
      rw [hkh]
      exact hdel hd
    · obtain ⟨hm, hf⟩ := hl.deleted k x hx hd
      exact ⟨hm, fun h0 => List.mem_append_right gone (hf h0)⟩
  counts := by
    have := hl.counts
    rw [List.length_append]
    change p.allocated + (gone.length + p.free.length) = p.released + gone.length + (p.put h n').blocks.size
    rw [size_put]
    omega
  small := by
    change (p.put h n').blocks.size < 2 ^ 32
    rw [size_put]
    exact hl.small

theorem named_eq_zero (hl : Ledger p []) (hn : p.block h = .ok n) (hr : n.refs = 0) : p.named h = 0 := by
  have := hl.refs h n hn
  rw [hr, List.count_nil] at this
  omega

theorem free_le (hl : Ledger p owed) : p.free.length ≤ p.blocks.size :=
  length_le_of_blocks hl.nodup fun h hh => by
    obtain ⟨n, hn, -⟩ := hl.free h hh
    exact ⟨n, hn⟩

theorem outstanding_eq (hl : Ledger p owed) : p.outstanding = .ok p.out := by
  have hle := hl.free_le
  have hcounts := hl.counts
  rw [outstanding, if_pos (by omega), out]
  congr 1
  omega

/-- There are no more nodes in use than blocks that are out. -/
theorem length_le_out (hl : Ledger p owed) {l : List Handle} (hn : l.Nodup) (hlive : ∀ h ∈ l, p.Live h) :
    l.length ≤ p.out := by
  have hboth : (l ++ p.free).Nodup := List.nodup_append.mpr ⟨hn, hl.nodup, fun a ha b hb hab => by
    subst hab
    exact not_live_of_free hb (hlive a ha)⟩
  have hle := length_le_of_blocks (p := p) hboth fun h hh => by
    rcases List.mem_append.mp hh with hh | hh
    · obtain ⟨n, hn, -⟩ := hlive h hh
      exact ⟨n, hn⟩
    · obtain ⟨n, hn, -⟩ := hl.free h hh
      exact ⟨n, hn⟩
  rw [List.length_append] at hle
  rw [out]
  omega

theorem not_free (hl : Ledger p owed) (hn : p.block h = .ok n) (hr : n.refs ≠ 0) : h ∉ p.free := fun hf => by
  obtain ⟨x, hx, h0, -⟩ := hl.free h hf
  rw [hn] at hx
  cases hx
  exact hr h0

end Ledger

/-! ### Paying what is owed -/

/-- What paying references changes: counts, and deleted nodes go back. -/
structure Pays (p p' : NodePool) : Prop where
  size : p'.blocks.size = p.blocks.size
  block : ∀ k n, p.block k = .ok n → ∃ refs, p'.block k = .ok { n with refs := refs }
  live : ∀ k, p'.Live k ↔ p.Live k
  blockWords : p'.blockWords = p.blockWords
  limit : p'.limit = p.limit

namespace Pays

theorem refl (p : NodePool) : Pays p p := ⟨rfl, fun _ n hn => ⟨n.refs, hn⟩, fun _ => Iff.rfl, rfl, rfl⟩

theorem trans {q : NodePool} (h₁ : Pays p p') (h₂ : Pays p' q) : Pays p q where
  size := h₂.size.trans h₁.size
  block k n hn := by
    obtain ⟨refs, hn⟩ := h₁.block k n hn
    obtain ⟨refs', hn⟩ := h₂.block k _ hn
    exact ⟨refs', hn⟩
  live k := (h₂.live k).trans (h₁.live k)
  blockWords := h₂.blockWords.trans h₁.blockWords
  limit := h₂.limit.trans h₁.limit

end Pays

end Pool

namespace NodePool
open Pool
variable {p p' : NodePool} {h k : Handle} {n : Node} {owed : List Handle}

/-- A reference that is owed is paid. -/
theorem releaseRef_spec (hl : Ledger p (h :: owed)) :
    ∃ p', Runs (releaseRef h) p () p' ∧ Ledger p' owed ∧ Pays p p' := by
  obtain ⟨n, hn⟩ := hl.debtor h List.mem_cons_self
  have hrefs := hl.refs h n hn
  rw [List.count_cons_self] at hrefs
  have hpos : n.refs ≠ 0 := by omega
  have hout := hl.not_free hn hpos
  -- `h` counts one reference less, and one reference less is owed to it
  have hbal : ∀ k, n.ring.count k + owed.count k + (if k = h then n.refs else 0) =
      n.ring.count k + (h :: owed).count k + (if k = h then n.refs - 1 else 0) := fun k => by
    rw [List.count_cons]
    by_cases hk : k = h
    · subst hk
      simp only [beq_self_eq_true, if_true]
      omega
    · rw [if_neg hk, if_neg hk, if_neg (by simpa using Ne.symm hk)]
      omega
  have hknown := hl.known h n hn
  have howed : ∀ k ∈ owed, ∃ b, p.block k = .ok b := fun k hk => hl.debtor k (List.mem_cons_of_mem h hk)
  have hblock : ∀ k x, p.block k = .ok x → ∃ refs, (p.put h { n with refs := n.refs - 1 }).block k =
      .ok { x with refs := refs } := fun k x hx => by
    rw [block_put hn]
    split
    · rename_i hk
      rw [hk, hn] at hx
      cases hx
      exact ⟨_, rfl⟩
    · exact ⟨x.refs, hx⟩
  -- an unlinked node goes back with its last reference
  by_cases hlast : n.refs = 1 ∧ n.deleted = true
  · refine ⟨_, Runs.bind (Runs.read hn) (Runs.of_neg hpos (Runs.bind (Runs.write _ _ _)
      (Runs.of_pos hlast (Runs.bind (Runs.report _ _) (runs_release hout))))),
      Ledger.put [h] hl hn hbal hknown howed (fun hd => ⟨(hl.deleted h n hn hd).1, fun _ => by simp⟩)
        (fun _ => ⟨by show n.refs - 1 = 0; omega, (hl.deleted h n hn hlast.2).1⟩) (Or.inr ⟨rfl, hout⟩), ?_⟩
    refine ⟨size_put _ _ _, hblock, fun k => (live_back (p.put h _) h k _).trans ?_, rfl, rfl⟩
    have hput : (p.put h { n with refs := n.refs - 1 }).Live k ↔ p.Live k := live_put _ hn rfl
    refine ⟨fun hx => hput.mp hx.1, fun hx => ⟨hput.mpr hx, ?_⟩⟩
    rintro rfl
    exact not_live_of_deleted hn hlast.2 hx
  · refine ⟨_, Runs.bind (Runs.read hn) (Runs.of_neg hpos (Runs.bind (Runs.write _ _ _)
      (Runs.of_neg hlast (Runs.pure _ _)))),
      Ledger.put [] hl hn hbal hknown howed (fun hd => ⟨(hl.deleted h n hn hd).1, fun h0 => ?_⟩)
        (fun hf => absurd hf hout) (Or.inl rfl), ?_⟩
    · exact absurd ⟨by change n.refs - 1 = 0 at h0; omega, hd⟩ hlast
    · exact ⟨size_put _ _ _, hblock, fun k => live_put _ hn rfl, rfl, rfl⟩

/-- All references that are owed for some memos are paid. -/
theorem releaseRefs_spec : ∀ {p : NodePool} (memos : List Memo), Ledger p (memos.map (·.child) ++ owed) →
    ∃ p', Runs (releaseRefs memos) p () p' ∧ Ledger p' owed ∧ Pays p p'
  | p, [], hl => ⟨p, Runs.pure _ _, hl, Pays.refl p⟩
  | _, _ :: memos, hl => by
    obtain ⟨p₁, hrun, hl₁, hpays⟩ := releaseRef_spec hl
    obtain ⟨p₂, hrun', hl₂, hpays'⟩ := releaseRefs_spec memos hl₁
    exact ⟨p₂, Runs.bind hrun hrun', hl₂, hpays.trans hpays'⟩

/-! ### Emptying a ring -/

/-- The ring of `h` is emptied; with `gone`, the node is taken out of use. -/
structure Sheds (p p' : NodePool) (h : Handle) (gone : Bool) : Prop where
  size : p'.blocks.size = p.blocks.size
  block : ∀ k n, p.block k = .ok n → ∃ refs, p'.block k =
    .ok ⟨n.words, refs, n.deleted || (gone && decide (k = h)), if k = h then Ring.empty else n.ring⟩
  live : ∀ k, p'.Live k ↔ p.Live k ∧ (gone = true → k ≠ h)
  blockWords : p'.blockWords = p.blockWords
  limit : p'.limit = p.limit

theorem dropMemos_spec (hl : Ledger p []) (hn : p.block h = .ok n) :
    ∃ p', Runs (dropMemos h) p n.ring.memos.length p' ∧ Ledger p' [] ∧ Sheds p p' h false := by
  -- once the ring is empty, the references of its memos are owed
  have hput : Ledger (p.put h { n with ring := Ring.empty }) (n.ring.memos.map (·.child) ++ []) := by
    refine Ledger.put [] hl hn (fun k => ?_) (fun m hm => ?_) (fun k hk => ?_)
      (fun hd => ⟨Ring.memos_empty, (hl.deleted h n hn hd).2⟩) (fun hf => ⟨?_, Ring.memos_empty⟩) (Or.inl rfl)
    · rw [List.append_nil, Ring.count_children, Ring.count_eq_zero Ring.memos_empty]
      simp
    · rw [Ring.memos_empty] at hm
      cases hm
    · rw [List.append_nil] at hk
      obtain ⟨m, hm, rfl⟩ := List.mem_map.mp hk
      exact hl.known h n hn m hm
    · by_contra hne
      exact hl.not_free hn hne hf
  obtain ⟨p', hrun, hl', hpays⟩ := releaseRefs_spec n.ring.memos hput
  refine ⟨p', Runs.bind (Runs.read hn) (Runs.bind (Runs.write _ _ _) (Runs.bind hrun (Runs.pure _ _))), hl', ?_⟩
  refine ⟨hpays.size.trans (size_put _ _ _), fun k x hx => ?_, fun k => ?_, hpays.blockWords, hpays.limit⟩
  · have hblock : (p.put h { n with ring := Ring.empty }).block k =
        if k = h then .ok { n with ring := Ring.empty } else p.block k := block_put hn
    by_cases hk : k = h
    · rw [if_pos hk] at hblock
      rw [hk, hn] at hx
      cases hx
      simpa [hk] using hpays.block k _ hblock
    · rw [if_neg hk, hx] at hblock
      simpa [hk] using hpays.block k x hblock
  · rw [hpays.live, live_put { n with ring := Ring.empty } hn rfl]
    simp

theorem invalidate_spec (hl : Ledger p []) (hn : p.block h = .ok n) :
    ∃ p', Runs (invalidate h) p () p' ∧ Ledger p' [] ∧ Sheds p p' h false := by
  obtain ⟨p', hrun, hl', hsheds⟩ := dropMemos_spec hl hn
  refine ⟨p', Runs.bind hrun ?_, hl', hsheds⟩
  by_cases h0 : n.ring.memos.length > 0
  · exact Runs.of_pos h0 (Runs.report _ _)
  · exact Runs.of_neg h0 (Runs.pure _ _)

/-- Unlinking a node. It goes back at once unless it is named. -/
theorem unlink_spec (hl : Ledger p []) (hh : p.Live h) :
    ∃ p' back, Runs (unlink h) p back p' ∧ Ledger p' [] ∧ Sheds p p' h true := by
  obtain ⟨n, hn, hd, -⟩ := id hh
  obtain ⟨p₁, hrun, hl₁, hsheds⟩ := dropMemos_spec hl hn
  obtain ⟨refs, hn₁⟩ := hsheds.block h n hn
  rw [if_pos rfl, Bool.false_and, Bool.or_false] at hn₁
  have hlive₁ : p₁.Live h := (hsheds.live h).mpr ⟨hh, fun hf => Bool.noConfusion hf⟩
  have hout : h ∉ p₁.free := by
    obtain ⟨-, -, -, hf⟩ := hlive₁
    exact hf
  have hmark : (p₁.put h ⟨n.words, refs, true, Ring.empty⟩).block h = .ok ⟨n.words, refs, true, Ring.empty⟩ :=
    block_put_self hn₁
  have hblock : ∀ k x, p.block k = .ok x → ∃ refs', (p₁.put h ⟨n.words, refs, true, Ring.empty⟩).block k =
      .ok ⟨x.words, refs', x.deleted || (true && decide (k = h)), if k = h then Ring.empty else x.ring⟩ :=
    fun k x hx => by
      by_cases hk : k = h
      · rw [hk, hn] at hx
        cases hx
        exact ⟨refs, by rw [hk, hmark]; simp⟩
      · obtain ⟨refs', hx'⟩ := hsheds.block k x hx
        exact ⟨refs', by rw [block_put_ne hk, hx']; simp [hk]⟩
  have hlive : ∀ k, (p₁.put h ⟨n.words, refs, true, Ring.empty⟩).Live k ↔ p.Live k ∧ (true = true → k ≠ h) :=
    fun k => by
      rw [live_put_deleted _ hn₁ rfl, hsheds.live]
      simp
  -- `gone` is `[h]` if the node goes back at once, and empty if memos name it still
  have hback : ∀ gone : List Handle, (refs = 0 → h ∈ gone ++ p₁.free) → (h ∈ gone → refs = 0) →
    (gone = [] ∨ gone = [h]) → Ledger { p₁.put h ⟨n.words, refs, true, Ring.empty⟩ with
        free := gone ++ p₁.free, released := p₁.released + gone.length } [] := fun gone hback hgone hcase =>
    Ledger.put gone hl₁ hn₁ (fun _ => rfl) (fun m hm => by rw [Ring.memos_empty] at hm; cases hm)
      (fun k hk => by cases hk) (fun _ => ⟨Ring.memos_empty, hback⟩)
      (fun hf => ⟨hgone ((List.mem_append.mp hf).resolve_right hout), Ring.memos_empty⟩)
      (hcase.imp id fun hg => ⟨hg, hout⟩)
  by_cases h0 : refs = 0
  · refine ⟨_, true, Runs.bind hrun (Runs.bind (Runs.update hn₁ rfl) (Runs.bind (Runs.read hmark)
      (Runs.of_pos h0 (Runs.bind (runs_release hout) (Runs.pure _ _))))),
      hback [h] (fun _ => by simp) (fun _ => h0) (Or.inr rfl), ?_⟩
    refine ⟨(size_put _ _ _).trans hsheds.size, hblock, fun k => ?_, hsheds.blockWords, hsheds.limit⟩
    rw [live_back, hlive]
    simp
  · exact ⟨_, false, Runs.bind hrun (Runs.bind (Runs.update hn₁ rfl) (Runs.bind (Runs.read hmark)
      (Runs.of_neg h0 (Runs.bind (Runs.report _ _) (Runs.pure _ _))))),
      hback [] (fun hr => absurd hr h0) (fun hf => by cases hf) (Or.inl rfl),
      (size_put _ _ _).trans hsheds.size, hblock, hlive, hsheds.blockWords, hsheds.limit⟩

/-! ### Handing nodes out -/

/-- The node `h`, new or returned before, is handed out with every slot empty. -/
structure Hands (p p' : NodePool) (h : Handle) : Prop where
  clean : p'.block h = .ok ⟨Array.replicate (p.blockWords - reservedWords) 0, 0, false, Ring.empty⟩
  other : ∀ k, k ≠ h → p'.block k = p.block k
  unused : ¬p.Live h
  live : ∀ k, p'.Live k ↔ p.Live k ∨ k = h
  unnamed : ∀ k n, p.block k = .ok n → ∀ m ∈ n.ring.memos, m.child ≠ h
  size : p.blocks.size ≤ p'.blocks.size
  out : p'.out = p.out + 1
  blockWords : p'.blockWords = p.blockWords
  limit : p'.limit = p.limit

/-- Why no block can be handed out: the limit is reached, or every handle is in use. -/
def Exhausted (p : NodePool) (inUse : Nat) : Prop :=
  inUse = p.out ∧ ((∃ limit, p.limit = some limit ∧ limit ≤ inUse) ∨ inUse = 2 ^ 32 - 1)

/-- The ledger of a pool whose last returned node is renewed. -/
theorem ledger_renew (hl : Ledger p []) {rest : List Handle} (hfree : p.free = h :: rest) (hn : p.block h = .ok n)
    (words : Array Word) (peak : Nat) :
    Ledger
      { p.put h ⟨words, 0, false, Ring.empty⟩ with free := rest, allocated := p.allocated + 1, peak := peak } [] := by
  have hrest : ∀ k, k ∈ p.free ↔ k = h ∨ k ∈ rest := fun k => by rw [hfree, List.mem_cons]
  obtain ⟨x, hx, hrefs, hring⟩ := hl.free h ((hrest h).mpr (Or.inl rfl))
  rw [hn] at hx
  cases hx
  have hnodup := hl.nodup
  have hcounts := hl.counts
  have hle := hl.free_le
  rw [hfree] at hnodup hcounts hle
  rw [List.length_cons] at hcounts hle
  have hput : Ledger (p.put h ⟨words, 0, false, Ring.empty⟩) [] := by
    refine Ledger.put [] hl hn (fun k => ?_) (fun m hm => ?_) (fun k hk => by cases hk) (fun hd => by cases hd)
      (fun _ => ⟨rfl, Ring.memos_empty⟩) (Or.inl rfl)
    · rw [Ring.count_eq_zero Ring.memos_empty, Ring.count_eq_zero hring, hrefs]
    · rw [Ring.memos_empty] at hm
      cases hm
  refine ⟨hput.refs, hput.known, hput.debtor, (List.nodup_cons.mp hnodup).2,
    fun k hk => hput.free k ((hrest k).mpr (Or.inr hk)), fun k x hx hd =>
      ⟨(hput.deleted k x hx hd).1, fun h0 => ?_⟩, ?_,
    hput.small⟩
  · rcases (hrest k).mp ((hput.deleted k x hx hd).2 h0) with rfl | hk
    · change (p.put k _).block k = .ok x at hx
      rw [block_put_self hn] at hx
      cases hx
      cases hd
    · exact hk
  · change p.allocated + 1 + rest.length = p.released + (p.put h _).blocks.size
    rw [size_put]
    omega

/-- A renewed node is in use. -/
theorem live_renew {rest : List Handle} (hfree : p.free = h :: rest) (hnot : h ∉ rest) (hn : p.block h = .ok n)
    (words : Array Word) :
    ({ p.put h ⟨words, 0, false, Ring.empty⟩ with free := rest } : NodePool).Live k ↔ p.Live k ∨ k = h := by
  by_cases hk : k = h
  · subst hk
    exact ⟨fun _ => Or.inr rfl, fun _ => ⟨_, block_put_self hn, rfl, hnot⟩⟩
  · have hrest : k ∈ p.free ↔ k ∈ rest := by rw [hfree, List.mem_cons, or_iff_right hk]
    have hblock : (p.put h ⟨words, 0, false, Ring.empty⟩).block k = p.block k := block_put_ne hk
    constructor
    · rintro ⟨x, hx, hd, hf⟩
      exact Or.inl ⟨x, hblock ▸ hx, hd, fun hm => hf (hrest.mp hm)⟩
    · rintro (⟨x, hx, hd, hf⟩ | hkh)
      · exact ⟨x, hblock.trans hx, hd, fun hm => hf (hrest.mpr hm)⟩
      · exact absurd hkh hk

/-- A node that was returned is handed out. -/
theorem hands_free (hl : Ledger p []) (hsize : ∀ k n, p.block k = .ok n → n.words.size = p.blockWords - reservedWords)
    {rest : List Handle} (hfree : p.free = h :: rest) (hn : p.block h = .ok n) (peak : Nat) :
    Hands p { p.put h ⟨Array.replicate n.words.size 0, 0, false, Ring.empty⟩ with
      free := rest, allocated := p.allocated + 1, peak := peak } h where
  clean := by
    rw [← hsize h n hn]
    exact block_put_self hn
  other k hk := block_put_ne hk
  unused := not_live_of_free (hfree ▸ List.mem_cons_self)
  live k := live_renew hfree (List.nodup_cons.mp (hfree ▸ hl.nodup)).1 hn _
  unnamed k x hx m hm hm' := by
    obtain ⟨y, hy, hrefs, -⟩ := hl.free h (hfree ▸ List.mem_cons_self)
    have hzero := hl.named_eq_zero hy hrefs
    have hle := count_le_named hx h
    have := Ring.count_pos.mpr ⟨m, hm, hm'⟩
    omega
  size := Nat.le_of_eq (size_put _ _ _).symm
  out := by
    have hle := hl.free_le
    rw [hfree, List.length_cons] at hle
    change (p.put h _).blocks.size - rest.length = p.blocks.size - p.free.length + 1
    rw [size_put, hfree, List.length_cons]
    omega
  blockWords := rfl
  limit := rfl

theorem unnamed_of_none (hl : Ledger p []) (hnone : ∀ x, p.block h ≠ .ok x) :
    ∀ k n, p.block k = .ok n → ∀ m ∈ n.ring.memos, m.child ≠ h := by
  rintro k n hn m hm rfl
  obtain ⟨x, hx⟩ := hl.known k n hn m hm
  exact hnone x hx

/-- The ledger of a pool that has one more node, without memos. -/
theorem ledger_push (hl : Ledger p []) (hfree : p.free = []) (hh : h.index = p.blocks.size) (hring : n.ring.memos = [])
    (hrefs : n.refs = 0) (hdel : n.deleted = false) (peak : Nat) :
    Ledger { p with blocks := p.blocks.push n, allocated := p.allocated + 1, peak := peak } [] where
  refs k x hx := by
    -- no memo can name a handle for which there was no block
    have hunnamed := unnamed_of_none hl fun x hx => Nat.ne_of_lt (index_lt hx) hh
    change x.refs = ({ p with blocks := p.blocks.push n } : NodePool).named k + _
    rw [named_push, Ring.count_eq_zero hring]
    rcases (block_push hh).mp hx with ⟨rfl, rfl⟩ | hx
    · rw [hrefs, named_eq_zero hl.small hunnamed, List.count_nil]
    · exact hl.refs k x hx
  known k x hx m hm := by
    rcases (block_push hh).mp hx with ⟨-, rfl⟩ | hx
    · rw [hring] at hm
      cases hm
    · obtain ⟨y, hy⟩ := hl.known k x hx m hm
      exact ⟨y, (block_push hh).mpr (Or.inr hy)⟩
  debtor k hk := absurd hk List.not_mem_nil
  nodup := hl.nodup
  free k hk := by
    change k ∈ p.free at hk
    rw [hfree] at hk
    cases hk
  deleted k x hx hd := by
    rcases (block_push hh).mp hx with ⟨-, rfl⟩ | hx
    · rw [hdel] at hd
      cases hd
    · exact hl.deleted k x hx hd
  counts := by
    have hcounts := hl.counts
    change p.allocated + 1 + p.free.length = p.released + (p.blocks.push n).size
    rw [Array.size_push]
    omega
  small := by
    have := h.small
    change (p.blocks.push n).size < 2 ^ 32
    rw [Array.size_push]
    omega

/-- A new node is in use. -/
theorem live_push (hfree : p.free = []) (hh : h.index = p.blocks.size) (hdel : n.deleted = false) :
    ({ p with blocks := p.blocks.push n } : NodePool).Live k ↔ p.Live k ∨ k = h := by
  constructor
  · rintro ⟨x, hx, hd, hf⟩
    rcases (block_push hh).mp hx with ⟨hk, -⟩ | hx
    · exact Or.inr hk
    · exact Or.inl ⟨x, hx, hd, hf⟩
  · rintro (⟨x, hx, hd, hf⟩ | hk)
    · exact ⟨x, (block_push hh).mpr (Or.inr hx), hd, hf⟩
    · refine ⟨n, (block_push hh).mpr (Or.inl ⟨hk, rfl⟩), hdel, ?_⟩
      change k ∉ p.free
      rw [hfree]
      exact List.not_mem_nil

/-- A new node is handed out. -/
theorem hands_push (hl : Ledger p []) (hfree : p.free = []) (hh : h.index = p.blocks.size) (peak : Nat) :
    Hands p { p with
      blocks := p.blocks.push ⟨Array.replicate (p.blockWords - reservedWords) 0, 0, false, Ring.empty⟩
      allocated := p.allocated + 1
      peak := peak } h where
  clean := block_push_self hh
  other k hk := block_push_ne fun hi => hk (Handle.index_inj (hi.trans hh.symm))
  unused := by
    rintro ⟨x, hx, -⟩
    exact Nat.ne_of_lt (index_lt hx) hh
  live k := live_push hfree hh rfl
  unnamed := unnamed_of_none hl fun x hx => Nat.ne_of_lt (index_lt hx) hh
  size := by
    change p.blocks.size ≤ (p.blocks.push _).size
    rw [Array.size_push]
    exact Nat.le_succ _
  out := by
    change (p.blocks.push _).size - p.free.length = p.blocks.size - p.free.length + 1
    rw [Array.size_push, hfree]
    rfl
  blockWords := rfl
  limit := rfl

theorem exhausted_of_atLimit (h : p.atLimit p.out = true) : Exhausted p p.out := by
  unfold Pool.atLimit at h
  split at h
  · rename_i limit hlimit
    exact ⟨rfl, Or.inl ⟨limit, hlimit, of_decide_eq_true h⟩⟩
  · cases h

theorem exhausted_of_ofIndex? (hl : Ledger p []) (hfree : p.free = []) (h : Handle.ofIndex? p.blocks.size = none) :
    Exhausted p p.out := by
  have hsmall := hl.small
  unfold Handle.ofIndex? at h
  split at h
  · cases h
  · refine ⟨rfl, Or.inr ?_⟩
    rw [Pool.out, hfree, List.length_nil]
    omega

/-- A block is handed out unless the pool is exhausted. -/
theorem allocate_spec (hl : Ledger p []) (hfits : 8 * (p.blockWords - reservedWords) ≤ addressable)
    (hsize : ∀ k n, p.block k = .ok n → n.words.size = p.blockWords - reservedWords) :
    (∃ inUse, Runs Pool.allocate p (.error (.outOfMemory inUse)) p ∧ Exhausted p inUse) ∨
      ∃ h p', Runs Pool.allocate p (.ok h) p' ∧ Ledger p' [] ∧ Hands p p' h := by
  have hout := hl.outstanding_eq
  by_cases hlimit : p.atLimit p.out = true
  · exact Or.inl ⟨p.out, (Allocates.exhausted hlimit).runs hout, exhausted_of_atLimit hlimit⟩
  rw [Bool.not_eq_true] at hlimit
  rcases hfree : p.free with _ | ⟨h, rest⟩
  · cases hindex : Handle.ofIndex? p.blocks.size with
    | none =>
      exact Or.inl ⟨p.out, (Allocates.unnumbered hlimit hfree hindex).runs hout, exhausted_of_ofIndex? hl hfree hindex⟩
    | some h =>
      have hh := Handle.index_of_ofIndex? hindex
      exact Or.inr ⟨h, _, (Allocates.made hlimit hfree hindex (Node.fresh_eq hfits)).runs hout,
        ledger_push hl hfree hh Ring.memos_empty rfl rfl _, hands_push hl hfree hh (max p.peak (p.out + 1))⟩
  · obtain ⟨n, hn, hrefs, -⟩ := hl.free h (by rw [hfree]; exact List.mem_cons_self)
    have hrenew : (Block.renew n : Except Fault Node) = .ok ⟨Array.replicate n.words.size 0, 0, false, Ring.empty⟩ := by
      change Node.renew n = _
      rw [Node.renew, if_pos hrefs]
    exact Or.inr ⟨h, _, (Allocates.recycled hlimit hfree hn hrenew).runs hout,
      ledger_renew hl hfree hn _ _, hands_free hl hsize hfree hn (max p.peak (p.out + 1))⟩

/-- Where a node has more words than can be had in one piece, no node is ever made. -/
theorem allocate_large (hl : Ledger p []) (hlarge : ¬8 * (p.blockWords - reservedWords) ≤ addressable)
    (h0 : p.blocks.size = 0) :
    Runs Pool.allocate p (.error (.outOfMemory 0)) p ∧ p.limit = some 0 ∨ Faults Pool.allocate p .tooLarge := by
  have hfree : p.free = [] := by
    have := hl.free_le
    exact List.length_eq_zero_iff.mp (by omega)
  have hout : p.outstanding = .ok 0 := by rw [hl.outstanding_eq, Pool.out, h0, Nat.zero_sub]
  by_cases hlimit : p.atLimit 0 = true
  · refine Or.inl ⟨(Allocates.exhausted hlimit).runs hout, ?_⟩
    unfold Pool.atLimit at hlimit
    split at hlimit
    · rename_i limit hp
      rw [hp, Nat.le_zero.mp (of_decide_eq_true hlimit)]
    · cases hlimit
  · have hfresh : (Block.fresh p.blockWords : Except Fault Node) = .error .tooLarge := Node.fresh_eq_tooLarge hlarge
    refine Or.inr (Faults.bind (Runs.get _) (Faults.bind (Runs.lift hout _) (Faults.bind (Runs.get _)
      (Faults.of_neg hlimit (Faults.bind (Runs.get _) ?_)))))
    rw [hfree]
    refine Faults.bind (Runs.get _) ?_
    rw [h0]
    exact Faults.bind (Runs.get _) (Faults.bind_left _ (Faults.lift hfresh _))

/-! ### Giving a node back that was never linked, and writing a node's words -/

/-- A node that no memo names, without memos, is given back. -/
theorem release_spec (hl : Ledger p []) (hn : p.block h = .ok n) (hout : h ∉ p.free) (hrefs : n.refs = 0)
    (hring : n.ring.memos = []) :
    Ledger { p with free := h :: p.free, released := p.released + 1 } [] where
  refs := hl.refs
  known := hl.known
  debtor := hl.debtor
  nodup := List.nodup_cons.mpr ⟨hout, hl.nodup⟩
  free k hk := by
    rcases List.mem_cons.mp hk with rfl | hk
    · exact ⟨n, hn, hrefs, hring⟩
    · exact hl.free k hk
  deleted k x hx hd := ⟨(hl.deleted k x hx hd).1, fun h0 => List.mem_cons_of_mem h ((hl.deleted k x hx hd).2 h0)⟩
  counts := by
    have := hl.counts
    change p.allocated + (p.free.length + 1) = p.released + 1 + p.blocks.size
    omega
  small := hl.small

/-- The ledger does not depend on the words of the nodes. -/
theorem ledger_put_words (hl : Ledger p owed) (hn : p.block h = .ok n) (words : Array Word) :
    Ledger (p.put h { n with words := words }) owed :=
  Ledger.put [] hl hn (fun _ => rfl) (hl.known h n hn) hl.debtor (hl.deleted h n hn) (fun hf => by
    obtain ⟨x, hx, h0, hm⟩ := hl.free h hf
    rw [hn] at hx
    cases hx
    exact ⟨h0, hm⟩) (Or.inl rfl)

end NodePool
end MemoTree
