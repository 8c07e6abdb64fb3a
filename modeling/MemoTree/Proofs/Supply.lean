import MemoTree.Proofs.Outcomes
import MemoTree.Proofs.Stock

/-! # The supply of handles

A pool hands out the handles of its free list, the last one that came back first, and then those of new blocks
(`Pool.supply`). Handing a block out takes the first handle of the supply, and taking it back puts it in front again.
So a pool from which blocks were borrowed and to which they were given back in the opposite order has the same supply,
though some of its blocks may be new (`Repaid`). -/

namespace MemoTree
open Pool NodePool

namespace Pool
variable {β : Type} {p p' : Pool β} {h k : Handle} {i : Nat}

/-- The handle that the allocation after `i` others takes, as far as there are handles. -/
def supply (p : Pool β) (i : Nat) : Option Handle :=
  match p.free[i]? with
  | some h => some h
  | none => Handle.ofIndex? (p.blocks.size + (i - p.free.length))

theorem supply_of_free (hi : p.free[i]? = some h) : p.supply i = some h := by rw [supply, hi]

theorem supply_of_le (hi : p.free.length ≤ i) : p.supply i = Handle.ofIndex? (p.blocks.size + (i - p.free.length)) := by
  rw [supply, List.getElem?_eq_none hi]

theorem supply_congr (hfree : p'.free = p.free) (hsize : p'.blocks.size = p.blocks.size) : p'.supply = p.supply := by
  funext i
  rw [supply, supply, hfree, hsize]

theorem supply_cons (hfree : p'.free = h :: p.free) (hsize : p'.blocks.size = p.blocks.size) :
    p'.supply 0 = some h ∧ ∀ i, p'.supply (i + 1) = p.supply i := by
  refine ⟨supply_of_free (by rw [hfree]; rfl), fun i => ?_⟩
  rw [supply, supply, hfree, List.getElem?_cons_succ, hsize, List.length_cons, Nat.add_sub_add_right]

/-- A new block is made for the first handle behind an empty free list. -/
theorem supply_push (hfree : p.free = []) (hfree' : p'.free = []) (hsize : p'.blocks.size = p.blocks.size + 1) :
    p'.supply i = p.supply (i + 1) := by
  rw [supply_of_le (by rw [hfree']; exact Nat.zero_le _), supply_of_le (by rw [hfree]; exact Nat.zero_le _),
    hfree, hfree', hsize]
  simp only [List.length_nil, Nat.sub_zero, Nat.add_assoc, Nat.add_comm 1]

/-- The answers of `n` allocations, one after the other. -/
def allocations [Block β] : (n : Nat) → PoolM β (List (Except Error Handle))
  | 0 => return []
  | n + 1 => do
    let answer ← allocate
    return answer :: (← allocations n)

end Pool

/-- The handle `h` was taken from the supply of `p`, and `p'` is left. -/
structure Lends (p : NodePool) (h : Handle) (p' : NodePool) : Prop where
  first : p.supply 0 = some h
  supply : ∀ i, p'.supply i = p.supply (i + 1)
  limit : p'.limit = p.limit
  allocated : p'.allocated = p.allocated + 1
  released : p'.released = p.released
  other : ∀ k, k ≠ h → p'.block k = p.block k
  free : ∀ k, k ∈ p'.free ↔ k ∈ p.free ∧ k ≠ h
  unused : ∀ n, p.block h = .ok n → h ∈ p.free

namespace Lends
variable {p p' : NodePool} {h : Handle}

/-- A block that came back is handed out again. -/
theorem of_free {rest : List Handle} (hfree : p.free = h :: rest) (hn : p.free.Nodup)
    (hblock : ∀ k, k ≠ h → p'.block k = p.block k)
    (hsize : p'.blocks.size = p.blocks.size) (hfree' : p'.free = rest) (hlimit : p'.limit = p.limit)
    (hallocated : p'.allocated = p.allocated + 1) (hreleased : p'.released = p.released) : Lends p h p' := by
  obtain ⟨hnot, -⟩ := List.nodup_cons.mp (hfree ▸ hn)
  have hsupply := supply_cons (hfree.trans (by rw [hfree'])) hsize.symm
  refine ⟨hsupply.1, fun i => (hsupply.2 i).symm, hlimit, hallocated, hreleased, hblock, fun k => ?_, fun _ _ => ?_⟩
  · rw [hfree, hfree', List.mem_cons]
    refine ⟨fun hk => ⟨Or.inr hk, ?_⟩, fun ⟨hk, hne⟩ => hk.resolve_left hne⟩
    rintro rfl
    exact hnot hk
  · rw [hfree]
    exact List.mem_cons_self

/-- A new block is made and handed out. -/
theorem of_push {b : Node} (hfree : p.free = []) (hindex : Handle.ofIndex? p.blocks.size = some h)
    {out : Nat} (hp' : p' = ({ p with blocks := p.blocks.push b } : NodePool).countOut out) : Lends p h p' := by
  have hh := Handle.index_of_ofIndex? hindex
  subst hp'
  refine ⟨?_, fun i => supply_push hfree hfree (Array.size_push _), rfl, rfl, rfl, fun k hk => ?_,
    fun k => ?_, fun b hb => ?_⟩
  · rw [supply_of_le (by rw [hfree]; exact Nat.zero_le _), hfree]
    exact hindex
  · exact block_push_ne fun hi => hk (Handle.index_inj (hi.trans hh.symm))
  · change k ∈ p.free ↔ _
    rw [hfree]
    exact ⟨fun hk => (by cases hk), fun hk => (by cases hk.1)⟩
  · exact absurd (index_lt hb) (Nat.not_lt.mpr (Nat.le_of_eq hh.symm))

end Lends

/-- What an allocation came to. -/
theorem Ends.allocate {p p' : NodePool} {answer : Except Error Handle} {out : Nat} (he : Ends Pool.allocate p answer p')
    (hn : p.free.Nodup) (hout : p.outstanding = .ok out) :
    (answer = .error (.outOfMemory out) ∧ p' = p ∧ (p.atLimit out = true ∨ p.supply 0 = none)) ∨
      ∃ h, answer = .ok h ∧ p.atLimit out = false ∧ Lends p h p' := by
  cases allocates_of_ends he hout with
  | exhausted hlimit => exact Or.inl ⟨rfl, rfl, Or.inl hlimit⟩
  | unnumbered hlimit hfree hindex =>
    refine Or.inl ⟨rfl, rfl, Or.inr ?_⟩
    rw [supply_of_le (by rw [hfree]; exact Nat.zero_le _), hfree]
    exact hindex
  | @recycled h _ b _ hlimit hfree =>
    exact Or.inr ⟨h, rfl, hlimit, .of_free hfree hn (fun k hk => block_put_ne hk) (size_put _ h _) rfl rfl rfl rfl⟩
  | made hlimit hfree hindex => exact Or.inr ⟨_, rfl, hlimit, .of_push hfree hindex rfl⟩

theorem Stock.lends {g : Geometry} {p p' : NodePool} {c : Rows} {h : Handle} (hs : Stock g p c)
    (hrun : Runs Pool.allocate p (.ok h) p') : Lends p h p' := by
  rcases hrun.ends.allocate hs.ledger.nodup hs.ledger.outstanding_eq with ⟨hne, -⟩ | ⟨_, heq, -, hl⟩
  · cases hne
  · cases heq
    exact hl

/-- After loans and repayments in the opposite order: the same blocks are out, none of them changed, and the supply is
the same. -/
structure Repaid (p p' : NodePool) : Prop where
  limit : p'.limit = p.limit
  counts : ∃ n, p'.allocated = p.allocated + n ∧ p'.released = p.released + n
  kept : ∀ h n, p.block h = .ok n → h ∉ p.free → p'.block h = .ok n ∧ h ∉ p'.free
  old : ∀ h n, p'.block h = .ok n → h ∉ p'.free → (∃ n, p.block h = .ok n) ∧ h ∉ p.free
  supply : ∀ i, p'.supply i = p.supply i

namespace Repaid
variable {p p₁ p₂ p' : NodePool} {h : Handle}

theorem refl (p : NodePool) : Repaid p p :=
  ⟨rfl, ⟨0, rfl, rfl⟩, fun _ _ hn hf => ⟨hn, hf⟩, fun _ n hn hf => ⟨⟨n, hn⟩, hf⟩, fun _ => rfl⟩

/-- A block is lent, others are lent and come back, and it comes back. -/
theorem of_lends (hlends : Lends p h p₁) (hr : Repaid p₁ p₂) :
    Repaid p { p₂ with free := h :: p₂.free, released := p₂.released + 1 } where
  limit := hr.limit.trans hlends.limit
  counts := by
    obtain ⟨n, ha, hre⟩ := hr.counts
    have h₁ := hlends.allocated
    have h₂ := hlends.released
    refine ⟨n + 1, ?_, ?_⟩
    · change p₂.allocated = _
      omega
    · change p₂.released + 1 = _
      omega
  kept k n hk hf := by
    have hne : k ≠ h := by
      rintro rfl
      exact hf (hlends.unused n hk)
    obtain ⟨hk₂, hf₂⟩ := hr.kept k n (by rwa [hlends.other k hne]) fun hin => hf ((hlends.free k).mp hin).1
    refine ⟨hk₂, fun hin => ?_⟩
    rcases List.mem_cons.mp hin with heq | hin
    · exact hne heq
    · exact hf₂ hin
  old k n hk hf := by
    -- a block that is not free at the end is not `h`, which came back last
    obtain ⟨hne, hf₂⟩ := not_or.mp (mt List.mem_cons.mpr hf)
    obtain ⟨⟨n', hk₁⟩, hf₁⟩ := hr.old k n hk hf₂
    rw [hlends.other k hne] at hk₁
    exact ⟨⟨n', hk₁⟩, fun hin => hf₁ ((hlends.free k).mpr ⟨hin, hne⟩)⟩
  supply i := by
    have hcons := supply_cons (p := p₂)
      (show ({ p₂ with free := h :: p₂.free, released := p₂.released + 1 } : NodePool).free = h :: p₂.free from rfl) rfl
    cases i with
    | zero => exact hcons.1.trans hlends.first.symm
    | succ i => exact (hcons.2 i).trans ((hr.supply i).trans (hlends.supply i))

end Repaid

/-- Two pools hand out the same blocks: as many are out, and they have the same limit and the same supply. -/
structure Rivals (p p' : NodePool) : Prop where
  out : p'.out = p.out
  limit : p'.limit = p.limit
  supply : ∀ i, p'.supply i = p.supply i

section Rivals
variable {g : Geometry} {p p' q q' : NodePool} {c c' : Rows} {h : Handle}

theorem Lends.rivals (hl : Lends p h q) (hl' : Lends p' h q') (hr : Rivals p p') (hq : q.out = p.out + 1)
    (hq' : q'.out = p'.out + 1) : Rivals q q' where
  out := by rw [hq, hq', hr.out]
  limit := hl'.limit.trans (hr.limit.trans hl.limit.symm)
  supply i := (hl'.supply i).trans ((hr.supply (i + 1)).trans (hl.supply i).symm)

/-- Whether there is a block to be had, and which one, depends on what rivals have in common. -/
theorem Rivals.allocate (hr : Rivals p p') (hs : Stock g p c) (hs' : Stock g p' c')
    (hfits : 8 * g.slotWords ≤ addressable) :
    (∃ answer, Runs Pool.allocate p (.error answer) p ∧ Runs Pool.allocate p' (.error answer) p') ∨
      ∃ h q q', Runs Pool.allocate p (.ok h) q ∧ Runs Pool.allocate p' (.ok h) q' ∧ Rivals q q' ∧
        Stock g q (Function.update c h []) ∧ Stock g q' (Function.update c' h []) := by
  -- both refuse or both lend, since the limit and the number of blocks that are out are the same
  have hlimit : p'.atLimit p.out = p.atLimit p.out := by rw [atLimit, atLimit, hr.limit]
  have hout := hs.ledger.outstanding_eq
  have hout' := hs'.ledger.outstanding_eq
  rw [hr.out] at hout'
  rcases hs.allocate hfits with ⟨inUse, hrun, -⟩ | ⟨h, q, hrun, hhands, hsq⟩ <;>
    rcases hs'.allocate hfits with ⟨inUse', hrun', -⟩ | ⟨h', q', hrun', hhands', hsq'⟩
  · obtain ⟨heq, -⟩ | ⟨_, hok, -⟩ := hrun.ends.allocate hs.ledger.nodup hout
    · obtain ⟨heq', -⟩ | ⟨_, hok, -⟩ := hrun'.ends.allocate hs'.ledger.nodup hout'
      · rw [heq] at hrun
        rw [heq'] at hrun'
        exact Or.inl ⟨_, hrun, hrun'⟩
      · cases hok
    · cases hok
  · obtain ⟨-, -, hnot⟩ | ⟨_, hok, -⟩ := hrun.ends.allocate hs.ledger.nodup hout
    · obtain ⟨herror, -⟩ | ⟨_, -, hspare, hlends⟩ := hrun'.ends.allocate hs'.ledger.nodup hout'
      · cases herror
      · rw [← hlimit, hspare, ← hr.supply, hlends.first] at hnot
        simp at hnot
    · cases hok
  · obtain ⟨-, -, hnot⟩ | ⟨_, hok, -⟩ := hrun'.ends.allocate hs'.ledger.nodup hout'
    · obtain ⟨herror, -⟩ | ⟨_, -, hspare, hlends⟩ := hrun.ends.allocate hs.ledger.nodup hout
      · cases herror
      · rw [hlimit, hspare, hr.supply, hlends.first] at hnot
        simp at hnot
    · cases hok
  · obtain ⟨herror, -⟩ | ⟨_, hok, -, hlends⟩ := hrun.ends.allocate hs.ledger.nodup hout
    · cases herror
    obtain ⟨herror, -⟩ | ⟨_, hok', -, hlends'⟩ := hrun'.ends.allocate hs'.ledger.nodup hout'
    · cases herror
    cases hok
    cases hok'
    have hh := hlends'.first
    rw [hr.supply, hlends.first, Option.some.injEq] at hh
    subst hh
    exact Or.inr ⟨h, q, q', hrun, hrun', hlends.rivals hlends' hr hhands.out hhands'.out, hsq, hsq'⟩

/-- Rivals answer any number of allocations alike. -/
theorem Rivals.allocations (hr : Rivals p p') (hs : Stock g p c) (hs' : Stock g p' c')
    (hfits : 8 * g.slotWords ≤ addressable)
    (n : Nat) : ∃ answers q q', Runs (Pool.allocations n) p answers q ∧ Runs (Pool.allocations n) p' answers q' := by
  induction n generalizing p p' c c' with
  | zero => exact ⟨[], p, p', Runs.pure _ _, Runs.pure _ _⟩
  | succ n ih =>
    rcases hr.allocate hs hs' hfits with ⟨_, hrun, hrun'⟩ | ⟨h, q, q', hrun, hrun', hrq, hsq, hsq'⟩
    · obtain ⟨answers, q, q', hrest, hrest'⟩ := ih hr hs hs'
      exact ⟨_, q, q', Runs.bind hrun (Runs.bind hrest (Runs.pure _ _)),
        Runs.bind hrun' (Runs.bind hrest' (Runs.pure _ _))⟩
    · obtain ⟨answers, q₁, q₁', hrest, hrest'⟩ := ih hrq hsq hsq'
      exact ⟨_, q₁, q₁', Runs.bind hrun (Runs.bind hrest (Runs.pure _ _)),
        Runs.bind hrun' (Runs.bind hrest' (Runs.pure _ _))⟩

end Rivals
end MemoTree
