import MemoTree.Proofs.Outcomes

/-! # Handing out and taking back

All that handing out a block can do to a pool, whatever kind of block it has (`Allocates`): nothing if as many blocks
are out as may be or no handle is left, else the block that came back last is renewed, and a new one is made only if
there is none to renew. -/

namespace MemoTree

theorem Handle.index_of_ofIndex? {i : Nat} {h : Handle} (hi : Handle.ofIndex? i = some h) : h.index = i := by
  unfold Handle.ofIndex? at hi
  split at hi
  · cases hi
    rfl
  · cases hi

namespace Pool

theorem runs_release {β : Type} {p : Pool β} {h : Handle} (hf : h ∉ p.free) :
    Runs (release h) p () { p with free := h :: p.free, released := p.released + 1 } :=
  Runs.bind (Runs.get _) (Runs.of_neg (by simpa using hf) (Runs.modify _ _))

theorem release_of_ends {β : Type} {p p' : Pool β} {h : Handle} {u : Unit} (he : Ends (release h) p u p') :
    p' = { p with free := h :: p.free, released := p.released + 1 } := by
  have he₁ := he.bind_get
  split at he₁
  · obtain ⟨_, _, hthrow, -⟩ := he₁.bind
    exact absurd hthrow Ends.throw
  · exact he₁.modify

section
variable {β : Type} [Block β] {p p' : Pool β} {answer : Except Error Handle} {out : Nat}

/-- What an allocation comes to while `out` blocks are out. -/
inductive Allocates (p : Pool β) (out : Nat) : Except Error Handle → Pool β → Prop
  | exhausted : p.atLimit out = true → Allocates p out (.error (.outOfMemory out)) p
  | unnumbered : p.atLimit out = false → p.free = [] → Handle.ofIndex? p.blocks.size = none →
      Allocates p out (.error (.outOfMemory out)) p
  | recycled {h rest b b'} : p.atLimit out = false → p.free = h :: rest → p.block h = .ok b → Block.renew b = .ok b' →
      Allocates p out (.ok h) (({ p.put h b' with free := rest } : Pool β).countOut out)
  | made {h b} : p.atLimit out = false → p.free = [] → Handle.ofIndex? p.blocks.size = some h →
      Block.fresh p.blockWords = .ok b →
      Allocates p out (.ok h) (({ p with blocks := p.blocks.push b } : Pool β).countOut out)

theorem Allocates.runs (h : Allocates p out answer p') (hout : p.outstanding = .ok out) :
    Runs allocate p answer p' := by
  refine Runs.bind (Runs.get _) (Runs.bind (Runs.lift hout p) (Runs.bind (Runs.get _) ?_))
  cases h with
  | exhausted hlimit => exact Runs.of_pos hlimit (Runs.bind (Runs.report _ _) (Runs.pure _ _))
  | unnumbered hlimit hfree hindex =>
    refine Runs.of_neg (by rw [hlimit]; exact Bool.false_ne_true) (Runs.bind (Runs.get _) ?_)
    rw [hfree]
    refine Runs.bind (Runs.get _) ?_
    rw [hindex]
    exact Runs.pure _ _
  | recycled hlimit hfree hb hb' =>
    refine Runs.of_neg (by rw [hlimit]; exact Bool.false_ne_true) (Runs.bind (Runs.get _) ?_)
    rw [hfree]
    exact Runs.bind (Runs.get _) (Runs.bind (Runs.lift hb _) (Runs.bind (Runs.lift hb' _)
      (Runs.bind (Runs.modify _ _) (Runs.bind (Runs.modify _ _) (Runs.pure _ _)))))
  | made hlimit hfree hindex hb =>
    refine Runs.of_neg (by rw [hlimit]; exact Bool.false_ne_true) (Runs.bind (Runs.get _) ?_)
    -- the pool that is left has the same free list, so it cannot be rewritten with `hfree`
    split
    · rename_i hcons
      rw [hfree] at hcons
      cases hcons
    · refine Runs.bind (Runs.get _) ?_
      rw [hindex]
      exact Runs.bind (Runs.get _) (Runs.bind (Runs.lift hb _) (Runs.bind (Runs.modify _ _)
        (Runs.bind (Runs.modify _ _) (Runs.pure _ _))))

/-- Nothing else can come of an allocation. -/
theorem allocates_of_ends (he : Ends allocate p answer p') (hout : p.outstanding = .ok out) :
    Allocates p out answer p' := by
  -- the cases are the branches of the allocation, in the order in which it takes them
  have he₁ := he.bind_get
  obtain ⟨_, hout', he₂⟩ := he₁.bind_lift
  rw [hout] at hout'
  cases hout'
  have he₃ := he₂.bind_get
  split at he₃
  · rename_i hlimit
    obtain ⟨_, _, hemit, he₄⟩ := he₃.bind
    obtain rfl := hemit.report
    obtain ⟨rfl, rfl⟩ := he₄.pure
    exact .exhausted hlimit
  rename_i hlimit
  rw [Bool.not_eq_true] at hlimit
  have he₄ := he₃.bind_get
  split at he₄
  · rename_i hfree
    have he₅ := he₄.bind_get
    obtain ⟨_, hb, he₆⟩ := he₅.bind_lift
    obtain ⟨_, hb', he₇⟩ := he₆.bind_lift
    obtain ⟨_, _, hput, he₈⟩ := he₇.bind
    obtain rfl := hput.modify
    obtain ⟨_, _, hcount, he₉⟩ := he₈.bind
    obtain rfl := hcount.modify
    obtain ⟨rfl, rfl⟩ := he₉.pure
    exact .recycled hlimit hfree hb hb'
  · rename_i hfree
    have he₅ := he₄.bind_get
    split at he₅
    · rename_i hindex
      obtain ⟨rfl, rfl⟩ := he₅.pure
      exact .unnumbered hlimit hfree hindex
    · rename_i hindex
      have he₆ := he₅.bind_get
      obtain ⟨_, hb, he₇⟩ := he₆.bind_lift
      obtain ⟨_, _, hpush, he₈⟩ := he₇.bind
      obtain rfl := hpush.modify
      obtain ⟨_, _, hcount, he₉⟩ := he₈.bind
      obtain rfl := hcount.modify
      obtain ⟨rfl, rfl⟩ := he₉.pure
      exact .made hlimit hfree hindex hb

end
end Pool
end MemoTree
