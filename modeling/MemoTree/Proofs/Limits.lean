import MemoTree.Proofs.Reachable
import MemoTree.Proofs.Returns

/-! # Limits

The blocks of a reachable tree that are out are never more than its limit allows: only an allocation takes one, and it
looks at the limit first. What a pool can still hand out is what is left up to its ceiling: the limit, or the number of
handles where that is smaller. -/

namespace MemoTree
open Pool

namespace Pool
variable {β : Type}

/-- No more blocks are out than the limit allows. -/
def Moderate (p : Pool β) : Prop := ∀ limit, p.limit = some limit → p.allocated ≤ p.released + limit

/-- The greatest number of blocks that can be out. -/
def ceiling (p : Pool β) : Nat :=
  match p.limit with
  | some limit => min limit (2 ^ 32 - 1)
  | none => 2 ^ 32 - 1

theorem le_ceiling {p : Pool β} {n : Nat} : n ≤ p.ceiling ↔ n < 2 ^ 32 ∧ ∀ limit, p.limit = some limit → n ≤ limit := by
  rw [ceiling, Nat.lt_iff_le_pred (Nat.two_pow_pos 32)]
  cases p.limit with
  | none => simp
  | some limit => simp [and_comm]

theorem ceiling_congr {p p' : Pool β} (h : p'.limit = p.limit) : p'.ceiling = p.ceiling := by rw [ceiling, ceiling, h]

theorem Moderate.regains {p p' : Pool β} {back : List Handle} (hm : p.Moderate) (hr : Regains p p' back) :
    p'.Moderate := by
  intro limit hlimit
  have := hm limit (hr.limit ▸ hlimit)
  rw [hr.allocated, hr.released]
  omega

end Pool

/-- Whatever `m` comes to, no limit of the pool in its state was exceeded if none was before. -/
def Capped {σ α β : Type} (pool : σ → Pool β) (m : StateT σ Journaled α) : Prop :=
  ∀ s j a s' j', m s j = .ok ((a, s'), j') → (pool s).Moderate → (pool s').Moderate

theorem Thrifty.capped {σ α β : Type} {pool : σ → Pool β} {m : StateT σ Journaled α} (h : Thrifty pool m) :
    Capped pool m :=
  fun _ _ _ _ _ hok hm => by
    obtain ⟨⟨_, hback⟩, -⟩ := h _ _ _ _ _ hok
    exact hm.regains hback

namespace Capped

section General
variable {σ α γ β : Type} {pool : σ → Pool β} {m m' : StateT σ Journaled α} {f : α → StateT σ Journaled γ}

theorem bind (hm : Capped pool m) (hf : ∀ a, Capped pool (f a)) : Capped pool (m >>= f) := fun _ _ _ _ _ h hs => by
  obtain ⟨a, _, _, h₁, h₂⟩ := ok_bind h
  exact hf a _ _ _ _ _ h₂ (hm _ _ _ _ _ h₁ hs)

theorem pure (a : α) : Capped pool (pure a) := (Thrifty.pure a).capped

theorem get : Capped pool (MonadStateOf.get : StateT σ Journaled σ) := Thrifty.get.capped

theorem modifies {g : σ → σ} (hg : ∀ s, (pool s).Moderate → (pool (g s)).Moderate) :
    Capped pool (modify g : StateT σ Journaled Unit) := fun _ _ _ _ _ h => by
  cases h
  exact hg _

theorem ite {c : Prop} [Decidable c] (h : c → Capped pool m) (h' : ¬c → Capped pool m') :
    Capped pool (if c then m else m') := by
  split
  · exact h ‹_›
  · exact h' ‹_›

theorem ite_bind {c : Prop} [Decidable c] {m : StateT σ Journaled Unit} {k : Unit → StateT σ Journaled α}
    (hm : c → Capped pool m) (hk : Capped pool (k ())) : Capped pool (if c then m >>= k else k ()) :=
  ite (fun hc => bind (hm hc) fun _ => hk) fun _ => hk

end General

/-- An allocation looks at the limit before it counts a block. -/
theorem allocate : Capped id (Pool.allocate : NodeM (Except Error Handle)) := fun p j a p' j' h hm => by
  have he : Ends Pool.allocate p a p' := ⟨j, j', h⟩
  obtain ⟨out, hout, -⟩ := he.bind_get.bind_lift
  have hcounts (hspare : p.atLimit out = false) :
    Pool.Moderate (({ p with allocated := p.allocated + 1 } : NodePool)) :=
    fun limit hlimit => by
      rw [atLimit, show p.limit = some limit from hlimit, decide_eq_false_iff_not] at hspare
      rw [outstanding] at hout
      split at hout
      · cases hout
        show p.allocated + 1 ≤ p.released + limit
        omega
      · cases hout
  cases allocates_of_ends he hout with
  | exhausted => exact hm
  | unnumbered => exact hm
  | recycled hspare => exact hcounts hspare
  | made hspare => exact hcounts hspare

section Trees
variable {w : Width} {α : Type} (key : Words) (value : Word) (level : Nat)

theorem onNodes {action : NodeM α} (h : Capped id action) : Capped Tree.pool (Tree.onNodes action : TreeM w α) :=
  fun _ _ _ _ _ hok => by
    obtain ⟨x, hm, hok⟩ := Fault.of_bind hok
    cases hok
    exact h _ _ _ _ _ hm

theorem addLevel : Capped Tree.pool (Tree.addLevel : TreeM w (Except Error Unit)) := by
  obtain ⟨rest, heq, hrest⟩ := Thrifty.addLevel (w := w)
  rw [heq]
  exact bind (onNodes allocate) fun answer => (hrest answer).capped

theorem moveHalf (g : Geometry) (node sibling : Handle) (half : Nat) :
    Capped id (Tree.moveHalf g node sibling half level) := fun _ _ _ _ _ h hm => by
  obtain ⟨⟨_, hback⟩, -⟩ := Thrifty.moveHalf g level node sibling half _ _ _ _ _ h
  exact hm.regains hback

theorem split {link : Words → Word → Nat → TreeM w (Except Error Unit)} (hlink : ∀ k v l, Capped Tree.pool (link k v l))
    (node : Handle) : Capped Tree.pool (Tree.split link node level) := by
  refine bind get fun t => bind (onNodes allocate) fun answer => ?_
  cases answer with
  | error => exact pure _
  | ok sibling =>
    refine ite_bind (fun _ => (Thrifty.throw _).capped) ?_
    refine bind (Thrifty.onNodes (.bind (.read node) fun _ => .lift _)).capped fun separator =>
      bind (hlink _ _ _) fun linked => ?_
    cases linked with
    | error => exact bind (Thrifty.onNodes (.release sibling)).capped fun _ => pure _
    | ok => exact bind (onNodes (moveHalf level _ node sibling _)) fun _ => pure _

theorem addAt : ∀ (rungs : Nat) (key : Words) (value : Word) (level : Nat),
    Capped Tree.pool (Tree.addAt rungs key value level : TreeM w (Except Error Unit))
  | 0, _, _, _ => (Thrifty.throw _).capped
  | rungs + 1, key, value, level => by
    refine bind get fun t => ite (fun _ => bind addLevel fun result => ?_) fun _ => ?_
    rcases result with _ | _
    case error => exact pure _
    -- With a new level, and without one, the pair is placed.
    all_goals
      refine bind (Thrifty.tryPlace key level value).capped fun attempt => ?_
      cases attempt with
      | placed => exact pure _
      | taken => exact pure _
      | full node =>
        refine bind (split level (fun k v l => addAt rungs k v l) node) fun result => ?_
        cases result with
        | error => exact pure _
        | ok =>
          refine bind (Thrifty.tryPlace key level value).capped fun attempt => ?_
          cases attempt with
          | placed => exact pure _
          | taken => exact pure _
          | full => exact (Thrifty.throw _).capped

theorem insert (k : Key w) (v : Value) : Capped Tree.pool (Tree.insert k v) := by
  refine bind get fun t => bind (addAt _ _ _ 1) fun result => bind get fun _ =>
    bind (Thrifty.tellTimer _ _).capped fun _ => ?_
  cases result with
  | error => exact pure _
  | ok => exact bind (modifies fun _ => id) fun _ => pure _

end Trees
end Capped

/-! ### Reachable trees -/

section Reachable
variable {w : Width} {t t' v v' : Tree w} {result : Except Error Unit} {j j' : Journal}

/-- Moving entries from one tree to another exceeds the limit of neither. -/
theorem moderate_moveEntries (left : Nat) : ∀ {moved : Nat} {t v : Tree w} {j : Journal},
    Tree.moveEntries left moved t v j = .ok ((result, t', v'), j') → t.pool.Moderate → v.pool.Moderate →
    t'.pool.Moderate ∧ v'.pool.Moderate := by
  induction left using Nat.strong_induction_on with
  | _ left ih =>
    intro moved t v j h ht hv
    rw [Tree.moveEntries] at h
    obtain ⟨⟨found, j₁⟩, -, h⟩ := Fault.of_bind h
    cases found with
    | none =>
      cases h
      exact ⟨ht, hv⟩
    | some e =>
      obtain ⟨⟨⟨inserted, t₁⟩, j₂⟩, hinsert, h⟩ := Fault.of_bind h
      have ht₁ := Capped.insert _ _ _ _ _ _ _ hinsert ht
      cases inserted with
      | error e =>
        cases e <;> (cases h; exact ⟨ht₁, hv⟩)
      | ok =>
        obtain ⟨⟨⟨removed, v₁⟩, j₃⟩, hremove, h⟩ := Fault.of_bind h
        have hv₁ := (Thrifty.remove _).capped _ _ _ _ _ hremove hv
        cases left with
        | zero => cases h
        | succ left => exact ih left (Nat.lt_succ_self left) h ht₁ hv₁

theorem moderate_merge (h : Tree.merge t v j = .ok ((result, t', v'), j')) (ht : t.pool.Moderate)
    (hv : v.pool.Moderate) : t'.pool.Moderate ∧ v'.pool.Moderate := by
  rw [Tree.merge] at h
  split at h
  · cases h
    exact ⟨hv, ht⟩
  · exact moderate_moveEntries _ h ht hv

theorem Tree.Step.moderate (h : Tree.Step t t') (hm : t.pool.Moderate) : t'.pool.Moderate := by
  cases h with
  | insert h => exact Capped.insert _ _ _ _ _ _ _ h hm
  | update h => exact (Thrifty.replace _ _).capped _ _ _ _ _ h hm
  | lookup h => exact (Thrifty.lookup _).capped _ _ _ _ _ h hm
  | remove h => exact (Thrifty.remove _).capped _ _ _ _ _ h hm
  | visit h => exact (Thrifty.visit _).capped _ _ _ _ _ h hm
  | drain h => exact (Thrifty.drain _).capped _ _ _ _ _ h hm
  | hooks => exact hm

theorem Pool.moderate_empty (blockWords : Nat) (limit : Option Nat) :
    (Pool.empty blockWords limit : NodePool).Moderate :=
  fun _ _ => Nat.zero_le _

/-- The limit of a reachable tree is kept. -/
theorem Tree.Reachable.moderate (ht : t.Reachable) : t.pool.Moderate := by
  induction ht with
  | empty => exact moderate_empty _ _
  | ofConfig h =>
    obtain ⟨_, _, -, rfl⟩ := Tree.of_ofConfig h
    exact moderate_empty _ _
  | step _ hs ih => exact hs.moderate ih
  | target _ _ h iht ihv => exact (moderate_merge h iht ihv).1
  | victim _ _ h iht ihv => exact (moderate_merge h iht ihv).2

/-- Not more blocks of a reachable tree are out than can be. -/
theorem Tree.Reachable.out_le_ceiling (ht : t.Reachable) : t.pool.out ≤ t.pool.ceiling := by
  obtain ⟨row, hw⟩ := ht.whole
  have hm := ht.moderate
  have hcounts := hw.ledger.counts
  have hsmall := hw.ledger.small
  have hle := hw.ledger.free_le
  refine le_ceiling.mpr ⟨by rw [out]; omega, fun limit hlimit => ?_⟩
  have := hm limit hlimit
  rw [out]
  omega

end Reachable
end MemoTree
