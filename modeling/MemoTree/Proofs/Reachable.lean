import MemoTree.Proofs.Merging
import MemoTree.Proofs.Outcomes
import MemoTree.Proofs.Recall
import MemoTree.Proofs.Walks

/-! # Reachable trees

A tree is reachable if operations lead to it from trees without entries, made by default or from a configuration, with
whatever geometry, block limit and switch for the memo rings. An operation may succeed or fail. Two trees may be merged;
the one that takes the entries and the one that gives them are reachable afterwards. Ordered reads and the check of a
tree do not change it. Every reachable tree is whole. -/

namespace MemoTree
open Pool NodePool Rows

/-- An operation that ends without a fault leads from `t` to another tree, whatever its result is. -/
inductive Tree.Step {w : Width} (t : Tree w) : Tree w → Prop
  | insert {k v result t' j j'} : Tree.insert k v t j = .ok ((result, t'), j') → Step t t'
  | update {k v result t' j j'} : Tree.update k v t j = .ok ((result, t'), j') → Step t t'
  | lookup {k result t' j j'} : Tree.lookup k t j = .ok ((result, t'), j') → Step t t'
  | remove {k result t' j j'} : Tree.remove k t j = .ok ((result, t'), j') → Step t t'
  | visit {order seen t' j j'} : Tree.visit order t j = .ok ((seen, t'), j') → Step t t'
  | drain {order seen t' j j'} : Tree.drain order t j = .ok ((seen, t'), j') → Step t t'
  | hooks (hooks : Hooks) : Step t { t with hooks := hooks }

/-- Operations lead to the tree. -/
inductive Tree.Reachable {w : Width} : Tree w → Prop
  | empty : Reachable Tree.empty
  | ofConfig {c t} : Tree.ofConfig c = .ok (.ok t) → Reachable t
  | step {t t'} : Reachable t → Tree.Step t t' → Reachable t'
  | target {t v result t' v' j j'} : Reachable t → Reachable v → Tree.merge t v j = .ok ((result, t', v'), j') →
      Reachable t'
  | victim {t v result t' v' j j'} : Reachable t → Reachable v → Tree.merge t v j = .ok ((result, t', v'), j') →
      Reachable v'

section Trees
variable {w : Width} {t t' : Tree w} {row : Row}

/-! ### Trees without entries -/

theorem Pool.block_empty {blockWords : Nat} {limit : Option Nat} {h : Handle} {n : Node} :
    (Pool.empty blockWords limit : NodePool).block h ≠ .ok n := fun hn => absurd (index_lt hn) (Nat.not_lt_zero _)

theorem Pool.Ledger.of_empty (blockWords : Nat) (limit : Option Nat) : Ledger (Pool.empty blockWords limit) [] :=
  ⟨fun _ _ hn => absurd hn block_empty, fun _ _ hn => absurd hn block_empty, fun _ hh => (by cases hh),
    List.nodup_nil, fun _ hh => (by cases hh), fun _ _ hn => absurd hn block_empty, rfl, Nat.two_pow_pos 32⟩

theorem Stock.of_empty (g : Geometry) (limit : Option Nat) (c : Rows) : Stock g (Pool.empty g.blockWords limit) c where
  ledger := .of_empty _ limit
  size _ _ hn := absurd hn block_empty
  blockWords := rfl
  packs _ _ hn := absurd hn block_empty

theorem Whole.onPool {pairs : Nat} (hp : 2 ≤ pairs) (limit : Option Nat) (memoize : Bool) :
    Whole (Tree.onPool (Pool.empty (⟨w.words, pairs⟩ : Geometry).blockWords limit) pairs memoize : Tree w) [] :=
  ⟨hp, Or.inr rfl, rfl, Or.inl ⟨⟨rfl, rfl, Stock.of_empty _ limit _, fun _ ⟨_, hn, _⟩ => block_empty hn⟩, rfl⟩⟩

theorem Whole.empty (w : Width) : Whole (Tree.empty : Tree w) [] :=
  Whole.onPool (by cases w <;> decide) none true

/-- A configuration describes a tree without entries on a pool without blocks. -/
theorem Tree.of_ofConfig {c : Config} (h : Tree.ofConfig c = .ok (.ok t)) : ∃ pairs limit, 2 ≤ pairs ∧
    t = Tree.onPool (Pool.empty (⟨w.words, pairs⟩ : Geometry).blockWords limit) pairs c.memoize := by
  obtain ⟨made, hg, h⟩ := Fault.of_bind h
  cases made with
  | error e => cases h
  | ok g =>
    obtain ⟨hwords, hpairs⟩ := Config.of_geometry hg
    obtain ⟨g', hchecked, h'⟩ := Fault.of_bind h
    rw [Geometry.of_checked hchecked] at h'
    obtain ⟨pool, hpool, hmade⟩ := Fault.of_bind h'
    rw [Pool.of_create hpool] at hmade
    cases hmade
    obtain ⟨l, pairs⟩ := g
    obtain rfl : l = w.words := hwords
    exact ⟨pairs, _, hpairs, rfl⟩

theorem Whole.ofConfig {c : Config} (h : Tree.ofConfig c = .ok (.ok t)) : Whole t [] := by
  obtain ⟨pairs, limit, hpairs, rfl⟩ := Tree.of_ofConfig h
  exact Whole.onPool hpairs limit c.memoize

/-! ### Operations keep trees whole -/

theorem Whole.step (hw : Whole t row) (h : Tree.Step t t') : ∃ row', Whole t' row' := by
  cases h with
  | @insert k v _ _ _ _ h =>
    rcases hw.insert k v with ⟨-, t₁, hrun, hw₁⟩ | ⟨-, ⟨t₁, hrun, hw₁⟩ | ⟨inUse, t₁, hrun, hw₁, -⟩ | ⟨-, hfault⟩⟩
    · exact ⟨_, (hrun.of_ok h).2 ▸ hw₁⟩
    · exact ⟨_, (hrun.of_ok h).2 ▸ hw₁⟩
    · exact ⟨_, (hrun.of_ok h).2 ▸ hw₁⟩
    · rw [hfault] at h
      cases h
  | @update k v _ _ _ _ h =>
    rcases hw.update k v with ⟨-, t₁, hrun, hw₁⟩ | ⟨_, _, -, t₁, hrun, hw₁⟩
    · exact ⟨_, (hrun.of_ok h).2 ▸ hw₁⟩
    · exact ⟨_, (hrun.of_ok h).2 ▸ hw₁⟩
  | @lookup k _ _ _ _ h =>
    rcases hw.lookup k with ⟨-, t₁, hrun, hw₁⟩ | ⟨_, -, t₁, hrun, hw₁⟩
    · exact ⟨_, (hrun.of_ok h).2 ▸ hw₁⟩
    · exact ⟨_, (hrun.of_ok h).2 ▸ hw₁⟩
  | @remove k _ _ _ _ h =>
    rcases hw.remove k with ⟨-, t₁, hrun, hw₁⟩ | ⟨_, -, t₁, _, hrun, hw₁, -⟩
    · exact ⟨_, (hrun.of_ok h).2 ▸ hw₁⟩
    · exact ⟨_, (hrun.of_ok h).2 ▸ hw₁⟩
  | @visit order _ _ _ _ h =>
    obtain ⟨_, -, hrun⟩ := hw.visit order
    exact ⟨_, (hrun.of_ok h).2 ▸ hw⟩
  | @drain order _ _ _ _ h =>
    obtain ⟨_, t₁, -, hrun, hw₁⟩ := hw.drain order
    exact ⟨_, (hrun.of_ok h).2 ▸ hw₁⟩
  | hooks hooks => exact ⟨_, hw.of_eq rfl rfl rfl rfl rfl⟩

/-- A reachable tree is whole. -/
theorem Tree.Reachable.whole (h : t.Reachable) : ∃ row, Whole t row := by
  induction h with
  | empty => exact ⟨_, Whole.empty w⟩
  | ofConfig h => exact ⟨_, Whole.ofConfig h⟩
  | step _ hs ih =>
    obtain ⟨row, hw⟩ := ih
    exact hw.step hs
  | target _ _ h iht ihv =>
    obtain ⟨row, hw⟩ := iht
    obtain ⟨vrow, hv⟩ := ihv
    obtain ⟨_, t₁, v₁, _, _, hsays, hw₁, -⟩ := hw.merge hv
    cases hsays.of_ok h
    exact ⟨_, hw₁⟩
  | victim _ _ h iht ihv =>
    obtain ⟨row, hw⟩ := iht
    obtain ⟨vrow, hv⟩ := ihv
    obtain ⟨_, t₁, v₁, _, _, hsays, -, hv₁, -⟩ := hw.merge hv
    cases hsays.of_ok h
    exact ⟨_, hv₁⟩

end Trees

/-! ### Trees that operations lead to -/

/-- The tree that an operation leads to; a fault leads nowhere. -/
def Tree.after {w : Width} {α : Type} (t : Tree w) (m : TreeM w α) : Tree w :=
  match m t #[] with
  | .ok ((_, t'), _) => t'
  | .error _ => t

theorem Tree.Reachable.after {w : Width} {α : Type} {t : Tree w} {m : TreeM w α} (ht : t.Reachable)
    (hstep : ∀ {a t' j'}, m t #[] = .ok ((a, t'), j') → Tree.Step t t') : (t.after m).Reachable := by
  unfold Tree.after
  split
  · exact ht.step (hstep ‹_›)
  · exact ht

/-- The outcome of a computation on a tree, as far as it can be evaluated. -/
theorem Ends.after {w : Width} {α : Type} {t : Tree w} {m : TreeM w α} {a : α}
    (h : (m t #[]).toOption.map (·.1.1) = some a) : Ends m t a (t.after m) := by
  unfold Tree.after
  cases hm : m t #[] with
  | error e =>
    rw [hm] at h
    cases h
  | ok x =>
    rw [hm] at h
    cases h
    exact ⟨#[], x.2, hm⟩

/-- A tree of the smallest geometry into which four entries were inserted. One was looked up and then removed, so that
its leaf is unlinked while a memo still names it. -/
def Tree.worn : Tree .bits64 :=
  let t : Tree .bits64 := .onPool (.empty (⟨1, 2⟩ : Geometry).blockWords none) 2 true
  let one : Value := ⟨1, by decide⟩
  (((((t.after (Tree.insert 1 one)).after (Tree.insert 2 one)).after (Tree.insert 3 one)).after
    (Tree.insert 4 one)).after (Tree.lookup 2)).after (Tree.remove 2)

theorem Tree.worn_reachable : Tree.worn.Reachable := by
  have hnew : (.onPool (.empty (⟨1, 2⟩ : Geometry).blockWords none) 2 true : Tree .bits64).Reachable :=
    .ofConfig (c := { pairs := some 2 }) rfl
  unfold Tree.worn
  refine Reachable.after (Reachable.after (Reachable.after (Reachable.after (Reachable.after (Reachable.after hnew
    ?_) ?_) ?_) ?_) ?_) ?_
  · exact .insert
  · exact .insert
  · exact .insert
  · exact .insert
  · exact .lookup
  · exact .remove

example : Tree.worn.height = 3 := by decide +kernel

/-- The value of every entry of the worn tree, and of the trees below. -/
def Value.one : Value := ⟨1, by decide⟩

/-- The tree that the calls behind the worn tree lead to if no memo rings are used. The lookup is left out. -/
def Tree.unremembering : Tree .bits64 :=
  let t : Tree .bits64 := .onPool (.empty (⟨1, 2⟩ : Geometry).blockWords none) 2 false
  ((((t.after (Tree.insert 1 .one)).after (Tree.insert 2 .one)).after (Tree.insert 3 .one)).after
    (Tree.insert 4 .one)).after (Tree.remove 2)

/-- A tree of the smallest geometry that may have four blocks and has three: a full root and two leaves, one of them
full. -/
def Tree.cramped : Tree .bits64 :=
  let t : Tree .bits64 := .onPool (.empty (⟨1, 2⟩ : Geometry).blockWords (some 4)) 2 true
  ((t.after (Tree.insert 40 .one)).after (Tree.insert 30 .one)).after (Tree.insert 20 .one)

theorem Tree.cramped_reachable : Tree.cramped.Reachable := by
  have hnew : (.onPool (.empty (⟨1, 2⟩ : Geometry).blockWords (some 4)) 2 true : Tree .bits64).Reachable :=
    .ofConfig (c := { pairs := some 2, blockLimit := some 4 }) rfl
  unfold Tree.cramped
  refine Reachable.after (Reachable.after (Reachable.after hnew ?_) ?_) ?_
  · exact .insert
  · exact .insert
  · exact .insert

/-- A tree with four slots in a node, of which the first leaf was split: a root and two leaves. -/
def Tree.forked : Tree .bits64 :=
  let t : Tree .bits64 := .onPool (.empty (⟨1, 4⟩ : Geometry).blockWords none) 4 true
  ((((t.after (Tree.insert 10 .one)).after (Tree.insert 20 .one)).after (Tree.insert 30 .one)).after
    (Tree.insert 40 .one)).after (Tree.insert 50 .one)

theorem Tree.forked_reachable : Tree.forked.Reachable := by
  have hnew : (.onPool (.empty (⟨1, 4⟩ : Geometry).blockWords none) 4 true : Tree .bits64).Reachable :=
    .ofConfig (c := { pairs := some 4 }) rfl
  unfold Tree.forked
  refine Reachable.after (Reachable.after (Reachable.after (Reachable.after (Reachable.after hnew ?_) ?_) ?_) ?_) ?_
  · exact .insert
  · exact .insert
  · exact .insert
  · exact .insert
  · exact .insert

end MemoTree
