import MemoTree.Proofs.Coherence
import MemoTree.Proofs.Outcomes
import MemoTree.Tree.Insert
import MemoTree.Tree.Lookup
import MemoTree.Tree.Remove
import MemoTree.Tree.Walk

/-! # Blocks that come back

Only an insertion hands out blocks. Every other operation gives blocks back at most: each is put on the free list and
counted, and nothing else is done to the books of the pool (`Regains`). A computation of which that is true whatever it
comes to is `Thrifty`. No node is split by one either. When no node is in use any more, every block has come back. -/

namespace MemoTree
open Pool

/-- The splits among what was reported, the oldest first. -/
def Journal.splits (j : Journal) : List Event :=
  j.toList.filterMap fun
    | .event (.split level node sibling moved) => some (.split level node sibling moved)
    | _ => none

namespace Journal

theorem splits_append (j said : Journal) : splits (j ++ said) = splits j ++ splits said := by
  rw [splits, splits, splits, Array.toList_append, List.filterMap_append]

theorem splits_push (j : Journal) (s : Signal) : splits (j.push s) = splits j ++ splits #[s] := by
  rw [← splits_append, Array.push_eq_append]

end Journal

/-- From `p` to `p'` no block is handed out. Those that come back are put on the free list, the first one first, and
counted. -/
structure Regains {β : Type} (p p' : Pool β) (back : List Handle) : Prop where
  free : p'.free = back ++ p.free
  released : p'.released = p.released + back.length
  allocated : p'.allocated = p.allocated
  size : p'.blocks.size = p.blocks.size
  blockWords : p'.blockWords = p.blockWords
  limit : p'.limit = p.limit
  peak : p'.peak = p.peak

namespace Regains
variable {β : Type} {p p' q : Pool β} {back back' : List Handle}

theorem refl (p : Pool β) : Regains p p [] := ⟨rfl, rfl, rfl, rfl, rfl, rfl, rfl⟩

theorem trans (h₁ : Regains p p' back) (h₂ : Regains p' q back') : Regains p q (back' ++ back) where
  free := by rw [h₂.free, h₁.free, List.append_assoc]
  released := by
    rw [h₂.released, h₁.released, List.length_append]
    omega
  allocated := h₂.allocated.trans h₁.allocated
  size := h₂.size.trans h₁.size
  blockWords := h₂.blockWords.trans h₁.blockWords
  limit := h₂.limit.trans h₁.limit
  peak := h₂.peak.trans h₁.peak

theorem put (p : Pool β) (h : Handle) (b : β) : Regains p (p.put h b) [] :=
  ⟨rfl, rfl, rfl, Array.size_setIfInBounds, rfl, rfl, rfl⟩

end Regains

/-- Whatever `m` comes to, no block of the pool in its state was handed out and no node was split. -/
def Thrifty {σ α β : Type} (pool : σ → Pool β) (m : StateT σ Journaled α) : Prop :=
  ∀ s j a s' j', m s j = .ok ((a, s'), j') →
    (∃ back, Regains (pool s) (pool s') back) ∧ Journal.splits j' = Journal.splits j

namespace Thrifty

section General
variable {σ α β γ : Type} {pool : σ → Pool β} {m m' : StateT σ Journaled α} {f : α → StateT σ Journaled γ}

theorem pure (a : α) : Thrifty pool (pure a) := fun _ _ _ _ _ h => by
  cases h
  exact ⟨⟨[], .refl _⟩, rfl⟩

theorem bind (hm : Thrifty pool m) (hf : ∀ a, Thrifty pool (f a)) : Thrifty pool (m >>= f) := fun s j _ _ _ h => by
  obtain ⟨a, s₁, j₁, h₁, h₂⟩ := ok_bind h
  obtain ⟨⟨back, hback⟩, hsplits⟩ := hm _ _ _ _ _ h₁
  obtain ⟨⟨back', hback'⟩, hsplits'⟩ := hf a _ _ _ _ _ h₂
  exact ⟨⟨back' ++ back, hback.trans hback'⟩, hsplits'.trans hsplits⟩

theorem get : Thrifty pool (MonadStateOf.get : StateT σ Journaled σ) := fun _ _ _ _ _ h => by
  cases h
  exact ⟨⟨[], .refl _⟩, rfl⟩

theorem modifies {g : σ → σ} (hg : ∀ s, ∃ back, Regains (pool s) (pool (g s)) back) :
    Thrifty pool (modify g : StateT σ Journaled Unit) := fun _ _ _ _ _ h => by
  cases h
  exact ⟨hg _, rfl⟩

theorem lift (e : Except Fault α) : Thrifty pool (liftM e : StateT σ Journaled α) := fun _ _ _ _ _ h => by
  cases e with
  | error => cases h
  | ok =>
    cases h
    exact ⟨⟨[], .refl _⟩, rfl⟩

theorem throw (f : Fault) : Thrifty pool (throw f : StateT σ Journaled α) := fun _ _ _ _ _ h => by cases h

/-- What is told and is no split. -/
theorem tell {t : Journaled Unit} (ht : ∀ j, ∃ j', t j = .ok ((), j') ∧ Journal.splits j' = Journal.splits j) :
    Thrifty pool (liftM t : StateT σ Journaled Unit) := fun s j _ _ _ h => by
  obtain ⟨j₁, htell, hsplits⟩ := ht j
  change (t j >>= fun x => Pure.pure ((x.1, s), x.2)) = _ at h
  rw [htell] at h
  cases h
  exact ⟨⟨[], .refl _⟩, hsplits⟩

theorem report {e : Event} (he : Journal.splits #[.event e] = []) :
    Thrifty pool (liftM (emit e) : StateT σ Journaled Unit) :=
  tell fun j => ⟨j.push (.event e), rfl, by rw [Journal.splits_push, he, List.append_nil]⟩

theorem tellTimer (hooks : Hooks) (o : Operation) :
    Thrifty pool (liftM (hooks.tellTimer o) : StateT σ Journaled Unit) :=
  tell fun j => by
    rw [Hooks.tellTimer]
    split
    · exact ⟨j.push (.timed o), rfl, by rw [Journal.splits_push]; exact List.append_nil _⟩
    · exact ⟨j, rfl, rfl⟩

theorem tellMonitor (hooks : Hooks) (v : Value) :
    Thrifty pool (liftM (hooks.tellMonitor v) : StateT σ Journaled Unit) :=
  tell fun j => by
    rw [Hooks.tellMonitor]
    split
    · exact ⟨j.push (.visited v), rfl, by rw [Journal.splits_push]; exact List.append_nil _⟩
    · exact ⟨j, rfl, rfl⟩

theorem ite {c : Prop} [Decidable c] (h : c → Thrifty pool m) (h' : ¬c → Thrifty pool m') :
    Thrifty pool (if c then m else m') := by
  split
  · exact h ‹_›
  · exact h' ‹_›

theorem ite_bind {c : Prop} [Decidable c] {m : StateT σ Journaled Unit} {k : Unit → StateT σ Journaled α}
    (hm : c → Thrifty pool m) (hk : Thrifty pool (k ())) : Thrifty pool (if c then m >>= k else k ()) :=
  ite (fun hc => bind (hm hc) fun _ => hk) fun _ => hk

end General

end Thrifty

/-- Whatever `m` comes to, no split was reported. -/
def Unsplit {σ α : Type} (m : StateT σ Journaled α) : Prop :=
  ∀ s j a s' j', m s j = .ok ((a, s'), j') → Journal.splits j' = Journal.splits j

theorem Thrifty.unsplit {σ α β : Type} {pool : σ → Pool β} {m : StateT σ Journaled α} (h : Thrifty pool m) :
    Unsplit m :=
  fun _ _ _ _ _ hok => (h _ _ _ _ _ hok).2

/-- Whatever `m` comes to, what `view` shows of the journal is the same. -/
def Silent {σ α γ : Type} (view : Journal → γ) (m : StateT σ Journaled α) : Prop :=
  ∀ s j a s' j', m s j = .ok ((a, s'), j') → view j' = view j

namespace Silent
variable {σ α β γ : Type} {view : Journal → γ}

theorem bind {m : StateT σ Journaled α} {f : α → StateT σ Journaled β} (hm : Silent view m)
    (hf : ∀ a, Silent view (f a)) : Silent view (m >>= f) := fun s j _ _ _ h => by
  obtain ⟨a, s₁, j₁, h₁, h₂⟩ := ok_bind h
  exact (hf a _ _ _ _ _ h₂).trans (hm _ _ _ _ _ h₁)

theorem pure (a : α) : Silent view (pure a : StateT σ Journaled α) := fun _ _ _ _ _ h => by
  cases h
  rfl

theorem modifies (f : σ → σ) : Silent view (modify f : StateT σ Journaled Unit) := fun _ _ _ _ _ h => by
  cases h
  rfl

theorem get : Silent view (MonadStateOf.get : StateT σ Journaled σ) := fun _ _ _ _ _ h => by
  cases h
  rfl

theorem lift (e : Except Fault α) : Silent view (liftM e : StateT σ Journaled α) := fun _ _ _ _ _ h => by
  cases e with
  | error => cases h
  | ok =>
    cases h
    rfl

theorem throw (f : Fault) : Silent view (throw f : StateT σ Journaled α) := fun _ _ _ _ _ h => by cases h

theorem report {e : Event} (he : ∀ j, view (j.push (.event e)) = view j) :
    Silent view (liftM (emit e) : StateT σ Journaled Unit) := fun _ j _ _ _ h => by
  cases h
  exact he j

section Pools
variable {β : Type} (h : Handle)

theorem read : Silent view (Pool.read h : PoolM β β) := .bind get fun _ => lift _

theorem update (f : β → Except Fault β) : Silent view (Pool.update h f) :=
  .bind (read h) fun _ => .bind (lift _) fun _ => modifies _

theorem release : Silent view (Pool.release h : PoolM β Unit) := by
  refine .bind get fun _ => ?_
  split
  · exact .bind (throw _) fun _ => modifies _
  · exact modifies _

end Pools

/-- An allocation reports at most that no block is left. -/
theorem allocate {β : Type} [Block β] (hview : ∀ j out, view (j.push (.event (.exhausted out))) = view j) :
    Silent view (Pool.allocate : PoolM β (Except Error Handle)) := by
  have hcount : ∀ (h : Handle) (out : Nat) (f : Pool β → Pool β), Silent view (do
      modify f
      modify (·.countOut out)
      return .ok h : PoolM β (Except Error Handle)) := fun h out f =>
    (modifies f).bind fun _ => (modifies _).bind fun _ => pure _
  refine .bind get fun _ => .bind (lift _) fun out => .bind get fun p => ?_
  split
  · exact .bind (report fun j => hview j out) fun _ => pure _
  · refine .bind get fun p => ?_
    split
    · exact .bind get fun _ => .bind (lift _) fun _ => .bind (lift _) fun _ => hcount _ _ _
    · refine .bind get fun p => ?_
      split
      · exact pure _
      · exact .bind get fun _ => .bind (lift _) fun _ => hcount _ _ _

end Silent

/-- Whatever `m` comes to, no block of the pool in its state was handed out, and the splits in `said` were reported. -/
def Reports {σ α β : Type} (pool : σ → Pool β) (said : List Event) (m : StateT σ Journaled α) : Prop :=
  ∀ s j a s' j', m s j = .ok ((a, s'), j') →
    (∃ back, Regains (pool s) (pool s') back) ∧ Journal.splits j' = Journal.splits j ++ said

namespace Reports
variable {σ α β γ : Type} {pool : σ → Pool β} {said : List Event}

theorem bind {m : StateT σ Journaled α} {f : α → StateT σ Journaled γ} (hm : Thrifty pool m)
    (hf : ∀ a, Reports pool said (f a)) : Reports pool said (m >>= f) := fun s j _ _ _ h => by
  obtain ⟨a, s₁, j₁, h₁, h₂⟩ := ok_bind h
  obtain ⟨⟨back, hback⟩, hsplits⟩ := hm _ _ _ _ _ h₁
  obtain ⟨⟨back', hback'⟩, hsplits'⟩ := hf a _ _ _ _ _ h₂
  exact ⟨⟨back' ++ back, hback.trans hback'⟩, by rw [hsplits', hsplits]⟩

theorem report (e : Event) : Reports pool (Journal.splits #[.event e]) (liftM (emit e) : StateT σ Journaled Unit) :=
  fun _ _ _ _ _ h => by
    cases h
    exact ⟨⟨[], .refl _⟩, Journal.splits_push _ _⟩

end Reports

namespace Thrifty

/-! ### Blocks -/

section Pools
variable {β : Type} (h : Handle)

theorem read : Thrifty id (Pool.read h : PoolM β β) := bind get fun _ => lift _

theorem write (b : β) : Thrifty id (Pool.write h b) := modifies fun p => ⟨[], .put p h b⟩

theorem update (f : β → Except Fault β) : Thrifty id (Pool.update h f) :=
  bind (read h) fun _ => bind (lift _) fun _ => write h _

theorem release : Thrifty id (Pool.release h : PoolM β Unit) :=
  bind get fun _ => ite (fun _ => throw _) fun _ => modifies fun _ => ⟨[h], rfl, rfl, rfl, rfl, rfl, rfl, rfl⟩

end Pools

/-! ### Nodes and their memos -/

section Nodes
variable (h : Handle)

theorem releaseRef : Thrifty id (NodePool.releaseRef h) :=
  bind (read h) fun _ => ite (fun _ => throw _) fun _ => bind (write h _) fun _ =>
    ite (fun _ => bind (report rfl) fun _ => release h) fun _ => pure _

theorem releaseRefs : ∀ memos : List Memo, Thrifty id (NodePool.releaseRefs memos)
  | [] => pure _
  | m :: memos => bind (releaseRef m.child) fun _ => releaseRefs memos

theorem dropMemos : Thrifty id (NodePool.dropMemos h) :=
  bind (read h) fun _ => bind (write h _) fun _ => bind (releaseRefs _) fun _ => pure _

theorem invalidate : Thrifty id (NodePool.invalidate h) :=
  bind (dropMemos h) fun _ => ite (fun _ => report rfl) fun _ => pure _

theorem unlink : Thrifty id (NodePool.unlink h) :=
  bind (dropMemos h) fun _ => bind (update h _) fun _ => bind (read h) fun _ =>
    ite (fun _ => bind (release h) fun _ => pure _) fun _ => bind (report rfl) fun _ => pure _

theorem remember (key : Words) (child : Handle) : Thrifty id (NodePool.remember h key child) :=
  bind (read h) fun n => bind (update child _) fun _ => bind (update h _) fun _ => by
    cases n.ring.evicted with
    | none => exact pure _
    | some old => exact releaseRef old.child

theorem remembered (key : Words) : Thrifty id (NodePool.remembered h key) :=
  bind get fun _ => bind (read h) fun _ => bind (lift _) fun served => by
    cases served with
    | none => exact bind (update h _) fun _ => pure _
    | some child => exact pure _

end Nodes

/-! ### Trees -/

section Trees
variable {w : Width} {α : Type}

theorem onNodes {action : NodeM α} (h : Thrifty id action) : Thrifty Tree.pool (Tree.onNodes action : TreeM w α) :=
  fun _ _ _ _ _ hok => by
    obtain ⟨x, hm, hok⟩ := Fault.of_bind hok
    cases hok
    exact h _ _ _ _ _ hm

/-- A change of a tree that does not concern its pool. -/
theorem kept (t : Tree w) : ∃ back, Regains t.pool t.pool back := ⟨[], .refl _⟩

variable (g : Geometry) (key : Words) (level : Nat)

/-! ### Descents -/

theorem stepDown (node : Handle) : Thrifty id (Tree.stepDown g key node) := by
  refine bind (read node) fun block => bind (lift _) fun i => ?_
  extract_lets answer lower go
  have hanswer : ∀ child, Thrifty id (answer child) := by
    rintro (_ | child)
    · exact throw _
    · exact pure _
  have hlower : ∀ u, Thrifty id (lower u) := fun _ =>
    bind (lift _) fun _ => bind (write _ _) fun _ => bind (lift _) hanswer
  have hgo : ∀ past, Thrifty id (go past) := fun past =>
    ite (fun _ => ite_bind (fun _ => throw _) (hlower ())) fun _ => bind (lift _) hanswer
  exact ite (fun _ => bind (pure _) hgo) fun _ => bind (lift _) fun _ => bind (pure _) hgo

theorem descend : ∀ (steps : Nat) (node : Handle), Thrifty id (Tree.descend g key steps node)
  | 0, _ => pure _
  | steps + 1, node => bind (stepDown g key node) fun child => descend steps child

theorem nodeAt : Thrifty Tree.pool (Tree.nodeAt key level : TreeM w Handle) :=
  bind get fun t => by
    cases t.root with
    | none => exact throw _
    | some root => exact bind get fun _ => bind get fun _ => onNodes (descend _ key _ root)

/-! ### Attempts to place a pair -/

theorem tryPlace (value : Word) : Thrifty Tree.pool (Tree.tryPlace key value level : TreeM w Tree.Attempt) := by
  refine bind (nodeAt key level) fun node => bind get fun t =>
    onNodes (bind (read node) fun block => bind (lift _) fun pos =>
    bind (lift _) fun fill => bind (lift _) fun holds => ite (fun _ => ?_) fun _ => ite (fun _ => pure _) fun _ =>
    bind (lift _) fun block => bind (write node _) fun _ => ite_bind (fun _ => invalidate node) (pure _))
  exact ite_bind (fun _ => throw _) (pure _)

/-- Once a block was asked for, adding a level takes no other. -/
theorem addLevel : ∃ rest, (Tree.addLevel : TreeM w (Except Error Unit)) = Tree.onNodes Pool.allocate >>= rest ∧
    ∀ answer, Thrifty Tree.pool (rest answer) := by
  refine ⟨_, rfl, fun answer => ?_⟩
  cases answer with
  | error => exact pure _
  | ok top =>
    refine bind get fun t => ?_
    extract_lets finish
    have hfinish : ∀ u, Thrifty Tree.pool (finish u) := fun _ =>
      bind (modifies kept) fun _ => bind get fun _ => bind (report rfl) fun _ => pure _
    cases t.root with
    | none => exact hfinish ()
    | some old =>
      exact bind get fun _ => bind (onNodes (bind (read old) fun _ => bind (lift _) fun _ =>
        ite_bind (fun _ => throw _) (bind (lift _) fun _ => update top _))) hfinish

/-- Moving half of a node's pairs is what splits it. -/
theorem moveHalf (node sibling : Handle) (half : Nat) :
    Reports id [.split level node sibling half] (Tree.moveHalf g node sibling half level) := by
  refine .bind (read node) fun _ => .bind (lift _) fun _ => .bind (update sibling _) fun _ => .bind (lift _) fun _ =>
    .bind (write node _) fun _ => ?_
  have hreport : Reports id [.split level node sibling half]
      (liftM (emit (.split level node sibling half)) : NodeM Unit) := Reports.report _
  dsimp only
  split
  · exact .bind (invalidate node) fun _ => hreport
  · exact hreport

/-! ### Lookups -/

theorem childFor (cached : Bool) (node : Handle) : Thrifty id (Tree.childFor g cached key node) := by
  refine ite (fun _ => bind (remembered node key) fun served => ?_) fun _ => ?_
  rcases served with _ | child
  case some => exact pure _
  -- Without a memo, and without rings, the node is scanned.
  all_goals
    refine bind (read node) fun _ => bind (lift _) fun found => ?_
    cases found with
    | none => exact pure _
    | some child => exact ite (fun _ => bind (remember node key child) fun _ => pure _) fun _ => pure _

theorem leafFor (cached : Bool) : ∀ (steps : Nat) (node : Handle), Thrifty id (Tree.leafFor g cached key steps node)
  | 0, _ => pure _
  | steps + 1, node => bind (childFor g key cached node) fun found => by
    cases found with
    | none => exact pure _
    | some child => exact leafFor cached steps child

theorem findSlot : Thrifty Tree.pool (Tree.findSlot key : TreeM w (Option (Handle × Nat))) :=
  bind get fun t => by
    cases t.root with
    | none => exact pure _
    | some root =>
      refine bind get fun _ => bind get fun _ => bind get fun _ =>
        onNodes (bind (leafFor _ key _ _ root) fun found => ?_)
      cases found with
      | none => exact pure _
      | some leaf => exact bind (read leaf) fun _ => bind (lift _) fun slot => by cases slot <;> exact pure _

theorem lookup (k : Key w) : Thrifty Tree.pool (Tree.lookup k) := by
  refine bind (findSlot k.toWords) fun found => ?_
  extract_lets answer
  have hanswer : ∀ word, Thrifty Tree.pool (answer word) := fun word =>
    bind get fun _ => bind (tellTimer _ _) fun _ => by
      cases Value.ofWord? word with
      | none => exact pure _
      | some value => exact bind get fun _ => bind (tellMonitor _ _) fun _ => pure _
  rcases found with _ | ⟨leaf, slot⟩
  · exact bind (pure _) hanswer
  · exact bind get fun _ => bind (onNodes (read leaf)) fun _ => bind (lift _) hanswer

theorem replace (k : Key w) (v : Value) : Thrifty Tree.pool (Tree.update k v) :=
  bind (findSlot k.toWords) fun found => by
    rcases found with _ | ⟨leaf, slot⟩
    · exact pure _
    · exact bind get fun _ => bind (onNodes (update leaf _)) fun _ => pure _

/-! ### Walks -/

theorem walk (order : Order) (reap : Bool) : ∀ (depth : Nat) (node : Handle) (seen : Array (Tree.Visit w)),
    Thrifty id (Tree.walk g order reap depth node seen)
  | 0, node, seen => bind (read node) fun _ => bind (lift _) fun _ => bind (lift _) fun _ =>
      ite (fun _ => bind (unlink node) fun _ => pure _) fun _ => pure _
  | depth + 1, node, seen => by
    have hwalk : ∀ (children : List Handle) (seen : Array (Tree.Visit w)),
        Thrifty id (children.foldlM (fun seen child => Tree.walk g order reap depth child seen) seen) := by
      intro children
      induction children with
      | nil => exact fun _ => pure _
      | cons child children ih => exact fun seen => bind (walk order reap depth child seen) ih
    exact bind (read node) fun _ => bind (lift _) fun _ => bind (lift _) fun _ => bind (hwalk _ seen) fun _ =>
      ite (fun _ => bind (unlink node) fun _ => pure _) fun _ => pure _

theorem visit (order : Order) : Thrifty Tree.pool (Tree.visit order : TreeM w (Array (Tree.Visit w))) :=
  bind get fun t => by
    cases t.root with
    | none => exact pure _
    | some root => exact bind get fun _ => bind get fun _ => onNodes (walk _ order false _ root _)

theorem drain (order : Order) : Thrifty Tree.pool (Tree.drain order : TreeM w (Array (Tree.Visit w))) := by
  refine bind get fun t => ?_
  extract_lets answer
  have hanswer : ∀ seen, Thrifty Tree.pool (answer seen) := fun seen =>
    bind (modifies kept) fun _ => bind get fun _ => bind (lift _) fun _ => bind (report rfl) fun _ => pure _
  cases t.root with
  | none => exact bind (pure _) hanswer
  | some root => exact bind get fun _ => bind get fun _ => bind (onNodes (walk _ order true _ root _)) hanswer

/-! ### Removal -/

theorem dropLevel : Thrifty Tree.pool (Tree.dropLevel : TreeM w Unit) :=
  bind get fun t => by
    cases t.root with
    | none => exact pure _
    | some old =>
      exact bind get fun _ => bind (onNodes (bind (read old) fun _ => lift _)) fun _ => bind (modifies kept) fun _ =>
        bind (onNodes (unlink old)) fun _ => bind get fun _ => report rfl

theorem dropRoot : Thrifty Tree.pool (Tree.dropRoot : TreeM w Unit) := by
  refine bind get fun t => bind (modifies kept) fun _ => ?_
  have hlast : Thrifty Tree.pool (liftM (emit .emptied) : TreeM w Unit) := report rfl
  cases t.root with
  | none => exact bind (modifies kept) fun _ => hlast
  | some root => exact bind (onNodes (unlink root)) fun _ => bind (modifies kept) fun _ => hlast

theorem neighbours (parent child : Handle) : Thrifty id (Tree.neighbours g key parent child) := by
  refine bind (read parent) fun block => bind (lift _) fun i => bind (lift _) fun found => ?_
  extract_lets answer go
  have hanswer : ∀ left, Thrifty id (answer left) := fun left =>
    ite (fun _ => bind (lift _) fun _ => pure _) fun _ => bind (pure _) fun _ => pure _
  have hgo : ∀ u, Thrifty id (go u) := fun _ =>
    ite (fun _ => bind (pure _) hanswer) fun _ => bind (lift _) hanswer
  exact ite_bind (fun _ => throw _) (hgo ())

theorem fitting (fill : Nat) : ∀ neighbour : Option Handle, Thrifty id (Tree.fitting g fill neighbour)
  | none => pure _
  | some node => bind (read node) fun _ => bind (lift _) fun _ => ite (fun _ => pure _) fun _ => pure _

theorem takePair : Thrifty Tree.pool (Tree.takePair key level : TreeM w (Option (Handle × Word × Nat))) := by
  refine bind (nodeAt key level) fun node => bind get fun _ => onNodes (bind (read node) fun _ => bind (lift _) fun _ =>
    bind (lift _) fun _ => ?_)
  extract_lets answer
  have hanswer : ∀ present, Thrifty id (answer present) := fun present =>
    ite (fun _ => pure _) fun _ => bind (lift _) fun _ => bind (lift _) fun _ => bind (write _ _) fun _ => pure _
  exact ite (fun _ => bind (lift _) hanswer) fun _ => bind (pure _) hanswer

section Unlinkers
variable {unlinkSlot : Tree.Unlinker w} (hu : ∀ key level, Thrifty Tree.pool (unlinkSlot key level))
include hu

theorem join (left : Handle) (leftFill : Nat) (right : Handle) (rightFill : Nat) (parent : Handle) (slot : Nat) :
    Thrifty Tree.pool (Tree.join unlinkSlot level left leftFill right rightFill parent slot) := by
  refine bind get fun _ =>
    bind (onNodes (bind (read right) fun _ => bind (lift _) fun _ => bind (update left _) fun _ => ?_))
    fun _ => bind (hu _ _) fun _ => ite_bind (fun _ => throw _) ?_
  · exact ite_bind (fun _ => invalidate left) (bind (update parent _) fun _ => bind (read parent) fun _ => lift _)
  · exact bind (onNodes (unlink right)) fun _ => report rfl

theorem repair (child : Handle) (fill : Nat) : Thrifty Tree.pool (Tree.repair unlinkSlot key level child fill) := by
  refine ite (fun _ => bind (hu _ _) fun _ => bind (onNodes (unlink child)) fun _ => pure _) fun _ =>
    bind (nodeAt key _) fun parent => bind get fun t => bind (onNodes (neighbours _ key parent child))
      fun ⟨i, left, right⟩ =>
    bind (onNodes (fitting _ fill left)) fun found => ?_
  rcases found with _ | ⟨left, leftFill⟩
  · refine bind (onNodes (fitting _ fill right)) fun found => ?_
    rcases found with _ | ⟨right, rightFill⟩
    · exact pure _
    · exact join level hu child fill right rightFill parent i
  · exact join level hu left leftFill child fill parent (i - 1)

end Unlinkers

theorem deleteAt : ∀ (rungs : Nat) (key : Words) (level : Nat), Thrifty Tree.pool
    (Tree.deleteAt rungs key level : TreeM w (Option Word))
  | 0, _, _ => throw _
  | rungs + 1, key, level => by
    refine bind (takePair key level) fun taken => ?_
    rcases taken with _ | ⟨node, value, fill⟩
    · exact pure _
    · exact bind get fun t => ite (fun _ => ite (fun _ => bind dropRoot fun _ => pure _) fun _ =>
        ite_bind (fun _ => dropLevel) (pure _)) fun _ => bind get fun t =>
        ite_bind (fun _ => repair key level (fun key level => deleteAt rungs key level) node fill) (pure _)

theorem remove (k : Key w) : Thrifty Tree.pool (Tree.remove k) := by
  refine bind get fun t => ite (fun _ => pure _) fun _ => bind get fun _ => bind (deleteAt _ _ 1) fun taken => ?_
  cases taken with
  | none => exact pure _
  | some value =>
    exact bind get fun _ => ite_bind (fun _ => throw _) (bind (modifies kept) fun _ => pure _)

end Trees
end Thrifty

/-! ### Pools of which no node is in use -/

namespace Pool.Ledger
variable {p : NodePool} {h : Handle} {n : Node}

/-- Where no node is in use, no memo is left, and every block is on the free list. -/
theorem idle (hl : Ledger p []) (hidle : ∀ h, ¬p.Live h) (hn : p.block h = .ok n) :
    n.refs = 0 ∧ n.ring.memos = [] ∧ h ∈ p.free := by
  have hrefs : n.refs = 0 := by
    rw [hl.refs h n hn, Pool.named_eq_zero hl.small fun k x hx m hm => ?_, List.count_nil]
    rw [hl.quiet (hidle k) x hx] at hm
    cases hm
  refine ⟨hrefs, hl.quiet (hidle h) n hn, ?_⟩
  by_contra hf
  cases hd : n.deleted with
  | true => exact hf ((hl.deleted h n hn hd).2 hrefs)
  | false => exact hidle h ⟨n, hn, hd, hf⟩

/-- Where no node is in use, no block is out. -/
theorem out_eq_zero (hl : Ledger p []) (hidle : ∀ h, ¬p.Live h) : p.out = 0 := by
  have hsub : List.range p.blocks.size ⊆ p.free.map (·.index) := fun i hi => by
    have hlt := List.mem_range.mp hi
    have hsmall := hl.small
    obtain ⟨-, -, hf⟩ := hl.idle hidle (h := ⟨i, by omega⟩) (block_eq_ok.mpr (Array.getElem?_eq_getElem hlt))
    exact List.mem_map_of_mem hf
  have hle := (List.nodup_range.subperm hsub).length_le
  rw [List.length_range, List.length_map] at hle
  rw [out]
  omega

/-- Where no node is in use, as many blocks came back as were handed out. -/
theorem balanced (hl : Ledger p []) (hidle : ∀ h, ¬p.Live h) : p.allocated = p.released := by
  have hcounts := hl.counts
  have hout := hl.out_eq_zero hidle
  have hle := hl.free_le
  rw [out] at hout
  omega

end Pool.Ledger
end MemoTree
