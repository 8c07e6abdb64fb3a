import MemoTree.Proofs.Returns
import MemoTree.Proofs.Waiting

/-! # What is reported of nodes that wait

A computation is traced if the deferrals and completions that it reports are those of the changes it makes to the
pool, in their order (`Traces`). Of an insertion this is true in whatever state it begins, for it only writes words,
hands out blocks and drops memos. Unlinking a node is traced if the node is not deleted yet, and so is storing a memo
for it. -/

namespace MemoTree
open Pool

/-- The deferrals and completions among what was reported, the oldest first. -/
def Journal.phases (j : Journal) : List Phase :=
  j.toList.filterMap fun
    | .event (.deferred h refs) => some (.deferred h refs)
    | .event (.releasing h) => some (.completed h)
    | _ => none

namespace Journal

theorem phases_append (j said : Journal) : phases (j ++ said) = phases j ++ phases said := by
  rw [phases, phases, phases, Array.toList_append, List.filterMap_append]

theorem phases_push (j : Journal) (s : Signal) : phases (j.push s) = phases j ++ phases #[s] := by
  rw [← phases_append, Array.push_eq_append]

end Journal

/-! ### Writing to a node -/

namespace Node

/-- What was written to a node neither names nor deletes it. -/
def SameMarks (n n' : Node) : Prop := n'.refs = n.refs ∧ n'.deleted = n.deleted

variable {g : Geometry} {n n' : Node}

theorem SameMarks.refl (n : Node) : n.SameMarks n := ⟨rfl, rfl⟩

theorem SameMarks.trans {m : Node} (h : n.SameMarks m) (h' : m.SameMarks n') : n.SameMarks n' :=
  ⟨h'.1.trans h.1, h'.2.trans h.2⟩

theorem sameMarks_writeKey {i : Nat} {key : Words} (h : n.writeKey g i key = .ok n') : n.SameMarks n' := by
  unfold writeKey at h
  extract_lets start at h
  split at h
  · split at h
    · cases h
      exact .refl _
    · cases h
  · cases h

theorem sameMarks_writeValue {i : Nat} {v : Word} (h : n.writeValue g i v = .ok n') : n.SameMarks n' := by
  unfold writeValue at h
  split at h
  · cases h
    exact .refl _
  · cases h

theorem sameMarks_writePair {i : Nat} {key : Words} {v : Word} (h : n.writePair g i key v = .ok n') :
    n.SameMarks n' := by
  obtain ⟨m, hkey, hvalue⟩ := Fault.of_bind h
  exact (sameMarks_writeKey hkey).trans (sameMarks_writeValue hvalue)

theorem sameMarks_copySlot {i k : Nat} (h : n.copySlot g i k = .ok n') : n.SameMarks n' := by
  obtain ⟨_, -, h⟩ := Fault.of_bind h
  obtain ⟨m, hkey, h⟩ := Fault.of_bind h
  obtain ⟨_, -, hvalue⟩ := Fault.of_bind h
  exact (sameMarks_writeKey hkey).trans (sameMarks_writeValue hvalue)

theorem sameMarks_raise {start count : Nat} (h : raise g start count n = .ok n') : n.SameMarks n' := by
  induction count generalizing n with
  | zero =>
    cases h
    exact .refl _
  | succ count ih =>
    obtain ⟨m, hcopy, h⟩ := Fault.of_bind h
    exact (sameMarks_copySlot hcopy).trans (ih h)

theorem sameMarks_lower {shift count start : Nat} (h : lower g shift count start n = .ok n') : n.SameMarks n' := by
  induction count generalizing start n with
  | zero =>
    cases h
    exact .refl _
  | succ count ih =>
    obtain ⟨m, hcopy, h⟩ := Fault.of_bind h
    exact (sameMarks_copySlot hcopy).trans (ih h)

theorem sameMarks_clearFrom {count start : Nat} (h : clearFrom g count start n = .ok n') : n.SameMarks n' := by
  induction count generalizing start n with
  | zero =>
    cases h
    exact .refl _
  | succ count ih =>
    obtain ⟨m, hclear, h⟩ := Fault.of_bind h
    exact (sameMarks_writePair hclear).trans (ih h)

theorem sameMarks_writePairs {start : Nat} {pairs : List (Words × Word)} (h : writePairs g start pairs n = .ok n') :
    n.SameMarks n' := by
  induction pairs generalizing start n with
  | nil =>
    cases h
    exact .refl _
  | cons e pairs ih =>
    obtain ⟨m, hpair, h⟩ := Fault.of_bind h
    exact (sameMarks_writePair hpair).trans (ih h)

theorem sameMarks_insertPair {pos fill : Nat} {key : Words} {v : Word} (h : n.insertPair g pos fill key v = .ok n') :
    n.SameMarks n' := by
  obtain ⟨m, hraise, hpair⟩ := Fault.of_bind h
  exact (sameMarks_raise hraise).trans (sameMarks_writePair hpair)

theorem sameMarks_erasePair {pos fill : Nat} (h : n.erasePair g pos fill = .ok n') : n.SameMarks n' := by
  obtain ⟨m, hlower, hclear⟩ := Fault.of_bind h
  exact (sameMarks_lower hlower).trans (sameMarks_writePair hclear)

theorem sameMarks_dropPairs {count fill : Nat} (h : n.dropPairs g count fill = .ok n') : n.SameMarks n' := by
  obtain ⟨m, hlower, hclear⟩ := Fault.of_bind h
  exact (sameMarks_lower hlower).trans (sameMarks_clearFrom hclear)

end Node

/-! ### Computations that are traced -/

/-- What `m` reports of nodes that wait, when it is started in `s`, is what it does to the pool. -/
def Traces {σ α : Type} (pool : σ → NodePool) (stores frees : Prop) (m : StateT σ Journaled α) (s : σ) : Prop :=
  ∀ j a s' j', m s j = .ok ((a, s'), j') → ∃ phases, Acts stores frees (pool s) phases (pool s') ∧
    Journal.phases j' = Journal.phases j ++ phases.filter Phase.reported

namespace Traces

section General
variable {σ α β : Type} {pool : σ → NodePool} {stores frees : Prop} {m m' : StateT σ Journaled α}
  {f : α → StateT σ Journaled β} {s s' : σ} {a : α}

/-- What keeps the pool and reports nothing of its nodes. -/
theorem of_kept (h : ∀ j a s' j', m s j = .ok ((a, s'), j') → pool s' = pool s ∧ Journal.phases j' = Journal.phases j) :
    Traces pool stores frees m s := fun j a s' j' hok => by
  obtain ⟨hpool, hphases⟩ := h j a s' j' hok
  refine ⟨[], ?_, by rw [hphases]; exact (List.append_nil _).symm⟩
  rw [hpool]
  exact .nil

theorem pure (a : α) : Traces pool stores frees (pure a) s := of_kept fun _ _ _ _ h => by
  cases h
  exact ⟨rfl, rfl⟩

theorem bind (hm : Traces pool stores frees m s) (hf : ∀ a s', Ends m s a s' → Traces pool stores frees (f a) s') :
    Traces pool stores frees (m >>= f) s := fun j _ _ _ h => by
  obtain ⟨a, s₁, j₁, h₁, h₂⟩ := ok_bind h
  obtain ⟨phases, hacts, hphases⟩ := hm _ _ _ _ h₁
  obtain ⟨phases', hacts', hphases'⟩ := hf a s₁ ⟨j, j₁, h₁⟩ _ _ _ _ h₂
  exact ⟨phases ++ phases', hacts.trans hacts', by rw [hphases', hphases, List.filter_append, List.append_assoc]⟩

/-- A step of which the outcome is known. -/
theorem after (hrun : Runs m s a s') (hm : Traces pool stores frees m s) (hf : Traces pool stores frees (f a) s') :
    Traces pool stores frees (m >>= f) s :=
  hm.bind fun b s₁ he => by
    obtain ⟨rfl, rfl⟩ := hrun.of_ends he
    exact hf

theorem get : Traces pool stores frees (MonadStateOf.get : StateT σ Journaled σ) s := of_kept fun _ _ _ _ h => by
  cases h
  exact ⟨rfl, rfl⟩

theorem bind_get {f : σ → StateT σ Journaled β} (hf : Traces pool stores frees (f s) s) :
    Traces pool stores frees (MonadStateOf.get >>= f) s := after (Runs.get s) get hf

theorem modifies {g : σ → σ} (hg : pool (g s) = pool s) :
    Traces pool stores frees (modify g : StateT σ Journaled Unit) s := of_kept fun _ _ _ _ h => by
  cases h
  exact ⟨hg, rfl⟩

theorem lift (e : Except Fault α) : Traces pool stores frees (liftM e : StateT σ Journaled α) s :=
  of_kept fun _ _ _ _ h => by
  cases e with
  | error => cases h
  | ok =>
    cases h
    exact ⟨rfl, rfl⟩

theorem bind_lift {e : Except Fault α} (hf : ∀ a, e = .ok a → Traces pool stores frees (f a) s) :
    Traces pool stores frees (liftM e >>= f) s :=
  (lift e).bind fun a s' he => by
    obtain ⟨ha, rfl⟩ := he.lift
    exact hf a ha

theorem throw (fault : Fault) : Traces pool stores frees (throw fault : StateT σ Journaled α) s :=
  fun _ _ _ _ h => by cases h

/-- What is told and is neither a deferral nor a completion. -/
theorem tell {t : Journaled Unit} (ht : ∀ j, ∃ j', t j = .ok ((), j') ∧ Journal.phases j' = Journal.phases j) :
    Traces pool stores frees (liftM t : StateT σ Journaled Unit) s := of_kept fun j _ _ _ h => by
  obtain ⟨j₁, htell, hphases⟩ := ht j
  change (t j >>= fun x => Pure.pure ((x.1, s), x.2)) = _ at h
  rw [htell] at h
  cases h
  exact ⟨rfl, hphases⟩

theorem report {e : Event} (he : Journal.phases #[.event e] = []) :
    Traces pool stores frees (liftM (emit e) : StateT σ Journaled Unit) s :=
  tell fun j => ⟨j.push (.event e), rfl, by rw [Journal.phases_push, he, List.append_nil]⟩

theorem tellTimer (hooks : Hooks) (o : Operation) :
    Traces pool stores frees (liftM (hooks.tellTimer o) : StateT σ Journaled Unit) s :=
  tell fun j => by
    rw [Hooks.tellTimer]
    split
    · exact ⟨j.push (.timed o), rfl, by rw [Journal.phases_push]; exact List.append_nil _⟩
    · exact ⟨j, rfl, rfl⟩

theorem tellMonitor (hooks : Hooks) (v : Value) :
    Traces pool stores frees (liftM (hooks.tellMonitor v) : StateT σ Journaled Unit) s :=
  tell fun j => by
    rw [Hooks.tellMonitor]
    split
    · exact ⟨j.push (.visited v), rfl, by rw [Journal.phases_push]; exact List.append_nil _⟩
    · exact ⟨j, rfl, rfl⟩

theorem ite {c : Prop} [Decidable c] (h : c → Traces pool stores frees m s) (h' : ¬c → Traces pool stores frees m' s) :
    Traces pool stores frees (if c then m else m') s := by
  split
  · exact h ‹_›
  · exact h' ‹_›

theorem ite_bind {c : Prop} [Decidable c] {m : StateT σ Journaled Unit} {k : Unit → StateT σ Journaled α}
    (hm : c → Traces pool stores frees m s) (hk : ∀ s', Traces pool stores frees (k ()) s') :
    Traces pool stores frees (if c then m >>= k else k ()) s :=
  ite (fun hc => (hm hc).bind fun _ _ _ => hk _) fun _ => hk s

theorem guard {c : Prop} [Decidable c] {fault : Fault} {k : α → StateT σ Journaled β} {k' : StateT σ Journaled β}
    (hk : ¬c → Traces pool stores frees k' s) :
    Traces pool stores frees (if c then (MonadExcept.throw fault : StateT σ Journaled α) >>= k else k') s :=
  ite (fun _ => (throw fault).bind fun _ _ he => absurd he Ends.throw) hk

/-- A node that is not deleted stays so where none is freed. -/
theorem unmarked {h : Handle} (ht : Traces pool stores False m s) (he : Ends m s a s') (hu : (pool s).Unmarked h) :
    (pool s').Unmarked h := by
  obtain ⟨j, j', hok⟩ := he
  obtain ⟨_, hacts, -⟩ := ht _ _ _ _ hok
  exact hacts.unmarked id hu

end General

/-! ### Blocks -/

section Pools
variable {α : Type} {stores frees : Prop} {p : NodePool} {h : Handle} {n n' : Node} {f : Node → NodeM α}

theorem read : Traces id stores frees (Pool.read h : NodeM Node) p := bind_get (lift _)

theorem bind_read (hf : ∀ n, p.block h = .ok n → Traces id stores frees (f n) p) :
    Traces id stores frees (Pool.read h >>= f) p :=
  read.bind fun n q he => by
    obtain ⟨hn, rfl⟩ := he.read
    exact hf n hn

/-- A change of a pool of which nothing is reported. -/
theorem act {g : NodePool → NodePool} (ha : Act stores frees p [] (g p)) :
    Traces id stores frees (modify g : NodeM Unit) p := fun _ _ _ _ hok => by
  cases hok
  exact ⟨[], .single ha, (List.append_nil _).symm⟩

theorem write (hn : p.block h = .ok n) (hsame : n.SameMarks n') :
    Traces id stores frees (Pool.write h n' : NodeM Unit) p :=
  act (.change hn hsame.1 hsame.2)

theorem update {f : Node → Except Fault Node} (hf : ∀ n n', f n = .ok n' → n.SameMarks n') :
    Traces id stores frees (Pool.update h f : NodeM Unit) p :=
  bind_read fun n hn => bind_lift fun n' hn' => write hn (hf n n' hn')

theorem release : Traces id stores frees (Pool.release h : NodeM Unit) p := fun j _ _ j' hok =>
  ⟨[], .single (.back ⟨j, j', hok⟩), (Silent.release h _ _ _ _ _ hok).trans (List.append_nil _).symm⟩

theorem allocate : Traces id stores frees (Pool.allocate : NodeM (Except Error Handle)) p :=
  fun j answer p' j' hok => by
  have hphases : Journal.phases j' = Journal.phases j := Silent.allocate (fun j _ => by
    rw [Journal.phases_push]
    exact List.append_nil _) _ _ _ _ _ hok
  have he : Ends Pool.allocate p answer p' := ⟨j, j', hok⟩
  cases answer with
  | ok h => exact ⟨[.lent h], .single (.lend he), hphases.trans (List.append_nil _).symm⟩
  | error e =>
    refine ⟨[], ?_, hphases.trans (List.append_nil _).symm⟩
    obtain ⟨out, hout, -⟩ := he.bind_get.bind_lift
    cases allocates_of_ends he hout with
    | exhausted => exact .nil
    | unnumbered => exact .nil

end Pools

/-! ### Nodes and their memos -/

section Nodes
variable {stores frees : Prop} {p : NodePool} {h : Handle}

/-- The last reference to a node that was unlinked completes its return. -/
theorem releaseRef : Traces id stores frees (NodePool.releaseRef h) p := by
  refine bind_read fun n hn => ite (fun _ => throw _) fun hrefs => fun j _ _ _ hok => ?_
  have hdrop : Act stores frees p _ (p.put h { n with refs := n.refs - 1 }) := .drop hn hrefs
  obtain ⟨_, _, _, hwrite, hok⟩ := ok_bind hok
  cases hwrite
  by_cases hlast : n.refs = 1 ∧ n.deleted = true
  · rw [if_pos hlast] at hok hdrop
    obtain ⟨_, _, _, hemit, hok⟩ := ok_bind hok
    cases hemit
    obtain ⟨phases, hacts, hphases⟩ := release _ _ _ _ hok
    refine ⟨_, .cons hdrop hacts, ?_⟩
    rw [hphases, Journal.phases_push, List.filter_append, List.append_assoc]
    rfl
  · rw [if_neg hlast] at hok hdrop
    cases hok
    exact ⟨_, .single hdrop, (List.append_nil _).symm⟩

theorem releaseRefs (memos : List Memo) : ∀ {p}, Traces id stores frees (NodePool.releaseRefs memos) p := by
  induction memos with
  | nil => exact pure _
  | cons m memos ih => exact bind releaseRef fun _ _ _ => ih

theorem dropMemos : Traces id stores frees (NodePool.dropMemos h) p :=
  bind_read fun _ hn => bind (write hn ⟨rfl, rfl⟩) fun _ _ _ => bind (releaseRefs _) fun _ _ _ => pure _

theorem invalidate : Traces id stores frees (NodePool.invalidate h) p :=
  bind dropMemos fun _ _ _ => ite (fun _ => report rfl) fun _ => pure _

/-- Unlinking a node that is not deleted returns it, or defers its return. -/
theorem unlink (hfrees : frees) (hu : p.Unmarked h) : Traces id stores frees (NodePool.unlink h) p := by
  have hdrop : Traces id stores False (NodePool.dropMemos h) p := dropMemos
  refine bind dropMemos fun _ q he => ?_
  obtain ⟨n, hn, hdel⟩ := hdrop.unmarked he hu
  refine fun j _ _ _ hok => ?_
  have hfree : Act stores frees q _ (q.put h { n with deleted := true }) := .free hfrees hn hdel
  obtain ⟨_, _, j₁, hupdate, hok⟩ := ok_bind hok
  have hmute : Silent id (Pool.update h fun node : Node => return { node with deleted := true }) := .update h _
  obtain rfl : j₁ = j := hmute _ _ _ _ _ hupdate
  obtain ⟨x, x', hx, hx', rfl⟩ := Ends.update ⟨_, _, hupdate⟩
  obtain rfl := Except.ok.inj (hn.symm.trans hx)
  cases hx'
  obtain ⟨y, _, j₂, hread, hok⟩ := ok_bind hok
  have hmute : Silent id (Pool.read h : NodeM Node) := .read h
  obtain rfl : j₂ = j₁ := hmute _ _ _ _ _ hread
  obtain ⟨hy, rfl⟩ := Ends.read ⟨_, _, hread⟩
  obtain rfl := Except.ok.inj ((block_put_self hn).symm.trans hy)
  by_cases hrefs : n.refs = 0
  · rw [if_pos hrefs] at hok hfree
    obtain ⟨phases, hacts, hphases⟩ := bind (β := Bool) release (fun _ _ _ => pure _) _ _ _ _ hok
    exact ⟨_, .cons hfree hacts, hphases⟩
  · rw [if_neg hrefs] at hok hfree
    cases hok
    exact ⟨_, .single hfree, Journal.phases_push _ _⟩

theorem remembered (key : Words) : Traces id stores frees (NodePool.remembered h key) p := by
  refine bind_get (bind_read fun n hn => bind_lift fun served _ => ?_)
  cases served with
  | none => exact bind (update fun _ _ hn' => by cases hn'; exact ⟨rfl, rfl⟩) fun _ _ _ => pure _
  | some child => exact pure _

/-- A memo is stored for a node that is not deleted. -/
theorem remember {child : Handle} (hstores : stores) (key : Words) (hu : p.Unmarked child) :
    Traces id stores frees (NodePool.remember h key child) p := by
  obtain ⟨n, hn, hdel⟩ := hu
  have hnamed : Traces id stores frees (Pool.update child fun node => return { node with refs := node.refs + 1 }) p :=
    bind_read fun x hx => bind_lift fun x' hx' => act (by
      obtain rfl := Except.ok.inj (hn.symm.trans hx)
      cases hx'
      exact .store hstores hn hdel)
  refine bind_read fun parent _ => bind hnamed fun _ _ _ =>
    bind (update fun _ _ hn' => by cases hn'; exact ⟨rfl, rfl⟩) fun _ _ _ => ?_
  cases parent.ring.evicted with
  | none => exact pure _
  | some old => exact releaseRef

end Nodes
/-! ### Insertions -/

section Trees
variable {w : Width} {α : Type} {stores frees : Prop} {t : Tree w} {p : NodePool}

theorem onNodes {action : NodeM α} (h : Traces id stores frees action t.pool) :
    Traces Tree.pool stores frees (Tree.onNodes action) t := fun _ _ _ _ hok => by
  obtain ⟨q, hnodes, rfl⟩ := ok_onNodes hok
  exact h _ _ _ _ hnodes

variable (g : Geometry) (key : Words) (level : Nat)

theorem stepDown (node : Handle) : Traces id stores frees (Tree.stepDown g key node) p := by
  refine bind_read fun n hn => bind_lift fun i _ => ?_
  extract_lets answer lower go
  have hanswer : ∀ q child, Traces id stores frees (answer child) q := by
    rintro q (_ | child)
    · exact throw _
    · exact pure _
  have hlower : ∀ u, Traces id stores frees (lower u) p := fun _ =>
    bind_lift fun n' hn' => bind (write hn (Node.sameMarks_writeKey hn')) fun _ _ _ => bind_lift fun _ _ => hanswer _ _
  have hgo : ∀ past, Traces id stores frees (go past) p := fun past =>
    ite (fun _ => guard fun _ => hlower ()) fun _ =>
      bind_lift fun _ _ => hanswer _ _
  exact ite (fun _ => after (Runs.pure _ _) (pure _) (hgo _)) fun _ => bind_lift fun _ _ =>
    after (Runs.pure _ _) (pure _) (hgo _)

theorem descend : ∀ (steps : Nat) (node : Handle) {p : NodePool},
    Traces id stores frees (Tree.descend g key steps node) p
  | 0, _, _ => pure _
  | steps + 1, node, _ => bind (stepDown g key node) fun child _ _ => descend steps child

theorem nodeAt : Traces Tree.pool stores frees (Tree.nodeAt key level) t := by
  refine bind_get ?_
  cases t.root with
  | none => exact throw _
  | some root => exact bind_get (bind_get (onNodes (descend _ key _ root)))

theorem tryPlace (value : Word) : Traces Tree.pool stores frees (Tree.tryPlace key value level) t := by
  refine bind (nodeAt key level) fun node _ _ => bind_get (onNodes (bind_read fun n hn => bind_lift fun pos _ =>
    bind_lift fun fill _ => bind_lift fun holds _ => ite (fun _ => ?_) fun _ => ite (fun _ => pure _) fun _ =>
    bind_lift fun n' hn' => bind (write hn (Node.sameMarks_insertPair hn')) fun _ _ _ =>
    ite_bind (fun _ => invalidate) fun _ => pure _))
  exact guard fun _ => pure _

theorem addLevel : Traces Tree.pool stores frees (Tree.addLevel : TreeM w (Except Error Unit)) t := by
  refine bind (onNodes allocate) fun answer _ _ => ?_
  cases answer with
  | error => exact pure _
  | ok top =>
    refine bind_get ?_
    extract_lets finish
    have hfinish : ∀ u t', Traces Tree.pool stores frees (finish u) t' := fun _ _ =>
      bind (modifies rfl) fun _ _ _ => bind_get (bind (report rfl) fun _ _ _ => pure _)
    split
    · rename_i old _
      refine bind_get (bind (onNodes (bind_read fun _ _ => bind_lift fun _ _ => ?_)) fun _ _ _ => hfinish () _)
      exact guard fun _ => bind_lift fun _ _ => update fun _ _ h => Node.sameMarks_writePair h
    · exact hfinish () _

/-- The node that is split is written after its sibling, so it is as it was read. -/
theorem moveHalf (node sibling : Handle) (half : Nat) :
    Traces id stores frees (Tree.moveHalf g node sibling half level) p := by
  refine bind_read fun n hn => bind_lift fun moved _ =>
    bind (update fun _ _ h => Node.sameMarks_writePairs h) fun _ q he =>
    bind_lift fun n' hn' => ?_
  obtain ⟨b, b', hb, hb', rfl⟩ := he.update
  have hsame := Node.sameMarks_dropPairs hn'
  have hwrite : Traces id stores frees (Pool.write node n' : NodeM Unit) (p.put sibling b') := by
    by_cases hns : node = sibling
    · subst hns
      obtain rfl := Except.ok.inj (hn.symm.trans hb)
      have hb'' := Node.sameMarks_writePairs hb'
      exact write (block_put_self hb) ⟨hsame.1.trans hb''.1.symm, hsame.2.trans hb''.2.symm⟩
    · exact write ((block_put_ne hns).trans hn) hsame
  exact bind hwrite fun _ _ _ => ite_bind (fun _ => invalidate) fun _ => report rfl

theorem split {link : Words → Word → Nat → TreeM w (Except Error Unit)}
    (hlink : ∀ k v l t, Traces Tree.pool stores frees (link k v l) t) (node : Handle) :
    Traces Tree.pool stores frees (Tree.split link node level) t := by
  refine bind_get (bind (onNodes allocate) fun answer _ _ => ?_)
  cases answer with
  | error => exact pure _
  | ok sibling =>
    refine guard fun _ => bind (onNodes (bind_read fun _ _ => lift _)) fun separator _ _ =>
      bind (hlink _ _ _ _) fun linked _ _ => ?_
    cases linked with
    | error => exact bind (onNodes release) fun _ _ _ => pure _
    | ok => exact bind (onNodes (moveHalf _ level node sibling _)) fun _ _ _ => pure _

theorem addAt : ∀ (rungs : Nat) (key : Words) (value : Word) (level : Nat) (t : Tree w),
    Traces Tree.pool stores frees (Tree.addAt rungs key value level) t
  | 0, _, _, _, _ => throw _
  | rungs + 1, key, value, level, _ => by
    refine bind_get (ite (fun _ => bind addLevel fun result _ _ => ?_) fun _ => ?_)
    rcases result with _ | _
    case error => exact pure _
    -- With a new level, and without one, the pair is placed.
    all_goals
      refine bind (tryPlace key level value) fun attempt _ _ => ?_
      cases attempt with
      | placed => exact pure _
      | taken => exact pure _
      | full node =>
        refine bind (split level (fun k v l => addAt rungs k v l) node) fun result _ _ => ?_
        cases result with
        | error => exact pure _
        | ok =>
          refine bind (tryPlace key level value) fun attempt _ _ => ?_
          cases attempt with
          | placed => exact pure _
          | taken => exact pure _
          | full => exact throw _

/-- An insertion is traced, and neither stores memos nor frees nodes. -/
theorem insert (k : Key w) (v : Value) : Traces Tree.pool stores frees (Tree.insert k v) t := by
  refine bind_get (bind (addAt _ _ _ 1 _) fun result _ _ => bind_get (bind (tellTimer _ _) fun _ _ _ => ?_))
  cases result with
  | error => exact pure _
  | ok => exact bind (modifies rfl) fun _ _ _ => pure _

end Trees
end Traces
end MemoTree
