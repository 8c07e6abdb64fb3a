import MemoTree.Proofs.Deferrals
import MemoTree.Proofs.Ownership
import MemoTree.Proofs.RingCoherence

/-! # Deferred returns are completed once

Operations lead from a new tree to others, and all that they report of it is kept. A merge that moves entries inserts
them into the one tree and removes them from the other; what it reports is told apart accordingly. A merge that
exchanges the pools of the trees is left out. Then the deferrals and completions of every node alternate, a node is
not handed out while it waits, and those that wait are the blocks that are out and are no nodes of the tree. -/

namespace MemoTree
open Pool NodePool

/-! ### What operations report -/

/-- An operation leads from `t`, of which `j` was reported, to another tree, of which more was. -/
inductive Tree.Reports {w : Width} (t : Tree w) (j : Journal) : Tree w → Journal → Prop
  | insert {k v result t' j'} : Tree.insert k v t j = .ok ((result, t'), j') → Reports t j t' j'
  | update {k v result t' j'} : Tree.update k v t j = .ok ((result, t'), j') → Reports t j t' j'
  | lookup {k result t' j'} : Tree.lookup k t j = .ok ((result, t'), j') → Reports t j t' j'
  | remove {k result t' j'} : Tree.remove k t j = .ok ((result, t'), j') → Reports t j t' j'
  | visit {order seen t' j'} : Tree.visit order t j = .ok ((seen, t'), j') → Reports t j t' j'
  | drain {order seen t' j'} : Tree.drain order t j = .ok ((seen, t'), j') → Reports t j t' j'
  | hooks (hooks : Hooks) : Reports t j { t with hooks := hooks } j

/-- Entries are moved from `v` to `t`, `count` of them were before. The insertions report `mine` and the removals
`theirs`, together `both`. -/
inductive Tree.Apart {w : Width} : (count : Nat) → (t v t' v' : Tree w) → (mine theirs both : Journal) → Prop
  | done {count t v} : v.last = .ok none → Apart count t v t v #[.event (.merged count)] #[] #[.event (.merged count)]
  | refused {count t v k x e t' mine} : v.last = .ok (some (k, x)) →
      Tree.insert k x t #[] = .ok ((.error e, t'), mine) → Apart count t v t' v mine #[] mine
  | moved {count t v k x y t₁ v₁ t' v' mine theirs mine' theirs' both} : v.last = .ok (some (k, x)) →
      Tree.insert k x t #[] = .ok ((.ok (), t₁), mine) → Tree.remove k v #[] = .ok ((y, v₁), theirs) →
      Apart (count + 1) t₁ v₁ t' v' mine' theirs' both →
      Apart count t v t' v' (mine ++ mine') (theirs ++ theirs') (mine ++ theirs ++ both)

/-- Operations lead from a new tree to this one, and `j` is what they reported of it. -/
inductive Tree.Logged {w : Width} : Tree w → Journal → Prop
  | empty : Logged Tree.empty #[]
  | ofConfig {c t} : Tree.ofConfig c = .ok (.ok t) → Logged t #[]
  | step {t j t' j'} : Logged t j → Tree.Reports t j t' j' → Logged t' j'
  | target {t v result t' v' j mine theirs both} : Logged t j → Reachable v → t.root ≠ none →
      Tree.merge t v #[] = .ok ((result, t', v'), both) → Apart 0 t v t' v' mine theirs both → Logged t' (j ++ mine)
  | victim {t v result t' v' j mine theirs both} : Reachable t → Logged v j → t.root ≠ none →
      Tree.merge t v #[] = .ok ((result, t', v'), both) → Apart 0 t v t' v' mine theirs both → Logged v' (j ++ theirs)

/-- What became of the blocks of a pool between two operations: all that was reported of nodes that wait, and which
blocks were handed out in between. -/
structure Pool.Chronicle (p : NodePool) (j : Journal) (phases : List Phase) : Prop where
  /-- The phases are those that the changes of the pool go through. -/
  changes : ∃ blockWords limit, Acts True True (Pool.empty blockWords limit) phases p
  reported : phases.filter Phase.reported = j.phases
  lent : phases.countP Phase.isLent = p.allocated
  alternate : ∀ h, ∃ waiting, Phase.Alternate h phases waiting
  /-- Between a deferral and its completion a block is neither handed out nor deferred nor completed. -/
  paired : ∀ past h rest, phases = past ++ .completed h :: rest → ∃ before refs since,
    past = before ++ .deferred h refs :: since ∧ ∀ phase ∈ since, phase.handle ≠ h

/-- Every deferred return is reported and completed once. The nodes whose last deferral was not completed are those
that wait for memos. -/
structure Tree.Completes {w : Width} (t : Tree w) (j : Journal) : Prop where
  chronicle : ∃ phases, t.pool.Chronicle j phases
  alternate : ∀ h, ∃ waiting, Phase.Alternate h j.phases waiting
  refs : ∀ h refs, .deferred h refs ∈ j.phases → 1 ≤ refs ∧ refs ≤ 4
  waiting : ∀ h, Phase.Alternate h j.phases true ↔ t.Deferred h
  count : ∃ nodes out : Nat, t.nodeCount = .ok nodes ∧ t.pool.outstanding = .ok out ∧ nodes ≤ out ∧
    {h | Phase.Alternate h j.phases true}.encard = (out - nodes : Nat)

/-! ### Operations on whole trees -/

/-- What was reported since `j` are the deferrals and completions that lead from `p` to `p'`, and no node was named by
more than four memos when its return was deferred. -/
def Conducts (p : NodePool) (j : Journal) (p' : NodePool) (j' : Journal) : Prop :=
  ∃ phases, Acts True True p phases p' ∧ j'.phases = j.phases ++ phases.filter Phase.reported ∧
    ∀ h refs, .deferred h refs ∈ phases → 1 ≤ refs ∧ refs ≤ 4

namespace Conducts
variable {p q p' : NodePool} {j j₁ j' said : Journal}

theorem refl (p : NodePool) (j : Journal) : Conducts p j p j :=
  ⟨[], .nil, (List.append_nil _).symm, fun _ _ h => (by cases h)⟩

theorem trans (h₁ : Conducts p j q j₁) (h₂ : Conducts q j₁ p' j') : Conducts p j p' j' := by
  obtain ⟨phases, hacts, hsaid, hrefs⟩ := h₁
  obtain ⟨phases', hacts', hsaid', hrefs'⟩ := h₂
  refine ⟨phases ++ phases', hacts.trans hacts', ?_, fun h refs hmem => ?_⟩
  · rw [hsaid', hsaid, List.filter_append, List.append_assoc]
  · exact (List.mem_append.mp hmem).elim (hrefs h refs) (hrefs' h refs)

/-- What was reported before does not matter. -/
theorem later (h : Conducts p #[] p' said) (j : Journal) : Conducts p j p' (j ++ said) := by
  obtain ⟨phases, hacts, hsaid, hrefs⟩ := h
  exact ⟨phases, hacts, by rw [Journal.phases_append, hsaid]; rfl, hrefs⟩

theorem append {said' : Journal} (h₁ : Conducts p #[] q said) (h₂ : Conducts q #[] p' said') :
    Conducts p #[] p' (said ++ said') :=
  h₁.trans (h₂.later said)

end Conducts

section Trees
variable {w : Width} {α : Type} {t v t' v' : Tree w} {row vrow : Row} {j j' mine theirs both : Journal}
    {m : TreeM w α} {a : α}

/-- What frees no node defers nothing. -/
theorem conducts_storing (ht : Traces Tree.pool True False m t) (hok : m t j = .ok ((a, t'), j')) :
    Conducts t.pool j t'.pool j' := by
  obtain ⟨phases, hacts, hsaid⟩ := ht _ _ _ _ hok
  exact ⟨phases, hacts.mono id (fun h => h.elim), hsaid, fun _ _ hmem => (hacts.frees_of_deferred hmem).elim⟩

namespace Whole

/-- What stores no memo frees nodes that are named by the memos of a whole tree, by four at most. -/
theorem conducts_freeing (hw : Whole t row) (ht : Traces Tree.pool False True m t) (hok : m t j = .ok ((a, t'), j')) :
    Conducts t.pool j t'.pool j' := by
  obtain ⟨phases, hacts, hsaid⟩ := ht _ _ _ _ hok
  exact ⟨phases, hacts.mono (fun _ => trivial) id, hsaid, hacts.refs_le id fun _ _ hn => hw.refs_le hn⟩

theorem conducts_insert {k : Key w} {x : Value} {result : Except Error Unit} (hw : Whole t row)
    (hok : Tree.insert k x t j = .ok ((result, t'), j')) : Conducts t.pool j t'.pool j' :=
  hw.conducts_freeing (.insert k x) hok

theorem conducts_remove {k : Key w} {result : Option Value} (hw : Whole t row)
    (hok : Tree.remove k t j = .ok ((result, t'), j')) : Conducts t.pool j t'.pool j' :=
  hw.conducts_freeing (hw.traces_remove k) hok

/-- Every operation reports what it does to the nodes that wait. -/
theorem conducts_step (hw : Whole t row) (h : Tree.Reports t j t' j') :
    (∃ row', Whole t' row') ∧ Conducts t.pool j t'.pool j' := by
  cases h with
  | insert h => exact ⟨hw.step (.insert h), hw.conducts_insert h⟩
  | update h => exact ⟨hw.step (.update h), conducts_storing (hw.traces_update _ _) h⟩
  | lookup h => exact ⟨hw.step (.lookup h), conducts_storing (hw.traces_lookup _) h⟩
  | remove h => exact ⟨hw.step (.remove h), hw.conducts_remove h⟩
  | visit h => exact ⟨hw.step (.visit h), hw.conducts_freeing (.visit _) h⟩
  | drain h => exact ⟨hw.step (.drain h), hw.conducts_freeing (hw.traces_drain _) h⟩
  | hooks hooks => exact ⟨⟨_, hw.of_eq rfl rfl rfl rfl rfl⟩, .refl _ _⟩

/-- A merge that moves entries reports what it does to the nodes of either tree. -/
theorem conducts_apart {count : Nat} (h : Tree.Apart count t v t' v' mine theirs both) (hw : Whole t row)
    (hv : Whole v vrow) :
    ((∃ row', Whole t' row') ∧ Conducts t.pool #[] t'.pool mine) ∧
    ((∃ vrow', Whole v' vrow') ∧ Conducts v.pool #[] v'.pool theirs) := by
  induction h generalizing row vrow with
  | done => exact ⟨⟨⟨_, hw⟩, [], .nil, rfl, fun _ _ h => (by cases h)⟩, ⟨_, hv⟩, .refl _ _⟩
  | refused _ hinsert => exact ⟨⟨hw.step (.insert hinsert), hw.conducts_insert hinsert⟩, ⟨_, hv⟩, .refl _ _⟩
  | moved _ hinsert hremove _ ih =>
    obtain ⟨_, hw₁⟩ := hw.step (.insert hinsert)
    obtain ⟨_, hv₁⟩ := hv.step (.remove hremove)
    obtain ⟨⟨hw', hmine⟩, hv', htheirs⟩ := ih hw₁ hv₁
    exact ⟨⟨hw', (hw.conducts_insert hinsert).append hmine⟩, hv', (hv.conducts_remove hremove).append htheirs⟩

/-- The nodes that wait are the deferred ones. -/
theorem waits_iff {h : Handle} (hw : Whole t row) : t.pool.waits h = true ↔ t.Deferred h := by
  rw [waits]
  constructor
  · intro hwaits
    split at hwaits
    · rename_i n hn
      obtain ⟨hdel, hrefs⟩ := Bool.and_eq_true_iff.mp hwaits
      exact ⟨hw.not_linked hn hdel, n, hn, hdel, Nat.pos_of_ne_zero (bne_iff_ne.mp hrefs)⟩
    · cases hwaits
  · rintro ⟨-, n, hn, hdel, hrefs⟩
    rw [hn]
    exact Bool.and_eq_true_iff.mpr ⟨hdel, bne_iff_ne.mpr (Nat.ne_of_gt hrefs)⟩

theorem completes_of_conducts {blockWords : Nat} {limit : Option Nat} (hw : Whole t row)
    (hc : Conducts (Pool.empty blockWords limit) #[] t.pool j) : t.Completes j := by
  obtain ⟨phases, hacts, hsaid, hrefs⟩ := hc
  have hreported : phases.filter Phase.reported = j.phases := by rw [hsaid]; rfl
  have halternate : ∀ h, Phase.Alternate h phases (t.pool.waits h) := hacts.next
  have hjournal : ∀ h, Phase.Alternate h j.phases (t.pool.waits h) := fun h => hreported ▸ (halternate h).reported
  have hwaiting : ∀ h, Phase.Alternate h j.phases true ↔ t.Deferred h := fun h => by
    rw [← hw.waits_iff]
    exact ⟨fun ha => Option.some.inj ((hjournal h).symm.trans ha), fun hh => hh ▸ hjournal h⟩
  refine ⟨⟨phases, ⟨_, _, hacts⟩, hreported, ?_, fun h => ⟨_, halternate h⟩, ?_⟩, fun h => ⟨_, hjournal h⟩,
    fun h refs hmem => ?_, hwaiting, ?_⟩
  · exact (Nat.zero_add _).symm.trans hacts.counts.symm
  · rintro past h rest rfl
    exact (halternate h).of_completed
  · rw [← hreported] at hmem
    exact hrefs h refs (List.mem_filter.mp hmem).1
  · obtain ⟨nodes, deferred, hnodes, hdeferred, hout⟩ := hw.out_eq
    refine ⟨nodes, nodes + deferred, hnodes, hout, Nat.le_add_right _ _, ?_⟩
    simp only [hwaiting]
    rw [hdeferred, Nat.add_sub_cancel_left]

end Whole

/-! ### Merges -/

/-- What a run reports does not depend on what was reported before. -/
theorem Runs.said {σ α : Type} {m : StateT σ Journaled α} {s s₁ s' : σ} {a b : α} (h : Runs m s b s₁)
    (hok : m s j = .ok ((a, s'), j')) : ∃ said, m s #[] = .ok ((a, s'), said) ∧ j' = j ++ said := by
  obtain ⟨said, h⟩ := h
  rw [h] at hok
  cases hok
  exact ⟨said, by rw [h, Array.empty_append], rfl⟩

theorem Whole.said_insert {k : Key w} {x : Value} {result : Except Error Unit} (hw : Whole t row)
    (hok : Tree.insert k x t j = .ok ((result, t'), j')) :
    ∃ said, Tree.insert k x t #[] = .ok ((result, t'), said) ∧ j' = j ++ said := by
  rcases hw.insert k x with ⟨-, _, hrun, -⟩ | ⟨-, ⟨_, hrun, -⟩ | ⟨_, _, hrun, -⟩ | ⟨-, hfault⟩⟩
  · exact hrun.said hok
  · exact hrun.said hok
  · exact hrun.said hok
  · rw [hfault] at hok
    cases hok

theorem Whole.said_remove {k : Key w} {result : Option Value} (hw : Whole t row)
    (hok : Tree.remove k t j = .ok ((result, t'), j')) :
    ∃ said, Tree.remove k t #[] = .ok ((result, t'), said) ∧ j' = j ++ said := by
  rcases hw.remove k with ⟨-, _, hrun, -⟩ | ⟨_, -, _, _, hrun, -⟩
  · exact hrun.said hok
  · exact hrun.said hok

/-- What is reported while entries are moved is what the insertions and the removals report. -/
theorem apart_of_moveEntries {result : Except Error Unit} (left : Nat) :
    ∀ {count : Nat} {t v : Tree w} {row vrow : Row} {j : Journal}, Whole t row → Whole v vrow →
    Tree.moveEntries left count t v j = .ok ((result, t', v'), j') →
    ∃ mine theirs both, Tree.Apart count t v t' v' mine theirs both ∧ j' = j ++ both := by
  -- `left` is looked at after the removal only, so the step is the same for every value of it
  induction left using Nat.strong_induction_on with
  | _ left ih =>
    intro count t v row vrow j hw hv h
    rw [Tree.moveEntries] at h
    obtain ⟨⟨found, j₁⟩, hlast, h⟩ := Fault.of_bind h
    obtain ⟨hfound, rfl⟩ : v.last = .ok found ∧ j₁ = j := by
      cases hv : v.last <;> (rw [hv] at hlast; cases hlast)
      exact ⟨rfl, rfl⟩
    cases found with
    | none =>
      cases h
      exact ⟨_, _, _, .done hfound, Array.push_eq_append⟩
    | some e =>
      obtain ⟨⟨⟨inserted, t₁⟩, j₂⟩, hinsert, h⟩ := Fault.of_bind h
      obtain ⟨mine, hmine, rfl⟩ := hw.said_insert hinsert
      obtain ⟨_, hw₁⟩ := hw.step (.insert hinsert)
      cases inserted with
      | error e =>
        cases e <;> (cases h; exact ⟨_, _, _, .refused hfound hmine, rfl⟩)
      | ok =>
        obtain ⟨⟨⟨removed, v₁⟩, j₃⟩, hremove, h⟩ := Fault.of_bind h
        obtain ⟨theirs, htheirs, rfl⟩ := hv.said_remove hremove
        obtain ⟨_, hv₁⟩ := hv.step (.remove hremove)
        cases left with
        | zero => cases h
        | succ left =>
          obtain ⟨_, _, both, hapart, rfl⟩ := ih left (Nat.lt_succ_self left) hw₁ hv₁ h
          exact ⟨_, _, _, .moved hfound hmine htheirs hapart, by
            rw [Array.append_assoc, Array.append_assoc, Array.append_assoc]⟩

/-- What a merge reports is what its insertions and its removals report, if it does not exchange the pools. -/
theorem Tree.Reachable.merge_apart {result : Except Error Unit} (ht : t.Reachable) (hv : v.Reachable)
    (hroot : t.root ≠ none) (h : Tree.merge t v j = .ok ((result, t', v'), j')) :
    ∃ mine theirs both, Tree.Apart 0 t v t' v' mine theirs both ∧ j' = j ++ both := by
  obtain ⟨_, hw⟩ := ht.whole
  obtain ⟨_, hv⟩ := hv.whole
  rw [Tree.merge] at h
  split at h
  · exact absurd (Option.isNone_iff_eq_none.mp ‹_›) hroot
  · exact apart_of_moveEntries _ hw hv h

/-! ### Runs of operations -/

namespace Tree

theorem Logged.conducts (h : t.Logged j) :
    ∃ row blockWords limit, Whole t row ∧ Conducts (Pool.empty blockWords limit) #[] t.pool j := by
  induction h with
  | empty => exact ⟨_, _, _, Whole.empty w, .refl _ _⟩
  | ofConfig h =>
    have hw := Whole.ofConfig h
    obtain ⟨_, _, -, rfl⟩ := Tree.of_ofConfig h
    exact ⟨_, _, _, hw, .refl _ _⟩
  | step _ hs ih =>
    obtain ⟨_, _, _, hw, hc⟩ := ih
    obtain ⟨⟨_, hw'⟩, hc'⟩ := hw.conducts_step hs
    exact ⟨_, _, _, hw', hc.trans hc'⟩
  | target _ hv _ _ hapart ih =>
    obtain ⟨_, _, _, hw, hc⟩ := ih
    obtain ⟨_, hv⟩ := hv.whole
    obtain ⟨⟨⟨_, hw'⟩, hmine⟩, -⟩ := hw.conducts_apart hapart hv
    exact ⟨_, _, _, hw', hc.trans (hmine.later _)⟩
  | victim ht _ _ _ hapart ih =>
    obtain ⟨_, _, _, hv, hc⟩ := ih
    obtain ⟨_, hw⟩ := ht.whole
    obtain ⟨-, ⟨_, hv'⟩, htheirs⟩ := hw.conducts_apart hapart hv
    exact ⟨_, _, _, hv', hc.trans (htheirs.later _)⟩

/-- Whatever is done to a tree from when it was new, every deferred return is reported and completed once. -/
theorem Logged.completes (h : t.Logged j) : t.Completes j := by
  obtain ⟨_, _, _, hw, hc⟩ := h.conducts
  exact hw.completes_of_conducts hc

end Tree
end Trees

/-! ### A run that defers and completes -/

/-- The tree that an operation leads to and what was reported of it then; a fault leads nowhere. -/
def Tree.logAfter {w : Width} {α : Type} (run : Tree w × Journal) (m : TreeM w α) : Tree w × Journal :=
  match m run.1 run.2 with
  | .ok ((_, t'), j') => (t', j')
  | .error _ => run

theorem Tree.Logged.after {w : Width} {α : Type} {run : Tree w × Journal} {m : TreeM w α} (h : run.1.Logged run.2)
    (hstep : ∀ {a t' j'}, m run.1 run.2 = .ok ((a, t'), j') → run.1.Reports run.2 t' j') :
    (logAfter run m).1.Logged (logAfter run m).2 := by
  unfold logAfter
  split
  · exact h.step (hstep ‹_›)
  · exact h

/-- The calls behind the worn tree, and an insertion that splits a leaf beside the one that was removed. The node
above gets another slot, and forgets its memo of the removed leaf. -/
def Tree.forgetful : Tree .bits64 × Journal :=
  let new : Tree .bits64 × Journal := (.onPool (.empty (⟨1, 2⟩ : Geometry).blockWords none) 2 true, #[])
  let pair := logAfter (logAfter new (Tree.insert (Key.ofNat _ 1) .one)) (Tree.insert (Key.ofNat _ 2) .one)
  let full := logAfter (logAfter pair (Tree.insert (Key.ofNat _ 3) .one)) (Tree.insert (Key.ofNat _ 4) .one)
  logAfter (logAfter (logAfter full (Tree.lookup (Key.ofNat _ 2))) (Tree.remove (Key.ofNat _ 2)))
  (Tree.insert (Key.ofNat _ 5) .one)

/-- The removal defers the return of a leaf, and the last insertion completes it. -/
theorem Tree.completes_of_forgetful : forgetful.1.Logged forgetful.2 ∧ forgetful.1.Completes forgetful.2 ∧
    forgetful.2.phases = [.deferred ⟨1, by decide⟩ 1, .completed ⟨1, by decide⟩] := by
  have hlogged : forgetful.1.Logged forgetful.2 := by
    unfold forgetful
    refine Logged.after (Logged.after (Logged.after (Logged.after (Logged.after (Logged.after (Logged.after
      (.ofConfig (c := { pairs := some 2 }) rfl) ?_) ?_) ?_) ?_) ?_) ?_) ?_
    · exact .insert
    · exact .insert
    · exact .insert
    · exact .insert
    · exact .lookup
    · exact .remove
    · exact .insert
  exact ⟨hlogged, hlogged.completes, by decide +kernel⟩

end MemoTree
