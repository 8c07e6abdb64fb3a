import MemoTree.Proofs.Ownership
import MemoTree.Proofs.Refinement
import MemoTree.Proofs.Validation

/-! # A merge conserves the entries

Seen as maps, a merge moves the entries of the victim above some key into the tree and leaves the others where they are.
No entry is lost or made twice, however the merge ends. -/

namespace MemoTree
open Pool NodePool Rows

/-- `M`, and the entries of `N` with keys above `d`. -/
def Tree.withAbove {w : Width} (M N : Key w → Option Value) (d : Key w) : Key w → Option Value :=
  fun k => if d < k then (M k).or (N k) else M k

/-- The entries of `N` with keys of at most `d`. -/
def Tree.upTo {w : Width} (N : Key w → Option Value) (d : Key w) : Key w → Option Value :=
  fun k => if d < k then none else N k

/-- How a merge of trees that hold `M` and `N` may end, and what they hold then. Either every entry of `N` is moved, or
those above a key of `N` are, of which none has a key of `M`. That key is the largest one that both trees hold, or there
is no block for it. -/
inductive Tree.Moves {w : Width} (M N : Key w → Option Value) :
    Except Error Unit → (Key w → Option Value) → (Key w → Option Value) → Prop
  | all : (∀ k, M k = none ∨ N k = none) → Moves M N (.ok ()) (fun k => (M k).or (N k)) fun _ => none
  | shared {d : Key w} : M d ≠ none → N d ≠ none → (∀ k, d < k → M k = none ∨ N k = none) →
      Moves M N (.error (.violated (.sharedKey d.val))) (withAbove M N d) (upTo N d)
  | exhausted {d : Key w} {n : Nat} : M d = none → N d ≠ none → (∀ k, d < k → M k = none ∨ N k = none) →
      Moves M N (.error (.outOfMemory n)) (withAbove M N d) (upTo N d)

/-- What a merge of `t` and `v`, which hold `M` and `N`, answers, and what becomes of them. A tree without entries takes
over all of the victim but its switch for the memo rings and its hooks, and the victim gets what the tree had. A victim
from which every entry was moved has no blocks out. -/
structure Tree.Merges {w : Width} (t v : Tree w) (M N : Key w → Option Value) (result : Except Error Unit)
    (t' v' : Tree w) : Prop where
  moves : ∃ M' N', Tree.Moves M N result M' N' ∧ t'.Stores M' ∧ v'.Stores N'
  valid : t'.validate = .ok (.ok ()) ∧ v'.validate = .ok (.ok ())
  adopted : t.root = none → result = .ok () ∧ t'.Stores N ∧ v'.Stores (fun _ => none) ∧
    t' = { v with memoize := t.memoize, hooks := t.hooks } ∧ v' = { t with memoize := v.memoize, hooks := v.hooks }
  returned : result = .ok () → v'.pool.outstanding = .ok 0

section Maps
variable {w : Width} {t v : Tree w} {M N : Key w → Option Value} {row vrow moved rest : Row}

/-- The maps of two trees between which entries were moved. -/
theorem Row.Moved.represents (h : Row.Moved row vrow moved rest) (hM : row.Represents M) (hN : vrow.Represents N)
    {P : Key w → Prop} [DecidablePred P] (hmoved : ∀ e ∈ moved, ∀ k : Key w, k.val = e.1 → P k)
    (hrest : ∀ e ∈ rest, ∀ k : Key w, k.val = e.1 → ¬P k) :
    Row.Represents (moved ++ row) (fun k => if P k then (M k).or (N k) else M k) ∧
      rest.Represents fun k => if P k then none else N k := by
  have hN' : ∀ k v, N k = some v ↔ (k.val, v.val) ∈ moved ∨ (k.val, v.val) ∈ rest := fun k v => by
    rw [hN k v, h.split.mem_iff, List.mem_append]
  refine ⟨fun k v => ?_, fun k v => ?_⟩
  · show (if P k then (M k).or (N k) else M k) = some v ↔ _
    rw [List.mem_append, ← hM k v]
    by_cases hk : P k
    · rw [if_pos hk, Option.or_eq_some_iff, hN']
      have hnew : (k.val, v.val) ∈ moved → M k = none := fun hmem => hM.eq_none (h.fresh _ hmem)
      have hnot : (k.val, v.val) ∉ rest := fun hmem => hrest _ hmem k rfl hk
      tauto
    · rw [if_neg hk]
      exact ⟨Or.inr, fun hmem => hmem.resolve_left fun hmem => hk (hmoved _ hmem k rfl)⟩
  · show (if P k then none else N k) = some v ↔ _
    by_cases hk : P k
    · rw [if_pos hk]
      exact ⟨fun hv => (by cases hv), fun hmem => absurd hk (hrest _ hmem k rfl)⟩
    · rw [if_neg hk, hN']
      exact ⟨fun hv => hv.resolve_left fun hmem => hk (hmoved _ hmem k rfl), Or.inr⟩

/-- No moved key is a key of both maps. -/
theorem Row.Moved.disjoint (h : Row.Moved row vrow moved rest) (hM : row.Represents M)
    (hN : vrow.Represents N) {k : Key w} (hrest : ∀ e ∈ rest, e.1 ≠ k.val) : M k = none ∨ N k = none := by
  cases hv : N k with
  | none => exact Or.inr rfl
  | some v =>
    have hmem := h.split.mem_iff.mp ((hN k v).mp hv)
    exact Or.inl (hM.eq_none (h.fresh _ ((List.mem_append.mp hmem).resolve_right fun hr => hrest _ hr rfl)))

/-- The maps after a merge. -/
theorem Row.Stops.moves {result : Except Error Unit} (hstop : Row.Stops row rest result)
    (h : Row.Moved row vrow moved rest)
    (hw : Whole t row) (hv : Whole v vrow) (hM : row.Represents M) (hN : vrow.Represents N) :
    ∃ M' N', Tree.Moves M N result M' N' ∧ Row.Represents (moved ++ row) M' ∧ rest.Represents N' := by
  have hin : ∀ e ∈ rest, e ∈ vrow := fun e he => h.split.mem_iff.mpr (List.mem_append_right moved he)
  -- the moved entries are those above the key at which the merge stopped
  have hcut : ∀ {e : Pair} (he : e ∈ rest), (∀ a ∈ rest, a.1 ≤ e.1) →
      (∀ k : Key w, (⟨e.1, hv.small (hin e he)⟩ : Key w) < k → M k = none ∨ N k = none) ∧
      Row.Represents (moved ++ row) (Tree.withAbove M N ⟨e.1, hv.small (hin e he)⟩) ∧
      rest.Represents (Tree.upTo N ⟨e.1, hv.small (hin e he)⟩) := fun {e} he hmax => by
    refine ⟨fun k hk => h.disjoint hM hN fun a ha hak => ?_, h.represents hM hN
      (P := fun k => (⟨e.1, hv.small (hin e he)⟩ : Key w) < k) (fun a ha k hk => ?_) fun a ha k hk => ?_⟩
    · exact Nat.not_le.mpr hk (hak ▸ hmax a ha)
    · exact Fin.lt_def.mpr (hk ▸ h.above a ha e he)
    · exact fun hlt => Nat.not_le.mpr (Fin.lt_def.mp hlt) (hk ▸ hmax a ha)
  have hused : ∀ {e : Pair} (he : e ∈ rest), N ⟨e.1, hv.small (hin e he)⟩ ≠ none := fun {e} he hnone =>
    hN.ne_of_none (fun a ha => hv.used ha) hnone e (hin e he) rfl
  cases hstop with
  | empty hnil =>
    subst hnil
    obtain ⟨hrow, hvrow⟩ := h.represents hM hN (P := fun _ => True) (fun _ _ _ _ => trivial) fun _ he => (by cases he)
    simp only [if_true] at hrow hvrow
    exact ⟨_, _, .all fun k => h.disjoint hM hN fun _ he => (by cases he), hrow, hvrow⟩
  | shared he hmax hshared =>
    obtain ⟨a, ha, hae⟩ := hshared
    obtain ⟨habove, hrow, hrest⟩ := hcut he hmax
    exact ⟨_, _, .shared (fun hnone => hM.ne_of_none (fun b hb => hw.used hb) hnone a ha hae) (hused he) habove,
      hrow, hrest⟩
  | full he hmax hne =>
    obtain ⟨habove, hrow, hrest⟩ := hcut he hmax
    exact ⟨_, _, .exhausted (hM.eq_none hne) (hused he) habove, hrow, hrest⟩

/-- A tree without entries has no blocks out. -/
theorem Whole.outstanding_nil (hw : Whole t []) : t.pool.outstanding = .ok 0 := by
  obtain ⟨nodes, deferred, hnodes, hdeferred, hout⟩ := hw.out_eq
  rw [hw.bare.nodeCount] at hnodes
  cases hnodes
  have hnone : {h | t.Deferred h} = ∅ := Set.eq_empty_of_forall_notMem fun h hh => by
    obtain ⟨-, p, ⟨d, ⟨_, _, ha⟩, -⟩, -⟩ := hw.deferred_iff.mp hh
    exact hw.bare.not_at ha
  rw [hnone, Set.encard_empty] at hdeferred
  obtain rfl : deferred = 0 := by exact_mod_cast hdeferred.symm
  exact hout

theorem Whole.conserves (hw : Whole t row) (hv : Whole v vrow) (hM : row.Represents M) (hN : vrow.Represents N) :
    ∃ result t' v', Says (Tree.merge t v) (result, t', v') ∧ t.Merges v M N result t' v' := by
  obtain ⟨result, t', v', moved, rest, hmerge, hw', hv', hmoved, hstop⟩ := hw.merge hv
  obtain ⟨M', N', hmoves, hM', hN'⟩ := hstop.moves hmoved hw hv hM hN
  refine ⟨result, t', v', hmerge, ⟨M', N', hmoves, hw'.stores hM', hv'.stores hN'⟩, ⟨hw'.validate, hv'.validate⟩,
    fun hempty => ?_, fun hok => ?_⟩
  · obtain ⟨said, hsaid⟩ := hmerge
    obtain ⟨hresult, ht', hv'eq⟩ := Prod.mk.inj ((merge_empty hempty).of_ok (hsaid #[])) |>.imp id Prod.mk.inj
    have hnil := hw.isEmpty_iff.mp (Option.isNone_iff_eq_none.mpr hempty)
    subst hresult ht' hv'eq
    have hvrow : Whole ({ v with memoize := t.memoize, hooks := t.hooks } : Tree w) vrow := hv.of_eq rfl rfl rfl rfl rfl
    have hrow : Whole ({ t with memoize := v.memoize, hooks := v.hooks } : Tree w) row := hw.of_eq rfl rfl rfl rfl rfl
    exact ⟨rfl, hvrow.stores hN, hrow.stores (hnil ▸ fun k v => ⟨fun h => (by cases h), fun h => (by cases h)⟩), rfl,
      rfl⟩
  · subst hok
    cases hstop with
    | empty hnil => exact (hnil ▸ hv').outstanding_nil

/-- A merge of two reachable trees ends without a fault and conserves their entries. -/
theorem Tree.Reachable.merges (ht : t.Reachable) (hv : v.Reachable) (hM : t.Denotes M) (hN : v.Denotes N) :
    ∃ result t' v', Says (Tree.merge t v) (result, t', v') ∧ t.Merges v M N result t' v' := by
  obtain ⟨row, hw⟩ := ht.whole
  obtain ⟨vrow, hv⟩ := hv.whole
  exact hw.conserves hv (hw.denotes_iff.mp hM) (hv.denotes_iff.mp hN)

end Maps

/-- The forked tree, with four slots in a node, takes every entry of the worn tree, whose nodes have two. The cramped
tree takes the entry 50 of the forked tree, and then the merge stops at the key 40, which both hold. -/
theorem merges_of_forked : ∃ L M N, Tree.cramped.Denotes L ∧ Tree.forked.Denotes M ∧ Tree.worn.Denotes N ∧
    (M 4 = none ∧ N 4 = some .one ∧ ∃ t' v', Says (Tree.merge Tree.forked Tree.worn) (.ok (), t', v') ∧
      Tree.forked.Merges Tree.worn M N (.ok ()) t' v' ∧ t'.Stores (fun k => (M k).or (N k)) ∧ v'.Stores fun _ => none) ∧
    (L 50 = none ∧ M 50 = some .one ∧ ∃ result t' v', Says (Tree.merge Tree.cramped Tree.forked) (result, t', v') ∧
      result = .error (.violated (.sharedKey 40)) ∧ Tree.cramped.Merges Tree.forked L M result t' v' ∧
      t'.Stores (Tree.withAbove L M 40) ∧ v'.Stores (Tree.upTo M 40)) := by
  obtain ⟨_, hcramped⟩ := Tree.cramped_reachable.whole
  obtain ⟨_, hforked⟩ := Tree.forked_reachable.whole
  obtain ⟨_, hworn⟩ := Tree.worn_reachable.whole
  have hL := hcramped.denotes
  have hM := hforked.denotes
  have hN := hworn.denotes
  refine ⟨_, _, _, hL, hM, hN, ⟨?_, ?_, ?_⟩, ?_, ?_, ?_⟩
  · exact Tree.forked_reachable.value_of_lookup hM (Ends.after (by decide +kernel))
  · exact Tree.worn_reachable.value_of_lookup hN (Ends.after (by decide +kernel))
  · obtain ⟨result, t', v', hsays, hmerges⟩ := Tree.forked_reachable.merges Tree.worn_reachable hM hN
    obtain rfl : result = .ok () := hsays.of_eval (f := Prod.fst) (by decide +kernel)
    obtain ⟨M', N', hmoves, hst, hst'⟩ := hmerges.moves
    cases hmoves with
    | all => exact ⟨t', v', hsays, hmerges, hst, hst'⟩
  · exact Tree.cramped_reachable.value_of_lookup hL (Ends.after (by decide +kernel))
  · exact Tree.forked_reachable.value_of_lookup hM (Ends.after (by decide +kernel))
  · obtain ⟨result, t', v', hsays, hmerges⟩ := Tree.cramped_reachable.merges Tree.forked_reachable hL hM
    have hresult : result = .error (.violated (.sharedKey 40)) := hsays.of_eval (f := Prod.fst) (by decide +kernel)
    obtain ⟨M', N', hmoves, hst, hst'⟩ := hmerges.moves
    refine ⟨result, t', v', hsays, hresult, hmerges, ?_⟩
    cases hmoves with
    | all => cases hresult
    | @shared d =>
      simp only [Except.error.injEq, Error.violated.injEq, Violation.sharedKey.injEq] at hresult
      obtain rfl : d = 40 := Fin.ext hresult
      exact ⟨hst, hst'⟩
    | exhausted => cases hresult

end MemoTree
