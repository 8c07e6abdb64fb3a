import MemoTree.Proofs.Sound
import MemoTree.Proofs.Stock
import MemoTree.Tree.Path

/-! # Descents of a change

A change for a key goes down to the node where it lands, and lowers the separators on its path. -/

namespace MemoTree
open Pool NodePool Rows

section Steps
variable {g : Geometry} {p : NodePool} {c : Rows} {r h k : Handle} {i x : Nat}

/-- Writing a separator over the last one of a node leads to the same child. -/
theorem runs_lower {key : Words} {n n' : Node} {j : Nat} (hwrite : n.writeKey g j key = .ok n')
    (hchild : n'.child g j = .ok (some k)) : Runs (do
      let block ← liftM (n.writeKey g j key)
      Pool.write h block
      let child ← liftM (block.child g j)
      match child with
      | some child => return child
      | none => throw .missingChild : NodeM Handle) p k (p.put h n') :=
  Runs.bind (Runs.lift hwrite p) (Runs.bind (Runs.write _ _ _) (Runs.bind (Runs.lift hchild _) (Runs.pure _ _)))

/-- What a step for `x` makes of a node with the separators `row`: if all are above `x`, the last one becomes `x`. -/
inductive Lowers (g : Geometry) (row : Row) (x : Nat) (n : Node) : Node → Prop
  | kept {e : Pair} : row.scan x = some e → Lowers g row x n n
  | lowered {words : Array Word} : row.scan x = none →
      n.writeKey g (row.length - 1) (Words.ofNat g.keyLength x) = .ok { n with words := words } →
      Packs g words (row.lowered x) → Lowers g row x n { n with words := words }

/-- One step of a change, and what it writes. -/
theorem runs_stepDown {n : Node} (hn : p.block h = .ok n) (hpacks : Packs g n.words (c h))
    (hx : x < 2 ^ (64 * g.keyLength)) (hk : c.step x h = some k) :
    ∃ n', Lowers g (c h) x n n' ∧ Runs (Tree.stepDown g (Words.ofNat g.keyLength x) h) p k (p.put h n') := by
  obtain ⟨e, he, hek⟩ := step_eq_some.mp hk
  cases hscan : (c h).scan x with
  | some e' =>
    rw [Row.aim_of_scan hscan] at he
    cases he
    have hat := Row.getElem?_scan hscan
    have hlt := hpacks.shows.lt_of_scan hscan
    have hchild : n.child g ((c h).above x).length = .ok (some k) := by rw [hpacks.child_eq hat]; exact congrArg _ hek
    have hused : e.2 ≠ 0 := hpacks.used e (Row.mem_of_scan hscan)
    refine ⟨n, .kept hscan, ?_⟩
    rw [put_self hn]
    exact Runs.bind (Runs.read hn) (Runs.bind (Runs.lift (hpacks.position_eq hx) p) (Runs.of_neg (by omega)
      (Runs.bind (Runs.lift (hpacks.value_eq hat) p) (Runs.bind (Runs.pure _ _) (Runs.of_neg (by simpa using hused)
      (Runs.bind (Runs.lift hchild p) (Runs.pure _ _)))))))
  | none =>
    -- the last separator is lowered, whether or not there are empty slots behind it
    rw [Row.aim_of_none hscan] at he
    obtain ⟨A, hrow⟩ := List.getLast?_eq_some_iff.mp he
    have hi : n.position g (Words.ofNat g.keyLength x) = .ok (A.length + 1) := by
      rw [hpacks.position_eq hx, Row.length_above_of_scan hscan, hrow, List.length_append, List.length_singleton]
    have hlen := hpacks.length_le
    rw [hrow] at hscan hpacks hlen ⊢
    rw [List.length_append, List.length_singleton] at hlen
    obtain ⟨words, hwrite, hpacks'⟩ := hpacks.writeKey hx
    have hchild : Node.child { n with words := words } g A.length = .ok (some k) := by
      rw [Packs.child_eq (b := { n with words := words }) (e := (x, e.2)) hpacks' (by simp)]
      exact congrArg _ hek
    have hrest := runs_lower (h := h) (p := p) hwrite hchild
    refine ⟨{ n with words := words },
      .lowered hscan (by rwa [List.length_append, List.length_singleton, Nat.add_sub_cancel])
      (by rwa [Row.lowered_concat hscan]), Runs.bind (Runs.read hn) (Runs.bind (Runs.lift hi p) ?_)⟩
    by_cases hfull : A.length + 1 = g.pairs
    · exact Runs.of_pos hfull (Runs.bind (Runs.pure _ _) (Runs.of_pos rfl (Runs.of_neg (by omega) hrest)))
    · have hfree : n.value g (A.length + 1) = .ok 0 := hpacks.value_free (by simp) (by omega)
      exact Runs.of_neg hfull (Runs.bind (Runs.lift hfree p) (Runs.bind (Runs.pure _ _) (Runs.of_pos rfl
        (Runs.of_neg (by omega) hrest))))

/-- One step of a change. -/
theorem stepDown_spec (hs : Stock g p c) (hh : p.Live h) (hx : x < 2 ^ (64 * g.keyLength)) (hk : c.step x h = some k) :
    ∃ p', Runs (Tree.stepDown g (Words.ofNat g.keyLength x) h) p k p' ∧
      Stock g p' (Function.update c h ((c h).lowered x)) ∧ Edits p p' := by
  obtain ⟨n, hn, hpacks⟩ := hs.node hh
  obtain ⟨n', hlow, hrun⟩ := runs_stepDown hn hpacks hx hk
  refine ⟨_, hrun, ?_⟩
  cases hlow with
  | kept hscan =>
    rw [put_self hn, Row.lowered_of_scan hscan, Function.update_eq_self]
    exact ⟨hs, Edits.refl p⟩
  | lowered _ _ hpacks' => exact ⟨hs.write hn hpacks', Edits.of_words hn _⟩

/-- Lowering the last separator of a node keeps where changes go. -/
theorem step_update_lowered : Rows.step (Function.update c r ((c r).lowered x)) i h = c.step i h := by
  by_cases hr : h = r
  · rw [hr, step, step, Function.update_self, Row.aim_lowered]
  · rw [step, step, Function.update_of_ne hr]

/-- Lowering a path is lowering its first node and then the rest. -/
theorem lowerPath_succ (hk : c.step x r = some k) :
    c.lowerPath x r (i + 1) = Rows.lowerPath (Function.update c r ((c r).lowered x)) x k i := by
  have hland : ∀ j, Rows.land (Function.update c r ((c r).lowered x)) x k j = c.land x r (j + 1) := fun j => by
    rw [land_of_step fun _ => step_update_lowered, land, land, follow_succ, hk, Option.bind_some]
  funext h
  simp only [lowerPath, hland]
  by_cases hr : h = r
  · rw [hr, Function.update_self, if_pos ⟨0, by omega, rfl⟩, Row.lowered_lowered, ite_self]
  · rw [Function.update_of_ne hr]
    congr 1
    refine propext ⟨?_, ?_⟩
    · rintro ⟨j, hj, hl⟩
      cases j with
      | zero =>
        cases hl
        exact absurd rfl hr
      | succ j => exact ⟨j, by omega, hl⟩
    · rintro ⟨j, hj, hl⟩
      exact ⟨j + 1, by omega, hl⟩

/-- A descent arrives where a change lands, with the path lowered. -/
theorem descend_spec (hs : Stock g p c) (hx : x < 2 ^ (64 * g.keyLength)) (hland : c.land x r i = some h)
    (hlive : ∀ j < i, ∀ k, c.land x r j = some k → p.Live k) :
    ∃ p', Runs (Tree.descend g (Words.ofNat g.keyLength x) i r) p h p' ∧ Stock g p' (c.lowerPath x r i) ∧
      Edits p p' := by
  induction i generalizing p c r with
  | zero =>
    cases hland
    refine ⟨p, Runs.pure _ _, ?_, Edits.refl p⟩
    rw [show c.lowerPath x h 0 = c from funext fun k => lowerPath_off fun j hj => absurd hj (Nat.not_lt_zero j)]
    exact hs
  | succ i ih =>
    rw [land, follow_succ] at hland
    obtain ⟨k, hk, hland⟩ := Option.bind_eq_some_iff.mp hland
    obtain ⟨p₁, hrun, hs₁, hedits⟩ := stepDown_spec hs (hlive 0 (by omega) r rfl) hx hk
    obtain ⟨p₂, hrun', hs₂, hedits'⟩ := ih hs₁ (by rw [land_of_step fun _ => step_update_lowered]; exact hland)
      fun j hj q hq => by
      rw [land_of_step fun _ => step_update_lowered] at hq
      refine (hedits.live q).mpr (hlive (j + 1) (by omega) q ?_)
      rw [land, follow_succ, hk, Option.bind_some]
      exact hq
    exact ⟨p₂, Runs.bind hrun hrun', by rw [lowerPath_succ hk]; exact hs₂, hedits.trans hedits'⟩

/-- Where a lookup is led by separators to the node, a change lowers none. -/
theorem descend_routed (hs : Stock g p c) (hx : x < 2 ^ (64 * g.keyLength)) (hroute : c.route x r i = some h)
    (hlive : ∀ j < i, ∀ k, c.route x r j = some k → p.Live k) :
    Runs (Tree.descend g (Words.ofNat g.keyLength x) i r) p h p := by
  induction i generalizing r with
  | zero =>
    cases hroute
    exact Runs.pure _ _
  | succ i ih =>
    rw [route, follow_succ] at hroute
    obtain ⟨k, hk, hroute⟩ := Option.bind_eq_some_iff.mp hroute
    obtain ⟨n, hn, hpacks⟩ := hs.node (hlive 0 (by omega) r rfl)
    obtain ⟨n', hlow, hrun⟩ := runs_stepDown hn hpacks hx (step_of_look hk)
    obtain ⟨e, he, -⟩ := look_eq_some.mp hk
    cases hlow with
    | lowered hscan =>
      rw [he] at hscan
      cases hscan
    | kept =>
      rw [put_self hn] at hrun
      refine Runs.bind hrun (ih hroute fun j hj q hq => hlive (j + 1) (by omega) q ?_)
      rw [route, follow_succ, hk, Option.bind_some]
      exact hq

/-- What a descent to the node `i` levels below `r` writes: separators of the nodes above it, and nothing else. -/
structure Trims (g : Geometry) (c : Rows) (x : Nat) (r : Handle) (i : Nat) (p p' : NodePool) : Prop where
  rest : p' = { p with blocks := p'.blocks }
  size : p'.blocks.size = p.blocks.size
  on : ∀ j < i, ∀ h, c.land x r j = some h → ∀ n, p.block h = .ok n → ∃ n', Lowers g (c h) x n n' ∧ p'.block h = .ok n'
  off : ∀ h, (∀ j < i, c.land x r j ≠ some h) → p'.block h = p.block h

/-- Once the last separator is lowered, another visit keeps the node. -/
theorem Lowers.eq_of_lowered {row : Row} {n n' : Node} {e : Pair} (haim : row.aim x = some e)
    (h : Lowers g (row.lowered x) x n n') : n' = n := by
  obtain ⟨e', hscan, -⟩ := Row.scan_lowered_self haim
  cases h with
  | kept => rfl
  | lowered hnone =>
    rw [hscan] at hnone
    cases hnone

/-- A step and the descent from there. -/
theorem Trims.of_step {p₁ p₂ : NodePool} {n n' : Node} {e : Pair} (hn : p.block r = .ok n)
    (hlow : Lowers g (c r) x n n') (haim : (c r).aim x = some e) (hk : c.step x r = some k) (hp₁ : p₁ = p.put r n')
    (ht : Trims g (Function.update c r ((c r).lowered x)) x k i p₁ p₂) : Trims g c x r (i + 1) p p₂ := by
  have hland : ∀ j, Rows.land (Function.update c r ((c r).lowered x)) x k j = c.land x r (j + 1) := fun j => by
    rw [land_of_step fun _ => step_update_lowered, land, land, follow_succ, hk, Option.bind_some]
  have hr₁ : p₁.block r = .ok n' := by rw [hp₁, block_put_self hn]
  -- the first node may not be passed again, but if it were it would be kept
  have hr₂ : p₂.block r = .ok n' := by
    by_cases hon : ∃ j < i, c.land x r (j + 1) = some r
    · obtain ⟨j, hj, hl⟩ := hon
      obtain ⟨n'', hlow', hr₂⟩ := ht.on j hj r ((hland j).trans hl) n' hr₁
      rw [Function.update_self] at hlow'
      rw [hr₂, hlow'.eq_of_lowered haim]
    · rw [ht.off r fun j hj hl => hon ⟨j, hj, (hland j).symm.trans hl⟩, hr₁]
  refine ⟨?_, ht.size.trans (by rw [hp₁, size_put]), fun j hj h hl m hm => ?_, fun h hoff => ?_⟩
  · rw [ht.rest, hp₁]
    rfl
  · by_cases hr : h = r
    · rw [hr, hn] at hm
      cases hm
      rw [hr]
      exact ⟨n', hlow, hr₂⟩
    · obtain ⟨j, rfl⟩ : ∃ i, j = i + 1 := by
        cases j with
        | zero =>
          cases hl
          exact absurd rfl hr
        | succ j => exact ⟨j, rfl⟩
      have hm₁ : p₁.block h = .ok m := by rw [hp₁, block_put_ne hr, hm]
      have hlow' := ht.on j (by omega) h ((hland j).trans hl) m hm₁
      rwa [Function.update_of_ne hr] at hlow'
  · have hr : h ≠ r := by
      rintro rfl
      exact hoff 0 (Nat.succ_pos i) rfl
    rw [ht.off h fun j hj hl => hoff (j + 1) (by omega) ((hland j).symm.trans hl), hp₁, block_put_ne hr]

/-- What a descent writes. -/
theorem descend_trims (hs : Stock g p c) (hx : x < 2 ^ (64 * g.keyLength)) (hland : c.land x r i = some h)
    (hlive : ∀ j < i, ∀ k, c.land x r j = some k → p.Live k) :
    ∃ p', Runs (Tree.descend g (Words.ofNat g.keyLength x) i r) p h p' ∧ Trims g c x r i p p' := by
  induction i generalizing p c r with
  | zero =>
    cases hland
    exact ⟨p, Runs.pure _ _, rfl, rfl, fun j hj => absurd hj (Nat.not_lt_zero j), fun _ _ => rfl⟩
  | succ i ih =>
    rw [land, follow_succ] at hland
    obtain ⟨k, hk, hland⟩ := Option.bind_eq_some_iff.mp hland
    obtain ⟨e, haim, -⟩ := step_eq_some.mp hk
    obtain ⟨n, hn, hpacks⟩ := hs.node (hlive 0 (by omega) r rfl)
    obtain ⟨n', hlow, hrun⟩ := runs_stepDown hn hpacks hx hk
    obtain ⟨p₁, hrun₁, hs₁, hedits⟩ := stepDown_spec hs (hlive 0 (by omega) r rfl) hx hk
    obtain ⟨-, rfl⟩ := hrun₁.unique hrun
    obtain ⟨p₂, hrun', ht⟩ := ih hs₁ (by rw [land_of_step fun _ => step_update_lowered]; exact hland)
      fun j hj q hq => by
      rw [land_of_step fun _ => step_update_lowered] at hq
      refine (hedits.live q).mpr (hlive (j + 1) (by omega) q ?_)
      rw [land, follow_succ, hk, Option.bind_some]
      exact hq
    exact ⟨p₂, Runs.bind hrun hrun', ht.of_step hn hlow haim hk rfl⟩

section Trees
variable {w : Width} {t : Tree w} {level : Nat}

/-- A descent from the root. -/
theorem runs_nodeAt (hroot : t.root = some r) (hlevel : level + i = t.height)
    (hrun : Runs (Tree.descend t.geometry (Words.ofNat w.words x) i r) t.pool h p) :
    Runs (Tree.nodeAt (Words.ofNat w.words x) level) t h { t with pool := p } := by
  generalize ht' : ({ t with pool := p } : Tree w) = t'
  refine Runs.bind (Runs.get t) ?_
  rw [hroot]
  refine Runs.bind (Runs.get t) (Runs.bind (Runs.get t) ?_)
  rw [show t.height - level = i by omega, ← ht']
  exact Runs.onNodes hrun

theorem nodeAt_spec (hs : Stock t.geometry t.pool c) (hroot : t.root = some r) (hlevel : level + i = t.height)
    (hx : x < 2 ^ w.bits) (hland : c.land x r i = some h)
    (hlive : ∀ j < i, ∀ k, c.land x r j = some k → t.pool.Live k) :
    ∃ p, Runs (Tree.nodeAt (Words.ofNat w.words x) level) t h { t with pool := p } ∧
      Stock t.geometry p (c.lowerPath x r i) ∧ Edits t.pool p := by
  obtain ⟨p, hrun, hs', hedits⟩ := descend_spec hs (Nat.lt_of_lt_of_le hx (Key.pow_bits_le w)) hland hlive
  exact ⟨p, runs_nodeAt hroot hlevel hrun, hs', hedits⟩

end Trees
end Steps
end MemoTree
