import MemoTree.Proofs.Twins
import MemoTree.Tree.Path

/-! # Trees abreast

Two trees are abreast if they have the same geometry and height, their pools are twins, and their roots are mates
(`Abreast`). A descent for the same key arrives at mates, and leaves the trees abreast. -/

namespace MemoTree
open Pool NodePool

section Descents
variable {g : Geometry} {φ : Mates} {alive : Prop} {p p' : NodePool} {i : Nat} {h h' : Handle}

/-- One step down from mates arrives at mates. -/
theorem Twins.stepDown (ht : Twins g φ alive p p') (hi : 0 < i) (hh : φ (i + 1) h h') (key : Words) :
    Lockstep (Tree.stepDown g key h) p (Tree.stepDown g key h') p' fun a q b q' => Twins g φ alive q q' ∧ φ i a b := by
  refine ht.read hh fun n n' hn hn' hk => Lockstep.same (hk.position_eq key) fun pos hpos => ?_
  have hle := Node.position_le hpos
  extract_lets found lower jump lower' jump'
  have hfound : ∀ {o o' : Option Handle} {q q' : NodePool}, Option.Rel (φ i) o o' → Twins g φ alive q q' →
      Lockstep (found o) q (found o') q' fun a q b q' => Twins g φ alive q q' ∧ φ i a b := fun ho ht => by
    cases ho with
    | some hc => exact Lockstep.pure ⟨ht, hc⟩
    | none => exact Lockstep.throw
  have hlower : pos ≠ 0 → Lockstep (lower ()) p (lower' ()) p' fun a q b q' =>
      Twins g φ alive q q' ∧ φ i a b := fun h0 =>
    Lockstep.lift (hk.writeKey (by omega) key) fun a a' ha => ht.write hh hn hn' ha fun ht =>
      Lockstep.lift (ha.child hi _) fun _ _ ho => hfound ho ht
  have hjump : ∀ past, Lockstep (jump past) p (jump' past) p' fun a q b q' =>
      Twins g φ alive q q' ∧ φ i a b := fun past =>
    Lockstep.ite Iff.rfl (fun _ => Lockstep.guard fun h0 _ => hlower h0)
      fun _ => Lockstep.lift (hk.child hi pos) fun _ _ ho => hfound ho ht
  refine Lockstep.ite Iff.rfl (fun _ => Lockstep.pure_bind (hjump true)) fun _ =>
    Lockstep.lift (hk.values pos) fun v v' hv => ?_
  rw [show (v' == 0) = (v == 0) from Bool.eq_iff_iff.mpr (by
    rw [beq_iff_eq, beq_iff_eq]
    exact ((φ.matches_same (i + 1)).used hv).symm)]
  exact Lockstep.pure_bind (hjump _)

theorem Twins.descend (ht : Twins g φ alive p p') (hi : 0 < i) {steps : Nat} (hh : φ (i + steps) h h') (key : Words) :
    Lockstep (Tree.descend g key steps h) p (Tree.descend g key steps h') p' fun a q b q' =>
      Twins g φ alive q q' ∧ φ i a b := by
  induction steps generalizing p p' h h' with
  | zero => exact Lockstep.pure ⟨ht, hh⟩
  | succ steps ih => exact Lockstep.bind (ht.stepDown (i := i + steps) (by omega) hh key) fun _ _ _ _ hq => ih hq.1 hq.2

end Descents

/-- The trees have the geometry `g` and the height `m`, and nodes of the one are mates of nodes of the other. -/
structure Abreast {w : Width} (g : Geometry) (φ : Mates) (alive : Prop) (m : Nat) (t u : Tree w) : Prop where
  geometry : t.geometry = g ∧ u.geometry = g
  height : t.height = m ∧ u.height = m
  root : Option.Rel (φ m) t.root u.root
  twins : Twins g φ alive t.pool u.pool

namespace Abreast
variable {w : Width} {g : Geometry} {φ : Mates} {alive : Prop} {m level : Nat} {t u : Tree w}

theorem weaken (ha : Abreast g φ alive m t u) : Abreast g φ False m t u :=
  ⟨ha.geometry, ha.height, ha.root, ha.twins.weaken⟩

/-- Neither tree has a root, or the roots are mates. -/
theorem roots (ha : Abreast g φ alive m t u) :
    (t.root = none ∧ u.root = none) ∨ ∃ r r', t.root = some r ∧ u.root = some r' ∧ φ m r r' := by
  have hroot := ha.root
  cases h : t.root <;> cases h' : u.root <;> rw [h, h'] at hroot <;> cases hroot
  · exact Or.inl ⟨rfl, rfl⟩
  · rename_i hh
    exact Or.inr ⟨_, _, rfl, rfl, hh⟩

/-- A computation on the nodes that keeps them twins keeps the trees abreast. -/
theorem onNodes (ha : Abreast g φ alive m t u) {α β : Type} {x : NodeM α} {x' : NodeM β} {P : α → β → Prop}
    (h : Lockstep x t.pool x' u.pool fun a q b q' => Twins g φ alive q q' ∧ P a b) :
    Lockstep (Tree.onNodes x) t (Tree.onNodes x') u fun a t' b u' => Abreast g φ alive m t' u' ∧ P a b :=
  (Lockstep.onNodes h).mono fun a t' b u' ⟨p, p', hq, ht', hu'⟩ => by
    subst ht' hu'
    exact ⟨⟨ha.geometry, ha.height, ha.root, hq.1⟩, hq.2⟩

/-- Descents for one key arrive at mates. -/
theorem nodeAt (ha : Abreast g φ alive m t u) (hlevel : 0 < level) (hle : level ≤ m) (key : Words) :
    Lockstep (Tree.nodeAt key level) t (Tree.nodeAt key level) u fun a t' b u' =>
      Abreast g φ alive m t' u' ∧ φ level a b := by
  refine Lockstep.get ?_
  rcases ha.roots with ⟨htop, htop'⟩ | ⟨r, r', htop, htop', hh⟩ <;> rw [htop, htop']
  · exact Lockstep.throw
  · refine Lockstep.get (Lockstep.get ?_)
    rw [ha.geometry.1, ha.geometry.2, ha.height.1, ha.height.2]
    exact ha.onNodes (ha.twins.descend hlevel (by rwa [Nat.add_sub_cancel' hle]) key)

end Abreast
end MemoTree
