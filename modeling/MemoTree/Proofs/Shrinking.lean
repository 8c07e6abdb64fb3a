import MemoTree.Proofs.Abreast
import MemoTree.Tree.Remove

/-! # Shrinking abreast

A pair that is taken out of two trees abreast, on the same level under the same key, leaves them abreast. No node is
handed out on the way, so the mates stay the same; a node that is unlinked is still the mate of the node that the
other tree unlinks, though one of them may be given back at once and the other one later. -/

namespace MemoTree
open Pool NodePool

section Pools
variable {g : Geometry} {φ : Mates} {p p' : NodePool} {level fill : Nat} {child child' parent parent' : Handle}

/-- Mates have the same slot in their parents, and mates for neighbours. -/
theorem Twins.neighbours (ht : Twins g φ False p p') (hlevel : 0 < level) (hparent : φ (level + 1) parent parent')
    (key : Words) :
    Lockstep (Tree.neighbours g key parent child) p (Tree.neighbours g key parent' child') p' fun a q b q' =>
      Twins g φ False q q' ∧ b.1 = a.1 ∧ a.1 < g.pairs ∧ Option.Rel (φ level) a.2.1 b.2.1 ∧
        Option.Rel (φ level) a.2.2 b.2.2 := by
  refine ht.read hparent fun n n' hn _ hk => Lockstep.same (hk.position_eq key) fun i _ => ?_
  refine Lockstep.lift (V := fun o o' => Option.Rel (φ level) o o' ∧ i < g.pairs) (fun o o' ho ho' =>
    ⟨hk.child hlevel i o o' ho ho', ?_⟩) fun o o' ⟨_, hi⟩ => Lockstep.guard fun _ _ => ?_
  · rw [Node.child] at ho
    cases hv : n.value g i with
    | error f =>
      rw [hv] at ho
      cases ho
    | ok v => exact Node.lt_of_value hk.sizes.1 hv
  extract_lets jump jump'
  have hjump : ∀ {l l'}, Option.Rel (φ level) l l' → Lockstep (jump l) p (jump' l') p' fun a q b q' =>
      Twins g φ False q q' ∧ b.1 = a.1 ∧ a.1 < g.pairs ∧ Option.Rel (φ level) a.2.1 b.2.1 ∧
        Option.Rel (φ level) a.2.2 b.2.2 :=
    fun hl => Lockstep.ite Iff.rfl
      (fun _ => Lockstep.lift (hk.child hlevel _) fun _ _ hr => Lockstep.pure ⟨ht, rfl, hi, hl, hr⟩)
      fun _ => Lockstep.pure_bind (Lockstep.pure ⟨ht, rfl, hi, hl, .none⟩)
  exact Lockstep.ite Iff.rfl (fun _ => Lockstep.pure_bind (hjump .none))
    fun _ => Lockstep.lift (hk.child hlevel _) fun _ _ hl => hjump hl

/-- Neighbours that fit are mates with as many pairs. -/
theorem Twins.fitting (ht : Twins g φ False p p') {o o' : Option Handle} (ho : Option.Rel (φ level) o o') :
    Lockstep (Tree.fitting g fill o) p (Tree.fitting g fill o') p' fun a q b q' =>
      Twins g φ False q q' ∧ Option.Rel (fun x y => φ level x.1 y.1 ∧ y.2 = x.2 ∧ fill + x.2 ≤ g.pairs) a b := by
  cases ho with
  | none => exact Lockstep.pure ⟨ht, .none⟩
  | some hh =>
    refine ht.read hh fun n n' _ _ hk => Lockstep.same (hk.fill_eq (φ.matches_same level)) fun other _ => ?_
    exact Lockstep.ite Iff.rfl (fun hfit => Lockstep.pure ⟨ht, .some ⟨hh, rfl, hfit⟩⟩) fun _ =>
      Lockstep.pure ⟨ht, .none⟩

end Pools

/-- The trees are abreast on some height. -/
def Shrunk {w : Width} {α : Type} (g : Geometry) (φ : Mates) (_ : α) (t : Tree w) (_ : α) (u : Tree w) : Prop :=
  ∃ m, Abreast g φ False m t u

namespace Abreast
variable {w : Width} {g : Geometry} {φ : Mates} {m level fill leftFill rightFill slot : Nat} {t u : Tree w}
  {child child' left left' right right' parent parent' : Handle}

theorem unlink (ha : Abreast g φ False m t u) (h h' : Handle) :
    Lockstep (Tree.onNodes (NodePool.unlink h)) t (Tree.onNodes (NodePool.unlink h')) u fun _ t' _ u' =>
      Abreast g φ False m t' u' :=
  (ha.onNodes (P := fun _ _ => True) ((ha.twins.unlink h h').mono fun _ _ _ _ ht => ⟨ht, trivial⟩)).mono
    fun _ _ _ _ ha => ha.1

/-- The same pair is taken out of mates. -/
theorem takePair (ha : Abreast g φ False m t u) (hlevel : 0 < level) (hle : level ≤ m) (key : Words) :
    Lockstep (Tree.takePair key level) t (Tree.takePair key level) u fun a t' b u' => Abreast g φ False m t' u' ∧
      Option.Rel (fun x y => φ level x.1 y.1 ∧ y.2.2 = x.2.2 ∧ x.2.2 ≤ g.pairs) a b := by
  refine Lockstep.bind (ha.nodeAt hlevel hle key) fun h t₁ h' u₁ ⟨ha, hh⟩ => Lockstep.get ?_
  rw [ha.geometry.1, ha.geometry.2]
  refine ha.onNodes (ha.twins.read hh fun n n' hn hn' hk => Lockstep.same (hk.position_eq key) fun pos hpos =>
    Lockstep.same (hk.fillFrom_eq (φ.matches_same level) pos) fun fill hfill => ?_)
  have hfill := Node.fillFrom_le hfill
  extract_lets jump jump'
  have hjump : ∀ present : Bool, (present = true → pos < fill) → Lockstep (jump present) t₁.pool (jump' present) u₁.pool
      fun a q b q' => Twins g φ False q q' ∧
        Option.Rel (fun x y => φ level x.1 y.1 ∧ y.2.2 = x.2.2 ∧ x.2.2 ≤ g.pairs) a b := fun present hpresent => by
    refine Lockstep.ite Iff.rfl (fun _ => Lockstep.pure ⟨ha.twins, .none⟩) fun htrue => ?_
    have hlt := hpresent (by simpa using htrue)
    refine Lockstep.lift (hk.values pos) fun v v' _ =>
      Lockstep.lift (hk.erasePair (φ.matches_same level) hlt hfill) fun a a' hput =>
        ha.twins.write hh hn hn' hput fun ht => Lockstep.pure ⟨ht, .some ⟨hh, rfl, by dsimp only; omega⟩⟩
  refine Lockstep.ite Iff.rfl (fun _ => Lockstep.same (hk.holdsAt_eq hfill) fun present hholds =>
    hjump present fun htrue => Node.lt_of_holdsAt (htrue ▸ hholds)) fun _ =>
      Lockstep.pure_bind (hjump _ fun htrue => ?_)
  exact of_decide_eq_true htrue

/-- The only children of the roots become the roots. -/
theorem dropLevel (ha : Abreast g φ False m t u) (hm : 1 < m) :
    Lockstep Tree.dropLevel t Tree.dropLevel u (Shrunk g φ) := by
  obtain ⟨i, rfl⟩ : ∃ i, m = i + 1 := ⟨m - 1, by omega⟩
  refine Lockstep.get ?_
  rcases ha.roots with ⟨hnone, hnone'⟩ | ⟨old, old', hsome, hsome', hold⟩
  · rw [hnone, hnone']
    exact Lockstep.pure ⟨_, ha⟩
  · rw [hsome, hsome']
    refine Lockstep.get ?_
    rw [ha.geometry.1, ha.geometry.2]
    refine Lockstep.bind (ha.onNodes (ha.twins.read hold fun n n' _ _ hk => ha.twins.computes (hk.child (by omega) 0)))
      fun o t₁ o' u₁ ⟨ha₁, ho⟩ => ?_
    refine Lockstep.bind (Lockstep.modify (R := fun _ t' _ u' => Abreast g φ False i t' u') ?_) fun _ t₂ _ u₂ ha₂ => ?_
    · exact ⟨ha₁.geometry, ⟨by rw [ha₁.height.1]; rfl, by rw [ha₁.height.2]; rfl⟩, ho, ha₁.twins⟩
    · exact Lockstep.bind (ha₂.unlink _ _) fun _ _ _ _ ha₃ => Lockstep.get (Lockstep.of_report ⟨_, ha₃⟩)

/-- Roots without entries are dropped. -/
theorem dropRoot (ha : Abreast g φ False m t u) : Lockstep Tree.dropRoot t Tree.dropRoot u (Shrunk g φ) := by
  refine Lockstep.get (Lockstep.bind (Lockstep.modify (R := fun _ t' _ u' =>
    t' = ({ t with root := none } : Tree w) ∧ u' = ({ u with root := none } : Tree w)) ⟨rfl, rfl⟩)
      fun _ t₁ _ u₁ ⟨ht₁, hu₁⟩ => ?_)
  subst ht₁ hu₁
  extract_lets jump
  have hjump : ∀ {p p' : NodePool}, Twins g φ False p p' →
    Lockstep (jump ()) ({ t with pool := p, root := none } : Tree w)
      (jump ()) ({ u with pool := p', root := none } : Tree w) (Shrunk g φ) := fun ht =>
    Lockstep.bind (Lockstep.modify (R := fun _ t' _ u' => Abreast g φ False 0 t' u') ⟨ha.geometry,
      ⟨rfl, rfl⟩, .none, ht⟩) fun _ _ _ _ ha => Lockstep.of_report ⟨_, ha⟩
  rcases ha.roots with ⟨hnone, hnone'⟩ | ⟨old, old', hsome, hsome', hold⟩
  · rw [hnone, hnone']
    exact hjump ha.twins
  · rw [hsome, hsome']
    refine Lockstep.bind (Lockstep.onNodes (ha.twins.unlink _ _)) fun _ _ _ _ ⟨p, p', ht, ht₁, hu₁⟩ => ?_
    rw [ht₁, hu₁]
    exact hjump ht

/-- The pairs of `right` are appended to `left` and `right` is unlinked, if that ends alike one level up. -/
theorem join {take : Tree.Unlinker w}
    (htake : ∀ {m : Nat} {t u : Tree w} {key : Words}, Abreast g φ False m t u → level + 1 ≤ m →
      Lockstep (take key (level + 1)) t (take key (level + 1)) u (Shrunk g φ))
    (ha : Abreast g φ False m t u) (hle : level + 1 ≤ m) (hleft : φ level left left') (hright : φ level right right')
    (hparent : φ (level + 1) parent parent') (hfit : leftFill + rightFill ≤ g.pairs) (hslot : slot < g.pairs) :
    Lockstep (Tree.join take level left leftFill right rightFill parent slot) t
      (Tree.join take level left' leftFill right' rightFill parent' slot) u (Shrunk g φ) := by
  have hlevel := ha.twins.level hleft
  refine Lockstep.get ?_
  rw [ha.geometry.1, ha.geometry.2]
  refine Lockstep.bind (ha.onNodes (P := fun key key' => key' = key) ?_) fun key t₁ key' u₁ hkey => ?_
  · refine ha.twins.read hright fun _ _ _ _ hk => Lockstep.lift (hk.pairsFrom (by omega)) fun l l' hl => ?_
    refine Lockstep.bind (ha.twins.update hleft fun _ _ _ _ hk => Akin.writePairs hl.2 hk (by omega))
      fun _ _ _ _ ⟨ht, _⟩ => ?_
    refine ht.invalidate_above hleft fun _ _ ht => Lockstep.bind (ht.update hparent fun _ _ _ _ hk => Agree.bind
      (hk.writeValue slot (Mates.same_word hlevel hright)) fun _ _ hk =>
        hk.writeValue (slot + 1) (Mates.same_word hlevel hleft))
        fun _ _ _ _ ⟨ht, _⟩ => ht.read hparent fun _ _ _ _ hk =>
          ht.computes ((Agree.of_eq (hk.key_eq hslot)).mono fun _ _ hkey => hkey.2)
  · obtain ⟨ha₁, rfl⟩ := hkey
    refine Lockstep.bind (htake ha₁ hle) fun x t₂ x' u₂ ⟨m₂, ha₂⟩ => Lockstep.guard fun _ _ => ?_
    exact Lockstep.bind (ha₂.unlink right right') fun _ _ _ _ ha₃ => Lockstep.of_report ⟨m₂, ha₃⟩

/-- Mates that fall short are repaired alike. -/
theorem repair {take : Tree.Unlinker w}
    (htake : ∀ {m : Nat} {t u : Tree w} {key : Words}, Abreast g φ False m t u → level + 1 ≤ m →
      Lockstep (take key (level + 1)) t (take key (level + 1)) u (Shrunk g φ))
    (ha : Abreast g φ False m t u) (hle : level + 1 ≤ m) (hchild : φ level child child') (key : Words) :
    Lockstep (Tree.repair take key level child fill) t (Tree.repair take key level child' fill) u (Shrunk g φ) := by
  have hlevel := ha.twins.level hchild
  refine Lockstep.ite Iff.rfl (fun _ => Lockstep.bind (htake ha hle) fun _ _ _ _ ⟨m₁, ha₁⟩ =>
    Lockstep.bind (ha₁.unlink _ _) fun _ _ _ _ ha₂ => Lockstep.pure ⟨m₁, ha₂⟩) fun _ => ?_
  refine Lockstep.bind (ha.nodeAt (Nat.succ_pos level) hle key)
    fun parent t₁ parent' u₁ ⟨ha₁, hparent⟩ => Lockstep.get ?_
  rw [ha₁.geometry.1, ha₁.geometry.2]
  refine Lockstep.bind (ha₁.onNodes (ha₁.twins.neighbours hlevel hparent key))
    fun ⟨i, l, r⟩ t₂ ⟨i', l', r'⟩ u₂ ⟨ha₂, hi, hlt, hl, hr⟩ => ?_
  obtain rfl : i' = i := hi
  refine Lockstep.bind (ha₂.onNodes (ha₂.twins.fitting hl)) fun o t₃ o' u₃ ⟨ha₃, ho⟩ => ?_
  cases ho with
  | @some x y hfit =>
    obtain ⟨left, leftFill⟩ := x
    obtain ⟨left', leftFill'⟩ := y
    obtain ⟨hleft, hfill, hfit⟩ := hfit
    obtain rfl : leftFill' = leftFill := hfill
    exact ha₃.join htake hle hleft hchild hparent (by rw [Nat.add_comm]; exact hfit)
      (Nat.lt_of_le_of_lt (Nat.sub_le _ 1) hlt)
  | none =>
    refine Lockstep.bind (ha₃.onNodes (ha₃.twins.fitting hr)) fun o t₄ o' u₄ ⟨ha₄, ho⟩ => ?_
    cases ho with
    | @some x y hfit =>
      obtain ⟨right, rightFill⟩ := x
      obtain ⟨right', rightFill'⟩ := y
      obtain ⟨hright, hfill, hfit⟩ := hfit
      obtain rfl : rightFill' = rightFill := hfill
      exact ha₄.join htake hle hchild hright hparent hfit hlt
    | none => exact Lockstep.pure ⟨m, ha₄⟩

end Abreast

/-- A pair taken out of a level of trees abreast. -/
theorem Abreast.deleteAt {w : Width} {g : Geometry} {φ : Mates} (rungs : Nat) :
    ∀ {m level : Nat} {t u : Tree w} {key : Words}, Abreast g φ False m t u → 0 < level → level ≤ m →
    Lockstep (Tree.deleteAt rungs key level) t (Tree.deleteAt rungs key level) u fun a t' b u' =>
      b.isSome = a.isSome ∧ Shrunk g φ a t' b u' := by
  induction rungs with
  | zero => exact fun _ _ _ => Lockstep.throw
  | succ rungs ih =>
    intro m level t u key ha hlevel hle
    rw [Tree.deleteAt]
    refine Lockstep.bind (ha.takePair hlevel hle key) fun o t₁ o' u₁ ⟨ha₁, ho⟩ => ?_
    cases ho with
    | none => exact Lockstep.pure ⟨rfl, m, ha₁⟩
    | @some x y hxy =>
      obtain ⟨h, v, fill⟩ := x
      obtain ⟨h', v', fill'⟩ := y
      obtain ⟨hh, hfill, hroom⟩ := hxy
      obtain rfl : fill' = fill := hfill
      refine Lockstep.get ?_
      -- all branches end by answering the value that was taken
      extract_lets jump jump'
      have hjump : ∀ {t₂ u₂ : Tree w}, Shrunk g φ () t₂ () u₂ → Lockstep (jump ()) t₂ (jump' ()) u₂ fun a t' b u' =>
          b.isSome = a.isSome ∧ Shrunk g φ a t' b u' := fun hs => Lockstep.pure ⟨rfl, hs⟩
      refine Lockstep.ite (by rw [ha₁.height.1, ha₁.height.2]) (fun _ => ?_) fun htop => ?_
      · refine Lockstep.ite Iff.rfl (fun _ => Lockstep.bind ha₁.dropRoot fun _ _ _ _ => hjump) fun _ => ?_
        refine Lockstep.ite Iff.rfl (fun h1 => Lockstep.bind (ha₁.dropLevel ?_) fun _ _ _ _ => hjump)
          fun _ => hjump ⟨m, ha₁⟩
        omega
      · rw [ha₁.height.1] at htop
        refine Lockstep.get (Lockstep.ite (by rw [ha₁.geometry.1, ha₁.geometry.2]) (fun _ => ?_)
          fun _ => hjump ⟨m, ha₁⟩)
        exact Lockstep.bind (ha₁.repair (fun ha hle => (ih ha (Nat.succ_pos level) hle).mono fun _ _ _ _ hs => hs.2)
          (by omega) hh key)
          fun _ _ _ _ => hjump

/-- A key removed from trees abreast. -/
theorem Abreast.remove {w : Width} {g : Geometry} {φ : Mates} {m : Nat} {t u : Tree w}
    (ha : Abreast g φ False m t u) (k : Key w) : Lockstep (Tree.remove k) t (Tree.remove k) u (Shrunk g φ) := by
  rcases ha.roots with ⟨hnone, hnone'⟩ | ⟨r, r', hsome, hsome', hh⟩
  · refine Lockstep.get ?_
    rw [hnone, hnone']
    exact Lockstep.pure ⟨m, ha⟩
  refine Lockstep.get ?_
  rw [hsome, hsome']
  refine Lockstep.get ?_
  rw [ha.height.1, ha.height.2]
  refine Lockstep.bind (Abreast.deleteAt m ha Nat.one_pos (ha.twins.level hh)) fun a t₁ b u₁ ⟨hab, m₁, ha₁⟩ => ?_
  cases a <;> cases b
  · exact Lockstep.pure ⟨m₁, ha₁⟩
  · cases hab
  · cases hab
  · refine Lockstep.get (Lockstep.guard fun _ _ => ?_)
    exact Lockstep.bind (Lockstep.modify (R := fun _ t' _ u' => Abreast g φ False m₁ t' u')
      ⟨ha₁.geometry, ha₁.height, ha₁.root, ha₁.twins⟩) fun _ _ _ _ ha₂ => Lockstep.pure ⟨m₁, ha₂⟩

end MemoTree
