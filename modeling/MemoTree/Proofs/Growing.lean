import MemoTree.Proofs.Abreast
import MemoTree.Tree.Insert

/-! # Growing abreast

A pair that is put into two trees abreast, on the same level under the same key, leaves them abreast. The trees ask
their pools for new nodes at the same moments, and what each gets is a mate of what the other one gets. So the two
grow alike, as long as both find the blocks they need. -/

namespace MemoTree
open Pool NodePool

/-- Attempts that end alike. -/
inductive Tried (R : Handle → Handle → Prop) : Tree.Attempt → Tree.Attempt → Prop
  | placed : Tried R .placed .placed
  | taken : Tried R .taken .taken
  | full {h h' : Handle} : R h h' → Tried R (.full h) (.full h')

/-- If both have succeeded, the trees are abreast, with the mates they had and new ones. -/
def Grown {w : Width} (g : Geometry) (φ : Mates) (m : Nat) (a : Except Error Unit) (t : Tree w) (b : Except Error Unit)
    (u : Tree w) : Prop := a = .ok () → b = .ok () → ∃ φ' m', φ ≤ φ' ∧ m ≤ m' ∧ Abreast g φ' True m' t u

section Pools
variable {g : Geometry} {φ : Mates} {alive : Prop} {p p' : NodePool} {level half : Nat} {h h' q q' : Handle}

/-- Mates move their largest pairs to mates. -/
theorem Twins.moveHalf (ht : Twins g φ alive p p') (hh : φ level h h') (hq : φ level q q')
    (hne : h ≠ q) (hne' : h' ≠ q') (hhalf : half ≤ g.pairs) :
    Lockstep (Tree.moveHalf g h q half level) p (Tree.moveHalf g h' q' half level) p' fun _ p _ p' =>
      Twins g φ alive p p' := by
  refine ht.read hh fun n n' hn hn' hk => Lockstep.lift (hk.pairsFrom (by omega)) fun l l' hl => ?_
  refine Lockstep.bind (ht.update hq fun _ _ _ _ hk => Akin.writePairs hl.2 hk (by omega))
    fun _ p₁ _ p₁' ⟨ht, hsame, hsame'⟩ => ?_
  refine Lockstep.lift (hk.dropPairs (φ.matches_same level) hhalf (Nat.le_refl _)) fun a a' ha => ?_
  refine ht.write hh ((hsame h hne).trans hn) ((hsame' h' hne').trans hn') ha fun ht => ?_
  exact ht.invalidate_above hh fun _ _ ht => Lockstep.of_report ht

end Pools

namespace Abreast
variable {w : Width} {g : Geometry} {φ : Mates} {alive : Prop} {m level : Nat} {t u : Tree w}
    {v v' : Word} {h h' : Handle}

theorem tryPlace (ha : Abreast g φ alive m t u) (hlevel : 0 < level) (hle : level ≤ m) (key : Words)
    (hv : φ.Same level v v') :
    Lockstep (Tree.tryPlace key v level) t (Tree.tryPlace key v' level) u fun a t' b u' =>
      Abreast g φ alive m t' u' ∧ Tried (φ level) a b := by
  refine Lockstep.bind (ha.nodeAt hlevel hle key) fun h t₁ h' u₁ ⟨ha, hh⟩ => Lockstep.get ?_
  rw [ha.geometry.1, ha.geometry.2]
  refine ha.onNodes (ha.twins.read hh fun n n' hn hn' hk => Lockstep.same (hk.position_eq key) fun pos hpos =>
    Lockstep.same (hk.fillFrom_eq (φ.matches_same level) pos) fun fill hfill =>
      Lockstep.same (hk.holdsAt_eq (Node.fillFrom_le hfill)) fun holds _ => ?_)
  have hpos := Node.position_le hpos
  have hle := Node.le_fillFrom hpos hfill
  have hfill := Node.fillFrom_le hfill
  refine Lockstep.ite Iff.rfl (fun _ => Lockstep.guard fun _ _ => Lockstep.pure ⟨ha.twins, .taken⟩) fun _ =>
    Lockstep.ite Iff.rfl (fun _ => Lockstep.pure ⟨ha.twins, .full hh⟩) fun hroom => ?_
  refine Lockstep.lift (hk.insertPair (by omega) (by omega) key hv) fun a a' hput =>
    ha.twins.write hh hn hn' hput fun ht => ?_
  exact ht.invalidate_above hh fun _ _ ht => Lockstep.pure ⟨ht, .placed⟩

/-- Two new nodes become mates. -/
theorem allocate (ha : Abreast g φ True m t u) (hfits : 8 * g.slotWords ≤ addressable) (hlevel : 0 < level) :
    Lockstep (Tree.onNodes Pool.allocate) t (Tree.onNodes Pool.allocate) u fun a t' b u' =>
      ∀ h h', a = .ok h → b = .ok h' →
      Abreast g (φ.add level h h') True m t' u' ∧ ∀ {i k k'}, φ i k k' → k ≠ h ∧ k' ≠ h' :=
  fun a t' b u' he he' h h' hh hh' => by
    obtain ⟨q, hq, rfl⟩ := he.onNodes
    obtain ⟨q', hq', rfl⟩ := he'.onNodes
    subst hh hh'
    obtain ⟨ht, hnew⟩ := ha.twins.allocate hfits hlevel hq hq'
    exact ⟨⟨ha.geometry, ha.height, Mates.rel_mono (φ.le_add level h h') ha.root, ht⟩, hnew⟩

/-- The old roots become the only children of the new ones. -/
theorem putTop (ha : Abreast g φ alive m t u) {old old' top top' : Handle} (hold : φ m old old')
    (htop : φ (m + 1) top top') : Lockstep (Tree.onNodes (do
      let block ← Pool.read old
      let fill ← block.fill g
      if fill = 0 then throw .slotBelowZero
      let smallest ← block.key g (fill - 1)
      Pool.update top fun block => block.writePair g 0 smallest old.word)) t (Tree.onNodes (do
      let block ← Pool.read old'
      let fill ← block.fill g
      if fill = 0 then throw .slotBelowZero
      let smallest ← block.key g (fill - 1)
      Pool.update top' fun block => block.writePair g 0 smallest old'.word)) u
      fun _ t' _ u' => Abreast g φ alive m t' u' := by
  refine (ha.onNodes (P := fun _ _ => True) (ha.twins.read hold fun n n' hn hn' hk =>
    Lockstep.same (hk.fill_eq (φ.matches_same m)) fun fill hfill => Lockstep.guard fun h0 _ => ?_)).mono
      fun _ _ _ _ hq => hq.1
  have hle := Node.fillFrom_le hfill
  refine Lockstep.same (hk.key_eq (by omega)) fun smallest _ => ?_
  exact (ha.twins.update htop fun _ _ _ _ hk => hk.writePair (by omega) smallest
    (Mates.same_word (ha.twins.level hold) hold)).mono fun _ _ _ _ hq => ⟨hq.1, trivial⟩

theorem addLevel (ha : Abreast g φ True m t u) (hfits : 8 * g.slotWords ≤ addressable) :
    Lockstep Tree.addLevel t Tree.addLevel u fun a t' b u' => a = .ok () → b = .ok () →
      ∃ φ', φ ≤ φ' ∧ Abreast g φ' True (m + 1) t' u' := by
  refine Lockstep.bind (ha.allocate hfits (Nat.succ_pos m)) fun a t₁ b u₁ hq => ?_
  cases a with
  | error => exact Lockstep.pure_left fun _ _ _ h => by cases h
  | ok top =>
    cases b with
    | error => exact Lockstep.pure_right fun _ _ _ _ h => by cases h
    | ok top' =>
      obtain ⟨ha₁, -⟩ := hq top top' rfl rfl
      have htop : φ.add (m + 1) top top' (m + 1) top top' := Or.inr ⟨rfl, rfl, rfl⟩
      have hle := φ.le_add (m + 1) top top'
      generalize φ.add (m + 1) top top' = φ' at ha₁ htop hle
      refine Lockstep.get ?_
      -- what comes after the branch is the same for a tree with a root and for one without: it is done once
      extract_lets jump jump'
      have hjump : ∀ {t₂ u₂ : Tree w}, Abreast g φ' True m t₂ u₂ → Lockstep (jump ()) t₂ (jump' ()) u₂
          fun a t' b u' => a = .ok () → b = .ok () → ∃ φ', φ ≤ φ' ∧ Abreast g φ' True (m + 1) t' u' :=
          fun {t₂ u₂} ha₂ => by
        refine Lockstep.bind (Lockstep.modify (R := fun _ t' _ u' => Abreast g φ' True (m + 1) t' u') ?_)
          fun _ _ _ _ ha₃ =>
          Lockstep.get (Lockstep.report (Lockstep.pure fun _ _ => ⟨φ', hle, ha₃⟩))
        exact ⟨ha₂.geometry, ⟨congrArg (· + 1) ha₂.height.1, congrArg (· + 1) ha₂.height.2⟩, .some htop, ha₂.twins⟩
      rcases ha₁.roots with ⟨hnone, hnone'⟩ | ⟨old, old', hsome, hsome', hold⟩
      · rw [hnone, hnone']
        exact hjump ha₁
      · rw [hsome, hsome']
        refine Lockstep.get ?_
        rw [ha₁.geometry.1, ha₁.geometry.2]
        exact Lockstep.bind (ha₁.putTop hold htop) fun _ _ _ _ ha₂ => hjump ha₂

end Abreast

/-! ### Splits -/

section Splits
variable {w : Width} {g : Geometry} {φ φ' : Mates} {m m' level rungs : Nat} {t u : Tree w} {v v' : Word} {h h' : Handle}
  {a b : Except Error Unit}

theorem Grown.of_error_left {e : Error} : Grown g φ m (.error e) t b u := fun h => by cases h

theorem Grown.of_error_right {e : Error} : Grown g φ m a t (.error e) u := fun _ h => by cases h

/-- Full mates are split alike if their separators are linked alike. -/
theorem Abreast.split {link : Words → Word → Nat → TreeM w (Except Error Unit)}
    (hlink : ∀ {φ : Mates} {m : Nat} {t u : Tree w} {key : Words} {v v' : Word}, Abreast g φ True m t u → level ≤ m →
      φ.Same (level + 1) v v' → Lockstep (link key v (level + 1)) t (link key v' (level + 1)) u (Grown g φ m))
    (ha : Abreast g φ True m t u) (hfits : 8 * g.slotWords ≤ addressable) (hle : level ≤ m) (hh : φ level h h') :
    Lockstep (Tree.split link h level) t (Tree.split link h' level) u (Grown g φ m) := by
  have hlevel := ha.twins.level hh
  refine Lockstep.get ?_
  rw [ha.geometry.1, ha.geometry.2]
  refine Lockstep.bind (ha.allocate hfits hlevel) fun a t₁ b u₁ hq => ?_
  cases a with
  | error => exact Lockstep.pure_left fun _ _ _ => Grown.of_error_left
  | ok q =>
    cases b with
    | error => exact Lockstep.pure_right fun _ _ _ => Grown.of_error_right
    | ok q' =>
      obtain ⟨ha₁, hnew⟩ := hq q q' rfl rfl
      obtain ⟨hne, hne'⟩ := hnew hh
      have hφ := φ.le_add level q q'
      have hq : φ.add level q q' level q q' := Or.inr ⟨rfl, rfl, rfl⟩
      generalize φ.add level q q' = φ₁ at ha₁ hφ hq
      refine Lockstep.guard fun hhalf _ => ?_
      refine Lockstep.bind (ha₁.onNodes (P := fun key key' => key' = key)
        (ha₁.twins.read (hφ _ _ _ hh) fun n n' _ _ hk =>
        ha₁.twins.computes ((Agree.of_eq (hk.key_eq (by omega))).mono fun _ _ hkey => hkey.2)))
          fun key t₂ key' u₂ hkey => ?_
      obtain ⟨ha₂, rfl⟩ := hkey
      refine Lockstep.bind (hlink ha₂ hle (Mates.same_word hlevel hq)) fun a t₃ b u₃ hg => ?_
      cases a with
      | error => exact Lockstep.answers_left fun _ _ _ => Grown.of_error_left
      | ok =>
        cases b with
        | error => exact Lockstep.answers_right fun _ _ _ => Grown.of_error_right
        | ok =>
          obtain ⟨φ₂, m₂, hφ₂, hm₂, ha₃⟩ := hg rfl rfl
          have hmove := ha₃.twins.moveHalf (hφ₂ _ _ _ (hφ _ _ _ hh)) (hφ₂ _ _ _ hq) hne hne'
            (Nat.div_le_self g.pairs 2)
          exact Lockstep.bind (ha₃.onNodes (P := fun _ _ => True) (hmove.mono fun _ _ _ _ ht => ⟨ht, trivial⟩))
            fun _ _ _ _ ha₄ => Lockstep.pure fun _ _ => ⟨φ₂, m₂, hφ.trans hφ₂, hm₂, ha₄.1⟩

/-- A pair put into a level of trees abreast. -/
theorem Abreast.addAt (hfits : 8 * g.slotWords ≤ addressable) (rungs : Nat) :
    ∀ {φ : Mates} {m level : Nat} {t u : Tree w}
    {key : Words} {v v' : Word}, Abreast g φ True m t u → 0 < level → level ≤ m + 1 → φ.Same level v v' →
    Lockstep (Tree.addAt rungs key v level) t (Tree.addAt rungs key v' level) u (Grown g φ m) := by
  induction rungs with
  | zero => exact fun _ _ _ _ => Lockstep.throw
  | succ rungs ih =>
    intro φ m level t u key v v' ha hlevel hle hv
    rw [Tree.addAt, Tree.addAt]
    refine Lockstep.get ?_
    extract_lets jump jump'
    -- the attempts come after a new level or without one, so they are done once, for the mates of then
    have hjump : ∀ {φ₁ : Mates} {m₁ : Nat} {t₁ u₁ : Tree w}, φ ≤ φ₁ → m ≤ m₁ → level ≤ m₁ → Abreast g φ₁ True m₁ t₁ u₁ →
        Lockstep (jump ()) t₁ (jump' ()) u₁ (Grown g φ m) := by
      intro φ₁ m₁ t₁ u₁ hφ hm hle ha₁
      have hv₁ := Mates.same_mono hφ hv
      refine Lockstep.bind (ha₁.tryPlace hlevel hle key hv₁) fun a t₂ b u₂ ⟨ha₂, htried⟩ => ?_
      cases htried with
      | placed => exact Lockstep.pure fun _ _ => ⟨φ₁, m₁, hφ, hm, ha₂⟩
      | taken => exact Lockstep.pure Grown.of_error_left
      | full hh =>
        refine Lockstep.bind (ha₂.split (fun ha hle hv => ih ha (Nat.succ_pos _) (by omega) hv) hfits hle hh)
          fun a t₃ b u₃ hg => ?_
        cases a with
        | error => exact Lockstep.pure_left fun _ _ _ => Grown.of_error_left
        | ok =>
          cases b with
          | error => exact Lockstep.pure_right fun _ _ _ => Grown.of_error_right
          | ok =>
            obtain ⟨φ₂, m₂, hφ₂, hm₂, ha₃⟩ := hg rfl rfl
            refine Lockstep.bind (ha₃.tryPlace hlevel (hle.trans hm₂) key (Mates.same_mono hφ₂ hv₁))
              fun a t₄ b u₄ ⟨ha₄, htried⟩ => ?_
            cases htried with
            | placed => exact Lockstep.pure fun _ _ => ⟨φ₂, m₂, hφ.trans hφ₂, hm.trans hm₂, ha₄⟩
            | taken => exact Lockstep.pure Grown.of_error_left
            | full => exact Lockstep.throw
    refine Lockstep.ite (by rw [ha.height.1, ha.height.2]) (fun habove => ?_) fun hbelow => ?_
    · rw [ha.height.1] at habove
      refine Lockstep.bind (ha.addLevel hfits) fun a t₁ b u₁ hg => ?_
      cases a with
      | error => exact Lockstep.pure_left fun _ _ _ => Grown.of_error_left
      | ok =>
        cases b with
        | error => exact Lockstep.pure_right fun _ _ _ => Grown.of_error_right
        | ok =>
          obtain ⟨φ₁, hφ₁, ha₁⟩ := hg rfl rfl
          exact hjump hφ₁ (Nat.le_succ m) hle ha₁
    · rw [ha.height.1] at hbelow
      exact hjump le_rfl (Nat.le_refl m) (by omega) ha

/-- An entry inserted into trees abreast. -/
theorem Abreast.insert (ha : Abreast g φ True m t u) (hfits : 8 * g.slotWords ≤ addressable) (k : Key w) (v : Value) :
    Lockstep (Tree.insert k v) t (Tree.insert k v) u (Grown g φ m) := by
  refine Lockstep.get ?_
  rw [ha.height.1, ha.height.2]
  refine Lockstep.bind (Abreast.addAt hfits (m + 1) ha Nat.one_pos (by omega) (Mates.same_leaf.mpr rfl))
    fun a t₁ b u₁ hg =>
    Lockstep.get (Lockstep.tellTimer ?_)
  cases a with
  | error => exact Lockstep.pure_left fun _ _ _ => Grown.of_error_left
  | ok =>
    cases b with
    | error => exact Lockstep.pure_right fun _ _ _ => Grown.of_error_right
    | ok =>
      refine Lockstep.bind (Lockstep.modify (R := fun _ t' _ u' => Grown g φ m (.ok ()) t' (.ok ()) u') fun _ _ => ?_)
        fun _ _ _ _ hg => Lockstep.pure hg
      obtain ⟨φ', m', hφ, hm, ha'⟩ := hg rfl rfl
      exact ⟨φ', m', hφ, hm, ha'.geometry, ha'.height, ha'.root, ha'.twins⟩

end Splits
end MemoTree
