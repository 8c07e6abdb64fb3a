import MemoTree.Proofs.Lockstep
import MemoTree.Proofs.Stock

/-! # Twin pools

Two pools are twins if nodes of the one are paired with nodes of the other (`Mates`) so that mates look alike: they
hold the same keys, the same values in the leaves, and mates in the inner nodes (`Twins`). Handles may differ, and so
may rings, counts and free lists. What a program writes to mates alike keeps pools twins, and so does what only one of
them does to its rings. -/

namespace MemoTree
open Pool NodePool

/-- Pairs of nodes, one from each of two pools, with the level they are on. Leaves are on level 1. -/
abbrev Mates := Nat → Handle → Handle → Prop

namespace Mates
variable {φ φ' : Mates} {level : Nat} {v v' : Word} {h h' q q' : Handle}

/-- Value words that stand for the same: equal values in a leaf, above it mates or two words that name no node. -/
def Same (φ : Mates) (level : Nat) (v v' : Word) : Prop :=
  if level ≤ 1 then v' = v else (v = 0 ↔ v' = 0) ∧ Option.Rel (φ (level - 1)) (Handle.ofWord? v) (Handle.ofWord? v')

/-- One pair more. -/
def add (φ : Mates) (level : Nat) (q q' : Handle) : Mates := fun i h h' => φ i h h' ∨ i = level ∧ h = q ∧ h' = q'

theorem le_add (φ : Mates) (level : Nat) (q q' : Handle) : φ ≤ φ.add level q q' := fun _ _ _ hh => Or.inl hh

theorem same_leaf : φ.Same 1 v v' ↔ v' = v := by rw [Same, if_pos (Nat.le_refl 1)]

theorem same_inner (hlevel : 0 < level) :
    φ.Same (level + 1) v v' ↔ (v = 0 ↔ v' = 0) ∧ Option.Rel (φ level) (Handle.ofWord? v) (Handle.ofWord? v') := by
  rw [Same, if_neg (by omega), Nat.add_sub_cancel]

theorem matches_same (φ : Mates) (level : Nat) : Matches (φ.Same level) where
  zero := by
    rw [Same]
    split
    · rfl
    · exact ⟨Iff.rfl, .none⟩
  used hv := by
    rw [Same] at hv
    split at hv
    · rw [hv]
    · exact hv.1

theorem rel_mono (hle : φ ≤ φ') {o o' : Option Handle} (ho : Option.Rel (φ level) o o') :
    Option.Rel (φ' level) o o' := by
  cases ho with
  | some hh => exact .some (hle _ _ _ hh)
  | none => exact .none

theorem same_mono (hle : φ ≤ φ') (hv : φ.Same level v v') : φ'.Same level v v' := by
  rw [Same] at hv ⊢
  split
  · rename_i hlevel
    rwa [if_pos hlevel] at hv
  · rename_i hlevel
    rw [if_neg hlevel] at hv
    exact hv.imp id (rel_mono hle)

theorem same_word (hlevel : 0 < level) (hh : φ level h h') : φ.Same (level + 1) h.word h'.word := by
  rw [same_inner hlevel, Handle.ofWord?_word, Handle.ofWord?_word]
  exact ⟨⟨fun h0 => absurd h0 h.word_ne_zero, fun h0 => absurd h0 h'.word_ne_zero⟩, .some hh⟩

end Mates

/-- A pool whose ledger is settled and whose blocks are laid out as `g` says. -/
structure Tidy (g : Geometry) (p : NodePool) : Prop where
  ledger : Ledger p []
  size : ∀ h n, p.block h = .ok n → n.words.size = g.slotWords
  blockWords : p.blockWords = g.blockWords

/-- The words of all blocks are kept. -/
structure Spares (p p' : NodePool) : Prop where
  size : p'.blocks.size = p.blocks.size
  words : ∀ h n, p.block h = .ok n → ∃ n', p'.block h = .ok n' ∧ n'.words = n.words
  blockWords : p'.blockWords = p.blockWords

theorem Stock.tidy {g : Geometry} {p : NodePool} {c : Rows} (hs : Stock g p c) :
    Tidy g p := ⟨hs.ledger, hs.size, hs.blockWords⟩

namespace Spares
variable {p p' q : NodePool} {h : Handle} {n n' : Node}

theorem refl (p : NodePool) : Spares p p := ⟨rfl, fun _ n hn => ⟨n, hn, rfl⟩, rfl⟩

theorem trans (h₁ : Spares p p') (h₂ : Spares p' q) : Spares p q where
  size := h₂.size.trans h₁.size
  words h n hn := by
    obtain ⟨n₁, hn₁, hw₁⟩ := h₁.words h n hn
    obtain ⟨n₂, hn₂, hw₂⟩ := h₂.words h n₁ hn₁
    exact ⟨n₂, hn₂, hw₂.trans hw₁⟩
  blockWords := h₂.blockWords.trans h₁.blockWords

theorem of_sheds {gone : Bool} (hs : Sheds p p' h gone) : Spares p p' where
  size := hs.size
  words k n hn := by
    obtain ⟨refs, hx⟩ := hs.block k n hn
    exact ⟨_, hx, rfl⟩
  blockWords := hs.blockWords

theorem of_put (hn : p.block h = .ok n) (hw : n'.words = n.words) : Spares p (p.put h n') where
  size := size_put _ _ _
  words k x hx := by
    rw [block_put hn]
    split
    · rename_i hk
      rw [hk, hn] at hx
      cases hx
      exact ⟨n', rfl, hw⟩
    · exact ⟨x, hx, rfl⟩
  blockWords := rfl

end Spares

namespace Tidy
variable {g : Geometry} {p p' : NodePool} {h : Handle} {n : Node}

theorem spares (ht : Tidy g p) (hs : Spares p p') (hl : Ledger p' []) : Tidy g p' where
  ledger := hl
  size k x hx := by
    obtain ⟨y, hy⟩ := exists_block_of_size hs.size hx
    obtain ⟨y', hy', hw⟩ := hs.words k y hy
    rw [hx] at hy'
    cases hy'
    rw [hw]
    exact ht.size k y hy
  blockWords := hs.blockWords.trans ht.blockWords

theorem put (ht : Tidy g p) (hn : p.block h = .ok n) {words : Array Word} (hsize : words.size = g.slotWords) :
    Tidy g (p.put h { n with words := words }) where
  ledger := ledger_put_words ht.ledger hn words
  size k x hx := by
    rw [block_put hn] at hx
    split at hx
    · cases hx
      exact hsize
    · exact ht.size k x hx
  blockWords := ht.blockWords

theorem slotWords_eq (ht : Tidy g p) : p.blockWords - reservedWords = g.slotWords := by
  rw [ht.blockWords, Geometry.blockWords, Nat.add_sub_cancel]

theorem hands (ht : Tidy g p) (hl : Ledger p' []) (hh : Hands p p' h) : Tidy g p' where
  ledger := hl
  size k x hx := by
    by_cases hk : k = h
    · rw [hk, hh.clean] at hx
      cases hx
      rw [ht.slotWords_eq, Array.size_replicate]
    · rw [hh.other k hk] at hx
      exact ht.size k x hx
  blockWords := hh.blockWords.trans ht.blockWords

end Tidy

/-- An unlinked node keeps its words, whether or not it was in use. -/
theorem Ends.unlink {p p' : NodePool} {h : Handle} {back : Bool} (he : Ends (NodePool.unlink h) p back p')
    (hl : Ledger p []) : Ledger p' [] ∧ Spares p p' := by
  by_cases hh : p.Live h
  · obtain ⟨p₁, _, hrun, hl₁, hsheds⟩ := unlink_spec hl hh
    obtain rfl := (hrun.of_ends he).2
    exact ⟨hl₁, Spares.of_sheds hsheds⟩
  obtain ⟨_, p₁, hdrop, he₁⟩ := he.bind
  obtain ⟨n, _, hread, -⟩ := hdrop.bind
  obtain ⟨p₂, hrun, hl₂, hsheds⟩ := dropMemos_spec hl hread.read.1
  obtain rfl := (hrun.of_ends hdrop).2
  obtain ⟨_, p₂, hmark, he₂⟩ := he₁.bind
  obtain ⟨n₁, n₂, hn₁, hn₂, rfl⟩ := hmark.update
  cases hn₂
  -- the node was marked before, or it is on the free list
  have hgone : n₁.refs = 0 → h ∈ p₁.free := fun h0 => by
    by_contra hout
    refine hh (((hsheds.live h).mp ⟨n₁, hn₁, ?_, hout⟩).1)
    cases hd : n₁.deleted with
    | false => rfl
    | true => exact absurd ((hl₂.deleted h n₁ hn₁ hd).2 h0) hout
  have hring : n₁.ring.memos = [] := by
    obtain ⟨refs, hx⟩ := hsheds.block h n hread.read.1
    rw [hn₁] at hx
    cases hx
    rw [if_pos rfl]
    exact Ring.memos_empty
  have hl₃ : Ledger (p₁.put h { n₁ with deleted := true }) [] := by
    refine Ledger.put [] hl₂ hn₁ (fun _ => rfl) (hl₂.known h n₁ hn₁) (fun k hk => by cases hk) (fun _ => ⟨hring, hgone⟩)
      (fun hf => ?_) (Or.inl rfl)
    obtain ⟨x, hx, h0, hm⟩ := hl₂.free h hf
    rw [hn₁] at hx
    cases hx
    exact ⟨h0, hm⟩
  obtain ⟨n₃, hn₃, he₃⟩ := he₂.bind_read
  rw [block_put_self hn₁] at hn₃
  cases hn₃
  dsimp only at he₃
  split at he₃
  · rename_i h0
    obtain ⟨_, _, hrelease, -⟩ := he₃.bind
    have hrelease := hrelease.bind_get
    rw [if_pos (by simpa [Pool.put] using hgone h0)] at hrelease
    obtain ⟨_, _, hthrow, -⟩ := hrelease.bind
    exact absurd hthrow Ends.throw
  · obtain ⟨_, _, hreport, he₄⟩ := he₃.bind
    obtain rfl := hreport.report
    obtain ⟨-, rfl⟩ := he₄.pure
    exact ⟨hl₃, (Spares.of_sheds hsheds).trans (Spares.of_put hn₁ rfl)⟩

/-- Mates look alike. If `alive`, they are in use. -/
structure Twins (g : Geometry) (φ : Mates) (alive : Prop) (p p' : NodePool) : Prop where
  level : ∀ {i h h'}, φ i h h' → 0 < i
  left : ∀ {i j h k k'}, φ i h k → φ j h k' → j = i ∧ k' = k
  right : ∀ {i j h h' k}, φ i h k → φ j h' k → j = i ∧ h' = h
  akin : ∀ {i h h'}, φ i h h' → ∃ n n', p.block h = .ok n ∧ p'.block h' = .ok n' ∧ Akin g (φ.Same i) (n, n') n n'
  live : alive → ∀ {i h h'}, φ i h h' → p.Live h ∧ p'.Live h'
  tidy : Tidy g p ∧ Tidy g p'

theorem Akin.rebase {g : Geometry} {V : Word → Word → Prop} {base : Node × Node} {n n' : Node}
    (h : Akin g V base n n') : Akin g V (n, n') n n' := ⟨h.sizes, ⟨rfl, rfl⟩, h.word, h.value⟩

theorem Akin.mono {g : Geometry} {V V' : Word → Word → Prop} {base : Node × Node} {n n' : Node} (h : Akin g V base n n')
    (hV : ∀ {v v'}, V v v' → V' v v') : Akin g V' base n n' :=
  ⟨h.sizes, h.kept, h.word, fun i v v' hv hv' => hV (h.value i v v' hv hv')⟩

/-- The words matter, and what comes with them does not. -/
theorem Akin.of_words {g : Geometry} {V : Word → Word → Prop} {base : Node × Node} {n n' m m' : Node}
    (h : Akin g V base n n') (hm : m.words = n.words) (hm' : m'.words = n'.words) : Akin g V (m, m') m m' where
  sizes := by
    rw [hm, hm']
    exact h.sizes
  kept := ⟨rfl, rfl⟩
  word := by
    rw [hm, hm']
    exact h.word
  value := by
    rw [hm, hm']
    exact h.value

/-- The children in one slot of two mates are mates, if there are any. -/
theorem Akin.child {g : Geometry} {φ : Mates} {i : Nat} {base : Node × Node} {n n' : Node}
    (h : Akin g (φ.Same (i + 1)) base n n') (hi : 0 < i) (j : Nat) :
    Agree (Option.Rel (φ i)) (n.child g j) (n'.child g j) := by
  rw [Node.child, Node.child]
  exact Agree.bind (h.values j) fun v v' hv => Agree.pure ((Mates.same_inner hi).mp hv).2

namespace Twins
variable {g : Geometry} {φ : Mates} {alive : Prop} {p p' q q' : NodePool} {i : Nat}
    {h h' k k' : Handle} {n n' a a' : Node}

theorem weaken (ht : Twins g φ alive p p') : Twins g φ False p p' :=
  ⟨ht.level, ht.left, ht.right, ht.akin, fun hf => hf.elim, ht.tidy⟩

/-- Mates are overwritten alike. -/
theorem put (ht : Twins g φ alive p p') (hh : φ i h h') (hn : p.block h = .ok n) (hn' : p'.block h' = .ok n')
    (ha : Akin g (φ.Same i) (n, n') a a') : Twins g φ alive (p.put h a) (p'.put h' a') where
  level := ht.level
  left := ht.left
  right := ht.right
  akin {j k k'} hk := by
    rw [block_put hn, block_put hn']
    by_cases hkh : k = h
    · subst hkh
      obtain ⟨rfl, rfl⟩ := ht.left hh hk
      rw [if_pos rfl, if_pos rfl]
      exact ⟨a, a', rfl, rfl, ha.rebase⟩
    · rw [if_neg hkh, if_neg fun hkh' => hkh (ht.right hh (hkh' ▸ hk)).2]
      exact ht.akin hk
  live halive {j k k'} hk := by
    have hd : a.deleted = n.deleted := by rw [ha.kept.1]
    have hd' : a'.deleted = n'.deleted := by rw [ha.kept.2]
    rw [live_put a hn hd, live_put a' hn' hd']
    exact ht.live halive hk
  tidy := by
    rw [ha.kept.1, ha.kept.2]
    exact ⟨ht.tidy.1.put hn ha.sizes.1, ht.tidy.2.put hn' ha.sizes.2⟩

/-- Words are kept on both sides. -/
theorem spares (ht : Twins g φ alive p p') (hs : Spares p q) (hs' : Spares p' q') (hl : Ledger q [])
    (hl' : Ledger q' []) (hlive : alive → ∀ h, p.Live h → q.Live h) (hlive' : alive → ∀ h, p'.Live h → q'.Live h) :
    Twins g φ alive q q' where
  level := ht.level
  left := ht.left
  right := ht.right
  akin hh := by
    obtain ⟨n, n', hn, hn', hk⟩ := ht.akin hh
    obtain ⟨m, hm, hw⟩ := hs.words _ n hn
    obtain ⟨m', hm', hw'⟩ := hs'.words _ n' hn'
    exact ⟨m, m', hm, hm', hk.of_words hw hw'⟩
  live halive _ _ _ hh := (ht.live halive hh).imp (hlive halive _) (hlive' halive _)
  tidy := ⟨ht.tidy.1.spares hs hl, ht.tidy.2.spares hs' hl'⟩

/-! ### The steps of a program -/

theorem read (ht : Twins g φ alive p p') (hh : φ i h h') {γ δ : Type} {f : Node → NodeM γ} {f' : Node → NodeM δ}
    {Q : γ → NodePool → δ → NodePool → Prop}
    (hf : ∀ n n', p.block h = .ok n → p'.block h' = .ok n' → Akin g (φ.Same i) (n, n') n n' →
      Lockstep (f n) p (f' n') p' Q) :
    Lockstep (Pool.read h >>= f) p (Pool.read h' >>= f') p' Q := by
  obtain ⟨n, n', hn, hn', hk⟩ := ht.akin hh
  exact Lockstep.read hn hn' (hf n n' hn hn' hk)

/-- What comes after mates are overwritten alike. -/
theorem write (ht : Twins g φ alive p p') (hh : φ i h h') (hn : p.block h = .ok n) (hn' : p'.block h' = .ok n')
    (ha : Akin g (φ.Same i) (n, n') a a') {γ δ : Type} {f : Unit → NodeM γ} {f' : Unit → NodeM δ}
    {Q : γ → NodePool → δ → NodePool → Prop}
    (hf : Twins g φ alive (p.put h a) (p'.put h' a') → Lockstep (f ()) (p.put h a) (f' ()) (p'.put h' a') Q) :
    Lockstep (Pool.write h a >>= f) p (Pool.write h' a' >>= f') p' Q :=
  Lockstep.bind (Lockstep.write (R := fun _ q _ q' => q = p.put h a ∧ q' = p'.put h' a') ⟨rfl, rfl⟩)
    fun _ q _ q' hq => by
    rw [hq.1, hq.2]
    exact hf (ht.put hh hn hn' ha)

theorem update (ht : Twins g φ alive p p') (hh : φ i h h') {f f' : Node → Except Fault Node}
    (hf : ∀ n n', p.block h = .ok n → p'.block h' = .ok n' → Akin g (φ.Same i) (n, n') n n' →
      Agree (Akin g (φ.Same i) (n, n')) (f n) (f' n')) :
    Lockstep (Pool.update h f) p (Pool.update h' f') p' fun _ q _ q' => Twins g φ alive q q' ∧
      (∀ j, j ≠ h → q.block j = p.block j) ∧ ∀ j, j ≠ h' → q'.block j = p'.block j :=
  ht.read hh fun n n' hn hn' hk => Lockstep.lift (hf n n' hn hn' hk) fun _ _ ha => Lockstep.write
    ⟨ht.put hh hn hn' ha, fun _ hj => block_put_ne hj, fun _ hj => block_put_ne hj⟩

/-- A program that ends with what it computes leaves the pools as they are. -/
theorem computes (ht : Twins g φ alive p p') {α β : Type} {e : Except Fault α} {e' : Except Fault β} {V : α → β → Prop}
    (h : Agree V e e') :
    Lockstep (liftM e : NodeM α) p (liftM e' : NodeM β) p' fun a q b q' => Twins g φ alive q q' ∧ V a b :=
  (Lockstep.of_lift h).mono fun a q b q' ⟨hV, hq, hq'⟩ => by
    rw [hq, hq']
    exact ⟨ht, hV⟩

theorem invalidate (ht : Twins g φ alive p p') (hh : φ i h h') :
    Lockstep (NodePool.invalidate h) p (NodePool.invalidate h') p' fun _ q _ q' => Twins g φ alive q q' :=
  fun _ q _ q' he he' => by
    obtain ⟨n, n', hn, hn', -⟩ := ht.akin hh
    obtain ⟨p₁, hrun, hl, hs⟩ := invalidate_spec ht.tidy.1.ledger hn
    obtain ⟨p₁', hrun', hl', hs'⟩ := invalidate_spec ht.tidy.2.ledger hn'
    obtain rfl := (hrun.of_ends he).2
    obtain rfl := (hrun'.of_ends he').2
    exact ht.spares (Spares.of_sheds hs) (Spares.of_sheds hs') hl hl' (fun _ k hk =>
      (hs.live k).mpr ⟨hk, fun hf => (by cases hf)⟩) fun _ k hk => (hs'.live k).mpr ⟨hk, fun hf => (by cases hf)⟩

/-- The rings of mates above the leaves are emptied. -/
theorem invalidate_above (ht : Twins g φ alive p p') (hh : φ i h h') {γ δ : Type} {level : Nat} {f : Unit → NodeM γ}
    {f' : Unit → NodeM δ} {Q : γ → NodePool → δ → NodePool → Prop}
    (hf : ∀ q q', Twins g φ alive q q' → Lockstep (f ()) q (f' ()) q' Q) :
    Lockstep (if level > 1 then NodePool.invalidate h >>= f else f ()) p
      (if level > 1 then NodePool.invalidate h' >>= f' else f' ()) p' Q :=
  Lockstep.ite Iff.rfl (fun _ => Lockstep.bind (ht.invalidate hh) fun _ _ _ _ => hf _ _) fun _ => hf _ _ ht

theorem unlink (ht : Twins g φ False p p') (h h' : Handle) :
    Lockstep (NodePool.unlink h) p (NodePool.unlink h') p' fun _ q _ q' => Twins g φ False q q' :=
    fun _ q _ q' he he' => by
  obtain ⟨hl, hs⟩ := he.unlink ht.tidy.1.ledger
  obtain ⟨hl', hs'⟩ := he'.unlink ht.tidy.2.ledger
  exact ht.spares hs hs' hl hl' (fun hf => hf.elim) fun hf => hf.elim

/-- Two new nodes become mates. -/
theorem hands (ht : Twins g φ True p p') {level : Nat} (hlevel : 0 < level) (hl : Ledger q []) (hl' : Ledger q' [])
    (hh : Hands p q h) (hh' : Hands p' q' h') :
    Twins g (φ.add level h h') True q q' ∧ ∀ {i k k'}, φ i k k' → k ≠ h ∧ k' ≠ h' := by
  have hnew : ∀ {i k k'}, φ i k k' → k ≠ h ∧ k' ≠ h' := fun hk =>
    ⟨fun heq => hh.unused (heq ▸ (ht.live trivial hk).1), fun heq => hh'.unused (heq ▸ (ht.live trivial hk).2)⟩
  refine ⟨⟨fun hk => ?_, fun hk hk' => ?_, fun hk hk' => ?_, fun {i k k'} hk => ?_, fun _ {i k k'} hk => ?_,
    ht.tidy.1.hands hl hh, ht.tidy.2.hands hl' hh'⟩, hnew⟩
  · rcases hk with hk | ⟨rfl, -, -⟩
    · exact ht.level hk
    · exact hlevel
  · rcases hk with hk | ⟨rfl, rfl, rfl⟩ <;> rcases hk' with hk' | ⟨rfl, hkh, rfl⟩
    · exact ht.left hk hk'
    · exact absurd hkh (hnew hk).1
    · exact absurd rfl (hnew hk').1
    · exact ⟨rfl, rfl⟩
  · rcases hk with hk | ⟨rfl, rfl, rfl⟩ <;> rcases hk' with hk' | ⟨rfl, rfl, hkh⟩
    · exact ht.right hk hk'
    · exact absurd hkh (hnew hk).2
    · exact absurd rfl (hnew hk').2
    · exact ⟨rfl, rfl⟩
  · rcases hk with hk | ⟨rfl, rfl, rfl⟩
    · obtain ⟨n, n', hn, hn', hakin⟩ := ht.akin hk
      exact ⟨n, n', (hh.other k (hnew hk).1).trans hn, (hh'.other k' (hnew hk).2).trans hn',
        hakin.mono (Mates.same_mono (φ.le_add level h h'))⟩
    · -- new nodes are alike because all their words are zero
      refine ⟨_, _, hh.clean, hh'.clean, ⟨?_, ?_⟩, ⟨rfl, rfl⟩, fun j _ => ?_, fun j v v' hv hv' => ?_⟩
      · rw [ht.tidy.1.slotWords_eq, Array.size_replicate]
      · rw [ht.tidy.2.slotWords_eq, Array.size_replicate]
      · rw [ht.tidy.1.slotWords_eq, ht.tidy.2.slotWords_eq]
      · have hv := Array.mem_of_getElem? hv
        have hv' := Array.mem_of_getElem? hv'
        rw [(Array.mem_replicate.mp hv).2, (Array.mem_replicate.mp hv').2]
        exact (Mates.matches_same _ _).zero
  · rw [hh.live, hh'.live]
    rcases hk with hk | ⟨-, rfl, rfl⟩
    · exact (ht.live trivial hk).imp Or.inl Or.inl
    · exact ⟨Or.inr rfl, Or.inr rfl⟩

theorem allocate (ht : Twins g φ True p p') (hfits : 8 * g.slotWords ≤ addressable) {level : Nat} (hlevel : 0 < level)
    (he : Ends Pool.allocate p (.ok h) q) (he' : Ends Pool.allocate p' (.ok h') q') :
    Twins g (φ.add level h h') True q q' ∧ ∀ {i k k'}, φ i k k' → k ≠ h ∧ k' ≠ h' := by
  have hgives : ∀ {p q : NodePool} {h : Handle}, Tidy g p → Ends Pool.allocate p (.ok h) q →
    Ledger q [] ∧ Hands p q h :=
    fun ht he => by
      rcases allocate_spec ht.ledger (by rwa [ht.slotWords_eq]) (fun k n hn =>
        (ht.size k n hn).trans ht.slotWords_eq.symm) with ⟨_, hrun, -⟩ | ⟨_, _, hrun, hl, hh⟩
      · cases (hrun.of_ends he).1
      · cases (hrun.of_ends he).1
        obtain rfl := (hrun.of_ends he).2
        exact ⟨hl, hh⟩
  obtain ⟨hl, hh⟩ := hgives ht.tidy.1 he
  obtain ⟨hl', hh'⟩ := hgives ht.tidy.2 he'
  exact ht.hands hlevel hl hl' hh hh'

end Twins
end MemoTree
