import MemoTree.Proofs.Halving
import MemoTree.Proofs.Supply

/-! # Insertion

A pair is put into a level, splitting the node it belongs to if that is full. The induction is on the number of
levels above: linking a new node's separator is putting a pair into the level above, and above the root a level
is added. If no block can be had, the tree holds the pairs it held. -/

namespace MemoTree
open Pool NodePool Rows

/-- A block was asked for in vain after at most `steps` others were handed out; `p'` is left. -/
structure Starved (p p' : NodePool) (steps inUse : Nat) : Prop where
  le : p.out ≤ inUse
  le_add : inUse ≤ p.out + steps
  exhausted : (∃ limit, p.limit = some limit ∧ limit ≤ inUse) ∨ inUse = 2 ^ 32 - 1
  made : inUse ≤ p'.blocks.size

theorem Starved.of_exhausted {p : NodePool} {inUse : Nat} (h : Exhausted p inUse) (steps : Nat) :
    Starved p p steps inUse := by
  obtain ⟨rfl, h⟩ := h
  exact ⟨Nat.le_refl _, Nat.le_add_right _ _, h, Nat.sub_le _ _⟩

/-- `link` puts the separator of any new node into the level above, where `m` levels are above the nodes. -/
def Links (w : Width) (link : Words → Word → Nat → TreeM w (Except Error Unit)) (m : Nat) : Prop :=
  ∀ {t : Tree w} {c : Rows} {r : Handle} {rest : Handle → Prop} {h : Handle} {k : Nat} (q : Handle),
    Linking t c r m rest h k → q ∉ c.level r m → 8 * t.geometry.slotWords ≤ addressable → 2 ≤ t.pairs →
    (∃ inUse p c', Runs (link (Words.ofNat w.words k) q.word (t.height - m + 1)) t (.error (.outOfMemory inUse))
      { t with pool := p } ∧ Loosened t c r m rest p c' ∧ Starved t.pool p m inUse ∧ Repaid t.pool p) ∨
    ∃ t' c' r' d', Runs (link (Words.ofNat w.words k) q.word (t.height - m + 1)) t (.ok ()) t' ∧
      Linked t c r m rest h k q t' c' r' d'

/-- A new node that was never linked is given back. -/
theorem Stock.back_new {g : Geometry} {p p₁ p₂ : NodePool} {c : Rows} {q : Handle} (hhands : Hands p p₁ q)
    (hf : Fades p₁ p₂) (hs : Stock g p₂ c) (hq : p₂.Live q) :
    Stock g { p₂ with free := q :: p₂.free, released := p₂.released + 1 } c := by
  have hquiet := quiet_of_hands hhands
  have hunnamed : ¬p₁.Names q := by
    rintro ⟨i, n, hn, m, hm, hmq⟩
    by_cases hi : i = q
    · subst hi
      rw [hquiet n hn] at hm
      cases hm
    · rw [hhands.other i hi] at hn
      exact hhands.unnamed i n hn m hm hmq
  obtain ⟨n, hn, -⟩ := id hq
  refine hs.back hq hn ?_ (hf.quiet hquiet n hn)
  rw [hs.ledger.refs q n hn, named_eq_zero hs.ledger.small fun i n hn m hm hmq =>
    hunnamed (hf.names ⟨i, n, hn, m, hm, hmq⟩)]
  rfl

section Splits
variable {w : Width} {t : Tree w} {c c₂ : Rows} {r h q : Handle} {d level : Nat} {rest : Handle → Prop}
  {p₁ p₂ : NodePool}

/-- If its separator cannot be linked, the new node is given back and the tree is as before. -/
theorem unsplit (hst : Stand t c r (d + 1) rest) (hhands : Hands t.pool p₁ q)
    (hl : Loosened ({ t with pool := p₁ } : Tree w) (Function.update c q []) r d (Aside c r d rest q) p₂ c₂) :
    p₂.Live q ∧ Loosened t c r (d + 1) rest { p₂ with free := q :: p₂.free, released := p₂.released + 1 }
      (Function.update c₂ q (c q)) := by
  have hnew : ∀ i, t.pool.Live i → i ≠ q := fun i hi hiq => hhands.unused (hiq ▸ hi)
  have hq : p₂.Live q := (hl.stand.live q).mpr (Or.inr (Or.inr rfl))
  have hlive : ∀ i, ({ p₂ with free := q :: p₂.free, released := p₂.released + 1 } : NodePool).Live i ↔ t.pool.Live i :=
    fun i => by
      rw [live_back, hl.edits.live, hhands.live]
      constructor
      · rintro ⟨hi | hi, hne⟩
        · exact hi
        · exact absurd hi hne
      · exact fun hi => ⟨Or.inl hi, hnew i hi⟩
  have hfades : Fades t.pool { p₂ with free := q :: p₂.free, released := p₂.released + 1 } :=
    (Fades.of_hands hhands).trans (hl.edits.fades.trans (Fades.of_back p₂ q _))
  have hback := (Stock.back_new hhands hl.edits.fades hl.stand.stock hq).congr fun i hi =>
    Function.update_of_ne (hnew i ((hlive i).mp hi)) (c q) c₂
  have hrow : ∀ i, rest i ∨ i ∈ c.level r d → Function.update c₂ q (c q) i = c i := fun i hi => by
    by_cases hiq : i = q
    · rw [hiq, Function.update_self]
    · rw [Function.update_of_ne hiq, hl.rest i (Or.inl hi), Function.update_of_ne hiq]
  have hloose := hl.loosens.restore
  refine ⟨hq, ?_, ⟨hfades, hlive, ?_⟩, hloose, fun i hi j hj => ?_, fun i hi => hrow i (Or.inl hi)⟩
  · have hcrown : ∀ i ∈ c₂.crown r d, i ≠ q := fun i hi hiq => hl.stand.apart q (Or.inr rfl) (hiq ▸ hi)
    refine hst.regain (hl.stand.congr hback (Fades.of_back p₂ q _) (fun i hi => Function.update_of_ne (hcrown i hi) _ _)
      (fun i => ?_) fun i hi => hl.stand.apart i (Or.inl hi)) hfades hloose fun i hi => hrow i (Or.inr hi)
    rw [live_back, show p₂.Live i ↔ _ from hl.stand.live i, Aside]
    constructor
    · rintro ⟨hi | (hi | hi), hne⟩
      · exact Or.inl hi
      · exact Or.inr hi
      · exact absurd hi hne
    · rintro (hi | hi)
      · exact ⟨Or.inl hi, hcrown i hi⟩
      · exact ⟨Or.inr (Or.inl hi), hnew i ((hst.truncate.live i).mpr (Or.inr hi))⟩
  · have h₁ : p₂.blocks.size - p₂.free.length = p₁.out := hl.edits.out
    have h₂ := hhands.out
    change p₂.blocks.size - (p₂.free.length + 1) = t.pool.out
    omega
  · obtain rfl : d = i := by omega
    exact hrow j (Or.inr hj)

/-- A full node is split, unless there is no block for its sibling or for a separator above. -/
theorem split_spec {link : Words → Word → Nat → TreeM w (Except Error Unit)} (hlink : Links w link d)
    (hst : Stand t c r (d + 1) rest) (hc : Coherent w t.pool c []) (hlevel : level + d = t.height)
    (hh : h ∈ c.level r d) (hfull : (c h).length = t.pairs) (hfits : 8 * t.geometry.slotWords ≤ addressable)
    (hpairs : 2 ≤ t.pairs) :
    (∃ inUse p c', Runs (Tree.split link h level) t (.error (.outOfMemory inUse)) { t with pool := p } ∧
      Loosened t c r (d + 1) rest p c' ∧ Starved t.pool p (d + 1) inUse ∧ Repaid t.pool p) ∨
    ∃ t' c' r' d', Runs (Tree.split link h level) t (.ok ()) t' ∧ Halved t c r d rest h t' c' r' d' := by
  -- the key of the pair in front of the cut becomes the separator
  obtain ⟨A, B, e, hcut, hAl, he⟩ := Cut.exists_length ((hst.sound d rfl).descending_level (Nat.le_refl d) hh)
    (n := t.pairs / 2) (by omega) (by omega)
  rcases hst.stock.allocate hfits with ⟨inUse, hrun, hex⟩ | ⟨q, p₁, hrun, hhands, hs₁⟩
  · exact Or.inl ⟨inUse, t.pool, c, Runs.bind (Runs.get _) (Runs.bind (Runs.onNodes hrun) (Runs.pure _ _)),
      Loosened.refl hst, Starved.of_exhausted hex _, Repaid.refl _⟩
  have hlends := hst.stock.lends hrun
  have hhlive := hst.live_of_level (Nat.lt_succ_self d) hh
  have hhq : h ≠ q := fun hhq => hhands.unused (hhq ▸ hhlive)
  have hlinking := linking hst hc hh hfull hcut hhands hs₁
  have hq : q ∉ Rows.level (Function.update c q []) r d := by
    rw [level_congr fun j hj i hi => hst.update_level hhands.unused [] (Nat.lt_succ_of_lt hj) hi]
    exact fun hql => hhands.unused (hst.live_of_level (Nat.lt_succ_self d) hql)
  obtain ⟨n, hn, hpacks⟩ := hs₁.node ((hhands.live h).mpr (Or.inl hhlive))
  rw [Function.update_of_ne hhq] at hpacks
  have hkey : n.key t.geometry (t.pairs / 2 - 1) = .ok (Words.ofNat t.geometry.keyLength e.1) := hpacks.key_eq he
  have hhalf : t.geometry.pairs / 2 ≠ 0 := by
    have : t.geometry.pairs = t.pairs := rfl
    omega
  have hlink' := hlink q hlinking hq hfits hpairs
  rw [show ({ t with pool := p₁ } : Tree w).height - d + 1 = level + 1 by
    change t.height - d + 1 = level + 1
    omega] at hlink'
  rcases hlink' with ⟨inUse, p₂, c₂, hrun', hl, hstarved, hrepaid⟩ | ⟨t₂, c₂, r₂, d₂, hrun', hl⟩
  · -- the sibling goes back to the pool before any pair was moved to it
    obtain ⟨hqlive, hloose⟩ := unsplit hst hhands hl
    have hout : q ∉ p₂.free := by
      obtain ⟨-, -, -, hout⟩ := hqlive
      exact hout
    refine Or.inl ⟨inUse, _, _, ?_, hloose, ?_, Repaid.of_lends hlends hrepaid⟩
    · exact Runs.bind (Runs.get _) (Runs.bind (Runs.onNodes hrun) (Runs.of_neg hhalf (Runs.bind (Runs.onNodes
        (Runs.bind (Runs.read hn) (Runs.lift hkey _))) (Runs.bind hrun' (Runs.bind (Runs.onNodes (runs_release hout))
        (Runs.pure _ _))))))
    · have hle : p₁.out ≤ inUse := hstarved.le
      have hle' : inUse ≤ p₁.out + d := hstarved.le_add
      have := hhands.out
      exact ⟨by omega, by omega, hhands.limit ▸ hstarved.exhausted, hstarved.made⟩
  · have hgeometry : t₂.geometry = t.geometry := hl.alike.geometry
    have hrow : c₂ h = A ++ B := by rw [hl.rest h (Or.inl (Or.inr hh)), Function.update_of_ne hhq, hcut.row]
    have hqrow : c₂ q = [] := by rw [hl.rest q (Or.inr rfl), Function.update_self]
    have hfull' : (A ++ B).length = t₂.geometry.pairs := by
      rw [hgeometry, ← hcut.row, hfull]
      rfl
    obtain ⟨p₃, hmove, hs₃, hf₃, hlive₃, hquiet₃⟩ := moveHalf_spec level hl.stand.stock
      ((hl.stand.live h).mpr (Or.inr (Or.inl (Or.inr hh)))) ((hl.stand.live q).mpr (Or.inr (Or.inr rfl))) hhq hrow
      hcut.ne_nil hfull' hqrow fun hl' => ((Fades.of_hands hhands).trans hl.fades).quiet
        (hst.quiet d rfl (by have := hst.height; omega) h hh)
    rw [hgeometry, hAl] at hmove
    refine Or.inr ⟨_, _, _, _, ?_, halved hst hh hcut hAl hfull hpairs hhands hl hs₃ hf₃ hlive₃ hquiet₃⟩
    exact Runs.bind (Runs.get _) (Runs.bind (Runs.onNodes hrun) (Runs.of_neg hhalf (Runs.bind (Runs.onNodes
      (Runs.bind (Runs.read hn) (Runs.lift hkey _))) (Runs.bind hrun' (Runs.bind (Runs.onNodes hmove)
      (Runs.pure _ _))))))

end Splits

/-! ### Putting a pair into a level -/

section Levels
variable {w : Width} {t t₁ t' : Tree w} {c c₁ c' : Rows} {r r₁ r' h : Handle} {d d₁ d' k level rungs : Nat} {v : Word}
  {rest : Handle → Prop} {p : NodePool}

/-- A pair put in after separators were lowered. -/
theorem Loosened.inserted (hl : Loosened t c r (d + 1) rest p c₁) (hmiss : ∀ i, c.Misses k r (d + 1) i → c₁ i = c i)
    (hi : Inserted ({ t with pool := p } : Tree w) c₁ r d k v rest t' c' r' d') :
    Inserted t c r d k v rest t' c' r' d' where
  alike := ⟨hi.alike.len, hi.alike.pairs, hi.alike.memoize, hi.alike.hooks⟩
  stand := hi.stand
  height := hi.height
  fades := hl.edits.fades.trans hi.fades
  coherent := hi.coherent
  rest i hri := (hi.rest i hri).trans (hl.rest i hri)
  pairs := hl.pairs ▸ hi.pairs
  aimed e he hek x := by
    rw [← hl.aimed] at he ⊢
    exact hi.aimed e he hek x
  filled := (hl.loosens.filled t.pairs r d).trans hi.filled
  sibling hg hbelow he hek hej hq hs ha := by
    rw [← hl.aimed] at he
    rw [← hl.loosens.level] at hs
    exact hi.sibling hg hbelow he hek hej hq hs (hl.loosens.abides ha)
  lives i hlive := hi.lives i ((hl.edits.live i).mpr hlive)
  missed i hlive hm := by
    rw [hi.missed i ((hl.edits.live i).mpr hlive) ((misses_congr fun _ _ => hl.loosens.land).mpr hm), hmiss i hm]

/-- A pair put in after a split. -/
theorem Halved.inserted (hland : c.land k r d = some h) (hh : Halved t c r d rest h t₁ c₁ r₁ d₁)
    (hi : Inserted t₁ c₁ r₁ d₁ k v rest t' c' r' d') : Inserted t c r d k v rest t' c' r' d' where
  alike := hh.alike.trans hi.alike
  stand := hi.stand
  height := by
    have h₁ := hh.height
    have h₂ := hi.height
    omega
  fades := hh.fades.trans hi.fades
  coherent := hi.coherent
  rest i hri := (hi.rest i hri).trans (hh.rest i hri)
  pairs := hi.pairs.trans (List.Perm.cons _ hh.pairs)
  aimed e he hek x := by
    rw [← hh.aimed] at he ⊢
    exact hi.aimed e he hek x
  filled := hh.filled.trans (hh.alike.pairs ▸ hi.filled)
  sibling hg hbelow he hek hej hq hs ha := by
    have hheight := hh.height
    rw [← hh.aimed] at he
    rw [← hh.alike.pairs] at hg hs
    refine hi.sibling hg (by omega) he hek hej hq (hs.perm ?_) (hh.siblings (hh.alike.pairs ▸ hg) hbelow ha)
    rw [level_eq_children, level_eq_children]
    exact hh.pairs.filterMap Pair.child
  lives i hlive := hi.lives i (hh.lives i hlive)
  missed i hlive hm := by
    rw [hi.missed i (hh.lives i hlive) (hh.misses k hland i hlive hm), hh.missed k hland i hlive hm]

/-- A new key is put into a level if the separators of new nodes can be put into the levels above. -/
theorem addAt_step (hlink : Links w (fun k v l => Tree.addAt rungs k v l) d) (hst : Stand t c r (d + 1) rest)
    (hc : Coherent w t.pool c []) (hlevel : level + d = t.height) (hk : k < 2 ^ w.bits) (hv : v ≠ 0)
    (hchild : 1 < level → ∃ q, Pair.child (k, v) = some q) (hland : c.land k r d = some h)
    (hnew : ∀ e ∈ c h, e.1 ≠ k) (hfits : 8 * t.geometry.slotWords ≤ addressable) (hpairs : 2 ≤ t.pairs) :
    (∃ inUse p c', Runs (Tree.addAt (rungs + 1) (Words.ofNat w.words k) v level) t (.error (.outOfMemory inUse))
      { t with pool := p } ∧ Loosened t c r (d + 1) rest p c' ∧ Starved t.pool p (d + 1) inUse ∧
      ∃ p₁, Runs (Tree.nodeAt (Words.ofNat w.words k) level) t h { t with pool := p₁ } ∧ Repaid p₁ p) ∨
    ∃ t' c' r' d', Runs (Tree.addAt (rungs + 1) (Words.ofNat w.words k) v level) t (.ok ()) t' ∧
      Inserted t c r d k v rest t' c' r' d' := by
  have hbelow : ¬t.height < level := by omega
  rcases hst.tryPlace_new hc hlevel hk hv hchild hland hnew with ⟨hfull, p, c₁, hrun, hdown, hl, hmiss⟩ |
    ⟨-, p, c', hrun, hi⟩
  · have hh := mem_level_of_land hland
    have hh₁ : h ∈ c₁.level r d := by rwa [hl.loosens.level]
    have hrow := hl.lowest d rfl h hh
    rcases split_spec hlink hl.stand (hl.coherent hc) hlevel hh₁ (hrow ▸ hfull) hfits hpairs with
      ⟨inUse, p', c', hrun', hl', hstarved, hrepaid⟩ | ⟨t₁, c₂, r₁, d₁, hrun', hhalf⟩
    · refine Or.inl ⟨inUse, p', c', ?_, hl.trans hl', ⟨hl.edits.out ▸ hstarved.le, hl.edits.out ▸ hstarved.le_add,
        hl.edits.fades.limit ▸ hstarved.exhausted, hstarved.made⟩, p, hdown, hrepaid⟩
      exact Runs.bind (Runs.get _) (Runs.of_neg hbelow (Runs.bind hrun (Runs.bind hrun' (Runs.pure _ _))))
    · -- the second attempt descends anew: the split may have sent the key to the sibling, or grown the tree
      obtain ⟨i, hi⟩ := (hhalf.stand.sound d₁ rfl).exists_land k (Nat.le_refl d₁)
      obtain ⟨hroom, hsub⟩ := hhalf.room k i (by rwa [hl.loosens.land]) hi
      have hheight : level + d₁ = t₁.height := by
        have : t₁.height + d = t.height + d₁ := hhalf.height
        omega
      rcases hhalf.stand.tryPlace_new hhalf.coherent hheight hk hv hchild hi fun e he => hnew e (hrow ▸ hsub e he) with
        ⟨hfull', -⟩ | ⟨-, p', c', hrun'', hi'⟩
      · rw [hfull', hhalf.alike.pairs] at hroom
        exact absurd hroom (Nat.lt_irrefl _)
      · refine Or.inr ⟨_, c', r₁, d₁, ?_, hl.inserted hmiss (hhalf.inserted (hl.loosens.land.trans hland) hi')⟩
        exact Runs.bind (Runs.get _) (Runs.of_neg hbelow (Runs.bind hrun (Runs.bind hrun' (Runs.bind hrun''
          (Runs.pure _ _)))))
  · exact Or.inr ⟨_, c', r, d, Runs.bind (Runs.get _) (Runs.of_neg hbelow (Runs.bind hrun (Runs.pure _ _))), hi⟩

/-- A level that is added above the root has room for the separator of a new node. -/
theorem Linking.above {q : Handle} (hl : Linking t c r 0 rest h k) (hq : q ∉ c.level r 0)
    (hfits : 8 * t.geometry.slotWords ≤ addressable) (hpairs : 2 ≤ t.pairs) :
    (∃ inUse, Runs Tree.addLevel t (.error (.outOfMemory inUse)) t ∧ Exhausted t.pool inUse) ∨
    ∃ t₁ t' c' r' d', Runs Tree.addLevel t (.ok ()) t₁ ∧
      Runs (Tree.tryPlace (Words.ofNat w.words k) q.word (t.height - 0 + 1)) t₁ .placed t' ∧
      Linked t c r 0 rest h k q t' c' r' d' := by
  rcases addLevel_spec hl hfits hpairs with hnone | ⟨p, top, s, hrun, hst, hf, hquiet, htop, hs, hmin⟩
  · exact Or.inl hnone
  have hc : Coherent w p (Function.update c top [(s, r.word)]) [] := hl.coherent.mono hf fun i hi x j hj => by
    rwa [look, Function.update_of_ne]
    rintro rfl
    exact hi hquiet
  have hrow : Function.update c top [(s, r.word)] top = [(s, r.word)] := Function.update_self _ _ _
  have hnew : ∀ e ∈ Function.update c top [(s, r.word)] top, e.1 ≠ k := fun e he => by
    rw [hrow, List.mem_singleton] at he
    rw [he]
    exact Nat.ne_of_lt hs
  have hr : q ≠ r := fun hqr => hq (List.mem_singleton.mpr hqr)
  rcases hst.tryPlace_new hc (show t.height - 0 + 1 + 0 = t.height + 1 by omega) hl.small q.word_ne_zero
    (fun _ => ⟨q, Pair.child_word k q⟩) rfl hnew with ⟨hfull, -⟩ | ⟨-, p', c', hrun', hi⟩
  · rw [hrow] at hfull
    change 1 = t.pairs at hfull
    omega
  · exact Or.inr ⟨_, _, c', top, 0, hrun, hrun', hl.linked_above hr hf htop hs hmin hi⟩

/-- Above the root a level is added for the separator of a new node. -/
theorem links_above (w : Width) : Links w (fun k v l => Tree.addAt 1 k v l) 0 := by
  intro t c r rest h k q hl hq hfits hpairs
  have habove : t.height < t.height - 0 + 1 := by omega
  rcases hl.above hq hfits hpairs with ⟨inUse, hrun, hex⟩ | ⟨t₁, t', c', r', d', hrun, hrun', hlinked⟩
  · refine Or.inl ⟨inUse, t.pool, c, ?_, Loosened.refl hl.stand, Starved.of_exhausted hex 0, Repaid.refl _⟩
    exact Runs.bind (Runs.get _) (Runs.of_pos habove (Runs.bind hrun (Runs.pure _ _)))
  · refine Or.inr ⟨t', c', r', d', ?_, hlinked⟩
    exact Runs.bind (Runs.get _) (Runs.of_pos habove (Runs.bind hrun (Runs.bind hrun' (Runs.pure _ _))))

/-- The separator of a new node is put into the level above, whatever that level is. -/
theorem links_addAt (w : Width) (m : Nat) : Links w (fun k v l => Tree.addAt (m + 1) k v l) m := by
  induction m with
  | zero => exact links_above w
  | succ d ih =>
    intro t c r rest h k q hl hq hfits hpairs
    obtain ⟨i, e, hroute, -⟩ := hl.aimed
    have hland := land_of_route hroute
    have hbelow := hl.below
    have hlevel : t.height - (d + 1) + 1 + d = t.height := by omega
    rcases addAt_step ih hl.stand hl.coherent hlevel hl.small q.word_ne_zero (fun _ => ⟨q, Pair.child_word k q⟩) hland
      (hl.new hland) hfits hpairs with ⟨inUse, p, c', hrun, hloose, hstarved, p₁, hdown, hrepaid⟩ |
      ⟨t', c', r', d', hrun, hi⟩
    · -- lookups find the key that becomes the separator, so that no separator above is lowered for it
      obtain rfl : p₁ = t.pool := congrArg Tree.pool (hdown.unique (hl.stand.nodeAt_routed hlevel hl.small hroute)).2
      exact Or.inl ⟨inUse, p, c', hrun, hloose, hstarved, hrepaid⟩
    · exact Or.inr ⟨t', c', r', d', hrun, hl.linked hq hi⟩

end Levels
end MemoTree
