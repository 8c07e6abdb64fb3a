import MemoTree.Proofs.Whole

/-! # Insertion into a tree and removal from it

What the two operations do to a whole tree: an insertion adds its pair unless the key is present or no block can be
had, a removal takes the pair of its key out if there is one. A tree whose nodes cannot be made stays without
entries. -/

namespace MemoTree
open Pool NodePool Rows

section Rooted
variable {w : Width} {t t' : Tree w} {c c' : Rows} {r r' h : Handle} {d d' k : Nat} {v : Word}
    {row : Row} {p : NodePool}

/-- A rooted tree of which separators were lowered. -/
theorem Loosened.rooted (hl : Loosened t c r t.height (fun _ => False) p c') (hr : Rooted t c r) :
    Rooted ({ t with pool := p } : Tree w) c' r ∧ c'.pairs r (t.height - 1) = c.pairs r (t.height - 1) := by
  refine ⟨⟨hr.tall, hl.stand, hl.coherent hr.coherent⟩, ?_⟩
  obtain ⟨d, hd⟩ := hr.exists_height
  rw [hd] at hl ⊢
  exact hl.pairs

theorem Inserted.rooted (hi : Inserted t c r d k v (fun _ => False) t' c' r' d') (hd : t.height = d + 1) :
    Rooted t' c' r' ∧ t'.height = d' + 1 := by
  have hheight : t'.height = d' + 1 := by
    have := hi.height
    omega
  refine ⟨⟨by omega, ?_, hi.coherent⟩, hheight⟩
  rw [hheight]
  exact hi.stand

/-- A key put into a rooted tree. -/
theorem Rooted.addAt (hr : Rooted t c r) (hd : t.height = d + 1) (hp : 2 ≤ t.pairs)
    (hf : 8 * t.geometry.slotWords ≤ addressable) (hk : k < 2 ^ w.bits) (hv : v ≠ 0) :
    ((∃ e ∈ c.pairs r d, e.1 = k) ∧
      Runs (Tree.addAt (t.height + 1) (Words.ofNat w.words k) v 1) t (.error .duplicateKey) t) ∨
    (∀ e ∈ c.pairs r d, e.1 ≠ k) ∧
      ((∃ inUse p c', Runs (Tree.addAt (t.height + 1) (Words.ofNat w.words k) v 1) t (.error (.outOfMemory inUse))
        { t with pool := p } ∧ Loosened t c r t.height (fun _ => False) p c' ∧ Starved t.pool p t.height inUse ∧
        ∃ h p₁, Runs (Tree.nodeAt (Words.ofNat w.words k) 1) t h { t with pool := p₁ } ∧ Repaid p₁ p) ∨
      ∃ t' c' r' d', Runs (Tree.addAt (t.height + 1) (Words.ofNat w.words k) v 1) t (.ok ()) t' ∧
        Inserted t c r d k v (fun _ => False) t' c' r' d') := by
  have hst : Stand t c r (d + 1) fun _ => False := hd ▸ hr.stand
  have hsound := hst.sound d rfl
  by_cases hold : ∃ e ∈ c.pairs r d, e.1 = k
  · obtain ⟨e, he, hek⟩ := hold
    obtain ⟨h, hh, heh⟩ := mem_pairs.mp he
    have hrun := hst.tryPlace_old (v := v) (by omega) hk hh heh hek
    exact Or.inl ⟨⟨e, he, hek⟩, Runs.bind (Runs.get _) (Runs.of_neg (by omega) (Runs.bind hrun (Runs.pure _ _)))⟩
  · have hnew : ∀ e ∈ c.pairs r d, e.1 ≠ k := fun e he hek => hold ⟨e, he, hek⟩
    obtain ⟨h, hland⟩ := hsound.exists_land k (Nat.le_refl d)
    have hstep := addAt_step (links_addAt w d) hst hr.coherent (show 1 + d = t.height by omega) hk hv
      (fun h1 => absurd h1 (Nat.lt_irrefl 1)) hland (fun e he =>
        hnew e (mem_pairs.mpr ⟨h, mem_level_of_land hland, he⟩)) hf hp
    rw [← hd] at hstep
    rcases hstep with ⟨inUse, p, c', hrun, hl, hstarved, p₁, hdown, hrepaid⟩ | hstep
    · exact Or.inr ⟨hnew, Or.inl ⟨inUse, p, c', hrun, hl, hstarved, h, p₁, hdown, hrepaid⟩⟩
    · exact Or.inr ⟨hnew, Or.inr hstep⟩

end Rooted

section Bare
variable {w : Width} {t : Tree w} {k : Nat} {v : Word} {row : Row}

/-- A new root has room for the first pair. -/
theorem Bare.above (hb : Bare t) (hp : 2 ≤ t.pairs) (hf : 8 * t.geometry.slotWords ≤ addressable) (hk : k < 2 ^ w.bits)
    (hv : v ≠ 0) :
    (∃ inUse, Runs Tree.addLevel t (.error (.outOfMemory inUse)) t ∧ Exhausted t.pool inUse) ∨
    ∃ t₁ t' c r, Runs Tree.addLevel t (.ok ()) t₁ ∧ Runs (Tree.tryPlace (Words.ofNat w.words k) v 1) t₁ .placed t' ∧
      Rooted t' c r ∧ Alike t t' ∧ Fades t.pool t'.pool ∧ t'.height = 1 ∧ c.pairs r (t'.height - 1) = [(k, v)] := by
  have hroot := hb.root
  have hheight := hb.height
  rcases hb.stock.allocate hf with ⟨inUse, hrun, hex⟩ | ⟨top, p, hrun, hhands, hs⟩
  · exact Or.inl ⟨inUse, Runs.bind (Runs.onNodes hrun) (Runs.pure _ _), hex⟩
  right
  have hadd : Runs Tree.addLevel t (.ok ()) { t with pool := p, root := some top, height := t.height + 1 } := by
    refine Runs.bind (Runs.onNodes hrun) (Runs.bind (Runs.get _) ?_)
    rw [show ({ t with pool := p } : Tree w).root = none from hroot]
    exact Runs.bind (Runs.modify _ _) (Runs.bind (Runs.get _) (Runs.bind (Runs.report _ _) (Runs.pure _ _)))
  -- the tree and its rows are named, as the steps below would be unfolded through them otherwise
  obtain ⟨t₁, ht₁⟩ : ∃ t₁ : Tree w, { t with pool := p, root := some top, height := t.height + 1 } = t₁ := ⟨_, rfl⟩
  rw [ht₁] at hadd
  have hlive : p.Live top := (hhands.live top).mpr (Or.inr rfl)
  have hquiet : p.Quiet top := fun x hx => by
    rw [hhands.clean] at hx
    cases hx
    exact Ring.memos_empty
  have hs₁ : Stock t₁.geometry t₁.pool (Function.update (fun _ => []) top []) := by rw [← ht₁]; exact hs
  obtain ⟨p₁, hrun₁, hs₂, hedits⟩ := nodeAt_spec (i := 0) (h := top) (x := k) hs₁ (by rw [← ht₁])
    (show 1 + 0 = t₁.height by rw [← ht₁]; show 1 + 0 = t.height + 1; omega) hk rfl fun j hj =>
      absurd hj (Nat.not_lt_zero j)
  have hrows : Rows.lowerPath (Function.update (fun _ => []) top []) k top 0 = fun _ => [] := by
    funext i
    rw [lowerPath_off fun j hj => absurd hj (Nat.not_lt_zero j), Function.update_eq_self]
  rw [hrows] at hs₂
  have hpool : t₁.pool = p := by rw [← ht₁]
  have hgeo : t₁.pairs = t.pairs := by rw [← ht₁]
  rw [hpool] at hedits
  obtain ⟨p₂, hrun₂, hs₃, hf₂, hlive₂, hquiet₂⟩ :=
    tryPlace_placed (v := v) hrun₁ hs₂ ((hedits.live top).mpr hlive) hk hv
    (fun e he => by cases he) (by change 0 < t₁.pairs; omega) fun _ => hedits.fades.quiet hquiet
  obtain ⟨c, hc⟩ : ∃ c : Rows, Function.update (fun _ => []) top [(k, v)] = c := ⟨_, rfl⟩
  change Stock _ _ (Function.update (fun _ => []) top [(k, v)]) at hs₃
  have hrow : c top = [(k, v)] := by rw [← hc, Function.update_self]
  have hlive₂' : ∀ i, p₂.Live i ↔ i = top := fun i => by
    rw [hlive₂, hedits.live, hhands.live]
    exact or_iff_right (hb.unused i)
  rw [hc] at hs₃
  have hh₁ : t₁.height = 1 := by
    rw [← ht₁]
    show t.height + 1 = 1
    omega
  have hfades : Fades t.pool p₂ := (Fades.of_hands hhands).trans (hedits.fades.trans hf₂)
  have hst : Stand ({ t₁ with pool := p₂ } : Tree w) c top 1 fun _ => False :=
    Stand.of_root (by rw [← ht₁]) (Nat.le_of_eq hh₁.symm) hs₃ hrow
      (fun i => by
        rw [or_false]
        exact hlive₂' i)
      id hk (fun hm => absurd hm (by change ¬1 < t₁.height; omega)) fun _ => hquiet₂
  rw [← hh₁] at hst
  refine ⟨t₁, { t₁ with pool := p₂ }, c, top, hadd, hrun₂, ⟨by show 0 < t₁.height; omega, hst, ?_⟩, ?_, hfades, hh₁, ?_⟩
  · exact (hb.coherent fun _ => []).mono hfades fun i hi x j hj => by cases hj
  · rw [← ht₁]
    exact ⟨rfl, rfl, rfl, rfl⟩
  · show c.pairs top (t₁.height - 1) = _
    rw [hh₁, Nat.sub_self, pairs_zero, hrow]

/-- The first pair of a tree goes into a new root. -/
theorem Bare.addAt (hb : Bare t) (hp : 2 ≤ t.pairs) (hf : 8 * t.geometry.slotWords ≤ addressable) (hk : k < 2 ^ w.bits)
    (hv : v ≠ 0) :
    (∃ inUse, Runs (Tree.addAt (t.height + 1) (Words.ofNat w.words k) v 1) t (.error (.outOfMemory inUse)) t ∧
      Exhausted t.pool inUse) ∨
    ∃ t' c r, Runs (Tree.addAt (t.height + 1) (Words.ofNat w.words k) v 1) t (.ok ()) t' ∧ Rooted t' c r ∧ Alike t t' ∧
      Fades t.pool t'.pool ∧ t'.height = 1 ∧ c.pairs r (t'.height - 1) = [(k, v)] := by
  have habove : t.height < 1 := by
    rw [hb.height]
    exact Nat.one_pos
  rcases hb.above hp hf hk hv with ⟨inUse, hrun, hex⟩ | ⟨t₁, t', c, r, hrun, hrun', hrooted⟩
  · exact Or.inl ⟨inUse, Runs.bind (Runs.get _) (Runs.of_pos habove (Runs.bind hrun (Runs.pure _ _))), hex⟩
  · exact Or.inr ⟨t', c, r,
      Runs.bind (Runs.get _) (Runs.of_pos habove (Runs.bind hrun (Runs.bind hrun' (Runs.pure _ _)))), hrooted⟩

/-- If nodes cannot be made, the limit is zero or there is a fault. -/
theorem Bare.addAt_large (hb : Bare t) (hf : ¬8 * t.geometry.slotWords ≤ addressable) (h0 : t.pool.blocks.size = 0) :
    Runs (Tree.addAt (t.height + 1) (Words.ofNat w.words k) v 1) t (.error (.outOfMemory 0)) t ∧ t.pool.limit = some 0 ∨
      Faults (Tree.addAt (t.height + 1) (Words.ofNat w.words k) v 1) t .tooLarge := by
  have hheight := hb.height
  have hlarge : ¬8 * (t.pool.blockWords - reservedWords) ≤ addressable := by rwa [hb.stock.slotWords_eq]
  rcases allocate_large hb.stock.ledger hlarge h0 with ⟨hrun, hlimit⟩ | hfault
  · exact Or.inl ⟨Runs.bind (Runs.get _) (Runs.of_pos (by omega) (Runs.bind (Runs.bind (Runs.onNodes hrun)
      (Runs.pure _ _)) (Runs.pure _ _))), hlimit⟩
  · exact Or.inr (Faults.bind (Runs.get _) (Faults.of_pos (by omega) (Faults.bind_left _ (Faults.bind_left _
      (Faults.onNodes hfault)))))

end Bare

/-- Apart from its nodes and entries a tree is as it was, and memos only went. -/
structure Calm {w : Width} (t t' : Tree w) : Prop where
  memoize : t'.memoize = t.memoize
  fades : Fades t.pool t'.pool

/-! ### Insertion -/

section Insertion
variable {w : Width} {t : Tree w} {row : Row}

/-- How an insertion ends after its pair was put into the leaves, or was not. -/
theorem Runs.insert {t₁ : Tree w} {k : Key w} {v : Value} {e : Except Error Unit}
    (h : Runs (Tree.addAt (t.height + 1) (Words.ofNat w.words k.val) v.val 1) t e t₁) :
    Runs (Tree.insert k v) t e (match e with | .ok () => { t₁ with len := t₁.len + 1 } | .error _ => t₁) := by
  refine Runs.bind (Runs.get _) (Runs.bind h (Runs.bind (Runs.get _) (Runs.bind (Runs.tellTimer _ _ _) ?_)))
  cases e with
  | ok u => exact Runs.bind (Runs.modify _ _) (Runs.pure _ _)
  | error e => exact Runs.pure _ _

/-- An insertion that finds the key changes nothing. -/
theorem Whole.insert_old {e : Pair} (hw : Whole t row) {k : Key w} (v : Value) (he : e ∈ row) (hek : e.1 = k.val) :
    Runs (Tree.insert k v) t (.error .duplicateKey) t := by
  rcases hw.state with ⟨-, rfl⟩ | ⟨c, r, hr, hperm⟩
  · cases he
  obtain ⟨d, hd⟩ := hr.exists_height
  rw [show t.height - 1 = d by omega] at hperm
  rcases hr.addAt hd hw.pairs (hr.fits hw.fits) k.isLt v.property with ⟨-, hrun⟩ | ⟨hnew, -⟩
  · exact Runs.insert hrun
  · exact absurd hek (hnew e (hperm.mem_iff.mp he))

/-- An insertion of a new key adds its pair, or finds no block. Where nodes cannot be made it may be a fault. -/
theorem Whole.insert_new (hw : Whole t row) {k : Key w} (v : Value) (hnew : ∀ e ∈ row, e.1 ≠ k.val) :
    (∃ t', Runs (Tree.insert k v) t (.ok ()) t' ∧ Whole t' ((k.val, v.val) :: row) ∧ Calm t t') ∨
    (∃ inUse t', Runs (Tree.insert k v) t (.error (.outOfMemory inUse)) t' ∧ Whole t' row ∧
      Starved t.pool t'.pool t.height inUse) ∨
    ¬8 * t.geometry.slotWords ≤ addressable ∧ Faults (Tree.insert k v) t .tooLarge := by
  have hp := hw.pairs
  have hlen := hw.len
  rcases hw.state with ⟨hb, rfl⟩ | ⟨c, r, hr, hperm⟩
  · by_cases hf : 8 * t.geometry.slotWords ≤ addressable
    · rcases hb.addAt hp hf k.isLt v.property with ⟨inUse, hrun, hex⟩ | ⟨t', c, r, hrun, hr, ha, hfades, -, hpairs⟩
      · exact Or.inr (Or.inl ⟨inUse, t, Runs.insert hrun, hw, Starved.of_exhausted hex _⟩)
      · refine Or.inl ⟨_, Runs.insert hrun, Rooted.whole (hr.of_eq rfl rfl rfl rfl) (ha.pairs ▸ hp)
          (ha.geometry ▸ hf) ?_ (by rw [hpairs]), ha.memoize, hfades⟩
        show t'.len + 1 = _
        rw [ha.len, hlen]
        rfl
    · have h0 := hw.fits.resolve_left hf
      rcases hb.addAt_large (k := k.val) (v := v.val) hf h0 with ⟨hrun, hlimit⟩ | hfault
      · have hout : t.pool.out = 0 := by rw [Pool.out, h0, Nat.zero_sub]
        exact Or.inr (Or.inl ⟨0, t, Runs.insert hrun, hw, Nat.le_of_eq hout, Nat.zero_le _,
          Or.inl ⟨0, hlimit, Nat.le_refl 0⟩, Nat.zero_le _⟩)
      · exact Or.inr (Or.inr ⟨hf, Faults.bind (Runs.get _) (Faults.bind_left _ hfault)⟩)
  · have hf := hr.fits hw.fits
    obtain ⟨d, hd⟩ := hr.exists_height
    have hd' : t.height - 1 = d := by omega
    rw [hd'] at hperm
    rcases hr.addAt hd hp hf k.isLt v.property with ⟨⟨e, he, hek⟩, -⟩ |
      ⟨-, ⟨inUse, p, c', hrun, hl, hst, -⟩ | ⟨t', c', r', d', hrun, hi⟩⟩
    · exact absurd hek (hnew e (hperm.mem_iff.mpr he))
    · obtain ⟨hr', hpairs⟩ := hl.rooted hr
      refine Or.inr (Or.inl ⟨inUse, _, Runs.insert hrun, hr'.whole hp hf hlen ?_, hst⟩)
      show row.Perm (c'.pairs r (t.height - 1))
      rwa [hpairs, hd']
    · obtain ⟨hr', hheight⟩ := hi.rooted hd
      refine Or.inl ⟨_, Runs.insert hrun, Rooted.whole (hr'.of_eq rfl rfl rfl rfl) (hi.alike.pairs ▸ hp)
        (hi.alike.geometry ▸ hf) ?_ ?_, hi.alike.memoize, hi.fades⟩
      · show t'.len + 1 = row.length + 1
        rw [hi.alike.len, hlen]
      · show ((k.val, v.val) :: row).Perm (c'.pairs r' (t'.height - 1))
        rw [show t'.height - 1 = d' by omega]
        exact (hperm.cons _).trans hi.pairs.symm

/-- An insertion adds its pair, finds the key, or finds no block. Where nodes cannot be made it may be a fault. -/
theorem Whole.insert (hw : Whole t row) (k : Key w) (v : Value) :
    ((∃ e ∈ row, e.1 = k.val) ∧ ∃ t', Runs (Tree.insert k v) t (.error .duplicateKey) t' ∧ Whole t' row) ∨
    (∀ e ∈ row, e.1 ≠ k.val) ∧
      ((∃ t', Runs (Tree.insert k v) t (.ok ()) t' ∧ Whole t' ((k.val, v.val) :: row)) ∨
      (∃ inUse t', Runs (Tree.insert k v) t (.error (.outOfMemory inUse)) t' ∧ Whole t' row ∧
        Starved t.pool t'.pool t.height inUse) ∨
      ¬8 * t.geometry.slotWords ≤ addressable ∧ Faults (Tree.insert k v) t .tooLarge) := by
  by_cases hold : ∃ e ∈ row, e.1 = k.val
  · obtain ⟨e, he, hek⟩ := id hold
    exact Or.inl ⟨hold, t, hw.insert_old v he hek, hw⟩
  · have hnew : ∀ e ∈ row, e.1 ≠ k.val := fun e he hek => hold ⟨e, he, hek⟩
    refine Or.inr ⟨hnew, (hw.insert_new v hnew).imp_left ?_⟩
    rintro ⟨t', hrun, hw', -⟩
    exact ⟨t', hrun, hw'⟩

/-- Where nodes cannot be made and blocks may be had, an insertion faults. -/
theorem Whole.insert_large (hw : Whole t row) (hlarge : ¬8 * t.geometry.slotWords ≤ addressable)
    (hlimit : t.pool.limit ≠ some 0) (k : Key w) (v : Value) : Faults (Tree.insert k v) t .tooLarge := by
  rcases hw.state with ⟨hb, -⟩ | ⟨c, r, hr, -⟩
  · rcases hb.addAt_large (k := k.val) (v := v.val) hlarge (hw.fits.resolve_left hlarge) with ⟨-, h0⟩ | hfault
    · exact absurd h0 hlimit
    · exact Faults.bind (Runs.get _) (Faults.bind_left _ hfault)
  · exact absurd (hr.fits hw.fits) hlarge

end Insertion

/-! ### Removal -/

section Removal
variable {w : Width} {t t' : Tree w} {c c' : Rows} {r r' h : Handle} {d m' k : Nat} {row : Row} {A B : Row} {e : Pair}

/-- No pair is taken out if the key is absent. -/
theorem Stand.takePair_none {rest : Handle → Prop} (hst : Stand t c r (d + 1) rest) (hlevel : 1 + d = t.height)
    (hk : k < 2 ^ w.bits) (hnew : ∀ e ∈ c.pairs r d, e.1 ≠ k) :
    ∃ h p c', Runs (Tree.takePair (Words.ofNat w.words k) 1) t none { t with pool := p } ∧
      Runs (Tree.nodeAt (Words.ofNat w.words k) 1) t h { t with pool := p } ∧ Loosened t c r (d + 1) rest p c' := by
  obtain ⟨h, p, hland, hrun, hs, hedits⟩ := hst.nodeAt hlevel hk
  have hl := Loosened.of_lowerPath hst (Nat.le_refl d) hs hedits hk
  generalize c.lowerPath k r d = c₁ at hs hl
  have hh := mem_level_of_land hland
  have hlive := hl.stand.live_of_level (Nat.lt_succ_self d) (by rwa [hl.loosens.level])
  obtain ⟨n, hn, hpacks⟩ := hs.node hlive
  have hkl : k < 2 ^ (64 * t.geometry.keyLength) := Nat.lt_of_lt_of_le hk (Key.pow_bits_le w)
  have hholds := holdsAt_scan hpacks hkl
  rw [any_scan_of_new fun e he => hnew e (mem_pairs.mpr ⟨h, hh, by rwa [← hl.lowest d rfl h hh]⟩)] at hholds
  exact ⟨h, p, c₁, Runs.bind hrun (Runs.bind (Runs.get _) (Runs.onNodes (Runs.bind (Runs.read hn)
    (Runs.bind (Runs.lift (hpacks.position_eq hkl) _)
      (Runs.bind (Runs.lift (hpacks.fillFrom_eq (Row.length_above_le _ k)) _)
    (Runs.of_pos rfl (Runs.bind (Runs.lift hholds _) (Runs.of_pos (by simp) (Runs.pure _ _))))))))), hrun, hl⟩

/-- A removal of a key that is absent answers nothing, and lowers the path of the key. -/
theorem Rooted.remove_none (hr : Rooted t c r) {k : Key w} (hnew : ∀ e ∈ c.pairs r (t.height - 1), e.1 ≠ k.val) :
    ∃ h p c', Runs (Tree.remove k) t none { t with pool := p } ∧
      Runs (Tree.nodeAt (Words.ofNat w.words k.val) 1) t h { t with pool := p } ∧
      Loosened t c r t.height (fun _ => False) p c' := by
  obtain ⟨d, hd⟩ := hr.exists_height
  rw [show t.height - 1 = d by omega] at hnew
  have hst : Stand t c r (d + 1) fun _ => False := hd ▸ hr.stand
  obtain ⟨h, p, c', hrun, hdown, hl⟩ := hst.takePair_none (by omega) k.isLt hnew
  rw [← hd] at hl
  have hroot : ¬t.root.isNone = true := by
    rw [hst.root]
    exact Bool.false_ne_true
  have hdelete : ∀ rungs, rungs = d + 1 → Runs (Tree.deleteAt rungs k.toWords 1) t none { t with pool := p } := by
    rintro _ rfl
    exact Runs.bind hrun (Runs.pure _ _)
  exact ⟨h, p, c', Runs.bind (Runs.get _) (Runs.of_neg hroot (Runs.bind (Runs.get _) (Runs.bind (hdelete _ hd)
    (Runs.pure _ _)))), hdown, hl⟩

/-- A pair of a leaf can be taken out. -/
theorem Rooted.taking (hr : Rooted t c r) (hd : t.height = d + 1) (he : e ∈ c.pairs r d) :
    ∃ h A B, h ∈ c.level r d ∧ Taking t c r d (fun _ => False) h e.1 A e B [] := by
  have hst : Stand t c r (d + 1) fun _ => False := hd ▸ hr.stand
  have hsound := hst.sound d rfl
  obtain ⟨h, hh, heh⟩ := mem_pairs.mp he
  obtain ⟨A, B, hrow⟩ := List.append_of_mem heh
  have hdesc := hsound.descending_level (Nat.le_refl d) hh
  rw [hrow] at hdesc
  refine ⟨h, A, B, hh, hst, hsound.small_level (Nat.le_refl d) hh heh,
    land_of_route (hsound.routed d (Nat.le_refl d) h hh e heh),
    hrow, fun a ha => hdesc.of_append.2.2 a ha e List.mem_cons_self, Nat.le_refl _,
    hr.coherent.mono (Fades.refl _) fun i hi x j hj => ?_⟩
  have hih : i ≠ h := by
    rintro rfl
    exact hi (hst.quiet d rfl hd.symm i hh)
  rwa [look, Function.update_of_ne hih]

/-- What is left has a root if anything is left. -/
theorem Taken.rooted {asked : Rule → Prop} (hl : Taken t c r d (fun _ => False) [] asked t' c' r' m')
    (hd : t.height = d + 1) : Rooted t' c' r' ∧ t'.height = m' ∧ 0 < m' := by
  have hheight : t'.height = m' := by
    have := hl.height
    omega
  have hpos : 0 < m' := Nat.pos_of_ne_zero fun h0 => absurd (hl.some_level h0) (by omega)
  exact ⟨⟨hheight ▸ hpos, hheight.symm ▸ hl.stand, hl.coherent⟩, hheight, hpos⟩

theorem Emptied.bare (hl : Emptied t c r d (fun _ => False) [] t' c') : Bare t' :=
  Bare.of_stock hl.root hl.height hl.stock fun i hi => (hl.live i).mp hi

/-- What is left of a tree when a pair was taken out of a leaf. -/
theorem Left.whole {asked : Rule → Prop} {done : Remains → Prop}
    (hl : Left t (Function.update c h (A ++ B)) r d (fun _ => False) [] asked done t') (hd : t.height = d + 1)
    (hsound : Sound (2 ^ w.bits) c r d) (hh : h ∈ c.level r d) (hrow : c h = A ++ e :: B) (hp : 2 ≤ t.pairs)
    (hf : 8 * t.geometry.slotWords ≤ addressable) :
    ∃ row', (c.pairs r d).Perm (e :: row') ∧ ∀ n, n = row'.length → Whole ({ t' with len := n } : Tree w) row' := by
  obtain ⟨S, T, hpairs, hpairs'⟩ := hsound.pairs_update hh
  have hperm : (c.pairs r d).Perm (e :: (S ++ (A ++ B) ++ T)) := by
    have : (S ++ A ++ e :: (B ++ T)).Perm (e :: (S ++ A ++ (B ++ T))) := List.perm_middle
    rw [hpairs, hrow]
    simpa only [List.append_assoc, List.cons_append] using this
  refine ⟨S ++ (A ++ B) ++ T, hperm, fun n hn => ?_⟩
  rcases hl with ⟨c', r', m', hl, -⟩ | ⟨c', hl, -⟩
  · obtain ⟨hr', hheight, hpos⟩ := hl.rooted hd
    obtain ⟨d', rfl⟩ : ∃ d', m' = d' + 1 := ⟨m' - 1, by omega⟩
    refine Rooted.whole (hr'.of_eq rfl rfl rfl rfl) (by show 2 ≤ t'.pairs; rw [hl.alike.pairs]; exact hp)
      (by show 8 * t'.geometry.slotWords ≤ _; rw [hl.alike.geometry]; exact hf) hn ?_
    show (S ++ (A ++ B) ++ T).Perm (c'.pairs r' (t'.height - 1))
    rw [show t'.height - 1 = d' by omega, ← hpairs']
    exact (hl.pairs d' rfl).symm
  · have hnil := hl.pairs
    rw [hpairs'] at hnil
    rw [hnil] at hn ⊢
    exact ⟨by show 2 ≤ t'.pairs; rw [hl.alike.pairs]; exact hp,
      Or.inl (by show 8 * t'.geometry.slotWords ≤ _; rw [hl.alike.geometry]; exact hf), hn,
      Or.inl ⟨hl.bare.of_eq rfl rfl rfl rfl, rfl⟩⟩

/-- How a removal ends after its pair was taken out of a leaf. -/
theorem Runs.remove {t₁ : Tree w} {k : Key w} {v : Word} (hroot : t.root = some r) (hlen : t₁.len ≠ 0)
    (hrun : Runs (Tree.deleteAt t.height k.toWords 1) t (some v) t₁) :
    Runs (Tree.remove k) t (Value.ofWord? v) { t₁ with len := t₁.len - 1 } := by
  have hsome : ¬t.root.isNone = true := by
    rw [hroot]
    exact Bool.false_ne_true
  exact Runs.bind (Runs.get _) (Runs.of_neg hsome (Runs.bind (Runs.get _) (Runs.bind hrun (Runs.bind (Runs.get _)
    (Runs.of_neg hlen (Runs.bind (Runs.modify _ _) (Runs.pure _ _)))))))

theorem Left.alike {asked : Rule → Prop} {done : Remains → Prop} {rest : Handle → Prop} {late : List Handle}
    (hl : Left t c r d rest late asked done t') : Alike t t' := by
  rcases hl with ⟨_, _, _, hl, -⟩ | ⟨_, hl, -⟩
  · exact hl.alike
  · exact hl.alike

/-- The removal of a key that is present takes its pair out of a leaf, and mends what falls short. -/
theorem Rooted.remove_some (hr : Rooted t c r) (hd : t.height = d + 1) (hp : 2 ≤ t.pairs) (hlen : t.len ≠ 0) {k : Key w}
    {v : Word} (he : (k.val, v) ∈ c.pairs r d) :
    ∃ h A B t₁, h ∈ c.level r d ∧ Taking t c r d (fun _ => False) h k.val A (k.val, v) B [] ∧
      Runs (Tree.remove k) t (Value.ofWord? v) { t₁ with len := t₁.len - 1 } ∧
      Left t (Function.update c h (A ++ B)) r d (fun _ => False) []
        (Slack · t.height (fun _ => False) (Function.update c h (A ++ B)) r d h)
        (Mends t.pairs 1 (c.trail k.val r d) (Function.update c h (A ++ B))) t₁ := by
  obtain ⟨h, A, B, hh, ht⟩ := hr.taking hd he
  obtain ⟨t₁, hrun, hleft⟩ := takes_deleteAt w d ht hp fun _ => rfl
  rw [show t.height - d = 1 by omega] at hrun hleft
  rw [← hd] at hrun
  exact ⟨h, A, B, t₁, hh, ht, Runs.remove hr.stand.root (hleft.alike.len.symm ▸ hlen) hrun, hleft⟩

/-- A removal takes the pair of its key out, if there is one, and no memo comes. -/
theorem Whole.removes (hw : Whole t row) (k : Key w) :
    (∀ e ∈ row, e.1 ≠ k.val) ∧ (∃ t', Runs (Tree.remove k) t none t' ∧ Whole t' row ∧ Calm t t') ∨
    ∃ v : Value, (k.val, v.val) ∈ row ∧ ∃ t' row', Runs (Tree.remove k) t (some v) t' ∧ Whole t' row' ∧
      row.Perm ((k.val, v.val) :: row') ∧ Calm t t' := by
  rcases hw.state with ⟨hb, rfl⟩ | ⟨c, r, hr, hperm⟩
  · refine Or.inl ⟨fun e he => (by cases he), t, Runs.bind (Runs.get _) (Runs.of_pos ?_ (Runs.pure _ _)), hw,
      rfl, Fades.refl _⟩
    rw [hb.root]
    rfl
  obtain ⟨d, hd⟩ := hr.exists_height
  have hd' : t.height - 1 = d := by omega
  rw [hd'] at hperm
  have hf := hr.fits hw.fits
  have hst : Stand t c r (d + 1) fun _ => False := hd ▸ hr.stand
  by_cases hold : ∃ e ∈ c.pairs r d, e.1 = k.val
  · obtain ⟨⟨y, v⟩, he, hek⟩ := hold
    obtain rfl : y = k.val := hek
    have hmem : (k.val, v) ∈ row := hperm.mem_iff.mpr he
    -- the counter of the entries cannot be lowered below zero, as the pair is among them
    have hlen : t.len ≠ 0 := by
      rw [hw.len]
      exact (List.length_pos_of_mem hmem).ne'
    obtain ⟨h, A, B, t₁, hh, ht, hrun, hleft⟩ := hr.remove_some hd hw.pairs hlen he
    obtain ⟨row', hrow', hwhole⟩ := hleft.whole hd (hst.sound d rfl) hh ht.row hw.pairs hf
    have hless : t₁.len - 1 = row'.length := by
      rw [hleft.alike.len, hw.len, (hperm.trans hrow').length_eq]
      rfl
    have hvalue : Value.ofWord? v = some ⟨v, hw.used hmem⟩ := by rw [Value.ofWord?, dif_pos (hw.used hmem)]
    have hcalm : Calm t t₁ := by
      refine ⟨hleft.alike.memoize, ?_⟩
      rcases hleft with ⟨_, _, _, hl, -⟩ | ⟨_, hl, -⟩
      · exact hl.fades
      · exact hl.fades
    rw [hvalue] at hrun
    exact Or.inr ⟨⟨v, hw.used hmem⟩, hmem, _, row', hrun, hwhole _ hless, hperm.trans hrow', hcalm.memoize, hcalm.fades⟩
  · have hnew : ∀ e ∈ c.pairs r d, e.1 ≠ k.val := fun e he hek => hold ⟨e, he, hek⟩
    obtain ⟨_, p, c', hrun, -, hl⟩ := hr.remove_none (hd' ▸ hnew)
    obtain ⟨hr', hpairs⟩ := hl.rooted hr
    refine Or.inl ⟨fun e he => hnew e (hperm.mem_iff.mp he), _, hrun, hr'.whole hw.pairs hf hw.len ?_,
      rfl, hl.edits.fades⟩
    show row.Perm (c'.pairs r (t.height - 1))
    rwa [hpairs, hd']

/-- A removal takes the pair of its key out, if there is one. -/
theorem Whole.remove (hw : Whole t row) (k : Key w) :
    (∀ e ∈ row, e.1 ≠ k.val) ∧ (∃ t', Runs (Tree.remove k) t none t' ∧ Whole t' row) ∨
    ∃ v : Value, (k.val, v.val) ∈ row ∧ ∃ t' row', Runs (Tree.remove k) t (some v) t' ∧ Whole t' row' ∧
      row.Perm ((k.val, v.val) :: row') := by
  rcases hw.removes k with ⟨hnew, t', hrun, hw', -⟩ | ⟨v, hv, t', row', hrun, hw', hperm, -⟩
  · exact Or.inl ⟨hnew, t', hrun, hw'⟩
  · exact Or.inr ⟨v, hv, t', row', hrun, hw', hperm⟩

end Removal
end MemoTree
