import MemoTree.Proofs.Crown
import MemoTree.Proofs.Siblings
import MemoTree.Tree.Insert

/-! # Putting a pair into its node

An attempt to place a pair lowers the path of its key and, if the node where it lands has room and not the key,
puts the pair between the pairs with larger keys and those with smaller ones. What an attempt that fails leaves
behind is `Loosened`; what a pair does to its level is `Inserted`. -/

namespace MemoTree
open Pool NodePool

/-! ### Loosened layouts -/

/-- Children, numbers of pairs and the ways of changes are the same, and lookups that led somewhere lead there still. -/
structure Loosens (c c' : Rows) : Prop where
  count : ∀ h, c'.count h = c.count h
  kids : ∀ h, c'.kids h = c.kids h
  step : ∀ x h, c'.step x h = c.step x h
  look : ∀ x h k, c.look x h = some k → c'.look x h = some k

namespace Loosens
open Rows
variable {c c' c'' : Rows} {r h : Handle} {i x : Nat}

theorem refl (c : Rows) : Loosens c c := ⟨fun _ => rfl, fun _ => rfl, fun _ _ => rfl, fun _ _ _ h => h⟩

theorem trans (h₁ : Loosens c c') (h₂ : Loosens c' c'') : Loosens c c'' :=
  ⟨fun h => (h₂.count h).trans (h₁.count h), fun h => (h₂.kids h).trans (h₁.kids h),
    fun x h => (h₂.step x h).trans (h₁.step x h), fun x h k hl => h₂.look x h k (h₁.look x h k hl)⟩

theorem lowerPath (c : Rows) (x : Nat) (r : Handle) (i : Nat) : Loosens c (c.lowerPath x r i) := by
  refine ⟨fun h => ?_, fun _ => kids_lowerPath, fun _ _ => step_lowerPath, fun _ _ _ => look_lowerPath⟩
  change (c.lowerPath x r i h).length = (c h).length
  rcases lowerPath_cases c x r i h with hc | hc
  · rw [hc]
  · rw [hc, Row.length_lowered]

theorem level (hl : Loosens c c') : c'.level r i = c.level r i := level_of_kids hl.kids

theorem land (hl : Loosens c c') : c'.land x r i = c.land x r i := land_of_step (hl.step x)

theorem crown (hl : Loosens c c') : c'.crown r i = c.crown r i := by
  cases i with
  | zero => rfl
  | succ d => exact under_of_kids hl.kids

theorem route (hl : Loosens c c') (hr : c.route x r i = some h) : c'.route x r i = some h := by
  induction i generalizing h with
  | zero => exact hr
  | succ i ih =>
    obtain ⟨p, hp, hk⟩ := Option.bind_eq_some_iff.mp hr
    rw [route_succ, ih hp]
    exact hl.look x p h hk

theorem obeys {rule : Rule} (hl : Loosens c c') (ho : c.Obeys rule c.count r i) : c'.Obeys rule c'.count r i :=
  ho.congr (fun _ _ h _ => hl.kids h) fun _ _ h _ => hl.count h

theorem abides {rule : Rule} {size : Handle → Nat} (hl : Loosens c c') (ha : c.Abides rule size r i) :
    c'.Abides rule size r i :=
  ha.congr hl.level (fun h _ => hl.kids h) fun _ _ => rfl

theorem filled (hl : Loosens c c') (pairs : Nat) (r : Handle) (d : Nat) : Filled pairs c r d c' r d :=
  ⟨fun _ ho => hl.obeys ho, Or.inr ⟨rfl, rfl, Nat.le_of_eq (hl.count r).symm⟩⟩

/-- A node that gets its old row back does not count. -/
theorem restore {q : Handle} {row : Row} (hl : Loosens (Function.update c q row) c') :
    Loosens c (Function.update c' q (c q)) where
  count h := by
    by_cases hq : h = q
    · rw [Rows.count, Rows.count, hq, Function.update_self]
    · have := hl.count h
      rw [Rows.count, Rows.count, Function.update_of_ne hq] at this ⊢
      exact this
  kids h := by
    by_cases hq : h = q
    · rw [Rows.kids, Rows.kids, hq, Function.update_self]
    · have := hl.kids h
      rw [Rows.kids, Rows.kids, Function.update_of_ne hq] at this ⊢
      exact this
  step x h := by
    by_cases hq : h = q
    · rw [Rows.step, Rows.step, hq, Function.update_self]
    · have := hl.step x h
      rw [Rows.step, Rows.step, Function.update_of_ne hq] at this ⊢
      exact this
  look x h k hk := by
    by_cases hq : h = q
    · rw [Rows.look, hq, Function.update_self]
      rwa [Rows.look, hq] at hk
    · have := hl.look x h k (by rwa [Rows.look, Function.update_of_ne hq])
      rw [Rows.look, Function.update_of_ne hq]
      exact this

end Loosens

/-- A level that was put aside is taken back with the rows it had. -/
theorem Stand.regain {w : Width} {t : Tree w} {c c' : Rows} {r : Handle} {d : Nat} {rest : Handle → Prop} {p : NodePool}
    (hst : Stand t c r (d + 1) rest)
    (hst' : Stand ({ t with pool := p } : Tree w) c' r d fun i => rest i ∨ i ∈ c.level r d) (hf : Fades t.pool p)
    (hl : Loosens c c') (hrow : ∀ i ∈ c.level r d, c' i = c i) :
    Stand ({ t with pool := p } : Tree w) c' r (d + 1) rest := by
  have hsound := hst.sound d rfl
  have hcrown : ∀ i ∈ c.level r d, i ∈ c.crown r (d + 1) := fun i hi => Rows.mem_crown.mpr ⟨d, Nat.lt_succ_self d, hi⟩
  rw [← hl.level] at hst' hrow
  refine hst'.extend hst.height ?_ (fun i hi hil => ?_) (fun i hi => ?_) (fun hm i hi e he => ?_) fun hm i hi => ?_
  · rw [hl.level]
    exact hsound.nodup_level (Nat.le_refl d)
  · rw [hl.level] at hil
    exact hst.apart i hi (hcrown i hil)
  · rw [hrow i hi]
    rw [hl.level] at hi
    exact ⟨hsound.descending_level (Nat.le_refl d) hi, hst.full i (hcrown i hi), fun e he =>
      ⟨hsound.small_level (Nat.le_refl d) hi he, hl.route (hsound.routed d (Nat.le_refl d) i hi e he)⟩⟩
  · rw [hrow i hi] at he
    rw [hl.level] at hi
    exact hst.inner hm i (hcrown i hi) e he
  · rw [hl.level] at hi
    exact hf.quiet (hst.quiet d rfl hm i hi)

/-- What an attempt that fails leaves behind: separators above the lowest level may have been lowered. -/
structure Loosened {w : Width} (t : Tree w) (c : Rows) (r : Handle) (m : Nat) (rest : Handle → Prop) (p : NodePool)
    (c' : Rows) : Prop where
  stand : Stand ({ t with pool := p } : Tree w) c' r m rest
  edits : Edits t.pool p
  loosens : Loosens c c'
  lowest : ∀ d, m = d + 1 → ∀ h ∈ c.level r d, c' h = c h
  rest : ∀ h, rest h → c' h = c h

namespace Loosened
open Rows
variable {w : Width} {t : Tree w} {c c' c'' : Rows} {r : Handle} {d i m x : Nat} {rest : Handle → Prop}
  {p p' : NodePool} {late : List Handle}

theorem refl (hst : Stand t c r m rest) : Loosened t c r m rest t.pool c :=
  ⟨hst, Edits.refl _, Loosens.refl c, fun _ _ _ _ => rfl, fun _ _ => rfl⟩

theorem coherent (hl : Loosened t c r m rest p c') (hc : Coherent w t.pool c late) : Coherent w p c' late :=
  hc.mono hl.edits.fades fun h _ x k => hl.loosens.look x h k

theorem trans (h₁ : Loosened t c r m rest p c') (h₂ : Loosened ({ t with pool := p } : Tree w) c' r m rest p' c'') :
    Loosened t c r m rest p' c'' where
  stand := h₂.stand
  edits := h₁.edits.trans h₂.edits
  loosens := h₁.loosens.trans h₂.loosens
  lowest d hd h hh := (h₂.lowest d hd h (by rwa [h₁.loosens.level])).trans (h₁.lowest d hd h hh)
  rest h hh := (h₂.rest h hh).trans (h₁.rest h hh)

/-- Lowering the path of a key down to some level. -/
theorem of_lowerPath (hst : Stand t c r (d + 1) rest) (hi : i ≤ d) (hs : Stock t.geometry p (c.lowerPath x r i))
    (hedits : Edits t.pool p) (hx : x < 2 ^ w.bits) : Loosened t c r (d + 1) rest p (c.lowerPath x r i) where
  stand := by
    have hloose := Loosens.lowerPath c x r i
    have hsound := hst.sound d rfl
    refine ⟨hst.root, hst.height, hs, fun j hj => ?_, fun h => ?_, fun h hh => ?_, fun h hh => ?_,
      fun hm h hh e he => ?_, fun j hj hheight h hh => ?_⟩
    · obtain rfl : d = j := by omega
      exact hsound.lowerPath hx hi
    · rw [hloose.crown]
      exact (hedits.live h).trans (hst.live h)
    · rw [hloose.crown]
      exact hst.apart h hh
    · rw [hloose.crown] at hh
      rcases lowerPath_cases c x r i h with hc | hc
      · rw [hc]
        exact hst.full h hh
      · rw [hc, Ne, ← List.length_eq_zero_iff, Row.length_lowered, List.length_eq_zero_iff]
        exact hst.full h hh
    · -- a separator that was lowered has the value it had, so it leads to a child too
      rw [hloose.crown] at hh
      rcases lowerPath_cases c x r i h with hc | hc
      · rw [hc] at he
        exact hst.inner hm h hh e he
      · rw [hc] at he
        rcases Row.mem_lowered he with he | ⟨-, -, s, hs'⟩
        · exact hst.inner hm h hh e he
        · obtain ⟨k, hk⟩ := hst.inner hm h hh _ hs'
          exact ⟨k, hk⟩
    · rw [hloose.level] at hh
      exact hedits.fades.quiet (hst.quiet j hj hheight h hh)
  edits := hedits
  loosens := Loosens.lowerPath c x r i
  lowest j hj h hh := by
    obtain rfl : d = j := by omega
    exact (hst.sound d rfl).lowerPath_of_level hi (Nat.le_refl d) hh
  rest h hh := lowerPath_off fun j hj hl =>
    hst.apart h hh (mem_crown.mpr ⟨j, by omega, mem_level_of_land hl⟩)

theorem pairs (hl : Loosened t c r (d + 1) rest p c') : c'.pairs r d = c.pairs r d := by
  rw [Rows.pairs, Rows.pairs, hl.loosens.level]
  exact List.flatMap_congr (hl.lowest d rfl)

theorem aimed (hl : Loosened t c r (d + 1) rest p c') (x : Nat) : c'.aimed x r d = c.aimed x r d := by
  rw [Rows.aimed, Rows.aimed, hl.loosens.land]
  exact Option.bind_congr fun h hh => by rw [hl.lowest d rfl h (mem_level_of_land hh)]

end Loosened

/-! ### Inserted pairs -/

/-- The settings of a tree and the number of its entries are the same. -/
structure Alike {w : Width} (t t' : Tree w) : Prop where
  len : t'.len = t.len
  pairs : t'.pairs = t.pairs
  memoize : t'.memoize = t.memoize
  hooks : t'.hooks = t.hooks

namespace Alike
variable {w : Width} {t t' t'' : Tree w}

theorem refl (t : Tree w) : Alike t t := ⟨rfl, rfl, rfl, rfl⟩

theorem trans (h₁ : Alike t t') (h₂ : Alike t' t'') : Alike t t'' :=
  ⟨h₂.len.trans h₁.len, h₂.pairs.trans h₁.pairs, h₂.memoize.trans h₁.memoize, h₂.hooks.trans h₁.hooks⟩

theorem geometry (h : Alike t t') : t'.geometry = t.geometry := by rw [Tree.geometry, Tree.geometry, h.pairs]

end Alike

/-- What a pair put into a level does to it and to the levels above. A pair put in front of `e` takes over what
changes led to `e` from its key on, and its child becomes a sibling of the child of `e`. -/
structure Inserted {w : Width} (t : Tree w) (c : Rows) (r : Handle) (d k : Nat) (v : Word) (rest : Handle → Prop)
    (t' : Tree w) (c' : Rows) (r' : Handle) (d' : Nat) : Prop where
  alike : Alike t t'
  stand : Stand t' c' r' (d' + 1) rest
  height : t'.height + d = t.height + d'
  fades : Fades t.pool t'.pool
  coherent : Coherent w t'.pool c' []
  rest : ∀ h, rest h → c' h = c h
  pairs : (c'.pairs r' d').Perm ((k, v) :: c.pairs r d)
  aimed : ∀ e, c.aimed k r d = some e → e.1 < k →
    ∀ x, c'.aimed x r' d' = if c.aimed x r d = some e ∧ k ≤ x then some (k, v) else c.aimed x r d
  filled : Filled t.pairs c r d c' r' d'
  sibling : ∀ {rule : Rule} {e : Pair} {h q : Handle} {size size' : Handle → Nat}, rule.Grows t.pairs →
    d + 1 < t.height → c.aimed k r d = some e → e.1 < k → Pair.child e = some h → Pair.child (k, v) = some q →
    Splits t.pairs (c.level r (d + 1)) h q size size' → c.Abides rule size r d → c'.Abides rule size' r' d'
  lives : ∀ i, t.pool.Live i → t'.pool.Live i
  missed : ∀ i, t.pool.Live i → c.Misses k r (d + 1) i → c' i = c i

namespace Sound
open Rows
variable {bound : Nat} {c : Rows} {r h j q : Handle} {d k : Nat} {v : Word} {A B : Row} {e : Pair} {rule : Rule}
  {size size' : Handle → Nat}

/-- A pair put into a node of the lowest level makes the node larger. -/
theorem filled_placed (hs : Sound bound c r d) (hh : h ∈ c.level r d) (hrow : c h = A ++ B) (pairs : Nat) :
    Filled pairs c r d (Function.update c h (A ++ (k, v) :: B)) r d where
  obeys {rule} hg ho := by
    have hoff := hs.update_off hh (A ++ (k, v) :: B)
    have hmore : c.Obeys rule (Rows.count (Function.update c h (A ++ (k, v) :: B))) r d := by
      refine ho.more (h := h) hg hs.nodup ?_ fun i hi => ?_
      · rw [count, count, Function.update_self, hrow]
        simp
        omega
      · rw [count, count, Function.update_of_ne hi]
    refine hmore.congr (fun i hi p hp => ?_) fun _ _ _ _ => rfl
    rw [kids, kids, hoff i hi p hp]
  root := by
    refine Or.inr ⟨rfl, rfl, ?_⟩
    by_cases hr : r = h
    · rw [hr, count, count, Function.update_self, hrow]
      simp
    · rw [count, count, Function.update_of_ne hr]

/-- The child of a pair put in front of another one is a sibling of the other one's child, in front of it. -/
theorem sibling_placed (hs : Sound bound c r d) (hh : c.land k r d = some h) (hrow : c h = A ++ B)
    (hA : ∀ a ∈ A, k < a.1) (hB : ∀ b ∈ B, b.1 < k) (he : c.aimed k r d = some e) (hek : e.1 < k)
    (hej : Pair.child e = some j) (hq : Pair.child (k, v) = some q) {pairs : Nat} (hg : rule.Grows pairs)
    (hsplits : Splits pairs (c.level r (d + 1)) j q size size') (ha : c.Abides rule size r d) :
    Rows.Abides (Function.update c h (A ++ (k, v) :: B)) rule size' r d := by
  have hlevel := mem_level_of_land hh
  obtain ⟨B', rfl⟩ := head_of_aimed hh hrow hA hB he hek
  refine ha.split hg (level_congr (hs.update_off hlevel _)) hsplits hlevel (fun i _ hi => ?_)
    (X := A.filterMap Pair.child) (Y := B'.filterMap Pair.child) ?_ ?_
  · rw [kids, kids, Function.update_of_ne hi]
  · rw [kids, hrow, List.filterMap_append, List.filterMap_cons_some hej]
  · rw [kids, Function.update_self, List.filterMap_append, List.filterMap_cons_some hq, List.filterMap_cons_some hej]

end Sound

/-! ### Attempts -/

section Attempts
variable {w : Width} {t : Tree w} {p₁ : NodePool} {c : Rows} {h : Handle} {k level : Nat} {v : Word} {e : Pair}

/-- At its place a key is found or not. -/
theorem holdsAt_scan {g : Geometry} {n : Node} {row : Row} (hpacks : Packs g n.words row)
    (hk : k < 2 ^ (64 * g.keyLength)) :
    n.holdsAt g (row.above k).length row.length (Words.ofNat g.keyLength k) =
    .ok ((row.scan k).any fun e => e.1 = k) := by
  rw [hpacks.holdsAt_eq hk, Row.head?_upTo]

/-- An attempt that finds its key in a leaf. -/
theorem tryPlace_taken (hrun : Runs (Tree.nodeAt (Words.ofNat w.words k) 1) t h { t with pool := p₁ })
    (hs : Stock t.geometry p₁ c) (hh : p₁.Live h) (hk : k < 2 ^ w.bits) (he : (c h).scan k = some e) (hek : e.1 = k) :
    Runs (Tree.tryPlace (Words.ofNat w.words k) v 1) t .taken { t with pool := p₁ } := by
  obtain ⟨n, hn, hpacks⟩ := hs.node hh
  have hkl : k < 2 ^ (64 * t.geometry.keyLength) := Nat.lt_of_lt_of_le hk (Key.pow_bits_le w)
  have hholds := holdsAt_scan hpacks hkl
  rw [he, Option.any_some, decide_eq_true hek] at hholds
  refine Runs.bind hrun (Runs.bind (Runs.get _) (Runs.onNodes ?_))
  exact Runs.bind (Runs.read hn) (Runs.bind (Runs.lift (hpacks.position_eq hkl) _)
    (Runs.bind (Runs.lift (hpacks.fillFrom_eq ((c h).length_above_le k)) _)
    (Runs.bind (Runs.lift hholds _) (Runs.of_pos rfl (Runs.of_neg (by simp) (Runs.pure _ _))))))

theorem any_scan_of_new {row : Row} (hnew : ∀ e ∈ row, e.1 ≠ k) : ((row.scan k).any fun e => e.1 = k) = false := by
  cases hs : row.scan k with
  | none => rfl
  | some e => exact decide_eq_false (hnew e (Row.mem_of_scan hs))

/-- An attempt that finds the node full. -/
theorem tryPlace_full (hrun : Runs (Tree.nodeAt (Words.ofNat w.words k) level) t h { t with pool := p₁ })
    (hs : Stock t.geometry p₁ c) (hh : p₁.Live h) (hk : k < 2 ^ w.bits) (hnew : ∀ e ∈ c h, e.1 ≠ k)
    (hfull : (c h).length = t.pairs) :
    Runs (Tree.tryPlace (Words.ofNat w.words k) v level) t (.full h) { t with pool := p₁ } := by
  obtain ⟨n, hn, hpacks⟩ := hs.node hh
  have hkl : k < 2 ^ (64 * t.geometry.keyLength) := Nat.lt_of_lt_of_le hk (Key.pow_bits_le w)
  have hholds := holdsAt_scan hpacks hkl
  rw [any_scan_of_new hnew] at hholds
  refine Runs.bind hrun (Runs.bind (Runs.get _) (Runs.onNodes ?_))
  exact Runs.bind (Runs.read hn) (Runs.bind (Runs.lift (hpacks.position_eq hkl) _)
    (Runs.bind (Runs.lift (hpacks.fillFrom_eq ((c h).length_above_le k)) _)
    (Runs.bind (Runs.lift hholds _) (Runs.of_neg (by simp) (Runs.of_pos hfull (Runs.pure _ _))))))

/-- An attempt that puts the pair in. -/
theorem tryPlace_placed (hrun : Runs (Tree.nodeAt (Words.ofNat w.words k) level) t h { t with pool := p₁ })
    (hs : Stock t.geometry p₁ c) (hh : p₁.Live h) (hk : k < 2 ^ w.bits) (hv : v ≠ 0) (hnew : ∀ e ∈ c h, e.1 ≠ k)
    (hroom : (c h).length < t.pairs) (hquiet : ¬1 < level → p₁.Quiet h) :
    ∃ p, Runs (Tree.tryPlace (Words.ofNat w.words k) v level) t .placed { t with pool := p } ∧
      Stock t.geometry p (Function.update c h ((c h).above k ++ (k, v) :: (c h).upTo k)) ∧ Fades p₁ p ∧
      (∀ q, p.Live q ↔ p₁.Live q) ∧ p.Quiet h := by
  obtain ⟨n, hn, hpacks⟩ := hs.node hh
  have hkl : k < 2 ^ (64 * t.geometry.keyLength) := Nat.lt_of_lt_of_le hk (Key.pow_bits_le w)
  have hholds := holdsAt_scan hpacks hkl
  rw [any_scan_of_new hnew] at hholds
  have hsplit := (c h).above_append_upTo k
  have hpacks' := hpacks
  rw [← hsplit] at hpacks'
  obtain ⟨words, hinsert, hpacks'⟩ := hpacks'.insertPair (by rw [hsplit]; exact hroom) hkl hv
  rw [hsplit] at hinsert
  have hedits := Edits.of_words hn words
  obtain ⟨p, hs', hf, hlive, hquiet', hrun'⟩ := (hs.write hn hpacks').invalidate ((hedits.live h).mpr hh) level
    fun hl => hedits.fades.quiet (hquiet hl)
  refine ⟨p, Runs.bind hrun (Runs.bind (Runs.get _) (Runs.onNodes ?_)), hs', hedits.fades.trans hf,
    fun q => (hlive q).trans (hedits.live q), hquiet'⟩
  exact Runs.bind (Runs.read hn) (Runs.bind (Runs.lift (hpacks.position_eq hkl) _)
    (Runs.bind (Runs.lift (hpacks.fillFrom_eq ((c h).length_above_le k)) _)
    (Runs.bind (Runs.lift hholds _) (Runs.of_neg (by simp) (Runs.of_neg (Nat.ne_of_lt hroom)
    (Runs.bind (Runs.lift hinsert _) (Runs.bind (Runs.write _ _ _) (hrun' (Runs.pure _ _)))))))))

end Attempts

namespace Stand
open Rows
variable {w : Width} {t : Tree w} {c : Rows} {r h : Handle} {d k level : Nat} {v : Word} {rest : Handle → Prop}

/-- A new row for a node of the lowest level. -/
theorem update (hst : Stand t c r (d + 1) rest) (hh : h ∈ c.level r d) {row : Row} {p : NodePool}
    (hs : Stock t.geometry p (Function.update c h row)) (hf : Fades t.pool p) (hlive : ∀ k, p.Live k ↔ t.pool.Live k)
    (hsound : Sound (2 ^ w.bits) (Function.update c h row) r d) (hrow : row ≠ [])
    (hinner : d + 1 < t.height → ∀ e ∈ row, ∃ k, Pair.child e = some k) :
    Stand ({ t with pool := p } : Tree w) (Function.update c h row) r (d + 1) rest := by
  have hoff := (hst.sound d rfl).update_off hh row
  have hcrown : Rows.crown (Function.update c h row) r (d + 1) = c.crown r (d + 1) := under_congr hoff
  refine ⟨hst.root, hst.height, hs, fun i hi => ?_, fun h => ?_, fun h hh => ?_, fun k hk => ?_,
    fun hm k hk e he => ?_, fun i hi hheight k hk => ?_⟩
  · obtain rfl : d = i := by omega
    exact hsound
  · rw [hcrown]
    exact (hlive h).trans (hst.live h)
  · rw [hcrown]
    exact hst.apart h hh
  · rw [hcrown] at hk
    by_cases hkh : k = h
    · rwa [hkh, Function.update_self]
    · rw [Function.update_of_ne hkh]
      exact hst.full k hk
  · rw [hcrown] at hk
    by_cases hkh : k = h
    · rw [hkh, Function.update_self] at he
      exact hinner hm e he
    · rw [Function.update_of_ne hkh] at he
      exact hst.inner hm k hk e he
  · obtain rfl : d = i := by omega
    rw [level_congr hoff] at hk
    exact hf.quiet (hst.quiet d rfl hheight k hk)

/-- The pair `k`, `v` put into its place in the node `h`, once the path of `k` was lowered. -/
theorem placed {c₁ : Rows} {p₁ p : NodePool} (hst : Stand t c r (d + 1) rest) (hc : Coherent w t.pool c [])
    (hl : Loosened t c r (d + 1) rest p₁ c₁) (hk : k < 2 ^ w.bits) (hland : c.land k r d = some h)
    (hroute : c₁.route k r d = some h) (hmiss : ∀ i, c.Misses k r (d + 1) i → c₁ i = c i) (hnew : ∀ e ∈ c₁ h, e.1 ≠ k)
    (hchild : d + 1 < t.height → ∃ q, Pair.child (k, v) = some q)
    (hs : Stock t.geometry p (Function.update c₁ h ((c₁ h).above k ++ (k, v) :: (c₁ h).upTo k))) (hf : Fades p₁ p)
    (hlive : ∀ q, p.Live q ↔ p₁.Live q) (hquiet : p.Quiet h) :
    Inserted t c r d k v rest ({ t with pool := p } : Tree w)
      (Function.update c₁ h ((c₁ h).above k ++ (k, v) :: (c₁ h).upTo k)) r d := by
  have hh := mem_level_of_land hland
  have hcrown : h ∈ c.crown r (d + 1) := mem_crown.mpr ⟨d, Nat.lt_succ_self d, hh⟩
  have hh₁ : h ∈ c₁.level r d := by rwa [hl.loosens.level]
  have hsound := hl.stand.sound d rfl
  have hsplit := (c₁ h).above_append_upTo k
  have hA : ∀ a ∈ (c₁ h).above k, k < a.1 := fun a ha => Row.lt_of_mem_above ha
  have hB : ∀ b ∈ (c₁ h).upTo k, b.1 < k := fun b hb => by
    have hle := (hsound.descending_level (Nat.le_refl d) hh₁).le_of_mem_upTo hb
    have hne := hnew b (by rw [← hsplit]; exact List.mem_append_right _ hb)
    omega
  have hother : ∀ (row : Row) (q : Handle), q ≠ h → Function.update c₁ h row q = c₁ q := fun row q hqh =>
    Function.update_of_ne hqh row c₁
  exact {
    alike := ⟨rfl, rfl, rfl, rfl⟩
    stand := by
      refine hl.stand.update hh₁ hs hf hlive (hsound.placed hk hroute hsplit.symm hA hB) (by simp) fun hm e he => ?_
      -- lowering did not reach the row of `h`, so its pairs are the old ones and the new one
      have hcase : e = (k, v) ∨ e ∈ c h := by
        rw [← hl.lowest d rfl h hh, ← hsplit, List.mem_append]
        rcases List.mem_append.mp he with he | he
        · exact Or.inr (Or.inl he)
        · exact (List.mem_cons.mp he).imp id Or.inr
      rcases hcase with rfl | he
      · exact hchild hm
      · exact hst.inner hm h hcrown e he
    height := rfl
    fades := hl.edits.fades.trans hf
    coherent := hc.mono (hl.edits.fades.trans hf) fun q hq x i hlook => by
      have hqh : q ≠ h := fun hqh => hq (hqh ▸ hquiet)
      rw [look, hother _ q hqh]
      exact hl.loosens.look x q i hlook
    rest := fun q hq => (hother _ q fun hqh => hst.apart q hq (hqh ▸ hcrown)).trans (hl.rest q hq)
    pairs := by
      obtain ⟨S, T, hpairs, hpairs'⟩ := hsound.pairs_update hh₁
      rw [hpairs', ← hl.pairs, hpairs]
      conv_rhs => rw [← hsplit]
      simp only [List.append_assoc, List.cons_append]
      exact (List.Perm.append_left S List.perm_middle).trans List.perm_middle
    aimed := fun e he hek x => by
      rw [← hl.aimed] at he ⊢
      exact hsound.aimed_placed (land_of_route hroute) hsplit.symm hA hB he hek x
    filled := (hl.loosens.filled t.pairs r d).trans (hsound.filled_placed hh₁ hsplit.symm t.pairs)
    sibling := fun hg _ he hek hej hq hs' ha => by
      rw [← hl.aimed] at he
      rw [← hl.loosens.level] at hs'
      exact hsound.sibling_placed (land_of_route hroute) hsplit.symm hA hB he hek hej hq hg hs' (hl.loosens.abides ha)
    lives := fun q hq => (hlive q).mpr ((hl.edits.live q).mpr hq)
    missed := fun q _ hq => (hother _ q (by
      rintro rfl
      exact hq d (Nat.lt_succ_self d) hland)).trans (hmiss q hq) }

/-- A key that is not in its node: an attempt puts its pair in or finds the node full. -/
theorem tryPlace_new (hst : Stand t c r (d + 1) rest) (hc : Coherent w t.pool c []) (hlevel : level + d = t.height)
    (hk : k < 2 ^ w.bits) (hv : v ≠ 0) (hchild : 1 < level → ∃ q, Pair.child (k, v) = some q)
    (hland : c.land k r d = some h) (hnew : ∀ e ∈ c h, e.1 ≠ k) :
    ((c h).length = t.pairs ∧ ∃ p c', Runs (Tree.tryPlace (Words.ofNat w.words k) v level) t (.full h)
      { t with pool := p } ∧
      Runs (Tree.nodeAt (Words.ofNat w.words k) level) t h { t with pool := p } ∧ Loosened t c r (d + 1) rest p c' ∧
      ∀ i, c.Misses k r (d + 1) i → c' i = c i) ∨
    ((c h).length < t.pairs ∧ ∃ p c', Runs (Tree.tryPlace (Words.ofNat w.words k) v level) t .placed
      { t with pool := p } ∧ Inserted t c r d k v rest { t with pool := p } c' r d) := by
  obtain ⟨h', p₁, hland', hrun, hs, hedits⟩ := hst.nodeAt hlevel hk
  rw [hland, Option.some.injEq] at hland'
  subst hland'
  have hloose := Loosened.of_lowerPath hst (Nat.le_refl d) hs hedits hk
  have hroute := route_lowerPath_self (Nat.le_refl d) hland
  have hmiss : ∀ i, c.Misses k r (d + 1) i → c.lowerPath k r d i = c i := fun i hi =>
    lowerPath_off (misses_succ.mp hi).1
  -- from here on only what lowering keeps is used, not how the path was lowered
  generalize c.lowerPath k r d = c₁ at hs hloose hroute hmiss
  have hh := mem_level_of_land hland
  have hlive := hloose.stand.live_of_level (Nat.lt_succ_self d) (by rwa [hloose.loosens.level])
  have hrow := hloose.lowest d rfl h hh
  obtain ⟨n, hn, hpacks⟩ := hs.node hlive
  have hlen := hpacks.length_le
  rw [← hrow] at hnew ⊢
  rcases Nat.lt_or_eq_of_le hlen with hroom | hfull
  · obtain ⟨p, hrun', hs', hf, hlive', hquiet⟩ := tryPlace_placed hrun hs hlive hk hv hnew hroom fun hl =>
      hedits.fades.quiet (hst.quiet d rfl (by have := hst.height; omega) h hh)
    exact Or.inr ⟨hroom, p, _, hrun', hst.placed hc hloose hk hland hroute hmiss hnew (fun hm =>
      hchild (by omega)) hs' hf hlive' hquiet⟩
  · exact Or.inl ⟨hfull, p₁, c₁, tryPlace_full hrun hs hlive hk hnew hfull, hrun, hloose, hmiss⟩

/-- A key that is in its leaf: an attempt finds it there and changes nothing. -/
theorem tryPlace_old (hst : Stand t c r (d + 1) rest) (hlevel : 1 + d = t.height) (hk : k < 2 ^ w.bits)
    (hh : h ∈ c.level r d) {e : Pair} (he : e ∈ c h) (hek : e.1 = k) :
    Runs (Tree.tryPlace (Words.ofNat w.words k) v 1) t .taken t := by
  have hsound := hst.sound d rfl
  have hroute := hsound.routed d (Nat.le_refl d) h hh e he
  subst hek
  exact tryPlace_taken (hst.nodeAt_routed hlevel hk hroute) hst.stock (hst.live_of_level (Nat.lt_succ_self d) hh) hk
    ((hsound.descending_level (Nat.le_refl d) hh).scan_of_mem he) rfl

end Stand
end MemoTree
