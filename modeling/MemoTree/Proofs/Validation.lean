import MemoTree.Proofs.Ranges
import MemoTree.Proofs.Walks
import MemoTree.Tree.Validate

/-! # Whole trees are valid

The check of a tree goes down from the root with the range of each node. In a whole tree it finds no violation: a node
in use is not deleted, its words pack its row, and the keys of the row descend within the range. -/

namespace MemoTree
open Pool NodePool Rows

/-- The check `m` finds no violation and answers `a`. -/
def Passes {α : Type} (m : Check α) (a : α) : Prop := m.run = .ok (.ok a)

namespace Passes
variable {α β : Type} {a : α} {b : β} {m m' : Check α}

theorem pure (a : α) : Passes (pure a : Check α) a := rfl

theorem bind {f : α → Check β} (hm : Passes m a) (hf : Passes (f a) b) : Passes (m >>= f) b := by
  show (m.run >>= ExceptT.bindCont f : Except Fault (Except Violation β)) = _
  rw [hm]
  exact hf

theorem lift {e : Except Fault α} (he : e = .ok a) : Passes (liftM e : Check α) a := by
  subst he
  rfl

theorem of_neg {c : Prop} [Decidable c] (hc : ¬c) (h : Passes m' a) : Passes (if c then m else m') a := by
  rwa [if_neg hc]

theorem of_pos {c : Prop} [Decidable c] (hc : c) (h : Passes m a) : Passes (if c then m else m') a := by
  rwa [if_pos hc]

theorem of_eq (h : Passes m a) {a' : α} (ha : a = a') : Passes m a' := by rwa [← ha]

/-- A check that is made under a condition, before the others. -/
theorem guard {c : Prop} [Decidable c] {e : Except Fault β} {bad : β → Prop} [DecidablePred bad] {v : Violation}
    {rest : Unit → Check α} (hrest : Passes (rest ()) a) (hc : c → ∃ b, e = .ok b ∧ ¬bad b) :
    Passes (if c then do
        let b ← liftM e
        if bad b then do
          let r ← throw v
          rest r
        else rest ()
      else rest ()) a := by
  by_cases h : c
  · obtain ⟨b, hb, hbad⟩ := hc h
    exact of_pos h (bind (lift hb) (of_neg hbad hrest))
  · exact of_neg h hrest

theorem forM {l : List α} {f : α → Check Unit} (hf : ∀ x ∈ l, Passes (f x) ()) : Passes (l.forM f) () := by
  induction l with
  | nil => exact pure ()
  | cons x l ih => exact bind (hf x List.mem_cons_self) (ih fun y hy => hf y (List.mem_cons_of_mem x hy))

/-- A check of the first slots, one after the other. -/
theorem foldlM {f : α → Nat → Check α} (total : Nat → α) {fill : Nat} (hzero : total 0 = a)
    (hf : ∀ i < fill, Passes (f (total i) i) (total (i + 1))) :
    Passes ((List.range fill).foldlM f a) (total fill) := by
  induction fill with
  | zero =>
    rw [hzero]
    exact pure a
  | succ fill ih =>
    rw [List.range_succ, List.foldlM_append]
    refine bind (ih fun i hi => hf i (by omega)) ?_
    rw [List.foldlM_cons]
    exact bind (hf fill (Nat.lt_succ_self fill)) (pure _)

end Passes

/-! ### The checks of a node -/

section Nodes
variable {g : Geometry} {n : Node} {row : Row} {h : Handle} {lower upper : Option Nat}

/-- The keys of a row are at least `lower` and below `upper`. -/
structure Row.Between (g : Geometry) (row : Row) (lower upper : Option Nat) : Prop where
  lower : ∀ l ∈ lower, l < 2 ^ (64 * g.keyLength) ∧ ∀ e ∈ row, l ≤ e.1
  upper : ∀ u ∈ upper, u < 2 ^ (64 * g.keyLength) ∧ ∀ e ∈ row, e.1 < u

theorem Packs.clearAt_eq (hp : Packs g n.words row) {i : Nat} (hi : row.length ≤ i) (hlt : i < g.pairs) :
    n.clearAt g i = .ok true := by
  have hkey := hp.lays.key_eq (Packs.free_slot hi hlt)
  have hzero : Words.isZero (Words.ofNat g.keyLength Pair.zero.1) = true :=
    (Words.isZero_ofNat (Nat.two_pow_pos _)).mpr rfl
  rw [Node.clearAt, hkey]
  show (if Words.isZero (Words.ofNat g.keyLength Pair.zero.1) = true then _ else _ : Except Fault Bool) = _
  rw [if_pos hzero, hp.value_free hi hlt]
  rfl

theorem checkUnused_spec (hp : Packs g n.words row) : Passes (Tree.checkUnused g h n row.length) () := by
  refine Passes.forM fun i hi => ?_
  obtain ⟨hle, hlt⟩ := List.mem_range'_1.mp hi
  exact Passes.bind (Passes.lift (hp.clearAt_eq hle (by omega))) (Passes.pure ())

/-- The keys in the used slots of a node pass the check. -/
theorem checkKeys_spec (hp : Packs g n.words row) (hd : row.Descending) (hb : row.Between g lower upper) :
    Passes (Tree.checkKeys g h n row.length (lower.map (Words.ofNat g.keyLength)) (upper.map (Words.ofNat g.keyLength)))
      () := by
  refine Passes.forM fun i hi => ?_
  obtain ⟨e, he⟩ : ∃ e, row[i]? = some e := ⟨_, List.getElem?_eq_getElem (List.mem_range.mp hi)⟩
  have hsmall := hp.small (List.mem_of_getElem? he)
  have hprev : i > 0 → n.compareKey g (i - 1) (Words.ofNat g.keyLength e.1) = .ok .gt := fun hpos => by
    obtain ⟨b, hb⟩ : ∃ b, row[i - 1]? = some b :=
      ⟨_, List.getElem?_eq_getElem (by have := List.mem_range.mp hi; omega)⟩
    rw [hp.lays.compareKey_eq (Packs.used_slot hb) hsmall, Nat.compare_eq_gt.mpr (hd.lt_before hpos hb he)]
  have hlow : ∀ l ∈ lower,
    ¬(Words.compare (Words.ofNat g.keyLength e.1) (Words.ofNat g.keyLength l) == .lt) = true := by
    intro l hl
    obtain ⟨hlsmall, hle⟩ := hb.lower l hl
    rw [Words.compare_ofNat hsmall hlsmall, beq_iff_eq, Nat.compare_eq_lt]
    exact Nat.not_lt.mpr (hle e (List.mem_of_getElem? he))
  have hup : ∀ u ∈ upper, ¬(Words.compare (Words.ofNat g.keyLength e.1) (Words.ofNat g.keyLength u) != .lt) = true := by
    intro u hu
    obtain ⟨husmall, hlt⟩ := hb.upper u hu
    rw [Words.compare_ofNat hsmall husmall, Nat.compare_eq_lt.mpr (hlt e (List.mem_of_getElem? he))]
    decide
  refine Passes.bind (Passes.lift (hp.key_eq he)) (Passes.guard ?_ fun hpos => ⟨_, hprev hpos, by decide⟩)
  cases upper with
  | none =>
    cases lower with
    | none => exact Passes.pure ()
    | some l => exact Passes.of_neg (hlow l rfl) (Passes.pure ())
  | some u =>
    cases lower with
    | none => exact Passes.of_neg (hup u rfl) (Passes.pure ())
    | some l => exact Passes.of_neg (hlow l rfl) (Passes.of_neg (hup u rfl) (Passes.pure ()))

theorem checkNode_spec (depth : Nat) (hp : Packs g n.words row) (hdel : n.deleted = false) (hne : row ≠ [])
    (hd : row.Descending) (hb : row.Between g lower upper) :
    Passes (Tree.checkNode g h n depth (lower.map (Words.ofNat g.keyLength)) (upper.map (Words.ofNat g.keyLength)))
      row.length :=
  Passes.of_neg (by rw [hdel]; decide) (Passes.bind (Passes.lift hp.fill_eq)
    (Passes.of_neg (fun h0 => hne (List.length_eq_zero_iff.mp h0))
      (Passes.bind (checkUnused_spec hp) (Passes.bind (checkKeys_spec hp hd hb) (Passes.pure _)))))

end Nodes

/-! ### The check of a tree -/

section Trees
variable {w : Width} {t : Tree w} {c : Rows} {r h : Handle} {row : Row} {lower upper : Option Nat}

/-- The range of a node bounds its keys, and its bounds are keys. -/
theorem Rooted.between (hr : Rooted t c r) {i : Nat} (hi : i ≤ t.height - 1) (hh : h ∈ c.level r i)
    (hw : c.Within r i h lower upper) (hlower : ∀ l ∈ lower, l < 2 ^ (64 * w.words))
    (hupper : ∀ u ∈ upper, u < 2 ^ (64 * w.words)) : (c h).Between t.geometry lower upper where
  lower l hl := ⟨hlower l hl, fun _ he => (hr.sound.within hi hh hw he).1 l hl⟩
  upper u hu := ⟨hupper u hu, fun _ he => (hr.sound.within hi hh hw he).2 u hu⟩

/-- The nodes under a node that is `i` levels below the root pass the check. -/
theorem Rooted.checkUnder (hr : Rooted t c r) (depth : Nat) :
    ∀ {i : Nat} {h : Handle} {lower upper : Option Nat} (tally : Tally), i + depth = t.height - 1 → h ∈ c.level r i →
    c.Within r i h lower upper → (∀ l ∈ lower, l < 2 ^ (64 * w.words)) → (∀ u ∈ upper, u < 2 ^ (64 * w.words)) →
    Passes (t.checkUnder depth h (lower.map (Words.ofNat w.words)) (upper.map (Words.ofNat w.words)) tally)
      ⟨tally.entries + (c.pairs h depth).length, tally.nodes + (c.family h depth).length⟩ := by
  have hnode : ∀ {i : Nat} {h : Handle}, i ≤ t.height - 1 → h ∈ c.level r i →
      ∃ n, t.pool.block h = .ok n ∧ n.deleted = false ∧ Packs t.geometry n.words (c h) := fun hi hh => by
    obtain ⟨n, hn, hdel, -⟩ := id (hr.live_level hi hh)
    exact ⟨n, hn, hdel, hr.stand.stock.packs _ n hn (hr.live_level hi hh)⟩
  induction depth with
  | zero =>
    intro i h lower upper tally hi hh hw hlower hupper
    obtain ⟨n, hn, hdel, hpacks⟩ := hnode (by omega) hh
    have hcheck := checkNode_spec (h := h) 0 hpacks hdel (hr.full (by omega) hh)
      (hr.sound.descending_level (by omega) hh) (hr.between (by omega) hh hw hlower hupper)
    rw [pairs_zero]
    exact Passes.bind (Passes.lift hn) (Passes.bind hcheck (Passes.pure _))
  | succ depth ih =>
    intro i h lower upper tally hi hh hw hlower hupper
    obtain ⟨n, hn, hdel, hpacks⟩ := hnode (by omega) hh
    have hcheck := checkNode_spec (h := h) (depth + 1) hpacks hdel (hr.full (by omega) hh)
      (hr.sound.descending_level (by omega) hh) (hr.between (by omega) hh hw hlower hupper)
    -- the children in the first `j` slots
    let kids := fun j => ((c h).take j).filterMap Pair.child
    let total : Nat → Tally := fun j => ⟨tally.entries + ((kids j).flatMap fun k => c.pairs k depth).length,
      tally.nodes + 1 + ((kids j).flatMap fun k => c.family k depth).length⟩
    refine Passes.bind (Passes.lift hn) (Passes.bind hcheck
      (Passes.of_eq (Passes.foldlM total rfl fun j hj => ?_) ?_))
    · obtain ⟨e, he⟩ : ∃ e, (c h)[j]? = some e := ⟨_, List.getElem?_eq_getElem hj⟩
      have hmem := List.mem_of_getElem? he
      obtain ⟨k, hk⟩ := (hr.sound.inner i (by omega) h hh).2 e hmem
      have hkids : kids (j + 1) = kids j ++ [k] := by
        show ((c h).take (j + 1)).filterMap Pair.child = _
        rw [List.take_add_one, he, List.filterMap_append]
        exact congrArg (kids j ++ ·) (List.filterMap_cons_some hk)
      have hchild := ih (total j) (by omega)
        (mem_level_succ.mpr ⟨h, hh, mem_kids.mpr ⟨e, hmem, hk⟩⟩)
        (hr.sound.within_child (by omega) hh hw he hk)
        (fun l hl => by
          cases hl
          exact hpacks.small hmem)
        (Row.ceiling_lt hupper fun _ he => hpacks.small he)
      have htotal : total (j + 1) = ⟨(total j).entries + (c.pairs k depth).length,
          (total j).nodes + (c.family k depth).length⟩ := by
        simp only [total, hkids, List.flatMap_append, List.flatMap_singleton, List.length_append, Nat.add_assoc]
      rw [htotal]
      refine Passes.bind (Passes.lift ((hpacks.child_eq he).trans (congrArg Except.ok hk)))
        (Passes.bind (Passes.lift (hpacks.key_eq he)) ?_)
      -- a child is bounded by the key in front of its slot, the first child by what bounds the node
      rw [Row.ceiling] at hchild
      by_cases hj0 : j = 0
      · rw [if_pos hj0] at hchild
        exact Passes.of_pos hj0 (Passes.bind (Passes.pure _) hchild)
      · obtain ⟨b, hb⟩ : ∃ b, (c h)[j - 1]? = some b := ⟨_, List.getElem?_eq_getElem (by omega)⟩
        rw [if_neg hj0, hb] at hchild
        exact Passes.of_neg hj0 (Passes.bind (Passes.lift (hpacks.key_eq hb)) (Passes.bind (Passes.pure _) hchild))
    · have hall : kids (c h).length = c.kids h := congrArg (List.filterMap Pair.child) List.take_length
      simp only [total, hall, ← pairs_succ, family, List.length_cons]
      congr 1
      omega

/-- A whole tree passes the check. -/
theorem Whole.check (hw : Whole t row) : Passes t.check () := by
  rcases hw.state with ⟨hb, hrow⟩ | ⟨c, r, hr, hperm⟩
  · have hpass : Passes (if t.height ≠ 0 ∨ t.len ≠ 0 then throw (.rootless t.height t.len) else pure () : Check Unit)
        () := by
      refine Passes.of_neg ?_ (Passes.pure ())
      rw [hb.height, hw.len, hrow]
      decide
    unfold Tree.check
    rw [hb.root]
    exact hpass
  · have hunder := hr.checkUnder (t.height - 1) ⟨0, 0⟩ (Nat.zero_add _) (List.mem_singleton_self r) (within_root c r)
      (fun l hl => (by cases hl)) (fun u hu => (by cases hu))
    have hlen : (c.pairs r (t.height - 1)).length = t.len := by rw [hw.len, hperm.length_eq]
    have hout := hr.stand.stock.ledger.length_le_out hr.family_nodup fun h hh => hr.live_family.mp hh
    unfold Tree.check
    rw [hr.stand.root]
    refine Passes.of_neg (Nat.ne_of_gt hr.tall) (Passes.bind hunder (Passes.of_neg ?_
      (Passes.bind (Passes.lift hr.stand.stock.ledger.outstanding_eq) (Passes.of_neg ?_ (Passes.pure ())))))
    · rw [not_not, hlen, Nat.zero_add]
    · exact Nat.not_lt.mpr ((Nat.le_of_eq (Nat.zero_add _)).trans hout)

theorem Whole.validate (hw : Whole t row) : t.validate = .ok (.ok ()) := by
  have hcheck : t.check.run = .ok (.ok ()) := hw.check
  rw [Tree.validate, hcheck]
  rfl

end Trees
end MemoTree
