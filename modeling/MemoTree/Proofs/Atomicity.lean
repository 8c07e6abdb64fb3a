import MemoTree.Proofs.Anatomy
import MemoTree.Proofs.Calls

/-! # Failed operations

An insertion that finds its key changes nothing. One that finds no block and a removal that finds no key leave the
tree as it was, except for separators on the path of the key: where all of a node's separators are above the key, the
last one is lowered to it. The blocks that the insertion got are given back in the opposite order, so that the pool
hands out the same handles as before, though some of their blocks may be new. -/

namespace MemoTree
open Pool NodePool Rows

/-- The block of `h` was made and is not on the free list. -/
def Pool.Out {β : Type} (p : Pool β) (h : Handle) : Prop := (∃ b, p.block h = .ok b) ∧ h ∉ p.free

namespace Tree
variable {w : Width}

/-- A change for `key` goes on from slot `i` of `h`, which holds `s` and `v`: the keys before it are above `key`, and
it is the last one or its own is not. -/
structure Turns (t : Tree w) (key : Words) (h : Handle) (i : Nat) (s : Words) (v : Word) : Prop where
  uses : t.Uses h i s v
  before : ∀ j < i, ∀ s' v', t.Uses h j s' v' → key.toNat < s'.toNat
  stops : s.toNat ≤ key.toNat ∨ ∀ j s' v', t.Uses h j s' v' → j ≤ i

/-- A change for `key` passes `h`, which is `d` levels below the root. -/
inductive Path (t : Tree w) (key : Words) : (d : Nat) → (h : Handle) → Prop
  | root {r : Handle} : t.root = some r → Path t key 0 r
  | down {d i : Nat} {h k : Handle} {s : Words} {v : Word} : Path t key d h → d + 1 < t.height → t.Turns key h i s v →
      Handle.ofWord? v = some k → Path t key (d + 1) k

/-- All separators of `h`, which is on the path of `key` above `level`, are above `key`; the last is in slot `i`. -/
def OvertopsAbove (t : Tree w) (key : Words) (level : Nat) (h : Handle) (i : Nat) : Prop :=
  ∃ d s v, t.Path key d h ∧ d + level < t.height ∧ t.Turns key h i s v ∧ key.toNat < s.toNat

/-- All separators of `h`, which is on the path of `key` above the lowest level, are above `key`; the last is in slot
`i`. -/
def Overtops (t : Tree w) (key : Words) (h : Handle) (i : Nat) : Prop :=
  ∃ d s v, t.Path key d h ∧ d + 1 < t.height ∧ t.Turns key h i s v ∧ key.toNat < s.toNat

/-- Among the blocks that `P` holds of, those of nodes on the path of `key` whose separators are all above it have the
last one lowered to `key` in `t'`, and the others are as in `t`, with their words, rings, counts and marks. -/
structure Lowers (t t' : Tree w) (key : Words) (P : Handle → Prop) : Prop where
  lowered : ∀ h i n, P h → t.Overtops key h i → t.pool.block h = .ok n →
    ∃ n', n.writeKey t.geometry i key = .ok n' ∧ t'.pool.block h = .ok n'
  kept : ∀ h, P h → (∀ i, ¬t.Overtops key h i) → t'.pool.block h = t.pool.block h

/-- What an insertion that found no block made of `t`. -/
structure Refused (t t' : Tree w) (key : Words) : Prop where
  tree : t' = { t with pool := t'.pool }
  out : ∀ h, t'.pool.Out h ↔ t.pool.Out h
  nodes : t.Lowers t' key t.pool.Out
  outstanding : t'.pool.outstanding = t.pool.outstanding
  counts : ∃ n, t'.pool.allocated = t.pool.allocated + n ∧ t'.pool.released = t.pool.released + n
  allocations : ∀ n, ∃ answers, (∃ q, Runs (Pool.allocations n) t.pool answers q) ∧
    ∃ q, Runs (Pool.allocations n) t'.pool answers q
  reads : t.ReadAlike t'

/-- What a removal that found no key made of `t`. -/
structure Missed (t t' : Tree w) (key : Words) : Prop where
  tree : t' = { t with pool := { t.pool with blocks := t'.pool.blocks } }
  size : t'.pool.blocks.size = t.pool.blocks.size
  nodes : t.Lowers t' key fun _ => True
  reads : t.ReadAlike t'

/-- What operations for `k` that fail make of `t`. -/
structure FailsSoftly (t : Tree w) (k : Key w) : Prop where
  taken : ∀ v t', Ends (Tree.insert k v) t (.error .duplicateKey) t' → t' = t
  refused : ∀ v n t', Ends (Tree.insert k v) t (.error (.outOfMemory n)) t' → t.Refused t' k.toWords
  missed : ∀ t', Ends (Tree.remove k) t none t' → t.Missed t' k.toWords

end Tree

/-! ### Paths of changes -/

/-- Where a change goes on in a row. -/
theorem Row.aim_eq_some {row : Row} {x : Nat} {e : Pair} : row.aim x = some e ↔ ∃ i : Nat, row[i]? = some e ∧
    (∀ j < i, ∀ a : Pair, row[j]? = some a → x < a.1) ∧
    (e.1 ≤ x ∨ ∀ (j : Nat) (a : Pair), row[j]? = some a → j ≤ i) := by
  constructor
  · intro h
    cases hs : row.scan x with
    | some e' =>
      rw [aim_of_scan hs] at h
      cases h
      obtain ⟨A, B, rfl, hA⟩ := scan_split hs
      refine ⟨A.length, by simp, fun j hj a ha => ?_, Or.inl (le_of_scan hs)⟩
      rw [List.getElem?_append_left hj] at ha
      exact hA a (List.mem_of_getElem? ha)
    | none =>
      rw [aim_of_none hs, List.getLast?_eq_getElem?] at h
      refine ⟨row.length - 1, h, fun j _ a ha => scan_eq_none.mp hs a (List.mem_of_getElem? ha),
        Or.inr fun j a ha => ?_⟩
      have := (List.getElem?_eq_some_iff.mp ha).1
      omega
  · -- a pair not above `x` is the one a scan finds; otherwise the row ends here and no scan finds any
    rintro ⟨i, hi, hbefore, hstops⟩
    have hlt := (List.getElem?_eq_some_iff.mp hi).1
    by_cases hle : e.1 ≤ x
    · have hrow : row = row.take i ++ e :: row.drop (i + 1) := by
        rw [← (List.getElem?_eq_some_iff.mp hi).2, List.getElem_cons_drop, List.take_append_drop]
      refine aim_of_scan ?_
      rw [hrow]
      refine scan_split_eq (fun a ha => ?_) hle
      obtain ⟨j, hj, hja⟩ := List.getElem_of_mem ha
      rw [List.length_take] at hj
      rw [List.getElem_take] at hja
      exact hbefore j (by omega) a (List.getElem?_eq_some_iff.mpr ⟨by omega, hja⟩)
    · have hlast := hstops.resolve_left hle
      have hend : i = row.length - 1 := by
        have := hlast (row.length - 1) _ (List.getElem?_eq_getElem (by omega))
        omega
      rw [aim_of_none, List.getLast?_eq_getElem?, ← hend, hi]
      refine scan_eq_none.mpr fun a ha => ?_
      obtain ⟨j, hj, hja⟩ := List.getElem_of_mem ha
      have hja' : row[j]? = some a := List.getElem?_eq_some_iff.mpr ⟨hj, hja⟩
      rcases Nat.lt_or_eq_of_le (hlast j a hja') with hlt | rfl
      · exact hbefore j hlt a hja'
      · rw [hi, Option.some.injEq] at hja'
        subst hja'
        omega

section Rooted
variable {w : Width} {t : Tree w} {c : Rows} {r h : Handle} {d i x : Nat} {s : Words} {v : Word} {p : NodePool}

namespace Rooted

theorem uses_iff (hr : Rooted t c r) (hd : d ≤ t.height - 1) (hh : h ∈ c.level r d) :
    t.Uses h i s v ↔ ∃ e, (c h)[i]? = some e ∧ s = Words.ofNat w.words e.1 ∧ v = e.2 := by
  obtain ⟨n, hn, hpacks⟩ := hr.stand.stock.node (hr.live_level hd hh)
  constructor
  · rintro ⟨n', hn', hpair, hne⟩
    rw [hn] at hn'
    cases hn'
    obtain ⟨e, he, hv, hs⟩ := hpacks.of_pair hpair hne
    exact ⟨e, he, hs, hv.symm⟩
  · rintro ⟨e, he, rfl, rfl⟩
    exact ⟨n, hn, hpacks.pair_eq he, hpacks.used e (List.mem_of_getElem? he)⟩

/-- The number that the key of a pair denotes. -/
theorem toNat_key (hr : Rooted t c r) (hd : d ≤ t.height - 1) (hh : h ∈ c.level r d) {e : Pair}
    (he : (c h)[i]? = some e) : (Words.ofNat w.words e.1).toNat = e.1 :=
  Words.toNat_ofNat (Nat.lt_of_lt_of_le (hr.sound.small_level hd hh (List.mem_of_getElem? he)) (Key.pow_bits_le w))

theorem turns_iff (hr : Rooted t c r) (hd : d ≤ t.height - 1) (hh : h ∈ c.level r d) (hx : x < 2 ^ w.bits) :
    t.Turns (Words.ofNat w.words x) h i s v ↔ ∃ e, ((c h)[i]? = some e ∧ (∀ j < i, ∀ a, (c h)[j]? = some a → x < a.1) ∧
      (e.1 ≤ x ∨ ∀ j a, (c h)[j]? = some a → j ≤ i)) ∧ s = Words.ofNat w.words e.1 ∧ v = e.2 := by
  have hxx : (Words.ofNat w.words x).toNat = x := Words.toNat_ofNat (Nat.lt_of_lt_of_le hx (Key.pow_bits_le w))
  constructor
  · rintro ⟨huses, hbefore, hstops⟩
    obtain ⟨e, he, rfl, rfl⟩ := (hr.uses_iff hd hh).mp huses
    refine ⟨e, ⟨he, fun j hj a ha => ?_, hstops.imp (fun hle => ?_) fun hall j a ha => ?_⟩, rfl, rfl⟩
    · have := hbefore j hj _ _ ((hr.uses_iff hd hh).mpr ⟨a, ha, rfl, rfl⟩)
      rwa [hxx, hr.toNat_key hd hh ha] at this
    · rwa [hxx, hr.toNat_key hd hh he] at hle
    · exact hall j _ _ ((hr.uses_iff hd hh).mpr ⟨a, ha, rfl, rfl⟩)
  · rintro ⟨e, ⟨he, hbefore, hstops⟩, rfl, rfl⟩
    refine ⟨(hr.uses_iff hd hh).mpr ⟨e, he, rfl, rfl⟩, fun j hj s' v' hu => ?_, hstops.imp (fun hle => ?_)
      fun hall j s' v' hu => ?_⟩
    · obtain ⟨a, ha, rfl, -⟩ := (hr.uses_iff hd hh).mp hu
      rw [hxx, hr.toNat_key hd hh ha]
      exact hbefore j hj a ha
    · rwa [hxx, hr.toNat_key hd hh he]
    · obtain ⟨a, ha, -⟩ := (hr.uses_iff hd hh).mp hu
      exact hall j a ha

/-- The path of a key is where changes for it land. -/
theorem path_iff (hr : Rooted t c r) (hx : x < 2 ^ w.bits) :
    t.Path (Words.ofNat w.words x) d h ↔ d ≤ t.height - 1 ∧ c.land x r d = some h := by
  constructor
  · intro hpath
    induction hpath with
    | root hroot =>
      rw [hr.stand.root] at hroot
      exact ⟨Nat.zero_le _, hroot⟩
    | down _ hd hturns hk ih =>
      obtain ⟨hle, hland⟩ := ih
      obtain ⟨e, haim, -, rfl⟩ := (hr.turns_iff hle (mem_level_of_land hland) hx).mp hturns
      refine ⟨by omega, ?_⟩
      rw [land_succ, hland]
      exact step_eq_some.mpr ⟨e, Row.aim_eq_some.mpr ⟨_, haim⟩, hk⟩
  · rintro ⟨hd, hland⟩
    induction d generalizing h with
    | zero => exact .root (hr.stand.root.trans hland)
    | succ d ih =>
      obtain ⟨p, hp, hstep⟩ := Option.bind_eq_some_iff.mp hland
      obtain ⟨e, haim, hk⟩ := step_eq_some.mp hstep
      obtain ⟨i, haim⟩ := Row.aim_eq_some.mp haim
      exact .down (ih (by omega) hp) (by omega)
        ((hr.turns_iff (by omega) (mem_level_of_land hp) hx).mpr ⟨e, haim, rfl, rfl⟩) hk

theorem overtopsAbove_iff {level : Nat} (hr : Rooted t c r) (hx : x < 2 ^ w.bits) (hlevel : 1 ≤ level) :
    t.OvertopsAbove (Words.ofNat w.words x) level h i ↔
      (∃ d, d + level < t.height ∧ c.land x r d = some h) ∧ (c h).scan x = none ∧ i + 1 = (c h).length := by
  have hxx : (Words.ofNat w.words x).toNat = x := Words.toNat_ofNat (Nat.lt_of_lt_of_le hx (Key.pow_bits_le w))
  constructor
  · rintro ⟨d, s, v, hpath, hd, hturns, hlt⟩
    obtain ⟨hle, hland⟩ := (hr.path_iff hx).mp hpath
    have hh := mem_level_of_land hland
    obtain ⟨e, haim, rfl, rfl⟩ := (hr.turns_iff hle hh hx).mp hturns
    rw [hxx, hr.toNat_key hle hh haim.1] at hlt
    have hi := (List.getElem?_eq_some_iff.mp haim.1).1
    have hlast := haim.2.2.resolve_left (Nat.not_le.mpr hlt) _ _
      (List.getElem?_eq_getElem (show (c h).length - 1 < _ by omega))
    refine ⟨⟨d, hd, hland⟩, ?_, by omega⟩
    cases hscan : (c h).scan x with
    | none => rfl
    | some a =>
      have hle := Row.le_of_scan hscan
      -- a pair that a scan finds is where the change turns, and its key is not above `x`
      have heq := (Row.aim_of_scan hscan).symm.trans (Row.aim_eq_some.mpr ⟨i, haim⟩)
      cases heq
      omega
  · rintro ⟨⟨d, hd, hland⟩, hscan, hi⟩
    have hh := mem_level_of_land hland
    obtain ⟨e, hget⟩ : ∃ e, (c h)[i]? = some e := ⟨_, List.getElem?_eq_getElem (by omega)⟩
    have hlt := Row.scan_eq_none.mp hscan _ (List.mem_of_getElem? hget)
    refine ⟨d, _, _, (hr.path_iff hx).mpr ⟨by omega, hland⟩, hd, (hr.turns_iff (by omega) hh hx).mpr ⟨_, ⟨hget,
      fun j _ a ha => Row.scan_eq_none.mp hscan a (List.mem_of_getElem? ha), Or.inr fun j a ha => ?_⟩, rfl, rfl⟩, ?_⟩
    · have := (List.getElem?_eq_some_iff.mp ha).1
      omega
    · rwa [hxx, hr.toNat_key (by omega) hh hget]

/-- A descent to a level lowers the separators that are all above the key. -/
theorem lowered {level : Nat} {n : Node} (hr : Rooted t c r) (hx : x < 2 ^ w.bits) (hlevel : 1 ≤ level)
    (hd : level + d = t.height)
    (ht : Trims t.geometry c x r d t.pool p) (hover : t.OvertopsAbove (Words.ofNat w.words x) level h i)
    (hn : t.pool.block h = .ok n) :
    ∃ n', n.writeKey t.geometry i (Words.ofNat w.words x) = .ok n' ∧ p.block h = .ok n' := by
  obtain ⟨⟨j, hj, hland⟩, hscan, hi⟩ := (hr.overtopsAbove_iff hx hlevel).mp hover
  obtain ⟨n', hlow, hn'⟩ := ht.on j (by omega) h hland n hn
  cases hlow with
  | kept hsome =>
    rw [hscan] at hsome
    cases hsome
  | lowered _ hwrite =>
    rw [← hi, Nat.add_sub_cancel] at hwrite
    exact ⟨_, hwrite, hn'⟩

/-- It lowers no other separators, and writes nothing else. -/
theorem kept {level : Nat} (hr : Rooted t c r) (hx : x < 2 ^ w.bits) (hlevel : 1 ≤ level) (hd : level + d = t.height)
    (ht : Trims t.geometry c x r d t.pool p) (hover : ∀ i, ¬t.OvertopsAbove (Words.ofNat w.words x) level h i) :
    p.block h = t.pool.block h := by
  by_cases hon : ∃ j < d, c.land x r j = some h
  · obtain ⟨j, hj, hland⟩ := hon
    have hh := mem_level_of_land hland
    obtain ⟨n, hn, -⟩ := hr.live_level (by omega) hh
    obtain ⟨n', hlow, hn'⟩ := ht.on j hj h hland n hn
    cases hlow with
    | kept => exact hn'.trans hn.symm
    | lowered hscan =>
      have := List.length_pos_of_ne_nil (hr.full (by omega) hh)
      exact absurd ((hr.overtopsAbove_iff hx hlevel).mpr ⟨⟨j, by omega, hland⟩, hscan,
        Nat.sub_add_cancel this⟩) (hover _)
  · exact ht.off h fun j hj hland => hon ⟨j, hj, hland⟩

/-- A descent to the leaf of a key lowers the separators that are all above it. -/
theorem lowers (hr : Rooted t c r) (hx : x < 2 ^ w.bits) (ht : Trims t.geometry c x r (t.height - 1) t.pool p) :
    t.Lowers { t with pool := p } (Words.ofNat w.words x) fun _ => True where
  lowered _ _ _ _ hover hn := hr.lowered hx (Nat.le_refl 1) (Nat.add_sub_of_le hr.tall) ht hover hn
  kept _ _ hover := hr.kept hx (Nat.le_refl 1) (Nat.add_sub_of_le hr.tall) ht hover

end Rooted

/-! ### Blocks that are given back -/

theorem Trims.free {g : Geometry} {p p₁ : NodePool} (ht : Trims g c x r i p p₁) : p₁.free = p.free := by rw [ht.rest]

/-- A descent takes no block and gives none back. -/
theorem Trims.out_iff {g : Geometry} {p p₁ : NodePool} (ht : Trims g c x r i p p₁) : p₁.Out h ↔ p.Out h := by
  rw [Out, Out, ht.free]
  refine and_congr_left fun _ => ⟨fun ⟨n, hn⟩ => exists_block_of_size ht.size hn, fun ⟨n, hn⟩ => ?_⟩
  exact exists_block_of_size ht.size.symm hn

theorem Repaid.out_iff {p₁ : NodePool} (hr : Repaid p₁ p) : p.Out h ↔ p₁.Out h :=
  ⟨fun ⟨⟨n, hn⟩, hf⟩ => hr.old h n hn hf, fun ⟨⟨n, hn⟩, hf⟩ => (hr.kept h n hn hf).imp_left fun hn => ⟨n, hn⟩⟩

/-- A pool hands out the same handles after a descent and after blocks came back. -/
theorem Trims.rivals {g : Geometry} {p p₁ q : NodePool} (ht : Trims g c x r i p p₁) (hr : Repaid p₁ q)
    (hout : q.out = p.out) : Rivals p q where
  out := hout
  limit := hr.limit.trans (by rw [ht.rest])
  supply i := by rw [hr.supply, supply_congr ht.free ht.size]

/-- A pool that has no block to hand out never has one, as long as none comes back. -/
theorem runs_allocations_of_error {p : NodePool} {e : Error} (h : Runs Pool.allocate p (.error e) p) (n : Nat) :
    ∃ answers, Runs (Pool.allocations n) p answers p := by
  induction n with
  | zero => exact ⟨[], Runs.pure _ _⟩
  | succ n ih =>
    obtain ⟨answers, hrest⟩ := ih
    exact ⟨_, Runs.bind h (Runs.bind hrest (Runs.pure _ _))⟩

end Rooted

section Trees
variable {w : Width} {t t' : Tree w} {c c' : Rows} {r : Handle} {k : Key w} {row : Row} {p p₁ : NodePool}

theorem Rooted.refused (hr : Rooted t c r) (hw : Whole t row) (hw' : Whole ({ t with pool := p } : Tree w) row)
    (ht : Trims t.geometry c k.val r (t.height - 1) t.pool p₁) (hrepaid : Repaid p₁ p)
    (hl : Loosened t c r t.height (fun _ => False) p c') : t.Refused { t with pool := p } k.toWords where
  tree := rfl
  out h := hrepaid.out_iff.trans ht.out_iff
  nodes := by
    have hlow := hr.lowers k.isLt ht
    have hout : ∀ {h n}, t.pool.Out h → p₁.block h = .ok n → p.block h = .ok n := fun hh hn =>
      (hrepaid.kept _ _ hn (ht.free ▸ hh.2)).1
    refine ⟨fun h i n hh hover hn => ?_, fun h hh hover => ?_⟩
    · obtain ⟨n', hwrite, hn'⟩ := hlow.lowered h i n trivial hover hn
      exact ⟨n', hwrite, hout hh hn'⟩
    · obtain ⟨n, hn⟩ := hh.1
      exact (hout hh ((hlow.kept h trivial hover).trans hn)).trans hn.symm
  outstanding := by
    rw [hw.ledger.outstanding_eq]
    exact hw'.ledger.outstanding_eq.trans (congrArg _ hl.edits.out)
  counts := by
    obtain ⟨n, ha, hre⟩ := hrepaid.counts
    rw [ht.rest] at ha hre
    exact ⟨n, ha, hre⟩
  allocations n := by
    obtain ⟨answers, q, q', hrun, hrun'⟩ := (ht.rivals hrepaid hl.edits.out).allocations hr.stand.stock hl.stand.stock
      (hr.fits hw.fits) n
    exact ⟨answers, ⟨q, hrun⟩, q', hrun'⟩
  reads := hw.readAlike hw'

theorem Bare.not_path (hb : Bare t) {key : Words} {d : Nat} {h : Handle} : ¬t.Path key d h := fun hp => by
  induction hp with
  | root hroot =>
    rw [hb.root] at hroot
    cases hroot
  | down _ _ _ _ ih => exact ih

theorem Bare.lowers (hb : Bare t) (key : Words) (P : Handle → Prop) : t.Lowers t key P :=
  ⟨fun _ _ _ _ ⟨_, _, _, hp, _⟩ => absurd hp hb.not_path, fun _ _ _ => rfl⟩

/-- Where there is no root there is no path. -/
theorem Bare.refused (hb : Bare t) (hw : Whole t row) (key : Words)
    (hall : ∀ n, ∃ answers q, Runs (Pool.allocations n) t.pool answers q) : t.Refused t key where
  tree := rfl
  out _ := Iff.rfl
  nodes := hb.lowers key _
  outstanding := rfl
  counts := ⟨0, rfl, rfl⟩
  allocations n := by
    obtain ⟨answers, q, hrun⟩ := hall n
    exact ⟨answers, ⟨q, hrun⟩, q, hrun⟩
  reads := hw.readAlike hw

/-- How an insertion ended. -/
theorem Ends.insert {v : Value} {e : Error} (h : Ends (Tree.insert k v) t (.error e) t') :
    Ends (Tree.addAt (t.height + 1) k.toWords v.val 1) t (.error e) t' := by
  have he₁ := h.bind_get
  obtain ⟨result, t₁, hadd, he₂⟩ := he₁.bind
  have he₃ := he₂.bind_get
  obtain ⟨_, _, htell, he₄⟩ := he₃.bind
  obtain rfl := htell.tellTimer
  cases result with
  | ok =>
    obtain ⟨_, _, -, he₅⟩ := he₄.bind
    cases he₅.pure.1
  | error =>
    obtain ⟨heq, rfl⟩ := he₄.pure
    cases heq
    exact hadd

namespace Whole
variable {v : Value}

/-- An insertion that finds its key changes nothing. -/
theorem taken (hw : Whole t row) (h : Ends (Tree.insert k v) t (.error .duplicateKey) t') : t' = t := by
  have he := h.insert
  rcases hw.state with ⟨hb, -⟩ | ⟨c, r, hr, -⟩
  · by_cases hf : 8 * t.geometry.slotWords ≤ addressable
    · rcases hb.addAt hw.pairs hf k.isLt v.property with ⟨inUse, hrun, -⟩ | ⟨_, _, _, hrun, -⟩
      · cases (hrun.of_ends he).1
      · cases (hrun.of_ends he).1
    · rcases hb.addAt_large (k := k.val) (v := v.val) hf (hw.fits.resolve_left hf) with ⟨hrun, -⟩ | hfault
      · cases (hrun.of_ends he).1
      · exact absurd he hfault.not_ends
  · obtain ⟨d, hd⟩ := hr.exists_height
    rcases hr.addAt hd hw.pairs (hr.fits hw.fits) k.isLt v.property with
      ⟨-, hrun⟩ | ⟨-, ⟨_, _, _, hrun, -⟩ | ⟨_, _, _, _, hrun, -⟩⟩
    · exact (hrun.of_ends he).2
    · cases (hrun.of_ends he).1
    · cases (hrun.of_ends he).1

/-- An insertion that finds no block gives back what it got. -/
theorem refused {n : Nat} (hw : Whole t row) (h : Ends (Tree.insert k v) t (.error (.outOfMemory n)) t') :
    t.Refused t' k.toWords := by
  have he := h.insert
  rcases hw.state with ⟨hb, -⟩ | ⟨c, r, hr, hperm⟩
  · by_cases hf : 8 * t.geometry.slotWords ≤ addressable
    · rcases hb.addAt hw.pairs hf k.isLt v.property with ⟨inUse, hrun, -⟩ | ⟨_, _, _, hrun, -⟩
      · obtain ⟨-, rfl⟩ := hrun.of_ends he
        refine hb.refused hw _ fun m => ?_
        obtain ⟨answers, q, -, hrun, -⟩ :=
          (⟨rfl, rfl, fun _ => rfl⟩ : Rivals t'.pool t'.pool).allocations hb.stock hb.stock hf m
        exact ⟨answers, q, hrun⟩
      · cases (hrun.of_ends he).1
    · rcases hb.addAt_large (k := k.val) (v := v.val) hf (hw.fits.resolve_left hf) with ⟨hrun, hlimit⟩ | hfault
      · obtain ⟨-, rfl⟩ := hrun.of_ends he
        refine hb.refused hw _ fun m => ?_
        obtain ⟨answers, hrun⟩ := runs_allocations_of_error
          ((Allocates.exhausted (by rw [atLimit, hlimit]; rfl)).runs hw.ledger.outstanding_eq) m
        exact ⟨answers, _, hrun⟩
      · exact absurd he hfault.not_ends
  · obtain ⟨d, hd⟩ := hr.exists_height
    have hst : Stand t c r (d + 1) fun _ => False := hd ▸ hr.stand
    have hd' : t.height - 1 = d := by omega
    have hf := hr.fits hw.fits
    rcases hr.addAt hd hw.pairs hf k.isLt v.property with ⟨-, hrun⟩ |
      ⟨-, ⟨inUse, p, c', hrun, hl, -, h, p₁, hdown, hrepaid⟩ | ⟨_, _, _, _, hrun, -⟩⟩
    · cases (hrun.of_ends he).1
    · obtain ⟨-, rfl⟩ := hrun.of_ends he
      obtain ⟨hr', hpairs⟩ := hl.rooted hr
      have hw' : Whole ({ t with pool := p } : Tree w) row := hr'.whole hw.pairs hf hw.len (by
        show row.Perm (c'.pairs r (t.height - 1))
        rwa [hpairs])
      exact hr.refused hw hw' (hd' ▸ hst.trims (show 1 + d = t.height by omega) k.isLt hdown) hrepaid hl
    · cases (hrun.of_ends he).1

/-- A removal that finds no key only lowers separators. -/
theorem missed (hw : Whole t row) (h : Ends (Tree.remove k) t none t') : t.Missed t' k.toWords := by
  rcases hw.remove k with ⟨hnew, t₁, hrun, hw₁⟩ | ⟨_, -, _, _, hrun, -⟩
  · obtain ⟨-, rfl⟩ := hrun.of_ends h
    rcases hw.state with ⟨hb, -⟩ | ⟨c, r, hr, hperm⟩
    · have hnone : Runs (Tree.remove k) t none t :=
        Runs.bind (Runs.get _) (Runs.of_pos (by rw [hb.root]; rfl) (Runs.pure _ _))
      obtain ⟨-, rfl⟩ := hrun.unique hnone
      exact ⟨rfl, rfl, hb.lowers _ _, hw.readAlike hw⟩
    · obtain ⟨d, hd⟩ := hr.exists_height
      have hst : Stand t c r (d + 1) fun _ => False := hd ▸ hr.stand
      have hd' : t.height - 1 = d := by omega
      obtain ⟨_, p, c', hrun', hdown, -⟩ := hr.remove_none fun e he => hnew e (hperm.mem_iff.mpr he)
      obtain ⟨-, rfl⟩ := hrun.unique hrun'
      have ht := hst.trims (show 1 + d = t.height by omega) k.isLt hdown
      refine ⟨?_, ht.size, hr.lowers k.isLt (hd' ▸ ht), hw.readAlike hw₁⟩
      change ({ t with pool := p } : Tree w) = { t with pool := { t.pool with blocks := p.blocks } }
      rw [← ht.rest]
  · cases (hrun.of_ends h).1

end Whole

/-- Operations on a reachable tree that fail are atomic: an insertion whose key is present leaves the tree as it is,
and an insertion for which there is no block and a removal whose key is absent lower separators on the path of the
key, and leave no other trace in what the tree holds, hands out or answers. -/
theorem Tree.Reachable.fails_softly (ht : t.Reachable) (k : Key w) : t.FailsSoftly k := by
  obtain ⟨row, hw⟩ := ht.whole
  exact ⟨fun _ _ => hw.taken, fun _ _ _ => hw.refused, fun _ => hw.missed⟩

end Trees

/-- In the cramped tree the key 10 gets a block for the sibling of its leaf and none for that of the root. The root's
last separator is lowered from 30 to 10, by the insertion as by a removal. -/
theorem fails_softly_in_cramped : Tree.cramped.Reachable ∧
    (∃ v t', Ends (Tree.insert 30 v) Tree.cramped (.error .duplicateKey) t' ∧ t' = Tree.cramped) ∧
    (∃ v t', Ends (Tree.insert 10 v) Tree.cramped (.error (.outOfMemory 4)) t' ∧ t'.pool.allocated = 4 ∧
      Tree.cramped.Refused t' (Key.toWords (10 : Key .bits64))) ∧
    (∃ t', Ends (Tree.remove 10) Tree.cramped none t' ∧ Tree.cramped.Missed t' (Key.toWords (10 : Key .bits64))) ∧
    Tree.cramped.pool.allocated = 3 := by
  have hsoft := Tree.cramped_reachable.fails_softly
  have htaken : Ends (Tree.insert 30 ⟨1, by decide⟩) Tree.cramped (.error .duplicateKey) _ :=
    Ends.after (by decide +kernel)
  have hrefused : Ends (Tree.insert 10 ⟨1, by decide⟩) Tree.cramped (.error (.outOfMemory 4)) _ :=
    Ends.after (by decide +kernel)
  have hmissed : Ends (Tree.remove 10) Tree.cramped none _ := Ends.after (by decide +kernel)
  exact ⟨Tree.cramped_reachable, ⟨_, _, htaken, (hsoft 30).taken _ _ htaken⟩,
    ⟨_, _, hrefused, by decide +kernel, (hsoft 10).refused _ _ _ hrefused⟩, ⟨_, hmissed, (hsoft 10).missed _ hmissed⟩,
    by decide +kernel⟩

end MemoTree
