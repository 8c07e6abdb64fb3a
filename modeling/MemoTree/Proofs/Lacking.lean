import MemoTree.Proofs.Taking
import MemoTree.Tree.Remove

/-! # Nodes left short

A pair is about to be taken out of the node where its key lands (`Taking`); once it is gone the node may be short
(`Lacking`). A level that is not short is settled. A root that is short goes: without pairs nothing is left, and the
only child of an internal root becomes the root. -/

namespace MemoTree
open Pool NodePool Rows

/-- A pair `e` is about to be taken out of the node `h`, where a change for `k` lands. The memos are coherent with
the rows without it. -/
structure Taking {w : Width} (t : Tree w) (c : Rows) (r : Handle) (d : Nat) (rest : Handle → Prop)
    (h : Handle) (k : Nat) (A : Row) (e : Pair) (B : Row) (late : List Handle) : Prop where
  stand : Stand t c r (d + 1) rest
  small : k < 2 ^ w.bits
  land : c.land k r d = some h
  row : c h = A ++ e :: B
  above : ∀ a ∈ A, k < a.1
  le : e.1 ≤ k
  coherent : Coherent w t.pool (Function.update c h (A ++ B)) late

/-- A pair was taken out of the node `h`, `d` levels below the root, and the node may have become too short. -/
structure Lacking {w : Width} (t : Tree w) (c : Rows) (r : Handle) (d : Nat) (rest : Handle → Prop) (h : Handle)
    (late : List Handle) : Prop where
  upper : Stand t c r d fun i => rest i ∨ i ∈ c.level r d
  below : d < t.height
  sound : Sound (2 ^ w.bits) c r d
  node : h ∈ c.level r d
  full : ∀ i ∈ c.level r d, i ≠ h → c i ≠ []
  inner : d + 1 < t.height → ∀ i ∈ c.level r d, ∀ e ∈ c i, ∃ k, Pair.child e = some k
  quiet : d + 1 = t.height → ∀ i ∈ c.level r d, t.pool.Quiet i
  apart : ∀ i, rest i → i ∉ c.level r d
  coherent : Coherent w t.pool c late

section Short
variable {w : Width} {t : Tree w} {c : Rows} {r h : Handle} {d k : Nat} {rest : Handle → Prop} {late : List Handle}
  {A B : Row} {e : Pair} {asked : Rule → Prop} {done : Remains → Prop}

/-- A node on the path of a lookup has a pair for the key. -/
theorem scan_of_route {i j : Nat} {q : Handle} (hr : c.route k r i = some h) (hj : j < i) (hq : c.land k r j = some q) :
    ∃ e, (c q).scan k = some e := by
  induction i generalizing h with
  | zero => exact absurd hj (Nat.not_lt_zero j)
  | succ i ih =>
    obtain ⟨s, hs, hl⟩ := Option.bind_eq_some_iff.mp hr
    rcases Nat.lt_or_eq_of_le (Nat.le_of_lt_succ hj) with hlt | rfl
    · exact ih hs hlt
    · rw [land_of_route hs, Option.some.injEq] at hq
      subst hq
      obtain ⟨e, he, -⟩ := look_eq_some.mp hl
      exact ⟨e, he⟩

/-- Lowering a path that a lookup takes changes nothing. -/
theorem lowerPath_of_route {i : Nat} (hr : c.route k r i = some h) : c.lowerPath k r i = c := by
  funext q
  by_cases hon : ∃ j < i, c.land k r j = some q
  · obtain ⟨j, hj, hq⟩ := hon
    obtain ⟨e, he⟩ := scan_of_route hr hj hq
    rw [lowerPath_on hj hq, Row.lowered_of_scan he]
  · exact lowerPath_off fun j hj hq => hon ⟨j, hj, hq⟩

theorem Lacking.live (hl : Lacking t c r d rest h late) {i : Handle} (hi : i ∈ c.level r d) : t.pool.Live i :=
  (hl.upper.live i).mpr (Or.inr (Or.inr hi))

/-- A level that is not short is settled. -/
theorem Lacking.settled (hl : Lacking t c r d rest h late) (hne : c h ≠ [])
    (hkept : ∀ {rule : Rule}, rule.Shrinks t.pairs → asked rule → Kept rule t.height c r (d + 1)) :
    Taken t c r d rest late asked t c r (d + 1) where
  alike := Alike.refl t
  stand := Stand.extend hl.upper hl.below (hl.sound.nodup_level (Nat.le_refl d)) hl.apart (fun i hi => by
    refine ⟨hl.sound.descending_level (Nat.le_refl d) hi, ?_, fun e he =>
      ⟨hl.sound.small_level (Nat.le_refl d) hi he, hl.sound.routed d (Nat.le_refl d) i hi e he⟩⟩
    by_cases hih : i = h
    · rwa [hih]
    · exact hl.full i hi hih) hl.inner hl.quiet
  height := rfl
  some_level h0 := absurd h0 (Nat.succ_ne_zero d)
  fades := Fades.refl _
  coherent := hl.coherent
  rest _ _ := rfl
  level := List.Perm.refl _
  route _ _ hr := hr
  pairs d' hd' := by
    obtain rfl : d = d' := by omega
    exact List.Perm.refl _
  kept := hkept

/-- Nothing is to be mended where a node stays. -/
theorem Lacking.stays (hl : Lacking t c r d rest h late) (hne : c h ≠ [])
    (hkept : ∀ {rule : Rule}, rule.Shrinks t.pairs → asked rule → Kept rule t.height c r (d + 1))
    (hdone : done (.still c (t.height - d) (c.trail k r d))) : Left t c r d rest late asked done t := by
  have hheight : t.height - d + (d + 1) - 1 = t.height := by
    have := hl.below
    omega
  rw [Remains.still, getLast?_trail, hl.sound.length_trail (Nat.le_refl d), hheight, ← hl.upper.root] at hdone
  exact Or.inl ⟨c, r, d + 1, hl.settled hne hkept, [], [], hdone, Loses.none fun _ => Iff.rfl⟩

namespace Taking

theorem node (ht : Taking t c r d rest h k A e B late) : h ∈ c.level r d := mem_level_of_land ht.land

theorem descending (ht : Taking t c r d rest h k A e B late) : (A ++ e :: B).Descending :=
  ht.row ▸ (ht.stand.sound d rfl).descending_level (Nat.le_refl d) ht.node

theorem not_above (ht : Taking t c r d rest h k A e B late) : ∀ b ∈ e :: B, b.1 ≤ k := fun b hb => by
  have hle := ht.le
  rcases List.mem_cons.mp hb with rfl | hb
  · exact hle
  · have := (List.pairwise_cons.mp ht.descending.of_append.2.1).1 b hb
    omega

/-- A lookup of the key comes to the node too. -/
theorem route (ht : Taking t c r d rest h k A e B late) : c.route k r d = some h := by
  have hsound := ht.stand.sound d rfl
  have hroute := hsound.routed d (Nat.le_refl d) h ht.node e (by rw [ht.row]; simp)
  exact hsound.route_mono (Nat.le_refl d) hroute ht.land ht.le

/-- The path of the key is lowered already. -/
theorem lowerPath (ht : Taking t c r d rest h k A e B late) : c.lowerPath k r d = c := lowerPath_of_route ht.route

/-- Once the pair is gone its node may be short. -/
theorem lacking (ht : Taking t c r d rest h k A e B late) {p : NodePool}
    (hs : Stock t.geometry p (Function.update c h (A ++ B))) (hedits : Edits t.pool p) :
    Lacking ({ t with pool := p } : Tree w) (Function.update c h (A ++ B)) r d rest h late := by
  have hsound := ht.stand.sound d rfl
  have hoff := hsound.update_off ht.node (A ++ B)
  have hlevel : Rows.level (Function.update c h (A ++ B)) r d = c.level r d := level_congr hoff
  have hcrown : ∀ i ∈ c.level r d, i ∈ c.crown r (d + 1) := fun i hi => mem_crown.mpr ⟨d, Nat.lt_succ_self d, hi⟩
  have hsub : (A ++ B).Sublist (c h) := by
    rw [ht.row]
    exact List.Sublist.append_left (List.sublist_cons_self e B) A
  have hupper := ht.stand.truncate
  refine ⟨hupper.congr hs hedits.fades (fun i hi => ?_) (fun i => ?_) (fun i hi => ?_), ht.stand.height,
    hsound.update_keys ht.node (hsub.map Prod.fst), by
    rw [hlevel]; exact ht.node, fun i hi hih => ?_, fun hm i hi a ha => ?_,
    fun hm i hi => ?_, fun i hi => ?_, ht.coherent.mono hedits.fades fun _ _ _ _ h => h⟩
  · obtain ⟨j, hj, hij⟩ := mem_crown.mp hi
    exact hoff j hj i hij
  · rw [hlevel]
    exact (hedits.live i).trans (hupper.live i)
  · rw [hlevel] at hi
    exact hupper.apart i hi
  · rw [hlevel] at hi
    rw [Function.update_of_ne hih]
    exact ht.stand.full i (hcrown i hi)
  · rw [hlevel] at hi
    by_cases hih : i = h
    · rw [hih, Function.update_self] at ha
      exact ht.stand.inner hm h (hcrown h ht.node) a (hsub.subset ha)
    · rw [Function.update_of_ne hih] at ha
      exact ht.stand.inner hm i (hcrown i hi) a ha
  · rw [hlevel] at hi
    exact hedits.fades.quiet (ht.stand.quiet d rfl hm i hi)
  · rw [hlevel]
    exact fun hil => ht.stand.apart i hi (hcrown i hil)

theorem takePair (ht : Taking t c r d rest h k A e B late) {level : Nat} (hlevel : level + d = t.height)
    (hexact : level = 1 → e.1 = k) :
    ∃ p, Runs (Tree.takePair (Words.ofNat w.words k) level) t (some (h, e.2, (A ++ B).length)) { t with pool := p } ∧
      Edits t.pool p ∧ Lacking ({ t with pool := p } : Tree w) (Function.update c h (A ++ B)) r d rest h late := by
  obtain ⟨h', p₀, hland, hrun, hs, hedits⟩ := ht.stand.nodeAt hlevel ht.small
  rw [ht.land, Option.some.injEq] at hland
  subst hland
  rw [ht.lowerPath] at hs
  obtain ⟨n, hn, hpacks⟩ := hs.node ((hedits.live h).mpr (ht.stand.live_of_level (Nat.lt_succ_self d) ht.node))
  rw [ht.row] at hpacks
  have hkl : k < 2 ^ (64 * t.geometry.keyLength) := Nat.lt_of_lt_of_le ht.small (Key.pow_bits_le w)
  obtain ⟨habove, hup⟩ := Row.above_eq ht.above ht.not_above
  have hpos := hpacks.position_eq hkl
  rw [habove] at hpos
  have hfill : n.fillFrom t.geometry A.length = .ok (A ++ e :: B).length := hpacks.fillFrom_eq (by simp)
  have hvalue : n.value t.geometry A.length = .ok e.2 := hpacks.value_eq (by simp)
  obtain ⟨words, herase, hpacks'⟩ := hpacks.erasePair
  have hedits' := hedits.trans (Edits.of_words hn words)
  refine ⟨p₀.put h { n with words := words }, ?_, hedits', ht.lacking (hs.write hn hpacks') hedits'⟩
  have hlen : (A ++ e :: B).length - 1 = (A ++ B).length := by simp
  have htail : Runs (do
      let value ← liftM (n.value t.geometry A.length)
      Pool.write h (← liftM (n.erasePair t.geometry A.length (A ++ e :: B).length))
      return some (h, value, (A ++ e :: B).length - 1) : NodeM (Option (Handle × Word × Nat))) p₀
      (some (h, e.2, (A ++ B).length)) (p₀.put h { n with words := words }) :=
    Runs.bind (Runs.lift hvalue _) (Runs.bind (Runs.lift herase _) (Runs.bind (Runs.write _ _ _)
      (hlen ▸ Runs.pure _ _)))
  refine Runs.bind hrun (Runs.bind (Runs.get _) (Runs.onNodes (Runs.bind (Runs.read hn)
    (Runs.bind (Runs.lift hpos _) (Runs.bind (Runs.lift hfill _) ?_)))))
  -- in a leaf the key itself is asked for; above, the separator that it comes by
  by_cases h1 : level = 1
  · have hholds := holdsAt_scan hpacks hkl
    rw [habove, Row.scan_split_eq ht.above ht.le, Option.any_some, decide_eq_true (hexact h1)] at hholds
    exact Runs.of_pos h1 (Runs.bind (Runs.lift hholds _) (Runs.of_neg (by simp) htail))
  · exact Runs.of_neg h1 (Runs.bind (Runs.pure _ _) (Runs.of_neg (by simp) htail))

end Taking

/-! ### The root -/

theorem dropRoot_spec (hl : Lacking t c r 0 rest h late) (hempty : c h = []) (hdone : done ⟨c, none, 0, [r], []⟩) :
    ∃ t', Runs Tree.dropRoot t () t' ∧ Left t c r 0 rest late asked done t' := by
  have hr : h = r := List.mem_singleton.mp hl.node
  have hlive : t.pool.Live r := hl.live (List.mem_singleton_self r)
  obtain ⟨p, back, hrun, hledger, hsheds⟩ := unlink_spec hl.upper.stock.ledger hlive
  have hfades := Fades.of_sheds hsheds
  refine ⟨{ t with pool := p, root := none, height := 0 }, ?_, Or.inr ⟨c, ⟨⟨rfl, rfl, rfl, rfl⟩, rfl, rfl,
    hl.upper.stock.sheds hledger hsheds, fun i => ?_, hfades, hl.coherent.mono hfades fun _ _ _ _ h => h,
    fun _ _ => rfl, ?_⟩, [r], [], hdone, (Loses.none fun _ => Iff.rfl).unlink hlive hsheds⟩⟩
  · refine Runs.bind (Runs.get _) (Runs.bind (Runs.modify _ _) ?_)
    rw [hl.upper.root]
    exact Runs.bind (Runs.onNodes hrun) (Runs.bind (Runs.modify _ _) (Runs.report _ _))
  · rw [hsheds.live, hl.upper.live]
    constructor
    · rintro ⟨hi | hi | hi, hne⟩
      · cases hi
      · exact hi
      · exact absurd (List.mem_singleton.mp hi) (hne rfl)
    · refine fun hi => ⟨Or.inr (Or.inl hi), fun _ hir => hl.apart i hi (hir ▸ List.mem_singleton_self i)⟩
  · rw [pairs_zero, ← hr, hempty]

/-- The only child of an internal root becomes the root. -/
theorem dropLevel_spec (hl : Lacking t c r 0 rest h late) (hone : (c h).length = 1) (hhigh : 1 < t.height)
    (hdone : ∀ {e k}, c r = [e] → Pair.child e = some k → done ⟨c, some k, t.height - 1, [r], []⟩) :
    ∃ t', Runs Tree.dropLevel t () t' ∧ Left t c r 0 rest late (Slack · t.height rest c r 0 h) done t' := by
  have hr : h = r := List.mem_singleton.mp hl.node
  rw [hr] at hone
  have hlive : t.pool.Live r := hl.live (List.mem_singleton_self r)
  obtain ⟨e, hrow⟩ := List.length_eq_one_iff.mp hone
  obtain ⟨k, hk⟩ := hl.inner hhigh r (List.mem_singleton_self r) e (by rw [hrow]; exact List.mem_singleton_self e)
  have hkids : c.kids r = [k] := by rw [kids, hrow, List.filterMap_cons_some hk]; rfl
  obtain ⟨n, hn, hpacks⟩ := hl.upper.stock.node hlive
  have hchild : n.child t.geometry 0 = .ok (some k) := by
    rw [hpacks.child_eq (by rw [hrow]; rfl)]
    exact congrArg _ hk
  obtain ⟨p, back, hrun, hledger, hsheds⟩ := unlink_spec hl.upper.stock.ledger hlive
  have hfades := Fades.of_sheds hsheds
  -- the old root goes and nothing is above the new one: what is left is what was put aside
  have hlive' : ∀ i, p.Live i ↔ i ∈ c.crown k 0 ∨ rest i := fun i => by
    rw [hsheds.live, hl.upper.live]
    constructor
    · rintro ⟨hi | hi | hi, hne⟩
      · cases hi
      · exact Or.inr hi
      · exact absurd (List.mem_singleton.mp hi) (hne rfl)
    · rintro (hi | hi)
      · cases hi
      · exact ⟨Or.inr (Or.inl hi), fun _ hir => hl.apart i hi (hir ▸ List.mem_singleton_self i)⟩
  have hroot := hl.upper.root
  refine ⟨{ t with pool := p, root := some k, height := t.height - 1 }, ?_, Or.inl ⟨c, k, 0, ⟨⟨rfl, rfl, rfl, rfl⟩,
    ⟨rfl, Nat.zero_le _, hl.upper.stock.sheds hledger hsheds, fun d hd => absurd hd (by omega), hlive',
      fun _ _ => List.not_mem_nil, fun _ hi => absurd hi List.not_mem_nil, fun _ _ hi => absurd hi List.not_mem_nil,
      fun d hd => absurd hd (by omega)⟩, ?_, fun _ => hhigh, hfades, hl.coherent.mono hfades fun _ _ _ _ h => h,
    fun _ _ => rfl, ?_, fun x i hi => ?_, fun d hd => absurd hd (by omega), fun _ hs =>
      ⟨fun n hn _ j hj => absurd hj (by omega), fun _ => hs.single hhigh k (hr ▸ hkids)⟩⟩, [r], [], hdone hrow hk,
    (Loses.none fun _ => Iff.rfl).unlink hlive hsheds⟩⟩
  · refine Runs.bind (Runs.get _) ?_
    rw [hroot]
    exact Runs.bind (Runs.get _) (Runs.bind (Runs.onNodes (Runs.bind (Runs.read hn) (Runs.lift hchild _)))
      (Runs.bind (Runs.modify _ _) (Runs.bind (Runs.onNodes hrun) (Runs.bind (Runs.get _) (Runs.report _ _)))))
  · change t.height - 1 + (0 + 1) = t.height + 0
    omega
  · rw [level, level, level, List.flatMap_singleton, hkids]
  · have := mem_level_of_route hi
    rw [level, level, List.flatMap_singleton, hkids, List.mem_singleton] at this
    rw [this]
    rfl

end Short
end MemoTree
