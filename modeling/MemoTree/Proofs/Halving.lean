import MemoTree.Proofs.Linking

/-! # Halving full nodes

The row of a full node is cut in two. Once the separator of the new node is linked, the pairs with the larger keys are
moved to it: the level has the pairs it had, and changes land in front of the pairs where they landed (`Parts`). -/

namespace MemoTree
open Pool NodePool Rows

/-! ### Cut rows -/

/-- The row is cut behind the pair with the key `k`. -/
structure Cut (row A B : Row) (k : Nat) : Prop where
  row : row = A ++ B
  key : ∃ a ∈ A, a.1 = k
  le : ∀ a ∈ A, k ≤ a.1
  lt : ∀ b ∈ B, b.1 < k
  rest : B ≠ []

namespace Cut
variable {row A B : Row} {e : Pair} {k : Nat}

theorem left (h : Cut row A B k) (he : e ∈ A) : e ∈ row := by
  rw [h.row]
  exact List.mem_append_left B he

theorem right (h : Cut row A B k) (he : e ∈ B) : e ∈ row := by
  rw [h.row]
  exact List.mem_append_right A he

theorem ne_nil (h : Cut row A B k) : A ≠ [] := by
  obtain ⟨a, ha, -⟩ := h.key
  exact List.ne_nil_of_mem ha

/-- The two parts lead changes where the row led them. -/
theorem aim (h : Cut row A B k) (x : Nat) : row.aim x = if k ≤ x then A.aim x else B.aim x := by
  rw [h.row]
  by_cases hx : k ≤ x
  · rw [if_pos hx]
    obtain ⟨a, ha, hak⟩ := h.key
    cases hs : A.scan x with
    | some e => rw [Row.aim_append_left hs, Row.aim_of_scan hs]
    | none => exact absurd (Row.scan_eq_none.mp hs a ha) (by omega)
  · rw [if_neg hx]
    exact Row.aim_append_right (Row.scan_eq_none.mpr fun a ha =>
      Nat.lt_of_lt_of_le (Nat.lt_of_not_le hx) (h.le a ha)) h.rest

/-- A descending row can be cut anywhere inside. -/
theorem exists_length (hd : row.Descending) {n : Nat} (hn : 0 < n) (hlt : n < row.length) :
    ∃ A B e, Cut row A B e.1 ∧ A.length = n ∧ row[n - 1]? = some e := by
  have hlt' : n - 1 < row.length := by omega
  have hA : row.take n = row.take (n - 1) ++ [row[n - 1]] := by
    rw [List.take_append_getElem, Nat.sub_add_cancel hn]
  have hsplit : row = (row.take (n - 1) ++ [row[n - 1]]) ++ row.drop n := by rw [← hA, List.take_append_drop]
  have hmem : row[n - 1] ∈ row.take n := by
    rw [hA]
    exact List.mem_append_right _ (List.mem_singleton_self _)
  have hd' := hd
  rw [hsplit, ← hA] at hd'
  obtain ⟨hdA, -, hcross⟩ := hd'.of_append
  refine ⟨row.take n, row.drop n, row[n - 1], ⟨(List.take_append_drop n row).symm, ⟨_, hmem, rfl⟩, fun a ha => ?_,
    fun b hb => hcross _ hmem b hb, fun hnil => ?_⟩, by rw [List.length_take]; omega, List.getElem?_eq_getElem hlt'⟩
  · rw [hA] at hdA ha
    exact le_of_concat hdA ha
  · have := List.drop_eq_nil_iff.mp hnil
    omega

end Cut

/-! ### Parted nodes -/

/-- The pairs of the node `h` of a level were parted. Those that were cut off are in the new node `q`, and what was led
to `h` from the key `k` on is led there. -/
structure Parts (c : Rows) (r : Handle) (d : Nat) (h q : Handle) (k : Nat) (A B : Row) (c' : Rows) (r' : Handle)
    (d' : Nat) : Prop where
  node : h ∈ c.level r d
  new : q ∉ c.level r d
  cut : Cut (c h) A B k
  moved : c' q = A
  kept : c' h = B
  other : ∀ i ∈ c.level r d, i ≠ h → c' i = c i
  level : (c'.level r' d').Perm (q :: c.level r d)
  land : ∀ x, c'.land x r' d' = if c.land x r d = some h ∧ k ≤ x then some q else c.land x r d

namespace Parts
variable {bound : Nat} {c c' : Rows} {r r' h q i : Handle} {d d' k x : Nat} {A B : Row} {e : Pair}

theorem mem (hp : Parts c r d h q k A B c' r' d') : i ∈ c'.level r' d' ↔ i = q ∨ i ∈ c.level r d := by
  rw [hp.level.mem_iff, List.mem_cons]

theorem cases (hp : Parts c r d h q k A B c' r' d') (hi : i ∈ c'.level r' d') :
    i = q ∨ i = h ∨ i ∈ c.level r d ∧ i ≠ h ∧ i ≠ q := by
  rcases hp.mem.mp hi with rfl | hi
  · exact Or.inl rfl
  · by_cases hih : i = h
    · exact Or.inr (Or.inl hih)
    · exact Or.inr (Or.inr ⟨hi, hih, fun hiq => hp.new (hiq ▸ hi)⟩)

/-- No row has pairs that were not in one row before. -/
theorem sublist (hp : Parts c r d h q k A B c' r' d') (hi : i ∈ c'.level r' d') :
    ∃ j ∈ c.level r d, (c' i).Sublist (c j) := by
  rcases hp.cases hi with rfl | rfl | ⟨hil, hih, -⟩
  · rw [hp.moved]
    exact ⟨h, hp.node, hp.cut.row ▸ List.sublist_append_left A B⟩
  · rw [hp.kept]
    exact ⟨i, hp.node, hp.cut.row ▸ List.sublist_append_right A B⟩
  · exact ⟨i, hil, by rw [hp.other i hil hih]⟩

theorem ne_nil (hp : Parts c r d h q k A B c' r' d') (hfull : ∀ i ∈ c.level r d, c i ≠ []) (hi : i ∈ c'.level r' d') :
    c' i ≠ [] := by
  rcases hp.cases hi with rfl | rfl | ⟨hil, hih, -⟩
  · rw [hp.moved]
    exact hp.cut.ne_nil
  · rw [hp.kept]
    exact hp.cut.rest
  · rw [hp.other i hil hih]
    exact hfull i hil

theorem old (hp : Parts c r d h q k A B c' r' d') (hi : i ∈ c'.level r' d') (hiq : i ≠ q) (he : e ∈ c' i) :
    e ∈ c i := by
  rcases hp.cases hi with rfl | rfl | ⟨hil, hih, -⟩
  · exact absurd rfl hiq
  · rw [hp.kept] at he
    exact hp.cut.right he
  · rwa [hp.other i hil hih] at he

/-- A change for the key of a pair lands in the node that holds it. -/
theorem land_of_mem (hp : Parts c r d h q k A B c' r' d') (hs : Sound bound c r d) (hi : i ∈ c'.level r' d')
    (he : e ∈ c' i) : c'.land e.1 r' d' = some i := by
  have hroute : ∀ j ∈ c.level r d, e ∈ c j → c.land e.1 r d = some j := fun j hj hej =>
    land_of_route (hs.routed d (Nat.le_refl d) j hj e hej)
  rw [hp.land]
  rcases hp.cases hi with rfl | rfl | ⟨hil, hih, -⟩
  · rw [hp.moved] at he
    exact if_pos ⟨hroute h hp.node (hp.cut.left he), hp.cut.le e he⟩
  · rw [hp.kept] at he
    rw [if_neg fun hx => Nat.not_lt.mpr hx.2 (hp.cut.lt e he), hroute i hp.node (hp.cut.right he)]
  · rw [hp.other i hil hih] at he
    rw [hroute i hil he, if_neg fun hx => hih (Option.some.inj hx.1)]

theorem pairs (hp : Parts c r d h q k A B c' r' d') (hs : Sound bound c r d) : (c'.pairs r' d').Perm (c.pairs r d) := by
  obtain ⟨S, T, hpairs, hpairs'⟩ := hs.pairs_update hp.node
  have hflat : (c.level r d).flatMap c' = S ++ B ++ T := by
    rw [← hpairs' B, Rows.pairs, level_congr (hs.update_off hp.node B)]
    refine List.flatMap_congr fun i hi => ?_
    by_cases hih : i = h
    · rw [hih, hp.kept, Function.update_self]
    · rw [Function.update_of_ne hih, hp.other i hi hih]
  rw [hpairs, hp.cut.row]
  refine (hp.level.flatMap_right c').trans ?_
  rw [List.flatMap_cons, hp.moved, hflat, List.append_assoc, List.append_assoc, List.append_assoc]
  exact List.perm_append_comm_assoc A S (B ++ T)

theorem aimed (hp : Parts c r d h q k A B c' r' d') (hs : Sound bound c r d) : c'.aimed x r' d' = c.aimed x r d := by
  obtain ⟨i, hi⟩ := hs.exists_land x (Nat.le_refl d)
  rw [Rows.aimed, Rows.aimed, hp.land, hi, Option.bind_some]
  by_cases hih : i = h
  · rw [hih, hp.cut.aim]
    by_cases hx : k ≤ x
    · rw [if_pos ⟨rfl, hx⟩, if_pos hx, Option.bind_some, hp.moved]
    · rw [if_neg fun h => hx h.2, if_neg hx, Option.bind_some, hp.kept]
  · rw [if_neg fun hx => hih (Option.some.inj hx.1), Option.bind_some, hp.other i (mem_level_of_land hi) hih]

/-- Nodes that changes which land in `h` missed they miss afterwards, since the rows of those nodes are the same: from
such a node a change goes on to such nodes, and it ends in one of the parts. -/
theorem misses (hp : Parts c r d h q k A B c' r' d') (hs : Sound bound c r d) (hs' : Sound bound c' r' d')
    (hq : q ∉ c.under r d) (hx : c.land x r d = some h)
    (hrow : ∀ i < d, ∀ p ∈ c.level r i, c.Misses x r (d + 1) p → c' p = c p) {n : Nat} : ∀ {j i : Nat} {p : Handle},
    j + n = d' → i ≤ d → p ∈ c.level r i → c.Misses x r (d + 1) p → c'.land x r' j ≠ some p := by
  induction n with
  | zero =>
    rintro j i p rfl hi hpi hm hland
    rw [Nat.add_zero] at hp
    rw [hp.land, hx] at hland
    split at hland
    · cases hland
      exact hq (mem_under_of_level hi hpi)
    · exact hm d (Nat.lt_succ_self d) (hx.trans hland)
  -- the induction climbs from the lowest level: a change that came by `p` would go on to a child that was missed too
  | succ n ih =>
    intro j i p hj hi hpi hm hland
    have hpj := mem_level_of_land hland
    rcases Nat.lt_or_eq_of_le hi with hi' | rfl
    · obtain ⟨s, hs₁⟩ := hs'.exists_land x (show j + 1 ≤ d' by omega)
      have hstep := hs₁
      rw [land_succ, hland, Option.bind_some, step, hrow i hi' p hpi hm] at hstep
      have hsi : s ∈ c.level r (i + 1) := mem_level_succ.mpr ⟨p, hpi, mem_kids_of_step hstep⟩
      refine ih (by omega) hi' hsi (fun m hm' hland' => ?_) hs₁
      obtain rfl := level_unique hs.nodup (Nat.lt_succ_iff.mp hm') hi' (mem_level_of_land hland') hsi
      obtain ⟨p', hp', hstep'⟩ := Option.bind_eq_some_iff.mp hland'
      obtain rfl := hs.parent_unique hi' (mem_level_of_land hp') hpi (mem_kids_of_step hstep') (mem_kids_of_step hstep)
      exact hm i (Nat.lt_succ_of_lt hi') hp'
    · have := level_unique hs'.nodup (show j ≤ d' by omega) (Nat.le_refl d') hpj (hp.mem.mpr (Or.inr hpi))
      omega

/-- What landed in the parted node lands in one of its parts. -/
theorem parts (hp : Parts c r d h q k A B c' r' d') (hx : c.land x r d = some h) (hi : c'.land x r' d' = some i) :
    c' i = A ∨ c' i = B := by
  rw [hp.land, hx] at hi
  by_cases hxk : k ≤ x
  · rw [if_pos ⟨rfl, hxk⟩] at hi
    cases hi
    exact Or.inl hp.moved
  · rw [if_neg fun h => hxk h.2] at hi
    cases hi
    exact Or.inr hp.kept

/-- The new node has the first half of the full node's pairs. -/
theorem splits (hp : Parts c r d h q k A B c' r' d') (hs : Sound bound c r d) {pairs : Nat} (hA : A.length = pairs / 2)
    (hfull : (c h).length = pairs) : Splits pairs (c.level r d) h q c.count c'.count where
  nodup := List.nodup_cons.mpr ⟨hp.new, hs.nodup_level (Nat.le_refl d)⟩
  full := hfull
  first := (congrArg List.length hp.moved).trans hA
  second := by
    rw [hp.cut.row, List.length_append, hA] at hfull
    rw [count, hp.kept]
    omega
  other i hi hih := congrArg List.length (hp.other i hi hih)

/-- The children of the full node are parted where its pairs are. -/
theorem abides (hp : Parts c r d h q k A B c' r' d') {pairs : Nat} (hA : A.length = pairs / 2)
    (hfull : (c h).length = pairs) (hinner : ∀ e ∈ c h, ∃ k, Pair.child e = some k) {rule : Rule} {size : Handle → Nat}
    (hg : rule.Grows pairs) (ha : c.Abides rule size r d) : c'.Abides rule size r' d' := by
  have hlength : ∀ row : Row, (∀ e ∈ row, e ∈ c h) → (row.filterMap Pair.child).length = row.length := fun row hrow =>
    List.filterMap_length_eq_length.mpr fun e he => Option.isSome_iff_exists.mpr (hinner e (hrow e he))
  have hkids : c.kids h = A.filterMap Pair.child ++ B.filterMap Pair.child := by
    rw [kids, hp.cut.row, List.filterMap_append]
  have hcut := hg.cut (ha h hp.node) (by rw [List.length_map, kids, hlength _ fun _ he => he, hfull])
  have hhalf : ((A.filterMap Pair.child).map size).length = pairs / 2 := by
    rw [List.length_map, hlength A fun _ he => hp.cut.left he, hA]
  rw [hkids, List.map_append, List.take_left' hhalf, List.drop_left' hhalf] at hcut
  intro i hi
  rcases hp.cases hi with rfl | rfl | ⟨hil, hih, -⟩
  · rw [kids, hp.moved]
    exact hcut.1
  · rw [kids, hp.kept]
    exact hcut.2
  · rw [kids, hp.other i hil hih]
    exact ha i hil

end Parts

/-! ### Moving pairs to a new node -/

/-- The first pairs of a node are moved to an empty one. -/
theorem moveHalf_spec {g : Geometry} {p : NodePool} {c : Rows} {h q : Handle} {A B : Row} (level : Nat)
    (hs : Stock g p c) (hh : p.Live h) (hq : p.Live q) (hne : h ≠ q) (hrow : c h = A ++ B) (hA : A ≠ [])
    (hfull : (A ++ B).length = g.pairs) (hempty : c q = []) (hquiet : ¬1 < level → p.Quiet h) :
    ∃ p', Runs (Tree.moveHalf g h q A.length level) p () p' ∧
      Stock g p' (Function.update (Function.update c q A) h B) ∧ Fades p p' ∧ (∀ i, p'.Live i ↔ p.Live i) ∧
      p'.Quiet h := by
  obtain ⟨n, hn, hpacks⟩ := hs.node hh
  rw [hrow] at hpacks
  obtain ⟨n', hn', hpacks'⟩ := hs.node hq
  rw [hempty] at hpacks'
  obtain ⟨words, hwrite, hpacks'⟩ := hpacks'.writePairs (B := A)
    (by rw [List.length_append] at hfull; simp; omega) (fun e he => hpacks.small (List.mem_append_left B he))
    fun e he => hpacks.used e (List.mem_append_left B he)
  -- the pairs are written to the new node before they are dropped from the old one
  obtain ⟨words', hdrop, hpacks''⟩ := hpacks.dropPairs hA
  rw [hfull] at hdrop
  have hedits := Edits.of_words hn' words
  have hs' := hs.write hn' hpacks'
  have hn₁ : (p.put q { n' with words := words }).block h = .ok n := (block_put_ne hne).trans hn
  have hedits' := Edits.of_words hn₁ words'
  obtain ⟨p', hs'', hf, hlive, hquiet', hrun⟩ := (hs'.write hn₁ hpacks'').invalidate
    (((hedits.trans hedits').live h).mpr hh) level fun hl => (hedits.trans hedits').fades.quiet (hquiet hl)
  refine ⟨p', ?_, hs'', (hedits.trans hedits').fades.trans hf, fun i => (hlive i).trans ((hedits.trans hedits').live i),
    hquiet'⟩
  exact Runs.bind (Runs.read hn) (Runs.bind (Runs.lift hpacks.pairsFrom _) (Runs.bind (Runs.update hn' hwrite)
    (Runs.bind (Runs.lift hdrop _) (Runs.bind (Runs.write _ _ _) (hrun (Runs.report _ _))))))

/-! ### Split layouts -/

/-- What a split leaves: the level has the same pairs, changes go to the same pairs, and there is room in the nodes
where changes land that landed in the full node. -/
structure Halved {w : Width} (t : Tree w) (c : Rows) (r : Handle) (d : Nat) (rest : Handle → Prop) (h : Handle)
    (t' : Tree w) (c' : Rows) (r' : Handle) (d' : Nat) : Prop where
  alike : Alike t t'
  stand : Stand t' c' r' (d' + 1) rest
  height : t'.height + d = t.height + d'
  fades : Fades t.pool t'.pool
  coherent : Coherent w t'.pool c' []
  rest : ∀ h, rest h → c' h = c h
  pairs : (c'.pairs r' d').Perm (c.pairs r d)
  aimed : ∀ x, c'.aimed x r' d' = c.aimed x r d
  room : ∀ x i, c.land x r d = some h → c'.land x r' d' = some i → (c' i).length < t.pairs ∧ ∀ e ∈ c' i, e ∈ c h
  filled : Filled t.pairs c r d c' r' d'
  siblings : ∀ {rule : Rule} {size : Handle → Nat}, rule.Grows t.pairs → d + 1 < t.height → c.Abides rule size r d →
    c'.Abides rule size r' d'
  lives : ∀ i, t.pool.Live i → t'.pool.Live i
  missed : ∀ x, c.land x r d = some h → ∀ i, t.pool.Live i → c.Misses x r (d + 1) i → c' i = c i
  misses : ∀ x, c.land x r d = some h → ∀ i, t.pool.Live i → c.Misses x r (d + 1) i → c'.Misses x r' (d' + 1) i

section Halving
variable {w : Width} {t t₂ : Tree w} {c c₂ c₃ : Rows} {r r₂ h q i : Handle} {d d₂ k : Nat} {rest : Handle → Prop}
  {A B : Row} {p₁ p₃ : NodePool}

/-- What is put aside while the separator of `q` is linked: the level of the node that is split, and `q`. -/
def Aside (c : Rows) (r : Handle) (d : Nat) (rest : Handle → Prop) (q : Handle) (i : Handle) : Prop :=
  (rest i ∨ i ∈ c.level r d) ∨ i = q

/-- A new node is made before its separator is linked. -/
theorem linking (hst : Stand t c r (d + 1) rest) (hc : Coherent w t.pool c []) (hh : h ∈ c.level r d)
    (hfull : (c h).length = t.pairs) (hcut : Cut (c h) A B k) (hhands : Hands t.pool p₁ q)
    (hs : Stock t.geometry p₁ (Function.update c q [])) :
    Linking ({ t with pool := p₁ } : Tree w) (Function.update c q []) r d (Aside c r d rest q) h k := by
  have hfades := Fades.of_hands hhands
  have hoff : ∀ j ≤ d, ∀ i ∈ c.level r j, Function.update c q [] i = c i := fun j hj i hi =>
    hst.update_level hhands.unused [] (Nat.lt_succ_of_le hj) hi
  have hlevel : Rows.level (Function.update c q []) r d = c.level r d := level_congr fun j hj =>
    hoff j (Nat.le_of_lt hj)
  have hrow := hoff d (Nat.le_refl d) h hh
  have htr := hst.truncate
  refine ⟨htr.congr hs hfades (fun i hi => ?_) (fun i => ?_) (fun i hi hmem => ?_), ?_, hst.height, ?_, hlevel ▸ hh,
    fun i hi => Or.inl (Or.inr (hlevel ▸ hi)), (congrArg List.length hrow).trans hfull, ?_, ?_⟩
  · obtain ⟨j, hj, hij⟩ := mem_crown.mp hi
    exact hoff j (Nat.le_of_lt hj) i hij
  · -- the level of the node that is split leaves the crown: linking does not look at it
    rw [hhands.live, htr.live, Aside, or_assoc]
  · rcases hi with hi | rfl
    · exact htr.apart i hi hmem
    · exact hhands.unused ((htr.live i).mpr (Or.inl hmem))
  · refine hc.mono hfades fun i hi x j hj => ?_
    rwa [look, Function.update_of_ne]
    rintro rfl
    exact hi (quiet_of_hands hhands)
  · exact (hst.sound d rfl).congr fun i hi => by
      obtain ⟨j, hj, hij⟩ := mem_under.mp hi
      exact hoff j hj i hij
  · obtain ⟨a, ha, hak⟩ := hcut.key
    exact ⟨a, hrow ▸ hcut.left ha, hak⟩
  · obtain ⟨b, hb⟩ := List.exists_mem_of_ne_nil B hcut.rest
    exact ⟨b, hrow ▸ hcut.right hb, hcut.lt b hb⟩

namespace Linked

theorem crown (hl : Linked ({ t with pool := p₁ } : Tree w) (Function.update c q []) r d
    (Aside c r d rest q) h k q t₂ c₂ r₂ d₂) (hh : h ∈ c.level r d) (hi : i ∈ c₂.crown r₂ (d₂ + 1)) :
    Function.update (Function.update c₂ q A) h B i = c₂ i := by
  rw [Function.update_of_ne, Function.update_of_ne]
  · rintro rfl
    exact hl.stand.apart i (Or.inr rfl) hi
  · rintro rfl
    exact hl.stand.apart i (Or.inl (Or.inr hh)) hi

/-- The nodes of the level, the one that is parted excepted, and what was put aside before have the rows they had. -/
theorem kept (hl : Linked ({ t with pool := p₁ } : Tree w) (Function.update c q []) r d (Aside c r d rest q) h k q t₂ c₂
    r₂ d₂) (hst : Stand t c r (d + 1) rest) (hhands : Hands t.pool p₁ q) (hi : rest i ∨ i ∈ c.level r d) (hih : i ≠ h) :
    Function.update (Function.update c₂ q A) h B i = c i := by
  have hiq : i ≠ q := by
    rintro rfl
    refine hhands.unused ((hst.truncate.live i).mpr (Or.inr hi))
  rw [Function.update_of_ne hih, Function.update_of_ne hiq, hl.rest i (Or.inl hi), Function.update_of_ne hiq]

/-- Once the separator is linked, moving the pairs parts the node. -/
theorem parts (hl : Linked ({ t with pool := p₁ } : Tree w) (Function.update c q []) r d
    (Aside c r d rest q) h k q t₂ c₂ r₂ d₂) (hst : Stand t c r (d + 1) rest) (hhands : Hands t.pool p₁ q)
    (hh : h ∈ c.level r d) (hcut : Cut (c h) A B k) :
    Parts c r d h q k A B (Function.update (Function.update c₂ q A) h B) r₂ (d₂ + 1) := by
  have hoff : ∀ j < d, ∀ i ∈ c.level r j, Function.update c q [] i = c i := fun j hj i hi =>
    hst.update_level hhands.unused [] (Nat.lt_succ_of_lt hj) hi
  have hup : ∀ j < d₂ + 1, ∀ i ∈ c₂.level r₂ j, Function.update (Function.update c₂ q A) h B i = c₂ i :=
    fun j hj i hi => hl.crown hh (mem_crown.mpr ⟨j, hj, hi⟩)
  have hnew : q ∉ c.level r d := fun hq => hhands.unused (hst.live_of_level (Nat.lt_succ_self d) hq)
  have hqh : q ≠ h := fun hqh => hnew (hqh ▸ hh)
  refine ⟨hh, hnew, hcut, ?_, Function.update_self _ _ _, fun i hi hih => hl.kept hst hhands (Or.inr hi) hih, ?_,
    fun x => ?_⟩
  · rw [Function.update_of_ne hqh, Function.update_self]
  · rw [level_congr hup, ← level_congr hoff]
    exact hl.level
  · rw [land_congr hup, hl.land, land_congr hoff]

end Linked

theorem Parts.stand (hp : Parts c r d h q k A B c₃ r₂ (d₂ + 1)) (hst : Stand t c r (d + 1) rest)
    (hhands : Hands t.pool p₁ q)
    (hl : Linked ({ t with pool := p₁ } : Tree w) (Function.update c q []) r d (Aside c r d rest q) h k q t₂ c₂ r₂ d₂)
    (hcrown : ∀ i ∈ c₂.crown r₂ (d₂ + 1), c₃ i = c₂ i) (hs : Stock t₂.geometry p₃ c₃) (hf : Fades t₂.pool p₃)
    (hlive : ∀ i, p₃.Live i ↔ t₂.pool.Live i) : Stand ({ t₂ with pool := p₃ } : Tree w) c₃ r₂ (d₂ + 1 + 1) rest := by
  have hsound := hst.sound d rfl
  have hheight : t₂.height + d = t.height + (d₂ + 1) := hl.height
  have htall := hst.height
  have hfull : ∀ i ∈ c.level r d, i ∈ c.crown r (d + 1) := fun i hi => mem_crown.mpr ⟨d, Nat.lt_succ_self d, hi⟩
  have hlevel : c₃.level r₂ d₂ = c₂.level r₂ d₂ :=
    level_congr fun j hj i hi => hcrown i (mem_crown.mpr ⟨j, Nat.lt_succ_of_lt hj, hi⟩)
  refine Stand.extend (hl.stand.congr hs hf hcrown (fun i => ?_) fun i hi hmem => ?_)
    (by change d₂ + 1 < t₂.height; omega) ?_ (fun i hi hmem => ?_) (fun i hi => ?_) (fun hm i hi e he => ?_)
    fun hm i hi => ?_
  · rw [hlive, hl.stand.live, hp.mem, Aside]
    tauto
  · refine hl.stand.apart i ?_ hmem
    rw [hp.mem] at hi
    unfold Aside
    tauto
  · exact hp.level.nodup_iff.mpr (List.nodup_cons.mpr ⟨hp.new, hsound.nodup_level (Nat.le_refl d)⟩)
  · rcases hp.mem.mp hmem with rfl | hil
    · exact hhands.unused ((hst.live i).mpr (Or.inr hi))
    · exact hst.apart i hi (hfull i hil)
  · obtain ⟨j, hj, hsub⟩ := hp.sublist hi
    refine ⟨(hsound.descending_level (Nat.le_refl d) hj).sublist hsub,
      hp.ne_nil (fun i hi => hst.full i (hfull i hi)) hi, fun e he =>
        ⟨hsound.small_level (Nat.le_refl d) hj (hsub.subset he), ?_⟩⟩
    -- the separator of a node is at most the keys that it kept, and the new one is the key of the cut
    refine ((hl.stand.sound d₂ rfl).congr hcrown).route_of_land (hp.land_of_mem hsound hi he) fun j hj a ha haj => ?_
    rw [hlevel] at hj
    rw [hcrown j (mem_crown.mpr ⟨d₂, Nat.lt_succ_self d₂, hj⟩)] at ha
    obtain ⟨hsep, hsep'⟩ := hl.separator j hj a ha i haj
    by_cases hiq : i = q
    · rw [hsep hiq]
      rw [hiq, hp.moved] at he
      exact hp.cut.le e he
    · refine hsep' hiq e ?_
      rw [Function.update_of_ne hiq]
      exact hp.old hi hiq he
  · obtain ⟨j, hj, hsub⟩ := hp.sublist hi
    exact hst.inner (by change d₂ + 1 + 1 < t₂.height at hm; omega) j (hfull j hj) e (hsub.subset he)
  · rcases hp.mem.mp hi with rfl | hil
    · exact (hl.fades.trans hf).quiet (quiet_of_hands hhands)
    · exact ((Fades.of_hands hhands).trans (hl.fades.trans hf)).quiet
        (hst.quiet d rfl (by change d₂ + 1 + 1 = t₂.height at hm; omega) i hil)

/-- Once the pairs are moved, the rules hold that held. -/
theorem Linked.filled (hst : Stand t c r (d + 1) rest) (hhands : Hands t.pool p₁ q)
    (hl : Linked ({ t with pool := p₁ } : Tree w) (Function.update c q []) r d (Aside c r d rest q) h k q t₂ c₂ r₂ d₂)
    (hcrown : ∀ i ∈ c₂.crown r₂ (d₂ + 1), c₃ i = c₂ i) (hs : Splits t.pairs (c.level r d) h q c.count c₃.count)
    (hh : h ∈ c.level r d) : Filled t.pairs c r d c₃ r₂ (d₂ + 1) := by
  have hoff : ∀ j ≤ d, ∀ i ∈ c.level r j, Function.update c q [] i = c i := fun j hj i hi =>
    hst.update_level hhands.unused [] (Nat.lt_succ_of_le hj) hi
  have hlevel : Rows.level (Function.update c q []) r d = c.level r d := level_congr fun j hj =>
    hoff j (Nat.le_of_lt hj)
  have hroot : r₂ ∈ c₂.crown r₂ (d₂ + 1) := mem_crown.mpr ⟨0, Nat.succ_pos d₂, List.mem_singleton_self r₂⟩
  refine ⟨fun hg ho => ?_, ?_⟩
  · have hsplits : Splits t.pairs (Rows.level (Function.update c q []) r d) h q
        (Rows.count (Function.update c q [])) c₃.count := by
      rw [hlevel]
      exact { hs with
        full := (congrArg List.length (hoff d (Nat.le_refl d) h hh)).trans hs.full
        other := fun i hi hih => (hs.other i hi hih).trans (congrArg List.length (hoff d (Nat.le_refl d) i hi)).symm }
    have ho' : Rows.Obeys (Function.update c q []) _ (Rows.count (Function.update c q [])) r d :=
      ho.congr (fun i hi p hp => by rw [kids, kids, hoff i (Nat.le_of_lt hi) p hp])
        fun i hi p hp => congrArg List.length (hoff i hi p hp)
    refine (hl.obeys hg (fun i hi => congrArg List.length (hcrown i hi)) hsplits ho').congr (fun i hi p hp => ?_)
      fun _ _ _ _ => rfl
    rw [kids, kids, hcrown p (mem_crown.mpr ⟨i, hi, hp⟩)]
  · rw [count, hcrown r₂ hroot]
    rcases hl.root with hroot | ⟨rfl, rfl, hle⟩
    · exact Or.inl hroot
    · refine Or.inr ⟨rfl, rfl, ?_⟩
      rwa [count, hoff 0 (Nat.zero_le _) r₂ (List.mem_singleton_self r₂)] at hle

/-- Once the separator is linked and the pairs are moved, the level is split. -/
theorem halved (hst : Stand t c r (d + 1) rest) (hh : h ∈ c.level r d) (hcut : Cut (c h) A B k)
    (hA : A.length = t.pairs / 2) (hfull : (c h).length = t.pairs) (hpairs : 2 ≤ t.pairs) (hhands : Hands t.pool p₁ q)
    (hl : Linked ({ t with pool := p₁ } : Tree w) (Function.update c q []) r d (Aside c r d rest q) h k q t₂ c₂ r₂ d₂)
    (hs : Stock t₂.geometry p₃ (Function.update (Function.update c₂ q A) h B)) (hf : Fades t₂.pool p₃)
    (hlive : ∀ i, p₃.Live i ↔ t₂.pool.Live i) (hquiet : p₃.Quiet h) :
    Halved t c r d rest h ({ t₂ with pool := p₃ } : Tree w) (Function.update (Function.update c₂ q A) h B) r₂
      (d₂ + 1) := by
  have hp := hl.parts hst hhands hh hcut
  have hsound := hst.sound d rfl
  have hstand := hp.stand hst hhands hl (fun i hi => hl.crown hh hi) hs hf hlive
  -- a missed node is neither the full one nor the new one, and linking left its row alone
  have hmissed : ∀ {x i}, c.land x r d = some h → t.pool.Live i → c.Misses x r (d + 1) i →
      Function.update (Function.update c₂ q A) h B i = c i := fun {x i} hx hi hm => by
    have hih : i ≠ h := by
      rintro rfl
      exact hm d (Nat.lt_succ_self d) hx
    have hiq : i ≠ q := by
      rintro rfl
      exact hhands.unused hi
    have hland : ∀ j ≤ d, Rows.land (Function.update c q []) x r j = c.land x r j := fun j hj =>
      land_congr fun n hn p hp => hst.update_level hhands.unused [] (by omega) hp
    rw [Function.update_of_ne hih, Function.update_of_ne hiq, hl.missed x ((hland d (Nat.le_refl d)).trans hx) i
      ((hhands.live i).mpr (Or.inl hi)) ((misses_congr fun j hj => hland j (Nat.le_of_lt hj)).mpr
        (misses_succ.mp hm).1),
      Function.update_of_ne hiq]
  refine ⟨⟨hl.alike.len, hl.alike.pairs, hl.alike.memoize, hl.alike.hooks⟩, hstand, hl.height,
    (Fades.of_hands hhands).trans (hl.fades.trans hf), hl.coherent.mono hf fun i hi x j hj => ?_, fun i hi => ?_,
    hp.pairs hsound, fun x => hp.aimed hsound, fun x i hx hi => ?_,
    hl.filled hst hhands (fun i hi => hl.crown hh hi) (hp.splits hsound hA hfull) hh,
    fun hg hbelow => hp.abides hA hfull (hst.inner hbelow h (mem_crown.mpr ⟨d, Nat.lt_succ_self d, hh⟩)) hg,
    fun i hi => (hlive i).mpr (hl.lives i ((hhands.live i).mpr (Or.inl hi))), fun x hx i => hmissed hx,
    fun x hx i hi hm j hj hland => ?_⟩
  · rwa [look, Function.update_of_ne, Function.update_of_ne]
    · rintro rfl
      exact hi ((hl.fades.trans hf).quiet (quiet_of_hands hhands))
    · rintro rfl
      exact hi hquiet
  · refine hl.kept hst hhands (Or.inl hi) ?_
    rintro rfl
    exact hst.apart i hi (mem_crown.mpr ⟨d, Nat.lt_succ_self d, hh⟩)
  · -- both parts are shorter than the full row, as neither of them is empty
    have hlength := congrArg List.length hcut.row
    rw [hfull, List.length_append, hA] at hlength
    rcases hp.parts hx hi with hrow | hrow
    · rw [hrow]
      exact ⟨by omega, fun e he => hcut.left he⟩
    · rw [hrow]
      exact ⟨by omega, fun e he => hcut.right he⟩
  · have hsound' := hstand.sound (d₂ + 1) rfl
    have hq : q ∉ c.under r d := fun hq => hhands.unused ((hst.live q).mpr (Or.inl hq))
    rcases (hst.live i).mp hi with hcrown | hri
    · obtain ⟨n, hn, hin⟩ := mem_under.mp hcrown
      refine hp.misses hsound hsound' hq hx (fun m hm' p hpm => hmissed hx (hst.live_of_level (by omega) hpm))
        (show j + (d₂ + 1 - j) = d₂ + 1 by omega) hn hin hm hland
    · exact hstand.apart i hri (mem_crown.mpr ⟨j, hj, mem_level_of_land hland⟩)

end Halving
end MemoTree
