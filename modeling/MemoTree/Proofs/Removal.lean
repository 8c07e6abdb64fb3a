import MemoTree.Proofs.Joining

/-! # Removal

A pair is taken out of its level, and a node below the root that is left short is joined with a neighbour or, if it is
empty, unlinked; both take a pair out of the level above. The induction is on the number of levels above. -/

namespace MemoTree
open Pool NodePool Rows

section Repairs
variable {w : Width} {t : Tree w} {c : Rows} {r o h : Handle} {d k : Nat} {rest : Handle → Prop} {late : List Handle}
  {take : Tree.Unlinker w} {A B : Row} {e : Pair} {g : Geometry} {p : NodePool}

/-- The neighbours of a node are the children in front of its slot and behind it. -/
theorem neighbours_spec (hs : Stock g p c) (ho : p.Live o) (hk : k < 2 ^ (64 * g.keyLength)) (hrow : c o = A ++ e :: B)
    (hA : ∀ a ∈ A, k < a.1) (hB : ∀ b ∈ e :: B, b.1 ≤ k) (heh : Pair.child e = some h) :
    Runs (Tree.neighbours g (Words.ofNat g.keyLength k) o h) p
      (A.length, A.getLast?.bind Pair.child, B.head?.bind Pair.child) p := by
  obtain ⟨n, hn, hpacks⟩ := hs.node ho
  rw [hrow] at hpacks
  have hpos := hpacks.position_eq hk
  rw [(Row.above_eq hA hB).1] at hpos
  have hself : n.child g A.length = .ok (some h) := by
    rw [hpacks.child_eq (e := e) (by simp)]
    exact congrArg _ heh
  have hlen := hpacks.length_le
  rw [List.length_append, List.length_cons] at hlen
  have hright : Runs (if A.length + 1 < g.pairs then liftM (n.child g (A.length + 1)) else pure none :
    NodeM (Option Handle)) p (B.head?.bind Pair.child) p := by
    rcases B with _ | ⟨b, B⟩
    · by_cases hlt : A.length + 1 < g.pairs
      · exact Runs.of_pos hlt (Runs.lift (hpacks.child_free (by simp) hlt) _)
      · exact Runs.of_neg hlt (Runs.pure _ _)
    · rw [List.length_cons] at hlen
      exact Runs.of_pos (by omega) (Runs.lift (hpacks.child_eq (e := b) (by simp)) _)
  have hleft : Runs (if A.length = 0 then pure none else liftM (n.child g (A.length - 1)) : NodeM (Option Handle)) p
      (A.getLast?.bind Pair.child) p := by
    rcases List.eq_nil_or_concat A with rfl | ⟨A', a, rfl⟩
    · exact Runs.of_pos rfl (Runs.pure _ _)
    · rw [List.concat_eq_append] at hpacks ⊢
      have hlast : (A' ++ [a]).getLast?.bind Pair.child = Pair.child a := by simp
      rw [hlast]
      exact Runs.of_neg (by simp) (Runs.lift (hpacks.child_eq (e := a) (by simp)) _)
  exact Runs.bind (Runs.read hn) (Runs.bind (Runs.lift hpos _) (Runs.bind (Runs.lift hself _) (Runs.of_neg (by simp)
    (Runs.ite_bind hleft (Runs.ite_bind hright (Runs.pure _ _))))))

/-- A neighbour fits if there is one and its pairs and `fill` more have room in a node. -/
theorem fitting_spec (hs : Stock g p c) (fill : Nat) (q : Option Handle) (hq : ∀ i, q = some i → p.Live i) :
    ((∀ i, q = some i → g.pairs < fill + (c i).length) ∧ Runs (Tree.fitting g fill q) p none p) ∨
      ∃ i, q = some i ∧ fill + (c i).length ≤ g.pairs ∧ Runs (Tree.fitting g fill q) p (some (i, (c i).length)) p := by
  cases q with
  | none => exact Or.inl ⟨fun i hi => (by cases hi), Runs.pure _ _⟩
  | some i =>
    obtain ⟨n, hn, hpacks⟩ := hs.node (hq i rfl)
    by_cases hfit : fill + (c i).length ≤ g.pairs
    · exact Or.inr ⟨i, rfl, hfit, Runs.bind (Runs.read hn) (Runs.bind (Runs.lift hpacks.fill_eq _)
        (Runs.of_pos hfit (Runs.pure _ _)))⟩
    · refine Or.inl ⟨?_, Runs.bind (Runs.read hn) (Runs.bind (Runs.lift hpacks.fill_eq _)
        (Runs.of_neg hfit (Runs.pure _ _)))⟩
      rintro _ ⟨⟩
      exact Nat.lt_of_not_le hfit

/-- Words are written above the node that is short. -/
theorem Lacking.edits (hl : Lacking t c r d rest h late) (hs : Stock t.geometry p c) (he : Edits t.pool p) :
    Lacking ({ t with pool := p } : Tree w) c r d rest h late where
  upper := hl.upper.congr hs he.fades (fun _ _ => rfl) (fun i => (he.live i).trans (hl.upper.live i)) hl.upper.apart
  below := hl.below
  sound := hl.sound
  node := hl.node
  full := hl.full
  inner := hl.inner
  quiet hm i hi := he.fades.quiet (hl.quiet hm i hi)
  apart := hl.apart
  coherent := hl.coherent.mono he.fades fun _ _ _ _ h => h

/-- If all pairs have children, the neighbours of a child are the children of the pairs in front of its own and
behind. -/
theorem child_neighbours {row : Row} (hrow : ∀ e ∈ row, ∃ k, Pair.child e = some k) :
    (row.filterMap Pair.child).getLast? = row.getLast?.bind Pair.child ∧
      (row.filterMap Pair.child).head? = row.head?.bind Pair.child := by
  constructor
  · rcases List.eq_nil_or_concat row with rfl | ⟨row', e, rfl⟩
    · rfl
    · rw [List.concat_eq_append] at hrow ⊢
      obtain ⟨k, hk⟩ := hrow e (by simp)
      simp [hk]
  · cases row with
    | nil => rfl
    | cons e row' =>
      obtain ⟨k, hk⟩ := hrow e List.mem_cons_self
      simp [hk]

namespace Hangs

theorem edits (hh : Hangs t c r d rest late k h o A e B) (hs : Stock t.geometry p c) (he : Edits t.pool p) :
    Hangs ({ t with pool := p } : Tree w) c r d rest late k h o A e B :=
  ⟨hh.lacking.edits hs he, hh.down, hh.route, hh.row, hh.above, hh.le, hh.child⟩

theorem sound (hh : Hangs t c r d rest late k h o A e B) : Sound (2 ^ w.bits) c r d := hh.lacking.upper.sound d rfl

/-- A separator of the parent has the same way up as the key. -/
theorem trail_of_mem (hh : Hangs t c r d rest late k h o A e B) {a : Pair} (ha : a ∈ c o) :
    c.trail a.1 r d = c.trail k r d :=
  trail_congr fun _ hi => hh.sound.land_unique (Nat.le_refl d)
    (land_of_route (hh.sound.routed d (Nat.le_refl d) o hh.parent_level a ha)) (land_of_route hh.route) hi

theorem not_above (hh : Hangs t c r d rest late k h o A e B) : ∀ b ∈ e :: B, b.1 ≤ k := fun b hb => by
  have hle := hh.le
  have hdesc := hh.sound.descending_level (Nat.le_refl d) hh.parent_level
  rw [hh.row] at hdesc
  rcases List.mem_cons.mp hb with rfl | hb
  · exact hle
  · have := (List.pairwise_cons.mp hdesc.of_append.2.1).1 b hb
    omega

theorem kids (hh : Hangs t c r d rest late k h o A e B) :
    c.kids o = A.filterMap Pair.child ++ h :: B.filterMap Pair.child := by
  rw [Rows.kids, hh.row, List.filterMap_append, List.filterMap_cons_some hh.child]

/-- The child in front of the node, and the one behind it. -/
theorem neighbours_eq (hh : Hangs t c r d rest late k h o A e B) :
    (A.filterMap Pair.child).getLast? = A.getLast?.bind Pair.child ∧
      (B.filterMap Pair.child).head? = B.head?.bind Pair.child := by
  have hchild := hh.lacking.upper.inner hh.lacking.below o (mem_crown.mpr ⟨d, Nat.lt_succ_self d, hh.parent_level⟩)
  rw [hh.row] at hchild
  exact ⟨(child_neighbours fun a ha => hchild a (List.mem_append_left _ ha)).1,
    (child_neighbours fun b hb => hchild b (List.mem_append_right _ (List.mem_cons_of_mem e hb))).2⟩

/-- Whether the child of a slot of the parent fits to the node. -/
theorem fitting_spec (hh : Hangs t c r d rest late k h o A e B) {b : Option Pair} (hb : ∀ a, b = some a → a ∈ c o) :
    ((∀ i, b.bind Pair.child = some i → t.pairs < (c h).length + (c i).length) ∧
      Runs (Tree.fitting t.geometry (c h).length (b.bind Pair.child)) t.pool none t.pool) ∨
    ∃ a i, b = some a ∧ Pair.child a = some i ∧ (c h).length + (c i).length ≤ t.pairs ∧
      Runs (Tree.fitting t.geometry (c h).length (b.bind Pair.child)) t.pool (some (i, (c i).length)) t.pool := by
  have hlive : ∀ i, b.bind Pair.child = some i → t.pool.Live i := fun i hi => by
    obtain ⟨a, ha, hai⟩ := Option.bind_eq_some_iff.mp hi
    exact hh.lacking.live (mem_level_succ.mpr ⟨o, hh.parent_level, mem_kids.mpr ⟨a, hb a ha, hai⟩⟩)
  rcases MemoTree.fitting_spec hh.lacking.upper.stock (c h).length (b.bind Pair.child) hlive with
    hnone | ⟨i, hi, hfit, hrun⟩
  · exact Or.inl hnone
  · obtain ⟨a, ha, hai⟩ := Option.bind_eq_some_iff.mp hi
    exact Or.inr ⟨a, i, ha, hai, hfit, hrun⟩

/-- A node that does not fit to the one in front of it has no fitting neighbour there. -/
theorem not_fits (hh : Hangs t c r d rest late k h o A e B)
    (hnone : ∀ i, A.getLast?.bind Pair.child = some i → t.pairs < (c h).length + (c i).length) (f : Handle) :
    ¬Fits t.pairs c o f h :=
  not_fits_front (nodup_kids hh.lacking.nodup hh.parent_level) hh.kids (fun i hi => hnone i (hh.neighbours_eq.1 ▸ hi)) f

/-- If it does not fit to the one behind it either, it stays. -/
theorem repair_none (hh : Hangs t c r d rest late k h o A e B) (hne : c h ≠ []) (hless : (c h).length < t.pairs / 2)
    (hfront : ∀ i, A.getLast?.bind Pair.child = some i → t.pairs < (c h).length + (c i).length)
    (hbehind : ∀ i, B.head?.bind Pair.child = some i → t.pairs < (c h).length + (c i).length) :
    Left t c r (d + 1) rest late (Slack · t.height rest c r (d + 1) h)
      (Mends t.pairs (t.height - (d + 1)) (c.trail k r (d + 1)) c) t := by
  have hX : ∀ i ∈ (A.filterMap Pair.child).getLast?, t.pairs < c.count h + c.count i := fun i hi =>
    hfront i (hh.neighbours_eq.1 ▸ hi)
  have hY : ∀ i ∈ (B.filterMap Pair.child).head?, t.pairs < c.count h + c.count i := fun i hi =>
    hbehind i (hh.neighbours_eq.2 ▸ hi)
  refine hh.lacking.stays hne (k := k) (fun hr hk => hh.lacking.kept_stuck hr hk hne hh.parent_level hh.kids hX hY) ?_
  obtain ⟨path, hpath⟩ := hh.exists_trail
  rw [hh.trail, hpath]
  exact .stuck hne hless (hh.not_fits hfront)
    (not_fits_behind (nodup_kids hh.lacking.nodup hh.parent_level) hh.kids hY)

theorem joinable_front {f : Handle} {a : Pair} (hh : Hangs t c r d rest late k h o (A ++ [a]) e B) (hne : c h ≠ [])
    (hless : (c h).length < t.pairs / 2) (haf : Pair.child a = some f) (hfit : (c h).length + (c f).length ≤ t.pairs) :
    Joinable t c r d rest late h o f h A a e B := by
  have hrow := hh.row
  rw [List.append_assoc] at hrow
  exact ⟨hh.lacking, hh.parent_level, hrow, haf, hh.child, Or.inl rfl, hne, hless, by rw [Nat.add_comm]; exact hfit⟩

theorem joinable_behind {q : Handle} {b : Pair} (hh : Hangs t c r d rest late k h o A e (b :: B)) (hne : c h ≠ [])
    (hless : (c h).length < t.pairs / 2) (hbq : Pair.child b = some q) (hfit : (c h).length + (c q).length ≤ t.pairs) :
    Joinable t c r d rest late h o h q A e b B :=
  ⟨hh.lacking, hh.parent_level, hh.row, hh.child, hbq, Or.inr rfl, hne, hless, hfit⟩

/-- It is joined with the one in front of it if the two fit, -/
theorem repair_front {f : Handle} {a : Pair} (hh : Hangs t c r d rest late k h o (A ++ [a]) e B)
    (htake : Takes w take d)
    (hpairs : 2 ≤ t.pairs) (hne : c h ≠ []) (hless : (c h).length < t.pairs / 2) (haf : Pair.child a = some f)
    (hfit : (c h).length + (c f).length ≤ t.pairs) :
    ∃ t', Runs (Tree.join take (t.height - (d + 1)) f (c f).length h (c h).length o A.length) t () t' ∧
      Left t c r (d + 1) rest late (Slack · t.height rest c r (d + 1) h)
        (Mends t.pairs (t.height - (d + 1)) (c.trail k r (d + 1)) c) t' := by
  obtain ⟨path, hpath⟩ := hh.exists_trail
  have hj := hh.joinable_front hne hless haf hfit
  refine hj.join_spec [f] htake hpairs fun hjoins hm => ?_
  rw [hh.trail_of_mem hj.mem_front, hpath] at hm
  rw [hh.trail, hpath]
  exact .joinedLarger hne hless hjoins hm

/-- and else with the one behind it. -/
theorem repair_behind {q : Handle} {b : Pair} (hh : Hangs t c r d rest late k h o A e (b :: B)) (htake : Takes w take d)
    (hpairs : 2 ≤ t.pairs) (hne : c h ≠ []) (hless : (c h).length < t.pairs / 2) (hbq : Pair.child b = some q)
    (hfit : (c h).length + (c q).length ≤ t.pairs)
    (hfront : ∀ i, A.getLast?.bind Pair.child = some i → t.pairs < (c h).length + (c i).length) :
    ∃ t', Runs (Tree.join take (t.height - (d + 1)) h (c h).length q (c q).length o A.length) t () t' ∧
      Left t c r (d + 1) rest late (Slack · t.height rest c r (d + 1) h)
        (Mends t.pairs (t.height - (d + 1)) (c.trail k r (d + 1)) c) t' := by
  obtain ⟨path, hpath⟩ := hh.exists_trail
  have hj := hh.joinable_behind hne hless hbq hfit
  refine hj.join_spec [q] htake hpairs fun hjoins hm => ?_
  rw [hh.trail_of_mem hj.mem_front, hpath] at hm
  rw [hh.trail, hpath]
  exact .joinedSmaller hne hless (hh.not_fits hfront) hjoins hm

end Hangs

namespace Hangs

/-- The node is joined with the one in front of it if the two fit, else with the one behind it, and else it stays. -/
theorem choice (hh : Hangs t c r d rest late k h o A e B) :
    (∃ A' a f, A = A' ++ [a] ∧ Pair.child a = some f ∧ (c h).length + (c f).length ≤ t.pairs ∧
      Runs (Tree.fitting t.geometry (c h).length (A.getLast?.bind Pair.child)) t.pool (some (f, (c f).length)) t.pool) ∨
    (∀ i, A.getLast?.bind Pair.child = some i → t.pairs < (c h).length + (c i).length) ∧
      Runs (Tree.fitting t.geometry (c h).length (A.getLast?.bind Pair.child)) t.pool none t.pool ∧
      ((∃ b B' q, B = b :: B' ∧ Pair.child b = some q ∧ (c h).length + (c q).length ≤ t.pairs ∧
          Runs (Tree.fitting t.geometry (c h).length (B.head?.bind Pair.child)) t.pool
          (some (q, (c q).length)) t.pool) ∨
        (∀ i, B.head?.bind Pair.child = some i → t.pairs < (c h).length + (c i).length) ∧
          Runs (Tree.fitting t.geometry (c h).length (B.head?.bind Pair.child)) t.pool none t.pool) := by
  have hmem : ∀ a ∈ A ++ e :: B, a ∈ c o := fun a ha => by rwa [hh.row]
  rcases hh.fitting_spec (b := A.getLast?) fun a ha => hmem a (List.mem_append_left _ (List.mem_of_getLast? ha)) with
    ⟨hfront, hleft⟩ | ⟨a, f, ha, haf, hfit, hleft⟩
  · refine Or.inr ⟨hfront, hleft, ?_⟩
    rcases hh.fitting_spec (b := B.head?) fun b hb =>
      hmem b (List.mem_append_right _ (List.mem_cons_of_mem _ (List.mem_of_head? hb))) with
      ⟨hbehind, hright⟩ | ⟨b, q, hb, hbq, hfit, hright⟩
    · exact Or.inr ⟨hbehind, hright⟩
    · obtain ⟨B', hB⟩ := List.head?_eq_some_iff.mp hb
      exact Or.inl ⟨b, B', q, hB, hbq, hfit, hright⟩
  · obtain ⟨A', hA⟩ := List.getLast?_eq_some_iff.mp ha
    exact Or.inl ⟨A', a, f, hA, haf, hfit, hleft⟩

end Hangs

/-- The node that is short hangs in its parent, where its neighbours are looked up. -/
theorem Lacking.placed (hl : Lacking t c r (d + 1) rest h late) (hr : c.route k r (d + 1) = some h)
    (hk : k < 2 ^ w.bits) : ∃ o A e B p, Hangs t c r d rest late k h o A e B ∧
      Hangs ({ t with pool := p } : Tree w) c r d rest late k h o A e B ∧ Edits t.pool p ∧
      Runs (Tree.nodeAt (Words.ofNat w.words k) (t.height - (d + 1) + 1)) t o { t with pool := p } ∧
      Runs (Tree.neighbours t.geometry (Words.ofNat w.words k) o h) p
        (A.length, A.getLast?.bind Pair.child, B.head?.bind Pair.child) p := by
  obtain ⟨o, A, e, B, hh⟩ := hl.hangs hr
  have hbelow := hl.below
  -- the path of the key is lowered already
  obtain ⟨o', p, hland, hrun, hs, hedits⟩ := hl.upper.nodeAt (show t.height - (d + 1) + 1 + d = t.height by omega) hk
  rw [land_of_route hh.route, Option.some.injEq] at hland
  subst hland
  rw [lowerPath_of_route hh.route] at hs
  have hh' := hh.edits hs hedits
  exact ⟨o, A, e, B, p, hh, hh', hedits, hrun, neighbours_spec hs
    (hh'.lacking.upper.live_of_level (Nat.lt_succ_self d) hh'.parent_level) (Nat.lt_of_lt_of_le hk (Key.pow_bits_le w))
    hh'.row hh'.above hh'.not_above hh'.child⟩

/-- A node below the root that is left short is repaired. -/
theorem repair_spec (htake : Takes w take d) (hl : Lacking t c r (d + 1) rest h late)
    (hr : c.route k r (d + 1) = some h) (hk : k < 2 ^ w.bits) (hless : (c h).length < t.pairs / 2)
    (hpairs : 2 ≤ t.pairs) :
    ∃ t', Runs (Tree.repair take (Words.ofNat w.words k) (t.height - (d + 1)) h (c h).length) t () t' ∧
      Left t c r (d + 1) rest late (Slack · t.height rest c r (d + 1) h)
        (Mends t.pairs (t.height - (d + 1)) (c.trail k r (d + 1)) c) t' := by
  obtain ⟨o, A, e, B, p, hh₀, hh, hedits, hrun, hnear⟩ := hl.placed hr hk
  by_cases hempty : c h = []
  · rw [hempty]
    exact hh₀.repair_empty htake hk hempty hpairs
  have hfill : (c h).length ≠ 0 := fun h0 => hempty (List.length_eq_zero_iff.mp h0)
  rcases hh.choice with ⟨A', a, f, rfl, haf, hfit, hleft⟩ | ⟨hfront, hleft, hright⟩
  · obtain ⟨t', hjoin, hdone⟩ := hh.repair_front htake hpairs hempty hless haf hfit
    have hslot : (A' ++ [a]).length - 1 = A'.length := by simp
    rw [← hslot] at hjoin
    exact ⟨t', Runs.of_neg hfill (Runs.bind hrun (Runs.bind (Runs.get _) (Runs.bind (Runs.onNodes hnear)
      (Runs.bind (Runs.onNodes hleft) hjoin)))), hdone.of_pool hedits.fades hedits.live⟩
  rcases hright with ⟨b, B', q, rfl, hbq, hfit, hright⟩ | ⟨hbehind, hright⟩
  · obtain ⟨t', hjoin, hdone⟩ := hh.repair_behind htake hpairs hempty hless hbq hfit hfront
    exact ⟨t', Runs.of_neg hfill (Runs.bind hrun (Runs.bind (Runs.get _) (Runs.bind (Runs.onNodes hnear)
      (Runs.bind (Runs.onNodes hleft) (Runs.bind (Runs.onNodes hright) hjoin))))),
      hdone.of_pool hedits.fades hedits.live⟩
  · exact ⟨_, Runs.of_neg hfill (Runs.bind hrun (Runs.bind (Runs.get _) (Runs.bind (Runs.onNodes hnear)
      (Runs.bind (Runs.onNodes hleft) (Runs.bind (Runs.onNodes hright) (Runs.pure _ _)))))),
      (hh.repair_none hempty hless hfront hbehind).of_pool hedits.fades hedits.live⟩

end Repairs

/-! ### Taking a pair out of a level -/

section Levels
variable {w : Width} {t : Tree w} {c : Rows} {r h : Handle} {d k : Nat} {rest : Handle → Prop} {late : List Handle}
  {A B : Row} {e : Pair}

/-- A pair taken out of the root. -/
theorem deleteAt_root (ht : Taking t c r 0 rest h k A e B late) (hexact : t.height = 1 → e.1 = k) :
    ∃ t', Runs (Tree.deleteAt 1 (Words.ofNat w.words k) t.height) t (some e.2) t' ∧
      Left t (Function.update c h (A ++ B)) r 0 rest late (Slack · t.height rest (Function.update c h (A ++ B)) r 0 h)
        (Mends t.pairs t.height (c.trail k r 0) (Function.update c h (A ++ B))) t' := by
  obtain ⟨p, hrun, hedits, hlack⟩ := ht.takePair (show t.height + 0 = t.height from rfl) hexact
  obtain ⟨c₁, hc₁⟩ : ∃ c₁ : Rows, Function.update c h (A ++ B) = c₁ := ⟨_, rfl⟩
  have hself : c₁ h = A ++ B := by rw [← hc₁, Function.update_self]
  have hlen := congrArg List.length hself
  rw [hc₁] at hlack ⊢
  have hr : h = r := List.mem_singleton.mp hlack.node
  have hback : ∀ {done t'}, Left ({ t with pool := p } : Tree w) c₁ r 0 rest late
    (Slack · t.height rest c₁ r 0 h) done t' →
      Left t c₁ r 0 rest late (Slack · t.height rest c₁ r 0 h) done t' := fun hleft =>
    hleft.of_pool hedits.fades hedits.live
  by_cases hnone : (A ++ B).length = 0
  · have hnil : c₁ h = [] := List.length_eq_zero_iff.mp (hlen.trans hnone)
    have hdone : Mends t.pairs t.height [r] c₁ ⟨c₁, none, 0, [r], []⟩ := .emptied (hr ▸ hnil)
    obtain ⟨t', hrun', hleft⟩ := dropRoot_spec hlack hnil hdone
    exact ⟨t', Runs.bind hrun (Runs.bind (Runs.get _) (Runs.of_pos rfl (Runs.of_pos hnone (Runs.bind hrun'
      (Runs.pure _ _))))), hback hleft⟩
  -- a root that is left with one child gives way to it; one that is a leaf stays with its last pair
  by_cases hone : (A ++ B).length = 1 ∧ t.height > 1
  · have hdone : ∀ {e k}, c₁ r = [e] → Pair.child e = some k →
        Mends t.pairs t.height [r] c₁ ⟨c₁, some k, t.height - 1, [r], []⟩ := fun h₁ h₂ => .lowered hone.2 h₁ h₂
    obtain ⟨t', hrun', hleft⟩ := dropLevel_spec hlack (hlen.trans hone.1) hone.2 hdone
    exact ⟨t', Runs.bind hrun (Runs.bind (Runs.get _) (Runs.of_pos rfl (Runs.of_neg hnone (Runs.of_pos hone
      (Runs.bind hrun' (Runs.pure _ _)))))), hback hleft⟩
  · have hne : c₁ h ≠ [] := fun hnil => hnone (hlen.symm.trans (congrArg List.length hnil))
    have hroot : c₁.count r = (A ++ B).length := by rw [← hr]; exact hlen
    have hmany : 1 < t.height → c₁.count r ≠ 1 := fun htall h1 => hone ⟨hroot ▸ h1, htall⟩
    refine ⟨_, Runs.bind hrun (Runs.bind (Runs.get _) (Runs.of_pos rfl (Runs.of_neg hnone (Runs.of_neg hone
      (Runs.pure _ _))))), hback (hlack.stays hne (k := k) (fun _ hk => ?_) (.root (hr ▸ hne) hmany))⟩
    refine hlack.kept hk (fun i hi => absurd hi (Nat.not_lt_zero i)) fun _ htall => ?_
    have := hmany htall
    omega

/-- A pair taken out of a node below the root, if pairs can be taken out of the level above. -/
theorem deleteAt_below {rungs : Nat} (htake : Takes w (fun k l => Tree.deleteAt rungs k l) d)
    (ht : Taking t c r (d + 1) rest h k A e B late) (hpairs : 2 ≤ t.pairs) (hexact : t.height - (d + 1) = 1 → e.1 = k) :
    ∃ t', Runs (Tree.deleteAt (rungs + 1) (Words.ofNat w.words k) (t.height - (d + 1))) t (some e.2) t' ∧
      Left t (Function.update c h (A ++ B)) r (d + 1) rest late
        (Slack · t.height rest (Function.update c h (A ++ B)) r (d + 1) h)
        (Mends t.pairs (t.height - (d + 1)) (c.trail k r (d + 1)) (Function.update c h (A ++ B))) t' := by
  have hheight := ht.stand.height
  have hsound := ht.stand.sound (d + 1) rfl
  have hoff := hsound.update_off ht.node (A ++ B)
  obtain ⟨p, hrun, hedits, hlack⟩ := ht.takePair (show t.height - (d + 1) + (d + 1) = t.height by omega) hexact
  have hroute : Rows.route (Function.update c h (A ++ B)) k r (d + 1) = some h := by
    rw [route_congr hoff]
    exact ht.route
  have htrail : Rows.trail (Function.update c h (A ++ B)) k r (d + 1) = c.trail k r (d + 1) :=
    trail_congr fun i hi => land_congr fun j hj => hoff j (by omega)
  obtain ⟨c₁, hc₁⟩ : ∃ c₁ : Rows, Function.update c h (A ++ B) = c₁ := ⟨_, rfl⟩
  have hself : c₁ h = A ++ B := by rw [← hc₁, Function.update_self]
  have hlen := congrArg List.length hself
  rw [hc₁] at hlack hroute htrail ⊢
  have hnot : ¬t.height - (d + 1) = t.height := by omega
  have hmin : t.geometry.minFill = t.pairs / 2 := rfl
  -- only a node that fell below half is repaired, and the repair takes a pair out of the level above
  by_cases hshort : (A ++ B).length < t.geometry.minFill
  · obtain ⟨t', hrun', hleft⟩ := repair_spec htake hlack hroute ht.small (by rwa [hlen]) hpairs
    rw [hlen] at hrun'
    rw [htrail] at hleft
    exact ⟨t', Runs.bind hrun (Runs.bind (Runs.get _) (Runs.of_neg hnot (Runs.bind (Runs.get _) (Runs.of_pos hshort
      (Runs.bind hrun' (Runs.pure _ _)))))), hleft.of_pool hedits.fades hedits.live⟩
  · have hhalf : t.pairs / 2 ≤ c₁.count h := by
      change t.pairs / 2 ≤ (c₁ h).length
      omega
    have hne : c₁ h ≠ [] := fun hnil => by
      rw [hnil, List.length_nil] at hlen
      omega
    refine ⟨_, Runs.bind hrun (Runs.bind (Runs.get _) (Runs.of_neg hnot (Runs.bind (Runs.get _) (Runs.of_neg hshort
      (Runs.pure _ _))))), Left.of_pool (hlack.stays hne (k := k) (fun hr hk => hlack.kept_half hr hk hhalf) ?_)
      hedits.fades hedits.live⟩
    obtain ⟨o, ho, -⟩ := Option.bind_eq_some_iff.mp ht.land
    obtain ⟨path, hpath⟩ := exists_trail ho
    rw [htrail, trail_succ ht.land, hpath]
    exact .half hne hhalf

/-- A pair can be taken out of any level. -/
theorem takes_deleteAt (w : Width) (d : Nat) : Takes w (fun k l => Tree.deleteAt (d + 1) k l) d := by
  induction d with
  | zero => exact fun ht _ hexact => deleteAt_root ht hexact
  | succ d ih => exact fun ht hpairs hexact => deleteAt_below ih ht hpairs hexact

end Levels
end MemoTree
