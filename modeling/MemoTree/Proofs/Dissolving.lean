import MemoTree.Proofs.Lacking

/-! # Nodes that go

A node that is left short goes, or its neighbour does: it loses its slot, and its pairs, if it has any, go to the
neighbour in front of it (`Dissolves`). Keys that led to it lead to that neighbour then, and the level below is the
same. Rules on the sizes of siblings hold then below the parent and below the neighbour, if removals keep them. -/

namespace MemoTree
open Pool NodePool Rows

/-- A node `q` of the level `d + 1` loses its slot, and its pairs are appended to those of `f`. -/
structure Dissolves (c c' : Rows) (r : Handle) (d : Nat) (q f : Handle) : Prop where
  level : (c.level r (d + 1)).Perm (q :: c'.level r (d + 1))
  rows : ∀ i ∈ c'.level r (d + 1), c' i = if i = f then c i ++ c q else c i
  home : c q ≠ [] → f ∈ c'.level r (d + 1)
  above : ∀ x, c q ≠ [] → c.route x r (d + 1) = some q → ∀ a ∈ c f, x < a.1
  route : ∀ x i, c.route x r (d + 1) = some i → i ≠ q → c'.route x r (d + 1) = some i
  route_self : ∀ x, c q ≠ [] → c.route x r (d + 1) = some q → c'.route x r (d + 1) = some f

namespace Dissolves
variable {c c' : Rows} {r q f h i : Handle} {d x : Nat} {rest : Handle → Prop}

theorem mem (hd : Dissolves c c' r d q f) (hi : i ∈ c'.level r (d + 1)) : i ∈ c.level r (d + 1) :=
  hd.level.mem_iff.mpr (List.mem_cons_of_mem q hi)

theorem nodup (hd : Dissolves c c' r d q f) (hn : (c.level r (d + 1)).Nodup) :
    q ∉ c'.level r (d + 1) ∧ (c'.level r (d + 1)).Nodup := List.nodup_cons.mp (hd.level.nodup_iff.mp hn)

/-- What is put aside while the slot is taken out. -/
theorem aside (hd : Dissolves c c' r d q f) :
    (fun i => rest i ∨ i ∈ c.level r (d + 1)) = Aside c' r (d + 1) rest q := by
  funext i
  rw [Aside, hd.level.mem_iff, List.mem_cons, or_comm (a := i = q), or_assoc]

theorem pairs (hd : Dissolves c c' r d q f) (hn : (c.level r (d + 1)).Nodup) :
    (c'.pairs r (d + 1)).Perm (c.pairs r (d + 1)) := by
  have hrows : ∀ l : List Handle, f ∉ l → (∀ i ∈ l, i ∈ c'.level r (d + 1)) → l.flatMap c' = l.flatMap c :=
    fun l hf hl => List.flatMap_congr fun i hi => by
      rw [hd.rows i (hl i hi), if_neg]
      rintro rfl
      exact hf hi
  refine List.Perm.symm ((hd.level.flatMap_right c).trans ?_)
  rw [List.flatMap_cons, Rows.pairs]
  -- only a node that has pairs needs a neighbour that takes them
  by_cases hf : f ∈ c'.level r (d + 1)
  · obtain ⟨S, T, hST⟩ := List.append_of_mem hf
    have hnodup := (hd.nodup hn).2
    rw [hST, List.nodup_middle, List.nodup_cons, List.mem_append, not_or] at hnodup
    have hS := hrows S hnodup.1.1 fun i hi => by rw [hST]; exact List.mem_append_left _ hi
    have hT := hrows T hnodup.1.2 fun i hi => by rw [hST]; exact List.mem_append_right _ (List.mem_cons_of_mem f hi)
    rw [hST, List.flatMap_append, List.flatMap_append, List.flatMap_cons, List.flatMap_cons, hS, hT, hd.rows f hf,
      if_pos rfl]
    have hperm := List.perm_append_comm_assoc (c q) (S.flatMap c ++ c f) (T.flatMap c)
    simpa only [List.append_assoc] using hperm
  · have hnil : c q = [] := by
      by_contra hne
      exact hf (hd.home hne)
    rw [hnil, List.nil_append, hrows _ hf fun _ hi => hi]

theorem level_below (hd : Dissolves c c' r d q f) (hn : (c.level r (d + 1)).Nodup) :
    (c'.level r (d + 1 + 1)).Perm (c.level r (d + 1 + 1)) := by
  rw [level_eq_children, level_eq_children]
  exact (hd.pairs hn).filterMap Pair.child

theorem scan_append (hd : Dissolves c c' r d q f) {e : Pair} (hi : i ∈ c'.level r (d + 1))
    (he : (c i).scan x = some e) : (c' i).scan x = some e := by
  rw [hd.rows i hi]
  split
  · rw [Row.scan_append, he, Option.some_or]
  · exact he

theorem route_below (hd : Dissolves c c' r d q f) (hr : c.route x r (d + 1 + 1) = some i) :
    c'.route x r (d + 1 + 1) = some i := by
  obtain ⟨j, hj, hl⟩ := Option.bind_eq_some_iff.mp hr
  obtain ⟨e, he, hei⟩ := look_eq_some.mp hl
  by_cases hjq : j = q
  · subst hjq
    have hne : c j ≠ [] := List.ne_nil_of_mem (Row.mem_of_scan he)
    have hf := hd.home hne
    rw [route_succ, hd.route_self x hne hj]
    refine look_eq_some.mpr ⟨e, ?_, hei⟩
    -- a scan passes the pairs of `f`, which are all above `x`
    rw [hd.rows f hf, if_pos rfl, Row.scan_append, Row.scan_eq_none.mpr (hd.above x hne hj), Option.none_or, he]
  · have hr' := hd.route x j hj hjq
    rw [route_succ, hr']
    exact look_eq_some.mpr ⟨e, hd.scan_append (mem_level_of_route hr') he, hei⟩

theorem routed (hd : Dissolves c c' r d q f) (hn : (c.level r (d + 1)).Nodup)
    (hroute : ∀ i ∈ c.level r (d + 1), ∀ e ∈ c i, c.route e.1 r (d + 1) = some i) (hi : i ∈ c'.level r (d + 1))
    {e : Pair} (he : e ∈ c' i) : (∃ j ∈ c.level r (d + 1), e ∈ c j) ∧ c'.route e.1 r (d + 1) = some i := by
  have hiq : i ≠ q := by
    rintro rfl
    exact (hd.nodup hn).1 hi
  have hold : e ∈ c i → (∃ j ∈ c.level r (d + 1), e ∈ c j) ∧ c'.route e.1 r (d + 1) = some i := fun he =>
    ⟨⟨i, hd.mem hi, he⟩, hd.route e.1 i (hroute i (hd.mem hi) e he) hiq⟩
  rw [hd.rows i hi] at he
  split at he
  · rename_i hif
    rcases List.mem_append.mp he with he | he
    · exact hold he
    · have hq : q ∈ c.level r (d + 1) := hd.level.mem_iff.mpr List.mem_cons_self
      rw [hif]
      exact ⟨⟨q, hq, he⟩, hd.route_self e.1 (List.ne_nil_of_mem he) (hroute q hq e he)⟩
  · exact hold he

theorem descending (hd : Dissolves c c' r d q f) (hdesc : ∀ i ∈ c.level r (d + 1), (c i).Descending)
    (hroute : ∀ i ∈ c.level r (d + 1), ∀ e ∈ c i, c.route e.1 r (d + 1) = some i) (hi : i ∈ c'.level r (d + 1)) :
    (c' i).Descending := by
  have hq : q ∈ c.level r (d + 1) := hd.level.mem_iff.mpr List.mem_cons_self
  rw [hd.rows i hi]
  split
  · rename_i hif
    rw [hif] at hi ⊢
    exact (hdesc f (hd.mem hi)).append (hdesc q hq) fun a ha b hb =>
      hd.above b.1 (List.ne_nil_of_mem hb) (hroute q hq b hb) a ha
  · exact hdesc i (hd.mem hi)

end Dissolves

/-! ### Taking a slot out of a parent -/

/-- The parent `o` loses the slot of `q`, whose pairs are appended to those of `f`, its child in front of `q`. -/
structure Unslots (c c' : Rows) (o q f : Handle) : Prop where
  other : ∀ i, i ≠ o → i ≠ f → c' i = c i
  gives : c' f = c f ++ c q
  count : c'.count o + 1 = c.count o
  kids : ∃ X Y, c.kids o = X ++ q :: Y ∧ c'.kids o = X ++ Y ∧ (c q ≠ [] → ∃ X', X = X' ++ [f])
  look : ∀ x i, c.look x o = some i → i ≠ q → c'.look x o = some i
  look_self : ∀ x, c q ≠ [] → c.look x o = some q → c'.look x o = some f ∧ ∀ a ∈ c f, x < a.1

section Slots
variable {w : Width} {c c' : Rows} {r o q f i : Handle} {d x bound : Nat}

theorem Sound.ne_of_level {k : Handle} {j : Nat} (hs : Sound bound c r (d + 1)) (hj : j ≤ d) (hi : i ∈ c.level r j)
    (hk : k ∈ c.level r (d + 1)) : i ≠ k := by
  rintro rfl
  have := level_unique hs.nodup (by omega) (Nat.le_refl _) hi hk
  omega

theorem Unslots.off (hu : Unslots c c' o q f) (hs : Sound bound c r (d + 1)) (hf : f ∈ c.level r (d + 1)) :
    ∀ j ≤ d, ∀ i ∈ c.level r j, i ≠ o → c' i = c i := fun _ hj i hi hio => hu.other i hio (hs.ne_of_level hj hi hf)

theorem Unslots.up (hu : Unslots c c' o q f) (hs : Sound bound c r (d + 1)) (ho : o ∈ c.level r d)
    (hf : f ∈ c.level r (d + 1)) : ∀ j < d, ∀ i ∈ c.level r j, c' i = c i := fun j hj i hi =>
  hu.off hs hf j (Nat.le_of_lt hj) i hi fun hio => by
    have := level_unique hs.nodup (by omega) (by omega) (hio ▸ hi) ho
    omega

theorem Unslots.dissolves (hu : Unslots c c' o q f) (hs : Sound bound c r (d + 1)) (ho : o ∈ c.level r d)
    (hf : f ∈ c.level r (d + 1)) : Dissolves c c' r d q f := by
  have hoff := hu.off hs hf
  have hup := hu.up hs ho hf
  obtain ⟨X, Y, hkids, hkids', hhome⟩ := hu.kids
  have hqo : q ∈ c.kids o := by rw [hkids]; exact List.mem_append_right X List.mem_cons_self
  have hlevel : (c.level r (d + 1)).Perm (q :: c'.level r (d + 1)) := by
    -- only the children of `o` change, in one place of the level
    obtain ⟨S, T, hST⟩ := List.append_of_mem ho
    have hn := hs.nodup_level (Nat.le_succ d)
    rw [hST, List.nodup_middle, List.nodup_cons, List.mem_append, not_or] at hn
    have hsame : ∀ l : List Handle, o ∉ l → (∀ i ∈ l, i ∈ c.level r d) → l.flatMap c'.kids = l.flatMap c.kids :=
      fun l hl hmem => List.flatMap_congr fun i hi => by
        rw [Rows.kids, Rows.kids, hoff d (Nat.le_refl d) i (hmem i hi) (by rintro rfl; exact hl hi)]
    have hS := hsame S hn.1.1 fun i hi => by rw [hST]; exact List.mem_append_left _ hi
    have hT := hsame T hn.1.2 fun i hi => by rw [hST]; exact List.mem_append_right _ (List.mem_cons_of_mem o hi)
    rw [level, level, level_congr hup, hST, List.flatMap_append, List.flatMap_append, List.flatMap_cons,
      List.flatMap_cons, hS, hT, hkids, hkids']
    simp only [List.append_assoc, List.cons_append]
    rw [← List.append_assoc, ← List.append_assoc (S.flatMap c.kids)]
    exact List.perm_middle
  -- a lookup comes through the parent, or through a node with the row and the children it had
  have hparent : ∀ x i, c.route x r (d + 1) = some i → ∃ j, c.route x r d = some j ∧ c'.route x r d = some j ∧
    c.look x j = some i ∧ (j = o ∨ j ≠ o ∧ c' j = c j ∧ i ∉ c.kids o) := fun x i hr => by
    obtain ⟨j, hj, hl⟩ := Option.bind_eq_some_iff.mp hr
    refine ⟨j, hj, by rwa [route_congr hup], hl, ?_⟩
    by_cases hjo : j = o
    · exact Or.inl hjo
    · have hjl := mem_level_of_route hj
      exact Or.inr ⟨hjo, hoff d (Nat.le_refl d) j hjl hjo, fun hi =>
        hjo (hs.parent_unique (Nat.lt_succ_self d) hjl ho (mem_kids_of_step (step_of_look hl)) hi)⟩
  have hself : ∀ x, c q ≠ [] → c.route x r (d + 1) = some q → c'.route x r (d + 1) = some f ∧ ∀ a ∈ c f, x < a.1 :=
    fun x hcq hr => by
      obtain ⟨j, -, hj', hl, rfl | ⟨-, -, hnot⟩⟩ := hparent x q hr
      · obtain ⟨hl', habove⟩ := hu.look_self x hcq hl
        exact ⟨by rw [route_succ, hj']; exact hl', habove⟩
      · exact absurd hqo hnot
  refine ⟨hlevel, fun i hi => ?_, fun hcq => ?_, fun x hcq hr => (hself x hcq hr).2, fun x i hr hiq => ?_,
    fun x hcq hr => (hself x hcq hr).1⟩
  · have hi' := hlevel.mem_iff.mpr (List.mem_cons_of_mem q hi)
    split
    · rename_i hif
      rw [hif]
      exact hu.gives
    · rename_i hif
      exact hu.other i (fun hio => hs.ne_of_level (Nat.le_refl d) ho hi' hio.symm) hif
  · refine mem_level_succ.mpr ⟨o, by rwa [level_congr hup], ?_⟩
    obtain ⟨X', rfl⟩ := hhome hcq
    rw [hkids']
    simp
  · obtain ⟨j, -, hj', hl, rfl | ⟨-, hcj, -⟩⟩ := hparent x i hr
    · rw [route_succ, hj']
      exact hu.look x i hl hiq
    · rw [route_succ, hj']
      change c'.look x j = some i
      rwa [Rows.look, hcj]

/-- Memos that led to the node that goes are about to be not served. -/
theorem Unslots.coherent (hu : Unslots c c' o q f) {p p' : NodePool} {late : List Handle} (hc : Coherent w p c late)
    (hf : Fades p p') (hquiet : c' f = c f ∨ p'.Quiet f) (hof : o ≠ f) : Coherent w p' c' (q :: late) := by
  refine hc.fade hf (fun k hk => Or.inl (List.mem_cons_of_mem q hk)) fun i hi x k hl => ?_
  by_cases hio : i = o
  · subst hio
    by_cases hkq : k = q
    · exact Or.inl (hkq ▸ List.mem_cons_self)
    · exact Or.inr (hu.look x k hl hkq)
  · refine Or.inr ?_
    by_cases hif : i = f
    · subst hif
      rcases hquiet with hsame | hq
      · rwa [Rows.look, hsame]
      · exact absurd hq hi
    · rwa [Rows.look, hu.other i hio hif]

end Slots

/-! ### Sizes of siblings -/

/-- The node `h` is short: it has no pairs and goes, or it is one of two neighbours that are joined and has less than
half of `pairs`. -/
inductive Short (pairs : Nat) (c : Rows) (h q f : Handle) : Prop
  | empty : h = q → c q = [] → Short pairs c h q f
  | joined : h = q ∨ h = f → c f ≠ [] → c q ≠ [] → c.count h < pairs / 2 → Short pairs c h q f

section Sizes
variable {w : Width} {t : Tree w} {c c' : Rows} {r o q f h i : Handle} {d pairs bound : Nat} {rule : Rule}
  {rest : Handle → Prop} {late : List Handle}

theorem Rows.count_pos (hc : c h ≠ []) : 0 < c.count h := List.length_pos_iff.mpr hc

namespace Unslots

theorem count_gives (hu : Unslots c c' o q f) : c'.count f = c.count f + c.count q := by
  rw [Rows.count, hu.gives, List.length_append]
  rfl

/-- Nodes other than the parent and the node that is joined have as many pairs as before, and so has every node if the
one that goes is empty. -/
theorem count_of_ne (hu : Unslots c c' o q f) (hio : i ≠ o) (hif : i = f → c q = []) : c'.count i = c.count i := by
  by_cases h : i = f
  · have hq : c.count q = 0 := congrArg List.length (hif h)
    rw [h, hu.count_gives, hq, Nat.add_zero]
  · exact congrArg List.length (hu.other i hio h)

/-- Nodes that are neither the parent, nor short, nor joined have as many pairs as before. -/
theorem map_count (hu : Unslots c c' o q f) {l : List Handle} (hl : ∀ i ∈ l, i ≠ o ∧ i ≠ h ∧ (i = f → c q = [])) :
    l.map (Function.update c.count h (c.count h + 1)) = l.map c'.count :=
  List.map_congr_left fun i hi => by
    obtain ⟨hio, hih, hif⟩ := hl i hi
    rw [Function.update_of_ne hih, hu.count_of_ne hio hif]

theorem siblings_empty (hu : Unslots c c' o q f) (hn : (c.kids o).Nodup) (ho : o ∉ c.kids o) (hr : rule.Shrinks pairs)
    (hempty : c q = []) (hrule : rule ((c.kids o).map (Function.update c.count q (c.count q + 1)))) :
    rule ((c'.kids o).map c'.count) ∧ ∀ k, c'.kids o = [k] → 2 ≤ c'.count k := by
  obtain ⟨X, Y, hkids, hkids', -⟩ := hu.kids
  rw [hkids] at hn ho hrule
  rw [List.nodup_middle, List.nodup_cons, List.mem_append, not_or] at hn
  simp only [List.mem_append, List.mem_cons, not_or] at ho
  have hX := hu.map_count (h := q) (l := X) fun i hi =>
    ⟨fun hio => ho.1 (hio ▸ hi), fun hiq => hn.1.1 (hiq ▸ hi), fun _ => hempty⟩
  have hY := hu.map_count (h := q) (l := Y) fun i hi =>
    ⟨fun hio => ho.2.2 (hio ▸ hi), fun hiq => hn.1.2 (hiq ▸ hi), fun _ => hempty⟩
  have hone : c.count q + 1 = 1 := congrArg (List.length · + 1) hempty
  rw [List.map_append, List.map_cons, hX, hY, Function.update_self, hone] at hrule
  rw [hkids', List.map_append]
  refine ⟨hr.drop hrule, fun k hk => hr.single hrule ?_⟩
  rw [← List.map_append, hk]
  rfl

theorem siblings_joined (hu : Unslots c c' o q f) (hn : (c.kids o).Nodup) (ho : o ∉ c.kids o) (hr : rule.Shrinks pairs)
    (hside : h = q ∨ h = f) (hcf : c f ≠ []) (hcq : c q ≠ [])
    (hrule : rule ((c.kids o).map (Function.update c.count h (c.count h + 1)))) :
    rule ((c'.kids o).map c'.count) ∧ ∀ k, c'.kids o = [k] → 2 ≤ c'.count k := by
  obtain ⟨X, Y, hkids, hkids', hhome⟩ := hu.kids
  obtain ⟨X, rfl⟩ := hhome hcq
  rw [List.append_assoc, List.singleton_append] at hkids hkids'
  rw [hkids] at hn ho hrule
  simp only [List.nodup_middle, List.nodup_cons, List.mem_append, List.mem_cons, not_or] at hn
  simp only [List.mem_append, List.mem_cons, not_or] at ho
  have hsame : ∀ l : List Handle, o ∉ l → f ∉ l → q ∉ l →
      l.map (Function.update c.count h (c.count h + 1)) = l.map c'.count := fun l hlo hlf hlq =>
    hu.map_count fun i hi => ⟨fun hio => hlo (hio ▸ hi),
      fun hih => hside.elim (fun hhq => hlq (hhq ▸ hih ▸ hi)) fun hhf => hlf (hhf ▸ hih ▸ hi),
      fun hif => absurd (hif ▸ hi) hlf⟩
  rw [List.map_append, List.map_cons, List.map_cons, hsame X ho.1 hn.1.1 hn.2.1.1, hsame Y ho.2.2.2 hn.1.2.2 hn.2.1.2]
    at hrule
  rw [hkids', List.map_append, List.map_cons, hu.count_gives]
  have hf := Rows.count_pos hcf
  have hq := Rows.count_pos hcq
  -- before the removal one of the two neighbours had a pair more
  refine ⟨hr.join hrule hf hq ?_, fun k hk => ?_⟩
  · rcases hside with rfl | rfl
    · exact Or.inl ⟨Function.update_of_ne hn.1.2.1 _ _, Function.update_self _ _ _⟩
    · exact Or.inr ⟨Function.update_self _ _ _, Function.update_of_ne (Ne.symm hn.1.2.1) _ _⟩
  · have hmem : f ∈ [k] := by
      rw [← hk]
      exact List.mem_append_right X List.mem_cons_self
    rw [← List.mem_singleton.mp hmem, hu.count_gives]
    omega

/-- The siblings that are left have sizes as the rule says, and one that is left alone has two pairs at least. -/
theorem siblings (hu : Unslots c c' o q f) (hn : (c.kids o).Nodup) (ho : o ∉ c.kids o) (hr : rule.Shrinks pairs)
    (hs : Short pairs c h q f) (hrule : rule ((c.kids o).map (Function.update c.count h (c.count h + 1)))) :
    rule ((c'.kids o).map c'.count) ∧ ∀ k, c'.kids o = [k] → 2 ≤ c'.count k := by
  cases hs with
  | empty hhq hempty => exact hu.siblings_empty hn ho hr hempty (hhq ▸ hrule)
  | joined hside hcf hcq _ => exact hu.siblings_joined hn ho hr hside hcf hcq hrule

theorem mem_kids_of_short (hu : Unslots c c' o q f) (hs : Short pairs c h q f) : h ∈ c.kids o := by
  obtain ⟨X, Y, hkids, -, hhome⟩ := hu.kids
  have hq : q ∈ c.kids o := by rw [hkids]; simp
  have hf : c q ≠ [] → f ∈ c.kids o := fun hcq => by
    obtain ⟨X', rfl⟩ := hhome hcq
    rw [hkids]
    simp
  cases hs with
  | empty hhq _ => exact hhq ▸ hq
  | joined hside _ hcq _ => exact hside.elim (fun h => h ▸ hq) fun h => h ▸ hf hcq

/-- Above the parent the rule holds for the sizes with the slot that the parent loses. -/
theorem obeys_above (hu : Unslots c c' o q f) (hs : Sound bound c r (d + 1)) (ho : o ∈ c.level r d)
    (hf : f ∈ c.level r (d + 1)) (hh : h ∈ c.level r (d + 1))
    (hobeys : c.Obeys rule (Function.update c.count h (c.count h + 1)) r (d + 1)) :
    c'.Obeys rule (Function.update c'.count o (c'.count o + 1)) r d := by
  refine (hobeys.mono (Nat.le_succ d)).congr (fun i hi p hp => by
    rw [Rows.kids, Rows.kids, hu.up hs ho hf i hi p hp])
    fun i hi k hk => ?_
  rw [Function.update_of_ne (hs.ne_of_level hi hk hh)]
  by_cases hko : k = o
  · rw [hko, Function.update_self, hu.count]
  · rw [Function.update_of_ne hko]
    exact congrArg List.length (hu.off hs hf i hi k hk hko)

/-- Below the nodes of the parent's level the rule holds for the sizes that are left. -/
theorem abides (hu : Unslots c c' o q f) (hs : Sound bound c r (d + 1)) (ho : o ∈ c.level r d)
    (hf : f ∈ c.level r (d + 1)) (hr : rule.Shrinks pairs) (hshort : Short pairs c h q f)
    (habides : c.Abides rule (Function.update c.count h (c.count h + 1)) r d) :
    c'.Abides rule c'.count r d ∧ ∀ k, c'.kids o = [k] → 2 ≤ c'.count k := by
  have hnodup := hs.nodup_level (Nat.le_refl (d + 1))
  have hho := hu.mem_kids_of_short hshort
  have hnot : o ∉ c.kids o := fun h => hs.ne_of_level (Nat.le_refl d) ho (mem_level_succ.mpr ⟨o, ho, h⟩) rfl
  obtain ⟨hrule, hsingle⟩ := hu.siblings (nodup_kids hnodup ho) hnot hr hshort (habides o ho)
  refine ⟨fun p hp => ?_, hsingle⟩
  rw [level_congr (hu.up hs ho hf)] at hp
  by_cases hpo : p = o
  · rwa [hpo]
  · have hold := habides p hp
    rw [hu.map_count fun k hk => ⟨?_, ?_, fun hkf => ?_⟩] at hold
    · rwa [Rows.kids, hu.off hs hf d (Nat.le_refl d) p hp hpo]
    · exact (hs.ne_of_level (Nat.le_refl d) ho (mem_level_succ.mpr ⟨p, hp, hk⟩)).symm
    · rintro rfl
      exact hpo (parent_unique hnodup hp ho hk hho)
    · -- the node that is joined is a child of the parent too
      by_contra hcq
      obtain ⟨X, Y, hkids, -, hhome⟩ := hu.kids
      obtain ⟨X', rfl⟩ := hhome hcq
      exact hpo (parent_unique hnodup hp ho hk (by rw [hkids, hkf]; simp))

end Unslots

/-! ### Rules that hold without a repair -/

namespace Lacking

theorem kept (hl : Lacking t c r d rest h late) (hk : Slack rule t.height rest c r d h)
    (hobeys : c.Obeys rule c.count r d)
    (hroot : d = 0 → 1 < t.height → 2 ≤ c.count r) : Kept rule t.height c r (d + 1) := by
  have hbelow := hl.below
  refine ⟨fun n hn hlt => ?_, fun htall => ?_⟩
  · rcases Nat.lt_or_ge d n with hdn | hnd
    · obtain rfl : n = d + 1 := by omega
      exact hobeys.succ (hk.level hlt)
    · exact hobeys.mono hnd
  · rcases Nat.eq_zero_or_pos d with rfl | hpos
    · exact hroot rfl htall
    · exact hk.root hpos

/-- A node that is half full still may have lost a pair. -/
theorem kept_half (hl : Lacking t c r (d + 1) rest h late) (hr : rule.Shrinks t.pairs)
    (hk : Slack rule t.height rest c r (d + 1) h) (hhalf : t.pairs / 2 ≤ c.count h) :
    Kept rule t.height c r (d + 1 + 1) := by
  refine hl.kept hk (hk.above.one hl.sound.nodup (h := h) (fun _ _ k _ hkh => (Function.update_of_ne hkh _ _).symm)
    fun _ _ _ _ X Y _ hrule => ?_) fun h0 => absurd h0 (Nat.succ_ne_zero d)
  rw [Function.update_self] at hrule
  exact hr.less hrule hhalf

/-- A node that fits to neither neighbour may have lost a pair. -/
theorem kept_stuck (hl : Lacking t c r (d + 1) rest h late) (hr : rule.Shrinks t.pairs)
    (hk : Slack rule t.height rest c r (d + 1) h) (hne : c h ≠ []) (ho : o ∈ c.level r d) {X Y : List Handle}
    (hkids : c.kids o = X ++ h :: Y) (hX : ∀ k ∈ X.getLast?, t.pairs < c.count h + c.count k)
    (hY : ∀ k ∈ Y.head?, t.pairs < c.count h + c.count k) : Kept rule t.height c r (d + 1 + 1) := by
  have hnodup := hl.sound.nodup_level (Nat.le_refl (d + 1))
  refine hl.kept hk (hk.above.one hl.sound.nodup (h := h) (fun _ _ k _ hkh => (Function.update_of_ne hkh _ _).symm)
    fun i hi p hp X' Y' hkids' hrule => ?_) fun h0 => absurd h0 (Nat.succ_ne_zero d)
  have hho : h ∈ c.kids o := by rw [hkids]; simp
  have hhp : h ∈ c.kids p := by rw [hkids']; simp
  -- the parent is the only node with the short one among its children, and has it there once
  obtain rfl : i = d := by
    have := level_unique hl.sound.nodup hi (Nat.le_refl (d + 1)) (mem_level_succ.mpr ⟨p, hp, hhp⟩) hl.node
    omega
  obtain rfl := parent_unique hnodup hp ho hhp hho
  have hn := nodup_kids hnodup ho
  rw [hkids] at hkids' hn
  rw [List.nodup_middle, List.nodup_cons, List.mem_append, not_or] at hn
  obtain ⟨rfl, -, rfl⟩ := (List.append_cons_inj_of_notMem hn.1.1 hn.1.2).mp hkids'
  have hsame : ∀ l : List Handle, h ∉ l → l.map (Function.update c.count h (c.count h + 1)) = l.map c.count :=
    fun l hl => List.map_congr_left fun k hk => Function.update_of_ne (ne_of_mem_of_not_mem hk hl) _ _
  rw [Function.update_self, hsame _ hn.1.1, hsame _ hn.1.2] at hrule
  rw [hsame _ hn.1.1, hsame _ hn.1.2]
  refine hr.stuck hrule (Rows.count_pos hne) (fun m hm => ?_) fun m hm => ?_
  · rw [List.getLast?_map] at hm
    obtain ⟨k, hk, rfl⟩ := Option.mem_map.mp hm
    exact hX k hk
  · rw [List.head?_map] at hm
    obtain ⟨k, hk, rfl⟩ := Option.mem_map.mp hm
    exact hY k hk

end Lacking

/-! ### Rules that hold after a repair -/

/-- The children of two nodes that are joined come together. -/
theorem Lacking.abides_below (hl : Lacking t c r (d + 1) rest h late) (hu : Unslots c c' o q f)
    (hd : Dissolves c c' r d q f) (hshort : Short t.pairs c h q f) (hr : rule.Shrinks t.pairs)
    (hlow : d + 1 + 1 < t.height) (hk : Slack rule t.height rest c r (d + 1) h)
    (hcount : ∀ k ∈ c.level r (d + 1 + 1), c'.count k = c.count k) : c'.Abides rule c'.count r (d + 1) := by
  have hmap : ∀ i ∈ c.level r (d + 1), (c.kids i).map c'.count = (c.kids i).map c.count := fun i hi =>
    List.map_congr_left fun k hk => hcount k (mem_level_succ.mpr ⟨i, hi, hk⟩)
  have hlength : ∀ i ∈ c.level r (d + 1), (c.kids i).length = c.count i := fun i hi =>
    List.filterMap_length_eq_length.mpr fun e he => Option.isSome_iff_exists.mpr (hl.inner hlow i hi e he)
  have hq : q ∈ c.level r (d + 1) := hd.level.mem_iff.mpr List.mem_cons_self
  have habides := hk.level hlow
  intro i hi
  have hic := hd.mem hi
  by_cases hif : i = f
  swap
  · rw [kids, hd.rows i hi, if_neg hif]
    exact (hmap i hic).symm ▸ habides i hic
  subst hif
  -- the node that is joined has its children and then those of `q`
  have hkids : c'.kids i = c.kids i ++ c.kids q := by
    rw [kids, hu.gives, List.filterMap_append]
    rfl
  rw [hkids, List.map_append, hmap i hic, hmap q hq]
  cases hshort with
  | empty _ hempty =>
    have hnil : c.kids q = [] := by rw [kids, hempty, List.filterMap_nil]
    rw [hnil, List.map_nil, List.append_nil]
    exact habides i hic
  | joined hside _ _ hless =>
    have hfew : ∀ j ∈ c.level r (d + 1), h = j → ((c.kids j).map c.count).length < t.pairs / 2 := by
      rintro j hj rfl
      rwa [List.length_map, hlength h hj]
    have hone : ∀ j, h = j → ∀ n, (c.kids j).map c.count = [n] → 2 ≤ n := by
      rintro j rfl n hn
      obtain ⟨k, hkids, rfl⟩ := List.map_eq_singleton_iff.mp hn
      exact hk.single hlow k hkids
    rcases hside with hhq | hhf
    · exact (hr.gather (habides q hq) (habides i hic) (hfew q hq hhq) (hone q hhq)).2
    · exact (hr.gather (habides i hic) (habides q hq) (hfew i hic hhf) (hone i hhf)).1

/-- What a repair asks of the level above follows from what was asked of the level of the short node. -/
theorem Lacking.slack (hl : Lacking t c r (d + 1) rest h late) (hu : Unslots c c' o q f) (ho : o ∈ c.level r d)
    (hf : f ∈ c.level r (d + 1)) (hshort : Short t.pairs c h q f) (hr : rule.Shrinks t.pairs)
    (hk : Slack rule t.height rest c r (d + 1) h) :
    Lifts t c' r (d + 1) rest (Slack · t.height (Aside c' r (d + 1) rest q) c' r d o) rule := by
  have hs := hl.sound
  have hbelow := hl.below
  have hd := hu.dissolves hs ho hf
  have hnodup := hs.nodup_level (Nat.le_refl (d + 1))
  obtain ⟨habides, hsingle⟩ := hu.abides hs ho hf hr hshort (hk.above d (Nat.lt_succ_self d))
  refine ⟨⟨hu.obeys_above hs ho hf hl.node hk.above, fun _ => habides, fun _ => hsingle, fun hpos => ?_,
    fun _ k hk => Or.inl (Or.inr hk)⟩, fun hlow => ⟨?_, fun k hk' => ?_⟩⟩
  · have hroot := List.mem_singleton_self r
    rw [Rows.count, hu.up hs ho hf 0 hpos r hroot]
    exact hk.root (Nat.succ_pos d)
  · refine hl.abides_below hu hd hshort hr hlow hk fun k hk' => ?_
    -- nodes that are put aside are neither on the level nor above it
    have haside := hk.hung hlow k hk'
    refine congrArg List.length (hu.other k ?_ ?_)
    · rintro rfl
      exact hl.upper.apart k (Or.inl haside) (mem_crown.mpr ⟨d, Nat.lt_succ_self d, ho⟩)
    · rintro rfl
      exact hl.apart k haside hf
  · exact hk.hung hlow k ((hd.level_below hnodup).mem_iff.mp hk')

end Sizes
end MemoTree
