import MemoTree.Proofs.Placing

/-! # Linking new nodes

A full node is split by linking the separator of a new node one level up and then moving the pairs with the
larger keys to the new node. What linking asks for is `Linking`, what it leaves is `Linked`: changes from the
separator on that landed in the node that is split land in the new one. Above the root, linking adds a level. -/

namespace MemoTree
open Pool NodePool Rows

/-- What is asked for before a node under the separator `k` is linked next to the full node `h`, `m` levels below the
root: `k` is a key of `h`, and not its smallest one. -/
structure Linking {w : Width} (t : Tree w) (c : Rows) (r : Handle) (m : Nat) (rest : Handle → Prop) (h : Handle)
    (k : Nat) : Prop where
  stand : Stand t c r m rest
  coherent : Coherent w t.pool c []
  below : m < t.height
  sound : Sound (2 ^ w.bits) c r m
  node : h ∈ c.level r m
  aside : ∀ q ∈ c.level r m, rest q
  full : c.count h = t.pairs
  key : ∃ e ∈ c h, e.1 = k
  smaller : ∃ e ∈ c h, e.1 < k

/-- What linking the node `q` leaves. The rules hold for the sizes that the level will have once `q` has its pairs. -/
structure Linked {w : Width} (t : Tree w) (c : Rows) (r : Handle) (m : Nat) (rest : Handle → Prop)
    (h : Handle) (k : Nat) (q : Handle) (t' : Tree w) (c' : Rows) (r' : Handle) (d' : Nat) : Prop where
  alike : Alike t t'
  stand : Stand t' c' r' (d' + 1) rest
  height : t'.height + m = t.height + (d' + 1)
  fades : Fades t.pool t'.pool
  coherent : Coherent w t'.pool c' []
  rest : ∀ h, rest h → c' h = c h
  level : (c'.level r' (d' + 1)).Perm (q :: c.level r m)
  land : ∀ x, c'.land x r' (d' + 1) = if c.land x r m = some h ∧ k ≤ x then some q else c.land x r m
  separator : ∀ i ∈ c'.level r' d', ∀ e ∈ c' i, ∀ j, Pair.child e = some j →
    (j = q → e.1 = k) ∧ (j ≠ q → ∀ a ∈ c j, e.1 ≤ a.1)
  obeys : ∀ {rule : Rule} {size : Handle → Nat}, rule.Grows t.pairs →
    (∀ i ∈ c'.crown r' (d' + 1), size i = c'.count i) →
    Splits t.pairs (c.level r m) h q c.count size → c.Obeys rule c.count r m → c'.Obeys rule size r' (d' + 1)
  root : 2 ≤ c'.count r' ∨ (r' = r ∧ d' + 1 = m ∧ c.count r ≤ c'.count r')
  lives : ∀ i, t.pool.Live i → t'.pool.Live i
  missed : ∀ x, c.land x r m = some h → ∀ i, t.pool.Live i → c.Misses x r m i → c' i = c i

/-- The rules hold above a level that gets a new node if they do for the sizes of the level after that. -/
theorem Inserted.obeys {w : Width} {t t' : Tree w} {c c' : Rows} {r r' h q : Handle} {d d' k : Nat}
    {v : Word} {e : Pair}
    {rest : Handle → Prop} {rule : Rule} {size : Handle → Nat} (hi : Inserted t c r d k v rest t' c' r' d')
    (hg : rule.Grows t.pairs) (hbelow : d + 1 < t.height) (haimed : c.aimed k r d = some e) (hek : e.1 < k)
    (heh : Pair.child e = some h) (hq : Pair.child (k, v) = some q)
    (hsize : ∀ i ∈ c'.crown r' (d' + 1), size i = c'.count i)
    (hs : Splits t.pairs (c.level r (d + 1)) h q c.count size) (ho : c.Obeys rule c.count r (d + 1)) :
    c'.Obeys rule size r' (d' + 1) := by
  have habove := hi.filled.obeys hg (ho.mono (Nat.le_succ d))
  refine Obeys.succ (habove.congr (fun _ _ _ _ => rfl) fun i hi k hk => hsize k (mem_crown.mpr ⟨i, by omega, hk⟩)) ?_
  exact hi.sibling hg hbelow haimed hek heh hq hs (ho d (Nat.lt_succ_self d))

/-- A pair that leads to a node, after the separator of `q` was put in, is that separator or was there before. -/
theorem Inserted.separator_or {w : Width} {t t' : Tree w} {c c' : Rows} {r r' i j q : Handle} {d d' k : Nat} {e : Pair}
    {rest : Handle → Prop} (hi : Inserted t c r d k q.word rest t' c' r' d') (hi' : i ∈ c'.level r' d') (he : e ∈ c' i)
    (hj : Pair.child e = some j) : (e.1 = k ∧ j = q) ∨ ∃ p ∈ c.level r d, e ∈ c p := by
  rcases List.mem_cons.mp (hi.pairs.mem_iff.mp (mem_pairs.mpr ⟨i, hi', he⟩)) with rfl | hmem
  · rw [Pair.child_word, Option.some.injEq] at hj
    exact Or.inl ⟨rfl, hj.symm⟩
  · exact Or.inr (mem_pairs.mp hmem)

namespace Linking
variable {w : Width} {t t' : Tree w} {c c' : Rows} {r r' h q : Handle} {d d' m k : Nat} {rest : Handle → Prop}

theorem small (hl : Linking t c r m rest h k) : k < 2 ^ w.bits := by
  obtain ⟨a, ha, hak⟩ := hl.key
  exact hak ▸ hl.sound.small_level (Nat.le_refl m) hl.node ha

/-- The separator of the node that is split is below the key, in the last node on the path of the key. -/
theorem aimed (hl : Linking t c r (d + 1) rest h k) : ∃ i e, c.route k r d = some i ∧ (c i).scan k = some e ∧
    Pair.child e = some h ∧ e.1 < k := by
  obtain ⟨a, ha, hak⟩ := hl.key
  obtain ⟨b, hb, hbk⟩ := hl.smaller
  have hroute := hl.sound.routed (d + 1) (Nat.le_refl _) h hl.node a ha
  rw [hak] at hroute
  obtain ⟨i, hi, hlook⟩ := Option.bind_eq_some_iff.mp hroute
  obtain ⟨e, he, heh⟩ := look_eq_some.mp hlook
  refine ⟨i, e, hi, he, heh, ?_⟩
  have := hl.sound.separator_le (Nat.lt_succ_self d) (mem_level_of_route hi) (Row.mem_of_scan he) heh hb
  omega

/-- The key is not yet a separator. -/
theorem new (hl : Linking t c r (d + 1) rest h k) {i : Handle} (hi : c.land k r d = some i) : ∀ a ∈ c i, a.1 ≠ k := by
  intro a ha hak
  obtain ⟨i', e, hi', he, -, hek⟩ := hl.aimed
  obtain rfl : i = i' := Option.some.inj (hi.symm.trans (land_of_route hi'))
  have hscan := (hl.sound.descending_level (Nat.le_succ d) (mem_level_of_land hi)).scan_of_mem ha
  rw [hak, he, Option.some.injEq] at hscan
  rw [← hscan] at hak
  omega

/-- A separator put into the level above links the node. -/
theorem linked (hl : Linking t c r (d + 1) rest h k) (hq : q ∉ c.level r (d + 1))
    (hi : Inserted t c r d k q.word rest t' c' r' d') : Linked t c r (d + 1) rest h k q t' c' r' d' where
  alike := hi.alike
  stand := hi.stand
  height := by
    have := hi.height
    omega
  fades := hi.fades
  coherent := hi.coherent
  rest := hi.rest
  level := by
    rw [level_eq_children, level_eq_children]
    have := hi.pairs.filterMap Pair.child
    rwa [List.filterMap_cons_some (Pair.child_word k q)] at this
  land x := by
    obtain ⟨i, e, hroute, he, heh, hek⟩ := hl.aimed
    have hland := land_of_route hroute
    have haimed : c.aimed k r d = some e := aimed_eq_some.mpr ⟨i, hland, Row.aim_of_scan he⟩
    -- `h` hangs under one pair only, so a change lands in `h` exactly if it goes to that pair
    have hiff : c.aimed x r d = some e ↔ c.land x r (d + 1) = some h := by
      constructor
      · intro hx
        rw [land_eq_aimed, hx]
        exact heh
      · intro hx
        rw [land_eq_aimed] at hx
        obtain ⟨e', he', hh'⟩ := Option.bind_eq_some_iff.mp hx
        obtain ⟨i', hi', haim⟩ := aimed_eq_some.mp he'
        have hmem := Row.mem_of_aim haim
        have hii : i' = i := hl.sound.parent_unique (Nat.lt_succ_self d) (mem_level_of_land hi')
          (mem_level_of_land hland) (mem_kids.mpr ⟨e', hmem, hh'⟩) (mem_kids.mpr ⟨e, Row.mem_of_scan he, heh⟩)
        rw [hii] at hmem
        rw [he', hl.sound.slot_unique (Nat.lt_succ_self d) (mem_level_of_land hland) hmem (Row.mem_of_scan he) hh' heh]
    rw [land_eq_aimed, hi.aimed e haimed hek x]
    by_cases hx : c.aimed x r d = some e ∧ k ≤ x
    · rw [if_pos hx, if_pos ⟨hiff.mp hx.1, hx.2⟩, Option.bind_some, Pair.child_word]
    · rw [if_neg hx, if_neg fun hx' => hx ⟨hiff.mpr hx'.1, hx'.2⟩, land_eq_aimed]
  separator i hi' e he j hj := by
    rcases hi.separator_or hi' he hj with ⟨hek, hjq⟩ | ⟨i', hi', he⟩
    · exact ⟨fun _ => hek, fun hne => absurd hjq hne⟩
    · refine ⟨?_, fun _ a ha => hl.sound.separator_le (Nat.lt_succ_self d) hi' he hj ha⟩
      rintro rfl
      exact absurd (mem_level_succ.mpr ⟨i', hi', mem_kids.mpr ⟨e, he, hj⟩⟩) hq
  obeys hg hsize hs ho := by
    obtain ⟨i, e, hroute, he, heh, hek⟩ := hl.aimed
    have haimed : c.aimed k r d = some e := aimed_eq_some.mpr ⟨i, land_of_route hroute, Row.aim_of_scan he⟩
    exact hi.obeys hg hl.below haimed hek heh (Pair.child_word k q) hsize hs ho
  root := by
    rcases hi.filled.root with h | ⟨rfl, rfl, hle⟩
    · exact Or.inl h
    · exact Or.inr ⟨rfl, rfl, hle⟩
  lives := hi.lives
  missed x hx i hlive hm := by
    -- the separator and `x` come by the same nodes
    obtain ⟨j, e, hroute, he, heh, -⟩ := hl.aimed
    have hk : c.land k r (d + 1) = some h := by
      rw [land_succ, land_of_route hroute]
      exact step_of_look (look_eq_some.mpr ⟨e, he, heh⟩)
    refine hi.missed i hlive fun n hn => ?_
    rw [hl.sound.land_unique (Nat.le_refl _) hk hx (Nat.le_of_lt hn)]
    exact hm n hn

end Linking

/-! ### Adding a level -/

/-- Above the root there are no nodes. -/
theorem Linking.of_live {w : Width} {t : Tree w} {c : Rows} {r h i : Handle} {k : Nat} {rest : Handle → Prop}
    (hl : Linking t c r 0 rest h k) (hi : t.pool.Live i) : rest i :=
  ((hl.stand.live i).mp hi).resolve_left (List.not_mem_nil)

section Growth
variable {w : Width} {t : Tree w} {c : Rows} {r h q : Handle} {k : Nat} {rest : Handle → Prop}

/-- The last key of a descending row is its smallest. -/
theorem le_of_concat {A : Row} {e a : Pair} (hd : (A ++ [e]).Descending) (ha : a ∈ A ++ [e]) : e.1 ≤ a.1 := by
  rcases List.mem_append.mp ha with ha | ha
  · exact Nat.le_of_lt (hd.of_append.2.2 a ha e (List.mem_singleton_self e))
  · rw [List.mem_singleton.mp ha]

/-- Adding a level above the root puts the old root under its smallest key. -/
theorem addLevel_spec (hl : Linking t c r 0 rest h k) (hfits : 8 * t.geometry.slotWords ≤ addressable)
    (hpairs : 2 ≤ t.pairs) :
    (∃ inUse, Runs Tree.addLevel t (.error (.outOfMemory inUse)) t ∧ Exhausted t.pool inUse) ∨
    ∃ p top s, Runs Tree.addLevel t (.ok ()) { t with pool := p, root := some top, height := t.height + 1 } ∧
      Stand ({ t with pool := p, root := some top, height := t.height + 1 } : Tree w)
        (Function.update c top [(s, r.word)]) top 1 rest ∧
      Fades t.pool p ∧ p.Quiet top ∧ ¬rest top ∧ s < k ∧ ∀ a ∈ c r, s ≤ a.1 := by
  have hr : h = r := List.mem_singleton.mp hl.node
  have hrest : rest r := hl.aside r (List.mem_singleton_self r)
  have hrlive : t.pool.Live r := (hl.stand.live r).mpr (Or.inr hrest)
  obtain ⟨b, hb, hbk⟩ := hl.smaller
  rw [hr] at hb
  rcases hl.stand.stock.allocate hfits with ⟨inUse, hrun, hex⟩ | ⟨top, p, hrun, hhands, hs⟩
  · exact Or.inl ⟨inUse, Runs.bind (Runs.onNodes hrun) (Runs.pure _ _), hex⟩
  right
  have htop : r ≠ top := by
    rintro rfl
    exact hhands.unused hrlive
  obtain ⟨A, e, hrow⟩ : ∃ A e, c r = A ++ [e] := by
    rcases List.eq_nil_or_concat (c r) with hnil | ⟨A, e, hrow⟩
    · rw [hnil] at hb
      cases hb
    · exact ⟨A, e, by rw [hrow, List.concat_eq_append]⟩
  have hdesc := hl.sound.descending_level (Nat.zero_le 0) (List.mem_singleton_self r)
  have hmin : ∀ a ∈ c r, e.1 ≤ a.1 := fun a ha => by
    rw [hrow] at hdesc ha
    exact le_of_concat hdesc ha
  have hsmall : e.1 < 2 ^ w.bits := hl.sound.small_level (Nat.zero_le 0) (List.mem_singleton_self r)
    (by rw [hrow]; simp)
  have hlive := hhands.live
  -- the last key of the old root is read off `n`, and the new root `n'` gets a pair for it
  obtain ⟨n, hn, hpacks⟩ := hs.node ((hlive r).mpr (Or.inl hrlive))
  rw [Function.update_of_ne htop, hrow] at hpacks
  obtain ⟨n', hn', hpacks'⟩ := hs.node ((hlive top).mpr (Or.inr rfl))
  rw [Function.update_self] at hpacks'
  obtain ⟨words, hwrite, hpacks''⟩ := hpacks'.writePair_first (by show 0 < t.pairs; omega)
    (Nat.lt_of_lt_of_le hsmall (Key.pow_bits_le w)) r.word_ne_zero
  have hedits := Edits.of_words hn' words
  have hs' := hs.write hn' hpacks''
  rw [Function.update_idem] at hs'
  have hnot : ¬rest top := fun hrt => hhands.unused ((hl.stand.live top).mpr (Or.inr hrt))
  have hlive' : ∀ i, (p.put top { n' with words := words }).Live i ↔ i = top ∨ rest i := fun i => by
    rw [hedits.live, hlive, hl.stand.live, crown, or_comm]
    simp
  refine ⟨p.put top { n' with words := words }, top, e.1, ?_,
    Stand.of_root rfl (Nat.succ_pos t.height) hs' (Function.update_self _ _ _) hlive' hnot hsmall
      (fun _ => ⟨r, Pair.child_word e.1 r⟩) (fun hlow => ?_), (Fades.of_hands hhands).trans hedits.fades, ?_,
      hnot, ?_, hmin⟩
  · have hfill := hpacks.fill_eq
    have hkey : n.key t.geometry ((A ++ [e]).length - 1) = .ok (Words.ofNat t.geometry.keyLength e.1) :=
      hpacks.key_eq (by simp)
    refine Runs.bind (Runs.onNodes hrun) (Runs.bind (Runs.get _) ?_)
    rw [show ({ t with pool := p } : Tree w).root = some r from hl.stand.root]
    exact Runs.bind (Runs.get _) (Runs.bind (Runs.onNodes (Runs.bind (Runs.read hn) (Runs.bind (Runs.lift hfill _)
      (Runs.of_neg (by simp) (Runs.bind (Runs.lift hkey _) (Runs.update hn' hwrite))))))
      (Runs.bind (Runs.modify _ _) (Runs.bind (Runs.get _) (Runs.bind (Runs.report _ _) (Runs.pure _ _)))))
  · have := hl.below
    change 1 = t.height + 1 at hlow
    omega
  · refine hedits.fades.quiet fun x hx => ?_
    rw [hhands.clean] at hx
    cases hx
    exact Ring.memos_empty
  · have := hmin b hb
    omega

/-- Every change goes to the only pair of the new root. -/
theorem aimed_addLevel (c : Rows) (top r : Handle) (s x : Nat) :
    Rows.aimed (Function.update c top [(s, r.word)]) x top 0 = some (s, r.word) := by
  refine aimed_eq_some.mpr ⟨top, rfl, ?_⟩
  rw [Function.update_self, Row.aim]
  by_cases hx : s ≤ x
  · rw [Row.scan_cons_of_le hx, Option.some_or]
  · rw [Row.scan_cons_of_lt (show x < ((s, r.word) : Pair).1 by simpa using hx), Row.scan_nil, Option.none_or]
    rfl

/-- The pair of a new node put above the root links it. -/
theorem Linking.linked_above (hl : Linking t c r 0 rest h k) (hq : q ≠ r) {p : NodePool} {top r' : Handle}
    {s d' : Nat} {t' : Tree w}
    {c' : Rows} (hf : Fades t.pool p) (htop : ¬rest top) (hs : s < k) (hmin : ∀ a ∈ c r, s ≤ a.1)
    (hi : Inserted ({ t with pool := p, root := some top, height := t.height + 1 } : Tree w)
      (Function.update c top [(s, r.word)]) top 0 k q.word rest t' c' r' d') :
    Linked t c r 0 rest h k q t' c' r' d' where
  alike := ⟨hi.alike.len, hi.alike.pairs, hi.alike.memoize, hi.alike.hooks⟩
  stand := hi.stand
  height := by
    have : t'.height + 0 = t.height + 1 + d' := hi.height
    omega
  fades := hf.trans hi.fades
  coherent := hi.coherent
  rest i hri := by
    rw [hi.rest i hri, Function.update_of_ne]
    rintro rfl
    exact htop hri
  level := by
    rw [level_eq_children]
    have := hi.pairs.filterMap Pair.child
    rw [List.filterMap_cons_some (Pair.child_word k q)] at this
    refine this.trans (List.Perm.cons q ?_)
    rw [pairs_zero, Function.update_self, List.filterMap_cons_some (Pair.child_word s r)]
    exact List.Perm.refl _
  land x := by
    have haimed := aimed_addLevel c top r s
    rw [land_eq_aimed, hi.aimed (s, r.word) (haimed k) hs x, haimed x, List.mem_singleton.mp hl.node]
    by_cases hx : k ≤ x
    · rw [if_pos ⟨rfl, hx⟩, if_pos ⟨rfl, hx⟩, Option.bind_some, Pair.child_word]
    · rw [if_neg fun h => hx h.2, if_neg fun h => hx h.2, Option.bind_some, Pair.child_word]
      rfl
  separator i hi' e he j hj := by
    rcases hi.separator_or hi' he hj with ⟨hek, hjq⟩ | ⟨i', hi', he⟩
    · exact ⟨fun _ => hek, fun hne => absurd hjq hne⟩
    · rw [List.mem_singleton.mp hi', Function.update_self, List.mem_singleton] at he
      subst he
      rw [Pair.child_word, Option.some.injEq] at hj
      subst hj
      exact ⟨fun hrq => absurd hrq.symm hq, fun _ => hmin⟩
  obeys hg hsize hsplits ho := by
    -- the rules held for a root without siblings; now they are asked of it as the only child of `top`
    obtain rfl := List.mem_singleton.mp hl.node
    have hrow : Function.update c top [(s, h.word)] top = [(s, h.word)] := Function.update_self _ _ _
    have hh : Function.update c top [(s, h.word)] h = c h := by
      rw [Function.update_of_ne]
      rintro rfl
      exact htop (hl.aside h hl.node)
    have hkids : Rows.kids (Function.update c top [(s, h.word)]) top = [h] := by
      rw [kids, hrow, List.filterMap_cons_some (Pair.child_word s h), List.filterMap_nil]
    have hlevel : Rows.level (Function.update c top [(s, h.word)]) top 1 = c.level h 0 := by
      rw [level, level, level, List.flatMap_singleton, hkids]
    refine hi.obeys hg (by have := hl.below; change 0 + 1 < t.height + 1; omega) (aimed_addLevel c top h s k) hs
      (Pair.child_word s h) (Pair.child_word k q) hsize ?_ fun i hi p hp => ?_
    · rw [hlevel]
      exact { hsplits with
        full := by rw [count, hh]; exact hsplits.full
        other := fun i hi hne => absurd (List.mem_singleton.mp hi) hne }
    · -- the only child of the new root is the full node
      obtain rfl : i = 0 := by omega
      rw [List.mem_singleton.mp hp, hkids, List.map_singleton, count, hh, show (c h).length = t.pairs from hl.full]
      exact hg.alone
  root := by
    rcases hi.filled.root with h | ⟨rfl, rfl, -⟩
    · exact Or.inl h
    · refine Or.inl (Nat.le_of_eq ?_)
      have hlength := hi.pairs.length_eq
      rw [pairs_zero, pairs_zero, Function.update_self] at hlength
      exact hlength.symm
  lives i hlive := (hi.stand.live i).mpr (Or.inr (hl.of_live hlive))
  missed _ _ i hlive _ := by
    have hri := hl.of_live hlive
    rw [hi.rest i hri, Function.update_of_ne]
    rintro rfl
    exact htop hri

end Growth
end MemoTree
