import MemoTree.Proofs.Abreast
import MemoTree.Proofs.Recall

/-! # What trees abreast have in common

In trees abreast that hold their pairs in order, every node of the one has a mate on the same level of the other
(`Abreast.mate`), and mates hold pairs with the same keys (`Akin.pair`). So a key is found in mates, in the same slot,
whether or not memos were used on the way, and an update changes the same value. After a removal the mates that are
still in the trees can be told from those that are not (`Abreast.revive`). -/

namespace MemoTree
open Pool NodePool Rows

section Nodes
variable {g : Geometry} {V : Word → Word → Prop} {base : Node × Node} {n n' : Node} {row row' : Row}
    {i : Nat} {e : Pair}
  {v : Word}

/-- A used value word is that of a pair. -/
theorem Packs.getElem?_of_value {words : Array Word} (hp : Packs g words row) (hv : words[g.keyRegion + i]? = some v)
    (h0 : v ≠ 0) : ∃ e, row[i]? = some e ∧ e.2 = v := by
  have hi : i < g.pairs := by
    have hlt := (Array.getElem?_eq_some_iff.mp hv).1
    rw [hp.lays.size, Geometry.slotWords] at hlt
    omega
  obtain ⟨s, hs⟩ := hp.lays.exists_slot hi
  have hsv := hp.lays.value i s hs
  rw [hv, Option.some.injEq] at hsv
  rcases Nat.lt_or_ge i row.length with hlt | hge
  · rw [List.getElem?_append_left hlt] at hs
    exact ⟨s, hs, hsv.symm⟩
  · rw [Packs.free_slot hge hi] at hs
    cases hs
    exact absurd hsv h0

/-- Nodes that look alike hold pairs with the same keys and matching values. -/
theorem Akin.pair (hk : Akin g V base n n') (hV : Matches V) (hp : Packs g n.words row) (hp' : Packs g n'.words row')
    (he : row[i]? = some e) : ∃ e', row'[i]? = some e' ∧ e'.1 = e.1 ∧ V e.2 e'.2 := by
  have hlen := (List.getElem?_eq_some_iff.mp he).1
  have hi : i < g.pairs := Nat.lt_of_lt_of_le hlen hp.length_le
  have hv : n.words[g.keyRegion + i]? = some e.2 := hp.lays.value i e (Packs.used_slot he)
  obtain ⟨v', hv'⟩ : ∃ v', n'.words[g.keyRegion + i]? = some v' :=
    ⟨_, Array.getElem?_eq_getElem (by rw [hk.sizes.2, Geometry.slotWords]; omega)⟩
  have hvv := hk.value i e.2 v' hv hv'
  obtain ⟨e', he', rfl⟩ := hp'.getElem?_of_value hv' fun h0 =>
    hp.used e (List.mem_of_getElem? he) ((hV.used hvv).mpr h0)
  have hkey := hk.key_eq hi
  rw [hp.key_eq he, hp'.key_eq he', Except.ok.injEq] at hkey
  exact ⟨e', he', Words.ofNat_inj (hp'.small (List.mem_of_getElem? he')) (hp.small (List.mem_of_getElem? he)) hkey, hvv⟩

theorem Spares.of_recalls {p p' : NodePool} (hr : Recalls p p') : Spares p p' where
  size := hr.size
  words k n hn := by
    obtain ⟨n', hn', hw, -⟩ := hr.block k n hn
    exact ⟨n', hn', hw⟩
  blockWords := hr.blockWords

end Nodes

namespace Abreast
variable {w : Width} {g : Geometry} {φ : Mates} {alive : Prop} {m d i : Nat} {t u : Tree w} {c c' : Rows}
    {r r' h h' : Handle}

theorem geometry_eq (ha : Abreast g φ alive m t u) (hr : Rooted t c r) (hr' : Rooted u c' r') :
    Stock g t.pool c ∧ Stock g u.pool c' := by
  have hs := hr.stand.stock
  have hs' := hr'.stand.stock
  rw [ha.geometry.1] at hs
  rw [ha.geometry.2] at hs'
  exact ⟨hs, hs'⟩

/-- Mates that are in use hold pairs with the same keys and matching values. -/
theorem pair (ha : Abreast g φ alive m t u) (hr : Rooted t c r) (hr' : Rooted u c' r') (hh : φ i h h')
    (hlive : t.pool.Live h) (hlive' : u.pool.Live h') {j : Nat} {e : Pair} (he : (c h)[j]? = some e) :
    ∃ e', (c' h')[j]? = some e' ∧ e'.1 = e.1 ∧ φ.Same i e.2 e'.2 := by
  obtain ⟨hs, hs'⟩ := ha.geometry_eq hr hr'
  obtain ⟨n, n', hn, hn', hk⟩ := ha.twins.akin hh
  exact hk.pair (φ.matches_same i) (hs.packs h n hn hlive) (hs'.packs h' n' hn' hlive') he

/-- Every node has a mate on the same level. -/
theorem mate (ha : Abreast g φ alive m t u) (hr : Rooted t c r) (hr' : Rooted u c' r') (hi : 0 < i) (hd : d + i = m)
    (hh : h ∈ c.level r d) : ∃ h' ∈ c'.level r' d, φ i h h' := by
  have hheight := ha.height
  induction d generalizing i h with
  | zero =>
    obtain rfl := List.mem_singleton.mp hh
    obtain rfl : i = m := by omega
    rcases ha.roots with ⟨hnone, -⟩ | ⟨_, _, hsome, hsome', hφ⟩
    · rw [hr.stand.root] at hnone
      cases hnone
    · rw [hr.stand.root] at hsome
      rw [hr'.stand.root] at hsome'
      cases hsome
      cases hsome'
      exact ⟨_, List.mem_singleton_self _, hφ⟩
  | succ d ih =>
    obtain ⟨k, hk, hkid⟩ := mem_level_succ.mp hh
    obtain ⟨k', hk', hφ⟩ := ih (Nat.succ_pos i) (by omega) hk
    obtain ⟨e, he, hchild⟩ := mem_kids.mp hkid
    obtain ⟨j, hj⟩ := List.mem_iff_getElem?.mp he
    obtain ⟨e', he', -, hsame⟩ := ha.pair hr hr' hφ (hr.live_level (by omega) hk) (hr'.live_level (by omega) hk') hj
    obtain ⟨-, hrel⟩ := (Mates.same_inner hi).mp hsame
    rw [show Handle.ofWord? e.2 = some h from hchild] at hrel
    generalize hword : Handle.ofWord? e'.2 = o at hrel
    obtain ⟨hφ'⟩ := hrel
    exact ⟨_, mem_level_succ.mpr ⟨k', hk', mem_kids.mpr ⟨e', List.mem_of_getElem? he', hword⟩⟩, hφ'⟩

/-! ### Updates -/

/-- A key is in mates, in the same slot. -/
theorem slot (ha : Abreast g φ alive m t u) (hr : Rooted t c r) (hr' : Rooted u c' r') {A B A' B' : Row} {e e' : Pair}
    (hh : h ∈ c.level r (t.height - 1)) (hrow : c h = A ++ e :: B) (hh' : h' ∈ c'.level r' (u.height - 1))
    (hrow' : c' h' = A' ++ e' :: B') (hkey : e'.1 = e.1) : φ 1 h h' ∧ A'.length = A.length := by
  have hheight := ha.height
  have htall := hr.tall
  obtain ⟨k', hk', hφ⟩ := ha.mate hr hr' Nat.one_pos (show t.height - 1 + 1 = m by omega) hh
  rw [show t.height - 1 = u.height - 1 by omega] at hk'
  have hget : (c h)[A.length]? = some e := by rw [hrow, List.getElem?_append_right (Nat.le_refl _)]; simp
  obtain ⟨e₁, he₁, hkey₁, -⟩ :=
    ha.pair hr hr' hφ (hr.live_level (Nat.le_refl _) hh) (hr'.live_level (Nat.le_refl _) hk') hget
  have hmem : e' ∈ c' h' := by rw [hrow']; simp
  have hmem₁ := List.mem_of_getElem? he₁
  obtain rfl := hr'.sound.pair_unique (mem_pairs.mpr ⟨k', hk', hmem₁⟩) (mem_pairs.mpr ⟨h', hh', hmem⟩)
    (hkey₁.trans hkey.symm)
  obtain rfl := hr'.sound.node_unique hk' hh' hmem₁ hmem
  refine ⟨hφ, ?_⟩
  have hnodup : (c' k').Nodup := (hr'.sound.descending_level (Nat.le_refl _) hk').imp fun hlt heq => by
    rw [heq] at hlt
    exact Nat.lt_irrefl _ hlt
  have hget' : (c' k')[A'.length]? = some e₁ := by rw [hrow', List.getElem?_append_right (Nat.le_refl _)]; simp
  exact (List.getElem?_inj (List.getElem?_eq_some_iff.mp hget').1 hnodup).mp (hget'.trans he₁.symm)

/-- A key is found in mates, in the same slot, whatever memos are used on the way. -/
theorem findSlot (ha : Abreast g φ alive m t u) (hr : Rooted t c r) (hr' : Rooted u c' r')
    (hsame : ∀ k, (∃ e ∈ c.pairs r (t.height - 1), e.1 = k) ↔ ∃ e ∈ c'.pairs r' (u.height - 1), e.1 = k) (k : Key w) :
    Lockstep (Tree.findSlot k.toWords) t (Tree.findSlot k.toWords) u fun o t' o' u' =>
      Abreast g φ alive m t' u' ∧ Option.Rel (fun x y => φ 1 x.1 y.1 ∧ y.2 = x.2) o o' := fun o t₁ o' u₁ he he' => by
  obtain ⟨p, hr₁, hrec, hfound⟩ := hr.findSlot k
  obtain ⟨p', hr₁', hrec', hfound'⟩ := hr'.findSlot k
  have ha₁ : Abreast g φ alive m ({ t with pool := p } : Tree w) ({ u with pool := p' } : Tree w) :=
    ⟨ha.geometry, ha.height, ha.root, ha.twins.spares (Spares.of_recalls hrec) (Spares.of_recalls hrec')
      hr₁.stand.stock.ledger hr₁'.stand.stock.ledger (fun _ k => (hrec.live k).mpr) fun _ k => (hrec'.live k).mpr⟩
  have hkey : ∀ {c : Rows} {r h : Handle} {d : Nat} {A B : Row} {e : Pair}, h ∈ c.level r d → c h = A ++ e :: B →
      e ∈ c.pairs r d := fun hh hrow => mem_pairs.mpr ⟨_, hh, by rw [hrow]; simp⟩
  rcases hfound with ⟨h, A, e, B, hh, hrow, hek, hrun⟩ | ⟨hall, hrun⟩ <;>
    rcases hfound' with ⟨h', A', e', B', hh', hrow', hek', hrun'⟩ | ⟨hall', hrun'⟩ <;>
      obtain ⟨rfl, rfl⟩ := hrun.of_ends he <;> obtain ⟨rfl, rfl⟩ := hrun'.of_ends he'
  · exact ⟨ha₁, .some (ha.slot hr hr' hh hrow hh' hrow' (hek'.trans hek.symm))⟩
  · obtain ⟨e', he', hek'⟩ := (hsame k.val).mp ⟨e, hkey hh hrow, hek⟩
    exact absurd hek' (hall' e' he')
  · obtain ⟨e, he, hek⟩ := (hsame k.val).mpr ⟨e', hkey hh' hrow', hek'⟩
    exact absurd hek (hall e he)
  · exact ⟨ha₁, .none⟩

/-- The same value is replaced in both trees. -/
theorem update (ha : Abreast g φ alive m t u) (hr : Rooted t c r) (hr' : Rooted u c' r')
    (hsame : ∀ k, (∃ e ∈ c.pairs r (t.height - 1), e.1 = k) ↔ ∃ e ∈ c'.pairs r' (u.height - 1), e.1 = k)
    (k : Key w) (v : Value) :
    Lockstep (Tree.update k v) t (Tree.update k v) u fun _ t' _ u' => Abreast g φ alive m t' u' := by
  refine Lockstep.bind (ha.findSlot hr hr' hsame k) fun o t₁ o' u₁ ⟨ha₁, ho⟩ => ?_
  cases ho with
  | none => exact Lockstep.pure ha₁
  | @some x y hxy =>
    obtain ⟨h, i⟩ := x
    obtain ⟨h', i'⟩ := y
    obtain ⟨hh, hi⟩ := hxy
    obtain rfl : i' = i := hi
    refine Lockstep.get ?_
    rw [ha₁.geometry.1, ha₁.geometry.2]
    refine Lockstep.bind (ha₁.onNodes (P := fun _ _ => True) ((ha₁.twins.update hh fun _ _ _ _ hk =>
      hk.writeValue i' (Mates.same_leaf.mpr rfl)).mono fun _ _ _ _ hq => ⟨hq.1, trivial⟩))
        fun _ _ _ _ ha₂ => Lockstep.pure ha₂.1

/-! ### After a removal -/

/-- Mates that are on the same level of both trees are in use, and so are the mates in them. -/
theorem revive (ha : Abreast g φ alive m t u) (hr : Rooted t c r) (hr' : Rooted u c' r') :
    ∃ φ', Abreast g φ' True m t u := by
  have hheight := ha.height
  have htall := hr.tall
  obtain ⟨hs, hs'⟩ := ha.geometry_eq hr hr'
  refine ⟨fun i h h' => φ i h h' ∧ i ≤ m ∧ h ∈ c.level r (m - i) ∧ h' ∈ c'.level r' (m - i), ha.geometry, ha.height, ?_,
    fun hh => ha.twins.level hh.1, fun hh hk => ha.twins.left hh.1 hk.1, fun hh hk => ha.twins.right hh.1 hk.1,
    fun {i h h'} hh => ?_, fun _ {i h h'} hh => ?_, ha.twins.tidy⟩
  · obtain ⟨k', hk', hφ⟩ := ha.mate hr hr' (by omega : 0 < m) (Nat.zero_add m) (List.mem_singleton_self r)
    obtain rfl := List.mem_singleton.mp hk'
    rw [hr.stand.root, hr'.stand.root]
    refine .some ⟨hφ, Nat.le_refl m, ?_, ?_⟩ <;> rw [Nat.sub_self] <;> exact List.mem_singleton_self _
  · obtain ⟨hφ, hi, hlevel, hlevel'⟩ := hh
    have hpos := ha.twins.level hφ
    obtain ⟨n, n', hn, hn', hk⟩ := ha.twins.akin hφ
    have hpacks := hs.packs h n hn (hr.live_level (by omega) hlevel)
    have hpacks' := hs'.packs h' n' hn' (hr'.live_level (by omega) hlevel')
    refine ⟨n, n', hn, hn', hk.sizes, hk.kept, hk.word, fun j v v' hv hv' => ?_⟩
    have hsame := hk.value j v v' hv hv'
    obtain ⟨i, rfl⟩ : ∃ j, i = j + 1 := ⟨i - 1, by omega⟩
    rcases Nat.eq_zero_or_pos i with rfl | hpos
    · exact Mates.same_leaf.mpr (Mates.same_leaf.mp hsame)
    obtain ⟨hzero, hrel⟩ := (Mates.same_inner hpos).mp hsame
    refine (Mates.same_inner hpos).mpr ⟨hzero, ?_⟩
    -- a word that leads to a child leads to a node of the next level, so the mates in it are kept
    have hkid : ∀ {c : Rows} {r h k : Handle} {words : Array Word} {v : Word}, Packs g words (c h) →
      h ∈ c.level r (m - (i + 1)) →
        words[g.keyRegion + j]? = some v → Handle.ofWord? v = some k → k ∈ c.level r (m - i) :=
      fun {c r h k words v} hp hh hv hk => by
        obtain ⟨e, he, rfl⟩ := hp.getElem?_of_value hv (by rintro rfl; cases hk)
        rw [show m - i = m - (i + 1) + 1 by omega]
        exact mem_level_succ.mpr ⟨h, hh, mem_kids.mpr ⟨e, List.mem_of_getElem? he, hk⟩⟩
    cases hword : Handle.ofWord? v <;> cases hword' : Handle.ofWord? v' <;> rw [hword, hword'] at hrel <;> cases hrel
    · exact .none
    · rename_i hφ'
      exact .some ⟨hφ', by omega, hkid hpacks hlevel hv hword, hkid hpacks' hlevel' hv' hword'⟩
  · obtain ⟨hφ, hi, hlevel, hlevel'⟩ := hh
    have hpos := ha.twins.level hφ
    exact ⟨hr.live_level (by omega) hlevel, hr'.live_level (by omega) hlevel'⟩

end Abreast
end MemoTree
