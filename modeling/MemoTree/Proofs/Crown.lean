import MemoTree.Proofs.Descent

/-! # The upper levels of a tree

A change of a level is followed on the levels from the root down to it, the crown, while the nodes below and
the nodes about to be linked are put aside. `Stand` says what holds of a tree so seen: its crown of `m` levels is
sound and full, and the nodes in use are those of the crown and the ones put aside. -/

namespace MemoTree
open Pool NodePool

namespace Rows
variable {c c' : Rows} {r h k : Handle} {i d m x : Nat}

/-- The nodes on the first `m` levels below `r`. -/
def crown (c : Rows) (r : Handle) : Nat → List Handle
  | 0 => []
  | d + 1 => c.under r d

/-- The pairs `d` levels below `r`. -/
def pairs (c : Rows) (r : Handle) (d : Nat) : Row := (c.level r d).flatMap c

/-- The pair `d` levels below `r` that a change for `x` goes to. -/
def aimed (c : Rows) (x : Nat) (r : Handle) (d : Nat) : Option Pair := (c.land x r d).bind fun h => (c h).aim x

theorem crown_succ (c : Rows) (r : Handle) (m : Nat) : c.crown r (m + 1) = c.crown r m ++ c.level r m := by
  cases m with
  | zero => rfl
  | succ d => rfl

theorem mem_crown : h ∈ c.crown r m ↔ ∃ i < m, h ∈ c.level r i := by
  cases m with
  | zero => simp [crown]
  | succ d =>
    rw [crown, mem_under]
    exact ⟨fun ⟨i, hi, hh⟩ => ⟨i, by omega, hh⟩, fun ⟨i, hi, hh⟩ => ⟨i, by omega, hh⟩⟩

theorem mem_pairs {e : Pair} : e ∈ c.pairs r d ↔ ∃ h ∈ c.level r d, e ∈ c h := List.mem_flatMap

theorem pairs_zero (c : Rows) (r : Handle) : c.pairs r 0 = c r := by rw [pairs, level, List.flatMap_singleton]

theorem pairs_succ (c : Rows) (r : Handle) (d : Nat) : c.pairs r (d + 1) = (c.kids r).flatMap fun k => c.pairs k d := by
  rw [pairs, level_succ, List.flatMap_assoc]
  rfl

theorem level_eq_children (c : Rows) (r : Handle) (d : Nat) :
    c.level r (d + 1) = (c.pairs r d).filterMap Pair.child := by
  rw [pairs, List.filterMap_flatMap]
  rfl

theorem land_eq_aimed (c : Rows) (x : Nat) (r : Handle) (d : Nat) :
    c.land x r (d + 1) = (c.aimed x r d).bind Pair.child := by
  rw [land_succ, aimed, Option.bind_assoc]
  rfl

theorem aimed_eq_some {e : Pair} : c.aimed x r d = some e ↔ ∃ h, c.land x r d = some h ∧ (c h).aim x = some e :=
  Option.bind_eq_some_iff

end Rows

namespace Sound
open Rows
variable {bound : Nat} {c : Rows} {r h : Handle} {d x : Nat} {e : Pair}

theorem node_unique {k : Handle} (hs : Sound bound c r d) (hh : h ∈ c.level r d) (hk : k ∈ c.level r d) (he : e ∈ c h)
    (he' : e ∈ c k) : h = k := by
  have h1 := hs.routed d (Nat.le_refl d) h hh e he
  rw [hs.routed d (Nat.le_refl d) k hk e he', Option.some.injEq] at h1
  exact h1.symm

end Sound

/-! ### New rows on the lowest level -/

namespace Sound
open Rows
variable {bound : Nat} {c : Rows} {r h : Handle} {d x : Nat}

/-- The levels above and the ways there do not depend on the row of a node of the lowest level. -/
theorem update_off (hs : Sound bound c r d) (hh : h ∈ c.level r d) (row : Row) :
    ∀ j < d, ∀ k ∈ c.level r j, Function.update c h row k = c k := fun j hj k hk => by
  refine Function.update_of_ne ?_ _ _
  rintro rfl
  have := level_unique hs.nodup (Nat.le_of_lt hj) (Nat.le_refl d) hk hh
  omega

/-- A new row of a node takes the place of its old row among the pairs of the level. -/
theorem pairs_update (hs : Sound bound c r d) (hh : h ∈ c.level r d) :
    ∃ S T : Row, c.pairs r d = S ++ c h ++ T ∧ ∀ row, Rows.pairs (Function.update c h row) r d = S ++ row ++ T := by
  obtain ⟨S, T, hlevel⟩ := List.append_of_mem hh
  have hn := hs.nodup_level (Nat.le_refl d)
  rw [hlevel, List.nodup_middle, List.nodup_cons, List.mem_append, not_or] at hn
  have hsame : ∀ (row : Row) (l : List Handle), h ∉ l → l.flatMap (Function.update c h row) = l.flatMap c :=
    fun row l hl => List.flatMap_congr fun k hk => Function.update_of_ne (by rintro rfl; exact hl hk) _ _
  refine ⟨S.flatMap c, T.flatMap c, ?_, fun row => ?_⟩
  · rw [pairs, hlevel, List.flatMap_append, List.flatMap_cons, List.append_assoc]
  · rw [pairs, level_congr (hs.update_off hh row), hlevel, List.flatMap_append, List.flatMap_cons, hsame row S hn.1.1,
      hsame row T hn.1.2, Function.update_self, List.append_assoc]

/-- A new row changes where changes go that land in its node. -/
theorem aimed_update (hs : Sound bound c r d) (hh : h ∈ c.level r d) (row : Row) (x : Nat) :
    Rows.aimed (Function.update c h row) x r d = if c.land x r d = some h then row.aim x else c.aimed x r d := by
  rw [aimed, aimed, land_congr (hs.update_off hh row)]
  obtain ⟨k, hk⟩ := hs.exists_land x (Nat.le_refl d)
  rw [hk, Option.bind_some, Option.bind_some]
  by_cases hkh : k = h
  · rw [if_pos (by rw [hkh]), hkh, Function.update_self]
  · rw [if_neg (by simpa using hkh), Function.update_of_ne hkh]

/-- A row whose keys were there before keeps the layout sound. -/
theorem update_keys {row : Row} (hs : Sound bound c r d) (hh : h ∈ c.level r d)
    (hkeys : (row.map Prod.fst).Sublist ((c h).map Prod.fst)) : Sound bound (Function.update c h row) r d := by
  have hold : ∀ e ∈ row, ∃ a ∈ c h, a.1 = e.1 := fun e he =>
    List.mem_map.mp (hkeys.subset (List.mem_map_of_mem he))
  refine hs.of_lowest (hs.update_off hh row) fun i hi => ?_
  by_cases hih : i = h
  · rw [hih, Function.update_self]
    refine ⟨?_, fun e he => ?_⟩
    · have hd := hs.descending_level (Nat.le_refl d) hh
      rw [Row.Descending, ← List.pairwise_map (f := Prod.fst) (R := fun a b : Nat => b < a)] at hd ⊢
      exact hd.sublist hkeys
    · obtain ⟨a, ha, hae⟩ := hold e he
      rw [← hae]
      exact ⟨hs.small_level (Nat.le_refl d) hh ha, hs.routed d (Nat.le_refl d) h hh a ha⟩
  · rw [Function.update_of_ne hih]
    exact ⟨hs.descending_level (Nat.le_refl d) hi, fun e he =>
      ⟨hs.small_level (Nat.le_refl d) hi he, hs.routed d (Nat.le_refl d) i hi e he⟩⟩

variable {A B : Row} {k : Nat} {v : Word}

/-- A pair put into the node of its key keeps the layout sound. -/
theorem placed (hs : Sound bound c r d) (hk : k < bound) (hr : c.route k r d = some h) (hrow : c h = A ++ B)
    (hA : ∀ a ∈ A, k < a.1) (hB : ∀ b ∈ B, b.1 < k) : Sound bound (Function.update c h (A ++ (k, v) :: B)) r d := by
  have hh := mem_level_of_route hr
  refine hs.of_lowest (hs.update_off hh _) fun q hq => ?_
  by_cases hqh : q = h
  · subst hqh
    rw [Function.update_self]
    have hd := hs.descending_level (Nat.le_refl d) hq
    rw [hrow] at hd
    refine ⟨hd.insert hA hB, fun e he => ?_⟩
    have hcase : e = (k, v) ∨ e ∈ c q := by
      rw [hrow, List.mem_append]
      rcases List.mem_append.mp he with he | he
      · exact Or.inr (Or.inl he)
      · exact (List.mem_cons.mp he).imp id Or.inr
    rcases hcase with rfl | he
    · exact ⟨hk, hr⟩
    · exact ⟨hs.small_level (Nat.le_refl d) hq he, hs.routed d (Nat.le_refl d) q hq e he⟩
  · rw [Function.update_of_ne hqh]
    exact ⟨hs.descending_level (Nat.le_refl d) hq, fun e he =>
      ⟨hs.small_level (Nat.le_refl d) hq he, hs.routed d (Nat.le_refl d) q hq e he⟩⟩

/-- A pair with a smaller key that a change goes to comes right behind the pairs with larger keys. -/
theorem head_of_aimed {e : Pair} (hh : c.land k r d = some h) (hrow : c h = A ++ B) (hA : ∀ a ∈ A, k < a.1)
    (hB : ∀ b ∈ B, b.1 < k) (he : c.aimed k r d = some e) (hek : e.1 < k) : ∃ B', B = e :: B' := by
  rw [aimed, hh, Option.bind_some, hrow] at he
  have hscan := Row.scan_of_aim he (Nat.le_of_lt hek)
  rw [Row.scan_append, Row.scan_eq_none.mpr hA, Option.none_or] at hscan
  cases B with
  | nil => cases hscan
  | cons b B' =>
    refine ⟨B', ?_⟩
    rw [Row.scan_cons_of_le (Nat.le_of_lt (hB b List.mem_cons_self)), Option.some.injEq] at hscan
    rw [hscan]

/-- A pair put in front of another one takes over what changes led there from its key on. -/
theorem aimed_placed {e : Pair} (hs : Sound bound c r d) (hh : c.land k r d = some h) (hrow : c h = A ++ B)
    (hA : ∀ a ∈ A, k < a.1) (hB : ∀ b ∈ B, b.1 < k) (he : c.aimed k r d = some e) (hek : e.1 < k) (x : Nat) :
    Rows.aimed (Function.update c h (A ++ (k, v) :: B)) x r d =
      if c.aimed x r d = some e ∧ k ≤ x then some (k, v) else c.aimed x r d := by
  have hlevel := mem_level_of_land hh
  obtain ⟨B', rfl⟩ := head_of_aimed hh hrow hA hB he hek
  have hd := hs.descending_level (Nat.le_refl d) hlevel
  rw [hrow] at hd
  rw [hs.aimed_update hlevel]
  by_cases hx : c.land x r d = some h
  · rw [if_pos hx, Row.aim_insert hd hA hek, aimed, hx, Option.bind_some, hrow]
  · rw [if_neg hx, if_neg]
    rintro ⟨hx', -⟩
    obtain ⟨q, hq, haim⟩ := aimed_eq_some.mp hx'
    have hmem : e ∈ c h := by rw [hrow]; exact List.mem_append_right A List.mem_cons_self
    rw [hs.node_unique (mem_level_of_land hq) hlevel (Row.mem_of_aim haim) hmem] at hq
    exact hx hq

end Sound

/-- The crown of `m` levels below the root `r` is sound, its rows are not empty, and the nodes in use are its nodes
and those in `rest`. A crown that ends above the leaves has children everywhere; the leaves have no memos. -/
structure Stand {w : Width} (t : Tree w) (c : Rows) (r : Handle) (m : Nat) (rest : Handle → Prop) : Prop where
  root : t.root = some r
  height : m ≤ t.height
  stock : Stock t.geometry t.pool c
  sound : ∀ d, m = d + 1 → Sound (2 ^ w.bits) c r d
  live : ∀ h, t.pool.Live h ↔ h ∈ c.crown r m ∨ rest h
  apart : ∀ h, rest h → h ∉ c.crown r m
  full : ∀ h ∈ c.crown r m, c h ≠ []
  inner : m < t.height → ∀ h ∈ c.crown r m, ∀ e ∈ c h, ∃ k, Pair.child e = some k
  quiet : ∀ d, m = d + 1 → d + 1 = t.height → ∀ h ∈ c.level r d, t.pool.Quiet h

namespace Stand
open Rows
variable {w : Width} {t : Tree w} {c : Rows} {r h : Handle} {i d m : Nat} {rest : Handle → Prop}

/-- A tree stands on its root if the root has one pair. -/
theorem of_root {e : Pair} (hroot : t.root = some r) (hheight : 1 ≤ t.height) (hs : Stock t.geometry t.pool c)
    (hrow : c r = [e]) (hlive : ∀ i, t.pool.Live i ↔ i = r ∨ rest i) (hr : ¬rest r) (hsmall : e.1 < 2 ^ w.bits)
    (hinner : 1 < t.height → ∃ k, Pair.child e = some k) (hquiet : 1 = t.height → t.pool.Quiet r) :
    Stand t c r 1 rest := by
  have hcrown : ∀ i, i ∈ c.crown r 1 ↔ i = r := fun i => by rw [crown, under, List.mem_singleton]
  refine ⟨hroot, hheight, hs, fun d hd => ?_, fun i => ?_, fun i hi hmem => ?_, fun i hi => ?_, fun hm i hi a ha => ?_,
    fun d hd hlow i hi => ?_⟩
  · obtain rfl : 0 = d := by omega
    refine Sound.single ?_ fun a ha => ?_
    · rw [hrow]
      exact List.pairwise_singleton _ _
    · rw [hrow] at ha
      rwa [List.mem_singleton.mp ha]
  · rw [hlive, hcrown]
  · exact hr ((hcrown i).mp hmem ▸ hi)
  · rw [(hcrown i).mp hi, hrow]
    exact List.cons_ne_nil _ _
  · rw [(hcrown i).mp hi, hrow] at ha
    rw [List.mem_singleton.mp ha]
    exact hinner hm
  · obtain rfl : 0 = d := by omega
    rw [List.mem_singleton.mp hi]
    exact hquiet hlow

theorem live_of_level (hst : Stand t c r m rest) (hi : i < m) (hh : h ∈ c.level r i) : t.pool.Live h :=
  (hst.live h).mpr (Or.inl (mem_crown.mpr ⟨i, hi, hh⟩))

/-- No row of the crown changes where a node that is not live gets a row. -/
theorem update_level (hst : Stand t c r m rest) {q : Handle} (hq : ¬t.pool.Live q) (row : Row) (hi : i < m)
    (hh : h ∈ c.level r i) : Function.update c q row h = c h := by
  refine Function.update_of_ne ?_ _ _
  rintro rfl
  exact hq (hst.live_of_level hi hh)

/-- The lowest level of a crown is put aside. -/
theorem truncate (hst : Stand t c r (m + 1) rest) : Stand t c r m fun h => rest h ∨ h ∈ c.level r m where
  root := hst.root
  height := by
    have := hst.height
    omega
  stock := hst.stock
  sound d hd := by
    subst hd
    exact (hst.sound (d + 1) rfl).truncate (Nat.le_succ d)
  live h := by
    rw [hst.live, crown_succ, List.mem_append, or_assoc, or_comm (a := h ∈ c.level r m)]
  apart h hh hm := by
    rcases hh with hr | hl
    · exact hst.apart h hr (by rw [crown_succ]; exact List.mem_append_left _ hm)
    · obtain ⟨i, hi, hhi⟩ := mem_crown.mp hm
      have := level_unique (hst.sound m rfl).nodup (Nat.le_of_lt hi) (Nat.le_refl m) hhi hl
      omega
  full h hh := hst.full h (by rw [crown_succ]; exact List.mem_append_left _ hh)
  inner hm h hh e he := by
    obtain ⟨i, hi, hhi⟩ := mem_crown.mp hh
    exact ((hst.sound m rfl).inner i hi h hhi).2 e he
  quiet d hd hheight := by
    have := hst.height
    omega

/-- A level that was put aside is taken back into the crown. -/
theorem extend (hst : Stand t c r m fun h => rest h ∨ h ∈ c.level r m) (hm : m < t.height) (hn : (c.level r m).Nodup)
    (hrest : ∀ h, rest h → h ∉ c.level r m)
    (hrow : ∀ h ∈ c.level r m, (c h).Descending ∧ c h ≠ [] ∧ ∀ e ∈ c h, e.1 < 2 ^ w.bits ∧ c.route e.1 r m = some h)
    (hinner : m + 1 < t.height → ∀ h ∈ c.level r m, ∀ e ∈ c h, ∃ k, Pair.child e = some k)
    (hquiet : m + 1 = t.height → ∀ h ∈ c.level r m, t.pool.Quiet h) : Stand t c r (m + 1) rest where
  root := hst.root
  height := hm
  stock := hst.stock
  sound d hd := by
    -- the crown of no levels says nothing of rows, so a root that comes back alone is sound by its own row
    obtain rfl : m = d := by omega
    cases m with
    | zero =>
      obtain ⟨hd, -, he⟩ := hrow r (List.mem_singleton_self r)
      exact Sound.single hd fun e hm => (he e hm).1
    | succ m =>
      refine (hst.sound m rfl).extend (fun h hh => ?_) hn (fun h hh => hst.apart h (Or.inr hh)) fun h hh =>
        ⟨(hrow h hh).1, (hrow h hh).2.2⟩
      have hmem : h ∈ c.crown r (m + 1) := mem_crown.mpr ⟨m, Nat.lt_succ_self m, hh⟩
      exact ⟨hst.full h hmem, hst.inner hm h hmem⟩
  live h := by
    rw [hst.live, crown_succ, List.mem_append, or_assoc, or_comm (a := h ∈ c.level r m)]
  apart h hh hm := by
    rw [crown_succ] at hm
    rcases List.mem_append.mp hm with hm | hm
    · exact hst.apart h (Or.inl hh) hm
    · exact hrest h hh hm
  full h hh := by
    rw [crown_succ] at hh
    rcases List.mem_append.mp hh with hh | hh
    · exact hst.full h hh
    · exact (hrow h hh).2.1
  inner hm' h hh := by
    rw [crown_succ] at hh
    rcases List.mem_append.mp hh with hh | hh
    · exact hst.inner hm h hh
    · exact hinner hm' h hh
  quiet d hd hheight := by
    obtain rfl : m = d := by omega
    exact hquiet hheight

/-- Nodes that are put aside may change. -/
theorem congr {p : NodePool} {c' : Rows} {rest' : Handle → Prop} (hst : Stand t c r m rest) (hs : Stock t.geometry p c')
    (hf : Fades t.pool p) (hc : ∀ h ∈ c.crown r m, c' h = c h)
    (hlive : ∀ h, p.Live h ↔ h ∈ c.crown r m ∨ rest' h) (hapart : ∀ h, rest' h → h ∉ c.crown r m) :
    Stand ({ t with pool := p } : Tree w) c' r m rest' := by
  have hcrown : c'.crown r m = c.crown r m := by
    cases m with
    | zero => rfl
    | succ d => exact under_congr fun j hj h hh => hc h (mem_crown.mpr ⟨j, by omega, hh⟩)
  refine ⟨hst.root, hst.height, hs, fun d hd => ?_, fun h => ?_, fun h hh => ?_, fun h hh => ?_, fun hm h hh => ?_,
    fun d hd hheight h hh => ?_⟩
  · subst hd
    exact (hst.sound d rfl).congr hc
  · rw [hcrown]
    exact hlive h
  · rw [hcrown]
    exact hapart h hh
  · rw [hcrown] at hh
    rw [hc h hh]
    exact hst.full h hh
  · rw [hcrown] at hh
    rw [hc h hh]
    exact hst.inner hm h hh
  · subst hd
    rw [level_congr fun j hj i hi => hc i (mem_crown.mpr ⟨j, by omega, hi⟩)] at hh
    exact hf.quiet (hst.quiet d rfl hheight h hh)

/-- The node of the lowest level on the path of a key, with the path lowered. -/
theorem nodeAt (hst : Stand t c r (d + 1) rest) {x level : Nat} (hlevel : level + d = t.height) (hx : x < 2 ^ w.bits) :
    ∃ h p, c.land x r d = some h ∧ Runs (Tree.nodeAt (Words.ofNat w.words x) level) t h { t with pool := p } ∧
      Stock t.geometry p (c.lowerPath x r d) ∧ Edits t.pool p := by
  obtain ⟨h, hl⟩ := (hst.sound d rfl).exists_land x (Nat.le_refl d)
  obtain ⟨p, hrun, hs, hedits⟩ := nodeAt_spec hst.stock hst.root hlevel hx hl fun j hj k hk =>
    hst.live_of_level (by omega) (mem_level_of_land hk)
  exact ⟨h, p, hl, hrun, hs, hedits⟩

/-- A change for a key that lookups find their way with is led to the same node and lowers nothing. -/
theorem nodeAt_routed (hst : Stand t c r (d + 1) rest) {x level : Nat} (hlevel : level + d = t.height)
    (hx : x < 2 ^ w.bits)
    (hroute : c.route x r d = some h) : Runs (Tree.nodeAt (Words.ofNat w.words x) level) t h t :=
  runs_nodeAt hst.root hlevel (descend_routed hst.stock (Nat.lt_of_lt_of_le hx (Key.pow_bits_le w)) hroute
    fun j hj k hk => hst.live_of_level (by omega) (mem_level_of_route hk))

/-- What a change writes on the way to its node. -/
theorem trims (hst : Stand t c r (d + 1) rest) {x level : Nat} {p : NodePool} (hlevel : level + d = t.height)
    (hx : x < 2 ^ w.bits) (hrun : Runs (Tree.nodeAt (Words.ofNat w.words x) level) t h { t with pool := p }) :
    Trims t.geometry c x r d t.pool p := by
  obtain ⟨h', hl⟩ := (hst.sound d rfl).exists_land x (Nat.le_refl d)
  obtain ⟨p', hrun', ht⟩ := descend_trims hst.stock (Nat.lt_of_lt_of_le hx (Key.pow_bits_le w)) hl fun j hj k hk =>
    hst.live_of_level (by omega) (mem_level_of_land hk)
  obtain rfl : p = p' := congrArg Tree.pool (hrun.unique (runs_nodeAt hst.root hlevel hrun')).2
  exact ht

end Stand
end MemoTree
