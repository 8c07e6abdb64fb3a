import MemoTree.Proofs.Passing
import MemoTree.Proofs.Reachable

/-! # Restarts

The search for the entry before a key starts again where a descent finds nothing, and each time the descent ends
nearer the root. For say that it ended under the separator `s`. The next one looks for what is below `s`, and up to
the node with that separator it goes the same way. There it either finds no slot behind the one of `s`, and ends at
that node, or it takes that slot: then every key below it is low enough, and the descent goes down the first slots to
an entry. So there are no more descents than levels, whatever keys the tree holds and whatever words they are made of.
-/

namespace MemoTree
open Pool NodePool Rows

namespace Tree
variable {w : Width}

/-- Where a descent ends. -/
structure Stop where
  node : Handle
  /-- How many levels the node is below the one where the descent began. -/
  depth : Nat
  /-- The last separator passed. -/
  separator : Option Words

/-- A descent as `descent` makes it, with the node where it ends. -/
def dive (t : Tree w) (target : Words) :
    (steps : Nat) → Handle → (separator : Option Words) → Except Fault Stop
  | 0, node, separator => return ⟨node, 0, separator⟩
  | steps + 1, node, separator => do
    let g := t.geometry
    let block ← t.pool.block node
    let i ← block.position g target
    let child ← if i < g.pairs then block.child g i else pure none
    match child with
    | none => return ⟨node, 0, separator⟩
    | some child =>
      let stop ← dive t target steps child (some (← block.key g i))
      return { stop with depth := stop.depth + 1 }

/-- A descent has come to a leaf if it has passed all levels. -/
theorem descent_eq (t : Tree w) (target : Words) (steps : Nat) (node : Handle) (separator : Option Words) :
    t.descent target steps node separator = (t.dive target steps node separator).map fun stop =>
      ⟨if stop.depth = steps then some stop.node else none, stop.separator⟩ := by
  induction steps generalizing node separator with
  | zero => rfl
  | succ steps ih =>
    rw [descent, dive]
    rcases hblock : t.pool.block node with _ | block
    · rfl
    rcases hplace : block.position t.geometry target with _ | i
    · simp [bind, Except.bind, Except.map, hplace]
    by_cases hi : i < t.geometry.pairs
    · rcases hchild : block.child t.geometry i with _ | _ | child
      · simp [bind, Except.bind, Except.map, hplace, hi, hchild]
      · simp [bind, Except.bind, Except.map, pure, Except.pure, hplace, hi, hchild]
      rcases hkey : block.key t.geometry i with _ | key
      · simp [bind, Except.bind, Except.map, hplace, hi, hchild, hkey]
      rcases hrest : t.dive target steps child (some key) with _ | stop <;>
        simp [bind, Except.bind, Except.map, pure, Except.pure, hplace, hi, hchild, hkey, ih, hrest]
    · simp [bind, Except.bind, Except.map, pure, Except.pure, hplace, hi]

/-- The search for the last entry below `target` from its root on, with the descents that find nothing, and the
answer. -/
inductive Search (t : Tree w) (root : Handle) : (target : Words) → List Stop → Option (Entry w) → Prop
  | zero {target : Words} : target.isZero = true → Search t root target [] none
  | found {target : Words} {entry : Option (Entry w)} : target.isZero = false →
      t.probe root target.pred = .ok (.found entry) → Search t root target [] entry
  | nothing {target : Words} {stop : Stop} : target.isZero = false → t.probe root target.pred = .ok .nothing →
      t.dive target.pred (t.height - 1) root none = .ok stop → Search t root target [stop] none
  | again {target separator : Words} {stop : Stop} {dead : List Stop} {entry : Option (Entry w)} :
      target.isZero = false → t.probe root target.pred = .ok (.below separator) →
      t.dive target.pred (t.height - 1) root none = .ok stop → stop.separator = some separator →
      Search t root separator dead entry → Search t root target (stop :: dead) entry

/-- The first `fuel` turns of the search for the last entry below `target`. It answers nothing if there are more. -/
def searchWithin (t : Tree w) (root : Handle) : (fuel : Nat) → (target : Words) →
    Except Fault (Option (Option (Entry w)))
  | 0, _ => return none
  | fuel + 1, target => do
    if target.isZero then return some none
    match ← t.probe root target.pred with
    | .found entry => return some entry
    | .nothing => return some none
    | .below separator => searchWithin t root fuel separator

/-- The entry with the largest key below `key`, if `fuel` turns are enough to find it. -/
def prevWithin (t : Tree w) (fuel : Nat) (key : Key w) : Except Fault (Option (Option (Entry w))) := do
  let some root := t.root | return some none
  t.searchWithin root fuel key.toWords

end Tree

/-! ### Falls -/

/-- A descent for `x` from `h` ends `depth` levels below, at `node`, and `floor` is the last separator it passes. -/
inductive Rows.Falls (c : Rows) (x : Nat) : (d : Nat) → (h : Handle) → (depth : Nat) →
    (node : Handle) → Option Nat → Prop
  | leaf {h : Handle} : Falls c x 0 h 0 h none
  | blocked {d : Nat} {h : Handle} : (c h).scan x = none → Falls c x (d + 1) h 0 h none
  | through {d depth : Nat} {h k node : Handle} {e : Pair} {floor : Option Nat} : (c h).scan x = some e →
      Pair.child e = some k → Falls c x d k depth node floor →
      Falls c x (d + 1) h (depth + 1) node (some (floor.getD e.1))

/-- The descent comes to a leaf, and finds a pair there. -/
def Rows.Lands (c : Rows) (x d depth : Nat) (node : Handle) : Prop := depth = d ∧ (c node).scan x ≠ none

section Falls
variable {w : Width} {t : Tree w} {d x depth depth' : Nat} {h node node' : Handle}
    {lower upper floor floor' : Option Nat}

namespace Rows.Falls

theorem depth_le {c : Rows} (hf : c.Falls x d h depth node floor) : depth ≤ d := by
  induction hf with
  | leaf => exact Nat.le_refl 0
  | blocked => exact Nat.zero_le _
  | through _ _ _ ih => exact Nat.succ_le_succ ih

/-- A descent that passes a separator ends below where it began. -/
theorem depth_pos {c : Rows} {s : Nat} (hf : c.Falls x d h depth node (some s)) : 0 < depth := by
  cases hf
  exact Nat.succ_pos _

theorem floor_le {c : Rows} (hf : c.Falls x d h depth node floor) : ∀ s ∈ floor, s ≤ x := by
  induction hf with
  | leaf => exact fun s hs => by cases hs
  | blocked => exact fun s hs => by cases hs
  | @through d depth h k node e floor hscan _ _ ih =>
    intro s hs
    cases hs
    cases floor with
    | none => exact Row.le_of_scan hscan
    | some s => exact ih s rfl

end Rows.Falls

namespace Tree.Fenced

/-- The keys under a node are within its bounds. -/
theorem floor_ge {l : Nat} (hf : t.Fenced d h (some l) upper) (hfall : t.rows.Falls x d h depth node floor) :
    ∀ s ∈ floor, l ≤ s := by
  induction hfall generalizing l upper with
  | leaf => exact fun s hs => by cases hs
  | blocked => exact fun s hs => by cases hs
  | @through d depth h k node e floor hscan hk _ ih =>
    obtain ⟨⟨n, hn, hp⟩, hchildren⟩ := hf
    intro s hs
    cases hs
    have hmem := Row.mem_of_scan hscan
    have hle : l ≤ e.1 := (hp.between.lower l rfl).2 e (Tree.rows_eq hn ▸ hmem)
    obtain ⟨j, hj⟩ := List.mem_iff_getElem?.mp hmem
    obtain ⟨k', hk', hchild⟩ := hchildren j e hj
    obtain rfl : k' = k := Option.some.inj (hk'.symm.trans hk)
    cases floor with
    | none => exact hle
    | some s => exact hle.trans (ih hchild s rfl)

/-- Where every key is low enough, a descent goes down the first slots and finds a pair. -/
theorem lands {u : Nat} (hf : t.Fenced d h lower (some u)) (hu : u ≤ x + 1)
    (hfall : t.rows.Falls x d h depth node floor) : t.rows.Lands x d depth node := by
  -- the first slot of a node holds a key that is low enough
  have hfirst : ∀ {q lower n}, t.pool.block q = .ok n → n.Passed t.geometry lower (some u) →
      ∃ e, (t.rows q)[0]? = some e ∧ (t.rows q).scan x = some e := fun {q lower n} hn hp => by
    rw [Tree.rows_eq hn]
    obtain ⟨e, row, hrow⟩ := List.exists_cons_of_ne_nil hp.ne_nil
    have hlt : e.1 < u := (hp.between.upper u rfl).2 e (hrow ▸ List.mem_cons_self)
    exact ⟨e, by rw [hrow]; rfl, by rw [hrow, Row.scan_cons_of_le (by omega)]⟩
  induction hfall generalizing lower with
  | leaf =>
    obtain ⟨n, hn, hp⟩ := hf
    obtain ⟨e, -, hscan⟩ := hfirst hn hp
    exact ⟨rfl, by rw [hscan]; exact Option.some_ne_none e⟩
  | blocked hnone =>
    obtain ⟨⟨n, hn, hp⟩, -⟩ := hf
    obtain ⟨e, -, hscan⟩ := hfirst hn hp
    rw [hscan] at hnone
    cases hnone
  | through hscan hk _ ih =>
    obtain ⟨⟨n, hn, hp⟩, hchildren⟩ := hf
    obtain ⟨e, he, hscan'⟩ := hfirst hn hp
    obtain rfl : e = _ := Option.some.inj (hscan'.symm.trans hscan)
    obtain ⟨k, hk', hchild⟩ := hchildren 0 e he
    obtain rfl := Option.some.inj (hk'.symm.trans hk)
    obtain ⟨hdepth, hfound⟩ := ih hchild
    exact ⟨congrArg (· + 1) hdepth, hfound⟩

/-- A descent below the last separator that one for `x` passed finds a pair, or ends nearer the root. -/
theorem restarts {s : Nat} (hf : t.Fenced d h lower upper) (hfall : t.rows.Falls x d h depth node (some s)) (hs : 0 < s)
    (hfall' : t.rows.Falls (s - 1) d h depth' node' floor') (hdead : ¬t.rows.Lands (s - 1) d depth' node') :
    depth' < depth := by
  generalize hfloor : some s = floor at hfall
  induction hfall generalizing lower upper depth' node' floor' with
  | leaf => cases hfloor
  | blocked => cases hfloor
  | @through d depth h k node e floor hscan hk hrest ih =>
    -- the two descents part at the node that holds `s`, if not before
    cases hfall' with
    | blocked => exact Nat.succ_pos depth
    | @through _ depth'' _ k' _ e' floor'' hscan' hk' hrest' =>
      refine Nat.succ_lt_succ ?_
      obtain ⟨⟨n, hn, hp⟩, hchildren⟩ := hf
      have hd : (t.rows h).Descending := Tree.rows_eq hn ▸ hp.descending
      obtain ⟨j, hj⟩ := List.mem_iff_getElem?.mp (Row.mem_of_scan hscan)
      obtain ⟨q, hq, hchild⟩ := hchildren j e hj
      obtain rfl : q = k := Option.some.inj (hq.symm.trans hk)
      have hdead'' : ¬t.rows.Lands (s - 1) d depth'' node' := fun hl => hdead ⟨congrArg (· + 1) hl.1, hl.2⟩
      by_cases hse : s = e.1
      · -- the next slot has only keys below `s`
        have hnext : (t.rows h)[j + 1]? = some e' := by
          rw [← hd.below_key hj, ← hse, ← Nat.sub_add_cancel hs, Row.below_succ, hscan']
        obtain ⟨q', hq', hchild'⟩ := hchildren (j + 1) e' hnext
        obtain rfl : q' = k' := Option.some.inj (hq'.symm.trans hk')
        rw [Row.ceiling, if_neg (Nat.succ_ne_zero j), Nat.add_sub_cancel, hj, Option.map_some] at hchild'
        exact absurd (hchild'.lands (by omega) hrest') hdead''
      · obtain ⟨s', rfl⟩ : ∃ s', floor = some s' := by
          cases floor with
          | none => exact absurd (Option.some.inj hfloor) hse
          | some s' => exact ⟨s', rfl⟩
        obtain rfl : s = s' := Option.some.inj hfloor
        have hes : e.1 ≤ s := hchild.floor_ge hrest s rfl
        have hsx : s ≤ x := hrest.floor_le s rfl
        -- up to the node of the separator the way is the same
        have hsame : (t.rows h).scan (s - 1) = some e := by
          obtain ⟨A, B, hrow, hA⟩ := Row.scan_split hscan
          rw [hrow]
          exact Row.scan_split_eq (fun a ha => Nat.lt_of_le_of_lt (by omega) (hA a ha)) (by omega)
        obtain rfl : e = e' := Option.some.inj (hsame.symm.trans hscan')
        obtain rfl : q = k' := Option.some.inj (hk.symm.trans hk')
        exact ih hchild hrest' hdead'' rfl

/-- A descent ends somewhere, at a node that can be read. -/
theorem dive (hf : t.Fenced d h lower upper) (hx : x < 2 ^ (64 * w.words)) :
    ∃ depth node floor, t.rows.Falls x d h depth node floor ∧
      (∃ n, t.pool.block node = .ok n ∧ Shows t.geometry n (t.rows node)) ∧ ∀ separator,
        t.dive (Words.ofNat w.words x) d h separator =
        .ok ⟨node, depth, (floor.map (Words.ofNat w.words)).or separator⟩ := by
  induction d generalizing h lower upper with
  | zero =>
    obtain ⟨n, hn, hp⟩ := hf
    exact ⟨0, h, none, .leaf, ⟨n, hn, Tree.rows_eq hn ▸ hp.shows⟩, fun _ => rfl⟩
  | succ d ih =>
    obtain ⟨⟨n, hn, hp⟩, hchildren⟩ := hf
    have hshows : Shows t.geometry n (t.rows h) := Tree.rows_eq hn ▸ hp.shows
    have hpos : n.position t.geometry (Words.ofNat w.words x) = .ok ((t.rows h).above x).length := hshows.position_eq hx
    have hplace := (t.rows h).getElem?_place x
    rw [Row.head?_upTo] at hplace
    cases hscan : (t.rows h).scan x with
    | none =>
      rw [hscan] at hplace
      have hge := List.getElem?_eq_none_iff.mp hplace
      refine ⟨0, h, none, .blocked hscan, ⟨n, hn, hshows⟩, fun separator => ?_⟩
      rw [Tree.dive, hn]
      simp only [bind, Except.bind, hpos]
      by_cases hlt : ((t.rows h).above x).length < t.geometry.pairs
      · rw [if_pos hlt, hshows.child_free hge hlt]
        rfl
      · rw [if_neg hlt]
        rfl
    | some e =>
      rw [hscan] at hplace
      obtain ⟨k, hk, hchild⟩ := hchildren _ e hplace
      obtain ⟨depth, node, floor, hfall, hnode, hdive⟩ := ih hchild
      refine ⟨depth + 1, node, _, .through hscan hk hfall, hnode, fun separator => ?_⟩
      rw [Tree.dive, hn]
      simp only [bind, Except.bind, hpos]
      have hnext : n.child t.geometry ((t.rows h).above x).length = .ok (some k) :=
        (hshows.child_eq hplace).trans (congrArg Except.ok hk)
      rw [if_pos (hshows.lt_of_scan hscan), hnext, hshows.key _ e hplace]
      simp only [hdive, pure, Except.pure]
      cases floor <;> rfl

end Tree.Fenced

/-- A slot that is shown holds an entry, whatever bits of its key the width leaves out. -/
theorem Shows.entryIn {n : Node} {row : Row} {e : Pair} {i : Nat} (hn : t.pool.block h = .ok n)
    (hs : Shows t.geometry n row) (he : row[i]? = some e) : ∃ entry, t.entryIn h i = .ok entry := by
  have hkey : n.key t.geometry i = .ok (Words.ofNat w.words e.1) := hs.key i e he
  refine ⟨some (Key.ofNat w (Words.toNat ((Words.ofNat w.words e.1).take w.words)),
    ⟨e.2, hs.used e (List.mem_of_getElem? he)⟩), ?_⟩
  rw [Tree.entryIn, hn]
  simp only [bind, Except.bind, hs.value i e he, Value.ofWord?_of_ne (hs.used e (List.mem_of_getElem? he)), hkey,
    Key.ofWords, Words.length_ofNat, Nat.le_refl, if_true]
  rfl

/-- What a probe finds is where its descent ends. -/
theorem Tree.Fenced.probe (hf : t.Fenced (t.height - 1) h none none) (hx : x < 2 ^ (64 * w.words)) :
    ∃ depth node floor, t.rows.Falls x (t.height - 1) h depth node floor ∧
      t.dive (Words.ofNat w.words x) (t.height - 1) h none = .ok ⟨node, depth, floor.map (Words.ofNat w.words)⟩ ∧
      ((∃ entry, t.probe h (Words.ofNat w.words x) = .ok (.found entry)) ∨
        ¬t.rows.Lands x (t.height - 1) depth node ∧ t.probe h (Words.ofNat w.words x) =
          .ok (floor.elim .nothing fun s => .below (Words.ofNat w.words s))) := by
  obtain ⟨depth, node, floor, hfall, ⟨n, hn, hshows⟩, hdive⟩ := hf.dive hx
  have hdive := hdive none
  rw [Option.or_none] at hdive
  refine ⟨depth, node, floor, hfall, hdive, ?_⟩
  rw [Tree.probe, Tree.descent_eq, hdive]
  simp only [bind, Except.bind, Except.map]
  by_cases hdepth : depth = t.height - 1
  · have hpos : n.position t.geometry (Words.ofNat w.words x) = .ok ((t.rows node).above x).length :=
      hshows.position_eq hx
    have hplace := (t.rows node).getElem?_place x
    rw [Row.head?_upTo] at hplace
    rw [if_pos hdepth]
    simp only [hn, hpos]
    cases hscan : (t.rows node).scan x with
    | some e =>
      rw [hscan] at hplace
      obtain ⟨entry, hentry⟩ := hshows.entryIn hn hplace
      refine Or.inl ⟨entry, ?_⟩
      rw [if_pos (hshows.lt_of_scan hscan), hshows.value _ e hplace]
      simp only [ne_eq, hshows.used e (List.mem_of_getElem? hplace), not_false_eq_true, if_true, pure,
        Except.pure, hentry]
    | none =>
      rw [hscan] at hplace
      have hge := List.getElem?_eq_none_iff.mp hplace
      refine Or.inr ⟨fun hl => hl.2 hscan, ?_⟩
      by_cases hlt : ((t.rows node).above x).length < t.geometry.pairs
      · rw [if_pos hlt, hshows.value_free _ hge hlt]
        cases floor <;> rfl
      · rw [if_neg hlt]
        cases floor <;> rfl
  · rw [if_neg hdepth]
    refine Or.inr ⟨fun hl => hdepth hl.1, ?_⟩
    cases floor <;> rfl

/-! ### The search -/

/-- The numbers that the separators stand for below which a search started again. -/
def Tree.Stop.floors (dead : List Tree.Stop) : List Nat := dead.filterMap fun stop => stop.separator.map Words.toNat

/-- The descents that find nothing, from the one that looks below `x` on, end nearer and nearer to the root, and look
below smaller and smaller keys. -/
structure Tree.Narrows (t : Tree w) (r : Handle) (x : Nat) (dead : List Tree.Stop) : Prop where
  nearer : dead.IsChain fun a b => b.depth < a.depth
  smaller : (x :: Stop.floors dead).IsChain (· > ·)
  passed : ∀ stop ∈ dead, stop.separator ≠ none → 0 < stop.depth
  head : ∀ stop ∈ dead.head?, 0 < x ∧ ∃ floor, t.rows.Falls (x - 1) (t.height - 1) r stop.depth stop.node floor ∧
    ¬t.rows.Lands (x - 1) (t.height - 1) stop.depth stop.node

/-- The search for the last entry below a key comes to an end. -/
theorem Tree.Fenced.search {r : Handle} (hf : t.Fenced (t.height - 1) r none none) (hx : x < 2 ^ (64 * w.words)) :
    ∃ dead entry, t.Search r (Words.ofNat w.words x) dead entry ∧ t.Narrows r x dead := by
  -- each turn looks below a smaller key, and the depths follow from `restarts` afterwards
  induction x using Nat.strongRecOn with
  | ind x ih =>
    cases x with
    | zero =>
      have hzero := (Words.isZero_ofNat hx).mpr rfl
      exact ⟨[], none, .zero hzero, .nil, .singleton 0, fun stop hstop => (by cases hstop),
        fun stop hstop => (by cases hstop)⟩
    | succ x =>
      have hzero : (Words.ofNat w.words (x + 1)).isZero = false :=
        Bool.eq_false_iff.mpr fun h0 => Nat.succ_ne_zero x ((Words.isZero_ofNat hx).mp h0)
      have hpred : (Words.ofNat w.words (x + 1)).pred = Words.ofNat w.words x := Words.pred_ofNat (Nat.succ_pos x) hx
      obtain ⟨depth, node, floor, hfall, hdive, ⟨entry, hprobe⟩ | ⟨hdead, hprobe⟩⟩ := hf.probe (x := x) (by omega)
      · exact ⟨[], entry, .found hzero (hpred ▸ hprobe), .nil, .singleton _, fun stop hstop => (by cases hstop),
          fun stop hstop => (by cases hstop)⟩
      have hhere : ∀ stop ∈ some (⟨node, depth, floor.map (Words.ofNat w.words)⟩ : Stop), 0 < x + 1 ∧ ∃ floor,
          t.rows.Falls (x + 1 - 1) (t.height - 1) r stop.depth stop.node floor ∧
          ¬t.rows.Lands (x + 1 - 1) (t.height - 1) stop.depth stop.node := fun stop hstop => by
        cases hstop
        exact ⟨Nat.succ_pos x, floor, hfall, hdead⟩
      cases floor with
      | none =>
        refine ⟨_, none, .nothing hzero (hpred ▸ hprobe) (hpred ▸ hdive), .singleton _, .singleton _,
          fun stop hstop hne => ?_, hhere⟩
        obtain rfl := List.mem_singleton.mp hstop
        exact absurd rfl hne
      | some s =>
        have hsx : s ≤ x := hfall.floor_le s rfl
        have hs : Words.toNat (Words.ofNat w.words s) = s := Words.toNat_ofNat (by omega)
        obtain ⟨dead, entry, hsearch, hnarrows⟩ := ih s (by omega) (by omega)
        refine ⟨_, entry, .again hzero (hpred ▸ hprobe) (hpred ▸ hdive) rfl hsearch,
          List.isChain_cons.mpr ⟨fun stop hstop => ?_, hnarrows.nearer⟩, ?_, fun stop hstop hne => ?_, hhere⟩
        · obtain ⟨hpos, floor', hfall', hdead'⟩ := hnarrows.head stop hstop
          exact hf.restarts hfall hpos hfall' hdead'
        · change ((x + 1) :: Words.toNat (Words.ofNat w.words s) :: Stop.floors dead).IsChain (· > ·)
          rw [hs]
          exact List.isChain_cons_cons.mpr ⟨by omega, hnarrows.smaller⟩
        · rcases List.mem_cons.mp hstop with rfl | hstop
          · exact hfall.depth_pos
          · exact hnarrows.passed stop hstop hne

end Falls

section Trees
variable {w : Width} {t : Tree w} {r : Handle} {target : Words} {dead : List Tree.Stop} {entry : Option (Entry w)}

/-- As many turns as levels are enough: a descent that is followed by another one ended below the root. -/
theorem Tree.Search.within (hs : t.Search r target dead entry) (hnearer : dead.IsChain fun a b => b.depth < a.depth)
    (hpassed : ∀ stop ∈ dead, stop.separator ≠ none → 0 < stop.depth) {fuel : Nat} (hfuel : 0 < fuel)
    (hhead : ∀ stop ∈ dead.head?, stop.depth < fuel) : t.searchWithin r fuel target = .ok (some entry) := by
  induction hs generalizing fuel with
  | zero hzero =>
    obtain ⟨fuel, rfl⟩ := Nat.exists_eq_add_one.mpr hfuel
    rw [searchWithin, if_pos hzero]
    rfl
  | found hzero hprobe =>
    obtain ⟨fuel, rfl⟩ := Nat.exists_eq_add_one.mpr hfuel
    rw [searchWithin, if_neg (by rw [hzero]; exact Bool.false_ne_true), hprobe]
    rfl
  | nothing hzero hprobe =>
    obtain ⟨fuel, rfl⟩ := Nat.exists_eq_add_one.mpr hfuel
    rw [searchWithin, if_neg (by rw [hzero]; exact Bool.false_ne_true), hprobe]
    rfl
  | @again target separator stop dead entry hzero hprobe _ hseparator _ ih =>
    obtain ⟨fuel, rfl⟩ := Nat.exists_eq_add_one.mpr hfuel
    obtain ⟨hnext, hrest⟩ := List.isChain_cons.mp hnearer
    have hpos : 0 < stop.depth := hpassed stop List.mem_cons_self (by rw [hseparator]; exact Option.some_ne_none _)
    have hlt : stop.depth < fuel + 1 := hhead stop rfl
    rw [searchWithin, if_neg (by rw [hzero]; exact Bool.false_ne_true), hprobe]
    exact ih hrest (fun stop' h' => hpassed stop' (List.mem_cons_of_mem _ h')) (by omega) fun stop' h' => by
      have := hnext stop' h'
      omega

/-- A search that starts again below smaller keys is the one that `prev` makes. -/
theorem Tree.Search.searchBelow (hs : t.Search r target dead entry)
    (hsmaller : (target.toNat :: Stop.floors dead).IsChain (· > ·)) : t.searchBelow r target = .ok entry := by
  induction hs with
  | zero hzero =>
    rw [Tree.searchBelow, if_pos hzero]
    rfl
  | found hzero hprobe =>
    rw [Tree.searchBelow, if_neg (by rw [hzero]; exact Bool.false_ne_true), hprobe]
    rfl
  | nothing hzero hprobe =>
    rw [Tree.searchBelow, if_neg (by rw [hzero]; exact Bool.false_ne_true), hprobe]
    rfl
  | @again target separator stop dead entry hzero hprobe _ hseparator _ ih =>
    have hfloors : Stop.floors (stop :: dead) = separator.toNat :: Stop.floors dead :=
      List.filterMap_cons_some (by rw [hseparator]; rfl)
    rw [hfloors] at hsmaller
    obtain ⟨hlt, hrest⟩ := List.isChain_cons_cons.mp hsmaller
    rw [Tree.searchBelow, if_neg (by rw [hzero]; exact Bool.false_ne_true), hprobe]
    exact (if_pos hlt).trans (ih hrest)

/-- Descents that end nearer and nearer to the root are not more than the levels. -/
theorem Tree.Stop.length_le {n : Nat} (hnearer : dead.IsChain fun a b => b.depth < a.depth)
    (hhead : ∀ stop ∈ dead.head?, stop.depth < n) : dead.length ≤ n := by
  induction dead generalizing n with
  | nil => exact Nat.zero_le n
  | cons stop dead ih =>
    obtain ⟨hnext, hrest⟩ := List.isChain_cons.mp hnearer
    exact Nat.lt_of_le_of_lt (ih hrest hnext) (hhead stop rfl)

/-- The search for the entry before `k` takes no more turns than there are levels. Each of its descents that finds
nothing ends nearer the root than the one before, and looks below a smaller key. -/
def Tree.Settles (t : Tree w) (k : Key w) : Prop :=
  ∃ entry, t.prev k = .ok entry ∧ t.prevWithin t.height k = .ok (some entry) ∧ ∀ r, t.root = some r →
    ∃ dead, t.Search r k.toWords dead entry ∧ dead.Pairwise (fun a b => b.depth < a.depth) ∧
      (k.val :: Stop.floors dead).Pairwise (· > ·) ∧ dead.length ≤ t.height

/-- In every tree that passes the check, whatever brought it there, the search for the entry before a key settles. -/
theorem Tree.settles_of_validate (hv : t.validate = .ok (.ok ())) (k : Key w) : t.Settles k := by
  rcases Passes.of_check (Tree.passes_of_validate hv) with ⟨hroot, -⟩ | ⟨r, hroot, htall, hf, -⟩
  · refine ⟨none, ?_, ?_, fun r hr => ?_⟩
    · rw [prev, hroot]
      rfl
    · rw [prevWithin, hroot]
      rfl
    · rw [hroot] at hr
      cases hr
  have hk : k.val < 2 ^ (64 * w.words) := Nat.lt_of_lt_of_le k.isLt (Key.pow_bits_le w)
  obtain ⟨dead, entry, hsearch, hn⟩ := hf.search hk
  have hhead : ∀ stop ∈ dead.head?, stop.depth < t.height := fun stop hstop => by
    obtain ⟨-, floor, hfall, -⟩ := hn.head stop hstop
    have := hfall.depth_le
    omega
  have hbelow : t.searchBelow r k.toWords = .ok entry :=
    hsearch.searchBelow (by rw [Words.toNat_ofNat hk]; exact hn.smaller)
  have hwithin : t.searchWithin r t.height k.toWords = .ok (some entry) :=
    hsearch.within hn.nearer hn.passed htall hhead
  -- neighbours compare, so all do
  have : Trans (fun a b : Stop => b.depth < a.depth) (fun a b : Stop => b.depth < a.depth)
      fun a b : Stop => b.depth < a.depth := ⟨fun hab hbc => hbc.trans hab⟩
  refine ⟨entry, ?_, ?_, fun r' hr' => ?_⟩
  · rw [prev, hroot]
    exact hbelow
  · rw [prevWithin, hroot]
    exact hwithin
  · obtain rfl : r = r' := Option.some.inj (hroot.symm.trans hr')
    exact ⟨dead, hsearch, List.isChain_iff_pairwise.mp hn.nearer, List.isChain_iff_pairwise.mp hn.smaller,
      Stop.length_le hn.nearer hhead⟩

/-- In the worn tree the key 2 is gone, and its leaf still has it for a separator. The search for the entry before the
key 3 comes to that leaf, finds nothing there and starts again below 2. -/
theorem settles_in_worn : Tree.worn.validate = .ok (.ok ()) ∧ Tree.worn.prevWithin 1 3 = .ok none ∧
    Tree.worn.Settles 3 := by
  have hv : Tree.worn.validate = .ok (.ok ()) := by decide +kernel
  exact ⟨hv, by decide +kernel, Tree.settles_of_validate hv 3⟩

end Trees
end MemoTree
