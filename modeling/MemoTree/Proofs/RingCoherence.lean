import MemoTree.Proofs.Anatomy

/-! # Memos agree with scans

In a reachable tree a memo that is served leads where a scan of its owner leads now, whatever happened since it was
stored: the child of any other memo is deleted. A ring serves at most one memo for a key, so that it does not matter
where a search in it begins. The memos that name a node are all in one ring, so that it is named four times at most. -/

namespace MemoTree
open Pool NodePool Rows

/-- The first slot of `n` whose key is at most `key` is slot `i`, and names the child `k`. -/
structure Tree.Selects {w : Width} (t : Tree w) (n : Node) (key : Words) (i : Nat) (k : Handle) : Prop where
  position : n.position t.geometry key = .ok i
  before : ∀ j < i, ∃ a, n.key t.geometry j = .ok a ∧ key.toNat < a.toNat
  separator : ∃ a, n.key t.geometry i = .ok a ∧ a.toNat ≤ key.toNat
  child : n.child t.geometry i = .ok (some k)

/-- The memo rings agree with the nodes of the tree. -/
structure Tree.RingsAgree {w : Width} (t : Tree w) : Prop where
  serves : ∀ h n, t.Inner h → t.pool.block h = .ok n → ∀ m ∈ n.ring.memos,
    t.pool.Dead m.child ∨ ∃ i, t.Selects n m.key i m.child
  single : ∀ h n, t.pool.block h = .ok n → ∀ i j : Fin 4, ∀ m m', n.ring.slots.get i = some m →
    n.ring.slots.get j = some m' → m.key = m'.key → ¬t.pool.Dead m.child → ¬t.pool.Dead m'.child → i = j
  /-- A search for a key has the same answer wherever it begins. -/
  steady : ∀ h n, t.pool.block h = .ok n → ∀ key, ∃ answer, ∀ probe, ∃ p',
    Runs (NodePool.remembered h key) (t.pool.put h { n with ring := { n.ring with probe := probe } }) answer p'
  leaves : ∀ h n, t.Leaf h → t.pool.block h = .ok n → n.ring.memos = []
  solo : ∀ h h' n n', t.pool.block h = .ok n → t.pool.block h' = .ok n' → ∀ m ∈ n.ring.memos, ∀ m' ∈ n'.ring.memos,
    m.child = m'.child → h = h'
  refs : ∀ h n, t.pool.block h = .ok n → n.refs ≤ 4

/-! ### Rings -/

theorem Ring.length_memos_le (r : Ring) : r.memos.length ≤ 4 := by
  have hlen := List.length_filterMap_le id r.slots.toList
  rwa [Vector.length_toList] at hlen

/-- Of two memos in different slots, the memos list one before the other. -/
theorem Ring.pairwise_slots {r : Ring} {R : Memo → Memo → Prop} (hr : r.memos.Pairwise R) {i j : Fin 4} {m m' : Memo}
    (hij : i < j) (hi : r.slots[i] = some m) (hj : r.slots[j] = some m') : R m m' := by
  have hslots := List.pairwise_filterMap.mp hr
  rw [List.pairwise_iff_getElem] at hslots
  have hlen : ∀ i : Fin 4, i.val < r.slots.toList.length := fun i => by
    rw [Vector.length_toList]
    exact i.isLt
  refine hslots i.val j.val (hlen i) (hlen j) hij m ?_ m' ?_
  · rw [Vector.getElem_toList]
    exact hi
  · rw [Vector.getElem_toList]
    exact hj

section Pools
variable {p p' : NodePool} {h k : Handle} {n : Node} {key : Words} {l l' : List Memo}

/-- A search does not depend on the order of the memos if only one child is served. -/
theorem firstServing_congr (hdead : ∀ k, p'.Dead k ↔ p.Dead k) (hl : ∀ m ∈ l, ∃ b, p.block m.child = .ok b)
    (hl' : ∀ m ∈ l', ∃ b, p'.block m.child = .ok b) (hmem : ∀ m, m ∈ l' ↔ m ∈ l)
    (hsingle : ∀ m ∈ l, ∀ m' ∈ l, m.key = m'.key → ¬p.Dead m.child → ¬p.Dead m'.child → m.child = m'.child) :
    NodePool.firstServing p' key l' = NodePool.firstServing p key l := by
  rcases firstServing_spec key hl with ⟨m, hm, hk, hd, hserve⟩ | ⟨hall, hserve⟩
  · rcases firstServing_spec key hl' with ⟨m', hm', hk', hd', hserve'⟩ | ⟨hall', -⟩
    · rw [hserve, hserve', hsingle m' ((hmem m').mp hm') m hm (hk'.trans hk.symm) (fun h => hd' ((hdead _).mpr h)) hd]
    · exact absurd ((hdead _).mp (hall' m ((hmem m).mpr hm) hk)) hd
  · rcases firstServing_spec key hl' with ⟨m', hm', hk', hd', -⟩ | ⟨-, hserve'⟩
    · exact absurd ((hdead _).mpr (hall m' ((hmem m').mp hm') hk')) hd'
    · rw [hserve, hserve']

/-- Turning a ring does not change which nodes are deleted. -/
theorem Pool.dead_put_ring (hn : p.block h = .ok n) (ring : Ring) :
    (p.put h { n with ring := ring }).Dead k ↔ p.Dead k := by
  rw [Dead, Dead, block_put hn]
  by_cases hk : k = h
  · rw [if_pos hk, hk, hn]
    constructor
    · rintro ⟨_, hx, hd⟩
      cases hx
      exact ⟨n, rfl, hd⟩
    · rintro ⟨_, hx, hd⟩
      cases hx
      exact ⟨_, rfl, hd⟩
  · rw [if_neg hk]

/-- What a search in the ring of a node answers. -/
theorem remembered_spec {answer : Option Handle} (hn : p.block h = .ok n)
    (hserve : NodePool.firstServing p key n.ring.fromProbe = .ok answer) :
    ∃ p', Runs (NodePool.remembered h key) p answer p' := by
  cases answer with
  | some k =>
    exact ⟨p, Runs.bind (Runs.get _) (Runs.bind (Runs.read hn) (Runs.bind (Runs.lift hserve _) (Runs.pure _ _)))⟩
  | none =>
    exact ⟨_, Runs.bind (Runs.get _) (Runs.bind (Runs.read hn) (Runs.bind (Runs.lift hserve _)
      (Runs.bind (Runs.update hn rfl) (Runs.pure _ _))))⟩

/-- A node that one ring names is named as often as that ring names it. -/
theorem Pool.named_of_sole (hsmall : p.blocks.size < 2 ^ 32) (hn : p.block h = .ok n)
    (hsole : ∀ h' n', p.block h' = .ok n' → h' ≠ h → ∀ m ∈ n'.ring.memos, m.child ≠ k) :
    p.named k = n.ring.count k := by
  have hput := named_put { n with ring := Ring.empty } hn k
  have hrest : (p.put h { n with ring := Ring.empty }).named k = 0 := by
    refine named_eq_zero (by rwa [size_put]) fun h' n' hn' m hm => ?_
    rw [block_put hn] at hn'
    split at hn'
    · cases hn'
      rw [Ring.memos_empty] at hm
      cases hm
    · rename_i hne
      exact hsole h' n' hn' hne m hm
  have hnone : Ring.empty.count k = 0 := Ring.count_eq_zero Ring.memos_empty k
  rw [hrest, hnone] at hput
  omega

end Pools
/-! ### The rings of whole trees -/

section Trees
variable {w : Width} {t : Tree w} {row : Row} {n : Node} {h k : Handle} {x : Nat} {e : Pair}

/-- A scan of a row selects a slot of its node. -/
theorem Packs.selects (hp : Packs t.geometry n.words row) (hx : x < 2 ^ (64 * t.geometry.keyLength))
    (hs : row.scan x = some e) (hk : e.child = some k) :
    t.Selects n (Words.ofNat t.geometry.keyLength x) (row.above x).length k := by
  have hslot : row[(row.above x).length]? = some e := by rw [Row.getElem?_place, Row.head?_upTo, hs]
  refine ⟨hp.position_eq hx, fun j hj => ?_, ?_, (hp.child_eq hslot).trans (congrArg Except.ok hk)⟩
  · have hj' := Row.getElem?_above hj
    refine ⟨_, hp.key_eq hj', ?_⟩
    rw [Words.toNat_ofNat hx, Words.toNat_ofNat (hp.small (List.mem_of_getElem? hj'))]
    exact Row.lt_of_mem_above (List.getElem_mem hj)
  · refine ⟨_, hp.key_eq hslot, ?_⟩
    rw [Words.toNat_ofNat hx, Words.toNat_ofNat (hp.small (Row.mem_of_scan hs))]
    exact Row.le_of_scan hs

namespace Whole

theorem coherent (hw : Whole t row) : ∃ c, Coherent w t.pool c [] := by
  rcases hw.state with ⟨hb, -⟩ | ⟨c, r, hr, -⟩
  · exact ⟨fun _ => [], hb.coherent _⟩
  · exact ⟨c, hr.coherent⟩

theorem serves (hw : Whole t row) (hh : t.Inner h) (hn : t.pool.block h = .ok n) {m : Memo} (hm : m ∈ n.ring.memos) :
    t.pool.Dead m.child ∨ ∃ i, t.Selects n m.key i m.child := by
  obtain ⟨d, hd, hlt⟩ := hh
  rcases hw.state with ⟨hb, -⟩ | ⟨c, r, hr, -⟩
  · obtain ⟨_, _, ha⟩ := hd
    exact absurd ha hb.not_at
  · obtain ⟨hd, hh⟩ := hr.has_iff.mp hd
    have hpacks := hr.stand.stock.packs h n hn (hr.live_level hd hh)
    rcases hr.coherent.serves h n hn m hm with hdead | hlate | ⟨x, hx, hkey, hlook⟩
    · exact Or.inl hdead
    · cases hlate
    · obtain ⟨e, he, hek⟩ := look_eq_some.mp hlook
      rw [hkey]
      exact Or.inr ⟨_, hpacks.selects (Nat.lt_of_lt_of_le hx (Key.pow_bits_le w)) he hek⟩

/-- Two memos for a key that are both served are one. -/
theorem single (hw : Whole t row) (hn : t.pool.block h = .ok n) {i j : Fin 4} {m m' : Memo}
    (hi : n.ring.slots.get i = some m) (hj : n.ring.slots.get j = some m') (hkey : m.key = m'.key)
    (hd : ¬t.pool.Dead m.child) (hd' : ¬t.pool.Dead m'.child) : i = j := by
  obtain ⟨c, hc⟩ := hw.coherent
  have hsingle := hc.single h n hn
  rcases lt_trichotomy i j with hij | hij | hij
  · exact ((Ring.pairwise_slots hsingle hij hi hj hkey).elim hd hd').elim
  · exact hij
  · exact ((Ring.pairwise_slots hsingle hij hj hi hkey.symm).elim hd' hd).elim

theorem steady (hw : Whole t row) (hn : t.pool.block h = .ok n) (key : Words) : ∃ answer, ∀ probe, ∃ p',
    Runs (NodePool.remembered h key) (t.pool.put h { n with ring := { n.ring with probe := probe } }) answer p' := by
  obtain ⟨c, hc⟩ := hw.coherent
  have hknown := hw.ledger.known h n hn
  have hsingle : ∀ m ∈ n.ring.memos, ∀ m' ∈ n.ring.memos, m.key = m'.key → ¬t.pool.Dead m.child →
    ¬t.pool.Dead m'.child → m.child = m'.child := fun m hm m' hm' hkey hd hd' => by
    obtain ⟨i, hi⟩ := Ring.mem_memos.mp hm
    obtain ⟨j, hj⟩ := Ring.mem_memos.mp hm'
    rw [hw.single (i := i) (j := j) hn hi hj hkey hd hd', hj] at hi
    cases hi
    rfl
  have hanswer : ∃ answer, NodePool.firstServing t.pool key n.ring.memos = .ok answer := by
    rcases firstServing_spec key hknown with ⟨m, -, -, -, hserve⟩ | ⟨-, hserve⟩
    · exact ⟨_, hserve⟩
    · exact ⟨_, hserve⟩
  obtain ⟨answer, hserve⟩ := hanswer
  refine ⟨answer, fun probe => remembered_spec (block_put_self hn) ?_⟩
  rw [← hserve]
  have hmem : ∀ m, m ∈ ({ n.ring with probe := probe } : Ring).fromProbe ↔ m ∈ n.ring.memos :=
    fun m => Ring.mem_fromProbe
  exact firstServing_congr (fun k => dead_put_ring hn _) hknown
    (fun m hm => (exists_block_put hn).mpr (hknown m ((hmem m).mp hm))) hmem hsingle

/-- A node is named four times at most. -/
theorem refs_le (hw : Whole t row) (hn : t.pool.block h = .ok n) : n.refs ≤ 4 := by
  obtain ⟨c, hc⟩ := hw.coherent
  have hl := hw.ledger
  have hrefs := hl.refs h n hn
  rw [List.count_nil, Nat.add_zero] at hrefs
  rw [hrefs]
  by_cases hnames : t.pool.Names h
  · obtain ⟨p, x, hx, m, hm, hmh⟩ := hnames
    rw [named_of_sole hl.small hx fun p' x' hx' hne m' hm' hmh' =>
      hne (hc.solo p' p x' x hx' hx m' hm' m hm (hmh'.trans hmh.symm))]
    exact List.countP_le_length.trans x.ring.length_memos_le
  · rw [Pool.named_eq_zero hl.small fun p x hx m hm hmh => hnames ⟨p, x, hx, m, hm, hmh⟩]
    exact Nat.zero_le 4

theorem ringsAgree (hw : Whole t row) : t.RingsAgree where
  serves _ _ hh hn _ hm := hw.serves hh hn hm
  single _ _ hn _ _ _ _ hi hj hkey hd hd' := hw.single hn hi hj hkey hd hd'
  steady _ _ hn key := hw.steady hn key
  leaves h n hh hn := by
    rcases hw.state with ⟨hb, -⟩ | ⟨c, r, hr, -⟩
    · obtain ⟨_, _, ha⟩ := hh
      exact absurd ha hb.not_at
    · exact hr.quiet (hr.leaf_iff.mp hh) n hn
  solo := by
    obtain ⟨c, hc⟩ := hw.coherent
    exact hc.solo
  refs _ _ hn := hw.refs_le hn

end Whole

/-- The memo rings of every reachable tree agree with its nodes. -/
theorem Tree.Reachable.rings_agree (ht : t.Reachable) : t.RingsAgree := by
  obtain ⟨row, hw⟩ := ht.whole
  exact hw.ringsAgree

end Trees

/-- The worn tree holds a memo. -/
theorem rings_agree_of_worn : Tree.worn.Reachable ∧ Tree.worn.RingsAgree ∧
    Tree.worn.pool.blocks.any (fun n => n.ring.memos ≠ []) = true :=
  ⟨Tree.worn_reachable, Tree.worn_reachable.rings_agree, by decide +kernel⟩

end MemoTree
