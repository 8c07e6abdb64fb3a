import MemoTree.Proofs.Anatomy

/-! # Who owns the blocks

Every block of a reachable tree's pool is a node of the tree, a deferred node, or free. A node of the tree is linked
from one place. A deferred node was unlinked, but memos still name it; a free block is on the free list once, and no
memo names it. Each block counts the memos that name it, and only the nodes above the lowest level hold memos. So the
blocks that are out are the nodes of the tree and the deferred nodes. -/

namespace MemoTree
open Pool NodePool Rows

/-- The places that a node of the tree is linked from: the root of the tree, or a slot of a node above the lowest
level. -/
inductive Tree.Links {w : Width} (t : Tree w) : Option (Handle × Nat) → Handle → Prop
  | root {r : Handle} : t.root = some r → Links t none r
  | slot {p k : Handle} {i : Nat} {n : Node} : t.Inner p → t.pool.block p = .ok n →
      n.child t.geometry i = .ok (some k) → Links t (some (p, i)) k

/-- `h` was unlinked, and references to it are still counted. -/
def Tree.Deferred {w : Width} (t : Tree w) (h : Handle) : Prop :=
  ¬t.Linked h ∧ ∃ n, t.pool.block h = .ok n ∧ n.deleted = true ∧ 0 < n.refs

/-- A memo of `p` names `h`. -/
def Tree.Remembers {w : Width} (t : Tree w) (p h : Handle) : Prop :=
  ∃ n, t.pool.block p = .ok n ∧ ∃ m ∈ n.ring.memos, m.child = h

/-- The blocks of the pool are accounted for. -/
structure Tree.Accounted {w : Width} (t : Tree w) : Prop where
  /-- Every block is of one of three classes. -/
  classes : ∀ h n, t.pool.block h = .ok n → t.Linked h ∨ t.Deferred h ∨ h ∈ t.pool.free
  linked : ∀ h, t.Linked h → (∃ n, t.pool.block h = .ok n ∧ n.deleted = false) ∧ h ∉ t.pool.free ∧ ∃! s, t.Links s h
  deferred : ∀ h, t.Deferred h → h ∉ t.pool.free
  free : ∀ h ∈ t.pool.free, ¬t.Linked h ∧ ∃ n, t.pool.block h = .ok n ∧ n.refs = 0
  once : t.pool.free.Nodup
  refs : ∀ h n, t.pool.block h = .ok n → n.refs = t.pool.named h
  rings : ∀ h n, t.pool.block h = .ok n → n.ring.memos ≠ [] → t.Inner h
  deferred_iff : ∀ h, t.Deferred h ↔ (∃ n, t.pool.block h = .ok n ∧ n.deleted = true) ∧ ∃ p, t.Inner p ∧ t.Remembers p h
  out : ∃ nodes deferred : Nat, t.nodeCount = .ok nodes ∧ {h | t.Deferred h}.encard = deferred ∧
    t.pool.outstanding = .ok (nodes + deferred)

/-! ### The handles of a pool -/

namespace Pool
variable {p : NodePool} {h : Handle}

/-- The handles of all blocks of a pool. -/
def handles (p : NodePool) (hsmall : p.blocks.size < 2 ^ 32) : List Handle :=
  (List.finRange p.blocks.size).map fun i => ⟨i.val, by omega⟩

theorem mem_handles (hsmall : p.blocks.size < 2 ^ 32) : h ∈ p.handles hsmall ↔ ∃ n, p.block h = .ok n := by
  rw [handles, List.mem_map]
  constructor
  · rintro ⟨i, -, rfl⟩
    exact ⟨p.blocks[i.val], block_eq_ok.mpr (Array.getElem?_eq_getElem i.isLt)⟩
  · rintro ⟨n, hn⟩
    exact ⟨⟨h.index, index_lt hn⟩, List.mem_finRange _, rfl⟩

theorem nodup_handles (hsmall : p.blocks.size < 2 ^ 32) : (p.handles hsmall).Nodup :=
  (List.nodup_finRange _).map fun _ _ hij => Fin.ext (Handle.mk.inj hij)

theorem length_handles (hsmall : p.blocks.size < 2 ^ 32) : (p.handles hsmall).length = p.blocks.size := by
  rw [handles, List.length_map, List.length_finRange]

/-- A block is in use, unlinked and still counted, or free. -/
theorem Ledger.classes {n : Node} (hl : Ledger p []) (hn : p.block h = .ok n) :
    p.Live h ∨ (n.deleted = true ∧ 0 < n.refs) ∨ h ∈ p.free := by
  by_cases hf : h ∈ p.free
  · exact Or.inr (Or.inr hf)
  · cases hd : n.deleted with
    | false => exact Or.inl ⟨n, hn, hd, hf⟩
    | true => exact Or.inr (Or.inl ⟨rfl, Nat.pos_of_ne_zero fun h0 => hf ((hl.deleted h n hn hd).2 h0)⟩)

theorem Ledger.refs_pos {n : Node} (hl : Ledger p []) (hn : p.block h = .ok n) (hnames : p.Names h) : 0 < n.refs := by
  obtain ⟨k, x, hx, m, hm, hmh⟩ := hnames
  have hcount := count_le_named hx h
  have hpos := Ring.count_pos.mpr ⟨m, hm, hmh⟩
  have hrefs := hl.refs h n hn
  rw [List.count_nil] at hrefs
  omega

theorem Ledger.names_of_refs {n : Node} (hl : Ledger p []) (hn : p.block h = .ok n) (hpos : 0 < n.refs) :
    p.Names h := by
  by_contra hnot
  have hnamed := Pool.named_eq_zero (k := h) hl.small fun k x hx m hm hmh => hnot ⟨k, x, hx, m, hm, hmh⟩
  have hrefs := hl.refs h n hn
  rw [List.count_nil] at hrefs
  omega

end Pool

/-! ### Where nodes are linked from -/

section Trees
variable {w : Width} {t : Tree w} {c : Rows} {r h k : Handle} {row : Row}

/-- A pair is in one slot of a row. -/
theorem Row.Descending.slot_inj {e : Pair} {i j : Nat} (hd : row.Descending) (hi : row[i]? = some e)
    (hj : row[j]? = some e) : i = j := by
  obtain ⟨hi', hie⟩ := List.getElem?_eq_some_iff.mp hi
  obtain ⟨hj', hje⟩ := List.getElem?_eq_some_iff.mp hj
  have hlt := fun {a b} (ha : a < row.length) (hb : b < row.length) hab => List.pairwise_iff_getElem.mp hd a b ha hb hab
  rcases Nat.lt_trichotomy i j with hij | hij | hij
  · have := hlt hi' hj' hij
    rw [hie, hje] at this
    exact absurd this (Nat.lt_irrefl _)
  · exact hij
  · have := hlt hj' hi' hij
    rw [hie, hje] at this
    exact absurd this (Nat.lt_irrefl _)

namespace Rooted

theorem inner_iff (hr : Rooted t c r) : t.Inner h ↔ ∃ d < t.height - 1, h ∈ c.level r d := by
  have htall := hr.tall
  constructor
  · rintro ⟨d, hd, hlt⟩
    exact ⟨d, by omega, (hr.has_iff.mp hd).2⟩
  · rintro ⟨d, hd, hh⟩
    exact ⟨d, hr.has (by omega) hh, by omega⟩

/-- A slot that links a node is a slot of its parent. -/
theorem of_links_slot (hr : Rooted t c r) {p : Handle} {i : Nat} (hl : t.Links (some (p, i)) k) :
    ∃ d < t.height - 1, p ∈ c.level r d ∧ ∃ e, (c p)[i]? = some e ∧ e.child = some k := by
  cases hl with
  | slot hp hn hk =>
    obtain ⟨d, hd, hp⟩ := hr.inner_iff.mp hp
    obtain ⟨e, he, hek, -⟩ := hr.of_child (by omega) hp hn hk
    exact ⟨d, hd, hp, e, he, hek⟩

theorem not_slot_root (hr : Rooted t c r) {s : Handle × Nat} : ¬t.Links (some s) r := fun hl => by
  obtain ⟨d, hd, hp, e, he, hek⟩ := hr.of_links_slot hl
  have hlevel : r ∈ c.level r (d + 1) := mem_level_succ.mpr ⟨_, hp, mem_kids.mpr ⟨e, List.mem_of_getElem? he, hek⟩⟩
  exact absurd (level_unique hr.sound.nodup (Nat.zero_le _) hd (List.mem_singleton_self r) hlevel) (by omega)

/-- A node is linked from one place. -/
theorem links_unique (hr : Rooted t c r) {s s' : Option (Handle × Nat)} (hs : t.Links s k) (hs' : t.Links s' k) :
    s = s' := by
  have hroot : t.Links none k → k = r := fun h => by
    cases h with
    | root h => exact Option.some.inj (h.symm.trans hr.stand.root)
  cases s with
  | none =>
    cases s' with
    | none => rfl
    | some s' => exact absurd (hroot hs ▸ hs') hr.not_slot_root
  | some s =>
    cases s' with
    | none => exact absurd (hroot hs' ▸ hs) hr.not_slot_root
    | some s' =>
      obtain ⟨p, i⟩ := s
      obtain ⟨p', i'⟩ := s'
      obtain ⟨d, hd, hp, e, he, hek⟩ := hr.of_links_slot hs
      obtain ⟨d', hd', hp', e', he', hek'⟩ := hr.of_links_slot hs'
      have hk : k ∈ c.kids p := mem_kids.mpr ⟨e, List.mem_of_getElem? he, hek⟩
      have hk' : k ∈ c.kids p' := mem_kids.mpr ⟨e', List.mem_of_getElem? he', hek'⟩
      obtain rfl : d = d' := by
        have := level_unique hr.sound.nodup hd hd' (mem_level_succ.mpr ⟨p, hp, hk⟩) (mem_level_succ.mpr ⟨p', hp', hk'⟩)
        omega
      obtain rfl : p = p' := hr.sound.parent_unique hd hp hp' hk hk'
      obtain rfl : e = e' := hr.sound.slot_unique hd hp (List.mem_of_getElem? he) (List.mem_of_getElem? he') hek hek'
      rw [(hr.sound.descending_level (Nat.le_of_lt hd) hp).slot_inj he he']

/-- Every node is linked from somewhere. -/
theorem exists_links (hr : Rooted t c r) (hk : t.Linked k) : ∃ s, t.Links s k := by
  obtain ⟨d, hd⟩ := hk
  obtain ⟨hd, hk⟩ := hr.has_iff.mp hd
  cases d with
  | zero =>
    obtain rfl := List.mem_singleton.mp hk
    exact ⟨none, .root hr.stand.root⟩
  | succ d =>
    obtain ⟨p, hp, hkp⟩ := mem_level_succ.mp hk
    obtain ⟨e, he, hek⟩ := mem_kids.mp hkp
    obtain ⟨n, hn, hpacks⟩ := hr.stand.stock.node (hr.live_level (by omega) hp)
    obtain ⟨i, hi, hie⟩ := List.getElem_of_mem he
    have hslot : (c p)[i]? = some e := by rw [List.getElem?_eq_getElem hi, hie]
    exact ⟨some (p, i), .slot (hr.inner_iff.mpr ⟨d, by omega, hp⟩) hn
      ((hpacks.child_eq hslot).trans (congrArg Except.ok hek))⟩

end Rooted
/-! ### Whole trees are accounted for -/

namespace Whole

theorem not_linked (hw : Whole t row) {n : Node} (hn : t.pool.block h = .ok n) (hd : n.deleted = true) : ¬t.Linked h :=
  fun hl => not_live_of_deleted hn hd (hw.linked_iff.mp hl)

/-- Only the nodes above the lowest level hold memos. -/
theorem inner_of_memos (hw : Whole t row) {n : Node} (hn : t.pool.block h = .ok n) (hne : n.ring.memos ≠ []) :
    t.Inner h := by
  have hlive : t.pool.Live h := by
    by_contra hnot
    exact hne (hw.ledger.quiet hnot n hn)
  rcases hw.state with ⟨hb, -⟩ | ⟨c, r, hr, -⟩
  · exact absurd hlive (hb.unused h)
  · obtain ⟨d, hd, hh⟩ := mem_under.mp (hr.live.mp hlive)
    refine hr.inner_iff.mpr ⟨d, Nat.lt_of_le_of_ne hd fun heq => hne ?_, hh⟩
    exact hr.quiet (heq ▸ hh) n hn

/-- The deferred nodes are the deleted nodes that memos name. -/
theorem deferred_iff (hw : Whole t row) :
    t.Deferred h ↔ (∃ n, t.pool.block h = .ok n ∧ n.deleted = true) ∧ ∃ p, t.Inner p ∧ t.Remembers p h := by
  constructor
  · rintro ⟨-, n, hn, hd, hpos⟩
    obtain ⟨p, x, hx, m, hm, hmh⟩ := hw.ledger.names_of_refs hn hpos
    exact ⟨⟨n, hn, hd⟩, p, hw.inner_of_memos hx (List.ne_nil_of_mem hm), x, hx, m, hm, hmh⟩
  · rintro ⟨⟨n, hn, hd⟩, p, -, x, hx, m, hm, hmh⟩
    exact ⟨hw.not_linked hn hd, n, hn, hd, hw.ledger.refs_pos hn ⟨p, x, hx, m, hm, hmh⟩⟩

/-- The nodes of a whole tree are counted. -/
theorem exists_nodes (hw : Whole t row) :
    ∃ l : List Handle, l.Nodup ∧ (∀ h, h ∈ l ↔ t.Linked h) ∧ t.nodeCount = .ok l.length := by
  rcases hw.state with ⟨hb, -⟩ | ⟨c, r, hr, -⟩
  · exact ⟨[], List.nodup_nil, fun h => ⟨fun hh => (by cases hh), fun ⟨_, _, _, ha⟩ => absurd ha hb.not_at⟩,
      hb.nodeCount⟩
  · exact ⟨_, hr.family_nodup, fun h => hr.live_family.trans hw.linked_iff.symm, hr.nodeCount⟩

/-- The blocks that are out are the nodes of the tree and the deferred nodes. -/
theorem out_eq (hw : Whole t row) : ∃ nodes deferred : Nat, t.nodeCount = .ok nodes ∧
    {h | t.Deferred h}.encard = deferred ∧ t.pool.outstanding = .ok (nodes + deferred) := by
  classical
  have hl := hw.ledger
  obtain ⟨l, hnodup, hmem, hcount⟩ := hw.exists_nodes
  let all := t.pool.handles hl.small
  have hall : all.Nodup := nodup_handles hl.small
  have hdeferred : ∀ h, h ∈ {h | t.Deferred h} ↔ h ∈ all.filter fun h => decide (t.Deferred h) := fun h => by
    rw [List.mem_filter, decide_eq_true_iff]
    exact ⟨fun hd => ⟨(mem_handles hl.small).mpr ⟨_, hd.2.choose_spec.1⟩, hd⟩, fun hd => hd.2⟩
  -- every handle with a block is in one of three lists without repetition: linked, deferred or free
  have hperm : all.Perm (l ++ (all.filter (fun h => decide (t.Deferred h)) ++ t.pool.free)) := by
    refine (List.perm_ext_iff_of_nodup hall ?_).mpr fun h => ?_
    · rw [List.nodup_append', List.nodup_append']
      refine ⟨hnodup, ⟨hall.filter _, hl.nodup, fun h hd hf => ?_⟩, fun h hh hrest => ?_⟩
      · obtain ⟨-, n, hn, -, hpos⟩ := (hdeferred h).mpr hd
        exact hl.not_free hn (Nat.ne_of_gt hpos) hf
      · have hlinked := (hmem h).mp hh
        rcases List.mem_append.mp hrest with hd | hf
        · exact ((hdeferred h).mpr hd).1 hlinked
        · exact not_live_of_free hf (hw.linked_iff.mp hlinked)
    · rw [mem_handles, List.mem_append, List.mem_append, hmem, ← hdeferred]
      constructor
      · rintro ⟨n, hn⟩
        rcases hl.classes hn with hlive | ⟨hd, hpos⟩ | hf
        · exact Or.inl (hw.linked_iff.mpr hlive)
        · exact Or.inr (Or.inl ⟨hw.not_linked hn hd, n, hn, hd, hpos⟩)
        · exact Or.inr (Or.inr hf)
      · rintro (hlinked | ⟨-, n, hn, -⟩ | hf)
        · obtain ⟨n, hn, -⟩ := hw.linked_iff.mp hlinked
          exact ⟨n, hn⟩
        · exact ⟨n, hn⟩
        · obtain ⟨n, hn, -⟩ := hl.free h hf
          exact ⟨n, hn⟩
  have hsize := hperm.length_eq
  rw [length_handles, List.length_append, List.length_append] at hsize
  refine ⟨_, _, hcount, encard_of_list (hall.filter _) hdeferred, ?_⟩
  rw [hl.outstanding_eq, Pool.out, hsize]
  congr 1
  omega

theorem accounted (hw : Whole t row) : t.Accounted where
  classes h n hn := by
    rcases hw.ledger.classes hn with hlive | ⟨hd, hpos⟩ | hf
    · exact Or.inl (hw.linked_iff.mpr hlive)
    · exact Or.inr (Or.inl ⟨hw.not_linked hn hd, n, hn, hd, hpos⟩)
    · exact Or.inr (Or.inr hf)
  linked h hh := by
    obtain ⟨n, hn, hd, hf⟩ := hw.linked_iff.mp hh
    refine ⟨⟨n, hn, hd⟩, hf, ?_⟩
    rcases hw.state with ⟨hb, -⟩ | ⟨c, r, hr, -⟩
    · exact absurd ⟨n, hn, hd, hf⟩ (hb.unused h)
    · obtain ⟨s, hs⟩ := hr.exists_links hh
      exact ⟨s, hs, fun s' hs' => hr.links_unique hs' hs⟩
  deferred h hd hf := by
    obtain ⟨-, n, hn, -, hpos⟩ := hd
    exact hw.ledger.not_free hn (Nat.ne_of_gt hpos) hf
  free h hf := by
    obtain ⟨n, hn, h0, -⟩ := hw.ledger.free h hf
    exact ⟨fun hl => not_live_of_free hf (hw.linked_iff.mp hl), n, hn, h0⟩
  once := hw.ledger.nodup
  refs h n hn := hw.ledger.refs h n hn
  rings h n hn hne := hw.inner_of_memos hn hne
  deferred_iff h := hw.deferred_iff
  out := hw.out_eq

end Whole

/-- The blocks of every reachable tree are accounted for. -/
theorem Tree.Reachable.owned (ht : t.Reachable) : t.Accounted := by
  obtain ⟨row, hw⟩ := ht.whole
  exact hw.accounted

end Trees

/-- In the worn tree five nodes are linked and one is deferred. -/
theorem owned_of_worn : Tree.worn.Reachable ∧ Tree.worn.Accounted ∧ Tree.worn.nodeCount.toOption = some 5 ∧
    Tree.worn.pool.outstanding.toOption = some 6 ∧ ∃ h, Tree.worn.Deferred h := by
  have howned := Tree.worn_reachable.owned
  have hcount : Tree.worn.nodeCount.toOption = some 5 := by decide +kernel
  have hout : Tree.worn.pool.outstanding.toOption = some 6 := by decide +kernel
  refine ⟨Tree.worn_reachable, howned, hcount, hout, ?_⟩
  obtain ⟨nodes, deferred, hnodes, hdeferred, hall⟩ := howned.out
  rw [hnodes] at hcount
  rw [hall] at hout
  cases hcount
  have hone : deferred = 1 := by
    have := Option.some.inj hout
    omega
  obtain ⟨h, hh⟩ := Set.encard_eq_one.mp (hdeferred.trans (congrArg Nat.cast hone))
  have hmem : h ∈ {h | Tree.worn.Deferred h} := by rw [hh]; exact Set.mem_singleton h
  exact ⟨h, hmem⟩

end MemoTree
