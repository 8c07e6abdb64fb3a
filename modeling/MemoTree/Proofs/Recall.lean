import MemoTree.Proofs.Legible

/-! # Lookups

A lookup asks the ring of each internal node first. In a coherent tree a memo that is served leads where a scan leads,
so the answer does not depend on the rings. What a lookup does to them keeps the tree whole: a memo is stored only
where no other one for its key is served, and its child is named by no other ring. -/

namespace MemoTree
open Pool NodePool Rows

/-! ### Rings -/

namespace Ring
variable {r : Ring} {m : Memo}

theorem mem_memos : m ∈ r.memos ↔ ∃ i : Fin 4, r.slots[i] = some m := by
  rw [memos, List.mem_filterMap]
  constructor
  · rintro ⟨o, ho, hom⟩
    obtain ⟨i, hi, hio⟩ := Vector.getElem_of_mem (Vector.mem_toList_iff.mp ho)
    exact ⟨⟨i, hi⟩, hio.trans hom⟩
  · rintro ⟨i, hi⟩
    exact ⟨some m, Vector.mem_toList_iff.mpr (hi ▸ Vector.getElem_mem i.isLt), rfl⟩

/-- A search looks at every memo. -/
theorem mem_fromProbe : m ∈ r.fromProbe ↔ m ∈ r.memos := by
  have hturn : ∀ p i : Fin 4, i = p ∨ i = p + 1 ∨ i = p + 2 ∨ i = p + 3 := by decide
  rw [mem_memos, fromProbe, List.mem_filterMap]
  constructor
  · rintro ⟨o, ho, hom⟩
    simp only [List.mem_cons, List.not_mem_nil, or_false] at ho
    rcases ho with rfl | rfl | rfl | rfl
    · exact ⟨_, hom⟩
    · exact ⟨_, hom⟩
    · exact ⟨_, hom⟩
    · exact ⟨_, hom⟩
  · rintro ⟨i, hi⟩
    refine ⟨some m, ?_, rfl⟩
    rcases hturn r.probe i with rfl | rfl | rfl | rfl <;> simp [hi]

/-- A new memo takes the place of the one that is evicted. -/
theorem memos_store (r : Ring) (m : Memo) :
    ∃ A B, r.memos = A ++ r.evicted.toList ++ B ∧ (r.store m).memos = A ++ m :: B := by
  have hlen : r.next.val < r.slots.toList.length := by
    rw [Vector.length_toList]
    exact r.next.isLt
  have hget : r.slots.toList[r.next.val] = r.evicted := by
    rw [evicted, Vector.getElem_toList]
    rfl
  have hsplit : r.slots.toList = r.slots.toList.take r.next.val ++ r.evicted :: r.slots.toList.drop
    (r.next.val + 1) := by
    rw [← hget, List.getElem_cons_drop, List.take_append_drop]
  refine ⟨(r.slots.toList.take r.next.val).filterMap id, (r.slots.toList.drop (r.next.val + 1)).filterMap id, ?_, ?_⟩
  · rw [memos]
    conv_lhs => rw [hsplit]
    rw [List.filterMap_append]
    cases r.evicted with
    | none => simp
    | some e => simp
  · have hset : (r.store m).slots.toList = r.slots.toList.take r.next.val ++ some m :: r.slots.toList.drop
      (r.next.val + 1) := by
      have hstore : (r.store m).slots.toList = r.slots.toList.set r.next.val (some m) :=
        (Vector.toList_set r.next.isLt).symm
      rw [hstore, List.set_eq_take_append_cons_drop, if_pos hlen]
    rw [memos, hset, List.filterMap_append]
    rfl

theorem count_store (r : Ring) (m : Memo) (h : Handle) :
    (r.store m).count h + (r.evicted.toList.map (·.child)).count h = r.count h + [m.child].count h := by
  obtain ⟨A, B, hold, hnew⟩ := r.memos_store m
  have hmap : ∀ l : List Memo, l.countP (fun m => m.child = h) = (l.map (·.child)).count h := fun l => by
    rw [List.count, List.countP_map]
    rfl
  rw [count, count, hold, hnew, hmap, hmap]
  simp only [List.map_append, List.map_cons, List.count_append, List.count_cons, List.count_nil]
  omega

theorem mem_evicted (hm : m ∈ r.evicted.toList) : m ∈ r.memos := by
  obtain ⟨A, B, hold, -⟩ := r.memos_store m
  rw [hold]
  exact List.mem_append_left B (List.mem_append_right A hm)

/-- The other memos are there after a store only if they were there before. -/
theorem sublist_store (r : Ring) (m : Memo) : ∃ A B, (A ++ B).Sublist r.memos ∧ (r.store m).memos = A ++ m :: B := by
  obtain ⟨A, B, hold, hnew⟩ := r.memos_store m
  refine ⟨A, B, ?_, hnew⟩
  rw [hold, List.append_assoc]
  exact List.Sublist.append_left (List.sublist_append_right _ B) A

theorem mem_store {m' : Memo} (hm : m' ∈ (r.store m).memos) : m' = m ∨ m' ∈ r.memos := by
  obtain ⟨A, B, hsub, hnew⟩ := r.sublist_store m
  rw [hnew] at hm
  rcases List.mem_append.mp hm with hm | hm
  · exact Or.inr (hsub.subset (List.mem_append_left B hm))
  · exact (List.mem_cons.mp hm).imp id fun hm => hsub.subset (List.mem_append_right A hm)

/-- What holds between any two memos still holds if it holds between the new one and the others. -/
theorem pairwise_store {R : Memo → Memo → Prop} (hr : r.memos.Pairwise R)
    (hnew : ∀ m' ∈ r.memos, R m' m ∧ R m m') : (r.store m).memos.Pairwise R := by
  obtain ⟨A, B, hsub, hstore⟩ := r.sublist_store m
  obtain ⟨hA, hB, hAB⟩ := List.pairwise_append.mp (hr.sublist hsub)
  rw [hstore]
  refine List.pairwise_append.mpr ⟨hA, List.pairwise_cons.mpr ⟨fun b hb => ?_, hB⟩, fun a ha b hb => ?_⟩
  · exact (hnew b (hsub.subset (List.mem_append_right A hb))).2
  · rcases List.mem_cons.mp hb with rfl | hb
    · exact (hnew a (hsub.subset (List.mem_append_left B ha))).1
    · exact hAB a ha b hb

end Ring

/-! ### Serving memos -/

section Serving
variable {p : NodePool} {key : Words}

/-- The first memo for a key whose child is not deleted is served. -/
theorem firstServing_spec (key : Words) : ∀ {l : List Memo}, (∀ m ∈ l, ∃ b, p.block m.child = .ok b) →
    (∃ m ∈ l, m.key = key ∧ ¬p.Dead m.child ∧ NodePool.firstServing p key l = .ok (some m.child)) ∨
      (∀ m ∈ l, m.key = key → p.Dead m.child) ∧ NodePool.firstServing p key l = .ok none
  | [], _ => Or.inr ⟨fun m hm => (by cases hm), rfl⟩
  | m :: rest, hl => by
    have ih := firstServing_spec key fun m' (hm' : m' ∈ rest) => hl m' (List.mem_cons_of_mem m hm')
    obtain ⟨b, hb⟩ := hl m List.mem_cons_self
    by_cases hk : m.key = key
    · cases hd : b.deleted with
      | false =>
        refine Or.inl ⟨m, List.mem_cons_self, hk, ?_, ?_⟩
        · rintro ⟨x, hx, hxd⟩
          rw [hb] at hx
          cases hx
          rw [hd] at hxd
          cases hxd
        · rw [NodePool.firstServing, if_pos hk, hb]
          simp only [bind, Except.bind, hd]
          rfl
      -- a memo of a deleted child is passed over, like one for another key
      | true =>
        have hstep : NodePool.firstServing p key (m :: rest) = NodePool.firstServing p key rest := by
          rw [NodePool.firstServing, if_pos hk, hb]
          simp only [bind, Except.bind, hd]
          rfl
        rw [hstep]
        refine ih.imp (fun ⟨m', hm', h⟩ => ⟨m', List.mem_cons_of_mem m hm', h⟩) fun ⟨hall, h⟩ =>
          ⟨fun m' hm' hk' => ?_, h⟩
        rcases List.mem_cons.mp hm' with rfl | hm'
        · exact ⟨b, hb, hd⟩
        · exact hall m' hm' hk'
    · have hstep : NodePool.firstServing p key (m :: rest) = NodePool.firstServing p key rest := by
        rw [NodePool.firstServing, if_neg hk]
      rw [hstep]
      refine ih.imp (fun ⟨m', hm', h⟩ => ⟨m', List.mem_cons_of_mem m hm', h⟩) fun ⟨hall, h⟩ => ⟨fun m' hm' hk' => ?_, h⟩
      rcases List.mem_cons.mp hm' with rfl | hm'
      · exact absurd hk' hk
      · exact hall m' hm' hk'

end Serving

/-! ### Remembering a child -/

/-- What a lookup leaves of the nodes: their words and marks. -/
structure Recalls (p p' : NodePool) : Prop where
  size : p'.blocks.size = p.blocks.size
  block : ∀ k n, p.block k = .ok n → ∃ n', p'.block k = .ok n' ∧ n'.words = n.words ∧ n'.deleted = n.deleted
  live : ∀ k, p'.Live k ↔ p.Live k
  blockWords : p'.blockWords = p.blockWords
  limit : p'.limit = p.limit

namespace Recalls
variable {p p' q : NodePool} {h : Handle} {n n' : Node}

theorem refl (p : NodePool) : Recalls p p := ⟨rfl, fun _ n hn => ⟨n, hn, rfl, rfl⟩, fun _ => Iff.rfl, rfl, rfl⟩

theorem trans (h₁ : Recalls p p') (h₂ : Recalls p' q) : Recalls p q where
  size := h₂.size.trans h₁.size
  block k n hn := by
    obtain ⟨n₁, hn₁, hw₁, hd₁⟩ := h₁.block k n hn
    obtain ⟨n₂, hn₂, hw₂, hd₂⟩ := h₂.block k n₁ hn₁
    exact ⟨n₂, hn₂, hw₂.trans hw₁, hd₂.trans hd₁⟩
  live k := (h₂.live k).trans (h₁.live k)
  blockWords := h₂.blockWords.trans h₁.blockWords
  limit := h₂.limit.trans h₁.limit

theorem of_put (hn : p.block h = .ok n) (hw : n'.words = n.words) (hd : n'.deleted = n.deleted) :
    Recalls p (p.put h n') where
  size := size_put _ _ _
  block k x hx := by
    rw [block_put hn]
    split
    · rename_i hk
      rw [hk, hn] at hx
      cases hx
      exact ⟨n', rfl, hw, hd⟩
    · exact ⟨x, hx, rfl, rfl⟩
  live _ := live_put _ hn hd
  blockWords := rfl
  limit := rfl

theorem of_pays (hp : Pays p p') : Recalls p p' :=
  ⟨hp.size, fun k n hn => (hp.block k n hn).elim fun _ hx => ⟨_, hx, rfl, rfl⟩, hp.live, hp.blockWords, hp.limit⟩

theorem dead (hr : Recalls p p') {k : Handle} (hd : p.Dead k) : p'.Dead k := by
  obtain ⟨n, hn, hdel⟩ := hd
  obtain ⟨n', hn', -, hd'⟩ := hr.block k n hn
  exact ⟨n', hn', hd'.trans hdel⟩

/-- The nodes hold the same rows. -/
theorem stock {g : Geometry} {c : Rows} (hr : Recalls p p') (hs : Stock g p c) (hl : Ledger p' []) : Stock g p' c where
  ledger := hl
  size k x hx := by
    obtain ⟨y, hy⟩ := exists_block_of_size hr.size hx
    obtain ⟨y', hy', hw, -⟩ := hr.block k y hy
    rw [hx] at hy'
    cases hy'
    rw [hw]
    exact hs.size k y hy
  blockWords := hr.blockWords.trans hs.blockWords
  packs k x hx hk := by
    obtain ⟨y, hy⟩ := exists_block_of_size hr.size hx
    obtain ⟨y', hy', hw, -⟩ := hr.block k y hy
    rw [hx] at hy'
    cases hy'
    rw [hw]
    exact hs.packs k y hy ((hr.live k).mp hk)

end Recalls

section Remember
variable {p : NodePool} {h k : Handle} {n : Node} {key : Words}

/-- The ring of a node where nothing is found is turned. -/
theorem advance_spec (hl : Ledger p []) (hn : p.block h = .ok n) :
    Ledger (p.put h { n with ring := n.ring.advance }) [] ∧ Edits p (p.put h { n with ring := n.ring.advance }) ∧
      Recalls p (p.put h { n with ring := n.ring.advance }) := by
  refine ⟨Ledger.put [] hl hn (fun _ => rfl) (hl.known h n hn) hl.debtor (hl.deleted h n hn)
    (fun hf => ?_) (Or.inl rfl), Edits.of_same hn rfl rfl, Recalls.of_put hn rfl rfl⟩
  obtain ⟨x, hx, h0, hm⟩ := hl.free h hf
  rw [hn] at hx
  cases hx
  exact ⟨h0, hm⟩

/-- The reference of an evicted memo is paid. -/
theorem release_evicted (e : Option Memo) (hl : Ledger p (e.toList.map (·.child) ++ [])) :
    ∃ p', Runs (do if let some old := e then NodePool.releaseRef old.child) p () p' ∧ Ledger p' [] ∧ Pays p p' := by
  cases e with
  | none => exact ⟨p, Runs.pure _ _, hl, Pays.refl p⟩
  | some m => exact releaseRef_spec hl

/-- A reference to a node that is out is counted before a memo names it. -/
theorem owe_spec (hl : Ledger p []) (hn : p.block k = .ok n) (hout : k ∉ p.free) :
    ∃ p', Runs (Pool.update k fun node => return { node with refs := node.refs + 1 }) p () p' ∧ Ledger p' [k] ∧
      Recalls p p' ∧ ∀ i x', p'.block i = .ok x' → ∃ x, p.block i = .ok x ∧ x'.ring = x.ring := by
  refine ⟨p.put k { n with refs := n.refs + 1 }, Runs.update hn rfl, ?_, Recalls.of_put hn rfl rfl, fun i x' hx' => ?_⟩
  · refine Ledger.put [] hl hn (fun j => ?_) (hl.known k n hn) (fun j hj => ?_)
      (fun hd => ⟨(hl.deleted k n hn hd).1, fun h0 => absurd h0 (Nat.succ_ne_zero _)⟩) (fun hf =>
        absurd hf hout) (Or.inl rfl)
    · rw [List.count_cons]
      by_cases hj : j = k
      · subst hj
        simp only [beq_self_eq_true, if_true]
        omega
      · rw [if_neg hj, if_neg hj, if_neg (by simpa using Ne.symm hj)]
        rfl
    · rw [List.mem_singleton.mp hj]
      exact ⟨n, hn⟩
  · rw [block_put hn] at hx'
    split at hx'
    · rename_i hik
      cases hx'
      exact ⟨n, hik ▸ hn, rfl⟩
    · exact ⟨x', hx', rfl⟩

/-- A memo for a reference that is owed is stored, and the one it evicts is dropped. -/
theorem store_spec (key : Words) (hl : Ledger p [k]) (hh : p.Live h) (hn : p.block h = .ok n) :
    ∃ p', Runs (do
        Pool.update h fun node => return { node with ring := node.ring.store ⟨key, k⟩ }
        if let some old := n.ring.evicted then NodePool.releaseRef old.child) p () p' ∧ Ledger p' [] ∧ Recalls p p' ∧
      ∀ i x', p'.block i = .ok x' → ∃ x, p.block i = .ok x ∧
        x'.ring = if i = h then x.ring.store ⟨key, k⟩ else x.ring := by
  obtain ⟨x, hx, hd, hout⟩ := hh
  rw [hn] at hx
  cases hx
  -- the new memo takes over the reference of `k` that is owed; the evicted one leaves its own
  have hl' : Ledger (p.put h { n with ring := n.ring.store ⟨key, k⟩ }) (n.ring.evicted.toList.map (·.child) ++ []) := by
    refine Ledger.put [] hl hn (fun j => ?_) (fun m hm => ?_) (fun j hj => ?_)
      (fun hd' => by rw [show n.deleted = true from hd'] at hd; cases hd) (fun hf => absurd hf hout) (Or.inl rfl)
    · have := n.ring.count_store ⟨key, k⟩ j
      rw [List.append_nil]
      change (n.ring.store ⟨key, k⟩).count j + _ + (if j = h then n.refs else 0) = _ + (if j = h then n.refs else 0)
      rw [this]
    · rcases Ring.mem_store hm with rfl | hm
      · exact hl.debtor k (List.mem_singleton_self k)
      · exact hl.known h n hn m hm
    · rw [List.append_nil] at hj
      obtain ⟨m, hm, rfl⟩ := List.mem_map.mp hj
      exact hl.known h n hn m (Ring.mem_evicted hm)
  obtain ⟨p', hrun, hl'', hpays⟩ := release_evicted n.ring.evicted hl'
  have hput : Recalls p (p.put h { n with ring := n.ring.store ⟨key, k⟩ }) := Recalls.of_put hn rfl rfl
  refine ⟨p', Runs.bind (Runs.update hn rfl) hrun, hl'', hput.trans (Recalls.of_pays hpays), fun i x' hx' => ?_⟩
  obtain ⟨x, hx⟩ := exists_block_of_size hpays.size hx'
  obtain ⟨refs, hx''⟩ := hpays.block i x hx
  rw [hx'] at hx''
  cases hx''
  rw [block_put hn] at hx
  split at hx
  · rename_i hih
    cases hx
    exact ⟨n, hih ▸ hn, by rw [if_pos hih]⟩
  · rename_i hih
    exact ⟨x, hx, by rw [if_neg hih]⟩

/-- A memo for a node that is out is stored in the ring of `h`, and the one it evicts is dropped. The two may be one. -/
theorem remember_spec (key : Words) (hl : Ledger p []) (hh : p.Live h) (hn : p.block k = .ok n) (hout : k ∉ p.free) :
    ∃ p', Runs (NodePool.remember h key k) p () p' ∧ Ledger p' [] ∧ Recalls p p' ∧
      ∀ i x', p'.block i = .ok x' → ∃ x, p.block i = .ok x ∧
        x'.ring = if i = h then x.ring.store ⟨key, k⟩ else x.ring := by
  obtain ⟨x, hx, -⟩ := id hh
  obtain ⟨p₁, hrun₁, hl₁, hr₁, hring₁⟩ := owe_spec hl hn hout
  obtain ⟨x₁, hx₁, -⟩ := hr₁.block h x hx
  obtain ⟨p₂, hrun₂, hl₂, hr₂, hring₂⟩ := store_spec key hl₁ ((hr₁.live h).mpr hh) hx₁
  -- the count of `h` may have changed, its ring has not
  obtain ⟨x', hx', hsame⟩ := hring₁ h x₁ hx₁
  rw [hx] at hx'
  cases hx'
  rw [hsame] at hrun₂
  refine ⟨p₂, Runs.bind (Runs.read hx) (Runs.bind hrun₁ hrun₂), hl₂, hr₁.trans hr₂, fun i x₂ hx₂ => ?_⟩
  obtain ⟨x₁, hx₁, hring⟩ := hring₂ i x₂ hx₂
  obtain ⟨x, hx, hring'⟩ := hring₁ i x₁ hx₁
  exact ⟨x, hx, by rw [hring, hring']⟩

end Remember

/-! ### One step of a lookup -/

section Steps
variable {w : Width} {t : Tree w} {c : Rows} {r h k : Handle} {p' : NodePool} {n : Node} {i x : Nat}

/-- A rooted tree with other memos. -/
theorem Rooted.recall (hr : Rooted t c r) (hl : Ledger p' []) (hrec : Recalls t.pool p') (hc : Coherent w p' c [])
    (hq : ∀ h ∈ c.level r (t.height - 1), p'.Quiet h) : Rooted ({ t with pool := p' } : Tree w) c r where
  tall := hr.tall
  stand := ⟨hr.stand.root, hr.stand.height, hrec.stock hr.stand.stock hl, hr.stand.sound,
    fun k => (hrec.live k).trans (hr.stand.live k), hr.stand.apart, hr.stand.full, hr.stand.inner,
    fun d hd _ k hk => hq k (by
      change t.height = d + 1 at hd
      rw [hd]
      exact hk)⟩
  coherent := hc

/-- A node in use is named by the ring of its parent only. -/
theorem Rooted.named_by_parent (hr : Rooted t c r) (hi : i + 1 ≤ t.height - 1)
    (hh : h ∈ c.level r i) (hk : k ∈ c.kids h)
    {h' : Handle} {n' : Node} (hn' : t.pool.block h' = .ok n') {m : Memo} (hm : m ∈ n'.ring.memos) (hmk : m.child = k) :
    h' = h := by
  have hkl : k ∈ c.level r (i + 1) := mem_level_succ.mpr ⟨h, hh, hk⟩
  have hlive : t.pool.Live h' := by
    by_contra hnot
    rw [hr.stand.stock.ledger.quiet hnot n' hn'] at hm
    cases hm
  obtain ⟨j, hj, hhj⟩ := mem_under.mp (hr.live.mp hlive)
  rcases hr.coherent.serves h' n' hn' m hm with hd | hl | ⟨y, -, -, hlook⟩
  · rw [hmk] at hd
    exact absurd (hr.live_level hi hkl) hd.not_live
  · cases hl
  · rw [hmk] at hlook
    have hkk := mem_kids_of_step (step_of_look hlook)
    have hjl : j + 1 ≤ t.height - 1 := by
      by_contra hnot
      obtain rfl : j = t.height - 1 := by omega
      rw [hr.quiet hhj n' hn'] at hm
      cases hm
    have hij := level_unique hr.sound.nodup hjl hi (mem_level_succ.mpr ⟨h', hhj, hkk⟩) hkl
    obtain rfl : j = i := by omega
    exact hr.sound.parent_unique (by omega) hhj hh hkk hk

/-- Remembering where a scan leads keeps the tree whole, if no other memo for the key is served. -/
theorem Rooted.remember (hr : Rooted t c r) (hi : i + 1 ≤ t.height - 1) (hh : h ∈ c.level r i) (hx : x < 2 ^ w.bits)
    (hlook : c.look x h = some k)
    (hdead : ∀ n, t.pool.block h = .ok n → ∀ m ∈ n.ring.memos, m.key = Words.ofNat w.words x → t.pool.Dead m.child) :
    ∃ p', Runs (NodePool.remember h (Words.ofNat w.words x) k) t.pool () p' ∧
      Rooted ({ t with pool := p' } : Tree w) c r ∧ Recalls t.pool p' := by
  have hkk := mem_kids_of_step (step_of_look hlook)
  have hkl : k ∈ c.level r (i + 1) := mem_level_succ.mpr ⟨h, hh, hkk⟩
  obtain ⟨b, hb, -, hout⟩ := hr.live_level hi hkl
  obtain ⟨p', hrun, hl, hrec, hring⟩ :=
    remember_spec (Words.ofNat w.words x) hr.stand.stock.ledger (hr.live_level (by omega) hh) hb hout
  -- every memo is the new one or was there before, so each field is checked for these two
  have hold : ∀ q n', p'.block q = .ok n' → ∀ m ∈ n'.ring.memos, (q = h ∧ m = ⟨Words.ofNat w.words x, k⟩) ∨
      ∃ n, t.pool.block q = .ok n ∧ m ∈ n.ring.memos := fun q n' hn' m hm => by
    obtain ⟨n, hn, hrn⟩ := hring q n' hn'
    rw [hrn] at hm
    split at hm
    · rename_i hqh
      exact (Ring.mem_store hm).imp (fun heq => ⟨hqh, heq⟩) fun hm => ⟨n, hn, hm⟩
    · exact Or.inr ⟨n, hn, hm⟩
  refine ⟨p', hrun, hr.recall hl hrec ⟨fun q n' hn' m hm => ?_, fun q q' n n' hn hn' m hm m' hm' hmm => ?_,
    fun q n' hn' => ?_⟩ fun q hq n' hn' => ?_, hrec⟩
  · rcases hold q n' hn' m hm with ⟨rfl, rfl⟩ | ⟨n, hn, hm⟩
    · exact Or.inr (Or.inr ⟨x, hx, rfl, hlook⟩)
    · exact (hr.coherent.serves q n hn m hm).imp hrec.dead id
  · rcases hold q n hn m hm with ⟨rfl, rfl⟩ | ⟨a, ha, hma⟩
    · rcases hold q' n' hn' m' hm' with ⟨rfl, -⟩ | ⟨a', ha', hma'⟩
      · rfl
      · exact (hr.named_by_parent hi hh hkk ha' hma' hmm.symm).symm
    · rcases hold q' n' hn' m' hm' with ⟨rfl, rfl⟩ | ⟨a', ha', hma'⟩
      · exact hr.named_by_parent hi hh hkk ha hma hmm
      · exact hr.coherent.solo q q' a a' ha ha' m hma m' hma' hmm
  · obtain ⟨n, hn, hrn⟩ := hring q n' hn'
    rw [hrn]
    have hpair := (hr.coherent.single q n hn).imp fun {m m'} hd hk => (hd hk).imp hrec.dead hrec.dead
    split
    · rename_i hqh
      subst hqh
      refine Ring.pairwise_store hpair fun m hm => ⟨fun hkey => ?_, fun hkey => ?_⟩
      · exact Or.inl (hrec.dead (hdead n hn m hm hkey))
      · exact Or.inr (hrec.dead (hdead n hn m hm hkey.symm))
    · exact hpair
  · obtain ⟨n, hn, hrn⟩ := hring q n' hn'
    have hqh : q ≠ h := by
      rintro rfl
      have := level_unique hr.sound.nodup (by omega) (Nat.le_refl _) hh hq
      omega
    rw [hrn, if_neg hqh]
    exact hr.quiet hq n hn

/-- A lookup goes from a node where a scan leads, and what it remembers keeps the tree whole. -/
theorem Rooted.childFor (hr : Rooted t c r) (hi : i + 1 ≤ t.height - 1) (hh : h ∈ c.level r i) (hx : x < 2 ^ w.bits)
    (cached : Bool) :
    ∃ p', Runs (Tree.childFor t.geometry cached (Words.ofNat w.words x) h) t.pool (c.look x h) p' ∧
      Rooted ({ t with pool := p' } : Tree w) c r ∧ Recalls t.pool p' := by
  have hlive := hr.live_level (by omega) hh
  obtain ⟨n, hn, hpacks⟩ := hr.stand.stock.node hlive
  have hl := hr.stand.stock.ledger
  have hxl : x < 2 ^ (64 * t.geometry.keyLength) := Nat.lt_of_lt_of_le hx (Key.pow_bits_le w)
  have hscan : Tree.scanChild t.geometry n (Words.ofNat w.words x) = .ok (c.look x h) := hpacks.shows.scanChild_eq hxl
  cases cached with
  | false =>
    refine ⟨t.pool, ?_, hr, Recalls.refl _⟩
    cases hlook : c.look x h with
    | none =>
      rw [hlook] at hscan
      exact Runs.bind (Runs.read hn) (Runs.bind (Runs.lift hscan _) (Runs.pure _ _))
    | some k =>
      rw [hlook] at hscan
      exact Runs.bind (Runs.read hn) (Runs.bind (Runs.lift hscan _) (Runs.pure _ _))
  | true =>
    rcases firstServing_spec (Words.ofNat w.words x) fun m hm => hl.known h n hn m (Ring.mem_fromProbe.mp hm) with
      ⟨m, hm, hkey, hnot, hserve⟩ | ⟨hdead, hserve⟩
    · -- a memo is served: it leads where a scan leads
      have hlook : c.look x h = some m.child := by
        rcases hr.coherent.serves h n hn m (Ring.mem_fromProbe.mp hm) with hd | hlate | ⟨y, hy, hmy, hlook⟩
        · exact absurd hd hnot
        · cases hlate
        · rw [hkey] at hmy
          rwa [Words.ofNat_inj hxl (Nat.lt_of_lt_of_le hy (Key.pow_bits_le w)) hmy]
      rw [hlook]
      exact ⟨t.pool, Runs.bind (Runs.bind (Runs.get _) (Runs.bind (Runs.read hn) (Runs.bind (Runs.lift hserve _)
        (Runs.pure _ _)))) (Runs.pure _ _), hr, Recalls.refl _⟩
    · -- no memo is served: the ring moves on, the row is scanned, and what the scan finds is remembered
      obtain ⟨hl₁, hedits₁, hrec₁⟩ := advance_spec hl hn
      have hn₁ : (t.pool.put h { n with ring := n.ring.advance }).block h = .ok { n with ring := n.ring.advance } :=
        block_put_self hn
      have hr₁ : Rooted ({ t with pool := t.pool.put h { n with ring := n.ring.advance } } : Tree w) c r :=
        hr.recall hl₁ hrec₁ (hr.coherent.mono hedits₁.fades fun _ _ _ _ h => h) fun q hq =>
          hedits₁.fades.quiet (hr.quiet hq)
      have hrun₁ : Runs (NodePool.remembered h (Words.ofNat w.words x)) t.pool none
          (t.pool.put h { n with ring := n.ring.advance }) :=
        Runs.bind (Runs.get _) (Runs.bind (Runs.read hn) (Runs.bind (Runs.lift hserve _)
          (Runs.bind (Runs.update hn rfl) (Runs.pure _ _))))
      have hscan₁ : Tree.scanChild t.geometry { n with ring := n.ring.advance } (Words.ofNat w.words x) =
          .ok (c.look x h) := Shows.scanChild_eq (Packs.shows (b := { n with ring := n.ring.advance }) hpacks) hxl
      cases hlook : c.look x h with
      | none =>
        rw [hlook] at hscan₁
        exact ⟨_, Runs.bind hrun₁ (Runs.bind (Runs.read hn₁) (Runs.bind (Runs.lift hscan₁ _) (Runs.pure _ _))), hr₁,
          hrec₁⟩
      | some k =>
        rw [hlook] at hscan₁
        obtain ⟨p', hrun, hr₂, hrec₂⟩ := hr₁.remember hi hh hx hlook fun n' hn' m hm hkey => by
          change (t.pool.put h { n with ring := n.ring.advance }).block h = .ok n' at hn'
          rw [hn₁] at hn'
          cases hn'
          exact hrec₁.dead (hdead m (Ring.mem_fromProbe.mpr hm) hkey)
        exact ⟨p', Runs.bind hrun₁ (Runs.bind (Runs.read hn₁) (Runs.bind (Runs.lift hscan₁ _)
          (Runs.bind hrun (Runs.pure _ _)))), hr₂, hrec₁.trans hrec₂⟩

end Steps

/-! ### Whole lookups -/

section Lookups
variable {w : Width} {t : Tree w} {c : Rows} {r h : Handle} {n : Node} {x : Nat} {row : Row}

/-- A lookup ends where scans lead. -/
theorem Rooted.leafFor (hx : x < 2 ^ w.bits) (cached : Bool) (steps : Nat) :
    ∀ {t : Tree w} {i : Nat} {h : Handle}, Rooted t c r → i + steps = t.height - 1 → h ∈ c.level r i →
    ∃ p', Runs (Tree.leafFor t.geometry cached (Words.ofNat w.words x) steps h) t.pool (c.route x h steps) p' ∧
      Rooted ({ t with pool := p' } : Tree w) c r ∧ Recalls t.pool p' := by
  induction steps with
  | zero => exact fun hr _ _ => ⟨_, Runs.pure _ _, hr, Recalls.refl _⟩
  | succ steps ih =>
    intro t i h hr hi hh
    obtain ⟨p₁, hrun₁, hr₁, hrec₁⟩ := hr.childFor (by omega) hh hx cached
    rw [route, follow_succ]
    cases hlook : c.look x h with
    | none =>
      rw [hlook] at hrun₁
      exact ⟨p₁, Runs.bind hrun₁ (Runs.pure _ _), hr₁, hrec₁⟩
    | some k =>
      rw [hlook] at hrun₁
      have hk : k ∈ c.level r (i + 1) := mem_level_succ.mpr ⟨h, hh, mem_kids_of_step (step_of_look hlook)⟩
      obtain ⟨p₂, hrun₂, hr₂, hrec₂⟩ := ih hr₁ (by change i + 1 + steps = t.height - 1; omega) hk
      exact ⟨p₂, Runs.bind hrun₁ hrun₂, hr₂, hrec₁.trans hrec₂⟩

/-- A search for a key finds the leaf and the slot that hold it, or finds that it is absent. -/
theorem Rooted.findSlot (hr : Rooted t c r) (k : Key w) :
    ∃ p', Rooted ({ t with pool := p' } : Tree w) c r ∧ Recalls t.pool p' ∧
      ((∃ h A e B, h ∈ c.level r (t.height - 1) ∧ c h = A ++ e :: B ∧ e.1 = k.val ∧
        Runs (Tree.findSlot k.toWords) t (some (h, A.length)) { t with pool := p' }) ∨
      (∀ e ∈ c.pairs r (t.height - 1), e.1 ≠ k.val) ∧ Runs (Tree.findSlot k.toWords) t none { t with pool := p' }) := by
  obtain ⟨p', hrun, hr', hrec⟩ := Rooted.leafFor k.isLt t.memoize (t.height - 1) hr (i := 0) (Nat.zero_add _)
    (List.mem_singleton_self r)
  exact ⟨p', hr', hrec, hr'.legible.findSlot hr.stand.root k hrun⟩

theorem Bare.findSlot (hb : Bare t) (key : Words) : Runs (Tree.findSlot key) t none t :=
  runs_findSlot_rootless hb.root

/-- A lookup answers the value of its key. -/
theorem Whole.lookup (hw : Whole t row) (k : Key w) :
    (∀ e ∈ row, e.1 ≠ k.val) ∧ (∃ t', Runs (Tree.lookup k) t none t' ∧ Whole t' row) ∨
    ∃ v : Value, (k.val, v.val) ∈ row ∧ ∃ t', Runs (Tree.lookup k) t (some v) t' ∧ Whole t' row := by
  rcases hw.state with ⟨hb, rfl⟩ | ⟨c, r, hr, hperm⟩
  · exact Or.inl ⟨fun e he => (by cases he), t, Runs.lookup_none (hb.findSlot _), hw⟩
  obtain ⟨p', hr', hrec, ⟨h, A, e, B, hh, hrow, hek, hrun⟩ | ⟨hall, hrun⟩⟩ := hr.findSlot k
  · have hmem : e ∈ c.pairs r (t.height - 1) := mem_pairs.mpr ⟨h, hh, by rw [hrow]; simp⟩
    have hused := hw.used (hperm.mem_iff.mpr hmem)
    obtain ⟨n, hn, hpacks⟩ := hr'.stand.stock.node (hr'.live_level (Nat.le_refl _) hh)
    have hvalue : n.value t.geometry A.length = .ok e.2 := hpacks.value_eq (by rw [hrow]; simp)
    refine Or.inr ⟨⟨e.2, hused⟩, ?_, { t with pool := p' }, Runs.lookup_some hrun hn hvalue hused,
      hr'.whole hw.pairs (hr.fits hw.fits) hw.len hperm⟩
    rw [← hek]
    exact hperm.mem_iff.mpr hmem
  · exact Or.inl ⟨fun e he => hall e (hperm.mem_iff.mp he), _, Runs.lookup_none hrun,
      hr'.whole hw.pairs (hr.fits hw.fits) hw.len hperm⟩

/-- A new value in a leaf. -/
theorem Rooted.writeValue {A B : Row} {e : Pair} (hr : Rooted t c r) (hh : h ∈ c.level r (t.height - 1))
    (hrow : c h = A ++ e :: B) {v : Word} (hv : v ≠ 0) :
    ∃ p', Runs (Pool.update h fun block => block.writeValue t.geometry A.length v) t.pool () p' ∧
      Rooted ({ t with pool := p' } : Tree w) (Function.update c h (A ++ (e.1, v) :: B)) r := by
  obtain ⟨n, hn, hpacks⟩ := hr.stand.stock.node (hr.live_level (Nat.le_refl _) hh)
  rw [hrow] at hpacks
  obtain ⟨words, hwrite, hpacks'⟩ := hpacks.writeValue hv
  have hedits := Edits.of_words hn words
  refine ⟨_, Runs.update hn hwrite, hr.tall, ?_, hr.coherent.mono hedits.fades fun i hi x j hj => ?_⟩
  · obtain ⟨d, hd⟩ := hr.exists_height
    rw [show t.height - 1 = d by omega] at hh
    have hst : Stand t c r (d + 1) fun _ => False := hd ▸ hr.stand
    have hsound := hst.sound d rfl
    have hst' := hst.update hh (hr.stand.stock.write hn hpacks') hedits.fades hedits.live
      (hsound.update_keys hh (by rw [hrow]; simp)) (by simp) fun hm => absurd hm (by omega)
    rw [← hd] at hst'
    exact hst'
  · rw [look, Function.update_of_ne]
    · exact hj
    · rintro rfl
      exact hi (hedits.fades.quiet (hr.quiet hh))

/-- An update replaces the value of its key, if it is present. -/
theorem Whole.update (hw : Whole t row) (k : Key w) (v : Value) :
    (∀ e ∈ row, e.1 ≠ k.val) ∧ (∃ t', Runs (Tree.update k v) t (.error .notFound) t' ∧ Whole t' row) ∨
    ∃ old row', row.Perm ((k.val, old) :: row') ∧ ∃ t', Runs (Tree.update k v) t (.ok ()) t' ∧
      Whole t' ((k.val, v.val) :: row') := by
  rcases hw.state with ⟨hb, rfl⟩ | ⟨c, r, hr, hperm⟩
  · exact Or.inl ⟨fun e he => (by cases he), t, Runs.bind (hb.findSlot _) (Runs.pure _ _), hw⟩
  obtain ⟨p', hr', hrec, ⟨h, A, e, B, hh, hrow, hek, hrun⟩ | ⟨hall, hrun⟩⟩ := hr.findSlot k
  · obtain ⟨p'', hrun', hr''⟩ := hr'.writeValue hh hrow v.property
    obtain ⟨S, T, hpairs, hpairs'⟩ := hr.sound.pairs_update hh
    have hmiddle : ∀ a : Pair, (S ++ (A ++ a :: B) ++ T).Perm (a :: (S ++ (A ++ B) ++ T)) := fun a => by
      have : (S ++ A ++ a :: (B ++ T)).Perm (a :: (S ++ A ++ (B ++ T))) := List.perm_middle
      simpa only [List.append_assoc, List.cons_append] using this
    rw [hpairs, hrow] at hperm
    have hold := hperm.trans (hmiddle e)
    rw [show e = (k.val, e.2) by rw [← hek]] at hold
    refine Or.inr ⟨e.2, S ++ (A ++ B) ++ T, hold, _,
      Runs.bind hrun (Runs.bind (Runs.get _) (Runs.bind (Runs.onNodes hrun')
      (Runs.pure _ _))), hr''.whole hw.pairs (hr.fits hw.fits) ?_ ?_⟩
    · exact hw.len.trans hold.length_eq
    · show ((k.val, v.val) :: (S ++ (A ++ B) ++ T)).Perm (Rows.pairs _ r (t.height - 1))
      rw [hpairs', ← hek]
      exact (hmiddle _).symm
  · exact Or.inl ⟨fun e he => hall e (hperm.mem_iff.mp he), _, Runs.bind hrun (Runs.pure _ _),
      hr'.whole hw.pairs (hr.fits hw.fits) hw.len hperm⟩

end Lookups
end MemoTree
