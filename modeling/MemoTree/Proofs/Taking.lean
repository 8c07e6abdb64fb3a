import MemoTree.Proofs.Halving
import MemoTree.Proofs.Mending

/-! # Taking a pair out of a level

When a pair is taken out of a level, the levels above may be repaired, and may become fewer. Told from the rows
without the pair, what is left is either a crown under which the next level has the same nodes, reached by
lookups as before (`Taken`), or nothing at all (`Emptied`). The result for a level is carried to the level below,
where one node is unlinked, by `Taken.lift` and `Emptied.lift`. -/

namespace MemoTree
open Pool NodePool Rows

/-- What is asked of the sizes of siblings where a pair was taken out of the node `h`, `d` levels below the root of a
tree of `height` levels. Above the level the rule holds for the sizes with the pair, below it for the children, which
are put aside. -/
structure Slack (rule : Rule) (height : Nat) (rest : Handle → Prop) (c : Rows) (r : Handle) (d : Nat)
    (h : Handle) : Prop where
  above : c.Obeys rule (Function.update c.count h (c.count h + 1)) r d
  level : d + 1 < height → c.Abides rule c.count r d
  single : d + 1 < height → ∀ k, c.kids h = [k] → 2 ≤ c.count k
  root : 0 < d → 2 ≤ c.count r
  hung : d + 1 < height → ∀ k ∈ c.level r (d + 1), rest k

/-- The rule holds on `m` levels of a tree of `height` levels, and the root branches. -/
structure Kept (rule : Rule) (height : Nat) (c : Rows) (r : Handle) (m : Nat) : Prop where
  obeys : ∀ n ≤ m, n < height → c.Obeys rule c.count r n
  root : 1 < height → 2 ≤ c.count r

/-- What is left of a level with the rows `c`, `d` levels below `r`, and of the levels above. A rule that removals keep
holds if what is asked for it holds. -/
structure Taken {w : Width} (t : Tree w) (c : Rows) (r : Handle) (d : Nat) (rest : Handle → Prop) (late : List Handle)
    (asked : Rule → Prop) (t' : Tree w) (c' : Rows) (r' : Handle) (m' : Nat) : Prop where
  alike : Alike t t'
  stand : Stand t' c' r' m' rest
  height : t'.height + (d + 1) = t.height + m'
  some_level : m' = 0 → d + 1 < t.height
  fades : Fades t.pool t'.pool
  coherent : Coherent w t'.pool c' late
  rest : ∀ h, rest h → c' h = c h
  level : (c'.level r' m').Perm (c.level r (d + 1))
  route : ∀ x h, c.route x r (d + 1) = some h → c'.route x r' m' = some h
  pairs : ∀ d', m' = d' + 1 → (c'.pairs r' d').Perm (c.pairs r d)
  kept : ∀ {rule : Rule}, rule.Shrinks t.pairs → asked rule → Kept rule t'.height c' r' m'

/-- Nothing is left of a level with the rows `c`, nor of the levels above. -/
structure Emptied {w : Width} (t : Tree w) (c : Rows) (r : Handle) (d : Nat) (rest : Handle → Prop) (late : List Handle)
    (t' : Tree w) (c' : Rows) : Prop where
  alike : Alike t t'
  root : t'.root = none
  height : t'.height = 0
  stock : Stock t'.geometry t'.pool c'
  live : ∀ h, t'.pool.Live h ↔ rest h
  fades : Fades t.pool t'.pool
  coherent : Coherent w t'.pool c' late
  rest : ∀ h, rest h → c' h = c h
  pairs : c.pairs r d = []

/-- The nodes `gone` were in use, and are the ones that are no longer. -/
structure Loses (p p' : NodePool) (gone : List Handle) : Prop where
  live : ∀ h, p'.Live h ↔ p.Live h ∧ h ∉ gone
  nodup : gone.Nodup
  were : ∀ h ∈ gone, p.Live h

/-- What is left is as `done` says, and the nodes in use are told from those that were. -/
def Yields {w : Width} (t : Tree w) (done : Remains → Prop) (t' : Tree w) (c' : Rows) : Prop :=
  ∃ gone kin, done ⟨c', t'.root, t'.height, gone, kin⟩ ∧ Loses t.pool t'.pool gone

/-- What is left of a level and the levels above, as `done` says. -/
def Left {w : Width} (t : Tree w) (c : Rows) (r : Handle) (d : Nat) (rest : Handle → Prop) (late : List Handle)
    (asked : Rule → Prop) (done : Remains → Prop) (t' : Tree w) : Prop :=
  (∃ c' r' m', Taken t c r d rest late asked t' c' r' m' ∧ Yields t done t' c') ∨
    ∃ c', Emptied t c r d rest late t' c' ∧ Yields t done t' c'

/-- The nodes of a level, `d` levels below `r`, are ready to be taken into the crown. -/
structure Ready {w : Width} (t : Tree w) (c : Rows) (r : Handle) (d : Nat) (rest : Handle → Prop) : Prop where
  nodup : (c.level r d).Nodup
  apart : ∀ h, rest h → h ∉ c.level r d
  rows : ∀ h ∈ c.level r d, (c h).Descending ∧ c h ≠ [] ∧ ∀ e ∈ c h, e.1 < 2 ^ w.bits ∧ c.route e.1 r d = some h
  inner : d + 1 < t.height → ∀ h ∈ c.level r d, ∀ e ∈ c h, ∃ k, Pair.child e = some k
  quiet : d + 1 = t.height → ∀ h ∈ c.level r d, t.pool.Quiet h

section Pools
variable {p p₀ p' p'' : NodePool} {q : Handle} {gone : List Handle}

namespace Loses

theorem none (h : ∀ i, p'.Live i ↔ p.Live i) : Loses p p' [] :=
  ⟨fun i => (h i).trans (and_iff_left List.not_mem_nil).symm, List.nodup_nil, fun _ hi => absurd hi List.not_mem_nil⟩

theorem of_base (h : Loses p p' gone) (hlive : ∀ i, p.Live i ↔ p₀.Live i) : Loses p₀ p' gone :=
  ⟨fun i => (h.live i).trans (and_congr_left fun _ => hlive i), h.nodup, fun i hi => (hlive i).mp (h.were i hi)⟩

/-- Another node is unlinked. -/
theorem unlink (h : Loses p p' gone) (hq : p'.Live q) (hs : Sheds p' p'' q true) : Loses p p'' (q :: gone) := by
  obtain ⟨hwas, hnot⟩ := (h.live q).mp hq
  refine ⟨fun i => ?_, List.nodup_cons.mpr ⟨hnot, h.nodup⟩, fun i hi => ?_⟩
  · rw [hs.live, h.live, List.mem_cons, not_or, and_assoc]
    exact and_congr_right fun _ => ⟨fun ⟨hi, hne⟩ => ⟨hne rfl, hi⟩, fun ⟨hne, hi⟩ => ⟨hi, fun _ => hne⟩⟩
  · rcases List.mem_cons.mp hi with rfl | hi
    · exact hwas
    · exact h.were i hi

end Loses
end Pools

section Results
variable {w : Width} {t t₀ t' : Tree w} {c c₀ c' : Rows} {r r' q : Handle} {d m' : Nat} {rest : Handle → Prop}
  {late kin : List Handle} {asked asked₀ : Rule → Prop} {done done₀ : Remains → Prop} {p : NodePool}

theorem Yields.of_base (h : Yields t done t' c') (hlive : ∀ i, t.pool.Live i ↔ t₀.pool.Live i)
    (hdone : ∀ {s}, done s → done₀ s) : Yields t₀ done₀ t' c' := by
  obtain ⟨gone, kin, hd, hloses⟩ := h
  exact ⟨gone, kin, hdone hd, hloses.of_base hlive⟩

/-- What is left when another node is unlinked, and `kin` are the siblings that were joined before. -/
theorem Yields.unlink (h : Yields t done t' c') (hq : t'.pool.Live q) (hs : Sheds t'.pool p q true)
    (hdone : ∀ {s}, done s → done₀ { s with gone := q :: s.gone, kin := kin ++ s.kin }) :
    Yields t done₀ ({ t' with pool := p } : Tree w) c' := by
  obtain ⟨gone, kin', hd, hloses⟩ := h
  exact ⟨q :: gone, kin ++ kin', hdone hd, hloses.unlink hq hs⟩

/-- The same result, told from an earlier state. -/
theorem Taken.of_base (h : Taken t c r d rest late asked t' c' r' m') (ha : Alike t₀ t) (hheight : t.height = t₀.height)
    (hf : Fades t₀.pool t.pool) (hrest : ∀ i, rest i → c i = c₀ i)
    (hlevel : (c.level r (d + 1)).Perm (c₀.level r (d + 1)))
    (hroute : ∀ x i, c₀.route x r (d + 1) = some i → c.route x r (d + 1) = some i)
    (hpairs : (c.pairs r d).Perm (c₀.pairs r d)) (hasked : ∀ {rule : Rule}, rule.Shrinks t₀.pairs →
      asked₀ rule → asked rule) :
    Taken t₀ c₀ r d rest late asked₀ t' c' r' m' where
  alike := ha.trans h.alike
  stand := h.stand
  height := hheight ▸ h.height
  some_level := hheight ▸ h.some_level
  fades := hf.trans h.fades
  coherent := h.coherent
  rest i hi := (h.rest i hi).trans (hrest i hi)
  level := h.level.trans hlevel
  route x i hi := h.route x i (hroute x i hi)
  pairs d' hd' := (h.pairs d' hd').trans hpairs
  kept hs hask := h.kept (ha.pairs ▸ hs) (hasked hs hask)

theorem Emptied.of_base (h : Emptied t c r d rest late t' c') (ha : Alike t₀ t) (hf : Fades t₀.pool t.pool)
    (hrest : ∀ i, rest i → c i = c₀ i) (hpairs : (c.pairs r d).Perm (c₀.pairs r d)) :
    Emptied t₀ c₀ r d rest late t' c' where
  alike := ha.trans h.alike
  root := h.root
  height := h.height
  stock := h.stock
  live := h.live
  fades := hf.trans h.fades
  coherent := h.coherent
  rest i hi := (h.rest i hi).trans (hrest i hi)
  pairs := List.perm_nil.mp (hpairs.symm.trans (h.pairs ▸ List.Perm.refl _))

theorem Left.of_base (h : Left t c r d rest late asked done t') (ha : Alike t₀ t) (hheight : t.height = t₀.height)
    (hf : Fades t₀.pool t.pool) (hlive : ∀ i, t.pool.Live i ↔ t₀.pool.Live i) (hrest : ∀ i, rest i → c i = c₀ i)
    (hlevel : (c.level r (d + 1)).Perm (c₀.level r (d + 1)))
    (hroute : ∀ x i, c₀.route x r (d + 1) = some i → c.route x r (d + 1) = some i)
    (hpairs : (c.pairs r d).Perm (c₀.pairs r d)) (hasked : ∀ {rule : Rule}, rule.Shrinks t₀.pairs →
      asked₀ rule → asked rule)
    (hdone : ∀ {s}, done s → done₀ s) : Left t₀ c₀ r d rest late asked₀ done₀ t' := by
  rcases h with ⟨c', r', m', h, hy⟩ | ⟨c', h, hy⟩
  · exact Or.inl ⟨c', r', m', h.of_base ha hheight hf hrest hlevel hroute hpairs hasked, hy.of_base hlive hdone⟩
  · exact Or.inr ⟨c', h.of_base ha hf hrest hpairs, hy.of_base hlive hdone⟩

/-- The same result, told from before memos went and words were written elsewhere. -/
theorem Left.of_pool (h : Left ({ t with pool := p } : Tree w) c r d rest late asked done t') (hf : Fades t.pool p)
    (hlive : ∀ i, p.Live i ↔ t.pool.Live i) : Left t c r d rest late asked done t' :=
  h.of_base ⟨rfl, rfl, rfl, rfl⟩ rfl hf hlive (fun _ _ => rfl) (List.Perm.refl _) (fun _ _ h => h) (List.Perm.refl _)
    (fun _ h => h) fun h => h

/-- Unlinking a node that is no longer linked, after which memos that lead there are not served. -/
theorem coherent_unlink (hc : Coherent w t'.pool c' (q :: late)) (hs : Stock t'.geometry t'.pool c')
    (hq : t'.pool.Live q) (hsheds : Sheds t'.pool p q true) : Coherent w p c' late := by
  obtain ⟨n, hn, -⟩ := hs.node hq
  obtain ⟨refs, hn'⟩ := hsheds.block q n hn
  have hdead : p.Dead q := ⟨_, hn', by simp⟩
  refine hc.fade (Fades.of_sheds hsheds) (fun k hk => ?_) fun h _ x k hk => Or.inr hk
  rcases List.mem_cons.mp hk with rfl | hk
  · exact Or.inr hdead
  · exact Or.inl hk

/-- What the level below a level that was repaired asks for: the rule for its children, which are put aside. -/
def Lifts (t : Tree w) (c : Rows) (r : Handle) (d : Nat) (rest : Handle → Prop) (asked : Rule → Prop)
    (rule : Rule) : Prop :=
  asked rule ∧ (d + 1 < t.height → c.Abides rule c.count r d ∧ ∀ k ∈ c.level r (d + 1), rest k)

/-- The rule holds one level further down. -/
theorem Taken.kept_below (h : Taken t c r d (Aside c r (d + 1) rest q) (q :: late) asked t' c' r' m') {rule : Rule}
    (hs : rule.Shrinks t.pairs) (hask : Lifts t c r (d + 1) rest asked rule) : Kept rule t'.height c' r' (m' + 1) := by
  have hkept := h.kept hs hask.1
  have hhigh := h.height
  refine ⟨fun n hn hlt => ?_, hkept.root⟩
  rcases Nat.lt_or_ge n (m' + 1) with hle | hge
  · exact hkept.obeys n (by omega) hlt
  obtain rfl : n = m' + 1 := by omega
  obtain ⟨habides, hrest⟩ := hask.2 (by omega)
  refine (hkept.obeys m' (Nat.le_refl _) (by omega)).succ fun i hi => ?_
  have hi := h.level.mem_iff.mp hi
  rw [kids, h.rest i (Or.inl (Or.inr hi)), List.map_congr_left fun k hk => ?_]
  · exact habides i hi
  · exact congrArg List.length (h.rest k (Or.inl (Or.inl (hrest k (mem_level_succ.mpr ⟨i, hi, hk⟩)))))

/-- The level below a level that was repaired: `q` has lost its slot there and is unlinked. -/
theorem Taken.lift (h : Taken t c r d (Aside c r (d + 1) rest q) (q :: late) asked t' c' r' m')
    (hready : Ready t c r (d + 1) rest) (hq : q ∉ c.level r (d + 1)) (hqr : ¬rest q) (hheight : d + 1 < t.height)
    (hl : Ledger p []) (hsheds : Sheds t'.pool p q true) :
    Taken t c r (d + 1) rest late (Lifts t c r (d + 1) rest asked) ({ t' with pool := p } : Tree w) c' r' (m' + 1) := by
  have hfades := Fades.of_sheds hsheds
  have hlevel : ∀ i, i ∈ c'.level r' m' ↔ i ∈ c.level r (d + 1) := fun i => h.level.mem_iff
  have hrow : ∀ i ∈ c.level r (d + 1), c' i = c i := fun i hi => h.rest i (Or.inl (Or.inr hi))
  have hqlive : t'.pool.Live q := (h.stand.live q).mpr (Or.inr (Or.inr rfl))
  have hhigh : t'.height + (d + 1) = t.height + m' := h.height
  have hperm : (c'.level r' (m' + 1)).Perm (c.level r (d + 1 + 1)) := by
    refine (h.level.flatMap_right c'.kids).trans (List.Perm.of_eq ?_)
    exact List.flatMap_congr fun i hi => by rw [kids, kids, hrow i hi]
  refine ⟨⟨h.alike.len, h.alike.pairs, h.alike.memoize, h.alike.hooks⟩, ?_, ?_,
    fun h0 => absurd h0 (Nat.succ_ne_zero m'),
    h.fades.trans hfades, coherent_unlink h.coherent h.stand.stock hqlive hsheds,
    fun i hi => h.rest i (Or.inl (Or.inl hi)), hperm, fun x i hi => ?_, fun d' hd' => ?_, h.kept_below⟩
  · refine Stand.extend (h.stand.congr (h.stand.stock.sheds hl hsheds) hfades (fun _ _ => rfl) (fun i => ?_)
      fun i hi hmem => ?_) (by change m' < t'.height; omega) (h.level.nodup_iff.mpr hready.nodup)
      (fun i hi hmem => hready.apart i hi ((hlevel i).mp hmem)) (fun i hi => ?_) (fun hm i hi e he => ?_)
      fun hm i hi => ?_
    · -- `q` alone is no longer in use, and it is none of the nodes that stay
      rw [hsheds.live, h.stand.live, hlevel, Aside]
      constructor
      · rintro ⟨hi | ((hi | hi) | hi), hne⟩
        · exact Or.inl hi
        · exact Or.inr (Or.inl hi)
        · exact Or.inr (Or.inr hi)
        · exact absurd hi (hne rfl)
      · rintro (hi | hi | hi)
        · refine ⟨Or.inl hi, fun _ hiq => ?_⟩
          exact h.stand.apart q (Or.inr rfl) (hiq ▸ hi)
        · exact ⟨Or.inr (Or.inl (Or.inl hi)), fun _ hiq => hqr (hiq ▸ hi)⟩
        · exact ⟨Or.inr (Or.inl (Or.inr hi)), fun _ hiq => hq (hiq ▸ hi)⟩
    · rw [hlevel] at hi
      exact h.stand.apart i (Or.inl hi) hmem
    · rw [hlevel] at hi
      obtain ⟨hd, hne, he⟩ := hready.rows i hi
      rw [hrow i hi]
      exact ⟨hd, hne, fun e hm => ⟨(he e hm).1, h.route e.1 i (he e hm).2⟩⟩
    · rw [hlevel] at hi
      rw [hrow i hi] at he
      exact hready.inner (by change m' + 1 < t'.height at hm; omega) i hi e he
    · rw [hlevel] at hi
      exact (h.fades.trans hfades).quiet (hready.quiet (by change m' + 1 = t'.height at hm; omega) i hi)
  · change t'.height + (d + 1 + 1) = t.height + (m' + 1)
    omega
  · obtain ⟨j, hj, hlook⟩ := Option.bind_eq_some_iff.mp hi
    rw [route_succ, h.route x j hj]
    change c'.look x j = some i
    rwa [look, hrow j (mem_level_of_route hj)]
  · obtain rfl : m' = d' := by omega
    refine (h.level.flatMap_right c').trans (List.Perm.of_eq ?_)
    exact List.flatMap_congr hrow

theorem Emptied.lift (h : Emptied t c r d (Aside c r (d + 1) rest q) (q :: late) t' c') (hqr : ¬rest q)
    (hl : Ledger p []) (hsheds : Sheds t'.pool p q true) :
    Emptied t c r (d + 1) rest late ({ t' with pool := p } : Tree w) c' := by
  have hqlive : t'.pool.Live q := (h.live q).mpr (Or.inr rfl)
  have hlevel : c.level r (d + 1) = [] := by rw [level_eq_children, h.pairs, List.filterMap_nil]
  refine ⟨⟨h.alike.len, h.alike.pairs, h.alike.memoize, h.alike.hooks⟩, h.root, h.height, h.stock.sheds hl hsheds,
    fun i => ?_, h.fades.trans (Fades.of_sheds hsheds), coherent_unlink h.coherent h.stock hqlive hsheds,
    fun i hi => h.rest i (Or.inl (Or.inl hi)), by rw [Rows.pairs, hlevel]; rfl⟩
  rw [hsheds.live, h.live, Aside, hlevel]
  constructor
  · rintro ⟨(hi | hi) | hi, hne⟩
    · exact hi
    · cases hi
    · exact absurd hi (hne rfl)
  · exact fun hi => ⟨Or.inl (Or.inl hi), fun _ hiq => hqr (hiq ▸ hi)⟩

theorem Left.lift (h : Left t c r d (Aside c r (d + 1) rest q) (q :: late) asked done t')
    (hready : Ready t c r (d + 1) rest) (hq : q ∉ c.level r (d + 1)) (hqr : ¬rest q) (hheight : d + 1 < t.height)
    (hdone : ∀ {s}, done s → done₀ { s with gone := q :: s.gone, kin := kin ++ s.kin }) :
    ∃ p back, Runs (Tree.onNodes (NodePool.unlink q)) t' back ({ t' with pool := p } : Tree w) ∧
      Left t c r (d + 1) rest late (Lifts t c r (d + 1) rest asked) done₀ ({ t' with pool := p } : Tree w) := by
  rcases h with ⟨c', r', m', h, hy⟩ | ⟨c', h, hy⟩
  · have hlive := (h.stand.live q).mpr (Or.inr (Or.inr rfl))
    obtain ⟨p, back, hrun, hl, hsheds⟩ := unlink_spec h.stand.stock.ledger hlive
    exact ⟨p, back, Runs.onNodes hrun, Or.inl ⟨c', r', m' + 1, h.lift hready hq hqr hheight hl hsheds,
      hy.unlink hlive hsheds hdone⟩⟩
  · have hlive := (h.live q).mpr (Or.inr rfl)
    obtain ⟨p, back, hrun, hl, hsheds⟩ := unlink_spec h.stock.ledger hlive
    exact ⟨p, back, Runs.onNodes hrun, Or.inr ⟨c', h.lift hqr hl hsheds, hy.unlink hlive hsheds hdone⟩⟩

end Results
end MemoTree
