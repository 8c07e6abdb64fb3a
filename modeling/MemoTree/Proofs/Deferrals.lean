import MemoTree.Proofs.Reachable
import MemoTree.Proofs.Tracing

/-! # Operations are traced

What an operation on a whole tree reports of the nodes that wait is what it does to the pool. A lookup stores memos
for nodes of the tree only, and a removal and a draining unlink nodes of the tree only: a node is unlinked when its
slot is gone from the level above, and it is still in use then. -/

namespace MemoTree
open Pool NodePool Rows

theorem Pool.Live.unmarked {p : NodePool} {h : Handle} (hh : p.Live h) : p.Unmarked h := by
  obtain ⟨n, hn, hdel, -⟩ := hh
  exact ⟨n, hn, hdel⟩

/-! ### Lookups -/

/-- A search that is served no memo starts one slot further on the next time. -/
theorem NodePool.remembered_none {p p' : NodePool} {h : Handle} {key : Words}
    (he : Ends (remembered h key) p none p') :
    ∃ n, p.block h = .ok n ∧ p' = p.put h { n with ring := n.ring.advance } := by
  obtain ⟨n, -, he⟩ := he.bind_get.bind_read
  obtain ⟨served, -, he⟩ := he.bind_lift
  cases served with
  | none =>
    obtain ⟨_, _, hupdate, hpure⟩ := he.bind
    obtain ⟨-, rfl⟩ := hpure.pure
    obtain ⟨b, b', hb, hb', rfl⟩ := hupdate.update
    cases hb'
    exact ⟨b, hb, rfl⟩
  | some child => cases he.pure.1

section Lookups
variable {w : Width} {t : Tree w} {c : Rows} {r h : Handle} {row : Row} {frees : Prop}

theorem Rooted.traces_childFor {i x : Nat} (hr : Rooted t c r) (hi : i + 1 ≤ t.height - 1) (hh : h ∈ c.level r i)
    (hx : x < 2 ^ w.bits) (cached : Bool) :
    Traces id True frees (Tree.childFor t.geometry cached (Words.ofNat w.words x) h) t.pool := by
  obtain ⟨n, hn, hpacks⟩ := hr.stand.stock.node (hr.live_level (by omega) hh)
  have hxl : x < 2 ^ (64 * t.geometry.keyLength) := Nat.lt_of_lt_of_le hx (Key.pow_bits_le w)
  -- what a scan finds is in use, and is not deleted where the memos have changed
  have hfound : ∀ {q : NodePool} {n' : Node} {k : Handle}, (∀ k, t.pool.Unmarked k → q.Unmarked k) →
    n'.words = n.words → Tree.scanChild t.geometry n' (Words.ofNat w.words x) = .ok (some k) → q.Unmarked k :=
      fun {q n' k} hq hwords hscan => by
    have hpacks' : Packs t.geometry n'.words (c h) := hwords ▸ hpacks
    have hscan := (hpacks'.shows.scanChild_eq hxl).symm.trans hscan
    rw [Except.ok.injEq] at hscan
    exact hq k (hr.live_level hi (mem_level_succ.mpr ⟨h, hh, mem_kids_of_step (step_of_look hscan)⟩)).unmarked
  refine .ite (fun _ => .bind (.remembered _) fun served q he => ?_) fun hcached => ?_
  · cases served with
    | some child => exact .pure _
    | none =>
      have hasks : Traces id True False (remembered h (Words.ofNat w.words x)) t.pool := .remembered _
      have hq : ∀ k, t.pool.Unmarked k → q.Unmarked k := fun k hk => hasks.unmarked he hk
      obtain ⟨b, hb, rfl⟩ := remembered_none he
      obtain rfl := Except.ok.inj (hn.symm.trans hb)
      refine .bind_read fun n' hn' => .bind_lift fun found hscan => ?_
      obtain rfl := Except.ok.inj ((block_put_self hn).symm.trans hn')
      cases found with
      | none => exact .pure _
      | some child =>
        exact .ite (fun _ => .bind (.remember trivial _ (hfound hq rfl hscan)) fun _ _ _ => .pure _) fun _ => .pure _
  · refine .bind_read fun _ _ => .bind_lift fun found _ => ?_
    cases found with
    | none => exact .pure _
    | some child => exact .ite (fun h => absurd h hcached) fun _ => .pure _

theorem Rooted.traces_leafFor {x : Nat} (hx : x < 2 ^ w.bits) (cached : Bool) (steps : Nat) :
    ∀ {t : Tree w} {i : Nat} {h : Handle}, Rooted t c r → i + steps = t.height - 1 → h ∈ c.level r i →
    Traces id True frees (Tree.leafFor t.geometry cached (Words.ofNat w.words x) steps h) t.pool := by
  induction steps with
  | zero => exact fun _ _ _ => .pure _
  | succ steps ih =>
    intro t i h hr hi hh
    obtain ⟨p, hrun, hr', -⟩ := hr.childFor (by omega) hh hx cached
    refine .after hrun (hr.traces_childFor (by omega) hh hx cached) ?_
    cases hlook : c.look x h with
    | none => exact .pure _
    | some k =>
      exact ih hr' (by change i + 1 + steps = t.height - 1; omega)
        (mem_level_succ.mpr ⟨h, hh, mem_kids_of_step (step_of_look hlook)⟩)

theorem Whole.traces_findSlot (hw : Whole t row) (k : Key w) :
    Traces Tree.pool True frees (Tree.findSlot k.toWords) t := by
  refine .bind_get ?_
  rcases hw.state with ⟨hb, -⟩ | ⟨c, r, hr, -⟩
  · rw [hb.root]
    exact .pure _
  · rw [hr.stand.root]
    refine .bind_get (.bind_get (.bind_get (.onNodes (.bind (hr.traces_leafFor k.isLt t.memoize (t.height - 1)
      (Nat.zero_add _) (List.mem_singleton_self r)) fun found _ _ => ?_))))
    cases found with
    | none => exact .pure _
    | some leaf => exact .bind_read fun _ _ => .bind_lift fun slot _ => by cases slot <;> exact .pure _

theorem Whole.traces_lookup (hw : Whole t row) (k : Key w) : Traces Tree.pool True frees (Tree.lookup k) t := by
  refine .bind (hw.traces_findSlot k) fun found _ _ => ?_
  extract_lets answer
  have hanswer : ∀ word t', Traces Tree.pool True frees (answer word) t' := fun word _ =>
    .bind_get (.bind (.tellTimer _ _) fun _ _ _ => by
      cases Value.ofWord? word with
      | none => exact .pure _
      | some value => exact .bind_get (.bind (.tellMonitor _ _) fun _ _ _ => .pure _))
  rcases found with _ | ⟨leaf, slot⟩
  · exact .bind (.pure _) fun _ _ _ => hanswer _ _
  · exact .bind_get (.bind (.onNodes .read) fun _ _ _ => .bind_lift fun _ _ => hanswer _ _)

theorem Whole.traces_update (hw : Whole t row) (k : Key w) (v : Value) :
    Traces Tree.pool True frees (Tree.update k v) t :=
  .bind (hw.traces_findSlot k) fun found _ _ => by
    rcases found with _ | ⟨leaf, slot⟩
    · exact .pure _
    · exact .bind_get (.bind (.onNodes (.update fun _ _ h => Node.sameMarks_writeValue h)) fun _ _ _ => .pure _)

end Lookups

/-! ### Walks -/

section Walks
variable {w : Width} {g : Geometry} {c : Rows} {t : Tree w} {row : Row} {stores frees : Prop}

/-- A walk that does not reap only reads. -/
theorem Traces.walk_read {order : Order} {depth : Nat} : ∀ {h : Handle} {seen : Array (Tree.Visit w)} {p : NodePool},
    Traces id stores frees (Tree.walk g order false depth h seen) p := by
  induction depth with
  | zero => exact fun {_ _ _} => .bind_read fun _ _ => .bind_lift fun _ _ => .bind_lift fun _ _ => .pure _
  | succ depth ih =>
    have hall : ∀ (ks : List Handle) (seen : Array (Tree.Visit w)) (p : NodePool), Traces id stores frees
        (ks.foldlM (fun seen child => Tree.walk g order false depth child seen) seen) p := fun ks => by
      induction ks with
      | nil => exact fun _ _ => .pure _
      | cons k ks ihk => exact fun _ _ => .bind ih fun _ _ _ => ihk _ _
    exact fun {_ _ _} => .bind_read fun _ _ => .bind_lift fun _ _ => .bind_lift fun _ _ =>
      .bind (hall _ _ _) fun _ _ _ => .pure _

/-- That a walk that reaps is traced if it begins `depth` levels above the leaves. -/
def WalkTraced (w : Width) (g : Geometry) (c : Rows) (stores : Prop) (order : Order) (depth : Nat) : Prop :=
  ∀ {p : NodePool} {h : Handle} {seen : Array (Tree.Visit w)}, Stock g p c → (∀ k ∈ c.family h depth, p.Live k) →
    (c.family h depth).Nodup → (∀ e ∈ c.pairs h depth, e.1 < 2 ^ w.bits) →
    Traces id stores True (Tree.walk g order true depth h seen) p

/-- So are the walks through some nodes, for the nodes under one of them are not under another. -/
theorem WalkTraced.all {order : Order} {depth : Nat} (ht : WalkTraced w g c stores order depth)
    (hw : Walks w g c order depth) (ks : List Handle) : ∀ {p : NodePool} {seen : Array (Tree.Visit w)}, Stock g p c →
    (∀ k ∈ ks.flatMap fun k => c.family k depth, p.Live k) → (ks.flatMap fun k => c.family k depth).Nodup →
    (∀ k ∈ ks, ∀ e ∈ c.pairs k depth, e.1 < 2 ^ w.bits) →
    Traces id stores True (ks.foldlM (fun seen child => Tree.walk g order true depth child seen) seen) p := by
  induction ks with
  | nil => exact fun _ _ _ _ => .pure _
  | cons k ks ih =>
    intro p seen hs hlive hnodup hsmall
    rw [List.flatMap_cons] at hlive hnodup
    obtain ⟨hnk, hnks, hdisjoint⟩ := List.nodup_append.mp hnodup
    have hlive₁ := fun q hq => hlive q (List.mem_append_left _ hq)
    have hsmall₁ := hsmall k List.mem_cons_self
    obtain ⟨p₁, hrun₁, hs₁, hreaps₁⟩ := hw seen hs hlive₁ hnk hsmall₁
    exact .after hrun₁ (ht hs hlive₁ hnk hsmall₁) (ih hs₁ (fun q hq =>
      (hreaps₁ q).mpr ⟨hlive q (List.mem_append_right _ hq), fun hqk => hdisjoint q hqk q hq rfl⟩) hnks fun q hq =>
      hsmall q (List.mem_cons_of_mem k hq))

/-- A walk that reaps is traced, for it unlinks nodes in use, each of them once. -/
theorem traces_walk (hg : g.keyLength = w.words) (order : Order) (depth : Nat) :
    WalkTraced w g c stores order depth := by
  induction depth with
  | zero =>
    intro p h seen hs hlive _ _
    exact .bind_read fun _ _ => .bind_lift fun _ _ => .bind_lift fun _ _ =>
      .bind (.unlink trivial (hlive h (List.mem_singleton_self h)).unmarked) fun _ _ _ => .pure _
  | succ depth ih =>
    intro p h seen hs hlive hnodup hsmall
    obtain ⟨hnot, hnodup⟩ := List.nodup_cons.mp hnodup
    have hperm := family_arrange c order h depth
    have hlive' : ∀ k ∈ (order.arrange (c.kids h)).flatMap fun k => c.family k depth, p.Live k := fun k hk =>
      hlive k (List.mem_cons_of_mem h (hperm.mem_iff.mp hk))
    have hnodup' := hperm.nodup_iff.mpr hnodup
    have hwalks : Walks w g c order depth := walk_spec hg order depth
    obtain ⟨n, hn, hpacks⟩ := hs.node (hlive h List.mem_cons_self)
    obtain ⟨p₁, hrun₁, -, hreaps₁⟩ := hwalks.all _ seen hs hlive' hnodup' (small_children hsmall)
    have hlast : p₁.Live h := (hreaps₁ h).mpr ⟨hlive h List.mem_cons_self, fun hh => hnot (hperm.mem_iff.mp hh)⟩
    refine .after (Runs.read hn) .read (.after (Runs.lift hpacks.fill_eq _) (.lift _) (.after
      (Runs.lift (children_walked hpacks) _) (.lift _) (.after hrun₁ ?_ ?_)))
    · exact ih.all hwalks _ hs hlive' hnodup' (small_children hsmall)
    · exact .bind (.unlink trivial hlast.unmarked) fun _ _ _ => .pure _

theorem Traces.visit (order : Order) : Traces Tree.pool stores frees (Tree.visit order) t := by
  refine .bind_get ?_
  cases t.root with
  | none => exact .pure _
  | some root => exact .bind_get (.bind_get (.onNodes .walk_read))

theorem Whole.traces_drain (hw : Whole t row) (order : Order) : Traces Tree.pool stores True (Tree.drain order) t := by
  refine .bind_get ?_
  extract_lets answer
  have hanswer : ∀ seen t', Traces Tree.pool stores True (answer seen) t' := fun seen _ =>
    .bind (.modifies rfl) fun _ _ _ => .bind_get (.bind_lift fun _ _ => .bind (.report rfl) fun _ _ _ => .pure _)
  rcases hw.state with ⟨hb, -⟩ | ⟨c, r, hr, -⟩
  · rw [hb.root]
    exact .bind (.pure _) fun _ _ _ => hanswer _ _
  · rw [hr.stand.root]
    refine .bind_get (.bind_get
      (.bind (.onNodes (traces_walk rfl order _ hr.stand.stock (fun _ hk => hr.live_family.mp hk)
      hr.family_nodup fun e he => ?_)) fun _ _ _ => hanswer _ _))
    obtain ⟨h, hh, heh⟩ := mem_pairs.mp he
    exact hr.sound.small_level (Nat.le_refl _) hh heh

end Walks

/-! ### Removals -/

section Reading
variable {w : Width} {g : Geometry} {p : NodePool} {t : Tree w} {stores frees : Prop} {key : Words} {level : Nat}

namespace Traces

theorem neighbours {parent child : Handle} : Traces id stores frees (Tree.neighbours g key parent child) p := by
  refine .bind_read fun n _ => .bind_lift fun i _ => .bind_lift fun found _ => ?_
  extract_lets answer go
  have hanswer : ∀ left q, Traces id stores frees (answer left) q := fun left _ =>
    .ite (fun _ => .bind_lift fun _ _ => .pure _) fun _ => .bind (.pure _) fun _ _ _ => .pure _
  have hgo : ∀ u q, Traces id stores frees (go u) q := fun _ _ =>
    .ite (fun _ => .bind (.pure _) fun _ _ _ => hanswer _ _) fun _ => .bind_lift fun _ _ => hanswer _ _
  exact .guard fun _ => hgo () _

theorem fitting {fill : Nat} {neighbour : Option Handle} :
    Traces id stores frees (Tree.fitting g fill neighbour) p := by
  cases neighbour with
  | none => exact .pure _
  | some node => exact .bind_read fun _ _ => .bind_lift fun _ _ => .ite (fun _ => .pure _) fun _ => .pure _

theorem takePair : Traces Tree.pool stores frees (Tree.takePair key level) t := by
  refine .bind (.nodeAt key level) fun node _ _ => .bind_get (.onNodes (.bind_read fun n hn => .bind_lift fun _ _ =>
    .bind_lift fun _ _ => ?_))
  extract_lets answer
  have hanswer : ∀ present, Traces id stores frees (answer present) _ := fun present =>
    .ite (fun _ => .pure _) fun _ => .bind_lift fun _ _ => .bind_lift fun n' hn' =>
      .bind (.write hn (Node.sameMarks_erasePair hn')) fun _ _ _ => .pure _
  exact .ite (fun _ => .bind_lift fun _ _ => hanswer _) fun _ => .after (Runs.pure _ _) (.pure _) (hanswer _)

theorem dropRoot (hu : ∀ r, t.root = some r → t.pool.Unmarked r) :
    Traces Tree.pool stores True (Tree.dropRoot : TreeM w Unit) t := by
  refine .bind_get (.after (Runs.modify _ _) (.modifies rfl) ?_)
  have hlast : ∀ t', Traces Tree.pool stores True (liftM (emit .emptied) : TreeM w Unit) t' := fun _ => .report rfl
  split
  · rename_i r hr
    exact .bind (.onNodes (.unlink trivial (hu r hr))) fun _ _ _ => .bind (.modifies rfl) fun _ _ _ => hlast _
  · exact .bind (.modifies rfl) fun _ _ _ => hlast _

theorem dropLevel (hu : ∀ r, t.root = some r → t.pool.Unmarked r) :
    Traces Tree.pool stores True (Tree.dropLevel : TreeM w Unit) t := by
  refine .bind_get ?_
  split
  · rename_i r hr
    refine .bind_get (.bind (.onNodes (.bind_read fun _ _ => .lift _)) fun _ t' he =>
      .after (Runs.modify _ _) (.modifies rfl)
      (.bind (.onNodes (.unlink trivial ?_)) fun _ _ _ => .bind_get (.report rfl)))
    obtain ⟨p, hread, rfl⟩ := he.onNodes
    obtain ⟨_, -, hlift⟩ := hread.bind_read
    obtain ⟨-, rfl⟩ := hlift.lift
    exact hu r hr
  · exact .pure _

end Traces
end Reading

section Removals
variable {w : Width} {t t' : Tree w} {c : Rows} {r h o f q : Handle} {d k : Nat} {rest : Handle → Prop}
    {late : List Handle}
  {take : Tree.Unlinker w} {A B : Row} {e e₁ e₂ : Pair} {asked : Rule → Prop} {done : Remains → Prop} {stores : Prop}

/-- What is put aside is in use when the levels above are mended. -/
theorem Left.live (hl : Left t c r d rest late asked done t') (hq : rest q) : t'.pool.Live q := by
  rcases hl with ⟨_, _, _, hl, -⟩ | ⟨_, hl, -⟩
  · exact (hl.stand.live q).mpr (Or.inr hq)
  · exact (hl.live q).mpr hq

/-- That `take` takes a pair out of a node `d` levels below the root is traced. -/
def Traced (stores : Prop) (take : Tree.Unlinker w) (d : Nat) : Prop :=
  ∀ {t : Tree w} {c : Rows} {r h : Handle} {rest : Handle → Prop} {k : Nat} {A B : Row} {e : Pair} {late : List Handle},
    Taking t c r d rest h k A e B late → 2 ≤ t.pairs → (t.height - d = 1 → e.1 = k) →
    Traces Tree.pool stores True (take (Words.ofNat w.words k) (t.height - d)) t

/-- The node behind is unlinked when its slot was taken out of the parent. -/
theorem Joinable.traces (hj : Joinable t c r d rest late h o f q A e₁ e₂ B) (htake : Takes w take d)
    (htraced : Traced stores take d) (hpairs : 2 ≤ t.pairs) :
    Traces Tree.pool stores True (Tree.join take (t.height - (d + 1)) f (c f).length q (c q).length o A.length) t := by
  have hbelow := hj.lacking.below
  obtain ⟨p, hmerge, -, -, htaking⟩ := hj.exchanged
  have hlevel : ({ t with pool := p } : Tree w).height - d = t.height - (d + 1) + 1 := by
    change t.height - d = _
    omega
  have hexact : t.height - d = 1 → e₁.1 = e₁.1 := fun _ => rfl
  obtain ⟨t', hrun, hleft⟩ := htake htaking hpairs hexact
  have htaken := htraced htaking hpairs hexact
  rw [hlevel] at hrun htaken
  refine .bind_get (.after hmerge (.onNodes (.bind_read fun _ _ => .bind_lift fun _ _ =>
    .bind (.update fun _ _ h => Node.sameMarks_writePairs h) fun _ _ _ => .ite_bind (fun _ => .invalidate) fun _ =>
    .bind (.update fun n n' hn => ?_) fun _ _ _ => .bind_read fun _ _ => .lift _)) (.after hrun htaken
    (.guard fun _ => ?_)))
  · obtain ⟨m, hfirst, hsecond⟩ := Fault.of_bind hn
    exact (Node.sameMarks_writeValue hfirst).trans (Node.sameMarks_writeValue hsecond)
  · exact .bind (.onNodes (.unlink trivial (hleft.live (Or.inr rfl)).unmarked)) fun _ _ _ => .report rfl

/-- A node is unlinked, or one of two neighbours is, when the levels above were mended. -/
theorem Lacking.traces_repair (hl : Lacking t c r (d + 1) rest h late) (htake : Takes w take d)
    (htraced : Traced stores take d) (hr : c.route k r (d + 1) = some h) (hk : k < 2 ^ w.bits)
    (hless : (c h).length < t.pairs / 2) (hpairs : 2 ≤ t.pairs) :
    Traces Tree.pool stores True (Tree.repair take (Words.ofNat w.words k) (t.height - (d + 1)) h (c h).length) t := by
  have hbelow := hl.below
  obtain ⟨o, A, e, B, p, hh₀, hh, -, hrun, hnear⟩ := hl.placed hr hk
  refine .ite (fun h0 => ?_) fun hfill => ?_
  · -- the node is empty
    have htaking := hh₀.taking hk (List.length_eq_zero_iff.mp h0)
    have hexact : t.height - d = 1 → e.1 = k := fun h1 => by omega
    obtain ⟨t', hrun', hleft⟩ := htake htaking hpairs hexact
    have htaken := htraced htaking hpairs hexact
    rw [show t.height - d = t.height - (d + 1) + 1 by omega] at hrun' htaken
    exact .after hrun' htaken (.bind (.onNodes (.unlink trivial (hleft.live (Or.inr rfl)).unmarked))
      fun _ _ _ => .pure _)
  have hfilled : c h ≠ [] := fun hnil => hfill (List.length_eq_zero_iff.mpr hnil)
  refine .after hrun (.nodeAt _ _) (.bind_get (.after (Runs.onNodes hnear) (.onNodes .neighbours) ?_))
  rcases hh.choice with ⟨A', a, f, rfl, haf, hfit, hleft⟩ | ⟨-, hleft, ⟨b, B', q, rfl, hbq, hfit, hright⟩ | ⟨-, hright⟩⟩
  · have hjoin := (hh.joinable_front hfilled hless haf hfit).traces htake htraced hpairs
    have hslot : (A' ++ [a]).length - 1 = A'.length := by simp
    rw [← hslot] at hjoin
    exact .after (Runs.onNodes hleft) (.onNodes .fitting) hjoin
  · exact .after (Runs.onNodes hleft) (.onNodes .fitting) (.after (Runs.onNodes hright) (.onNodes .fitting)
      ((hh.joinable_behind hfilled hless hbq hfit).traces htake htraced hpairs))
  · exact .after (Runs.onNodes hleft) (.onNodes .fitting) (.after (Runs.onNodes hright) (.onNodes .fitting) (.pure _))

theorem traced_root (w : Width) (stores : Prop) : Traced stores (w := w) (fun k l => Tree.deleteAt 1 k l) 0 :=
  fun {t c r h rest k A B e late} ht _ hexact => by
    obtain ⟨p, hrun, hedits, hlack⟩ := ht.takePair (show t.height - 0 + 0 = t.height by omega) hexact
    have hroot : ∀ q, t.root = some q → p.Unmarked q := fun q hq => by
      obtain rfl : r = q := Option.some.inj (hlack.upper.root.symm.trans hq)
      exact (hlack.live (List.mem_singleton_self r)).unmarked
    refine .after hrun .takePair (.bind_get (.ite (fun _ => ?_) fun hne => absurd rfl hne))
    exact .ite (fun _ => .bind (.dropRoot hroot) fun _ _ _ => .pure _) fun _ =>
      .ite_bind (fun _ => .dropLevel hroot) fun _ => .pure _

theorem traced_below {rungs : Nat} (htake : Takes w (fun k l => Tree.deleteAt rungs k l) d)
    (htraced : Traced (w := w) stores (fun k l => Tree.deleteAt rungs k l) d) :
    Traced (w := w) stores (fun k l => Tree.deleteAt (rungs + 1) k l) (d + 1) :=
  fun {t c r h rest k A B e late} ht hpairs hexact => by
    have hheight := ht.stand.height
    obtain ⟨p, hrun, hedits, hlack⟩ := ht.takePair (show t.height - (d + 1) + (d + 1) = t.height by omega) hexact
    have hroute : Rows.route (Function.update c h (A ++ B)) k r (d + 1) = some h := by
      rw [route_congr ((ht.stand.sound (d + 1) rfl).update_off ht.node (A ++ B))]
      exact ht.route
    obtain ⟨c₁, hc₁⟩ : ∃ c₁ : Rows, Function.update c h (A ++ B) = c₁ := ⟨_, rfl⟩
    have hlen : (c₁ h).length = (A ++ B).length := by rw [← hc₁, Function.update_self]
    rw [hc₁] at hlack hroute
    refine .after hrun .takePair
      (.bind_get (.ite (fun heq => absurd heq (by change ¬t.height - (d + 1) = t.height; omega))
      fun _ => .bind_get (.ite (fun hshort => ?_) fun _ => .pure _)))
    rw [← hlen] at hshort ⊢
    exact .bind (hlack.traces_repair htake htraced hroute ht.small hshort hpairs) fun _ _ _ => .pure _

/-- Taking a pair out of any level is traced. -/
theorem traced_deleteAt (w : Width) (stores : Prop) (d : Nat) :
    Traced (w := w) stores (fun k l => Tree.deleteAt (d + 1) k l) d := by
  induction d with
  | zero => exact traced_root w stores
  | succ d ih => exact traced_below (takes_deleteAt w d) ih

theorem Whole.traces_remove {row : Row} (hw : Whole t row) (k : Key w) :
    Traces Tree.pool stores True (Tree.remove k) t := by
  rcases hw.state with ⟨hb, -⟩ | ⟨c, r, hr, -⟩
  · exact .bind_get (.ite (fun _ => .pure _) fun hroot => absurd (by rw [hb.root]; rfl) hroot)
  obtain ⟨d, hd⟩ := hr.exists_height
  have hst : Stand t c r (d + 1) fun _ => False := hd ▸ hr.stand
  have hdelete : Traces Tree.pool stores True (Tree.deleteAt t.height k.toWords 1) t := by
    rw [hd]
    by_cases hold : ∃ e ∈ c.pairs r d, e.1 = k.val
    · obtain ⟨e, he, hek⟩ := hold
      obtain ⟨h, A, B, -, ht⟩ := hr.taking hd he
      have htraced := traced_deleteAt w stores d ht hw.pairs fun _ => rfl
      rwa [hek, show t.height - d = 1 by omega] at htraced
    · obtain ⟨_, _, _, hrun, -⟩ := hst.takePair_none (by omega) k.isLt fun e he hek => hold ⟨e, he, hek⟩
      exact .after hrun .takePair (.pure _)
  refine .bind_get (.ite (fun _ => .pure _) fun _ => .bind_get (.bind hdelete fun taken _ _ => ?_))
  cases taken with
  | none => exact .pure _
  | some value => exact .bind_get (.guard fun _ => .bind (.modifies rfl) fun _ _ _ => .pure _)

end Removals
end MemoTree
