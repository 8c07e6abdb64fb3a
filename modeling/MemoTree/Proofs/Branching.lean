import MemoTree.Proofs.Transparency

/-! # Rules for whole trees

A rule on the sizes of siblings holds in a tree if it holds below all its nodes and the root, unless it is a leaf, has
two children. Calls start from a tree as it is made, which has no nodes. A call that removes nothing keeps a rule that
insertions keep: the pairs that a failed insertion or a lookup leave behind are the ones that were there. A removal
keeps a rule that removals keep. -/

namespace MemoTree
open Pool NodePool Rows

namespace Tree
variable {w : Width}

/-- Whether the operation takes entries out. -/
def Call.removes : Call w → Bool
  | .remove _ => true
  | .insert _ _ | .update _ _ | .lookup _ | .prev _ | .last | .visit _ | .pulls _ => false

/-- Allowed calls lead from a tree as it is made, with nodes of `pairs` slots, to the tree, whatever they answered. -/
inductive LedBy (allowed : Call w → Prop) (pairs : Nat) : Tree w → Prop
  | made {t} : t.Made → t.pairs = pairs → LedBy allowed pairs t
  | call {t t' a} {call : Call w} : LedBy allowed pairs t → allowed call → Ends call.run t a t' → LedBy allowed pairs t'

/-- The tree that the calls lead to, one after the other. -/
def afterAll (t : Tree w) (l : List (Call w)) : Tree w := l.foldl (fun t call => t.after call.run) t

theorem LedBy.after {allowed : Call w → Prop} {pairs : Nat} {t : Tree w} {call : Call w} (h : t.LedBy allowed pairs)
    (hcall : allowed call) : (t.after call.run).LedBy allowed pairs := by
  unfold Tree.after
  split
  · exact h.call hcall ⟨_, _, ‹_›⟩
  · exact h

theorem LedBy.afterAll {allowed : Call w → Prop} {pairs : Nat} {t : Tree w} {l : List (Call w)}
    (h : t.LedBy allowed pairs) (hl : ∀ call ∈ l, allowed call) : (t.afterAll l).LedBy allowed pairs := by
  induction l generalizing t with
  | nil => exact h
  | cons call l ih =>
    exact ih (h.after (hl call List.mem_cons_self)) fun call' hc => hl call' (List.mem_cons_of_mem call hc)

/-- The node `h` has `fill` used slots. -/
def Fill (t : Tree w) (h : Handle) (fill : Nat) : Prop :=
  ∃ n, t.pool.block h = .ok n ∧ n.fill t.geometry = .ok fill

/-- The root has two children, unless it is a leaf. -/
def Branches (t : Tree w) : Prop :=
  1 < t.height → ∃ r n fill, t.root = some r ∧ t.pool.block r = .ok n ∧ n.fill t.geometry = .ok fill ∧ 2 ≤ fill ∧
    ∀ i < fill, ∃ k, n.child t.geometry i = .ok (some k)

end Tree

/-- A rooted tree in which the rule holds and the root branches. -/
structure Ruled {w : Width} (t : Tree w) (c : Rows) (r : Handle) (rule : Rule) : Prop where
  rooted : Rooted t c r
  obeys : c.Obeys rule c.count r (t.height - 1)
  root : 1 < t.height → 2 ≤ c.count r

/-- A tree with nodes of `pairs` slots in which the rule holds. -/
structure Tree.Follows {w : Width} (t : Tree w) (pairs : Nat) (rule : Rule) : Prop where
  pairs : t.pairs = pairs
  whole : ∃ row, Whole t row
  state : Bare t ∨ ∃ c r, Ruled t c r rule

section Trees
variable {w : Width} {t t' : Tree w} {c c' : Rows} {r r' h : Handle} {d d' k pairs : Nat} {v : Word} {rule : Rule}
  {p : NodePool} {row : Row}

/-! ### What changes leave -/

namespace Ruled

theorem of_eq (hr : Ruled t c r rule) (hp : t'.pool = t.pool) (hroot : t'.root = t.root) (hh : t'.height = t.height)
    (hg : t'.pairs = t.pairs) : Ruled t' c r rule :=
  ⟨hr.rooted.of_eq hp hroot hh hg, hh ▸ hr.obeys, hh ▸ hr.root⟩

theorem loosened (hr : Ruled t c r rule) (hl : Loosened t c r t.height (fun _ => False) p c') :
    Ruled ({ t with pool := p } : Tree w) c' r rule where
  rooted := (hl.rooted hr.rooted).1
  obeys := hl.loosens.obeys hr.obeys
  root hheight := by
    rw [hl.loosens.count]
    exact hr.root hheight

theorem inserted (hr : Ruled t c r rule) (hd : t.height = d + 1) (hg : rule.Grows t.pairs)
    (hi : Inserted t c r d k v (fun _ => False) t' c' r' d') : Ruled t' c' r' rule := by
  obtain ⟨hr', hheight⟩ := hi.rooted hd
  refine ⟨hr', ?_, fun htall => ?_⟩
  · rw [show t'.height - 1 = d' by omega]
    refine hi.filled.obeys hg ?_
    rw [show d = t.height - 1 by omega]
    exact hr.obeys
  · rcases hi.filled.root with hroot | ⟨rfl, rfl, hle⟩
    · exact hroot
    · exact Nat.le_trans (hr.root (by omega)) hle

theorem rewritten {new : Row} (hr : Ruled t c r rule) (hh : h ∈ c.level r (t.height - 1))
    (hlength : new.length = (c h).length) (hr' : Rooted ({ t with pool := p } : Tree w) (Function.update c h new) r) :
    Ruled ({ t with pool := p } : Tree w) (Function.update c h new) r rule := by
  have hcount : ∀ i, Rows.count (Function.update c h new) i = c.count i := fun i => by
    by_cases hih : i = h
    · rw [hih, count, count, Function.update_self, hlength]
    · rw [count, count, Function.update_of_ne hih]
  have hoff := hr.rooted.sound.update_off hh new
  refine ⟨hr', hr.obeys.congr (fun i hi q hq => ?_) fun _ _ q _ => hcount q, fun htall => ?_⟩
  · rw [kids, kids, hoff i hi q hq]
  · rw [hcount]
    exact hr.root htall

/-- What a removal asks for where it takes a pair out of a leaf. -/
theorem slack (hr : Ruled t c r rule) (hd : t.height = d + 1) (hh : h ∈ c.level r d) {A B : Row} {e : Pair}
    (hrow : c h = A ++ e :: B) :
    Slack rule t.height (fun _ => False) (Function.update c h (A ++ B)) r d h := by
  have hsound : Sound (2 ^ w.bits) c r d := by
    rw [show d = t.height - 1 by omega]
    exact hr.rooted.sound
  have hoff := hsound.update_off hh (A ++ B)
  have hself : Rows.count (Function.update c h (A ++ B)) h + 1 = c.count h := by
    rw [count, count, Function.update_self, hrow]
    simp
    omega
  have hbefore : Function.update (Rows.count (Function.update c h (A ++ B))) h
      (Rows.count (Function.update c h (A ++ B)) h + 1) = c.count := funext fun i => by
    by_cases hih : i = h
    · rw [hih, Function.update_self, hself]
    · rw [Function.update_of_ne hih, count, count, Function.update_of_ne hih]
  refine ⟨?_, fun hlow => absurd hlow (by omega), fun hlow => absurd hlow (by omega), fun hpos => ?_,
    fun hlow => absurd hlow (by omega)⟩
  · rw [hbefore]
    refine Obeys.congr (c := c) ?_ (fun i hi p hp => by rw [kids, kids, hoff i hi p hp]) fun _ _ _ _ => rfl
    rw [show d = t.height - 1 by omega]
    exact hr.obeys
  · rw [count, hoff 0 hpos r (List.mem_singleton_self r)]
    exact hr.root (by omega)

end Ruled

/-- What is left after a removal. -/
theorem Left.ruled {asked : Rule → Prop} {done : Remains → Prop} (hl : Left t c r d (fun _ => False) [] asked done t')
    (hd : t.height = d + 1) (hs : rule.Shrinks t.pairs) (hask : asked rule) :
    t'.pairs = t.pairs ∧ (Bare t' ∨ ∃ c r, Ruled t' c r rule) := by
  rcases hl with ⟨c', r', m', hl, -⟩ | ⟨c', hl, -⟩
  · obtain ⟨hr', hheight, hpos⟩ := hl.rooted hd
    have hkept := hl.kept hs hask
    exact ⟨hl.alike.pairs, Or.inr ⟨c', r', hr', hkept.obeys _ (by omega) (by omega), hkept.root⟩⟩
  · exact ⟨hl.alike.pairs, Or.inl hl.bare⟩

/-! ### Calls -/

namespace Tree.Follows

theorem made (hm : t.Made) (hpairs : t.pairs = pairs) (rule : Rule) : t.Follows pairs rule :=
  ⟨hpairs, ⟨[], hm.whole⟩, Or.inl hm.whole.bare⟩

/-- The pairs of the tree that an insertion leaves, whatever it answers, have the sizes of siblings that the rule asks
for. -/
theorem insert {key : Key w} {value : Value} {a : Except Error Unit} (hf : t.Follows pairs rule) (hg : rule.Grows pairs)
    (he : Ends (Tree.insert key value) t a t') : t'.pairs = pairs ∧ (Bare t' ∨ ∃ c r, Ruled t' c r rule) := by
  obtain ⟨rfl, ⟨row, hw⟩, hb | ⟨c, r, hr⟩⟩ := hf
  · by_cases hfits : 8 * t.geometry.slotWords ≤ addressable
    · rcases hb.addAt hw.pairs hfits key.isLt value.property with
        ⟨_, hrun, -⟩ | ⟨t₁, c, r, hrun, hr, halike, -, hheight, -⟩
      · obtain ⟨-, rfl⟩ := (Runs.insert hrun).of_ends he
        exact ⟨rfl, Or.inl hb⟩
      · obtain ⟨-, rfl⟩ := (Runs.insert hrun).of_ends he
        refine ⟨halike.pairs, Or.inr ⟨c, r, Ruled.of_eq (t := t₁) ⟨hr, ?_, ?_⟩ rfl rfl rfl rfl⟩⟩
        · rw [hheight]
          exact fun i hi => absurd hi (Nat.not_lt_zero i)
        · rw [hheight]
          exact fun h => absurd h (Nat.lt_irrefl 1)
    · rcases hb.addAt_large (k := key.val) (v := value.val) hfits (hw.fits.resolve_left hfits) with ⟨hrun, -⟩ | hfault
      · obtain ⟨-, rfl⟩ := (Runs.insert hrun).of_ends he
        exact ⟨rfl, Or.inl hb⟩
      · have hfault : Faults (Tree.insert key value) t .tooLarge := Faults.bind (Runs.get _) (Faults.bind_left _ hfault)
        exact absurd he hfault.not_ends
  · obtain ⟨d, hd⟩ := hr.rooted.exists_height
    rcases hr.rooted.addAt hd hw.pairs (hr.rooted.fits hw.fits) key.isLt value.property with
      ⟨-, hrun⟩ | ⟨-, ⟨_, p, c', hrun, hl, -⟩ | ⟨t₁, c', r', d', hrun, hi⟩⟩
    · obtain ⟨-, rfl⟩ := (Runs.insert hrun).of_ends he
      exact ⟨rfl, Or.inr ⟨c, r, hr⟩⟩
    · obtain ⟨-, rfl⟩ := (Runs.insert hrun).of_ends he
      exact ⟨rfl, Or.inr ⟨c', r, hr.loosened hl⟩⟩
    · obtain ⟨-, rfl⟩ := (Runs.insert hrun).of_ends he
      exact ⟨hi.alike.pairs, Or.inr ⟨c', r', (hr.inserted hd hg hi).of_eq rfl rfl rfl rfl⟩⟩

/-- A search for a key turns memo rings at most. -/
theorem found {key : Key w} {o : Option (Handle × Nat)} (hf : t.Follows pairs rule)
    (he : Ends (Tree.findSlot key.toWords) t o t') : t'.pairs = pairs ∧ (Bare t' ∨ ∃ c r, Ruled t' c r rule) := by
  obtain ⟨rfl, -, hb | ⟨c, r, hr⟩⟩ := hf
  · obtain ⟨-, rfl⟩ := (hb.findSlot _).of_ends he
    exact ⟨rfl, Or.inl hb⟩
  · obtain ⟨p, hr', -, ⟨_, _, _, _, -, -, -, hrun⟩ | ⟨-, hrun⟩⟩ := hr.rooted.findSlot key
    · obtain ⟨-, rfl⟩ := hrun.of_ends he
      exact ⟨rfl, Or.inr ⟨c, r, hr', hr.obeys, hr.root⟩⟩
    · obtain ⟨-, rfl⟩ := hrun.of_ends he
      exact ⟨rfl, Or.inr ⟨c, r, hr', hr.obeys, hr.root⟩⟩

theorem update {key : Key w} {value : Value} {a : Except Error Unit} (hf : t.Follows pairs rule)
    (he : Ends (Tree.update key value) t a t') : t'.pairs = pairs ∧ (Bare t' ∨ ∃ c r, Ruled t' c r rule) := by
  obtain ⟨o, t₁, hfind, hrest⟩ := he.bind
  obtain ⟨rfl, -, hb | ⟨c, r, hr⟩⟩ := id hf
  · obtain ⟨rfl, rfl⟩ := (hb.findSlot _).of_ends hfind
    obtain ⟨-, rfl⟩ := hrest.pure
    exact ⟨rfl, Or.inl hb⟩
  · obtain ⟨p, hr', -, ⟨h, A, e, B, hh, hrow, -, hrun⟩ | ⟨-, hrun⟩⟩ := hr.rooted.findSlot key
    · obtain ⟨rfl, rfl⟩ := hrun.of_ends hfind
      obtain ⟨p', hwrite, hr''⟩ := hr'.writeValue hh hrow value.property
      have hdone : Runs (do
          Tree.onNodes (Pool.update h fun block => block.writeValue t.geometry A.length value.val)
          return .ok () : TreeM w (Except Error Unit)) { t with pool := p } (.ok ()) { t with pool := p' } :=
        Runs.bind (Runs.onNodes hwrite) (Runs.pure _ _)
      obtain ⟨-, rfl⟩ := hdone.of_ends hrest.bind_get
      refine ⟨rfl, Or.inr ⟨_, r, hr.rewritten hh ?_ hr''⟩⟩
      rw [hrow]
      simp
    · obtain ⟨rfl, rfl⟩ := hrun.of_ends hfind
      obtain ⟨-, rfl⟩ := hrest.pure
      exact ⟨rfl, Or.inr ⟨c, r, hr', hr.obeys, hr.root⟩⟩

theorem remove {key : Key w} {a : Option Value} (hf : t.Follows pairs rule) (hs : rule.Shrinks pairs)
    (he : Ends (Tree.remove key) t a t') : t'.pairs = pairs ∧ (Bare t' ∨ ∃ c r, Ruled t' c r rule) := by
  obtain ⟨rfl, ⟨row, hw⟩, hb | ⟨c, r, hr⟩⟩ := hf
  · have hrun : Runs (Tree.remove key) t none t :=
      Runs.bind (Runs.get _) (Runs.of_pos (by rw [hb.root]; rfl) (Runs.pure _ _))
    obtain ⟨-, rfl⟩ := hrun.of_ends he
    exact ⟨rfl, Or.inl hb⟩
  obtain ⟨d, hd⟩ := hr.rooted.exists_height
  have hd' : t.height - 1 = d := by omega
  by_cases hold : ∃ e ∈ c.pairs r d, e.1 = key.val
  · obtain ⟨⟨y, v⟩, hmem, hek⟩ := hold
    obtain rfl : y = key.val := hek
    have hlen : t.len ≠ 0 := by
      rw [hw.len_eq hr.rooted, hd']
      exact (List.length_pos_of_mem hmem).ne'
    obtain ⟨h, A, B, t₁, hh, ht, hrun, hleft⟩ := hr.rooted.remove_some hd hw.pairs hlen hmem
    obtain ⟨hpairs, hstate⟩ := hleft.ruled hd hs (hr.slack hd hh ht.row)
    obtain ⟨-, rfl⟩ := hrun.of_ends he
    refine ⟨hpairs, hstate.imp (fun hb => hb.of_eq rfl rfl rfl rfl) ?_⟩
    rintro ⟨c', r', hr'⟩
    exact ⟨c', r', hr'.of_eq rfl rfl rfl rfl⟩
  · have hnew : ∀ e ∈ c.pairs r (t.height - 1), e.1 ≠ key.val := fun e he hek => hold ⟨e, hd' ▸ he, hek⟩
    obtain ⟨_, p, c', hrun, -, hl⟩ := hr.rooted.remove_none hnew
    obtain ⟨-, rfl⟩ := hrun.of_ends he
    exact ⟨rfl, Or.inr ⟨c', r, hr.loosened hl⟩⟩

/-- A call keeps a rule that insertions keep, if it is not a removal or removals keep the rule. -/
theorem call {call : Tree.Call w} {a : Tree.Answer w} (hf : t.Follows pairs rule) (hg : rule.Grows pairs)
    (hs : call.removes = true → rule.Shrinks pairs) (he : Ends call.run t a t') :
    t'.pairs = pairs ∧ (Bare t' ∨ ∃ c r, Ruled t' c r rule) := by
  obtain ⟨row, hw⟩ := hf.whole
  have hsame : t' = t → t'.pairs = pairs ∧ (Bare t' ∨ ∃ c r, Ruled t' c r rule) := by
    rintro rfl
    exact ⟨hf.pairs, hf.state⟩
  cases call with
  | remove key =>
    obtain ⟨_, hremove, -⟩ := he.of_return
    exact hf.remove (hs rfl) hremove
  | insert key value =>
    obtain ⟨_, hinsert, -⟩ := he.of_return
    exact hf.insert hg hinsert
  | update key value =>
    obtain ⟨_, hupdate, -⟩ := he.of_return
    exact hf.update hupdate
  | lookup key =>
    obtain ⟨_, hlookup, -⟩ := he.of_return
    obtain ⟨_, hfind⟩ := hlookup.lookup_entry
    exact hf.found hfind
  | prev | last | visit | pulls => exact hsame (he.glance hw rfl fun _ h => by cases h)

end Tree.Follows

theorem Whole.called {call : Tree.Call w} {a : Tree.Answer w} (hw : Whole t row) (he : Ends call.run t a t') :
    ∃ row', Whole t' row' := by
  have hsame : t' = t → ∃ row', Whole t' row' := by
    rintro rfl
    exact ⟨row, hw⟩
  cases call with
  | insert key value =>
    obtain ⟨_, ⟨_, _, h⟩, -⟩ := he.of_return
    exact hw.step (.insert h)
  | update key value =>
    obtain ⟨_, ⟨_, _, h⟩, -⟩ := he.of_return
    exact hw.step (.update h)
  | remove key =>
    obtain ⟨_, ⟨_, _, h⟩, -⟩ := he.of_return
    exact hw.step (.remove h)
  | lookup key =>
    obtain ⟨_, ⟨_, _, h⟩, -⟩ := he.of_return
    exact hw.step (.lookup h)
  | prev | last | visit | pulls => exact hsame (he.glance hw rfl fun _ h => by cases h)

/-- A rule that the allowed calls keep holds in every tree that they lead to. -/
theorem Tree.LedBy.follows {allowed : Tree.Call w → Prop} (h : t.LedBy allowed pairs) (hg : rule.Grows pairs)
    (hs : ∀ call, allowed call → call.removes = true → rule.Shrinks pairs) : t.Follows pairs rule := by
  induction h with
  | made hm hpairs => exact .made hm hpairs rule
  | call _ hallowed he ih =>
    obtain ⟨row, hw⟩ := ih.whole
    obtain ⟨hpairs, hstate⟩ := ih.call hg (hs _ hallowed) he
    exact ⟨hpairs, hw.called he, hstate⟩

/-! ### What is read from such trees -/

namespace Rooted

theorem fill (hr : Rooted t c r) (hd : d ≤ t.height - 1) (hh : h ∈ c.level r d) : t.Fill h (c.count h) := by
  obtain ⟨n, hn, hpacks⟩ := hr.stand.stock.node (hr.live_level hd hh)
  exact ⟨n, hn, hpacks.fill_eq⟩

theorem inner (hr : Rooted t c r) (hd : d < t.height - 1) (hh : h ∈ c.level r d) {e : Pair} (he : e ∈ c h) :
    ∃ k, e.child = some k := (hr.sound.inner d hd h hh).2 e he

end Rooted

theorem Ruled.root_branches (hr : Ruled t c r rule) : t.Branches := fun htall => by
  have hroot : r ∈ c.level r 0 := List.mem_singleton_self r
  obtain ⟨n, hn, hpacks⟩ := hr.rooted.stand.stock.node (hr.rooted.live_level (Nat.zero_le _) hroot)
  refine ⟨r, n, _, hr.rooted.stand.root, hn, hpacks.fill_eq, hr.root htall, fun i hi => ?_⟩
  have he : (c r)[i]? = some (c r)[i] := List.getElem?_eq_getElem hi
  obtain ⟨k, hk⟩ := hr.rooted.inner (by omega) hroot (List.getElem_mem hi)
  exact ⟨k, (hpacks.child_eq he).trans (congrArg Except.ok hk)⟩

theorem Tree.Follows.root_branches (hf : t.Follows pairs rule) : t.Branches := by
  rcases hf.state with hb | ⟨c, r, hr⟩
  · intro htall
    rw [hb.height] at htall
    exact absurd htall (Nat.not_lt_zero 1)
  · exact hr.root_branches

end Trees
end MemoTree
