import MemoTree.Proofs.Growing
import MemoTree.Proofs.Kindred
import MemoTree.Proofs.Ownership
import MemoTree.Proofs.Calls
import MemoTree.Proofs.Shape
import MemoTree.Proofs.Shrinking

/-! # Mirrored trees

Two trees without a limit on their blocks are mirrored if they hold the same pairs, are abreast, and one of them has
no memos and makes none (`Mirrors`). Every operation on both answers the same and leaves them mirrored, and so does a
lookup in the one that has memos. -/

namespace MemoTree
open Pool NodePool Rows

/-! ### What lookups and updates leave -/

section Lookups
variable {w : Width} {t t' : Tree w} {row : Row} {k : Key w}

/-- Without memos a descent leaves the nodes as they are. -/
theorem Ends.leafFor_uncached {g : Geometry} {key : Words} {steps : Nat} :
    ∀ {h : Handle} {o : Option Handle} {p p' : NodePool},
    Ends (Tree.leafFor g false key steps h) p o p' → p' = p := by
  induction steps with
  | zero => exact fun he => he.pure.2.symm
  | succ steps ih =>
    intro h o p p' he
    obtain ⟨child, p₁, hchild, he₁⟩ := he.bind
    obtain ⟨n, -, he₂⟩ := hchild.bind_read
    obtain ⟨found, -, he₃⟩ := he₂.bind_lift
    cases found with
    | none =>
      obtain ⟨rfl, rfl⟩ := he₃.pure
      exact he₁.pure.2.symm
    | some k =>
      obtain ⟨rfl, rfl⟩ := he₃.pure
      exact ih he₁

theorem Ends.findSlot_uncached {key : Words} {o : Option (Handle × Nat)} (he : Ends (Tree.findSlot key) t o t')
    (hm : t.memoize = false) : t' = t := by
  have he₁ := he.bind_get
  split at he₁
  · rename_i root _
    have he₂ := he₁.bind_get.bind_get.bind_get
    rw [hm] at he₂
    obtain ⟨p, hnodes, rfl⟩ := he₂.onNodes
    obtain ⟨leaf, p₁, hleaf, he₃⟩ := hnodes.bind
    obtain rfl := hleaf.leafFor_uncached
    cases leaf with
    | none =>
      obtain ⟨-, rfl⟩ := he₃.pure
      rfl
    | some leaf =>
      obtain ⟨n, -, he₄⟩ := he₃.bind_read
      obtain ⟨slot, -, he₅⟩ := he₄.bind_lift
      cases slot with
      | none =>
        obtain ⟨-, rfl⟩ := he₅.pure
        rfl
      | some slot =>
        obtain ⟨-, rfl⟩ := he₅.pure
        rfl
  · exact he₁.pure.2.symm

/-- A lookup leaves what its search leaves. -/
theorem Ends.lookup_entry {a : Option Value} (he : Ends (Tree.lookup k) t a t') :
    ∃ o, Ends (Tree.findSlot k.toWords) t o t' := by
  obtain ⟨o, t₁, hfind, he₁⟩ := he.bind
  refine ⟨o, ?_⟩
  suffices heq : t' = t₁ by rwa [heq]
  extract_lets jump at he₁
  -- what comes after the word is known only tells the hooks
  have hjump : ∀ (word : Word) {t₂ : Tree w}, Ends (jump word) t₂ a t' → t' = t₂ := fun word {t₂} he => by
    have he₁ := he.bind_get
    obtain ⟨_, _, htell, he₂⟩ := he₁.bind
    obtain rfl := htell.tellTimer
    cases hvalue : Value.ofWord? word with
    | none =>
      rw [hvalue] at he₂
      exact he₂.pure.2.symm
    | some value =>
      rw [hvalue] at he₂
      have he₃ := he₂.bind_get
      obtain ⟨_, _, htell, he₄⟩ := he₃.bind
      obtain rfl := htell.tellMonitor
      exact he₄.pure.2.symm
  cases o with
  | none =>
    obtain ⟨_, _, hzero, he₂⟩ := he₁.bind
    obtain ⟨rfl, rfl⟩ := hzero.pure
    exact hjump 0 he₂
  | some x =>
    have he₂ := he₁.bind_get
    obtain ⟨n, _, hnodes, he₃⟩ := he₂.bind
    obtain ⟨p, hread, rfl⟩ := hnodes.onNodes
    obtain ⟨-, rfl⟩ := hread.read
    obtain ⟨word, -, he₄⟩ := he₃.bind_lift
    exact hjump word he₄

/-- An update overwrites the words of at most one node after its search. -/
theorem Ends.update_entry {v : Value} {a : Except Error Unit} (he : Ends (Tree.update k v) t a t') :
    ∃ o t₁, Ends (Tree.findSlot k.toWords) t o t₁ ∧ (t' = t₁ ∨ ∃ h n words, t₁.pool.block h = .ok n ∧
      t' = { t₁ with pool := t₁.pool.put h { n with words := words } }) := by
  obtain ⟨o, t₁, hfind, he₁⟩ := he.bind
  refine ⟨o, t₁, hfind, ?_⟩
  cases o with
  | none => exact Or.inl he₁.pure.2.symm
  | some x =>
    have he₂ := he₁.bind_get
    obtain ⟨_, t₂, hnodes, he₃⟩ := he₂.bind
    obtain ⟨p, hput, rfl⟩ := hnodes.onNodes
    obtain ⟨-, rfl⟩ := he₃.pure
    obtain ⟨n, n', hn, hn', rfl⟩ := hput.update
    unfold Node.writeValue at hn'
    split at hn'
    · cases hn'
      exact Or.inr ⟨_, n, _, hn, rfl⟩
    · cases hn'

/-- A search keeps the words and marks of all nodes. -/
theorem Whole.found {o : Option (Handle × Nat)} (hw : Whole t row) (he : Ends (Tree.findSlot k.toWords) t o t') :
    ∃ p, t' = { t with pool := p } ∧ Recalls t.pool p ∧ Ledger p [] := by
  rcases hw.state with ⟨hb, -⟩ | ⟨c, r, hr, -⟩
  · exact ⟨t.pool, ((hb.findSlot _).of_ends he).2, Recalls.refl _, hw.ledger⟩
  · obtain ⟨p, hr', hrec, ⟨_, _, _, _, -, -, -, hrun⟩ | ⟨-, hrun⟩⟩ := hr.findSlot k
    · exact ⟨p, (hrun.of_ends he).2, hrec, hr'.stand.stock.ledger⟩
    · exact ⟨p, (hrun.of_ends he).2, hrec, hr'.stand.stock.ledger⟩

/-- What is computed from a tree leaves it as it is. -/
theorem ends_asked {α β : Type} {f : Tree w → Except Fault α} {g : α → β} {b : β}
    (he : Ends (do return g (← f (← get)) : TreeM w β) t b t') : t' = t := by
  have he₁ := he.bind_get
  obtain ⟨_, -, he₂⟩ := he₁.bind_lift
  exact he₂.pure.2.symm

/-- A read that does not look a key up leaves the tree as it is. -/
theorem Ends.glance {call : Tree.Call w} {a : Tree.Answer w} (he : Ends call.run t a t') (hw : Whole t row)
    (hreads : call.reads = true) (hcall : ∀ k, call ≠ .lookup k) : t' = t := by
  cases call with
  | insert | update | remove => cases hreads
  | lookup k => exact absurd rfl (hcall k)
  | prev k => exact ends_asked (f := fun t => t.prev k) (g := Tree.Answer.entry) he
  | last => exact ends_asked (f := Tree.last) (g := Tree.Answer.entry) he
  | visit order =>
    obtain ⟨_, hvisit, -⟩ := he.of_return
    obtain ⟨row', hperm, hd⟩ := hw.exists_descending
    exact (((hw.perm hperm).visit_eq hd order).of_ends hvisit).2
  | pulls n => exact ends_asked (f := fun t => t.pulls n .start) (g := Tree.Answer.entries) he

/-- A read keeps the words and marks of all nodes, and without memos it keeps the tree. -/
theorem Whole.read {call : Tree.Call w} {a : Tree.Answer w} (hw : Whole t row) (hreads : call.reads = true)
    (he : Ends call.run t a t') :
    ∃ p, t' = { t with pool := p } ∧ Recalls t.pool p ∧ Ledger p [] ∧ (t.memoize = false → p = t.pool) := by
  by_cases hcall : ∃ k, call = .lookup k
  · obtain ⟨k, rfl⟩ := hcall
    obtain ⟨_, hlookup, -⟩ := he.of_return
    obtain ⟨o, hfind⟩ := hlookup.lookup_entry
    obtain ⟨p, rfl, hrec, hl⟩ := hw.found hfind
    exact ⟨p, rfl, hrec, hl, fun hm => congrArg Tree.pool (hfind.findSlot_uncached hm)⟩
  · exact ⟨t.pool, he.glance hw hreads fun k hk => hcall ⟨k, hk⟩, Recalls.refl _, hw.ledger, fun _ => rfl⟩

end Lookups

/-- The trees hold the pairs `row` and are abreast. Nothing limits their blocks, and `u` has no memos and makes none. -/
structure Mirrors {w : Width} (t u : Tree w) (row : Row) : Prop where
  whole : Whole t row ∧ Whole u row
  limit : t.pool.limit = none ∧ u.pool.limit = none
  uncached : u.memoize = false
  quiet : ∀ h, u.pool.Quiet h
  abreast : ∃ g φ m, Abreast g φ True m t u

section Trees
variable {w : Width} {t t' u u' : Tree w} {row row' : Row} {k : Key w} {v : Value} {call : Tree.Call w}
    {a b : Tree.Answer w}
  {g : Geometry} {φ : Mates} {alive : Prop} {m : Nat}

/-- Trees without nodes are abreast if they have the same geometry. -/
theorem Bare.abreast (hb : Bare t) (hb' : Bare u) (hg : u.geometry = t.geometry) :
    Abreast t.geometry (fun _ _ _ => False) True 0 t u :=
  ⟨⟨rfl, hg⟩, ⟨hb.height, hb'.height⟩, by rw [hb.root, hb'.root]; exact .none,
    fun hf => hf.elim, fun hf => hf.elim, fun hf => hf.elim, fun hf => hf.elim, fun _ _ _ _ hf => hf.elim,
    hb.stock.tidy, hg ▸ hb'.stock.tidy⟩

/-- Of two trees abreast, both have a root or none has. -/
theorem Abreast.bare_or_rooted (ha : Abreast g φ alive m t u) (hw : Whole t row) (hw' : Whole u row') :
    (Bare t ∧ Bare u) ∨ ∃ c r c' r', (Rooted t c r ∧ row.Perm (c.pairs r (t.height - 1))) ∧
      Rooted u c' r' ∧ row'.Perm (c'.pairs r' (u.height - 1)) := by
  have hheight := ha.height
  rcases hw.state with ⟨hb, -⟩ | ⟨c, r, hr⟩ <;> rcases hw'.state with ⟨hb', -⟩ | ⟨c', r', hr'⟩
  · exact Or.inl ⟨hb, hb'⟩
  · have := hr'.1.tall
    have := hb.height
    omega
  · have := hr.1.tall
    have := hb'.height
    omega
  · exact Or.inr ⟨c, r, c', r', hr, hr'⟩

/-- Between operations the mates can be chosen among the nodes in use. -/
theorem Abreast.settle (ha : Abreast g φ False m t u) (hw : Whole t row) (hw' : Whole u row') :
    ∃ g φ m, Abreast g φ True m t u := by
  rcases ha.bare_or_rooted hw hw' with ⟨hb, hb'⟩ | ⟨c, r, c', r', ⟨hr, -⟩, hr', -⟩
  · exact ⟨_, _, _, hb.abreast hb' (ha.geometry.2.trans ha.geometry.1.symm)⟩
  · obtain ⟨φ', ha'⟩ := ha.revive hr hr'
    exact ⟨g, φ', m, ha'⟩

theorem Abreast.updated (ha : Abreast g φ alive m t u) (hw : Whole t row) (hw' : Whole u row) {a b : Except Error Unit}
    (he : Ends (Tree.update k v) t a t') (he' : Ends (Tree.update k v) u b u') : Abreast g φ alive m t' u' := by
  rcases ha.bare_or_rooted hw hw' with ⟨hb, hb'⟩ | ⟨c, r, c', r', ⟨hr, hperm⟩, hr', hperm'⟩
  · have hnone : ∀ {t : Tree w}, Bare t → Runs (Tree.update k v) t (.error .notFound) t := fun hb =>
      Runs.bind (hb.findSlot _) (Runs.pure _ _)
    obtain ⟨-, rfl⟩ := (hnone hb).of_ends he
    obtain ⟨-, rfl⟩ := (hnone hb').of_ends he'
    exact ha
  · refine ha.update hr hr' (fun k => ?_) k v _ _ _ _ he he'
    exact exists_congr fun e => and_congr_left fun _ => hperm.symm.mem_iff.trans hperm'.mem_iff

/-- The pair of a key and what is left without it are determined. -/
theorem Whole.taken_unique (hw : Whole t row) {row₁ row₂ : Row} {e e' : Pair} (hp : row.Perm (e :: row₁))
    (hp' : row.Perm (e' :: row₂)) (hk : e'.1 = e.1) : e' = e ∧ row₂.Perm row₁ := by
  obtain rfl := hw.unique (hp'.mem_iff.mpr List.mem_cons_self) (hp.mem_iff.mpr List.mem_cons_self) hk
  exact ⟨rfl, (hp'.symm.trans hp).cons_inv⟩

/-- Where nothing limits the blocks and handles are left, a new key is added. -/
theorem Whole.added (hw : Whole t row) {a : Except Error Unit} (hnew : ∀ e ∈ row, e.1 ≠ k.val)
    (hlimit : t.pool.limit = none) (he : Ends (Tree.insert k v) t a t') (hsize : t'.pool.blocks.size < 2 ^ 32 - 1) :
    a = .ok () ∧ Whole t' ((k.val, v.val) :: row) ∧ Calm t t' := by
  rcases hw.insert_new v hnew with ⟨_, hrun, hw₁, hc⟩ | ⟨inUse, _, hrun, -, hst⟩ | ⟨-, hfault⟩
  · obtain ⟨rfl, rfl⟩ := hrun.of_ends he
    exact ⟨rfl, hw₁, hc⟩
  · obtain ⟨-, rfl⟩ := hrun.of_ends he
    rcases hst.exhausted with ⟨_, hsome, -⟩ | hmax
    · rw [hlimit] at hsome
      cases hsome
    · have := hst.made
      omega
  · exact absurd he hfault.not_ends

/-- A call ends, unless it inserts where nodes cannot be made. -/
theorem Whole.runs (hw : Whole t row) (call : Tree.Call w)
    (h : 8 * t.geometry.slotWords ≤ addressable ∨ ∀ k v, call ≠ .insert k v) : ∃ a t', Runs call.run t a t' := by
  have hreads : call.reads = true → ∃ a t', Runs call.run t a t' := fun hreads => by
    obtain ⟨answer, hanswer⟩ := hw.exists_answer hreads
    obtain ⟨t', hrun, -⟩ := hanswer hw
    exact ⟨answer, t', hrun⟩
  cases call with
  | insert k v =>
    rcases hw.insert k v with ⟨-, t', hrun, -⟩ | ⟨-, ⟨t', hrun, -⟩ | ⟨_, t', hrun, -⟩ | ⟨hlarge, -⟩⟩
    · exact ⟨_, t', Runs.bind hrun (Runs.pure _ _)⟩
    · exact ⟨_, t', Runs.bind hrun (Runs.pure _ _)⟩
    · exact ⟨_, t', Runs.bind hrun (Runs.pure _ _)⟩
    · exact absurd rfl (h.resolve_left hlarge k v)
  | update k v =>
    rcases hw.update k v with ⟨-, t', hrun, -⟩ | ⟨_, _, -, t', hrun, -⟩
    · exact ⟨_, t', Runs.bind hrun (Runs.pure _ _)⟩
    · exact ⟨_, t', Runs.bind hrun (Runs.pure _ _)⟩
  | remove k =>
    rcases hw.remove k with ⟨-, t', hrun, -⟩ | ⟨_, -, t', _, hrun, -⟩
    · exact ⟨_, t', Runs.bind hrun (Runs.pure _ _)⟩
    · exact ⟨_, t', Runs.bind hrun (Runs.pure _ _)⟩
  | lookup | prev | last | visit | pulls => exact hreads rfl

namespace Mirrors

/-- What an operation must keep, and what it may not bring, for the trees to stay mirrored. -/
theorem next (hm : Mirrors t u row) (hw : Whole t' row') (hw' : Whole u' row') (hlimit : t'.pool.limit = t.pool.limit)
    (hc : Calm u u') (ha : ∃ g φ m, Abreast g φ True m t' u') : Mirrors t' u' row' where
  whole := ⟨hw, hw'⟩
  limit := ⟨hlimit.trans hm.limit.1, hc.fades.limit.trans hm.limit.2⟩
  uncached := hc.memoize.trans hm.uncached
  quiet h := hc.fades.quiet (hm.quiet h)
  abreast := ha

/-! ### The operations -/

/-- A read of the tree that has memos. -/
theorem glance (hm : Mirrors t u row) (hreads : call.reads = true) (he : Ends call.run t a t') : Mirrors t' u row := by
  obtain ⟨answer, hanswer⟩ := hm.whole.1.exists_answer hreads
  obtain ⟨_, hrun, hw⟩ := hanswer hm.whole.1
  obtain rfl := (hrun.of_ends he).2
  obtain ⟨p, rfl, hrec, hl, -⟩ := hm.whole.1.read hreads he
  obtain ⟨g, φ, m, ha⟩ := hm.abreast
  exact hm.next hw hm.whole.2 hrec.limit ⟨rfl, Fades.refl _⟩ ⟨g, φ, m, ha.geometry, ha.height, ha.root,
    ha.twins.spares (Spares.of_recalls hrec) (Spares.refl _) hl hm.whole.2.ledger (fun _ h => (hrec.live h).mpr)
    fun _ _ => id⟩

theorem read (hm : Mirrors t u row) (hreads : call.reads = true) (he : Ends call.run t a t')
    (he' : Ends call.run u b u') : b = a ∧ Mirrors t' u' row := by
  obtain ⟨answer, hanswer⟩ := hm.whole.1.exists_answer hreads
  obtain ⟨_, hrun, -⟩ := hanswer hm.whole.1
  obtain ⟨_, hrun', -⟩ := hanswer hm.whole.2
  obtain ⟨p, rfl, -, -, hp⟩ := hm.whole.2.read hreads he'
  rw [hp hm.uncached]
  exact ⟨(hrun'.of_ends he').1.trans (hrun.of_ends he).1.symm, hm.glance hreads he⟩

theorem insert (hm : Mirrors t u row) {a b : Except Error Unit} (he : Ends (Tree.insert k v) t a t')
    (he' : Ends (Tree.insert k v) u b u') (hsize : t'.pool.blocks.size < 2 ^ 32 - 1)
    (hsize' : u'.pool.blocks.size < 2 ^ 32 - 1) : b = a ∧ ∃ row', Mirrors t' u' row' := by
  obtain ⟨hw, hw'⟩ := hm.whole
  obtain ⟨g, φ, m, ha⟩ := hm.abreast
  by_cases hold : ∃ e ∈ row, e.1 = k.val
  · obtain ⟨e, hmem, hek⟩ := hold
    obtain ⟨rfl, rfl⟩ := (hw.insert_old v hmem hek).of_ends he
    obtain ⟨rfl, rfl⟩ := (hw'.insert_old v hmem hek).of_ends he'
    exact ⟨rfl, row, hm⟩
  have hnew : ∀ e ∈ row, e.1 ≠ k.val := fun e hmem hek => hold ⟨e, hmem, hek⟩
  have hfits : 8 * t.geometry.slotWords ≤ addressable := by
    by_contra hlarge
    exact (hw.insert_large hlarge (by simp [hm.limit.1]) k v).not_ends he
  obtain ⟨rfl, hw₁, hc⟩ := hw.added hnew hm.limit.1 he hsize
  obtain ⟨rfl, hw₁', hc'⟩ := hw'.added hnew hm.limit.2 he' hsize'
  obtain ⟨φ', m', -, -, ha'⟩ := ha.insert (by rwa [← ha.geometry.1]) k v _ _ _ _ he he' rfl rfl
  exact ⟨rfl, _, hm.next hw₁ hw₁' hc.fades.limit hc' ⟨g, φ', m', ha'⟩⟩

theorem remove (hm : Mirrors t u row) {a b : Option Value} (he : Ends (Tree.remove k) t a t')
    (he' : Ends (Tree.remove k) u b u') : b = a ∧ ∃ row', Mirrors t' u' row' := by
  obtain ⟨hw, hw'⟩ := hm.whole
  obtain ⟨g, φ, m, ha⟩ := hm.abreast
  obtain ⟨_, ha'⟩ := ha.weaken.remove k _ _ _ _ he he'
  rcases hw.removes k with ⟨hnew, _, hrun, hw₁, hc⟩ | ⟨v, hmem, _, row', hrun, hw₁, hperm, hc⟩ <;>
    rcases hw'.removes k with ⟨hnew', _, hrun', hw₁', hc'⟩ | ⟨v', hmem', _, row'', hrun', hw₁', hperm', hc'⟩ <;>
      obtain ⟨rfl, rfl⟩ := hrun.of_ends he <;> obtain ⟨rfl, rfl⟩ := hrun'.of_ends he'
  · exact ⟨rfl, row, hm.next hw₁ hw₁' hc.fades.limit hc' (ha'.settle hw₁ hw₁')⟩
  · exact absurd rfl (hnew _ hmem')
  · exact absurd rfl (hnew' _ hmem)
  · obtain ⟨hv, hrow⟩ := hw.taken_unique hperm hperm' rfl
    obtain rfl : v' = v := Subtype.ext (Prod.mk.inj hv).2
    exact ⟨rfl, row', hm.next hw₁ (hw₁'.perm hrow) hc.fades.limit hc' (ha'.settle hw₁ hw₁')⟩

theorem update (hm : Mirrors t u row) {a b : Except Error Unit} (he : Ends (Tree.update k v) t a t')
    (he' : Ends (Tree.update k v) u b u') : b = a ∧ ∃ row', Mirrors t' u' row' := by
  obtain ⟨hw, hw'⟩ := hm.whole
  obtain ⟨g, φ, m, ha⟩ := hm.abreast
  have hlimit : t'.pool.limit = t.pool.limit := by
    obtain ⟨o, t₁, hfind, hput⟩ := he.update_entry
    obtain ⟨p, rfl, hrec, -⟩ := hw.found hfind
    rcases hput with rfl | ⟨h, n, words, -, rfl⟩ <;> exact hrec.limit
  have hc : Calm u u' := by
    obtain ⟨o, u₁, hfind, hput⟩ := he'.update_entry
    obtain rfl := hfind.findSlot_uncached hm.uncached
    rcases hput with rfl | ⟨h, n, words, hn, rfl⟩
    · exact ⟨rfl, Fades.refl _⟩
    · exact ⟨rfl, Fades.of_same hn rfl rfl⟩
  have ha' : ∃ g φ m, Abreast g φ True m t' u' := ⟨g, φ, m, ha.updated hw hw' he he'⟩
  rcases hw.update k v with ⟨hnew, _, hrun, hw₁⟩ | ⟨old, row', hperm, _, hrun, hw₁⟩ <;>
    rcases hw'.update k v with ⟨hnew', _, hrun', hw₁'⟩ | ⟨old', row'', hperm', _, hrun', hw₁'⟩ <;>
      obtain ⟨rfl, rfl⟩ := hrun.of_ends he <;> obtain ⟨rfl, rfl⟩ := hrun'.of_ends he'
  · exact ⟨rfl, row, hm.next hw₁ hw₁' hlimit hc ha'⟩
  · exact absurd rfl (hnew _ (hperm'.mem_iff.mpr List.mem_cons_self))
  · exact absurd rfl (hnew' _ (hperm.mem_iff.mpr List.mem_cons_self))
  · obtain ⟨-, hrow⟩ := hw.taken_unique hperm hperm' rfl
    exact ⟨rfl, _, hm.next hw₁ (hw₁'.perm (hrow.cons _)) hlimit hc ha'⟩

/-- A call on both trees, neither of which runs out of handles. -/
theorem step (hm : Mirrors t u row) (he : Ends call.run t a t') (he' : Ends call.run u b u')
    (hsize : t'.pool.blocks.size < 2 ^ 32 - 1) (hsize' : u'.pool.blocks.size < 2 ^ 32 - 1) :
    b = a ∧ ∃ row', Mirrors t' u' row' := by
  cases call with
  | insert k v =>
    obtain ⟨x, hx, rfl⟩ := he.of_return
    obtain ⟨y, hy, rfl⟩ := he'.of_return
    exact (hm.insert hx hy hsize hsize').imp_left (congrArg Tree.Answer.result)
  | update k v =>
    obtain ⟨x, hx, rfl⟩ := he.of_return
    obtain ⟨y, hy, rfl⟩ := he'.of_return
    exact (hm.update hx hy).imp_left (congrArg Tree.Answer.result)
  | remove k =>
    obtain ⟨x, hx, rfl⟩ := he.of_return
    obtain ⟨y, hy, rfl⟩ := he'.of_return
    exact (hm.remove hx hy).imp_left (congrArg Tree.Answer.value)
  | lookup | prev | last | visit | pulls => exact (hm.read rfl he he').imp_right fun hm => ⟨row, hm⟩

/-- A call ends on both trees, or nodes cannot be made and it faults on both. -/
theorem runs (hm : Mirrors t u row) (call : Tree.Call w) : (∃ a t' b u', Runs call.run t a t' ∧ Runs call.run u b u') ∨
    addressable < 8 * t.geometry.slotWords ∧ Faults call.run t .tooLarge ∧ Faults call.run u .tooLarge := by
  obtain ⟨hw, hw'⟩ := hm.whole
  obtain ⟨g, φ, m, ha⟩ := hm.abreast
  by_cases hfits : 8 * g.slotWords ≤ addressable
  · obtain ⟨a, t', hrun⟩ := hw.runs call (Or.inl (by rwa [ha.geometry.1]))
    obtain ⟨b, u', hrun'⟩ := hw'.runs call (Or.inl (by rwa [ha.geometry.2]))
    exact Or.inl ⟨a, t', b, u', hrun, hrun'⟩
  · by_cases hins : ∃ k v, call = .insert k v
    · obtain ⟨k, v, rfl⟩ := hins
      exact Or.inr ⟨by rw [ha.geometry.1]; omega,
        Faults.bind_left _ (hw.insert_large (by rwa [ha.geometry.1]) (by simp [hm.limit.1]) k v),
        Faults.bind_left _ (hw'.insert_large (by rwa [ha.geometry.2]) (by simp [hm.limit.2]) k v)⟩
    · obtain ⟨a, t', hrun⟩ := hw.runs call (Or.inr fun k v h => hins ⟨k, v, h⟩)
      obtain ⟨b, u', hrun'⟩ := hw'.runs call (Or.inr fun k v h => hins ⟨k, v, h⟩)
      exact Or.inl ⟨a, t', b, u', hrun, hrun'⟩

/-! ### What mirrored trees have in common -/

/-- Without memos no node is deferred. -/
theorem outstanding_eq (hm : Mirrors t u row) : ∃ nodes : Nat, u.nodeCount = .ok nodes ∧
    u.pool.outstanding = .ok nodes := by
  obtain ⟨nodes, deferred, hnodes, hdeferred, hout⟩ := hm.whole.2.out_eq
  have hnone : {h | u.Deferred h} = ∅ := Set.eq_empty_of_forall_notMem fun h hh => by
    obtain ⟨-, p, -, n, hn, x, hx, -⟩ := hm.whole.2.deferred_iff.mp hh
    rw [hm.quiet p n hn] at hx
    cases hx
  rw [hnone, Set.encard_empty] at hdeferred
  obtain rfl : deferred = 0 := by exact_mod_cast hdeferred.symm
  exact ⟨nodes, hnodes, hout⟩

theorem shape_eq (hm : Mirrors t u row) : ∃ shape, t.shape = .ok shape ∧ u.shape = .ok shape := by
  obtain ⟨g, φ, m, ha⟩ := hm.abreast
  obtain ⟨s, hs⟩ := hm.whole.1.shape
  obtain ⟨s', hs'⟩ := hm.whole.2.shape
  exact ⟨s, hs, hs'.trans (congrArg Except.ok (ha.shape s s' hs hs'))⟩

/-- The blocks of `u` that are out are its nodes, and `t` has as many nodes. -/
theorem counts (hm : Mirrors t u row) : ∃ nodes out : Nat, t.nodeCount = .ok nodes ∧ u.nodeCount = .ok nodes ∧
    u.pool.outstanding = .ok nodes ∧ t.pool.outstanding = .ok out ∧ nodes ≤ out := by
  obtain ⟨g, φ, m, ha⟩ := hm.abreast
  obtain ⟨nodes, hnodes, hout⟩ := hm.outstanding_eq
  obtain ⟨_, deferred, hnodes', -, hout'⟩ := hm.whole.1.out_eq
  obtain rfl := ha.nodeCount _ _ hnodes' hnodes
  exact ⟨nodes, _, hnodes', hnodes, hout, hout', Nat.le_add_right _ _⟩

end Mirrors
end Trees
end MemoTree
