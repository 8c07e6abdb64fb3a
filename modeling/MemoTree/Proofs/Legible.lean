import MemoTree.Proofs.Whole
import MemoTree.Tree.Lookup

/-! # Legible trees

What reads need of a tree: every node that they can come to shows its row, and the layout can be searched (`Legible`).
Nothing is said of the nodes that they cannot come to, of marks, counts and memos, or of nodes that are on several
levels. -/

namespace MemoTree
open Pool NodePool Rows

/-- The entry that a pair is, if its key and its value word are those of an entry. -/
def Pair.entry (w : Width) (e : Pair) : Option (Entry w) :=
  if h : e.1 < 2 ^ w.bits ∧ e.2 ≠ 0 then some (⟨e.1, h.1⟩, ⟨e.2, h.2⟩) else none

/-- The entries that pairs are, where they are entries. -/
def Row.entries (w : Width) (row : Row) : List (Entry w) := row.filterMap (Pair.entry w)

/-- All pairs are entries. -/
def Row.Proper (w : Width) (row : Row) : Prop := ∀ e ∈ row, e.1 < 2 ^ w.bits ∧ e.2 ≠ 0

namespace Row.Proper
variable {w : Width} {row : Row} {e : Pair}

theorem entry (h : row.Proper w) (he : e ∈ row) : Pair.entry w e = some (⟨e.1, (h e he).1⟩, ⟨e.2, (h e he).2⟩) :=
  dif_pos (h e he)

theorem getElem?_entries (h : row.Proper w) (i : Nat) : (row.entries w)[i]? = row[i]?.bind (Pair.entry w) := by
  induction row generalizing i with
  | nil => rfl
  | cons e row ih =>
    have hentry := h.entry List.mem_cons_self
    rw [Row.entries, List.filterMap_cons_some hentry]
    cases i with
    | zero => exact hentry.symm
    | succ i => exact ih (fun a ha => h a (List.mem_cons_of_mem e ha)) i

theorem length_entries (h : row.Proper w) : (row.entries w).length = row.length :=
  List.filterMap_length_eq_length.mpr fun e he => by
    rw [h.entry he]
    rfl

theorem mem_entries (h : row.Proper w) {k : Key w} {v : Value} : (k, v) ∈ row.entries w ↔ (k.val, v.val) ∈ row := by
  rw [Row.entries, List.mem_filterMap]
  constructor
  · rintro ⟨e, he, hentry⟩
    rw [h.entry he, Option.some.injEq] at hentry
    cases hentry
    exact he
  · exact fun hmem => ⟨_, hmem, h.entry hmem⟩

theorem entries_descending (h : row.Proper w) (hd : row.Descending) :
    (row.entries w).Pairwise fun a b => b.1 < a.1 := by
  refine List.pairwise_filterMap.mpr (hd.imp_of_mem fun {a b} ha hb hlt e he e' he' => ?_)
  rw [h.entry ha, Option.some.injEq] at he
  rw [h.entry hb, Option.some.injEq] at he'
  subst he he'
  exact hlt

end Row.Proper

/-- The nodes down to `d` levels below `r` show their rows, none of which is empty, and the layout can be searched. -/
structure Legible {w : Width} (t : Tree w) (c : Rows) (r : Handle) (d : Nat) : Prop where
  searchable : Searchable (2 ^ w.bits) c r d
  full : ∀ i ≤ d, ∀ h ∈ c.level r i, c h ≠ []
  node : ∀ i ≤ d, ∀ h ∈ c.level r i, ∃ n, t.pool.block h = .ok n ∧ Shows t.geometry n (c h)

/-- What is between operations can be read, down to any level. -/
theorem Rooted.legible_to {w : Width} {t : Tree w} {c : Rows} {r : Handle} {d : Nat} (hr : Rooted t c r)
    (hd : d ≤ t.height - 1) : Legible t c r d where
  searchable := (hr.sound.truncate hd).searchable
  full _ hi _ hh := hr.full (hi.trans hd) hh
  node _ hi _ hh := by
    obtain ⟨n, hn, hpacks⟩ := hr.stand.stock.node (hr.live_level (hi.trans hd) hh)
    exact ⟨n, hn, hpacks.shows⟩

theorem Rooted.legible {w : Width} {t : Tree w} {c : Rows} {r : Handle} (hr : Rooted t c r) :
    Legible t c r (t.height - 1) := hr.legible_to (Nat.le_refl _)

section Parts
variable {w : Width} {t : Tree w} {c : Rows} {h : Handle} {d : Nat}

/-- A node below two children would hold keys that scans lead to both of them. -/
theorem Rows.nodup_level_below {i : Nat} (hd : (c h).Descending)
    (hnodup : ∀ e ∈ c h, ∀ k, Pair.child e = some k → (c.level k i).Nodup)
    (hfull : ∀ e ∈ c h, ∀ k, Pair.child e = some k → ∀ q ∈ c.level k i, c q ≠ [])
    (hscan : ∀ e ∈ c h, ∀ k, Pair.child e = some k → ∀ a ∈ c.pairs k i, (c h).scan a.1 = some e) :
    (c.level h (i + 1)).Nodup := by
  rw [level_succ, List.nodup_flatMap]
  refine ⟨fun k hk => ?_, ?_⟩
  · obtain ⟨e, he, hek⟩ := mem_kids.mp hk
    exact hnodup e he k hek
  · rw [kids, List.pairwise_filterMap]
    refine hd.imp_of_mem fun {e e'} he he' hlt k hk k' hk' q hq hq' => ?_
    obtain ⟨a, ha⟩ := List.exists_mem_of_ne_nil _ (hfull e he k hk q hq)
    have hleft := hscan e he k hk a (mem_pairs.mpr ⟨q, hq, ha⟩)
    have hright := hscan e' he' k' hk' a (mem_pairs.mpr ⟨q, hq', ha⟩)
    obtain rfl : e = e' := Option.some.inj (hleft.symm.trans hright)
    exact Nat.lt_irrefl _ hlt

namespace Legible

theorem single (hnode : ∃ n, t.pool.block h = .ok n ∧ Shows t.geometry n (c h)) (hne : c h ≠ []) (hd : (c h).Descending)
    (hsmall : ∀ e ∈ c h, e.1 < 2 ^ w.bits) : Legible t c h 0 := by
  have hself : ∀ {P : Handle → Prop}, P h → ∀ i ≤ 0, ∀ k ∈ c.level h i, P k := fun hP i hi k hk => by
    obtain rfl := Nat.le_zero.mp hi
    rwa [List.mem_singleton.mp hk]
  exact {
    searchable := {
      nodup := fun i hi => by
        obtain rfl := Nat.le_zero.mp hi
        exact List.nodup_singleton h
      descending := hself hd
      small := hself hsmall
      inner := fun i hi => absurd hi (Nat.not_lt_zero i)
      routed := fun i hi k hk e he => by
        obtain rfl := Nat.le_zero.mp hi
        rw [List.mem_singleton.mp hk]
        rfl }
    full := hself hne
    node := hself hnode }

/-- A node can be read, with what is below it, if its children can and scans lead to their keys. -/
theorem of_children (hnode : Legible t c h 0) (hchildren : ∀ e ∈ c h, ∃ k, Pair.child e = some k ∧ Legible t c k d ∧
    ∀ i ≤ d, ∀ a ∈ c.pairs k i, (c h).scan a.1 = some e) : Legible t c h (d + 1) := by
  have hhere := List.mem_singleton_self h
  -- what holds of this node, and below each child, holds on every level
  have hall : ∀ {P : Handle → Prop}, P h → (∀ e ∈ c h, ∀ k, Pair.child e = some k → ∀ i ≤ d, ∀ q ∈ c.level k i, P q) →
      ∀ i ≤ d + 1, ∀ q ∈ c.level h i, P q := fun {P} hP hbelow i hi q hq => by
    cases i with
    | zero => rwa [List.mem_singleton.mp hq]
    | succ i =>
      obtain ⟨e, he, k, hek, hq⟩ := mem_level_below.mp hq
      exact hbelow e he k hek i (Nat.le_of_succ_le_succ hi) q hq
  have hchild : ∀ e ∈ c h, ∀ k, Pair.child e = some k →
      Legible t c k d ∧ ∀ i ≤ d, ∀ a ∈ c.pairs k i, (c h).scan a.1 = some e := fun e he k hk => by
    obtain ⟨k', hk', hread⟩ := hchildren e he
    obtain rfl : k' = k := Option.some.inj (hk'.symm.trans hk)
    exact hread
  have hfull := hall (hnode.full 0 (Nat.le_refl 0) h hhere) fun e he k hk => (hchild e he k hk).1.full
  have hdescending := hnode.searchable.descending 0 (Nat.le_refl 0) h hhere
  refine ⟨⟨?_, ?_, ?_, ?_, ?_⟩, hfull, ?_⟩
  · intro i hi
    cases i with
    | zero => exact List.nodup_singleton h
    | succ i =>
      have hi := Nat.le_of_succ_le_succ hi
      exact Rows.nodup_level_below hdescending (fun e he k hk => (hchild e he k hk).1.searchable.nodup i hi)
        (fun e he k hk => (hchild e he k hk).1.full i hi) fun e he k hk => (hchild e he k hk).2 i hi
  · exact hall hdescending fun e he k hk => (hchild e he k hk).1.searchable.descending
  · exact hall (hnode.searchable.small 0 (Nat.le_refl 0) h hhere) fun e he k hk => (hchild e he k hk).1.searchable.small
  · intro i hi q hq
    refine ⟨hfull i (Nat.le_of_lt hi) q hq, ?_⟩
    cases i with
    | zero =>
      rw [List.mem_singleton.mp hq]
      exact fun e he => (hchildren e he).imp fun k hk => hk.1
    | succ i =>
      obtain ⟨e, he, k, hek, hq⟩ := mem_level_below.mp hq
      exact ((hchild e he k hek).1.searchable.inner i (Nat.lt_of_succ_lt_succ hi) q hq).2
  · intro i hi q hq a ha
    cases i with
    | zero =>
      rw [List.mem_singleton.mp hq]
      rfl
    | succ i =>
      obtain ⟨e, he, k, hek, hq⟩ := mem_level_below.mp hq
      have hi := Nat.le_of_succ_le_succ hi
      have hlook := look_eq_some.mpr ⟨e, (hchild e he k hek).2 i hi a (mem_pairs.mpr ⟨q, hq, ha⟩), hek⟩
      rw [route, follow_succ, hlook]
      exact (hchild e he k hek).1.searchable.routed i hi q hq a ha
  · exact hall (hnode.node 0 (Nat.le_refl 0) h hhere) fun e he k hk => (hchild e he k hk).1.node

end Legible

end Parts

/-! ### Nodes -/

section Nodes
variable {g : Geometry} {n : Node} {x : Nat}

theorem Shows.scanChild_eq {row : Row} (hn : Shows g n row) (hx : x < 2 ^ (64 * g.keyLength)) :
    Tree.scanChild g n (Words.ofNat g.keyLength x) = .ok ((row.scan x).bind Pair.child) := by
  rw [Tree.scanChild, hn.position_eq hx]
  show (if (row.above x).length = g.pairs then _ else _) = _
  cases hs : row.scan x with
  | some e =>
    rw [if_neg (Nat.ne_of_lt (hn.lt_of_scan hs)), hn.child_eq (Row.getElem?_scan hs)]
    rfl
  | none =>
    rw [Row.length_above_of_scan hs]
    have hle := hn.length_le
    by_cases hfull : row.length = g.pairs
    · rw [if_pos hfull]
      rfl
    · rw [if_neg hfull, hn.child_free (Nat.le_refl _) (by omega)]
      rfl

/-- The slot of a key in a leaf. -/
theorem Shows.findFrom_spec (hx : x < 2 ^ (64 * g.keyLength)) (B : Row) :
    ∀ {A : Row}, Shows g n (A ++ B) →
    (∃ A' e B', A ++ B = A' ++ e :: B' ∧ e.1 = x ∧
      n.findFrom g (Words.ofNat g.keyLength x) (g.pairs - A.length) A.length = .ok (some A'.length)) ∨
    (∀ e ∈ B, e.1 ≠ x) ∧ n.findFrom g (Words.ofNat g.keyLength x) (g.pairs - A.length) A.length = .ok none := by
  -- the search has passed `A`; the induction is on what is still ahead
  induction B with
  | nil =>
    intro A hn
    refine Or.inr ⟨fun e he => (by cases he), ?_⟩
    have hle := hn.length_le
    rw [List.append_nil] at hn hle
    cases hleft : g.pairs - A.length with
    | zero => rfl
    | succ left =>
      rw [Node.findFrom, hn.value_free _ (Nat.le_refl _) (by omega)]
      rfl
  | cons e B ih =>
    intro A hn
    have hle := hn.length_le
    rw [List.length_append, List.length_cons] at hle
    obtain ⟨left, hleft⟩ : ∃ left, g.pairs - A.length = left + 1 := ⟨g.pairs - A.length - 1, by omega⟩
    have hget : (A ++ e :: B)[A.length]? = some e := by simp
    have hvalue := hn.value _ e hget
    have hused : (e.2 == 0) = false := by simpa using hn.used e (by simp)
    have hcompare := hn.compareKey_eq hget hx
    rw [hleft, Node.findFrom, hvalue]
    simp only [bind, Except.bind, hused, hcompare]
    by_cases hex : e.1 = x
    · refine Or.inl ⟨A, e, B, rfl, hex, ?_⟩
      rw [Nat.compare_eq_eq.mpr hex]
      rfl
    · have hne : (Ord.compare e.1 x == Ordering.eq) = false := by
        rw [beq_eq_false_iff_ne, Ne, Nat.compare_eq_eq]
        exact hex
      have hsplit : A ++ e :: B = (A ++ [e]) ++ B := by simp
      have hleft' : g.pairs - (A.length + 1) = left := by omega
      have hstep := ih (hsplit ▸ hn)
      rw [← hsplit, List.length_append, List.length_singleton, hleft'] at hstep
      simp only [hne, Bool.false_eq_true, if_false]
      refine hstep.imp id fun ⟨hall, hfind⟩ => ⟨fun a ha => ?_, hfind⟩
      rcases List.mem_cons.mp ha with rfl | ha
      · exact hex
      · exact hall a ha

theorem Value.ofWord?_of_ne {v : Word} (hv : v ≠ 0) :
    Value.ofWord? v = some ⟨v, hv⟩ := by rw [Value.ofWord?, dif_pos hv]

end Nodes

/-! ### Lookups -/

section Trees
variable {w : Width} {t t' : Tree w} {c : Rows} {r h : Handle} {d i x : Nat} {p' : NodePool}

namespace Legible

theorem proper (hl : Legible t c r d) (hi : i ≤ d) : (c.pairs r i).Proper w := fun e he => by
  obtain ⟨h, hh, heh⟩ := mem_pairs.mp he
  obtain ⟨n, -, hshows⟩ := hl.node i hi h hh
  exact ⟨hl.searchable.small i hi h hh e heh, hshows.used e heh⟩

theorem entryIn (hl : Legible t c r d) (hi : i ≤ d) (hh : h ∈ c.level r i) {j : Nat} {e : Pair}
    (he : (c h)[j]? = some e) : t.entryIn h j = .ok (Pair.entry w e) := by
  obtain ⟨n, hn, hshows⟩ := hl.node i hi h hh
  have hmem := List.mem_of_getElem? he
  have hsmall := hl.searchable.small i hi h hh e hmem
  have hused := hshows.used e hmem
  have hkey : n.key t.geometry j = .ok (Words.ofNat w.words e.1) := hshows.key j e he
  rw [Tree.entryIn, hn]
  simp only [bind, Except.bind, hshows.value j e he, Value.ofWord?_of_ne hused, hkey, Key.ofWords_ofNat hsmall]
  rw [Pair.entry, dif_pos ⟨hsmall, hused⟩]
  rfl

end Legible

/-- A lookup without memos goes where scans lead, and leaves the nodes as they are. -/
theorem Legible.leafFor (hl : Legible t c r d) (hx : x < 2 ^ w.bits) (steps : Nat) : ∀ {i : Nat} {h : Handle},
    i + steps = d → h ∈ c.level r i →
    Runs (Tree.leafFor t.geometry false (Words.ofNat w.words x) steps h) t.pool (c.route x h steps) t.pool := by
  induction steps with
  | zero => exact fun _ _ => Runs.pure _ _
  | succ steps ih =>
    intro i h hi hh
    obtain ⟨n, hn, hshows⟩ := hl.node i (by omega) h hh
    have hscan : Tree.scanChild t.geometry n (Words.ofNat w.words x) = .ok (c.look x h) :=
      hshows.scanChild_eq (Nat.lt_of_lt_of_le hx (Key.pow_bits_le w))
    have hchild : Runs (Tree.childFor t.geometry false (Words.ofNat w.words x) h) t.pool (c.look x h) t.pool := by
      refine Runs.bind (Runs.read hn) (Runs.bind (Runs.lift hscan _) ?_)
      cases c.look x h with
      | none => exact Runs.pure _ _
      | some k => exact Runs.pure _ _
    rw [route, follow_succ]
    cases hlook : c.look x h with
    | none =>
      rw [hlook] at hchild
      exact Runs.bind hchild (Runs.pure _ _)
    | some k =>
      rw [hlook] at hchild
      exact Runs.bind hchild (ih (by omega) (mem_level_succ.mpr ⟨h, hh, mem_kids_of_step (step_of_look hlook)⟩))

theorem runs_findSlot_rootless {key : Words} (hroot : t.root = none) : Runs (Tree.findSlot key) t none t :=
  Runs.bind (Runs.get _) (by rw [hroot]; exact Runs.pure _ _)

/-- A search of a tree finds the leaf, and then the slot in it. -/
theorem runs_findSlot {key : Words} {o : Option (Handle × Nat)} (hroot : t.root = some r) (hrun : Runs (do
      let some leaf ← Tree.leafFor t.geometry t.memoize key (t.height - 1) r | return none
      let some slot ← (← Pool.read leaf).find? t.geometry key | return none
      return some (leaf, slot) : NodeM (Option (Handle × Nat))) t.pool o p') :
    Runs (Tree.findSlot key) t o { t with pool := p' } := by
  generalize ht' : ({ t with pool := p' } : Tree w) = t'
  refine Runs.bind (Runs.get _) ?_
  rw [hroot, ← ht']
  exact Runs.bind (Runs.get _) (Runs.bind (Runs.get _) (Runs.bind (Runs.get _) (Runs.onNodes hrun)))

/-- Once it has come to the leaf where scans lead, a search finds the slot that holds its key, or the key is absent. -/
theorem Legible.findSlot (hl : Legible ({ t with pool := p' } : Tree w) c r (t.height - 1)) (hroot : t.root = some r)
    (k : Key w) (hrun : Runs (Tree.leafFor t.geometry t.memoize k.toWords (t.height - 1) r) t.pool
      (c.route k.val r (t.height - 1)) p') :
    (∃ h A e B, h ∈ c.level r (t.height - 1) ∧ c h = A ++ e :: B ∧ e.1 = k.val ∧
      Runs (Tree.findSlot k.toWords) t (some (h, A.length)) { t with pool := p' }) ∨
    (∀ e ∈ c.pairs r (t.height - 1), e.1 ≠ k.val) ∧ Runs (Tree.findSlot k.toWords) t none { t with pool := p' } := by
  -- a pair with the key would be in the leaf where scans lead
  have habsent : (∀ i, c.route k.val r (t.height - 1) = some i → ∀ e ∈ c i, e.1 ≠ k.val) →
      ∀ e ∈ c.pairs r (t.height - 1), e.1 ≠ k.val := fun hall e he hek => by
    obtain ⟨i, hi, hei⟩ := mem_pairs.mp he
    exact hall i (hek ▸ hl.searchable.routed _ (Nat.le_refl _) i hi e hei) e hei hek
  cases hroute : c.route k.val r (t.height - 1) with
  | none =>
    rw [hroute] at hrun habsent
    exact Or.inr ⟨habsent fun i hi => (by cases hi), runs_findSlot hroot (Runs.bind hrun (Runs.pure _ _))⟩
  | some leaf =>
    rw [hroute] at hrun habsent
    have hleaf := mem_level_of_route hroute
    obtain ⟨n, hn, hshows⟩ := hl.node _ (Nat.le_refl _) leaf hleaf
    rcases Shows.findFrom_spec (Nat.lt_of_lt_of_le k.isLt (Key.pow_bits_le w)) (c leaf) (A := []) hshows with
      ⟨A, e, B, hrow, hek, hfind⟩ | ⟨hall, hfind⟩
    · exact Or.inl ⟨leaf, A, e, B, hleaf, hrow, hek, runs_findSlot hroot (Runs.bind hrun (Runs.bind (Runs.read hn)
        (Runs.bind (Runs.lift hfind _) (Runs.pure _ _))))⟩
    · exact Or.inr ⟨habsent fun i hi => (by cases hi; exact hall), runs_findSlot hroot (Runs.bind hrun
        (Runs.bind (Runs.read hn) (Runs.bind (Runs.lift hfind _) (Runs.pure _ _))))⟩

theorem Runs.lookup_none {k : Key w} (h : Runs (Tree.findSlot k.toWords) t none t') : Runs (Tree.lookup k) t none t' :=
  Runs.bind h (Runs.bind (Runs.pure _ _) (Runs.bind (Runs.get _) (Runs.bind (Runs.tellTimer _ _ _) (Runs.pure _ _))))

theorem Runs.lookup_some {k : Key w} {slot : Nat} {n : Node} {v : Word}
    (hfind : Runs (Tree.findSlot k.toWords) t (some (h, slot)) t')
    (hn : t'.pool.block h = .ok n) (hvalue : n.value t'.geometry slot = .ok v) (hv : v ≠ 0) :
    Runs (Tree.lookup k) t (some ⟨v, hv⟩) t' := by
  refine Runs.bind hfind
    (Runs.bind (Runs.get _) (Runs.bind (Runs.onNodes (Runs.read hn)) (Runs.bind (Runs.lift hvalue _)
    (Runs.bind (Runs.get _) (Runs.bind (Runs.tellTimer _ _ _) ?_)))))
  rw [Value.ofWord?_of_ne hv]
  exact Runs.bind (Runs.get _) (Runs.bind (Runs.tellMonitor _ _ _) (Runs.pure _ _))

/-- A lookup without memos answers the value of its key and leaves the tree as it is. -/
theorem Legible.lookup (hl : Legible t c r (t.height - 1)) (hroot : t.root = some r)
    (hplain : t.memoize = false) (k : Key w) :
    (∀ e ∈ c.pairs r (t.height - 1), e.1 ≠ k.val) ∧ Runs (Tree.lookup k) t none t ∨
    ∃ v : Value, (k.val, v.val) ∈ c.pairs r (t.height - 1) ∧ Runs (Tree.lookup k) t (some v) t := by
  have hleaf := hl.leafFor k.isLt (t.height - 1) (Nat.zero_add _) (List.mem_singleton_self r)
  rw [← hplain] at hleaf
  rcases hl.findSlot hroot k hleaf with ⟨h, A, e, B, hh, hrow, hek, hrun⟩ | ⟨hall, hrun⟩
  · obtain ⟨n, hn, hshows⟩ := hl.node _ (Nat.le_refl _) h hh
    have he : e ∈ c h := by rw [hrow]; simp
    have hget : (c h)[A.length]? = some e := by rw [hrow]; simp
    refine Or.inr ⟨⟨e.2, hshows.used e he⟩, ?_, Runs.lookup_some hrun hn (hshows.value _ e hget) _⟩
    rw [← hek]
    exact mem_pairs.mpr ⟨h, hh, he⟩
  · exact Or.inl ⟨hall, Runs.lookup_none hrun⟩

end Trees
end MemoTree
