import MemoTree.Proofs.Anatomy

/-! # A reachable tree is a map

The entries of the leaves of a reachable tree form a map from keys to values, and every operation does to the tree what
the same operation does to that map, whatever the memo rings hold. Only where no node can be made, because its words
cannot be addressed, an insertion into the tree, which has no entries then, may end in a fault. -/

namespace MemoTree
open Pool NodePool Rows

/-- The used slots of the leaves of `t` hold the entries of `M` and nothing else. -/
structure Tree.Denotes {w : Width} (t : Tree w) (M : Key w → Option Value) : Prop where
  sound : ∀ h i key value, t.Leaf h → t.Uses h i key value → ∃ k v, key = Key.toWords k ∧ value = v.val ∧ M k = some v
  complete : ∀ k v, M k = some v → ∃ h i, t.Leaf h ∧ t.Uses h i k.toWords v.val

/-- `t` holds the map `M`, counts its entries, and has neither a height nor a root if there are none. -/
structure Tree.Stores {w : Width} (t : Tree w) (M : Key w → Option Value) : Prop where
  denotes : t.Denotes M
  len : t.len = {k | M k ≠ none}.ncard
  flat : t.height = 0 ↔ t.root = none
  rootless : t.root = none ↔ ∀ k, M k = none

/-- What an insertion into a tree that holds `M` answers, and the map that the tree holds afterwards. It fails for
want of a block only if the `inUse` blocks that are out, the at most `height` ones that were handed out on the way
included, are as many as the limit or as there are handles. -/
inductive Tree.Inserts {w : Width} (t : Tree w) (M : Key w → Option Value) (k : Key w) (v : Value) :
    Except Error Unit → (Key w → Option Value) → Prop
  | present : M k ≠ none → Inserts t M k v (.error .duplicateKey) M
  | added : M k = none → Inserts t M k v (.ok ()) (Function.update M k (some v))
  | exhausted {out inUse : Nat} : M k = none → t.pool.outstanding = .ok out → out ≤ inUse → inUse ≤ out + t.height →
      ((∃ limit, t.pool.limit = some limit ∧ limit ≤ inUse) ∨ inUse = 2 ^ 32 - 1) →
      Inserts t M k v (.error (.outOfMemory inUse)) M

/-- Each operation on `t` does what it does to the map `M`, and leads to a reachable tree. Only where no node can be
made, an insertion may fault; such a tree has no entries. -/
structure Tree.Refines {w : Width} (t : Tree w) (M : Key w → Option Value) : Prop where
  insert : ∀ k v, (∃ result t' M', Runs (Tree.insert k v) t result t' ∧ t.Inserts M k v result M' ∧ t'.Reachable ∧
    t'.Stores M') ∨ (addressable < 8 * t.geometry.slotWords ∧ t.root = none ∧ Faults (Tree.insert k v) t .tooLarge)
  update : ∀ k v, (M k = none ∧ ∃ t', Runs (Tree.update k v) t (.error .notFound) t' ∧ t'.Reachable ∧ t'.Stores M) ∨
    (M k ≠ none ∧ ∃ t', Runs (Tree.update k v) t (.ok ()) t' ∧ t'.Reachable ∧
      t'.Stores (Function.update M k (some v)))
  remove : ∀ k, ∃ t', Runs (Tree.remove k) t (M k) t' ∧ t'.Reachable ∧ t'.Stores (Function.update M k none)
  lookup : ∀ k, ∃ t', Runs (Tree.lookup k) t (M k) t' ∧ t'.Reachable ∧ t'.Stores M

/-! ### Pairs as a map -/

namespace Row
variable {w : Width} {row row' : Row} {M : Key w → Option Value} {k : Key w} {v : Value}

/-- The pairs are the entries of `M`. -/
def Represents (row : Row) (M : Key w → Option Value) : Prop := ∀ k v, M k = some v ↔ (k.val, v.val) ∈ row

/-- The map of some pairs. -/
def toMap (w : Width) (row : Row) (k : Key w) : Option Value :=
  (row.find? fun e => e.1 = k.val).bind fun e => Value.ofWord? e.2

namespace Represents

theorem perm (h : row.Represents M) (hp : row.Perm row') : row'.Represents M := fun k v => (h k v).trans hp.mem_iff

theorem eq_none (h : row.Represents M) (hk : ∀ e ∈ row, e.1 ≠ k.val) : M k = none := by
  cases hM : M k with
  | none => rfl
  | some v => exact absurd rfl (hk _ ((h k v).mp hM))

theorem ne_of_none (h : row.Represents M) (hused : ∀ e ∈ row, e.2 ≠ 0) (hk : M k = none) : ∀ e ∈ row, e.1 ≠ k.val :=
  fun e he hek => by
    have hM := (h k ⟨e.2, hused e he⟩).mpr (hek ▸ he)
    rw [hk] at hM
    cases hM

/-- Another pair, whose key was absent. -/
theorem cons (h : row.Represents M) (hk : ∀ e ∈ row, e.1 ≠ k.val) :
    Represents ((k.val, v.val) :: row) (Function.update M k (some v)) := fun k' v' => by
  by_cases hkk : k' = k
  · rw [hkk, Function.update_self, Option.some.injEq, List.mem_cons]
    refine ⟨fun hv => Or.inl (by rw [hv]), fun hmem => ?_⟩
    rcases hmem with heq | hmem
    · exact Subtype.ext (Prod.mk.inj heq).2.symm
    · exact absurd rfl (hk _ hmem)
  · rw [Function.update_of_ne hkk, h k' v', List.mem_cons]
    refine ⟨Or.inr, fun hmem => hmem.resolve_left fun heq => hkk (Fin.ext (Prod.mk.inj heq).1)⟩

/-- One pair less, where no other pair has its key. -/
theorem tail {x : Word} (h : Represents ((k.val, x) :: row) M) (hk : ∀ e ∈ row, e.1 ≠ k.val) :
    row.Represents (Function.update M k none) := fun k' v' => by
  by_cases hkk : k' = k
  · rw [hkk, Function.update_self]
    exact ⟨fun hv => (by cases hv), fun hmem => absurd rfl (hk _ hmem)⟩
  · rw [Function.update_of_ne hkk, h k' v', List.mem_cons]
    exact ⟨fun hmem => hmem.resolve_left fun heq => hkk (Fin.ext (Prod.mk.inj heq).1), Or.inr⟩

end Represents
end Row

/-! ### The map of a whole tree -/

section Trees
variable {w : Width} {t t' : Tree w} {row row' : Row} {M : Key w → Option Value} {k : Key w} {v : Value}

namespace Whole

theorem toMap_represents (hw : Whole t row) : row.Represents (Row.toMap w row) := fun k v => by
  rw [Row.toMap, Option.bind_eq_some_iff]
  constructor
  · rintro ⟨e, he, hv⟩
    have hmem := List.mem_of_find?_eq_some he
    have hek : e.1 = k.val := by simpa using List.find?_some he
    rw [Value.ofWord?, dif_pos (hw.used hmem), Option.some.injEq] at hv
    rwa [← hek, ← hv]
  · intro hmem
    obtain ⟨e, he⟩ := Option.isSome_iff_exists.mp
      (List.find?_isSome (p := fun e : Pair => decide (e.1 = k.val)).mpr ⟨_, hmem, decide_eq_true rfl⟩)
    have hek : e.1 = k.val := by simpa using List.find?_some he
    refine ⟨e, he, ?_⟩
    rw [hw.unique (List.mem_of_find?_eq_some he) hmem hek, Value.ofWord?, dif_pos v.property]

/-- A map is what the leaves of a whole tree hold if its entries are the tree's pairs. -/
theorem denotes_iff (hw : Whole t row) : t.Denotes M ↔ row.Represents M := by
  constructor
  · refine fun hd k v => ⟨fun hM => ?_, fun hmem => ?_⟩
    · obtain ⟨h, i, hleaf, huses⟩ := hd.complete k v hM
      exact hw.mem_iff.mpr ⟨h, i, hleaf, huses, k.isLt⟩
    · obtain ⟨h, i, hleaf, huses, -⟩ := hw.mem_iff.mp hmem
      obtain ⟨k', v', hk, hv, hM⟩ := hd.sound h i _ _ hleaf huses
      have hkk : k = k' := Fin.ext (Words.ofNat_inj (Nat.lt_of_lt_of_le k.isLt (Key.pow_bits_le w))
        (Nat.lt_of_lt_of_le k'.isLt (Key.pow_bits_le w)) hk)
      rwa [hkk, show v = v' from Subtype.ext hv]
  · refine fun hr => ⟨fun h i key value hleaf huses => ?_, fun k v hM => ?_⟩
    · obtain ⟨e, he, hkey, hvalue⟩ := hw.of_uses hleaf huses
      exact ⟨⟨e.1, hw.small he⟩, ⟨e.2, hw.used he⟩, hkey, hvalue, (hr _ _).mpr he⟩
    · obtain ⟨h, i, hleaf, huses, -⟩ := hw.mem_iff.mp ((hr k v).mp hM)
      exact ⟨h, i, hleaf, huses⟩

theorem denotes (hw : Whole t row) : t.Denotes (row.toMap w) := hw.denotes_iff.mpr hw.toMap_represents

/-- A whole tree has as many pairs as its map has keys. -/
theorem length_eq_ncard (hw : Whole t row) (hr : row.Represents M) : row.length = {k | M k ≠ none}.ncard := by
  have hkey : ∀ e ∈ row, (Key.ofNat w e.1).val = e.1 := fun e he => Nat.mod_eq_of_lt (hw.small he)
  have hnodup : (row.map fun e => Key.ofNat w e.1).Nodup := hw.nodup.map_on fun a ha b hb hab =>
    hw.unique ha hb (by rw [← hkey a ha, ← hkey b hb, hab])
  have hset : {k | M k ≠ none} = ((row.map fun e => Key.ofNat w e.1).toFinset : Set (Key w)) := by
    ext k
    rw [Set.mem_ofPred_eq, Option.ne_none_iff_exists', List.coe_toFinset, Set.mem_ofPred_eq, List.mem_map]
    constructor
    · rintro ⟨v, hv⟩
      have hmem := (hr k v).mp hv
      exact ⟨_, hmem, Fin.ext (hkey _ hmem)⟩
    · rintro ⟨e, he, rfl⟩
      exact ⟨⟨e.2, hw.used he⟩, (hr _ _).mpr (by rwa [hkey e he])⟩
  rw [hset, Set.ncard_coe_finset, List.toFinset_card_of_nodup hnodup, List.length_map]

theorem stores (hw : Whole t row) (hr : row.Represents M) : t.Stores M where
  denotes := hw.denotes_iff.mpr hr
  len := hw.len.trans (hw.length_eq_ncard hr)
  flat := by
    rcases hw.state with ⟨hb, -⟩ | ⟨c, r, hroot, -⟩
    · exact ⟨fun _ => hb.root, fun _ => hb.height⟩
    · rw [hroot.stand.root]
      exact ⟨fun h => absurd h (Nat.ne_of_gt hroot.tall), fun h => (by cases h)⟩
  rootless := by
    have hempty : t.root = none ↔ t.isEmpty = true := Option.isNone_iff_eq_none.symm
    rw [hempty, hw.isEmpty_iff]
    constructor
    · rintro rfl k
      exact hr.eq_none fun e he => (by cases he)
    · intro hnone
      refine List.eq_nil_iff_forall_not_mem.mpr fun e he => ?_
      have hM := (hr ⟨e.1, hw.small he⟩ ⟨e.2, hw.used he⟩).mpr he
      rw [hnone] at hM
      cases hM

end Whole

/-! ### Operations on the map -/

/-- An insertion adds an entry to the map, if it can. -/
theorem Whole.insert_map (hw : Whole t row) (hr : row.Represents M) (k : Key w) (v : Value) :
    (∃ result t' M', Runs (Tree.insert k v) t result t' ∧ t.Inserts M k v result M' ∧ t'.Stores M') ∨
      (addressable < 8 * t.geometry.slotWords ∧ t.root = none ∧ Faults (Tree.insert k v) t .tooLarge) := by
  rcases hw.insert k v with ⟨⟨e, he, hek⟩, t', hrun, hw'⟩ |
    ⟨hnew, ⟨t', hrun, hw'⟩ | ⟨inUse, t', hrun, hw', hst⟩ | ⟨hlarge, hfault⟩⟩
  · refine Or.inl ⟨_, t', M, hrun, .present fun hnone => ?_, hw'.stores hr⟩
    exact hr.ne_of_none (fun e he => hw.used he) hnone e he hek
  · exact Or.inl ⟨_, t', _, hrun, .added (hr.eq_none hnew), hw'.stores (hr.cons hnew)⟩
  · have hout : t.pool.outstanding = .ok t.pool.out := hw.ledger.outstanding_eq
    exact Or.inl ⟨_, t', M, hrun, .exhausted (hr.eq_none hnew) hout hst.le hst.le_add hst.exhausted, hw'.stores hr⟩
  · have hnil : row = [] := by
      by_contra hne
      exact hlarge (hw.fits_of_ne hne)
    exact Or.inr ⟨Nat.not_le.mp hlarge, Option.isNone_iff_eq_none.mp (hw.isEmpty_iff.mpr hnil), hfault⟩

/-- An update replaces a value of the map. -/
theorem Whole.update_map (hw : Whole t row) (hr : row.Represents M) (k : Key w) (v : Value) :
    (M k = none ∧ ∃ t', Runs (Tree.update k v) t (.error .notFound) t' ∧ t'.Stores M) ∨
      M k ≠ none ∧ ∃ t', Runs (Tree.update k v) t (.ok ()) t' ∧ t'.Stores (Function.update M k (some v)) := by
  rcases hw.update k v with ⟨hnew, t', hrun, hw'⟩ | ⟨old, row', hperm, t', hrun, hw'⟩
  · exact Or.inl ⟨hr.eq_none hnew, t', hrun, hw'.stores hr⟩
  · have hne := hw.ne_of_perm hperm
    have hmem : (k.val, old) ∈ row := hperm.mem_iff.mpr List.mem_cons_self
    have hrep := ((hr.perm hperm).tail hne).cons (v := v) hne
    rw [Function.update_idem] at hrep
    refine Or.inr ⟨fun hnone => ?_, t', hrun, hw'.stores hrep⟩
    exact hr.ne_of_none (fun e he => hw.used he) hnone _ hmem rfl

/-- A removal takes an entry out of the map. -/
theorem Whole.remove_map (hw : Whole t row) (hr : row.Represents M) (k : Key w) :
    ∃ t', Runs (Tree.remove k) t (M k) t' ∧ t'.Stores (Function.update M k none) := by
  rcases hw.remove k with ⟨hnew, t', hrun, hw'⟩ | ⟨v, hmem, t', row', hrun, hw', hperm⟩
  · have hnone := hr.eq_none hnew
    rw [hnone]
    refine ⟨t', hrun, hw'.stores ?_⟩
    rwa [← hnone, Function.update_eq_self]
  · rw [(hr k v).mpr hmem]
    exact ⟨t', hrun, hw'.stores ((hr.perm hperm).tail (hw.ne_of_perm hperm))⟩

theorem Whole.lookup_map (hw : Whole t row) (hr : row.Represents M) (k : Key w) :
    ∃ t', Runs (Tree.lookup k) t (M k) t' ∧ t'.Stores M := by
  rcases hw.lookup k with ⟨hnew, t', hrun, hw'⟩ | ⟨v, hmem, t', hrun, hw'⟩
  · rw [hr.eq_none hnew]
    exact ⟨t', hrun, hw'.stores hr⟩
  · rw [(hr k v).mpr hmem]
    exact ⟨t', hrun, hw'.stores hr⟩

/-- A lookup finds what the map says. -/
theorem Tree.Reachable.value_of_lookup {found : Option Value} (ht : t.Reachable) (hM : t.Denotes M)
    (h : Ends (Tree.lookup k) t found t') : M k = found := by
  obtain ⟨row, hw⟩ := ht.whole
  obtain ⟨_, hrun, -⟩ := hw.lookup_map (hw.denotes_iff.mp hM) k
  exact (hrun.of_ends h).1.symm

/-- What a step leads to from a reachable tree, it leads to from any journal. -/
theorem Tree.Reachable.of_runs {α : Type} {m : TreeM w α} {a : α} (ht : t.Reachable) (hrun : Runs m t a t')
    (hstep : ∀ {j j'}, m t j = .ok ((a, t'), j') → Tree.Step t t') : t'.Reachable := by
  obtain ⟨said, hrun⟩ := hrun
  exact ht.step (hstep (hrun #[]))

theorem Whole.refines (hw : Whole t row) (ht : t.Reachable) (hr : row.Represents M) : t.Refines M where
  insert k v := by
    rcases hw.insert_map hr k v with ⟨result, t', M', hrun, hins, hst⟩ | hfault
    · exact Or.inl ⟨result, t', M', hrun, hins, ht.of_runs hrun .insert, hst⟩
    · exact Or.inr hfault
  update k v := by
    rcases hw.update_map hr k v with ⟨hk, t', hrun, hst⟩ | ⟨hk, t', hrun, hst⟩
    · exact Or.inl ⟨hk, t', hrun, ht.of_runs hrun .update, hst⟩
    · exact Or.inr ⟨hk, t', hrun, ht.of_runs hrun .update, hst⟩
  remove k := by
    obtain ⟨t', hrun, hst⟩ := hw.remove_map hr k
    exact ⟨t', hrun, ht.of_runs hrun .remove, hst⟩
  lookup k := by
    obtain ⟨t', hrun, hst⟩ := hw.lookup_map hr k
    exact ⟨t', hrun, ht.of_runs hrun .lookup, hst⟩

/-- The entries of a reachable tree form a map. The tree counts them, and every operation refines the operation on the
map. -/
theorem Tree.Reachable.refines_map (ht : t.Reachable) :
    (∃ M, t.Denotes M) ∧ ∀ M, t.Denotes M → t.Stores M ∧ t.Refines M := by
  obtain ⟨row, hw⟩ := ht.whole
  refine ⟨⟨_, hw.denotes⟩, fun M hM => ?_⟩
  have hr := hw.denotes_iff.mp hM
  exact ⟨hw.stores hr, hw.refines ht hr⟩

/-- The worn tree has three levels, and a memo in it names a node that was unlinked. The key 2 splits a leaf of it, and
with the key 1 goes a level. In the cramped tree there is a block for one of the nodes that the key 10 takes. -/
theorem refines_map_of_worn :
    (∃ M, Tree.worn.Reachable ∧ Tree.worn.Denotes M ∧ Tree.worn.Stores M ∧ Tree.worn.Refines M ∧
      (∃ t', Runs (Tree.insert 2 .one) Tree.worn (.ok ()) t' ∧ t'.Stores (Function.update M 2 (some .one))) ∧
      ∃ t', Runs (Tree.remove 1) Tree.worn (some .one) t' ∧ t'.height = 2 ∧ t'.Stores (Function.update M 1 none)) ∧
    ∃ M, Tree.cramped.Reachable ∧ Tree.cramped.Denotes M ∧ Tree.cramped.Refines M ∧
      Tree.cramped.Inserts M 10 .one (.error (.outOfMemory 4)) M := by
  obtain ⟨⟨M, hM⟩, hmap⟩ := Tree.worn_reachable.refines_map
  obtain ⟨⟨N, hN⟩, hmap'⟩ := Tree.cramped_reachable.refines_map
  obtain ⟨hstores, hrefines⟩ := hmap M hM
  obtain ⟨-, hrefines'⟩ := hmap' N hN
  have hinsert : Ends (Tree.insert 2 .one) Tree.worn (.ok ()) _ := Ends.after (by decide +kernel)
  have hremove : Ends (Tree.remove 1) Tree.worn (some Value.one) _ := Ends.after (by decide +kernel)
  have hrefused : Ends (Tree.insert 10 .one) Tree.cramped (.error (.outOfMemory 4)) _ := Ends.after (by decide +kernel)
  refine ⟨⟨M, Tree.worn_reachable, hM, hstores, hrefines, ?_, ?_⟩, N, Tree.cramped_reachable, hN, hrefines', ?_⟩
  · rcases hrefines.insert 2 .one with ⟨result, t', M', hrun, hins, -, hst⟩ | ⟨hlarge, -⟩
    · obtain ⟨rfl, -⟩ := hrun.of_ends hinsert
      cases hins
      exact ⟨t', hrun, hst⟩
    · exact absurd hlarge (by decide +kernel)
  · obtain ⟨t', hrun, -, hst⟩ := hrefines.remove 1
    obtain ⟨hvalue, rfl⟩ := hrun.of_ends hremove
    rw [← hvalue] at hrun
    exact ⟨_, hrun, by decide +kernel, hst⟩
  · rcases hrefines'.insert 10 .one with ⟨result, t', M', hrun, hins, -⟩ | ⟨hlarge, -⟩
    · obtain ⟨rfl, -⟩ := hrun.of_ends hrefused
      cases hins with
      | exhausted hnew hout hle hadd hex => exact .exhausted hnew hout hle hadd hex
    · exact absurd hlarge (by decide +kernel)

/-- A configuration may ask for nodes that cannot be addressed. The first insertion into its tree faults, though nothing
limits the number of blocks. -/
theorem insert_faults_in_large_nodes : ∃ t : Tree .bits64,
    Tree.ofConfig { pairs := some 2305843009213693952 } = .ok (.ok t) ∧ t.Reachable ∧ t.Denotes (fun _ => none) ∧
    t.pool.limit = none ∧ Faults (Tree.insert 0 ⟨1, by decide⟩) t .tooLarge ∧
    ¬∃ result t', Runs (Tree.insert 0 ⟨1, by decide⟩) t result t' := by
  obtain ⟨t, hconfig, hlimit, hlarge⟩ : ∃ t : Tree .bits64,
      Tree.ofConfig { pairs := some 2305843009213693952 } = .ok (.ok t) ∧ t.pool.limit = none ∧
      ¬8 * t.geometry.slotWords ≤ addressable := ⟨_, rfl, rfl, by decide⟩
  have hw := Whole.ofConfig hconfig
  have hfault := hw.insert_large hlarge (by rw [hlimit]; decide) 0 ⟨1, by decide⟩
  exact ⟨t, hconfig, .ofConfig hconfig, hw.denotes_iff.mpr fun _ _ => ⟨fun h => (by cases h), fun h => (by cases h)⟩,
    hlimit, hfault, fun ⟨_, _, hrun⟩ => hfault.not_runs hrun⟩

end Trees
end MemoTree
