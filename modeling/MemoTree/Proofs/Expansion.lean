import MemoTree.Proofs.Atomicity
import MemoTree.Proofs.Branching
import MemoTree.Proofs.Demand

/-! # How a tree grows

An insertion of an absent key splits the full nodes on the path of the key, from the leaf up to the first one with room,
and no others. It takes one block for each, and one more for a new root if all nodes of the path are full. If so many
blocks are not left, none is split and the limit is reported. The other operations take no block. -/

namespace MemoTree
open Pool NodePool Rows

namespace Tree
variable {w : Width}

/-- The nodes `hs` on the path of `key` are full: the lowest of the first `m` levels, the one above it, and so on up
to the first one with room. -/
inductive Crowded (t : Tree w) (key : Words) : (m : Nat) → (hs : List Handle) → Prop
  | top : Crowded t key 0 []
  | room {m fill : Nat} {h : Handle} : t.Path key m h → t.Fill h fill → fill < t.pairs → Crowded t key (m + 1) []
  | full {m : Nat} {h : Handle} {hs : List Handle} : t.Path key m h → t.Fill h t.pairs → Crowded t key m hs →
      Crowded t key (m + 1) (h :: hs)

/-- No leaf holds the key. -/
def Lacks (t : Tree w) (k : Key w) : Prop := ∀ h i value, t.Leaf h → ¬t.Uses h i k.toWords value

/-- Splitting the nodes `hs`, each once, is how `t` made room for a key in `t'`, where `said` was reported. -/
structure Expands (t : Tree w) (key : Words) (hs : List Handle) (t' : Tree w) (said : Journal) : Prop where
  allocated : t'.pool.allocated = t.pool.allocated + demand t.height hs
  height : t'.height = if hs.length < t.height then t.height else t.height + 1
  splits : ∃ qs, qs.length = hs.length ∧ qs.Nodup ∧ (∀ q ∈ qs, ¬t.Linked q) ∧
    said.splits = splitEvents (t.pairs / 2) 1 hs qs
  words : ∀ h n, t.Linked h → (∀ d, ¬t.Path key d h) → t.pool.block h = .ok n →
    t'.Linked h ∧ ∃ n', t'.pool.block h = .ok n' ∧ n'.words = n.words

/-- An insertion of `k` that has to split `hs` does so if the blocks for it are left, and else it reports the limit. -/
structure Meets (t : Tree w) (k : Key w) (v : Value) (hs : List Handle) : Prop where
  enough : ∀ out, t.pool.outstanding = .ok out → out + demand t.height hs < 2 ^ 32 →
    (∀ limit, t.pool.limit = some limit → out + demand t.height hs ≤ limit) →
    ∃ t' said, (∀ j, Tree.insert k v t j = .ok ((.ok (), t'), j ++ said)) ∧ t.Expands k.toWords hs t' said
  short : ∀ out limit, t.pool.outstanding = .ok out → t.pool.limit = some limit → limit < 2 ^ 32 →
    limit < out + demand t.height hs → ∃ t', Runs (Tree.insert k v) t (.error (.outOfMemory limit)) t'

/-- Calls other than insertions take no block. -/
structure Frugal (t : Tree w) : Prop where
  calls : ∀ (call : Call w) answer t', (∀ k v, call ≠ .insert k v) → Ends call.run t answer t' →
    t'.pool.allocated = t.pool.allocated
  drain : ∀ order seen t', Ends (Tree.drain order) t seen t' → t'.pool.allocated = t.pool.allocated

theorem Fill.unique {t : Tree w} {h : Handle} {fill fill' : Nat} (hf : t.Fill h fill) (hf' : t.Fill h fill') :
    fill' = fill := by
  obtain ⟨n, hn, hfill⟩ := hf
  obtain ⟨n', hn', hfill'⟩ := hf'
  rw [hn] at hn'
  cases hn'
  rw [hfill] at hfill'
  exact (Except.ok.inj hfill').symm

end Tree

/-! ### Crowded paths -/

section Trees
variable {w : Width} {t t' : Tree w} {c : Rows} {r : Handle} {k : Key w} {v : Value} {m : Nat}
    {hs : List Handle} {row : Row}

/-- The full nodes on the path of a key are those that changes for it come by last. -/
theorem Rooted.crowded_iff (hr : Rooted t c r) (hm : m ≤ t.height) :
    t.Crowded k.toWords m hs ↔ hs = c.crowd t.pairs k.val r m := by
  induction m generalizing hs with
  | zero =>
    constructor
    · intro hc
      cases hc
      rfl
    · rintro rfl
      exact .top
  | succ m ih =>
    have hd : m ≤ t.height - 1 := Nat.le_pred_of_lt hm
    obtain ⟨h, hland⟩ := hr.sound.exists_land k.val hd
    have hh := mem_level_of_land hland
    have hpath : t.Path k.toWords m h := (hr.path_iff k.isLt).mpr ⟨hd, hland⟩
    -- a path has one node on the level, and that node is full or has room: each constructor fits one of these
    have honly : ∀ {h'}, t.Path k.toWords m h' → h' = h := fun hp => by
      have := ((hr.path_iff k.isLt).mp hp).2
      rw [hland] at this
      exact (Option.some.inj this).symm
    have hfill := hr.fill hd hh
    by_cases hfull : c.count h = t.pairs
    · rw [crowd_of_full hland hfull]
      constructor
      · intro hc
        cases hc with
        | room hp hf hlt =>
          obtain rfl := honly hp
          rw [hfill.unique hf, hfull] at hlt
          exact absurd hlt (Nat.lt_irrefl _)
        | full hp _ hrest =>
          obtain rfl := honly hp
          rw [(ih (Nat.le_of_succ_le hm)).mp hrest]
      · rintro rfl
        exact .full hpath (hfull ▸ hfill) ((ih (Nat.le_of_succ_le hm)).mpr rfl)
    · rw [crowd_of_room hland hfull]
      constructor
      · intro hc
        cases hc with
        | room => rfl
        | full hp hf _ =>
          obtain rfl := honly hp
          exact absurd (hf.unique hfill) hfull
      · rintro rfl
        obtain ⟨n, -, hpacks⟩ := hr.stand.stock.node (hr.live_level hd hh)
        exact .room hpath hfill (Nat.lt_of_le_of_ne hpacks.length_le hfull)

theorem Whole.exists_crowded (hw : Whole t row) (k : Key w) : ∃ hs, t.Crowded k.toWords t.height hs := by
  rcases hw.state with ⟨hb, -⟩ | ⟨c, r, hr, -⟩
  · rw [hb.height]
    exact ⟨[], .top⟩
  · exact ⟨_, (hr.crowded_iff (Nat.le_refl _)).mpr rfl⟩

theorem Whole.crowded_unique {hs' : List Handle} (hw : Whole t row) (hc : t.Crowded k.toWords t.height hs)
    (hc' : t.Crowded k.toWords t.height hs') : hs' = hs := by
  rcases hw.state with ⟨hb, -⟩ | ⟨c, r, hr, -⟩
  · rw [hb.height] at hc hc'
    cases hc
    cases hc'
    rfl
  · rw [(hr.crowded_iff (Nat.le_refl _)).mp hc, (hr.crowded_iff (Nat.le_refl _)).mp hc']

theorem Whole.lacks_iff (hw : Whole t row) : t.Lacks k ↔ ∀ e ∈ row, e.1 ≠ k.val := by
  constructor
  · rintro hlacks e he hek
    obtain ⟨h, i, hleaf, huses, -⟩ := hw.mem_iff.mp he
    rw [hek] at huses
    exact hlacks h i _ hleaf huses
  · intro hnew h i value hleaf huses
    obtain ⟨e, he, hkey, -⟩ := hw.of_uses hleaf huses
    exact hnew e he (Words.ofNat_inj (Nat.lt_of_lt_of_le (hw.small he) (Key.pow_bits_le w))
      (Nat.lt_of_lt_of_le k.isLt (Key.pow_bits_le w)) hkey.symm)

/-- A lookup that finds nothing tells that the key is absent. -/
theorem Tree.Reachable.lacks {t : Tree w} {k : Key w} (ht : t.Reachable) (he : Ends (Tree.lookup k) t none t') :
    t.Lacks k := by
  obtain ⟨row, hw⟩ := ht.whole
  rcases hw.lookup k with ⟨hnew, -⟩ | ⟨_, -, _, hrun, -⟩
  · exact hw.lacks_iff.mpr hnew
  · cases (hrun.of_ends he).1

/-! ### Insertions -/

/-- An insertion puts its pair into the leaves and then counts it. -/
theorem ok_insert {x : Except Error Unit} {j j' : Journal} (h : Tree.insert k v t j = .ok ((x, t'), j')) :
    ∃ t₁ j₁, Tree.addAt (t.height + 1) k.toWords v.val 1 t j = .ok ((x, t₁), j₁) ∧ t'.pool = t₁.pool ∧
      t'.height = t₁.height ∧ Journal.splits j' = Journal.splits j₁ := by
  obtain ⟨_, _, _, hget, h₁⟩ := ok_bind h
  cases hget
  obtain ⟨result, t₁, j₁, hadd, h₂⟩ := ok_bind h₁
  obtain ⟨_, _, _, hget, h₃⟩ := ok_bind h₂
  cases hget
  obtain ⟨_, t₂, j₂, htell, h₄⟩ := ok_bind h₃
  have hsplits := (Thrifty.tellTimer t₁.hooks .insert : Thrifty Tree.pool _).unsplit _ _ _ _ _ htell
  obtain ⟨-, rfl⟩ := (Runs.tellTimer t₁.hooks .insert t₁).of_ok htell
  cases result with
  | ok =>
    obtain ⟨_, _, _, hset, h₅⟩ := ok_bind h₄
    cases hset
    cases h₅
    exact ⟨t₂, j₁, hadd, rfl, rfl, hsplits⟩
  | error =>
    cases h₄
    exact ⟨_, j₁, hadd, rfl, rfl, hsplits⟩

/-- What the insertion of an absent key asks for. -/
theorem Whole.demands {x : Except Error Unit} {j j' : Journal} (hw : Whole t row) (hle : t.pool.out ≤ t.pool.ceiling)
    (hfits : 8 * t.geometry.slotWords ≤ addressable) (hnew : ∀ e ∈ row, e.1 ≠ k.val)
    (hc : t.Crowded k.toWords t.height hs) (hrun : Tree.insert k v t j = .ok ((x, t'), j')) :
    Demands t j t.height 1 hs x t' j' := by
  obtain ⟨t₁, j₁, hadd, hpool, hheight, hsplits⟩ := ok_insert hrun
  -- what comes after the pair is put in counts it, and takes no block
  suffices hd : Demands t j t.height 1 hs x t₁ j₁ by
    cases x with
    | error => exact hd
    | ok =>
      obtain ⟨hwithin, hallocated, htall, hevents⟩ := hd
      exact ⟨hwithin, by rw [hpool, hallocated], by rw [hheight, htall], by rwa [hsplits]⟩
  rcases hw.state with ⟨hb, -⟩ | ⟨c, r, hr, hperm⟩
  · have hbare := hb.height
    rw [hbare] at hc
    cases hc
    have hdemand := above_demand hb.stock hfits hle (by rw [hbare]; exact Nat.one_pos) (by
      rcases hb.above hw.pairs hfits k.isLt v.property with ⟨_, hnone, -⟩ | ⟨_, _, _, _, hlevel, hplace, -⟩
      · exact Or.inl ⟨_, hnone⟩
      · exact Or.inr ⟨_, _, hlevel, hplace⟩) hadd
    rwa [hbare]
  · obtain ⟨d, hd⟩ := hr.exists_height
    rw [(hr.crowded_iff (Nat.le_refl _)).mp hc, hd]
    rw [show t.height - 1 = d by omega] at hperm
    have hst : Stand t c r (d + 1) fun _ => False := hd ▸ hr.stand
    obtain ⟨h, hland⟩ := (hst.sound d rfl).exists_land k.val (Nat.le_refl d)
    refine addAt_demand (links_addAt w d) (asks_addAt w d) hst hr.coherent (by omega) k.isLt v.property
      (fun h1 => absurd h1 (Nat.lt_irrefl 1)) hland (fun e he => ?_) hfits hw.pairs hle (hd ▸ hadd)
    exact hnew e (hperm.mem_iff.mpr (mem_pairs.mpr ⟨h, mem_level_of_land hland, he⟩))

/-- Off the path of its key an insertion changes no words. -/
theorem Rooted.words_kept (hr : Rooted t c r) (hp : 2 ≤ t.pairs) (hf : 8 * t.geometry.slotWords ≤ addressable)
    (hw' : Whole t' row) {h : Handle} {n : Node} (he : Ends (Tree.insert k v) t (.ok ()) t') (hh : t.Linked h)
    (hoff : ∀ d, ¬t.Path k.toWords d h) (hn : t.pool.block h = .ok n) :
    t'.Linked h ∧ ∃ n', t'.pool.block h = .ok n' ∧ n'.words = n.words := by
  obtain ⟨d, hd⟩ := hr.exists_height
  obtain ⟨i, hi⟩ := hh
  obtain ⟨hi, hhi⟩ := hr.has_iff.mp hi
  have hlive := hr.live_level hi hhi
  rcases hr.addAt hd hp hf k.isLt v.property with ⟨-, hrun⟩ | ⟨-, ⟨_, _, _, hrun, -⟩ | ⟨t₁, c', r', d', hrun, hins⟩⟩
  · cases ((Runs.insert hrun).of_ends he).1
  · cases ((Runs.insert hrun).of_ends he).1
  · obtain ⟨-, rfl⟩ := (Runs.insert hrun).of_ends he
    have hlive' := hins.lives h hlive
    have hrow : c' h = c h := hins.missed h hlive fun m hm hland =>
      hoff m ((hr.path_iff k.isLt).mpr ⟨by omega, hland⟩)
    obtain ⟨n', hn', hpacks'⟩ := hins.stand.stock.node hlive'
    have hpacks := hr.stand.stock.packs h n hn hlive
    rw [hrow, hins.alike.geometry] at hpacks'
    exact ⟨hw'.linked_iff.mpr hlive', n', hn', hpacks.lays.words_unique hpacks'.lays⟩

theorem Whole.expands {said : Journal} (hw : Whole t row) (hle : t.pool.out ≤ t.pool.ceiling)
    (hfits : 8 * t.geometry.slotWords ≤ addressable) (hnew : ∀ e ∈ row, e.1 ≠ k.val)
    (hc : t.Crowded k.toWords t.height hs) (hw' : Whole t' ((k.val, v.val) :: row))
    (hrun : ∀ j, Tree.insert k v t j = .ok ((.ok (), t'), j ++ said)) : t.Expands k.toWords hs t' said := by
  have hserved : Served t #[] t.height 1 hs t' (#[] ++ said) := hw.demands hle hfits hnew hc (hrun #[])
  obtain ⟨qs, hlength, hnodup, hfresh, hevents⟩ := hserved.splits
  refine ⟨hserved.allocated, hserved.height, ⟨qs, hlength, hnodup, fun q hq => ?_, ?_⟩, fun h n hh hoff hn => ?_⟩
  · rw [hw.linked_iff]
    exact hfresh q hq
  · rw [Journal.splits_append, List.append_cancel_left_eq] at hevents
    exact hevents
  · rcases hw.state with ⟨hb, -⟩ | ⟨c, r, hr, -⟩
    · obtain ⟨_, _, _, ha⟩ := hh
      exact absurd ha hb.not_at
    · exact hr.words_kept hw.pairs hfits hw' ⟨_, _, hrun #[]⟩ hh hoff hn

theorem Whole.meets (hw : Whole t row) (hle : t.pool.out ≤ t.pool.ceiling)
    (hfits : 8 * t.geometry.slotWords ≤ addressable)
    (hnew : ∀ e ∈ row, e.1 ≠ k.val) (hc : t.Crowded k.toWords t.height hs) (v : Value) : t.Meets k v hs := by
  have hwithin : ∀ {x t' said}, (∀ j, Tree.insert k v t j = .ok ((x, t'), j ++ said)) →
      Demands t #[] t.height 1 hs x t' (#[] ++ said) := fun hrun => hw.demands hle hfits hnew hc (hrun #[])
  have hout : ∀ {out}, t.pool.outstanding = .ok out → t.pool.out = out := fun h => by
    rw [hw.ledger.outstanding_eq] at h
    exact Except.ok.inj h
  constructor
  · intro out hoo hsmall hlimit
    obtain rfl := hout hoo
    have henough := le_ceiling.mpr ⟨hsmall, hlimit⟩
    rcases hw.insert_new v hnew with ⟨t', ⟨said, hrun⟩, hw', -⟩ | ⟨_, _, ⟨said, hrun⟩, -⟩ | ⟨hlarge, -⟩
    · exact ⟨t', said, hrun, hw.expands hle hfits hnew hc hw' hrun⟩
    · obtain ⟨-, hmore⟩ := hwithin hrun
      exact absurd henough (Nat.not_le.mpr hmore)
    · exact absurd hfits hlarge
  · intro out limit hoo hlimit hsmall hmore
    obtain rfl := hout hoo
    have hceiling : t.pool.ceiling = limit := by
      rw [Pool.ceiling, hlimit]
      exact Nat.min_eq_left (Nat.le_pred_of_lt hsmall)
    rcases hw.insert_new v hnew with ⟨t', ⟨said, hrun⟩, -⟩ | ⟨_, t', ⟨said, hrun⟩, -⟩ | ⟨hlarge, -⟩
    · have hserved : Served t #[] t.height 1 hs t' (#[] ++ said) := hwithin hrun
      exact absurd hserved.within (by rw [hceiling]; exact Nat.not_le.mpr hmore)
    · obtain ⟨heq, -⟩ := hwithin hrun
      rw [heq, hceiling] at hrun
      exact ⟨t', said, hrun⟩
    · exact absurd hfits hlarge

/-! ### Other operations -/

theorem Thrifty.allocated {α : Type} {m : TreeM w α} {a : α} (h : Thrifty Tree.pool m) (he : Ends m t a t') :
    t'.pool.allocated = t.pool.allocated := by
  obtain ⟨j, j', hok⟩ := he
  obtain ⟨⟨_, hback⟩, -⟩ := h _ _ _ _ _ hok
  exact hback.allocated

theorem Tree.frugal (t : Tree w) : t.Frugal where
  calls call answer t' hcall he := by
    refine Thrifty.allocated ?_ he
    cases call with
    | insert key value => exact absurd rfl (hcall key value)
    | update key value => exact .bind (.replace key value) fun _ => .pure _
    | remove key => exact .bind (.remove key) fun _ => .pure _
    | lookup key => exact .bind (.lookup key) fun _ => .pure _
    | prev key => exact .bind .get fun _ => .bind (.lift _) fun _ => .pure _
    | last => exact .bind .get fun _ => .bind (.lift _) fun _ => .pure _
    | visit order => exact .bind (.visit order) fun _ => .pure _
    | pulls n => exact .bind .get fun _ => .bind (.lift _) fun _ => .pure _
  drain order _ _ he := (Thrifty.drain order).allocated he

/-- The insertion of an absent key into a reachable tree whose nodes can be made splits the full nodes on the path of
the key up to the first one with room, each once, and takes a block for each and one for a new root where one is
needed. Where they are not left, it reports the limit. No other operation takes a block. -/
theorem Tree.Reachable.meets_demand (ht : t.Reachable) (k : Key w) (v : Value) :
    (t.Lacks k → 8 * t.geometry.slotWords ≤ addressable → ∃ hs, t.Crowded k.toWords t.height hs ∧
      (∀ hs', t.Crowded k.toWords t.height hs' → hs' = hs) ∧ t.Meets k v hs) ∧ t.Frugal := by
  obtain ⟨row, hw⟩ := ht.whole
  refine ⟨fun hlacks hfits => ?_, t.frugal⟩
  obtain ⟨hs, hc⟩ := hw.exists_crowded k
  exact ⟨hs, hc, fun _ => hw.crowded_unique hc, hw.meets ht.out_le_ceiling hfits (hw.lacks_iff.mp hlacks) hc v⟩

end Trees

/-! ### Demands of some trees -/

/-- The worn tree has a block to spare for the key 2, which splits one leaf. The cramped tree has one block to spare,
and the key 10 would take three. -/
theorem meets_demand_of_worn : Tree.worn.Reachable ∧ Tree.worn.Lacks 2 ∧ Tree.cramped.Reachable ∧
    Tree.cramped.Lacks 10 ∧
    (∃ hs, Tree.worn.Crowded (Key.toWords (2 : Key .bits64)) 3 hs ∧ demand 3 hs = 1 ∧ Tree.worn.Meets 2 .one hs) ∧
    (∃ hs, Tree.cramped.Crowded (Key.toWords (10 : Key .bits64)) 2 hs ∧ 1 < demand 2 hs ∧
      Tree.cramped.Meets 10 .one hs) ∧ Tree.worn.Frugal ∧ Tree.cramped.Frugal := by
  have hlacks : Tree.worn.Lacks 2 := Tree.worn_reachable.lacks (Ends.after (by decide +kernel))
  have hlacks' : Tree.cramped.Lacks 10 := Tree.cramped_reachable.lacks (Ends.after (by decide +kernel))
  obtain ⟨hmeets, hfrugal⟩ := Tree.worn_reachable.meets_demand 2 .one
  obtain ⟨hmeets', hfrugal'⟩ := Tree.cramped_reachable.meets_demand 10 .one
  obtain ⟨hs, hc, -, hm⟩ := hmeets hlacks (by decide +kernel)
  obtain ⟨hs', hc', -, hm'⟩ := hmeets' hlacks' (by decide +kernel)
  have hheight : Tree.worn.height = 3 := by decide +kernel
  have hheight' : Tree.cramped.height = 2 := by decide +kernel
  rw [hheight] at hc
  rw [hheight'] at hc'
  refine ⟨Tree.worn_reachable, hlacks, Tree.cramped_reachable, hlacks', ⟨hs, hc, ?_, hm⟩, ⟨hs', hc', ?_, hm'⟩, hfrugal,
    hfrugal'⟩
  · have hle := demand_le 3 hs
    obtain ⟨t', said, hrun, hex⟩ := hm.enough 6 (by decide +kernel) (by rw [hheight]; omega) fun limit hlimit => by
      have hnone : Tree.worn.pool.limit = none := by decide +kernel
      rw [hnone] at hlimit
      cases hlimit
    have he : Ends (Tree.insert 2 .one) Tree.worn (.ok ()) _ := Ends.after (by decide +kernel)
    obtain ⟨-, rfl⟩ := Runs.of_ends ⟨said, hrun⟩ he
    have hallocated := hex.allocated
    rw [show (Tree.worn.after (Tree.insert 2 .one)).pool.allocated = 7 by decide +kernel,
      show Tree.worn.pool.allocated = 6 by decide +kernel, hheight] at hallocated
    omega
  · by_contra hfew
    obtain ⟨t', said, hrun, -⟩ := hm'.enough 3 (by decide +kernel) (by rw [hheight']; omega) fun limit hlimit => by
      have hfour : Tree.cramped.pool.limit = some 4 := by decide +kernel
      rw [hfour, Option.some.injEq] at hlimit
      rw [hheight']
      omega
    have he : Ends (Tree.insert 10 .one) Tree.cramped (.error (.outOfMemory 4)) _ := Ends.after (by decide +kernel)
    cases (Runs.of_ends ⟨said, hrun⟩ he).1

/-- Where nodes cannot be made, an insertion asks for one block, and nothing limits the blocks, but it does not end. -/
theorem large_nodes_meet_no_demand : ∃ t : Tree .bits64,
    Tree.ofConfig { pairs := some 2305843009213693952 } = .ok (.ok t) ∧ t.Reachable ∧ t.Lacks 0 ∧
    t.Crowded (Key.toWords (0 : Key .bits64)) t.height [] ∧ demand t.height [] = 1 ∧ t.pool.outstanding = .ok 0 ∧
    t.pool.limit = none ∧ t.pool.blocks.size = 0 ∧ Faults (Tree.insert 0 .one) t .tooLarge ∧ ¬t.Meets 0 .one [] := by
  obtain ⟨t, hconfig, hlimit, hheight, hout, hsize, hlarge⟩ : ∃ t : Tree .bits64,
      Tree.ofConfig { pairs := some 2305843009213693952 } = .ok (.ok t) ∧ t.pool.limit = none ∧ t.height = 0 ∧
      t.pool.outstanding = .ok 0 ∧ t.pool.blocks.size = 0 ∧ ¬8 * t.geometry.slotWords ≤ addressable :=
    ⟨_, rfl, rfl, rfl, rfl, rfl, by decide⟩
  have hw := Whole.ofConfig hconfig
  have hfault := hw.insert_large hlarge (by rw [hlimit]; decide) 0 .one
  refine ⟨t, hconfig, .ofConfig hconfig, hw.lacks_iff.mpr fun _ he => (by cases he), ?_, ?_, hout,
    hlimit, hsize, hfault, fun hm => ?_⟩
  · rw [hheight]
    exact .top
  · rw [hheight]
    rfl
  · obtain ⟨t', said, hrun, -⟩ := hm.enough 0 hout (by rw [hheight]; decide) fun limit hsome => by
      rw [hlimit] at hsome
      cases hsome
    exact hfault.not_runs ⟨said, hrun⟩

end MemoTree
