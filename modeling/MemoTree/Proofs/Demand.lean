import MemoTree.Proofs.Limits

/-! # What an insertion asks for

A pair that is put into a level splits the full nodes that it comes by last, from its node up to the first one with
room (`Rows.crowd`). Each split asks for one block, and if there is no node with room, one more is asked for: the new
root. All blocks are asked for on the way up, before any is given back; so they are handed out if so many are left,
and otherwise the ceiling is reached. The induction is that of the insertion itself. -/

namespace MemoTree
open Pool NodePool Rows

namespace Rows
variable {c c' : Rows} {pairs x y : Nat} {r h : Handle} {m : Nat}

/-- The full nodes that changes for `x` come by last on the first `m` levels, from the lowest level up. -/
def crowd (c : Rows) (pairs x : Nat) (r : Handle) : Nat → List Handle
  | 0 => []
  | m + 1 =>
    match c.land x r m with
    | some h => if c.count h = pairs then h :: crowd c pairs x r m else []
    | none => []

theorem crowd_of_full (hh : c.land x r m = some h) (hfull : c.count h = pairs) :
    c.crowd pairs x r (m + 1) = h :: c.crowd pairs x r m := by
  rw [crowd, hh]
  exact if_pos hfull

theorem crowd_of_room (hh : c.land x r m = some h) (hroom : c.count h ≠ pairs) : c.crowd pairs x r (m + 1) = [] := by
  rw [crowd, hh]
  exact if_neg hroom

/-- The crowd depends on where changes land and on how many pairs there are. -/
theorem crowd_congr (hl : ∀ i < m, c'.land y r i = c.land x r i)
    (hc : ∀ i < m, ∀ h, c.land x r i = some h → c'.count h = c.count h) :
    c'.crowd pairs y r m = c.crowd pairs x r m := by
  induction m with
  | zero => rfl
  | succ m ih =>
    have htail := ih (fun i hi => hl i (Nat.lt_succ_of_lt hi)) fun i hi => hc i (Nat.lt_succ_of_lt hi)
    rw [crowd, crowd, hl m (Nat.lt_succ_self m), htail]
    cases hh : c.land x r m with
    | none => rfl
    | some h => simp only [hc m (Nat.lt_succ_self m) h hh]

end Rows

/-- How many blocks are asked for if the nodes `hs` are split, on levels below `m` others. -/
def demand (m : Nat) (hs : List Handle) : Nat := if hs.length < m then hs.length else m + 1

theorem demand_cons (m : Nat) (h : Handle) (hs : List Handle) : demand (m + 1) (h :: hs) = demand m hs + 1 := by
  rw [demand, demand, List.length_cons]
  split <;> split <;> omega

theorem demand_le (m : Nat) (hs : List Handle) : demand m hs ≤ m + 1 := by
  rw [demand]
  split <;> omega

theorem demand_nil (m : Nat) : demand (m + 1) [] = 0 := if_pos (Nat.succ_pos m)

/-- What is reported when the nodes `hs` are split from `level` on and `qs` are their new siblings: a node is split
after the one above it. -/
def splitEvents (half : Nat) : (level : Nat) → (hs qs : List Handle) → List Event
  | level, h :: hs, q :: qs => splitEvents half (level + 1) hs qs ++ [.split level h q half]
  | _, _, _ => []

/-- From `t` on, the nodes `hs` were split, and a level was added if all were full. -/
structure Served {w : Width} (t : Tree w) (j : Journal) (m level : Nat) (hs : List Handle)
    (t' : Tree w) (j' : Journal) : Prop where
  within : t.pool.out + demand m hs ≤ t.pool.ceiling
  allocated : t'.pool.allocated = t.pool.allocated + demand m hs
  height : t'.height = if hs.length < m then t.height else t.height + 1
  splits : ∃ qs, qs.length = hs.length ∧ qs.Nodup ∧ (∀ q ∈ qs, ¬t.pool.Live q) ∧
    Journal.splits j' = Journal.splits j ++ splitEvents (t.pairs / 2) level hs qs

/-- What is handed out is what is asked for, or more is asked for than is left. -/
def Demands {w : Width} (t : Tree w) (j : Journal) (m level : Nat) (hs : List Handle) :
    Except Error Unit → Tree w → Journal → Prop
  | .ok (), t', j' => Served t j m level hs t' j'
  | .error e, _, _ => e = .outOfMemory t.pool.ceiling ∧ t.pool.ceiling < t.pool.out + demand m hs

/-- Linking a new node into the level above asks for what the full nodes above ask for. -/
def Asks (w : Width) (link : Words → Word → Nat → TreeM w (Except Error Unit)) (m : Nat) : Prop :=
  ∀ {t : Tree w} {c : Rows} {r : Handle} {rest : Handle → Prop} {h : Handle} {k : Nat} (q : Handle),
    Linking t c r m rest h k → q ∉ c.level r m → 8 * t.geometry.slotWords ≤ addressable → 2 ≤ t.pairs →
    t.pool.out ≤ t.pool.ceiling → ∀ {j : Journal} {x : Except Error Unit} {t' : Tree w} {j' : Journal},
    link (Words.ofNat w.words k) q.word (t.height - m + 1) t j = .ok ((x, t'), j') →
    Demands t j m (t.height - m + 1) (c.crowd t.pairs k r m) x t' j'

section Served
variable {w : Width} {t t' : Tree w} {m level : Nat} {hs back : List Handle} {h q : Handle} {p p' : NodePool}
    {j j' j₁ j₂ : Journal}

/-- What was split above a node is split with it, if its sibling `q` was handed out before and half of its pairs were
moved there after. -/
theorem Served.cons (hserved : Served ({ t with pool := p } : Tree w) j₁ m (level + 1) hs t' j₂)
    (hhands : Hands t.pool p q) (hallocated : p.allocated = t.pool.allocated + 1) (hback : Regains t'.pool p' back)
    (hbefore : Journal.splits j₁ = Journal.splits j)
    (hafter : Journal.splits j' = Journal.splits j₂ ++ [.split level h q (t.pairs / 2)]) :
    Served t j (m + 1) level (h :: hs) ({ t' with pool := p' } : Tree w) j' := by
  obtain ⟨qs, hlength, hnodup, hnew, hsplits⟩ := hserved.splits
  have hwithin : p.out + demand m hs ≤ p.ceiling := hserved.within
  have hcount : t'.pool.allocated = p.allocated + demand m hs := hserved.allocated
  have hout := hhands.out
  have hceiling : p.ceiling = t.pool.ceiling := ceiling_congr hhands.limit
  refine ⟨?_, ?_, ?_, q :: qs, congrArg (· + 1) hlength, List.nodup_cons.mpr ⟨fun hmem => ?_, hnodup⟩,
    fun i hi => ?_, ?_⟩
  · rw [demand_cons]
    omega
  · have hkept : p'.allocated = t'.pool.allocated := hback.allocated
    rw [demand_cons]
    change p'.allocated = _
    omega
  · change t'.height = _
    rw [hserved.height, List.length_cons]
    simp only [Nat.add_lt_add_iff_right]
  · exact hnew q hmem ((hhands.live q).mpr (Or.inr rfl))
  · rcases List.mem_cons.mp hi with rfl | hi
    · exact hhands.unused
    · exact fun hlive => hnew i hi ((hhands.live i).mpr (Or.inl hlive))
  · rw [hafter, hsplits, hbefore, List.append_assoc]
    rfl

/-- What was split is split if words were written before and after. -/
theorem Served.of_edits (hserved : Served ({ t with pool := p } : Tree w) j₁ m level hs t' j₂) (hedits : Edits t.pool p)
    (hallocated : p.allocated = t.pool.allocated) (hback : Regains t'.pool p' back)
    (hbefore : Journal.splits j₁ = Journal.splits j) (hafter : Journal.splits j' = Journal.splits j₂) :
    Served t j m level hs ({ t' with pool := p' } : Tree w) j' := by
  obtain ⟨qs, hlength, hnodup, hnew, hsplits⟩ := hserved.splits
  have hwithin : p.out + demand m hs ≤ p.ceiling := hserved.within
  have hcount : t'.pool.allocated = p.allocated + demand m hs := hserved.allocated
  have hkept : p'.allocated = t'.pool.allocated := hback.allocated
  have hout : p.out = t.pool.out := hedits.out
  have hceiling : p.ceiling = t.pool.ceiling := ceiling_congr hedits.fades.limit
  refine ⟨by omega, ?_, hserved.height, qs, hlength, hnodup, fun q hq hlive =>
    hnew q hq ((hedits.live q).mpr hlive), ?_⟩
  · change p'.allocated = _
    omega
  · rw [hafter, hsplits, hbefore]

/-- Where nothing is split, nothing is asked for. -/
theorem Served.nil (hle : t.pool.out ≤ t.pool.ceiling) (hback : Regains t.pool p' back)
    (hsplits : Journal.splits j' = Journal.splits j) :
    Served t j (m + 1) level [] ({ t with pool := p' } : Tree w) j' where
  within := by rwa [demand_nil]
  allocated := by
    rw [demand_nil]
    exact hback.allocated
  height := (if_pos (Nat.succ_pos m)).symm
  splits := ⟨[], rfl, List.nodup_nil, fun _ hq => (by cases hq), hsplits.trans (List.append_nil _).symm⟩

end Served

/-! ### Allocations -/

section Allocations
variable {g : Geometry} {p p' : NodePool} {c : Rows} {answer : Except Error Handle} {j j' : Journal}

/-- An allocation reports no split. -/
theorem unsplit_allocate : Unsplit (Pool.allocate : NodeM (Except Error Handle)) :=
  Silent.allocate fun j _ => by
    rw [Journal.splits_push]
    exact List.append_nil _

/-- A block is handed out as long as there are fewer out than can be. -/
theorem Stock.allocate_of_ceiling (hs : Stock g p c) (hfits : 8 * g.slotWords ≤ addressable) (hle : p.out ≤ p.ceiling)
    (he : Ends Pool.allocate p answer p') :
    (answer = .error (.outOfMemory p.ceiling) ∧ p.out = p.ceiling) ∨
    ∃ q, answer = .ok q ∧ p.out < p.ceiling ∧ p'.allocated = p.allocated + 1 ∧ Hands p p' q ∧
      Stock g p' (Function.update c q []) := by
  rcases hs.allocate hfits with ⟨inUse, hrun, rfl, hex⟩ | ⟨q, p₁, hrun, hhands, hs₁⟩
  · obtain ⟨rfl, -⟩ := hrun.of_ends he
    have heq : p.out = p.ceiling := hle.antisymm <| by
      rcases hex with ⟨limit, hlimit, hex⟩ | hmax
      · exact ((le_ceiling.mp (Nat.le_refl _)).2 limit hlimit).trans hex
      · rw [hmax]
        exact Nat.le_pred_of_lt (le_ceiling.mp (Nat.le_refl _)).1
    exact Or.inl ⟨by rw [heq], heq⟩
  · obtain ⟨rfl, rfl⟩ := hrun.of_ends he
    refine Or.inr ⟨q, rfl, le_ceiling.mpr ⟨?_, fun limit hlimit => ?_⟩, (hs.lends hrun).allocated, hhands, hs₁⟩
    · have hsmall := hs₁.ledger.small
      rw [Nat.succ_eq_add_one, ← hhands.out, Pool.out]
      omega
    · rcases he.allocate hs.ledger.nodup hs.ledger.outstanding_eq with ⟨herror, -⟩ | ⟨_, -, hspare, -⟩
      · cases herror
      · rw [atLimit, hlimit, decide_eq_false_iff_not] at hspare
        exact Nat.lt_of_not_le hspare

end Allocations

/-! ### Steps of an insertion -/

section Steps
variable {w : Width} {t t' : Tree w} {c : Rows} {x : Except Error Unit} {j j' : Journal} {key : Words}
    {v : Word} {level : Nat}

theorem Ends.nodeAt {h : Handle} (he : Ends (Tree.nodeAt key level) t h t') : ∃ p, t' = { t with pool := p } := by
  have he₁ := he.bind_get
  split at he₁
  · obtain ⟨p, -, rfl⟩ := he₁.bind_get.bind_get.onNodes
    exact ⟨p, rfl⟩
  · exact absurd he₁ Ends.throw

theorem Ends.tryPlace {a : Tree.Attempt} (he : Ends (Tree.tryPlace key v level) t a t') :
    ∃ p, t' = { t with pool := p } := by
  obtain ⟨node, t₁, hnode, he₁⟩ := he.bind
  obtain ⟨p₁, rfl⟩ := hnode.nodeAt
  obtain ⟨p, -, rfl⟩ := he₁.bind_get.onNodes
  exact ⟨p, rfl⟩

/-- Adding a level asks for one block. -/
theorem Stock.addLevel (hs : Stock t.geometry t.pool c) (hfits : 8 * t.geometry.slotWords ≤ addressable)
    (hle : t.pool.out ≤ t.pool.ceiling) (h : Tree.addLevel t j = .ok ((x, t'), j')) :
    (x = .error (.outOfMemory t.pool.ceiling) ∧ t.pool.out = t.pool.ceiling) ∨
    x = .ok () ∧ t.pool.out < t.pool.ceiling ∧ t'.pool.allocated = t.pool.allocated + 1 ∧ t'.height = t.height + 1 ∧
      Journal.splits j' = Journal.splits j := by
  have he : Ends Tree.addLevel t x t' := ⟨j, j', h⟩
  obtain ⟨answer, t₁, hasked, he₁⟩ := he.bind
  obtain ⟨p, halloc, rfl⟩ := hasked.onNodes
  rcases hs.allocate_of_ceiling hfits hle halloc with ⟨rfl, hout⟩ | ⟨q, rfl, hlt, -⟩
  · obtain ⟨rfl, -⟩ := he₁.pure
    exact Or.inl ⟨rfl, hout⟩
  right
  have hgrown : x = .ok () ∧ t'.height = t.height + 1 := by
    have hfinish : ∀ {t₂ : Tree w}, t₂.height = t.height → Ends (do
        modify fun t : Tree w => { t with root := some q, height := t.height + 1 }
        emit (.grew (← get).height)
        return .ok () : TreeM w (Except Error Unit)) t₂ x t' → x = .ok () ∧ t'.height = t.height + 1 := fun hh he => by
      obtain ⟨_, _, hmodify, he⟩ := he.bind
      obtain rfl := hmodify.modify
      obtain ⟨_, _, hreport, he⟩ := he.bind_get.bind
      obtain rfl := hreport.report
      obtain ⟨rfl, rfl⟩ := he.pure
      exact ⟨rfl, congrArg (· + 1) hh⟩
    have he₂ := he₁.bind_get
    dsimp only at he₂
    split at he₂
    · obtain ⟨_, _, hnodes, he₃⟩ := he₂.bind_get.bind
      obtain ⟨_, -, rfl⟩ := hnodes.onNodes
      exact hfinish (by rfl) he₃
    · exact hfinish (by rfl) he₂
  obtain ⟨rest, heq, hrest⟩ := Thrifty.addLevel (w := w)
  rw [heq] at h
  obtain ⟨answer, _, j₁, hasked, h⟩ := ok_bind h
  obtain ⟨p, halloc, rfl⟩ := ok_onNodes hasked
  obtain ⟨⟨_, hback⟩, hsplits⟩ := hrest answer _ _ _ _ _ h
  rcases hs.allocate_of_ceiling hfits hle ⟨_, _, halloc⟩ with ⟨-, hout⟩ | ⟨-, -, -, hallocated, -⟩
  · omega
  · exact ⟨hgrown.1, hlt, hback.allocated.trans hallocated, hgrown.2, hsplits.trans (unsplit_allocate _ _ _ _ _ halloc)⟩

end Steps

section Splits
variable {w : Width} {t t' : Tree w} {c : Rows} {r h : Handle} {d level rungs k y : Nat} {v : Word}
    {rest : Handle → Prop}
  {link : Words → Word → Nat → TreeM w (Except Error Unit)} {x : Except Error Unit} {j j' : Journal}

/-- The separator of a new node comes by the nodes that a key comes by. -/
theorem Stand.crowd_separator {q : Handle} {e : Pair} (hst : Stand t c r (d + 1) rest) (hq : ¬t.pool.Live q)
    (hland : c.land y r d = some h) (he : e ∈ c h) (pairs : Nat) :
    Rows.crowd (Function.update c q []) pairs e.1 r d = c.crowd pairs y r d := by
  have hsound := hst.sound d rfl
  have hkept : ∀ i ≤ d, ∀ p ∈ c.level r i, Function.update c q [] p = c p := fun i hi p hp =>
    hst.update_level hq [] (by omega) hp
  have hsep := land_of_route (hsound.routed d (Nat.le_refl d) h (mem_level_of_land hland) e he)
  refine crowd_congr (fun i hi => ?_) fun i hi p hp =>
    congrArg List.length (hkept i (by omega) p (mem_level_of_land hp))
  rw [land_congr fun m hm p hp => hkept m (by omega) p hp, hsound.land_unique (Nat.le_refl d) hsep hland (by omega)]

theorem Stand.not_mem_level {q : Handle} (hst : Stand t c r (d + 1) rest) (hq : ¬t.pool.Live q) :
    q ∉ Rows.level (Function.update c q []) r d := by
  rw [level_congr fun i hi p hp => hst.update_level hq [] (by omega) hp]
  exact fun hmem => hq (hst.live_of_level (Nat.lt_succ_self d) hmem)

/-- Splitting a node asks for a block, and for what linking its sibling asks for. -/
theorem split_demand (hasks : Asks w link d) (hst : Stand t c r (d + 1) rest) (hc : Coherent w t.pool c [])
    (hlevel : level + d = t.height) (hland : c.land y r d = some h) (hfull : (c h).length = t.pairs)
    (hfits : 8 * t.geometry.slotWords ≤ addressable) (hpairs : 2 ≤ t.pairs) (hle : t.pool.out ≤ t.pool.ceiling)
    (hrun : Tree.split link h level t j = .ok ((x, t'), j')) :
    Demands t j (d + 1) level (h :: c.crowd t.pairs y r d) x t' j' := by
  have hh := mem_level_of_land hland
  obtain ⟨A, B, e, hcut, -, he⟩ := Cut.exists_length ((hst.sound d rfl).descending_level (Nat.le_refl d) hh)
    (n := t.pairs / 2) (by omega) (by omega)
  obtain ⟨_, _, _, hget, hrun⟩ := ok_bind hrun
  cases hget
  obtain ⟨answer, _, j₁, hasked, hrun⟩ := ok_bind hrun
  obtain ⟨p₁, halloc, rfl⟩ := ok_onNodes hasked
  have hsplits := unsplit_allocate _ _ _ _ _ halloc
  rcases hst.stock.allocate_of_ceiling hfits hle ⟨_, _, halloc⟩ with
    ⟨rfl, hout⟩ | ⟨q, rfl, hlt, hallocated, hhands, hs₁⟩
  · cases hrun
    refine ⟨rfl, ?_⟩
    rw [demand_cons]
    omega
  have hhlive := hst.live_of_level (Nat.lt_succ_self d) hh
  have hhq : h ≠ q := fun hhq => hhands.unused (hhq ▸ hhlive)
  have hlinking := linking hst hc hh hfull hcut hhands hs₁
  have hceiling : p₁.ceiling = t.pool.ceiling := ceiling_congr hhands.limit
  obtain ⟨n, hn, hpacks⟩ := hs₁.node ((hhands.live h).mpr (Or.inl hhlive))
  rw [Function.update_of_ne hhq] at hpacks
  have hkey : n.key t.geometry (t.pairs / 2 - 1) = .ok (Words.ofNat t.geometry.keyLength e.1) := hpacks.key_eq he
  have hhalf : ¬t.geometry.pairs / 2 = 0 := by
    have : t.geometry.pairs = t.pairs := rfl
    omega
  dsimp only at hrun
  rw [if_neg hhalf] at hrun
  obtain ⟨separator, _, j₂, hasked, hrun⟩ := ok_bind hrun
  obtain ⟨p, hread, rfl⟩ := ok_onNodes hasked
  have hsplits₂ := (Thrifty.bind (.read h) fun _ => .lift _).unsplit _ _ _ _ _ hread
  obtain ⟨rfl, rfl⟩ := (Runs.bind (Runs.read hn) (Runs.lift hkey _)).of_ok hread
  obtain ⟨linked, t₂, j₃, hlinked, hrun⟩ := ok_bind hrun
  have habove : level + 1 = ({ t with pool := p } : Tree w).height - d + 1 := by
    change level + 1 = t.height - d + 1
    omega
  rw [habove] at hlinked
  have hout := hhands.out
  have hlink := hasks q hlinking (hst.not_mem_level hhands.unused) hfits hpairs (by
    change p.out ≤ p.ceiling
    omega) hlinked
  change Demands _ _ _ _ (Rows.crowd (Function.update c q []) t.pairs e.1 r d) _ _ _ at hlink
  -- the separator goes the way of `y`, so the full nodes above are those that `y` comes by
  rw [hst.crowd_separator hhands.unused hland (List.mem_of_getElem? he), ← habove] at hlink
  cases linked with
  | error e' =>
    obtain ⟨heq, hmore⟩ := hlink
    obtain ⟨_, _, _, -, hrun⟩ := ok_bind hrun
    cases hrun
    change e' = .outOfMemory p.ceiling at heq
    change p.ceiling < p.out + _ at hmore
    refine ⟨by rw [heq, hceiling], ?_⟩
    rw [demand_cons]
    omega
  | ok =>
    obtain ⟨_, _, j₄, hmoved, hrun⟩ := ok_bind hrun
    obtain ⟨p₃, hmove, rfl⟩ := ok_onNodes hmoved
    obtain ⟨⟨_, hback⟩, hsplits₄⟩ := Thrifty.moveHalf _ level h q _ _ _ _ _ _ hmove
    cases hrun
    exact Served.cons hlink hhands hallocated hback (hsplits₂.trans hsplits) hsplits₄

/-- A new key that is put into a level asks for what the full nodes on its path ask for. -/
theorem addAt_demand (hlink : Links w (fun k v l => Tree.addAt rungs k v l) d)
    (hasks : Asks w (fun k v l => Tree.addAt rungs k v l) d) (hst : Stand t c r (d + 1) rest)
    (hc : Coherent w t.pool c []) (hlevel : level + d = t.height) (hk : k < 2 ^ w.bits) (hv : v ≠ 0)
    (hchild : 1 < level → ∃ q, Pair.child (k, v) = some q)
    (hland : c.land k r d = some h) (hnew : ∀ e ∈ c h, e.1 ≠ k) (hfits : 8 * t.geometry.slotWords ≤ addressable)
    (hpairs : 2 ≤ t.pairs) (hle : t.pool.out ≤ t.pool.ceiling)
    (hrun : Tree.addAt (rungs + 1) (Words.ofNat w.words k) v level t j = .ok ((x, t'), j')) :
    Demands t j (d + 1) level (c.crowd t.pairs k r (d + 1)) x t' j' := by
  -- the key is new, also to the nodes that the first attempt and the split leave
  have htaken : x ≠ .error .duplicateKey := by
    rcases addAt_step hlink hst hc hlevel hk hv hchild hland hnew hfits hpairs with ⟨_, _, _, htotal, -⟩ |
      ⟨_, _, _, _, htotal, -⟩
    · rw [(htotal.of_ok hrun).1]
      exact fun h => by cases h
    · rw [(htotal.of_ok hrun).1]
      exact fun h => by cases h
  have hbelow : ¬t.height < level := by omega
  rw [Tree.addAt] at hrun
  obtain ⟨_, _, _, hget, hrun⟩ := ok_bind hrun
  cases hget
  dsimp only at hrun
  rw [if_neg hbelow] at hrun
  obtain ⟨attempt, t₁, j₁, hplace, hrun⟩ := ok_bind hrun
  have hsplits := (Thrifty.tryPlace _ _ _).unsplit _ _ _ _ _ hplace
  rcases hst.tryPlace_new hc hlevel hk hv hchild hland hnew with ⟨hfull, p, c₁, htry, -, hl, -⟩ |
    ⟨hroom, p, c', htry, -⟩
  · obtain ⟨rfl, rfl⟩ := htry.of_ok hplace
    obtain ⟨result, t₂, j₂, hsplit, hrun⟩ := ok_bind hrun
    obtain ⟨⟨_, hback⟩, -⟩ := Thrifty.tryPlace _ _ _ _ _ _ _ _ hplace
    have hout : p.out = t.pool.out := hl.edits.out
    have hceiling : p.ceiling = t.pool.ceiling := ceiling_congr hl.edits.fades.limit
    have hallocated : p.allocated = t.pool.allocated := hback.allocated
    have hdemand := split_demand hasks hl.stand (hl.coherent hc) hlevel (hl.loosens.land.trans hland)
      ((congrArg List.length (hl.lowest d rfl h (mem_level_of_land hland))).trans hfull) hfits hpairs (by
        change p.out ≤ p.ceiling
        omega) hsplit
    rw [crowd_of_full hland hfull]
    change Demands _ _ _ _ (h :: c₁.crowd t.pairs k r d) _ _ _ at hdemand
    rw [crowd_congr (fun _ _ => hl.loosens.land) fun _ _ i _ => hl.loosens.count i] at hdemand
    cases result with
    | error e =>
      cases hrun
      obtain ⟨heq, hmore⟩ := hdemand
      change e = .outOfMemory p.ceiling at heq
      change p.ceiling < p.out + _ at hmore
      exact ⟨by rw [heq, hceiling], by omega⟩
    | ok =>
      obtain ⟨attempt, t₃, j₃, hplace₂, hrun⟩ := ok_bind hrun
      cases attempt with
      | taken =>
        cases hrun
        exact absurd rfl htaken
      | full => cases hrun
      | placed =>
        cases hrun
        obtain ⟨⟨_, hback₂⟩, hsplits₂⟩ := Thrifty.tryPlace _ _ _ _ _ _ _ _ hplace₂
        obtain ⟨p₃, rfl⟩ := Ends.tryPlace ⟨_, _, hplace₂⟩
        exact Served.of_edits hdemand hl.edits hallocated hback₂ hsplits hsplits₂
  · obtain ⟨rfl, rfl⟩ := htry.of_ok hplace
    cases hrun
    obtain ⟨⟨_, hback⟩, -⟩ := Thrifty.tryPlace _ _ _ _ _ _ _ _ hplace
    rw [crowd_of_room hland (Nat.ne_of_lt hroom)]
    exact Served.nil hle hback hsplits

/-- A pair that is put above the root asks for a new root. -/
theorem above_demand {key : Words} (hs : Stock t.geometry t.pool c) (hfits : 8 * t.geometry.slotWords ≤ addressable)
    (hle : t.pool.out ≤ t.pool.ceiling) (habove : t.height < level)
    (hroom : (∃ e, Runs Tree.addLevel t (.error e) t) ∨
      ∃ t₁ t₂, Runs Tree.addLevel t (.ok ()) t₁ ∧ Runs (Tree.tryPlace key v level) t₁ .placed t₂)
    (hrun : Tree.addAt (rungs + 1) key v level t j = .ok ((x, t'), j')) : Demands t j 0 level [] x t' j' := by
  have hone : demand 0 [] = 1 := rfl
  rw [Tree.addAt] at hrun
  obtain ⟨_, _, _, hget, hrun⟩ := ok_bind hrun
  cases hget
  dsimp only at hrun
  rw [if_pos habove] at hrun
  obtain ⟨result, t₁, j₁, hadd, hrun⟩ := ok_bind hrun
  rcases hs.addLevel hfits hle hadd with ⟨rfl, hout⟩ | ⟨rfl, hlt, hallocated, hheight, hsplits⟩
  · cases hrun
    refine ⟨rfl, ?_⟩
    omega
  · obtain ⟨attempt, t₂, j₂, hplace, hrun⟩ := ok_bind hrun
    rcases hroom with ⟨_, hnone⟩ | ⟨t₁', t₂', hadd', hplace'⟩
    · cases (hnone.of_ok hadd).1
    obtain rfl := (hadd'.of_ok hadd).2
    obtain ⟨rfl, rfl⟩ := hplace'.of_ok hplace
    cases hrun
    obtain ⟨⟨_, hback⟩, hsplits₂⟩ := Thrifty.tryPlace _ _ _ _ _ _ _ _ hplace
    obtain ⟨p, rfl⟩ := Ends.tryPlace ⟨_, _, hplace⟩
    have hkept : p.allocated = t₁.pool.allocated := hback.allocated
    refine ⟨by omega, ?_, hheight, [], rfl, List.nodup_nil, fun _ hq => (by cases hq), ?_⟩
    · change p.allocated = _
      omega
    · rw [hsplits₂, hsplits]
      exact (List.append_nil _).symm

/-- The separator of a new node asks for what the full nodes above ask for. -/
theorem asks_addAt (w : Width) (m : Nat) : Asks w (fun k v l => Tree.addAt (m + 1) k v l) m := by
  induction m with
  | zero =>
    intro t c r rest h k q hl hq hfits hpairs hle j x t' j' hrun
    refine above_demand hl.stand.stock hfits hle (show t.height < t.height - 0 + 1 by omega) ?_ hrun
    rcases hl.above hq hfits hpairs with ⟨_, hnone, -⟩ | ⟨_, _, _, _, _, hadd, hplace, -⟩
    · exact Or.inl ⟨_, hnone⟩
    · exact Or.inr ⟨_, _, hadd, hplace⟩
  | succ d ih =>
    intro t c r rest h k q hl hq hfits hpairs hle j x t' j' hrun
    obtain ⟨i, e, hroute, -⟩ := hl.aimed
    have hland := land_of_route hroute
    have hbelow := hl.below
    exact addAt_demand (links_addAt w d) ih hl.stand hl.coherent (show t.height - (d + 1) + 1 + d =
      t.height by omega) hl.small
      q.word_ne_zero (fun _ => ⟨q, Pair.child_word k q⟩) hland (hl.new hland) hfits hpairs hle hrun

end Splits

end MemoTree
