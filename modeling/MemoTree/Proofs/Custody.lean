import MemoTree.Proofs.Kindred
import MemoTree.Proofs.Returns
import MemoTree.Proofs.RingCoherence

/-! # Custody of nodes

The memo protocol by itself, without a tree: nodes are handed out, stored in each other's rings, looked up there, and
freed, in any order and in any graph. What was done to the blocks is kept as a list of deeds. A node is freed once for
each time it is handed out, and from then on it waits for the last memo that names it; so its block goes back once, and
no memo names a block that went back. -/

namespace MemoTree
open Pool

namespace NodePool

/-- What is done to the block of a node. -/
inductive Deed where
  | lent (h : Handle)
  | freed (h : Handle)
  | back (h : Handle)

/-- The node was handed out and was not freed since. The last deed comes first. -/
def Alive : List Deed → Handle → Prop
  | [], _ => False
  | .lent k :: past, h => h = k ∨ Alive past h
  | .freed k :: past, h => h ≠ k ∧ Alive past h
  | .back _ :: past, h => Alive past h

/-- The node was freed and was not handed out since. -/
def Freed : List Deed → Handle → Prop
  | [], _ => False
  | .lent k :: past, h => h ≠ k ∧ Freed past h
  | .freed k :: past, h => h = k ∨ Freed past h
  | .back _ :: past, h => Freed past h

/-- How often the block went back since it was handed out last. -/
def returns : List Deed → Handle → Nat
  | [], _ => 0
  | .lent k :: past, h => if h = k then 0 else returns past h
  | .freed _ :: past, h => returns past h
  | .back k :: past, h => returns past h + if h = k then 1 else 0

/-- The node was freed and its block did not go back. -/
def Waiting (past : List Deed) (h : Handle) : Prop := Freed past h ∧ returns past h = 0

/-- Calls of the protocol lead to the pool, and do `past` to its blocks. The nodes that are called on are alive, and
what is stored is alive or waits. A call gives `back` what it puts on the free list. -/
inductive Course (words : Nat) (limit : Option Nat) : List Deed → NodePool → Prop
  | start : Course words limit [] (Pool.empty words limit)
  | allocate {past p h p'} : Course words limit past p → Ends Pool.allocate p (.ok h) p' →
      Course words limit (.lent h :: past) p'
  | refused {past p e p'} : Course words limit past p → Ends Pool.allocate p (.error e) p' → Course words limit past p'
  | remember {past p parent key child p' back} : Course words limit past p → Alive past parent →
      Alive past child ∨ Waiting past child → Ends (remember parent key child) p () p' → p'.free = back ++ p.free →
      Course words limit (back.map .back ++ past) p'
  | remembered {past p node key answer p' back} : Course words limit past p → Alive past node →
      Ends (remembered node key) p answer p' → p'.free = back ++ p.free → Course words limit (back.map .back ++ past) p'
  | invalidate {past p node p' back} : Course words limit past p → Alive past node → Ends (invalidate node) p () p' →
      p'.free = back ++ p.free → Course words limit (back.map .back ++ past) p'
  | dropMemos {past p node dropped p' back} : Course words limit past p → Alive past node →
      Ends (dropMemos node) p dropped p' → p'.free = back ++ p.free → Course words limit (back.map .back ++ past) p'
  | unlink {past p node answer p' back} : Course words limit past p → Alive past node →
      Ends (unlink node) p answer p' → p'.free = back ++ p.free →
      Course words limit (back.map .back ++ .freed node :: past) p'

/-! ### Pasts -/

section Pasts
variable {past : List Deed} {h k : Handle} (back : List Handle)

@[simp] theorem alive_lent : Alive (.lent k :: past) h ↔ h = k ∨ Alive past h := Iff.rfl

@[simp] theorem alive_freed : Alive (.freed k :: past) h ↔ h ≠ k ∧ Alive past h := Iff.rfl

@[simp] theorem freed_lent : Freed (.lent k :: past) h ↔ h ≠ k ∧ Freed past h := Iff.rfl

@[simp] theorem freed_freed : Freed (.freed k :: past) h ↔ h = k ∨ Freed past h := Iff.rfl

@[simp] theorem alive_back : Alive (back.map .back ++ past) h ↔ Alive past h := by
  induction back with
  | nil => exact Iff.rfl
  | cons k back ih => exact ih

@[simp] theorem freed_back : Freed (back.map .back ++ past) h ↔ Freed past h := by
  induction back with
  | nil => exact Iff.rfl
  | cons k back ih => exact ih

@[simp] theorem returns_back : returns (back.map .back ++ past) h = back.count h + returns past h := by
  induction back with
  | nil => simp
  | cons k back ih =>
    change returns (back.map .back ++ past) h + (if h = k then 1 else 0) = _
    rw [ih, List.count_cons]
    by_cases hk : h = k
    · simp only [hk, if_true, beq_self_eq_true]
      omega
    · rw [if_neg hk, if_neg (by simpa using Ne.symm hk)]
      omega

end Pasts

/-! ### What every call keeps -/

/-- Counts, marks and the free list agree with the past. -/
structure Kept (past : List Deed) (p : NodePool) : Prop where
  ledger : Ledger p []
  size : ∀ h n, p.block h = .ok n → n.words.size = p.blockWords - reservedWords
  fits : 8 * (p.blockWords - reservedWords) ≤ addressable ∨ p.blocks.size = 0
  alive : ∀ h, Alive past h ↔ p.Live h
  freed : ∀ h, Freed past h ↔ p.Dead h
  made : ∀ h n, p.block h = .ok n → Alive past h ∨ Freed past h
  returns : ∀ h, returns past h = if h ∈ p.free then 1 else 0

section Steps
variable {past past' : List Deed} {p p' : NodePool} {back : List Handle} {h k : Handle} {key : Words}

/-- Marks that are kept keep which nodes are deleted. -/
theorem dead_congr (hsize : p'.blocks.size = p.blocks.size)
    (hblock : ∀ k n, p.block k = .ok n → ∃ n', p'.block k = .ok n' ∧ n'.deleted = n.deleted) :
    p'.Dead h ↔ p.Dead h := by
  constructor
  · rintro ⟨n', hn', hd⟩
    obtain ⟨n, hn⟩ := exists_block_of_size hsize hn'
    obtain ⟨x, hx, hsame⟩ := hblock h n hn
    rw [hn'] at hx
    cases hx
    exact ⟨n, hn, hsame.symm.trans hd⟩
  · rintro ⟨n, hn, hd⟩
    obtain ⟨n', hn', hsame⟩ := hblock h n hn
    exact ⟨n', hn', hsame.trans hd⟩

theorem dead_of_sheds {gone : Bool} (hs : Sheds p p' h gone) (hh : p.Live h) :
    p'.Dead k ↔ p.Dead k ∨ gone = true ∧ k = h := by
  constructor
  · rintro ⟨n', hn', hd⟩
    obtain ⟨n, hn⟩ := exists_block_of_size hs.size hn'
    obtain ⟨refs, hx⟩ := hs.block k n hn
    rw [hn'] at hx
    cases hx
    simp only [Bool.or_eq_true, Bool.and_eq_true, decide_eq_true_eq] at hd
    exact hd.imp_left fun hd => ⟨n, hn, hd⟩
  · rintro (⟨n, hn, hd⟩ | ⟨hgone, rfl⟩)
    · obtain ⟨refs, hx⟩ := hs.block k n hn
      exact ⟨_, hx, by simp [hd]⟩
    · obtain ⟨n, hn, -⟩ := hh
      obtain ⟨refs, hx⟩ := hs.block k n hn
      exact ⟨_, hx, by simp [hgone]⟩

/-- What a call that hands out nothing gives back. -/
theorem exists_back {α : Type} {m : NodeM α} {a : α} (hm : Thrifty id m) (hrun : Runs m p a p') :
    ∃ back, Regains p p' back := by
  obtain ⟨said, hrun⟩ := hrun
  exact (hm _ _ _ _ _ (hrun #[])).1

theorem back_unique {back' : List Handle} (hr : Regains p p' back) (hfree : p'.free = back' ++ p.free) : back' = back :=
  List.append_cancel_right (hfree.symm.trans hr.free)

theorem Kept.start (words : Nat) (limit : Option Nat) : Kept [] (Pool.empty words limit) where
  ledger := .of_empty words limit
  size _ _ hn := absurd hn block_empty
  fits := Or.inr rfl
  alive _ := ⟨False.elim, fun ⟨_, hn, _⟩ => absurd hn block_empty⟩
  freed _ := ⟨False.elim, fun ⟨_, hn, _⟩ => absurd hn block_empty⟩
  made _ _ hn := absurd hn block_empty
  returns _ := rfl

namespace Kept

/-- A call that hands out nothing keeps the books, with what it gives back. -/
theorem regains (hk : Kept past p) (hr : Regains p p' back) (hs : Spares p p') (hl : Ledger p' [])
    (halive : ∀ h, Alive past' h ↔ p'.Live h) (hfreed : ∀ h, Freed past' h ↔ p'.Dead h)
    (hmade : ∀ h, Alive past h ∨ Freed past h → Alive past' h ∨ Freed past' h)
    (hreturns : ∀ h, NodePool.returns past' h = NodePool.returns past h) : Kept (back.map .back ++ past') p' where
  ledger := hl
  size h n' hn' := by
    obtain ⟨n, hn⟩ := exists_block_of_size hs.size hn'
    obtain ⟨x, hx, hw⟩ := hs.words h n hn
    rw [hn'] at hx
    cases hx
    rw [hw, hs.blockWords]
    exact hk.size h n hn
  fits := by
    rw [hs.blockWords, hs.size]
    exact hk.fits
  alive h := by rw [alive_back, halive]
  freed h := by rw [freed_back, hfreed]
  made h n' hn' := by
    obtain ⟨n, hn⟩ := exists_block_of_size hs.size hn'
    rw [alive_back, freed_back]
    exact hmade h (hk.made h n hn)
  returns h := by
    -- what comes back was not free before, so no block comes back twice
    have hnodup := hl.nodup
    rw [hr.free] at hnodup
    obtain ⟨hback, -, hapart⟩ := List.nodup_append.mp hnodup
    rw [returns_back, hreturns, hk.returns]
    by_cases hb : h ∈ back
    · have hf : h ∉ p.free := fun hf => hapart h hb h hf rfl
      simp [hr.free, hb, hf, List.count_eq_one_of_mem hback hb]
    · simp [hr.free, hb, List.count_eq_zero_of_not_mem hb]

theorem recalls (hk : Kept past p) (hr : Regains p p' back) (hrec : Recalls p p') (hl : Ledger p' []) :
    Kept (back.map .back ++ past) p' := by
  refine hk.regains hr (Spares.of_recalls hrec) hl (fun h => (hk.alive h).trans (hrec.live h).symm)
    (fun h => (hk.freed h).trans (dead_congr hrec.size fun k n hn => ?_).symm) (fun _ => id) fun _ => rfl
  obtain ⟨n', hn', -, hd⟩ := hrec.block k n hn
  exact ⟨n', hn', hd⟩

theorem sheds (hk : Kept past p) (hr : Regains p p' back) (hs : Sheds p p' h false)
    (hl : Ledger p' []) (hh : p.Live h) : Kept (back.map .back ++ past) p' := by
  refine hk.regains hr (Spares.of_sheds hs) hl (fun k => ?_) (fun k => ?_) (fun _ => id) fun _ => rfl
  · rw [hk.alive, hs.live]
    simp
  · rw [hk.freed, dead_of_sheds hs hh]
    simp

theorem unlinks (hk : Kept past p) (hr : Regains p p' back) (hs : Sheds p p' h true)
    (hl : Ledger p' []) (hh : p.Live h) : Kept (back.map .back ++ .freed h :: past) p' := by
  refine hk.regains hr (Spares.of_sheds hs) hl (fun k => ?_) (fun k => ?_) (fun k hm => ?_) fun _ => rfl
  · rw [alive_freed, hk.alive, hs.live, and_comm]
    simp
  · rw [freed_freed, hk.freed, dead_of_sheds hs hh, or_comm]
    simp
  · rw [alive_freed, freed_freed]
    tauto

theorem lent (hk : Kept past p) (hl : Ledger p' []) (hh : Hands p p' h) (hlends : Lends p h p')
    (hfits : 8 * (p.blockWords - reservedWords) ≤ addressable) : Kept (.lent h :: past) p' where
  ledger := hl
  size k n hn := by
    rw [hh.blockWords]
    by_cases hkh : k = h
    · rw [hkh, hh.clean] at hn
      cases hn
      exact Array.size_replicate
    · rw [hh.other k hkh] at hn
      exact hk.size k n hn
  fits := Or.inl (hh.blockWords ▸ hfits)
  alive k := by rw [alive_lent, hk.alive, hh.live, or_comm]
  freed k := by
    rw [freed_lent, hk.freed]
    constructor
    · rintro ⟨hkh, n, hn, hd⟩
      exact ⟨n, (hh.other k hkh).trans hn, hd⟩
    · rintro ⟨n, hn, hd⟩
      have hkh : k ≠ h := by
        rintro rfl
        rw [hh.clean] at hn
        cases hn
        cases hd
      exact ⟨hkh, n, (hh.other k hkh).symm.trans hn, hd⟩
  made k n hn := by
    rw [alive_lent, freed_lent]
    by_cases hkh : k = h
    · exact Or.inl (Or.inl hkh)
    · rw [hh.other k hkh] at hn
      exact (hk.made k n hn).imp Or.inr fun hf => ⟨hkh, hf⟩
  returns k := by
    change (if k = h then 0 else NodePool.returns past k) = _
    rw [hk.returns]
    by_cases hkh : k = h <;> simp [hkh, hlends.free]

/-! ### Calls -/

theorem out_of (hk : Kept past p) (hc : Alive past k ∨ Waiting past k) : ∃ n, p.block k = .ok n ∧ k ∉ p.free := by
  rcases hc with ha | ⟨hf, hzero⟩
  · obtain ⟨n, hn, -, hout⟩ := (hk.alive k).mp ha
    exact ⟨n, hn, hout⟩
  · obtain ⟨n, hn, -⟩ := (hk.freed k).mp hf
    refine ⟨n, hn, fun hin => ?_⟩
    rw [hk.returns, if_pos hin] at hzero
    cases hzero

/-- A node is handed out, or there is none, or none can ever be made. -/
theorem runs_allocate (hk : Kept past p) :
    (∃ inUse, Runs Pool.allocate p (.error (.outOfMemory inUse)) p) ∨
      (∃ h p', Runs Pool.allocate p (.ok h) p' ∧ ¬(Alive past h ∨ Waiting past h) ∧ Kept (.lent h :: past) p') ∨
      (addressable < 8 * (p.blockWords - reservedWords) ∧ Faults Pool.allocate p .tooLarge) := by
  by_cases hfits : 8 * (p.blockWords - reservedWords) ≤ addressable
  · rcases allocate_spec hk.ledger hfits hk.size with ⟨inUse, hrun, -⟩ | ⟨h, p', hrun, hl, hh⟩
    · exact Or.inl ⟨inUse, hrun⟩
    · rcases hrun.ends.allocate hk.ledger.nodup hk.ledger.outstanding_eq with ⟨hne, -⟩ | ⟨_, heq, -, hlends⟩
      · cases hne
      · cases heq
        refine Or.inr (Or.inl ⟨h, p', hrun, fun hused => ?_, hk.lent hl hh hlends hfits⟩)
        obtain ⟨n, hn, hout⟩ := hk.out_of hused
        exact hout (hlends.unused n hn)
  · rcases allocate_large hk.ledger hfits (hk.fits.resolve_left hfits) with ⟨hrun, -⟩ | hfault
    · exact Or.inl ⟨0, hrun⟩
    · exact Or.inr (Or.inr ⟨Nat.not_le.mp hfits, hfault⟩)

theorem runs_remember (hk : Kept past p) (ha : Alive past h) (hc : Alive past k ∨ Waiting past k) (key : Words) :
    ∃ p' back, Runs (remember h key k) p () p' ∧ Regains p p' back ∧ Kept (back.map .back ++ past) p' := by
  obtain ⟨n, hn, hout⟩ := hk.out_of hc
  obtain ⟨p', hrun, hl, hrec, -⟩ := remember_spec key hk.ledger ((hk.alive h).mp ha) hn hout
  obtain ⟨back, hback⟩ := exists_back (Thrifty.remember h key k) hrun
  exact ⟨p', back, hrun, hback, hk.recalls hback hrec hl⟩

/-- A search in a ring serves a node that is alive, if it serves one. -/
theorem runs_remembered (hk : Kept past p) (ha : Alive past h) (key : Words) :
    ∃ answer p', Runs (remembered h key) p answer p' ∧ (∀ k, answer = some k → Alive past k) ∧ Regains p p' [] ∧
      Kept past p' := by
  obtain ⟨n, hn, -⟩ := (hk.alive h).mp ha
  have hknown := hk.ledger.known h n hn
  rcases firstServing_spec (p := p) (l := n.ring.fromProbe) key fun m hm => hknown m (Ring.mem_fromProbe.mp hm) with
    ⟨m, hm, -, hnot, hserve⟩ | ⟨-, hserve⟩
  · have hrun : Runs (remembered h key) p (some m.child) p :=
      Runs.bind (Runs.get _) (Runs.bind (Runs.read hn) (Runs.bind (Runs.lift hserve _) (Runs.pure _ _)))
    refine ⟨_, p, hrun, fun k hkm => ?_, .refl p, hk⟩
    cases hkm
    obtain ⟨b, hb⟩ := hknown m (Ring.mem_fromProbe.mp hm)
    exact (hk.made _ b hb).resolve_right fun hf => hnot ((hk.freed _).mp hf)
  · have hrun : Runs (remembered h key) p none (p.put h { n with ring := n.ring.advance }) :=
      Runs.bind (Runs.get _) (Runs.bind (Runs.read hn) (Runs.bind (Runs.lift hserve _)
        (Runs.bind (Runs.update hn rfl) (Runs.pure _ _))))
    obtain ⟨hl, -, hrec⟩ := advance_spec hk.ledger hn
    exact ⟨none, _, hrun, fun k hnone => (by cases hnone), .put p h _, hk.recalls (.put p h _) hrec hl⟩

theorem runs_dropMemos (hk : Kept past p) (ha : Alive past h) :
    ∃ dropped p' back, Runs (dropMemos h) p dropped p' ∧ Regains p p' back ∧ Kept (back.map .back ++ past) p' := by
  have hh := (hk.alive h).mp ha
  obtain ⟨n, hn, -⟩ := id hh
  obtain ⟨p', hrun, hl, hs⟩ := dropMemos_spec hk.ledger hn
  obtain ⟨back, hback⟩ := exists_back (Thrifty.dropMemos h) hrun
  exact ⟨_, p', back, hrun, hback, hk.sheds hback hs hl hh⟩

theorem runs_invalidate (hk : Kept past p) (ha : Alive past h) :
    ∃ p' back, Runs (invalidate h) p () p' ∧ Regains p p' back ∧ Kept (back.map .back ++ past) p' := by
  have hh := (hk.alive h).mp ha
  obtain ⟨n, hn, -⟩ := id hh
  obtain ⟨p', hrun, hl, hs⟩ := invalidate_spec hk.ledger hn
  obtain ⟨back, hback⟩ := exists_back (Thrifty.invalidate h) hrun
  exact ⟨p', back, hrun, hback, hk.sheds hback hs hl hh⟩

/-- A node that is freed answers if it is on the free list then. -/
theorem unlink_answer {answer : Bool} (hl : Ledger p []) (hh : p.Live h) (he : Ends (unlink h) p answer p') :
    answer = true ↔ h ∈ p'.free := by
  obtain ⟨n, hn, -⟩ := id hh
  obtain ⟨_, p₁, hdrop, he₁⟩ := he.bind
  obtain ⟨p₂, hrun, -, hs⟩ := dropMemos_spec hl hn
  obtain rfl := (hrun.of_ends hdrop).2
  have hout : h ∉ p₁.free := by
    obtain ⟨-, -, -, hout⟩ := (hs.live h).mpr ⟨hh, fun hf => Bool.noConfusion hf⟩
    exact hout
  obtain ⟨_, p₂, hmark, he₂⟩ := he₁.bind
  obtain ⟨n₁, n₂, -, -, rfl⟩ := hmark.update
  obtain ⟨n₃, -, he₃⟩ := he₂.bind_read
  dsimp only at he₃
  split at he₃
  · obtain ⟨_, _, hrelease, hend⟩ := he₃.bind
    obtain ⟨rfl, rfl⟩ := hend.pure
    obtain ⟨-, rfl⟩ := (runs_release (p := p₁.put h n₂) hout).of_ends hrelease
    exact ⟨fun _ => List.mem_cons_self, fun _ => rfl⟩
  · obtain ⟨_, _, hreport, hend⟩ := he₃.bind
    obtain rfl := hreport.report
    obtain ⟨rfl, rfl⟩ := hend.pure
    exact ⟨fun hf => Bool.noConfusion hf, fun hf => absurd hf hout⟩

theorem runs_unlink (hk : Kept past p) (ha : Alive past h) :
    ∃ answer p' back, Runs (unlink h) p answer p' ∧ (answer = true ↔ h ∈ back) ∧ Regains p p' back ∧
      Kept (back.map .back ++ .freed h :: past) p' := by
  have hh := (hk.alive h).mp ha
  obtain ⟨p', answer, hrun, hl, hs⟩ := unlink_spec hk.ledger hh
  obtain ⟨back, hback⟩ := exists_back (Thrifty.unlink h) hrun
  refine ⟨answer, p', back, hrun, ?_, hback, hk.unlinks hback hs hl hh⟩
  obtain ⟨-, -, -, hout⟩ := hh
  rw [unlink_answer hk.ledger ((hk.alive h).mp ha) hrun.ends, hback.free, List.mem_append]
  exact or_iff_left hout

end Kept

/-! ### What a course keeps -/

/-- Each call of a course keeps the books, since it can run only as the calls above do. -/
theorem Course.kept {words : Nat} {limit : Option Nat} (hc : Course words limit past p) : Kept past p := by
  induction hc with
  | start => exact Kept.start words limit
  | allocate _ he ih =>
    rcases ih.runs_allocate with ⟨_, hrun⟩ | ⟨_, _, hrun, -, hk⟩ | ⟨-, hfault⟩
    · cases (hrun.of_ends he).1
    · obtain ⟨heq, rfl⟩ := hrun.of_ends he
      cases heq
      exact hk
    · exact absurd he hfault.not_ends
  | refused _ he ih =>
    rcases ih.runs_allocate with ⟨_, hrun⟩ | ⟨_, _, hrun, -⟩ | ⟨-, hfault⟩
    · exact (hrun.of_ends he).2 ▸ ih
    · cases (hrun.of_ends he).1
    · exact absurd he hfault.not_ends
  | remember _ ha hchild he hfree ih =>
    obtain ⟨_, _, hrun, hback, hk⟩ := ih.runs_remember ha hchild _
    obtain rfl := (hrun.of_ends he).2
    exact back_unique hback hfree ▸ hk
  | remembered _ ha he hfree ih =>
    obtain ⟨_, _, hrun, -, hback, hk⟩ := ih.runs_remembered ha _
    obtain rfl := (hrun.of_ends he).2
    exact back_unique hback hfree ▸ hk
  | invalidate _ ha he hfree ih =>
    obtain ⟨_, _, hrun, hback, hk⟩ := ih.runs_invalidate ha
    obtain rfl := (hrun.of_ends he).2
    exact back_unique hback hfree ▸ hk
  | dropMemos _ ha he hfree ih =>
    obtain ⟨_, _, _, hrun, hback, hk⟩ := ih.runs_dropMemos ha
    obtain rfl := (hrun.of_ends he).2
    exact back_unique hback hfree ▸ hk
  | unlink _ ha he hfree ih =>
    obtain ⟨_, _, _, hrun, -, hback, hk⟩ := ih.runs_unlink ha
    obtain rfl := (hrun.of_ends he).2
    exact back_unique hback hfree ▸ hk

/-- A node is named four times at most by each block. -/
theorem named_le (p : NodePool) (h : Handle) : p.named h ≤ p.blocks.size * 4 := by
  have hsum := List.sum_le_card_nsmul (p.blocks.toList.map fun n => n.ring.count h) 4 fun x hx => by
    obtain ⟨n, -, rfl⟩ := List.mem_map.mp hx
    exact List.countP_le_length.trans n.ring.length_memos_le
  simpa [named] using hsum

/-- The calls that may follow `past`, and what each of them answers and gives back. -/
structure Permitted (past : List Deed) (p : NodePool) : Prop where
  allocate : 8 * (p.blockWords - reservedWords) ≤ addressable → ∃ answer p', Runs Pool.allocate p answer p' ∧
    ∀ node, answer = .ok node → ¬Alive past node ∧ ¬Waiting past node
  remember : ∀ parent key child, Alive past parent → Alive past child ∨ Waiting past child →
    ∃ p' back, Runs (remember parent key child) p () p' ∧ p'.free = back ++ p.free
  remembered : ∀ node key, Alive past node → ∃ answer p', Runs (remembered node key) p answer p' ∧
    p'.free = p.free ∧ ∀ child, answer = some child → Alive past child
  invalidate : ∀ node, Alive past node → ∃ p' back, Runs (invalidate node) p () p' ∧ p'.free = back ++ p.free
  dropMemos : ∀ node, Alive past node → ∃ dropped p' back, Runs (dropMemos node) p dropped p' ∧ p'.free = back ++ p.free
  unlink : ∀ node, Alive past node → ∃ answer p' back, Runs (unlink node) p answer p' ∧ p'.free = back ++ p.free ∧
    (answer = true ↔ node ∈ back)

/-- What the pool is like after `past`. -/
structure Custody (past : List Deed) (p : NodePool) : Prop where
  /-- Every node counts the memos that name it. -/
  refs : ∀ h n, p.block h = .ok n → n.refs = p.named h
  /-- A count has room for one more in 32 bits. -/
  room : p.blocks.size < 2 ^ 30 → ∀ h n, p.block h = .ok n → n.refs + 1 < 2 ^ 32
  free : ∀ h, h ∈ p.free ↔ Freed past h ∧ ∃ n, p.block h = .ok n ∧ n.refs = 0
  once : p.free.Nodup
  /-- A block went back at most once since it was handed out, and is on the free list if it did. -/
  returns : ∀ h, returns past h = if h ∈ p.free then 1 else 0
  held : ∀ k n, p.block k = .ok n → ∀ m ∈ n.ring.memos, m.child ∉ p.free
  permitted : Permitted past p
  /-- When every node was freed, everything came back. -/
  idle : (∀ h, ¬Alive past h) → (∀ h n, p.block h = .ok n → n.refs = 0 ∧ n.ring.memos = [] ∧ h ∈ p.free) ∧
    p.outstanding = .ok 0 ∧ p.allocated = p.released

theorem Kept.permitted (hk : Kept past p) : Permitted past p where
  allocate hfits := by
    rcases hk.runs_allocate with ⟨_, hrun⟩ | ⟨h, p', hrun, hunused, -⟩ | ⟨hlarge, -⟩
    · exact ⟨_, p, hrun, fun _ hok => (by cases hok)⟩
    · refine ⟨_, p', hrun, fun node hok => ?_⟩
      cases hok
      exact ⟨fun ha => hunused (Or.inl ha), fun hw => hunused (Or.inr hw)⟩
    · exact absurd hfits (Nat.not_le.mpr hlarge)
  remember parent key child ha hc := by
    obtain ⟨p', back, hrun, hback, -⟩ := hk.runs_remember ha hc key
    exact ⟨p', back, hrun, hback.free⟩
  remembered node key ha := by
    obtain ⟨answer, p', hrun, halive, hback, -⟩ := hk.runs_remembered ha key
    exact ⟨answer, p', hrun, hback.free, halive⟩
  invalidate node ha := by
    obtain ⟨p', back, hrun, hback, -⟩ := hk.runs_invalidate ha
    exact ⟨p', back, hrun, hback.free⟩
  dropMemos node ha := by
    obtain ⟨dropped, p', back, hrun, hback, -⟩ := hk.runs_dropMemos ha
    exact ⟨dropped, p', back, hrun, hback.free⟩
  unlink node ha := by
    obtain ⟨answer, p', back, hrun, hanswer, hback, -⟩ := hk.runs_unlink ha
    exact ⟨answer, p', back, hrun, hback.free, hanswer⟩

theorem Kept.custody (hk : Kept past p) : Custody past p := by
  have hrefs : ∀ h n, p.block h = .ok n → n.refs = p.named h := fun h n hn => hk.ledger.refs h n hn
  have hnamed : ∀ k n, p.block k = .ok n → ∀ m ∈ n.ring.memos, m.child ∉ p.free := fun k n hn m hm => by
    obtain ⟨b, hb⟩ := hk.ledger.known k n hn m hm
    have hcount := (Ring.count_pos.mpr ⟨m, hm, rfl⟩).trans_le (count_le_named hn m.child)
    rw [← hrefs _ b hb] at hcount
    exact hk.ledger.not_free hb hcount.ne'
  refine ⟨hrefs, fun hsmall h n hn => ?_, fun h => ⟨fun hf => ?_, ?_⟩, hk.ledger.nodup, hk.returns,
    hnamed, hk.permitted, fun hidle => ?_⟩
  · have hle := named_le p h
    rw [hrefs h n hn]
    omega
  · obtain ⟨n, hn, hzero, -⟩ := hk.ledger.free h hf
    refine ⟨(hk.made h n hn).resolve_left fun ha => not_live_of_free hf ((hk.alive h).mp ha), n, hn, hzero⟩
  · rintro ⟨hf, n, hn, hzero⟩
    obtain ⟨x, hx, hd⟩ := (hk.freed h).mp hf
    rw [hn] at hx
    cases hx
    exact (hk.ledger.deleted h n hn hd).2 hzero
  · have hquiet : ∀ h, ¬p.Live h := fun h hh => hidle h ((hk.alive h).mpr hh)
    refine ⟨fun h n hn => hk.ledger.idle hquiet hn, ?_, hk.ledger.balanced hquiet⟩
    rw [hk.ledger.outstanding_eq, hk.ledger.out_eq_zero hquiet]

end Steps

/-! ### A pool of two nodes -/

/-- The pool that a call leads to; a fault leads nowhere. -/
def after {α : Type} (p : NodePool) (m : NodeM α) : NodePool :=
  match m p #[] with
  | .ok ((_, p'), _) => p'
  | .error _ => p

theorem ends_after {α : Type} {p : NodePool} {m : NodeM α} {a : α} (h : (m p #[]).toOption.map (·.1.1) = some a) :
    Ends m p a (after p m) := by
  unfold after
  cases hm : m p #[] with
  | error e =>
    rw [hm] at h
    cases h
  | ok x =>
    rw [hm] at h
    cases h
    exact ⟨#[], x.2, hm⟩

theorem first_small : 0 + 1 < 2 ^ (32 : Nat) := by decide

/-- The nodes of a pool of two. -/
def first : Handle := ⟨0, first_small⟩

@[inherit_doc first]
def second : Handle := ⟨1, by decide⟩

/-- Of two nodes the first one names both, and the second one was freed. -/
def looped : NodePool :=
  let p : NodePool := Pool.empty (⟨1, 2⟩ : Geometry).blockWords none
  ((((p.after Pool.allocate).after Pool.allocate).after
    (remember first [5] first)).after (remember first [7] second)).after (unlink second)

theorem looped_course :
    Course (⟨1, 2⟩ : Geometry).blockWords none [.freed second, .lent second, .lent first] looped := by
  have h₁ : Course (⟨1, 2⟩ : Geometry).blockWords none [.lent first] _ :=
    .allocate .start (ends_after (by decide +kernel))
  have h₂ : Course _ none [.lent second, .lent first] _ := .allocate h₁ (ends_after (by decide +kernel))
  have hfirst : Alive [.lent second, .lent first] first := Or.inr (Or.inl rfl)
  have hsecond : Alive [.lent second, .lent first] second := Or.inl rfl
  have h₃ := @Course.remember _ _ _ _ first [5] first _ [] h₂ hfirst (Or.inl hfirst) (ends_after (by decide +kernel))
    (by decide +kernel)
  have h₄ := @Course.remember _ _ _ _ first [7] second _ [] h₃ hfirst (Or.inl hsecond) (ends_after (by decide +kernel))
    (by decide +kernel)
  exact @Course.unlink _ _ _ _ second false _ [] h₄ hsecond (ends_after (by decide +kernel)) (by decide +kernel)

/-! ### The protocol -/

/-- Whatever is done to a pool by calls of the memo protocol, in whatever order and graph: every node counts the memos
that name it, a freed block goes back once, as soon as no memo names it, a search serves nodes that are alive only,
and no call that may be made fails. -/
theorem Course.in_custody {words : Nat} {limit : Option Nat} {past : List Deed} {p : NodePool}
    (hc : Course words limit past p) : Custody past p := hc.kept.custody

/-- The block of the second node comes back with the memos of the first one, and before its block. -/
theorem in_custody_of_looped :
    Course (⟨1, 2⟩ : Geometry).blockWords none
      [.back first, .back second, .freed first, .freed second, .lent second, .lent first]
      (looped.after (unlink first)) ∧
    Custody [.back first, .back second, .freed first, .freed second, .lent second, .lent first]
      (looped.after (unlink first)) ∧
    looped.free = [] ∧ (looped.after (unlink first)).free = [first, second] := by
  have hfirst : Alive [.freed second, .lent second, .lent first] first := ⟨by decide, Or.inr (Or.inl rfl)⟩
  have hc := @Course.unlink _ _ _ _ first true _ [first, second] looped_course hfirst (ends_after (by decide +kernel))
    (by decide +kernel)
  exact ⟨hc, hc.in_custody, by decide +kernel, by decide +kernel⟩

end NodePool
end MemoTree
