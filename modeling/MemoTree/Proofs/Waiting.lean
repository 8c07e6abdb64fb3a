import MemoTree.Proofs.Allocation
import MemoTree.Proofs.Ledger

/-! # Waiting for the last memo

A node that is unlinked while memos name it waits for the last of them, and only then its block goes back. Here is
what can be done to the nodes of a pool, one block at a time (`Pool.Act`), and what becomes of a block by it, in
phases: it is handed out, its return is deferred, its return is completed. Whatever is done, in whatever order, the
phases of a block alternate: a block that waits is not handed out, and is not deferred again. -/

namespace MemoTree
open Pool

/-- What becomes of the block of a node. -/
inductive Phase where
  | lent (h : Handle)
  /-- The node is unlinked while `refs` memos name it. -/
  | deferred (h : Handle) (refs : Nat)
  /-- The last memo that named an unlinked node is gone. -/
  | completed (h : Handle)
  deriving DecidableEq

namespace Phase

/-- Deferrals and completions are reported; that a block is handed out is not. -/
def reported : Phase → Bool
  | lent _ => false
  | deferred _ _ => true
  | completed _ => true

def isLent : Phase → Bool
  | lent _ => true
  | deferred _ _ => false
  | completed _ => false

/-- The node whose block it is. -/
def handle : Phase → Handle
  | lent h => h
  | deferred h _ => h
  | completed h => h

/-- Whether `h` waits after one more phase, if `waiting` says whether it does before. Nothing is answered if the phase
is out of order: only a node that waits is completed, and only one that does not is handed out or deferred. -/
def next (h : Handle) (waiting : Bool) : Phase → Option Bool
  | lent k => if k ≠ h then some waiting else if waiting then none else some false
  | deferred k _ => if k ≠ h then some waiting else if waiting then none else some true
  | completed k => if k ≠ h then some waiting else if waiting then some false else none

/-- The deferrals and the completions of `h` alternate, a deferral first, and `h` is not handed out between a deferral
and its completion. `waiting` says whether the last deferral was not completed. -/
def Alternate (h : Handle) (phases : List Phase) (waiting : Bool) : Prop := phases.foldlM (next h) false = some waiting

variable {h : Handle} {phases : List Phase} {waiting waiting' : Bool}

theorem next_unreported {phase : Phase} (hr : phase.reported = false) (hn : next h waiting phase = some waiting') :
    waiting' = waiting := by
  cases phase with
  | lent k =>
    by_cases hk : k = h <;> cases waiting <;> simp_all [next]
  | deferred => cases hr
  | completed => cases hr

theorem next_of_ne {phase : Phase} (hne : phase.handle ≠ h) : next h waiting phase = some waiting := by
  cases phase <;> exact if_pos hne

theorem foldlM_of_ne (hne : ∀ phase ∈ phases, phase.handle ≠ h) : phases.foldlM (next h) waiting = some waiting := by
  induction phases with
  | nil => rfl
  | cons phase phases ih =>
    rw [List.foldlM_cons, next_of_ne (hne phase List.mem_cons_self)]
    exact ih fun phase hmem => hne phase (List.mem_cons_of_mem _ hmem)

theorem of_next_self {phase : Phase} (heq : phase.handle = h) (hn : next h waiting phase = some true) :
    ∃ refs, phase = .deferred h refs := by
  subst heq
  cases phase with
  | deferred h refs => exact ⟨refs, rfl⟩
  | lent => cases waiting <;> simp [next, handle] at hn
  | completed => cases waiting <;> simp [next, handle] at hn

theorem foldlM_reported (hn : phases.foldlM (next h) waiting = some waiting') :
    (phases.filter reported).foldlM (next h) waiting = some waiting' := by
  induction phases generalizing waiting with
  | nil => exact hn
  | cons phase phases ih =>
    rw [List.foldlM_cons] at hn
    obtain ⟨middle, hfirst, hrest⟩ := Option.bind_eq_some_iff.mp hn
    by_cases hr : phase.reported = true
    · rw [List.filter_cons_of_pos hr, List.foldlM_cons]
      exact Option.bind_eq_some_iff.mpr ⟨middle, hfirst, ih hrest⟩
    · rw [List.filter_cons_of_neg hr, ← next_unreported (Bool.not_eq_true _ ▸ hr) hfirst]
      exact ih hrest

/-- The phases that are reported alternate if all do. -/
theorem Alternate.reported (ha : Alternate h phases waiting) : Alternate h (phases.filter Phase.reported) waiting :=
  foldlM_reported ha

/-- A node that waits at the end waited all along, or nothing has become of it since its last deferral. -/
theorem last_deferral (hn : phases.foldlM (next h) waiting = some true) :
    (waiting = true ∧ ∀ phase ∈ phases, phase.handle ≠ h) ∨
    ∃ before refs since, phases = before ++ .deferred h refs :: since ∧ ∀ phase ∈ since, phase.handle ≠ h := by
  induction phases generalizing waiting with
  | nil => exact Or.inl ⟨Option.some.inj hn, fun _ hmem => (by cases hmem)⟩
  | cons phase phases ih =>
    rw [List.foldlM_cons] at hn
    obtain ⟨middle, hfirst, hrest⟩ := Option.bind_eq_some_iff.mp hn
    rcases ih hrest with ⟨rfl, hother⟩ | ⟨before, refs, since, rfl, hsince⟩
    · by_cases hh : phase.handle = h
      · obtain ⟨refs, rfl⟩ := of_next_self hh hfirst
        exact Or.inr ⟨[], refs, phases, rfl, hother⟩
      · rw [next_of_ne hh] at hfirst
        exact Or.inl ⟨Option.some.inj hfirst, List.forall_mem_cons.mpr ⟨hh, hother⟩⟩
    · exact Or.inr ⟨phase :: before, refs, since, rfl, hsince⟩

/-- A completion has a deferral before it, and nothing became of the node in between. -/
theorem Alternate.of_completed {past rest : List Phase} (ha : Alternate h (past ++ .completed h :: rest) waiting) :
    ∃ before refs since, past = before ++ .deferred h refs :: since ∧ ∀ phase ∈ since, phase.handle ≠ h := by
  rw [Alternate, List.foldlM_append] at ha
  obtain ⟨waited, hpast, hrest⟩ := Option.bind_eq_some_iff.mp ha
  obtain ⟨_, hnext, -⟩ := Option.bind_eq_some_iff.mp (List.foldlM_cons (m := Option) ▸ hrest)
  cases waited with
  | true => exact (last_deferral hpast).resolve_left fun h => (by cases h.1)
  | false => simp [next] at hnext

end Phase

namespace Pool

/-- Whether a node was unlinked and memos still name it. -/
def waits (p : NodePool) (h : Handle) : Bool :=
  match p.block h with
  | .ok n => n.deleted && n.refs != 0
  | .error _ => false

/-- The node is not deleted. -/
def Unmarked (p : NodePool) (h : Handle) : Prop := ∃ n, p.block h = .ok n ∧ n.deleted = false

/-- One change of a pool of nodes, and the phases that blocks pass by it. With `stores`, nodes that are not deleted
may be named by more memos, and with `frees` they may be deleted. -/
inductive Act (stores frees : Prop) (p : NodePool) : List Phase → NodePool → Prop
  | lend {h p'} : Ends allocate p (.ok h) p' → Act stores frees p [.lent h] p'
  | back {h p'} : Ends (release h) p () p' → Act stores frees p [] p'
  /-- Words and memos of a node are written. -/
  | change {h n n'} : p.block h = .ok n → n'.refs = n.refs → n'.deleted = n.deleted → Act stores frees p [] (p.put h n')
  | store {h n} : stores → p.block h = .ok n → n.deleted = false →
      Act stores frees p [] (p.put h { n with refs := n.refs + 1 })
  | drop {h n} : p.block h = .ok n → n.refs ≠ 0 →
      Act stores frees p (if n.refs = 1 ∧ n.deleted then [.completed h] else []) (p.put h { n with refs := n.refs - 1 })
  | free {h n} : frees → p.block h = .ok n → n.deleted = false →
      Act stores frees p (if n.refs = 0 then [] else [.deferred h n.refs]) (p.put h { n with deleted := true })

/-- Changes, one after the other. -/
inductive Acts (stores frees : Prop) : NodePool → List Phase → NodePool → Prop
  | nil {p} : Acts stores frees p [] p
  | cons {p q p' phases phases'} : Act stores frees p phases q → Acts stores frees q phases' p' →
      Acts stores frees p (phases ++ phases') p'

section
variable {p q p' : NodePool} {h k : Handle} {n n' : Node} {stores frees stores' frees' : Prop}
    {phases phases' : List Phase}

theorem waits_eq (hn : p.block h = .ok n) : p.waits h = (n.deleted && n.refs != 0) := by rw [waits, hn]

theorem waits_congr (hb : p'.block h = p.block h) : p'.waits h = p.waits h := by rw [waits, waits, hb]

/-- What is written to a block changes only what becomes of that block. -/
theorem next_put (hn : p.block k = .ok n) (hk : ∀ phase ∈ phases, phase.handle = k)
    (hself : phases.foldlM (Phase.next k) (n.deleted && n.refs != 0) = some (n'.deleted && n'.refs != 0)) (h : Handle) :
    phases.foldlM (Phase.next h) (p.waits h) = some ((p.put k n').waits h) := by
  by_cases hh : h = k
  · subst hh
    rw [waits_eq hn, waits_eq (block_put_self hn)]
    exact hself
  · rw [waits_congr (block_put_ne hh)]
    exact Phase.foldlM_of_ne fun phase hmem heq => hh (heq.symm.trans (hk phase hmem))

/-- A node that is handed out was named by no memo, and is new. -/
theorem lent_node (he : Ends allocate p (.ok k) p') : p'.allocated = p.allocated + 1 ∧
    (∀ n, p.block k = .ok n → n.refs = 0) ∧
    ∃ n, n.refs = 0 ∧ n.deleted = false ∧ ∀ h, p'.block h = if h = k then .ok n else p.block h := by
  obtain ⟨out, hout, -⟩ := he.bind_get.bind_lift
  cases allocates_of_ends he hout with
  | @recycled _ rest n n' hspare hfree hn hn' =>
    change Node.renew n = _ at hn'
    rw [Node.renew] at hn'
    split at hn'
    · rename_i hrefs
      cases hn'
      refine ⟨rfl, fun x hx => ?_, ⟨Array.replicate n.words.size 0, 0, false, Ring.empty⟩, rfl, rfl,
        fun h => block_put hn⟩
      rw [hn] at hx
      cases hx
      exact hrefs
    · cases hn'
  | @made _ n hspare hfree hindex hn =>
    have hk := Handle.index_of_ofIndex? hindex
    obtain ⟨words, -, hn⟩ := Fault.of_bind (show Node.fresh p.blockWords = .ok n from hn)
    cases hn
    refine ⟨rfl, fun x hx => absurd (index_lt hx) (by omega), ⟨words, 0, false, Ring.empty⟩, rfl, rfl, fun h => ?_⟩
    split
    · rename_i hh
      subst hh
      exact block_push_self hk
    · rename_i hh
      exact block_push_ne fun hi => hh (Handle.index_inj (hi.trans hk.symm))

namespace Act

theorem mono (ha : Act stores frees p phases p') (hs : stores → stores') (hf : frees → frees') :
    Act stores' frees' p phases p' := by
  cases ha with
  | lend he => exact .lend he
  | back he => exact .back he
  | change hn hrefs hdel => exact .change hn hrefs hdel
  | store h hn hdel => exact .store (hs h) hn hdel
  | drop hn hrefs => exact .drop hn hrefs
  | free h hn hdel => exact .free (hf h) hn hdel

/-- A change takes every block from one phase to the next. -/
theorem next (ha : Act stores frees p phases p') (h : Handle) :
    phases.foldlM (Phase.next h) (p.waits h) = some (p'.waits h) := by
  cases ha with
  | @lend k _ he =>
    obtain ⟨-, hbefore, n, hrefs, -, hblock⟩ := lent_node he
    by_cases hk : k = h
    · subst hk
      -- what is handed out counts no references, so it did not wait
      have hwaited : p.waits k = false := by
        rw [waits]
        split
        · rename_i x hx
          rw [hbefore x hx, bne_self_eq_false, Bool.and_false]
        · rfl
      rw [hwaited, waits_eq ((hblock k).trans (if_pos rfl)), hrefs]
      simp [Phase.next]
    · rw [waits_congr ((hblock h).trans (if_neg (Ne.symm hk)))]
      simp [Phase.next, hk]
  | back he =>
    obtain rfl := release_of_ends he
    rfl
  | change hn hrefs hdel => exact next_put hn (fun _ hmem => (by cases hmem)) (by rw [hrefs, hdel]; rfl) h
  | store _ hn hdel => exact next_put hn (fun _ hmem => (by cases hmem)) (by rw [hdel]; rfl) h
  | @drop k n hn hrefs =>
    refine next_put hn (fun phase hmem => ?_) ?_ h
    · split at hmem
      · exact List.mem_singleton.mp hmem ▸ rfl
      · cases hmem
    · -- the last reference ends the wait; with others left the node waits on, or was never waiting
      by_cases hlast : n.refs = 1
      · cases hdel : n.deleted <;> simp [Phase.next, hlast]
      · have hmore : n.refs - 1 ≠ 0 := by omega
        rw [if_neg fun hboth => hlast hboth.1, bne_iff_ne.mpr hrefs, bne_iff_ne.mpr hmore]
        rfl
  | @free k n _ hn hdel =>
    refine next_put hn (fun phase hmem => ?_) ?_ h
    · split at hmem
      · cases hmem
      · exact List.mem_singleton.mp hmem ▸ rfl
    · rw [hdel]
      by_cases hrefs : n.refs = 0 <;> simp [Phase.next, hrefs]

theorem counts (ha : Act stores frees p phases p') : p'.allocated = p.allocated + phases.countP Phase.isLent := by
  cases ha with
  | lend he => exact (lent_node he).1
  | back he =>
    obtain rfl := release_of_ends he
    rfl
  | change => rfl
  | store => rfl
  | drop => split <;> rfl
  | free => split <;> rfl

/-- Without `stores` no node is named by more memos than before, and a deferral tells how many. -/
theorem refs_le {b : Nat} (ha : Act stores frees p phases p') (hs : ¬stores)
    (hle : ∀ h n, p.block h = .ok n → n.refs ≤ b) :
    (∀ h n, p'.block h = .ok n → n.refs ≤ b) ∧ ∀ h refs, .deferred h refs ∈ phases → 1 ≤ refs ∧ refs ≤ b := by
  have hput : ∀ {k n n'}, p.block k = .ok n → n'.refs ≤ b → ∀ h x, (p.put k n').block h = .ok x → x.refs ≤ b :=
    fun {k n n'} hn hle' h x hx => by
      rw [block_put hn] at hx
      split at hx
      · cases hx
        exact hle'
      · exact hle h x hx
  cases ha with
  | lend he =>
    obtain ⟨-, -, n, hrefs, -, hblock⟩ := lent_node he
    refine ⟨fun h x hx => ?_, by simp⟩
    rw [hblock] at hx
    split at hx
    · cases hx
      rw [hrefs]
      exact Nat.zero_le b
    · exact hle h x hx
  | back he =>
    obtain rfl := release_of_ends he
    exact ⟨hle, by simp⟩
  | change hn hrefs _ => exact ⟨hput hn (hrefs ▸ hle _ _ hn), by simp⟩
  | store hstores => exact absurd hstores hs
  | @drop k n hn _ =>
    have := hle k n hn
    refine ⟨hput hn (by change n.refs - 1 ≤ b; omega), ?_⟩
    split <;> simp
  | @free k n _ hn _ =>
    refine ⟨hput hn (hle k n hn), fun h refs hmem => ?_⟩
    split at hmem
    · cases hmem
    · rename_i hpos
      cases List.mem_singleton.mp hmem
      exact ⟨Nat.pos_of_ne_zero hpos, hle k n hn⟩

/-- Only what frees nodes defers their return. -/
theorem frees_of_deferred {refs : Nat} (ha : Act stores frees p phases p') (hmem : .deferred h refs ∈ phases) :
    frees := by
  cases ha with
  | lend | back | change | store => simp at hmem
  | drop => split at hmem <;> simp at hmem
  | free hfrees => exact hfrees

/-- Without `frees` a node that is not deleted stays so. -/
theorem unmarked (ha : Act stores frees p phases p') (hf : ¬frees) (hu : p.Unmarked h) : p'.Unmarked h := by
  obtain ⟨x, hx, hdel⟩ := hu
  have hput : ∀ {k n n'}, p.block k = .ok n → n'.deleted = n.deleted → (p.put k n').Unmarked h :=
    fun {k n n'} hn hsame => by
    by_cases hk : h = k
    · subst hk
      obtain rfl := Except.ok.inj (hn.symm.trans hx)
      exact ⟨n', block_put_self hn, hsame.trans hdel⟩
    · exact ⟨x, (block_put_ne hk).trans hx, hdel⟩
  cases ha with
  | @lend k _ he =>
    obtain ⟨-, -, n, -, hnew, hblock⟩ := lent_node he
    by_cases hk : h = k
    · exact ⟨n, (hblock h).trans (if_pos hk), hnew⟩
    · exact ⟨x, ((hblock h).trans (if_neg hk)).trans hx, hdel⟩
  | back he =>
    obtain rfl := release_of_ends he
    exact ⟨x, hx, hdel⟩
  | change hn _ hsame => exact hput hn hsame
  | store _ hn _ => exact hput hn rfl
  | drop hn _ => exact hput hn rfl
  | free hfrees => exact absurd hfrees hf

end Act

namespace Acts

theorem single (ha : Act stores frees p phases p') : Acts stores frees p phases p' := by
  rw [← List.append_nil phases]
  exact .cons ha .nil

theorem trans (h₁ : Acts stores frees p phases q) (h₂ : Acts stores frees q phases' p') :
    Acts stores frees p (phases ++ phases') p' := by
  induction h₁ with
  | nil => exact h₂
  | cons ha _ ih =>
    rw [List.append_assoc]
    exact .cons ha (ih h₂)

theorem mono (h : Acts stores frees p phases p') (hs : stores → stores') (hf : frees → frees') :
    Acts stores' frees' p phases p' := by
  induction h with
  | nil => exact .nil
  | cons ha _ ih => exact .cons (ha.mono hs hf) ih

/-- What is done to a pool takes every block through its phases in order. -/
theorem next (ha : Acts stores frees p phases p') (h : Handle) :
    phases.foldlM (Phase.next h) (p.waits h) = some (p'.waits h) := by
  induction ha with
  | nil => rfl
  | cons hact _ ih =>
    rw [List.foldlM_append, hact.next h]
    exact ih

theorem counts (ha : Acts stores frees p phases p') : p'.allocated = p.allocated + phases.countP Phase.isLent := by
  induction ha with
  | nil => rfl
  | cons hact _ ih =>
    rw [ih, hact.counts, List.countP_append]
    omega

theorem refs_le {b : Nat} (ha : Acts stores frees p phases p') (hs : ¬stores)
    (hle : ∀ h n, p.block h = .ok n → n.refs ≤ b) : ∀ h refs, .deferred h refs ∈ phases → 1 ≤ refs ∧ refs ≤ b := by
  induction ha with
  | nil => exact fun _ _ hmem => by cases hmem
  | cons hact _ ih =>
    obtain ⟨hle', hhere⟩ := hact.refs_le hs hle
    intro h refs hmem
    rcases List.mem_append.mp hmem with hmem | hmem
    · exact hhere h refs hmem
    · exact ih hle' h refs hmem

theorem frees_of_deferred {refs : Nat} (ha : Acts stores frees p phases p') (hmem : .deferred h refs ∈ phases) :
    frees := by
  induction ha with
  | nil => cases hmem
  | cons hact _ ih => exact (List.mem_append.mp hmem).elim hact.frees_of_deferred ih

theorem unmarked (ha : Acts stores frees p phases p') (hf : ¬frees) (hu : p.Unmarked h) : p'.Unmarked h := by
  induction ha with
  | nil => exact hu
  | cons hact _ ih => exact ih (hact.unmarked hf hu)

end Acts
end
end Pool
end MemoTree
