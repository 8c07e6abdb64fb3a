import MemoTree.Proofs.Allocation
import MemoTree.Proofs.Ledger

/-! # Lending

A pool by itself, whatever kind of block it has: blocks are handed out, written to and taken back in any order, as
long as only blocks that are out come back. What the pool counts is what was done (`Lending`): a handle is out once, a
block is made only when every other one is out, and a block that is handed out is as good as new whatever was written
to it. -/

namespace MemoTree
namespace Pool

/-- A change of who has a block. -/
inductive Deal where
  | lent (h : Handle)
  | back (h : Handle)

namespace Deal

/-- The handles that are out. The last deal comes first. -/
def onLoan : List Deal → List Handle
  | [] => []
  | .lent h :: past => h :: onLoan past
  | .back h :: past => (onLoan past).erase h

/-- The greatest number of handles that were out at one time. -/
def most : List Deal → Nat
  | [] => 0
  | deal :: past => max (most past) (onLoan (deal :: past)).length

/-- How often a block was handed out. -/
def loans : List Deal → Nat
  | [] => 0
  | .lent _ :: past => loans past + 1
  | .back _ :: past => loans past

/-- How often a block came back. -/
def returns : List Deal → Nat
  | [] => 0
  | .lent _ :: past => returns past
  | .back _ :: past => returns past + 1

section
variable {past : List Deal} {h : Handle}

/-- The most were out before a block came back. -/
theorem most_back (hle : (onLoan past).length ≤ most past) : most (.back h :: past) = most past :=
  Nat.max_eq_left (List.length_erase_le.trans hle)

@[simp] theorem onLoan_back : onLoan (.back h :: past) = (onLoan past).erase h := rfl

@[simp] theorem loans_back : loans (.back h :: past) = loans past := rfl

@[simp] theorem returns_back : returns (.back h :: past) = returns past + 1 := rfl

end
end Deal

open Deal

/-- A kind of block that is as good as new when it is renewed: a new block of `words` words is `zero`, and so is a
renewed one if what was written to it fits. -/
structure Renews (β : Type) [Block β] (words : Nat) (fits : β → Prop) (zero : β) : Prop where
  fresh : Block.fresh words = .ok zero
  newFits : fits zero
  renew : ∀ b, fits b → Block.renew b = .ok zero

/-- Any words may be written to a plain block, as long as there are as many of them. -/
theorem renews_words {words : Nat} (hfits : 8 * words ≤ addressable) :
    Renews (Array Word) words (·.size = words) (Array.replicate words 0) where
  fresh := if_pos hfits
  newFits := Array.size_replicate
  renew := by
    rintro b rfl
    rfl

/-- A node may be left with any words, marks and memos, as long as no memo names it. -/
theorem renews_node {blockWords : Nat} (hfits : 8 * (blockWords - reservedWords) ≤ addressable) :
    Renews Node blockWords (fun n => n.words.size = blockWords - reservedWords ∧ n.refs = 0)
      ⟨Array.replicate (blockWords - reservedWords) 0, 0, false, Ring.empty⟩ where
  fresh := Node.fresh_eq hfits
  newFits := ⟨Array.size_replicate, rfl⟩
  renew := by
    rintro n ⟨hsize, hrefs⟩
    change Node.renew n = _
    rw [Node.renew, if_pos hrefs, hsize]

/-- Calls lead from a new pool to `p`, and `past` is what they did. Only blocks that are out come back, and what is
written to a block fits. -/
inductive Dealt {β : Type} [Block β] (words : Nat) (limit : Option Nat) (fits : β → Prop) : List Deal → Pool β → Prop
  | start {reserve : Nat} {p : Pool β} : create words reserve limit = .ok p → Dealt words limit fits [] p
  | allocate {past p h p'} : Dealt words limit fits past p → Ends allocate p (.ok h) p' →
      Dealt words limit fits (.lent h :: past) p'
  | refused {past p e p'} : Dealt words limit fits past p → Ends allocate p (.error e) p' →
      Dealt words limit fits past p'
  | release {past p h p'} : Dealt words limit fits past p → h ∈ onLoan past → Ends (release h) p () p' →
      Dealt words limit fits (.back h :: past) p'
  | write {past p h b p'} : Dealt words limit fits past p → fits b → Ends (write h b) p () p' →
      Dealt words limit fits past p'

/-! ### What every call keeps -/

/-- The books of a pool: each block is out or on the free list, once, and the counts are those of what was done. -/
structure Booked {β : Type} (words : Nat) (limit : Option Nat) (fits : β → Prop) (past : List Deal)
    (p : Pool β) : Prop where
  blockWords : p.blockWords = words
  bound : p.limit = limit
  written : ∀ h b, p.block h = .ok b → fits b
  nodup : (onLoan past ++ p.free).Nodup
  made : ∀ h ∈ onLoan past ++ p.free, h.index < p.blocks.size
  all : (onLoan past ++ p.free).length = p.blocks.size
  loans : p.allocated = Deal.loans past
  returns : p.released = Deal.returns past
  balance : Deal.loans past = Deal.returns past + (onLoan past).length
  peak : p.peak = most past
  created : most past = p.blocks.size
  limited : ∀ l, limit = some l → (onLoan past).length ≤ l

section Books
variable {β : Type} {words : Nat} {limit : Option Nat} {fits : β → Prop} {b : β} {past : List Deal}
    {p : Pool β} {h : Handle}

namespace Booked

theorem outstanding (hb : Booked words limit fits past p) : p.outstanding = .ok (onLoan past).length := by
  have hloans := hb.loans
  have hreturns := hb.returns
  have hbalance := hb.balance
  rw [Pool.outstanding, if_pos (by omega), Except.ok.injEq]
  omega

theorem block (hb : Booked words limit fits past p) (hh : h ∈ onLoan past ++ p.free) : ∃ b, p.block h = .ok b :=
  ⟨_, block_eq_ok.mpr (Array.getElem?_eq_getElem (hb.made h hh))⟩

theorem atLimit (hb : Booked words limit fits past p) :
    p.atLimit (onLoan past).length = true ↔ limit = some (onLoan past).length := by
  rw [Pool.atLimit, hb.bound]
  cases hlimit : limit with
  | none => simp
  | some l =>
    have := hb.limited l hlimit
    simp only [decide_eq_true_eq, Option.some.injEq]
    omega

theorem empty (words : Nat) (limit : Option Nat) (fits : β → Prop) :
    Booked words limit fits [] (Pool.empty words limit) where
  blockWords := rfl
  bound := rfl
  written h b hb := by simp [Pool.empty, Pool.block] at hb
  nodup := List.nodup_nil
  made h hh := by cases hh
  all := rfl
  loans := rfl
  returns := rfl
  balance := rfl
  peak := rfl
  created := rfl
  limited l _ := Nat.zero_le l

theorem spare (hb : Booked words limit fits past p) (hspare : p.atLimit (onLoan past).length = false) :
    ∀ l, limit = some l → (onLoan past).length + 1 ≤ l := fun l hl => by
  rw [Pool.atLimit, hb.bound, hl, decide_eq_false_iff_not] at hspare
  omega

/-- A block that came back is out again. -/
theorem recycle {rest : List Handle} (hb : Booked words limit fits past p)
    (hspare : p.atLimit (onLoan past).length = false) (hfree : p.free = h :: rest) (hfits : fits b) :
    Booked words limit fits (.lent h :: past)
      (({ p.put h b with free := rest } : Pool β).countOut (onLoan past).length) := by
  have hperm : (onLoan past ++ p.free).Perm (h :: onLoan past ++ rest) := by
    rw [hfree]
    exact List.perm_middle
  have hlength := hperm.length_eq.symm.trans hb.all
  -- as many blocks were made as were ever out at once, so with one on the free list the record stands
  have hroom : (onLoan past).length + 1 ≤ most past := by
    rw [hb.created, ← hlength, List.length_append, List.length_cons]
    omega
  obtain ⟨x, hx⟩ := hb.block (hperm.symm.mem_iff.mp List.mem_cons_self)
  exact {
    blockWords := hb.blockWords
    bound := hb.bound
    written := fun k y hy => by
      by_cases hk : k = h
      · obtain rfl : b = y := Except.ok.inj ((block_put_self hx).symm.trans (hk ▸ hy))
        exact hfits
      · exact hb.written k y ((block_put_ne hk : (p.put h b).block k = _).symm.trans hy)
    nodup := hperm.nodup_iff.mp hb.nodup
    made := fun k hk => (hb.made k (hperm.mem_iff.mpr hk)).trans_eq (size_put p h b).symm
    all := hlength.trans (size_put p h b).symm
    loans := congrArg (· + 1) hb.loans
    returns := hb.returns
    balance := congrArg (· + 1) hb.balance
    peak := congrArg (max · _) hb.peak
    created := (Nat.max_eq_left hroom).trans (hb.created.trans (size_put p h b).symm)
    limited := hb.spare hspare }

/-- A new block is out. It is made because every other one is. -/
theorem make (hb : Booked words limit fits past p) (hspare : p.atLimit (onLoan past).length = false)
    (hfree : p.free = []) (hindex : Handle.ofIndex? p.blocks.size = some h) (hfits : fits b) :
    Booked words limit fits (.lent h :: past)
      (({ p with blocks := p.blocks.push b } : Pool β).countOut (onLoan past).length) := by
  have hh := Handle.index_of_ofIndex? hindex
  have hall : (onLoan past).length = p.blocks.size := by
    have := hb.all
    rwa [hfree, List.append_nil] at this
  have hsize : (p.blocks.push b).size = p.blocks.size + 1 := Array.size_push _
  have hmade : ∀ k ∈ onLoan past ++ p.free, k.index < (p.blocks.push b).size := fun k hk =>
    hsize ▸ Nat.lt_succ_of_lt (hb.made k hk)
  exact {
    blockWords := hb.blockWords
    bound := hb.bound
    written := fun k y hy => by
      rcases (block_push hh).mp hy with ⟨-, rfl⟩ | hy
      · exact hfits
      · exact hb.written k y hy
    nodup := List.nodup_cons.mpr ⟨fun hin => Nat.ne_of_lt (hb.made h hin) hh, hb.nodup⟩
    made := fun k hk => by
      rcases List.mem_cons.mp hk with rfl | hk
      · exact hh ▸ hsize ▸ Nat.lt_succ_self _
      · exact hmade k hk
    all := (congrArg (· + 1) hb.all).trans hsize.symm
    loans := congrArg (· + 1) hb.loans
    returns := hb.returns
    balance := congrArg (· + 1) hb.balance
    peak := congrArg (max · _) hb.peak
    created := by
      have hmost := hb.created
      change max (most past) ((onLoan past).length + 1) = (p.blocks.push b).size
      omega
    limited := hb.spare hspare }

/-- A block that was out is on the free list. -/
theorem takeBack (hb : Booked words limit fits past p) (hh : h ∈ onLoan past) :
    Booked words limit fits (.back h :: past)
      ({ p with free := h :: p.free, released := p.released + 1 } : Pool β) := by
  have hperm : (onLoan past ++ p.free).Perm ((onLoan past).erase h ++ h :: p.free) :=
    ((List.perm_cons_erase hh).append_right p.free).trans List.perm_middle.symm
  have hlength : ((onLoan past).erase h).length + 1 = (onLoan past).length := (List.perm_cons_erase hh).length_eq.symm
  have hbalance := hb.balance
  have hmost : (onLoan past).length ≤ most past := by
    rw [hb.created, ← hb.all, List.length_append]
    exact Nat.le_add_right _ _
  exact {
    blockWords := hb.blockWords
    bound := hb.bound
    written := hb.written
    nodup := hperm.nodup_iff.mp hb.nodup
    made := fun k hk => hb.made k (hperm.mem_iff.mpr hk)
    all := hperm.length_eq.symm.trans hb.all
    loans := hb.loans
    returns := congrArg (· + 1) hb.returns
    balance := by
      rw [loans_back, returns_back, onLoan_back]
      omega
    peak := hb.peak.trans (most_back hmost).symm
    created := (most_back hmost).trans hb.created
    limited := fun l hl => List.length_erase_le.trans (hb.limited l hl) }

/-- What is written to a block changes no count. -/
theorem write (hb : Booked words limit fits past p) (hfits : fits b) : Booked words limit fits past (p.put h b) where
  blockWords := hb.blockWords
  bound := hb.bound
  written k y hy := by
    by_cases hk : k = h
    · by_cases hx : ∃ x, p.block h = .ok x
      · obtain ⟨x, hx⟩ := hx
        obtain rfl : b = y := Except.ok.inj ((block_put_self hx).symm.trans (hk ▸ hy))
        exact hfits
      · rw [hk] at hy
        have hlt := index_lt hy
        rw [size_put] at hlt
        exact absurd ⟨_, block_eq_ok.mpr (Array.getElem?_eq_getElem hlt)⟩ hx
    · exact hb.written k y ((block_put_ne hk).symm.trans hy)
  nodup := hb.nodup
  made k hk := (hb.made k hk).trans_eq (size_put p h b).symm
  all := hb.all.trans (size_put p h b).symm
  loans := hb.loans
  returns := hb.returns
  balance := hb.balance
  peak := hb.peak
  created := hb.created.trans (size_put p h b).symm
  limited := hb.limited

end Booked
end Books
section Calls
variable {β : Type} [Block β] {words : Nat} {limit : Option Nat} {fits : β → Prop} {zero b : β} {past : List Deal}
  {p p' : Pool β} {answer : Except Error Handle} {h : Handle}

/-- An allocation keeps the books, whatever comes of it. -/
theorem Booked.allocates (hb : Booked words limit fits past p) (hr : Renews β words fits zero)
    (ha : Allocates p (onLoan past).length answer p') :
    (∀ h, answer = .ok h → Booked words limit fits (.lent h :: past) p') ∧ (∀ e, answer = .error e → p' = p) := by
  cases ha with
  | exhausted => exact ⟨fun _ hok => (by cases hok), fun _ _ => rfl⟩
  | unnumbered => exact ⟨fun _ hok => (by cases hok), fun _ _ => rfl⟩
  | recycled hspare hfree hx hx' =>
    obtain rfl := Except.ok.inj ((hr.renew _ (hb.written _ _ hx)).symm.trans hx')
    refine ⟨fun h hok => ?_, fun _ he => (by cases he)⟩
    cases hok
    exact hb.recycle hspare hfree hr.newFits
  | made hspare hfree hindex hx =>
    rw [hb.blockWords, hr.fresh] at hx
    cases hx
    refine ⟨fun h hok => ?_, fun _ he => (by cases he)⟩
    cases hok
    exact hb.make hspare hfree hindex hr.newFits

/-- A run keeps the books. -/
theorem Dealt.booked (hd : Dealt words limit fits past p) (hr : Renews β words fits zero) :
    Booked words limit fits past p := by
  induction hd with
  | start h =>
    rw [of_create h]
    exact .empty words limit fits
  | allocate _ he ih => exact (ih.allocates hr (allocates_of_ends he ih.outstanding)).1 _ rfl
  | refused _ he ih => exact (ih.allocates hr (allocates_of_ends he ih.outstanding)).2 _ rfl ▸ ih
  | @release past p h p' _ hh he ih =>
    have hfree : h ∉ p.free := fun hin => (List.nodup_append.mp ih.nodup).2.2 h hh h hin rfl
    obtain ⟨-, rfl⟩ := (runs_release hfree).of_ends he
    exact ih.takeBack hh
  | write _ hfits he ih => exact he.write ▸ ih.write hfits

theorem Booked.runs_allocate (hb : Booked words limit fits past p) (hr : Renews β words fits zero) :
    ∃ answer p', Runs allocate p answer p' := by
  suffices h : ∃ answer p', Allocates p (onLoan past).length answer p' by
    obtain ⟨answer, p', ha⟩ := h
    exact ⟨answer, p', ha.runs hb.outstanding⟩
  cases hlimit : p.atLimit (onLoan past).length with
  | true => exact ⟨_, _, .exhausted hlimit⟩
  | false =>
    cases hfree : p.free with
    | cons h rest =>
      obtain ⟨x, hx⟩ := hb.block (h := h) (List.mem_append_right _ (hfree ▸ List.mem_cons_self))
      exact ⟨_, _, .recycled hlimit hfree hx (hr.renew x (hb.written h x hx))⟩
    | nil =>
      cases hindex : Handle.ofIndex? p.blocks.size with
      | none => exact ⟨_, _, .unnumbered hlimit hfree hindex⟩
      | some h => exact ⟨_, _, .made hlimit hfree hindex (hb.blockWords ▸ hr.fresh)⟩

/-- What is handed out was not out, is as good as new, and nothing else changes hands. It is made if no block is free.
-/
structure Handout (zero : β) (past : List Deal) (p : Pool β) (h : Handle) (p' : Pool β) : Prop where
  spare : h ∉ onLoan past
  clean : p'.block h = .ok zero
  other : ∀ k ∈ onLoan past, p'.block k = p.block k
  size : p'.blocks.size = p.blocks.size + if p.free = [] then 1 else 0

theorem Booked.handout (hb : Booked words limit fits past p) (hr : Renews β words fits zero)
    (ha : Allocates p (onLoan past).length (.ok h) p') : Handout zero past p h p' := by
  cases ha with
  | @recycled _ _ x _ _ hfree hx hx' =>
    obtain rfl := Except.ok.inj ((hr.renew _ (hb.written _ _ hx)).symm.trans hx')
    have hspare : h ∉ onLoan past := fun hin =>
      (List.nodup_append.mp hb.nodup).2.2 h hin h (hfree ▸ List.mem_cons_self) rfl
    refine ⟨hspare, block_put_self hx, fun k hk => block_put_ne fun hkh => hspare (hkh ▸ hk), ?_⟩
    rw [hfree, if_neg (List.cons_ne_nil _ _)]
    exact size_put p h _
  | made _ hfree hindex hx =>
    have hh := Handle.index_of_ofIndex? hindex
    rw [hb.blockWords, hr.fresh] at hx
    cases hx
    have hold : ∀ k ∈ onLoan past, k.index ≠ p.blocks.size := fun k hk =>
      Nat.ne_of_lt (hb.made k (List.mem_append_left _ hk))
    refine ⟨fun hin => hold h hin hh, block_push_self hh, fun k hk => block_push_ne (hold k hk), ?_⟩
    rw [if_pos hfree]
    exact Array.size_push _

/-- While handles are left, an allocation fails only because as many blocks are out as may be. -/
theorem Booked.fails_iff (hb : Booked words limit fits past p)
    (hsmall : p.blocks.size < 2 ^ 32 - 1) :
    (∃ e p', Ends allocate p (.error e) p') ↔ limit = some (onLoan past).length := by
  refine ⟨fun ⟨e, p', he⟩ => ?_, fun hlimit => ?_⟩
  · cases allocates_of_ends he hb.outstanding with
    | exhausted hlimit => exact hb.atLimit.mp hlimit
    | unnumbered _ _ hindex =>
      unfold Handle.ofIndex? at hindex
      split at hindex
      · cases hindex
      · omega
  · exact ⟨_, _, ((Allocates.exhausted (hb.atLimit.mpr hlimit)).runs hb.outstanding).ends⟩

/-! ### The correctness of a pool -/

/-- The pool keeps count of what was done to it: of the blocks that are out, of the most that ever were, and of those it
made. It hands out what is not out, as good as new, and fails only where it may. -/
structure Lending (limit : Option Nat) (zero : β) (past : List Deal) (p : Pool β) : Prop where
  distinct : (onLoan past).Nodup
  stats : p.stats = .ok ⟨Deal.loans past, Deal.returns past, (onLoan past).length, most past, most past⟩
  difference : Deal.loans past = Deal.returns past + (onLoan past).length
  capacity : p.blocks.size = (onLoan past).length + p.free.length
  limited : ∀ l, limit = some l → (onLoan past).length ≤ l
  answers : ∃ answer p', Runs allocate p answer p'
  handout : ∀ h p', Ends allocate p (.ok h) p' → Handout zero past p h p'
  refuses : ∀ e p', Ends allocate p (.error e) p' → e = .outOfMemory (onLoan past).length ∧ p' = p
  fails_iff : p.blocks.size < 2 ^ 32 - 1 → ((∃ e p', Ends allocate p (.error e) p') ↔ limit = some (onLoan past).length)
  takes : ∀ h ∈ onLoan past, ∃ p', Runs (release h) p () p'

theorem Booked.accounts (hb : Booked words limit fits past p) (hr : Renews β words fits zero) :
    Lending limit zero past p where
  distinct := (List.nodup_append.mp hb.nodup).1
  stats := by
    rw [Pool.stats, hb.outstanding, hb.loans, hb.returns, hb.peak, ← hb.created]
    rfl
  difference := hb.balance
  capacity := hb.all.symm.trans List.length_append
  limited := hb.limited
  answers := hb.runs_allocate hr
  handout h p' he := hb.handout hr (allocates_of_ends he hb.outstanding)
  refuses e p' he := by
    cases allocates_of_ends he hb.outstanding with
    | exhausted => exact ⟨rfl, rfl⟩
    | unnumbered => exact ⟨rfl, rfl⟩
  fails_iff := hb.fails_iff
  takes h hh := ⟨_, runs_release fun hin => (List.nodup_append.mp hb.nodup).2.2 h hh h hin rfl⟩

/-- Whatever is lent by a pool and comes back to it, and whatever is written in between: the pool's counts are right,
and so is what it hands out next. -/
theorem Dealt.lending (hd : Dealt words limit fits past p) (hr : Renews β words fits zero) :
    Lending limit zero past p := (hd.booked hr).accounts hr

/-- This holds of pools of nodes, if no node is left with a word too many or too few, or counts a memo that names it. -/
theorem Dealt.lends_nodes {blockWords : Nat} {p : Pool Node} (hfits : 8 * (blockWords - reservedWords) ≤ addressable)
    (hd : Dealt blockWords limit (fun n => n.words.size = blockWords - reservedWords ∧ n.refs = 0) past p) :
    Lending limit ⟨Array.replicate (blockWords - reservedWords) 0, 0, false, Ring.empty⟩ past p :=
  (hd.booked (renews_node hfits)).accounts (renews_node hfits)

/-- A block that was written to comes back and is handed out again, from a pool that lends one block at a time. -/
theorem Dealt.lending_of_recycled :
    ∃ p : Pool (Array Word), Dealt 2 (some 1) (·.size = 2) [.lent ⟨0, by decide⟩, .back ⟨0, by decide⟩,
      .lent ⟨0, by decide⟩] p ∧ p.blocks = #[#[0, 0]] ∧
      Lending (some 1) (Array.replicate 2 0) [.lent ⟨0, by decide⟩, .back ⟨0, by decide⟩, .lent ⟨0, by decide⟩] p := by
  have h₁ : Dealt 2 (some 1) (·.size = 2) [] (Pool.empty 2 (some 1) : Pool (Array Word)) :=
    .start (rfl : create 2 0 (some 1) = .ok _)
  have h₂ := h₁.allocate (h := ⟨0, by decide⟩) ⟨#[], _, rfl⟩
  have h₃ := h₂.write (b := #[7, 9]) (h := ⟨0, by decide⟩) rfl (Runs.write _ _ _).ends
  have h₄ := h₃.release (h := ⟨0, by decide⟩) List.mem_cons_self ⟨#[], _, rfl⟩
  have h₅ := h₄.allocate (h := ⟨0, by decide⟩) ⟨#[], _, rfl⟩
  exact ⟨_, h₅, rfl, h₅.lending (renews_words (by decide))⟩

end Calls
end Pool
end MemoTree
