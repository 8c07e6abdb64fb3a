import MemoTree.Proofs.Layout
import MemoTree.Proofs.Ledger

/-! # Coherent memos

A memo says that a search for its key led from its owner to its child. It is coherent if a scan of the owner's
row still leads there, or if the child is deleted, so that the memo is not served (`Coherent`). Changes of a
tree only drop memos (`Fades`), and change what scans of a row find only where the ring is empty. -/

namespace MemoTree
namespace Pool

variable {p p' q : NodePool} {h k : Handle} {n n' : Node}

/-- The node is deleted. -/
def Dead (p : NodePool) (h : Handle) : Prop := ∃ n, p.block h = .ok n ∧ n.deleted = true

/-- Some memo names the node. -/
def Names (p : NodePool) (h : Handle) : Prop := ∃ k n, p.block k = .ok n ∧ ∃ m ∈ n.ring.memos, m.child = h

/-- The ring of the node is empty. -/
def Quiet (p : NodePool) (h : Handle) : Prop := ∀ n, p.block h = .ok n → n.ring.memos = []

theorem Dead.not_live (hd : p.Dead h) : ¬p.Live h := by
  obtain ⟨n, hn, hdel⟩ := hd
  exact not_live_of_deleted hn hdel

theorem exists_block_of_size (hs : p'.blocks.size = p.blocks.size) (hn : p'.block h = .ok n') :
    ∃ n, p.block h = .ok n := by
  have hlt := index_lt hn
  rw [hs] at hlt
  exact ⟨p.blocks[h.index], block_eq_ok.mpr (Array.getElem?_eq_getElem hlt)⟩

theorem quiet_of_hands (hh : NodePool.Hands p p' h) : p'.Quiet h := fun n hn => by
  rw [hh.clean] at hn
  cases hn
  exact Ring.memos_empty

/-- A node that is not in use has no memos. -/
theorem Ledger.quiet (hl : Ledger p []) (hh : ¬p.Live h) : p.Quiet h := fun n hn => by
  by_cases hf : h ∈ p.free
  · obtain ⟨x, hx, -, hring⟩ := hl.free h hf
    rw [hn] at hx
    cases hx
    exact hring
  · cases hd : n.deleted with
    | true => exact (hl.deleted h n hn hd).1
    | false => exact absurd ⟨n, hn, hd, hf⟩ hh

/-! ### Memos only go -/

/-- No memo comes, and a deleted node that is still named stays deleted. -/
structure Fades (p p' : NodePool) : Prop where
  ring : ∀ h n', p'.block h = .ok n' → n'.ring.memos = [] ∨ ∃ n, p.block h = .ok n ∧ n'.ring.memos = n.ring.memos
  dead : ∀ h, p.Dead h → p'.Names h → p'.Dead h
  blockWords : p'.blockWords = p.blockWords
  limit : p'.limit = p.limit

namespace Fades

theorem refl (p : NodePool) : Fades p p := ⟨fun _ n hn => Or.inr ⟨n, hn, rfl⟩, fun _ hd _ => hd, rfl, rfl⟩

theorem names (hf : Fades p p') (hn : p'.Names h) : p.Names h := by
  obtain ⟨k, n', hn', m, hm, rfl⟩ := hn
  rcases hf.ring k n' hn' with hnil | ⟨n, hn, heq⟩
  · rw [hnil] at hm
    cases hm
  · exact ⟨k, n, hn, m, heq ▸ hm, rfl⟩

theorem quiet (hf : Fades p p') (hq : p.Quiet h) : p'.Quiet h := fun n' hn' => by
  rcases hf.ring h n' hn' with hnil | ⟨n, hn, heq⟩
  · exact hnil
  · rw [heq, hq n hn]

theorem trans (h₁ : Fades p p') (h₂ : Fades p' q) : Fades p q where
  ring h n hn := by
    rcases h₂.ring h n hn with hnil | ⟨n₁, hn₁, heq⟩
    · exact Or.inl hnil
    · rw [heq]
      exact h₁.ring h n₁ hn₁
  dead h hd hn := h₂.dead h (h₁.dead h hd (h₂.names hn)) hn
  blockWords := h₂.blockWords.trans h₁.blockWords
  limit := h₂.limit.trans h₁.limit

/-- Emptying a ring. -/
theorem of_sheds {gone : Bool} (hs : NodePool.Sheds p p' h gone) : Fades p p' where
  ring k n' hn' := by
    obtain ⟨n, hn⟩ := exists_block_of_size hs.size hn'
    obtain ⟨refs, hx⟩ := hs.block k n hn
    rw [hn'] at hx
    cases hx
    by_cases hk : k = h
    · rw [if_pos hk]
      exact Or.inl Ring.memos_empty
    · rw [if_neg hk]
      exact Or.inr ⟨n, hn, rfl⟩
  dead k hd _ := by
    obtain ⟨n, hn, hdel⟩ := hd
    obtain ⟨refs, hx⟩ := hs.block k n hn
    exact ⟨_, hx, by rw [hdel, Bool.true_or]⟩
  blockWords := hs.blockWords
  limit := hs.limit

/-- Handing out a node. -/
theorem of_hands (hh : NodePool.Hands p p' h) : Fades p p' where
  ring k n' hn' := by
    by_cases hk : k = h
    · rw [hk, hh.clean] at hn'
      cases hn'
      exact Or.inl Ring.memos_empty
    · rw [hh.other k hk] at hn'
      exact Or.inr ⟨n', hn', rfl⟩
  dead k hd hnm := by
    obtain ⟨n, hn, hdel⟩ := hd
    by_cases hk : k = h
    · obtain ⟨i, n', hn', m, hm, hmk⟩ := hnm
      by_cases hi : i = h
      · rw [hi, hh.clean] at hn'
        cases hn'
        rw [Ring.memos_empty] at hm
        cases hm
      · rw [hh.other i hi] at hn'
        exact absurd (hmk.trans hk) (hh.unnamed i n' hn' m hm)
    · exact ⟨n, (hh.other k hk).trans hn, hdel⟩
  blockWords := hh.blockWords
  limit := hh.limit

/-- Replacing a node by one with the same memos and the same mark. -/
theorem of_same (hn : p.block h = .ok n) (hm : n'.ring.memos = n.ring.memos) (hd : n'.deleted = n.deleted) :
    Fades p (p.put h n') where
  ring k x hx := by
    rw [block_put hn] at hx
    split at hx
    · rename_i hk
      cases hx
      exact Or.inr ⟨n, hk ▸ hn, hm⟩
    · exact Or.inr ⟨x, hx, rfl⟩
  dead k hdead _ := by
    obtain ⟨x, hx, hdel⟩ := hdead
    by_cases hk : k = h
    · rw [hk, hn] at hx
      cases hx
      rw [hk]
      exact ⟨n', block_put_self hn, hd.trans hdel⟩
    · exact ⟨x, (block_put_ne hk).trans hx, hdel⟩
  blockWords := rfl
  limit := rfl

theorem of_back (p : NodePool) (h : Handle) (released : Nat) :
    Fades p { p with free := h :: p.free, released := released } :=
  ⟨fun _ n hn => Or.inr ⟨n, hn, rfl⟩, fun _ hd _ => hd, rfl, rfl⟩

end Fades
end Pool

/-! ### Coherence -/

/-- Every memo of every ring is coherent with the rows `c`, unless its child is in `late`, which is about to be
deleted. No two rings name one node, and a ring has at most one memo for a key whose child is not deleted. -/
structure Coherent (w : Width) (p : NodePool) (c : Rows) (late : List Handle) : Prop where
  serves : ∀ h n, p.block h = .ok n → ∀ m ∈ n.ring.memos, p.Dead m.child ∨ m.child ∈ late ∨
    ∃ x < 2 ^ w.bits, m.key = Words.ofNat w.words x ∧ c.look x h = some m.child
  solo : ∀ h h' n n', p.block h = .ok n → p.block h' = .ok n' → ∀ m ∈ n.ring.memos, ∀ m' ∈ n'.ring.memos,
    m.child = m'.child → h = h'
  single : ∀ h n, p.block h = .ok n →
    n.ring.memos.Pairwise fun m m' => m.key = m'.key → p.Dead m.child ∨ p.Dead m'.child

namespace Coherent
open Pool
variable {w : Width} {p p' : NodePool} {c c' : Rows} {late late' : List Handle}

/-- Memos stay coherent if they only go and the rows of the nodes that keep theirs lead where they led. -/
theorem fade (hc : Coherent w p c late) (hf : Fades p p') (hlate : ∀ k ∈ late, k ∈ late' ∨ p'.Dead k)
    (hlook : ∀ h, ¬p'.Quiet h → ∀ x k, c.look x h = some k → k ∈ late' ∨ c'.look x h = some k) :
    Coherent w p' c' late' where
  serves h n' hn' m hm := by
    rcases hf.ring h n' hn' with hnil | ⟨n, hn, heq⟩
    · rw [hnil] at hm
      cases hm
    · -- a node with a memo is not quiet, so its row leads where it led
      have hloud : ¬p'.Quiet h := fun hq => by
        rw [hq n' hn'] at hm
        cases hm
      have hnames : p'.Names m.child := ⟨h, n', hn', m, hm, rfl⟩
      rw [heq] at hm
      rcases hc.serves h n hn m hm with hd | hl | ⟨x, hx, hk, hlk⟩
      · exact Or.inl (hf.dead _ hd hnames)
      · exact (hlate _ hl).elim (fun hl => Or.inr (Or.inl hl)) Or.inl
      · exact Or.inr ((hlook h hloud x _ hlk).imp id fun hlk => ⟨x, hx, hk, hlk⟩)
  solo h h' n n' hn hn' m hm m' hm' hmm := by
    rcases hf.ring h n hn with hnil | ⟨a, ha, heq⟩
    · rw [hnil] at hm
      cases hm
    rcases hf.ring h' n' hn' with hnil | ⟨a', ha', heq'⟩
    · rw [hnil] at hm'
      cases hm'
    exact hc.solo h h' a a' ha ha' m (heq ▸ hm) m' (heq' ▸ hm') hmm
  single h n' hn' := by
    rcases hf.ring h n' hn' with hnil | ⟨n, hn, heq⟩
    · rw [hnil]
      exact List.Pairwise.nil
    · have hnames : ∀ m ∈ n.ring.memos, p'.Names m.child := fun m hm => ⟨h, n', hn', m, heq ▸ hm, rfl⟩
      rw [heq]
      refine (hc.single h n hn).imp_of_mem fun {m m'} hm hm' hdead hkey => ?_
      exact (hdead hkey).imp (fun hd => hf.dead _ hd (hnames m hm)) fun hd => hf.dead _ hd (hnames m' hm')

/-- Memos stay coherent with rows that lead wherever the old ones led. -/
theorem mono (hc : Coherent w p c late) (hf : Fades p p')
    (hlook : ∀ h, ¬p'.Quiet h → ∀ x k, c.look x h = some k → c'.look x h = some k) : Coherent w p' c' late :=
  hc.fade hf (fun _ hk => Or.inl hk) fun h hh x k hlk => Or.inr (hlook h hh x k hlk)

end Coherent
end MemoTree
