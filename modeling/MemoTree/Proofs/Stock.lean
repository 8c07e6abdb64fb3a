import MemoTree.Proofs.Coherence
import MemoTree.Proofs.RowEdits

/-! # The stock of nodes

A pool holds the rows `c` if the words of every node in use pack its row (`Stock`). Here is what each change of
a pool does to the rows. A change that only writes words keeps which nodes are in use (`Edits`). -/

namespace MemoTree
open Pool NodePool

/-- The ledger of `p` is settled, all its blocks are laid out as `g` says, and the nodes in use hold the rows `c`. -/
structure Stock (g : Geometry) (p : NodePool) (c : Rows) : Prop where
  ledger : Ledger p []
  size : ∀ h n, p.block h = .ok n → n.words.size = g.slotWords
  blockWords : p.blockWords = g.blockWords
  packs : ∀ h n, p.block h = .ok n → p.Live h → Packs g n.words (c h)

/-- Words are written, or rings turned, and nothing else. -/
structure Edits (p p' : NodePool) : Prop where
  fades : Fades p p'
  live : ∀ k, p'.Live k ↔ p.Live k
  out : p'.out = p.out

namespace Edits
variable {p p' q : NodePool} {h : Handle} {n : Node}

theorem refl (p : NodePool) : Edits p p := ⟨Fades.refl p, fun _ => Iff.rfl, rfl⟩

theorem trans (h₁ : Edits p p') (h₂ : Edits p' q) : Edits p q :=
  ⟨h₁.fades.trans h₂.fades, fun k => (h₂.live k).trans (h₁.live k), h₂.out.trans h₁.out⟩

theorem of_same {n' : Node} (hn : p.block h = .ok n) (hm : n'.ring.memos = n.ring.memos) (hd : n'.deleted = n.deleted) :
    Edits p (p.put h n') :=
  ⟨Fades.of_same hn hm hd, fun _ => live_put _ hn hd, by rw [Pool.out, size_put]; rfl⟩

theorem of_words (hn : p.block h = .ok n) (words : Array Word) : Edits p (p.put h { n with words := words }) :=
  of_same hn rfl rfl

end Edits

namespace Stock
variable {g : Geometry} {p p' : NodePool} {c c' : Rows} {h k : Handle} {n : Node} {row : Row}

theorem node (hs : Stock g p c) (hh : p.Live h) : ∃ n, p.block h = .ok n ∧ Packs g n.words (c h) := by
  obtain ⟨n, hn, -⟩ := id hh
  exact ⟨n, hn, hs.packs h n hn hh⟩

theorem congr (hs : Stock g p c) (hc : ∀ h, p.Live h → c' h = c h) : Stock g p c' where
  ledger := hs.ledger
  size := hs.size
  blockWords := hs.blockWords
  packs h n hn hh := by
    rw [hc h hh]
    exact hs.packs h n hn hh

/-- Writing the words of a node changes its row. -/
theorem write (hs : Stock g p c) (hn : p.block h = .ok n) {words : Array Word} (hw : Packs g words row) :
    Stock g (p.put h { n with words := words }) (Function.update c h row) where
  ledger := ledger_put_words hs.ledger hn words
  size k x hx := by
    rw [block_put hn] at hx
    split at hx
    · cases hx
      exact hw.lays.size
    · exact hs.size k x hx
  blockWords := hs.blockWords
  packs k x hx hk := by
    replace hk := ((Edits.of_words hn words).live k).mp hk
    rw [block_put hn] at hx
    split at hx
    · rename_i hkh
      cases hx
      rwa [hkh, Function.update_self]
    · rename_i hkh
      rw [Function.update_of_ne hkh]
      exact hs.packs k x hx hk

/-- Emptying a ring keeps the rows. -/
theorem sheds {gone : Bool} (hs : Stock g p c) (hl : Ledger p' []) (hsheds : Sheds p p' h gone) : Stock g p' c where
  ledger := hl
  size k x hx := by
    obtain ⟨y, hy⟩ := exists_block_of_size hsheds.size hx
    obtain ⟨refs, hx'⟩ := hsheds.block k y hy
    rw [hx] at hx'
    cases hx'
    exact hs.size k y hy
  blockWords := hsheds.blockWords.trans hs.blockWords
  packs k x hx hk := by
    obtain ⟨y, hy⟩ := exists_block_of_size hsheds.size hx
    obtain ⟨refs, hx'⟩ := hsheds.block k y hy
    rw [hx] at hx'
    cases hx'
    exact hs.packs k y hy ((hsheds.live k).mp hk).1

theorem slotWords_eq (hs : Stock g p c) : p.blockWords - reservedWords = g.slotWords := by
  rw [hs.blockWords, Geometry.blockWords, Nat.add_sub_cancel]

/-- A node that is handed out has no pairs. -/
theorem hands (hs : Stock g p c) (hl : Ledger p' []) (hh : Hands p p' h) : Stock g p' (Function.update c h []) where
  ledger := hl
  size k x hx := by
    by_cases hk : k = h
    · rw [hk, hh.clean] at hx
      cases hx
      rw [hs.slotWords_eq, Array.size_replicate]
    · rw [hh.other k hk] at hx
      exact hs.size k x hx
  blockWords := hh.blockWords.trans hs.blockWords
  packs k x hx hk := by
    by_cases hkh : k = h
    · rw [hkh, hh.clean] at hx
      cases hx
      rw [hkh, Function.update_self, hs.slotWords_eq]
      exact Packs.nil g
    · rw [hh.other k hkh] at hx
      rw [Function.update_of_ne hkh]
      exact hs.packs k x hx (((hh.live k).mp hk).resolve_right hkh)

/-- Giving a node back that has no memos and that no memo names. -/
theorem back (hs : Stock g p c) (hh : p.Live h) (hn : p.block h = .ok n) (hrefs : n.refs = 0)
    (hring : n.ring.memos = []) : Stock g { p with free := h :: p.free, released := p.released + 1 } c where
  ledger := by
    obtain ⟨-, -, -, hout⟩ := hh
    exact release_spec hs.ledger hn hout hrefs hring
  size := hs.size
  blockWords := hs.blockWords
  packs k x hx hk := hs.packs k x hx ((live_back p h k _).mp hk).1

/-- A pool whose nodes can be laid out hands out a block unless it is exhausted. -/
theorem allocate (hs : Stock g p c) (hfits : 8 * g.slotWords ≤ addressable) :
    (∃ inUse, Runs Pool.allocate p (.error (.outOfMemory inUse)) p ∧ Exhausted p inUse) ∨
      ∃ h p', Runs Pool.allocate p (.ok h) p' ∧ Hands p p' h ∧ Stock g p' (Function.update c h []) := by
  rcases allocate_spec hs.ledger (by rwa [hs.slotWords_eq]) (fun k n hn =>
    (hs.size k n hn).trans hs.slotWords_eq.symm) with ⟨inUse, hrun, hex⟩ | ⟨h, p', hrun, hl, hh⟩
  · exact Or.inl ⟨inUse, hrun, hex⟩
  · exact Or.inr ⟨h, p', hrun, hh, hs.hands hl hh⟩

/-- The ring of a node whose row has changed is emptied, unless the node is a leaf, which has no memos. -/
theorem invalidate (hs : Stock g p c) (hh : p.Live h) (level : Nat) (hquiet : ¬1 < level → p.Quiet h) :
    ∃ p', Stock g p' c ∧ Fades p p' ∧ (∀ k, p'.Live k ↔ p.Live k) ∧ p'.Quiet h ∧
      ∀ {α : Type} {f : Unit → NodeM α} {a : α} {q : NodePool}, Runs (f ()) p' a q →
        Runs (if level > 1 then NodePool.invalidate h >>= f else f ()) p a q := by
  by_cases hlevel : level > 1
  · obtain ⟨n, hn, -⟩ := hs.node hh
    obtain ⟨p', hrun, hl, hsheds⟩ := invalidate_spec hs.ledger hn
    refine ⟨p', hs.sheds hl hsheds, Fades.of_sheds hsheds, fun k => ?_, fun x hx => ?_, fun hf =>
      Runs.of_pos hlevel (Runs.bind hrun hf)⟩
    · rw [hsheds.live]
      simp
    · obtain ⟨refs, hx'⟩ := hsheds.block h n hn
      rw [hx'] at hx
      cases hx
      rw [if_pos rfl]
      exact Ring.memos_empty
  · exact ⟨p, hs, Fades.refl p, fun _ => Iff.rfl, hquiet hlevel, fun hf => Runs.of_neg hlevel hf⟩

end Stock
end MemoTree
