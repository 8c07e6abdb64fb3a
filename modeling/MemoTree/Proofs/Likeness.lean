import MemoTree.Proofs.Slots

/-! # Nodes that look alike

Two nodes look alike if they hold the same keys and value words that match, slot by slot (`Akin`). What matches is a
parameter: the words themselves, or handles of nodes that look alike in turn. Whatever is read from the keys is the
same for both nodes, and what is written to both alike leaves them alike. -/

namespace MemoTree

/-- Where both computations give a result, the results are related. -/
def Agree {α β : Type} (R : α → β → Prop) (e : Except Fault α) (e' : Except Fault β) : Prop :=
  ∀ a b, e = .ok a → e' = .ok b → R a b

namespace Agree
variable {α β γ δ : Type} {R : α → β → Prop} {S : γ → δ → Prop}

theorem pure {a : α} {b : β} (h : R a b) : Agree R (pure a) (pure b) := fun _ _ ha hb => by
  cases ha
  cases hb
  exact h

theorem bind {e : Except Fault α} {e' : Except Fault β} {f : α → Except Fault γ}
    {f' : β → Except Fault δ} (he : Agree R e e')
    (hf : ∀ a b, R a b → Agree S (f a) (f' b)) : Agree S (e >>= f) (e' >>= f') := fun c d hc hd => by
  cases e with
  | error => cases hc
  | ok a =>
    cases e' with
    | error => cases hd
    | ok b => exact hf a b (he a b rfl rfl) c d hc hd

theorem mono {R' : α → β → Prop} {e : Except Fault α} {e' : Except Fault β} (h : Agree R e e')
    (hR : ∀ a b, R a b → R' a b) : Agree R' e e' := fun a b ha hb => hR a b (h a b ha hb)

theorem of_eq {e e' : Except Fault α} (h : e' = e) : Agree (fun a b => e = .ok a ∧ b = a) e e' := fun a b ha hb =>
  ⟨ha, by rw [h, ha] at hb; exact (Except.ok.inj hb).symm⟩

end Agree

/-- Words that match: zero and zero, or two others. -/
structure Matches (V : Word → Word → Prop) : Prop where
  zero : V 0 0
  used : ∀ {v v'}, V v v' → (v = 0 ↔ v' = 0)

/-- Two nodes hold the same keys and value words that match. Apart from their words they are the two nodes `base`. -/
structure Akin (g : Geometry) (V : Word → Word → Prop) (base : Node × Node) (n n' : Node) : Prop where
  sizes : n.words.size = g.slotWords ∧ n'.words.size = g.slotWords
  kept : n = { base.1 with words := n.words } ∧ n' = { base.2 with words := n'.words }
  word : ∀ i < g.keyRegion, n'.words[i]? = n.words[i]?
  value : ∀ i v v', n.words[g.keyRegion + i]? = some v → n'.words[g.keyRegion + i]? = some v' → V v v'

namespace Node
variable {g : Geometry} {n : Node} {i : Nat}

/-- The search in a row of slots depends on those slots alone. -/
theorem firstSlot_congr {holds holds' : Nat → Except Fault Bool} {left i : Nat}
    (h : ∀ j, i ≤ j → j < i + left → holds' j = holds j) : firstSlot holds' left i = firstSlot holds left i := by
  induction left generalizing i with
  | zero => rfl
  | succ left ih =>
    rw [firstSlot, firstSlot, h i (Nat.le_refl i) (by omega), ih fun j hj hlt => h j (by omega) (by omega)]

theorem position_le {key : Words} (h : n.position g key = .ok i) : i ≤ g.pairs := by
  have := (of_firstSlot h).2.1
  omega

theorem fillFrom_le {start : Nat} (h : n.fillFrom g start = .ok i) : i ≤ g.pairs := by
  have := (of_firstSlot h).2.1
  omega

theorem le_fillFrom {start : Nat} (hle : start ≤ g.pairs) (h : n.fillFrom g start = .ok i) : start ≤ i := by
  have := (of_firstSlot h).1
  omega

/-- A value word is read from the slots of the node only. -/
theorem lt_of_value {v : Word} (hsize : n.words.size = g.slotWords) (h : n.value g i = .ok v) : i < g.pairs := by
  unfold value at h
  split at h
  · rename_i hv
    have := (Array.getElem?_eq_some_iff.mp hv).1
    rw [hsize, Geometry.slotWords] at this
    omega
  · cases h

theorem lt_of_holdsAt {pos fill : Nat} {key : Words} (h : n.holdsAt g pos fill key = .ok true) : pos < fill := by
  unfold holdsAt at h
  split at h
  · assumption
  · cases h

end Node

namespace Akin
variable {g : Geometry} {V : Word → Word → Prop} {base : Node × Node} {n n' : Node} {i : Nat} {key : Words}

/-! ### Reading -/

theorem key_eq (h : Akin g V base n n') (hi : i < g.pairs) : n'.key g i = n.key g i := by
  have hend := Geometry.key_end_le hi
  have hwords : n'.words.extract (i * g.keyLength) (i * g.keyLength + g.keyLength) =
      n.words.extract (i * g.keyLength) (i * g.keyLength + g.keyLength) := by
    refine Array.ext_getElem? fun j => ?_
    rw [Array.getElem?_extract, Array.getElem?_extract, h.sizes.1, h.sizes.2]
    split
    · exact h.word _ (by omega)
    · rfl
  rw [Node.key, Node.key, h.sizes.1, h.sizes.2, hwords]

theorem values (h : Akin g V base n n') (i : Nat) : Agree V (n.value g i) (n'.value g i) := fun v v' hv hv' => by
  unfold Node.value at hv hv'
  split at hv
  · rename_i hw
    split at hv'
    · rename_i hw'
      cases hv
      cases hv'
      exact h.value i _ _ hw hw'
    · cases hv'
  · cases hv

/-- Both slots are used or neither is. -/
theorem empty_eq (h : Akin g V base n n') (hV : Matches V) (i : Nat) :
    (n'.value g i >>= fun v => (return v == 0 : Except Fault Bool)) = n.value g i >>= fun v => return v == 0 := by
  unfold Node.value
  by_cases hi : g.keyRegion + i < g.slotWords
  · obtain ⟨v, hw⟩ : ∃ v, n.words[g.keyRegion + i]? = some v := ⟨_, Array.getElem?_eq_getElem (h.sizes.1 ▸ hi)⟩
    obtain ⟨v', hw'⟩ : ∃ v', n'.words[g.keyRegion + i]? = some v' := ⟨_, Array.getElem?_eq_getElem (h.sizes.2 ▸ hi)⟩
    have hused := hV.used (h.value i _ _ hw hw')
    rw [hw, hw']
    exact congrArg Except.ok (Bool.eq_iff_iff.mpr (by rw [beq_iff_eq, beq_iff_eq]; exact hused.symm))
  · rw [Array.getElem?_eq_none (by rw [h.sizes.2]; omega), Array.getElem?_eq_none (by rw [h.sizes.1]; omega)]

theorem compareKey_eq (h : Akin g V base n n') (hi : i < g.pairs) : n'.compareKey g i key = n.compareKey g i key := by
  rw [Node.compareKey, Node.compareKey, h.key_eq hi]

theorem position_eq (h : Akin g V base n n') (key : Words) : n'.position g key = n.position g key :=
  Node.firstSlot_congr fun j _ hj => by rw [h.compareKey_eq (by omega)]

theorem fillFrom_eq (h : Akin g V base n n') (hV : Matches V) (start : Nat) :
    n'.fillFrom g start = n.fillFrom g start :=
  Node.firstSlot_congr fun j _ _ => h.empty_eq hV j

theorem fill_eq (h : Akin g V base n n') (hV : Matches V) : n'.fill g = n.fill g := h.fillFrom_eq hV 0

theorem holdsAt_eq (h : Akin g V base n n') {pos fill : Nat} (hfill : fill ≤ g.pairs) :
    n'.holdsAt g pos fill key = n.holdsAt g pos fill key := by
  unfold Node.holdsAt
  split
  · rw [h.compareKey_eq (by omega)]
  · rfl

/-- The pairs in a row of slots, with the same keys. -/
theorem pairsFrom (h : Akin g V base n n') {count start : Nat} (hle : start + count ≤ g.pairs) :
    Agree (fun l l' => l.length = count ∧ List.Forall₂ (fun e e' : Words × Word => e'.1 = e.1 ∧ V e.2 e'.2) l l')
      (n.pairsFrom g count start) (n'.pairsFrom g count start) := by
  induction count generalizing start with
  | zero => exact Agree.pure ⟨rfl, .nil⟩
  | succ count ih =>
    rw [Node.pairsFrom, Node.pairsFrom, Node.pair, Node.pair, h.key_eq (by omega)]
    refine Agree.bind (Agree.bind (Agree.of_eq rfl) fun key _ hkey => Agree.bind (h.values start) fun v v' hv =>
      Agree.pure (R := fun e e' : Words × Word => e'.1 = e.1 ∧ V e.2 e'.2) ⟨hkey.2, hv⟩) fun e e' he => ?_
    exact Agree.bind (ih (by omega)) fun l l' hl => Agree.pure ⟨congrArg (· + 1) hl.1, .cons he hl.2⟩

/-! ### Writing -/

theorem rewritten (h : Akin g V base n n') (words words' : Array Word) :
    { n with words := words } = { base.1 with words := words } ∧
    { n' with words := words' } = { base.2 with words := words' } :=
  ⟨congrArg (fun m : Node => { m with words := words }) h.kept.1,
    congrArg (fun m : Node => { m with words := words' }) h.kept.2⟩

theorem writeKey (h : Akin g V base n n') (hi : i < g.pairs) (key : Words) :
    Agree (Akin g V base) (n.writeKey g i key) (n'.writeKey g i key) := fun a b ha hb => by
  have hend := Geometry.key_end_le hi
  have hfit : i * g.keyLength + g.keyLength ≤ g.slotWords := by
    rw [Geometry.slotWords]
    omega
  rw [Node.writeKey, h.sizes.1, if_pos hfit] at ha
  rw [Node.writeKey, h.sizes.2, if_pos hfit] at hb
  split at ha
  · rename_i hlen
    rw [if_pos hlen] at hb
    cases ha
    cases hb
    have hget : ∀ words : Array Word, words.size = g.slotWords → ∀ j, (Node.writeFrom words (i * g.keyLength) key)[j]? =
        if i * g.keyLength ≤ j ∧ j < i * g.keyLength + key.length then key[j - i * g.keyLength]? else words[j]? :=
      fun words hsize => Node.getElem?_writeFrom words _ key (by rw [hsize, hlen]; exact hfit)
    refine ⟨⟨(Node.size_writeFrom ..).trans h.sizes.1, (Node.size_writeFrom ..).trans h.sizes.2⟩,
      h.rewritten _ _, fun j hj => ?_, fun j v v' hv hv' => ?_⟩
    · rw [hget _ h.sizes.1, hget _ h.sizes.2, h.word j hj]
    · rw [hget _ h.sizes.1, if_neg (by omega)] at hv
      rw [hget _ h.sizes.2, if_neg (by omega)] at hv'
      exact h.value j v v' hv hv'
  · cases ha

theorem writeValue (h : Akin g V base n n') (i : Nat) {v v' : Word} (hv : V v v') :
    Agree (Akin g V base) (n.writeValue g i v) (n'.writeValue g i v') := fun a b ha hb => by
  unfold Node.writeValue at ha hb
  split at ha
  · rename_i hi
    split at hb
    · rename_i hi'
      cases ha
      cases hb
      refine ⟨⟨Array.size_setIfInBounds.trans h.sizes.1, Array.size_setIfInBounds.trans h.sizes.2⟩,
        h.rewritten _ _, fun j hj => ?_, fun j x x' hx hx' => ?_⟩
      · rw [Array.getElem?_setIfInBounds, Array.getElem?_setIfInBounds, if_neg (by omega),
          if_neg (by omega), h.word j hj]
      · rw [Array.getElem?_setIfInBounds] at hx hx'
        by_cases hij : g.keyRegion + i = g.keyRegion + j
        · rw [if_pos hij, if_pos hi] at hx
          rw [if_pos hij, if_pos hi'] at hx'
          cases hx
          cases hx'
          exact hv
        · rw [if_neg hij] at hx hx'
          exact h.value j x x' hx hx'
    · cases hb
  · cases ha

theorem writePair (h : Akin g V base n n') (hi : i < g.pairs) (key : Words) {v v' : Word} (hv : V v v') :
    Agree (Akin g V base) (n.writePair g i key v) (n'.writePair g i key v') := by
  rw [Node.writePair, Node.writePair]
  exact Agree.bind (h.writeKey hi key) fun _ _ h => h.writeValue i hv

theorem copySlot (h : Akin g V base n n') {source target : Nat} (hs : source < g.pairs) (ht : target < g.pairs) :
    Agree (Akin g V base) (n.copySlot g source target) (n'.copySlot g source target) := by
  rw [Node.copySlot, Node.copySlot, h.key_eq hs]
  refine Agree.bind (Agree.of_eq rfl) fun key _ hkey => ?_
  rw [hkey.2]
  exact Agree.bind (h.writeKey ht key) fun _ _ h => Agree.bind (h.values source) fun _ _ hv => h.writeValue target hv

theorem clearSlot (h : Akin g V base n n') (hV : Matches V) (hi : i < g.pairs) :
    Agree (Akin g V base) (n.clearSlot g i) (n'.clearSlot g i) := h.writePair hi _ hV.zero

theorem raise {start count : Nat} (hle : start + count < g.pairs) : ∀ {n n' : Node}, Akin g V base n n' →
    Agree (Akin g V base) (Node.raise g start count n) (Node.raise g start count n') := by
  induction count with
  | zero => exact fun h => Agree.pure h
  | succ count ih =>
    intro n n' h
    rw [Node.raise, Node.raise]
    exact Agree.bind (h.copySlot (by omega) (by omega)) fun _ _ h => ih (by omega) h

theorem lower {shift count start : Nat} (hle : start + shift + count ≤ g.pairs) : ∀ {n n' : Node}, Akin g V base n n' →
    Agree (Akin g V base) (Node.lower g shift count start n) (Node.lower g shift count start n') := by
  induction count generalizing start with
  | zero => exact fun h => Agree.pure h
  | succ count ih =>
    intro n n' h
    rw [Node.lower, Node.lower]
    exact Agree.bind (h.copySlot (by omega) (by omega)) fun _ _ h => ih (by omega) h

theorem clearFrom (hV : Matches V) {count start : Nat} (hle : start + count ≤ g.pairs) :
    ∀ {n n' : Node}, Akin g V base n n' →
    Agree (Akin g V base) (Node.clearFrom g count start n) (Node.clearFrom g count start n') := by
  induction count generalizing start with
  | zero => exact fun h => Agree.pure h
  | succ count ih =>
    intro n n' h
    rw [Node.clearFrom, Node.clearFrom]
    exact Agree.bind (h.clearSlot hV (by omega)) fun _ _ h => ih (by omega) h

theorem writePairs {l l' : List (Words × Word)}
    (hl : List.Forall₂ (fun e e' : Words × Word => e'.1 = e.1 ∧ V e.2 e'.2) l l') :
    ∀ {start : Nat} {n n' : Node}, Akin g V base n n' → start + l.length ≤ g.pairs →
      Agree (Akin g V base) (Node.writePairs g start l n) (Node.writePairs g start l' n') := by
  induction hl with
  | nil => exact fun h _ => Agree.pure h
  | @cons e e' l l' he _ ih =>
    intro start n n' h hle
    rw [List.length_cons] at hle
    obtain ⟨key, v⟩ := e
    obtain ⟨key', v'⟩ := e'
    obtain ⟨rfl, hv⟩ := he
    rw [Node.writePairs, Node.writePairs]
    exact Agree.bind (h.writePair (by omega) _ hv) fun _ _ h => ih h (by omega)

theorem insertPair (h : Akin g V base n n') {pos fill : Nat} (hpos : pos < g.pairs)
    (hfill : fill < g.pairs) (key : Words) {v v' : Word} (hv : V v v') :
    Agree (Akin g V base) (n.insertPair g pos fill key v) (n'.insertPair g pos fill key v') := by
  rw [Node.insertPair, Node.insertPair]
  exact Agree.bind (Akin.raise (by omega) h) fun _ _ h => h.writePair hpos key hv

theorem erasePair (h : Akin g V base n n') (hV : Matches V) {pos fill : Nat} (hpos : pos < fill)
    (hfill : fill ≤ g.pairs) : Agree (Akin g V base) (n.erasePair g pos fill) (n'.erasePair g pos fill) := by
  rw [Node.erasePair, Node.erasePair]
  exact Agree.bind (Akin.lower (by omega) h) fun _ _ h => h.clearSlot hV (by omega)

theorem dropPairs (h : Akin g V base n n') (hV : Matches V) {count fill : Nat} (hcount : count ≤ fill)
    (hfill : fill ≤ g.pairs) : Agree (Akin g V base) (n.dropPairs g count fill) (n'.dropPairs g count fill) := by
  rw [Node.dropPairs, Node.dropPairs]
  exact Agree.bind (Akin.lower (by omega) h) fun _ _ h => Akin.clearFrom hV (by omega) h

end Akin
end MemoTree
