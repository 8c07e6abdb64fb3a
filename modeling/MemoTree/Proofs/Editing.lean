import MemoTree.Proofs.RowEdits
import Mathlib.Data.List.Basic

/-! # A node is edited as an array of pairs

The words of a node are written through its slots: a pair, a key or a value goes into a slot, a slot is copied over
another one or emptied, or the node is made as good as new. An array of pairs, one for each slot, is edited in the
same way (`Node.Edit.effect`). Every run of edits of a new node does to what is read from it what it does to the
array, and so do the loops that make room for a pair and close its gap (`Node.Refines`). -/

namespace MemoTree

/-- The keys and the value words of all slots. -/
abbrev Slots := List (Words × Word)

namespace Node

/-- The slot without a key and a value. -/
def blank (g : Geometry) : Words × Word := (List.replicate g.keyLength 0, 0)

/-- What can be written to a node. -/
inductive Edit where
  | writePair (n : Nat) (key : Words) (value : Word)
  | writeKey (n : Nat) (key : Words)
  | writeValue (n : Nat) (value : Word)
  | copySlot (source target : Nat)
  | clearSlot (n : Nat)
  | renew

namespace Edit

/-- The slots are slots of the node, and the key has as many words as its keys. -/
def Fits (g : Geometry) : Edit → Prop
  | writePair n key _ => n < g.pairs ∧ key.length = g.keyLength
  | writeKey n key => n < g.pairs ∧ key.length = g.keyLength
  | writeValue n _ => n < g.pairs
  | copySlot source target => source < g.pairs ∧ target < g.pairs
  | clearSlot n => n < g.pairs
  | renew => True

/-- Whether slot `m` is written to. -/
def Writes (m : Nat) : Edit → Prop
  | writePair n _ _ => n = m
  | writeKey n _ => n = m
  | writeValue n _ => n = m
  | copySlot _ target => target = m
  | clearSlot n => n = m
  | renew => True

/-- What is done to a node. -/
def act (g : Geometry) (b : Node) : Edit → Except Fault Node
  | writePair n key value => b.writePair g n key value
  | writeKey n key => b.writeKey g n key
  | writeValue n value => b.writeValue g n value
  | copySlot source target => b.copySlot g source target
  | clearSlot n => b.clearSlot g n
  | renew => b.renew

/-- What is done to an array of pairs. -/
def effect (g : Geometry) (slots : Slots) : Edit → Slots
  | writePair n key value => slots.set n (key, value)
  | writeKey n key => slots.modify n fun s => (key, s.2)
  | writeValue n value => slots.modify n fun s => (s.1, value)
  | copySlot source target => slots[source]?.elim slots (slots.set target)
  | clearSlot n => slots.set n (blank g)
  | renew => List.replicate g.pairs (blank g)

/-- The slots that are not written to stay as they are. -/
theorem getElem?_effect {g : Geometry} {slots : Slots} {e : Edit} {m : Nat} (h : ¬e.Writes m) :
    (e.effect g slots)[m]? = slots[m]? := by
  cases e with
  | writePair n key value => exact List.getElem?_set_ne h
  | writeKey n key => exact List.getElem?_modify_ne _ _ h
  | writeValue n value => exact List.getElem?_modify_ne _ _ h
  | copySlot source target =>
    rw [effect]
    cases slots[source]? with
    | none => rfl
    | some s => exact List.getElem?_set_ne h
  | clearSlot n => exact List.getElem?_set_ne h
  | renew => exact absurd trivial h

end Edit

/-- Read slot by slot, the node holds the array `slots`. -/
structure Holds (g : Geometry) (b : Node) (slots : Slots) : Prop where
  count : slots.length = g.pairs
  key : ∀ n s, slots[n]? = some s → b.key g n = .ok s.1
  value : ∀ n s, slots[n]? = some s → b.value g n = .ok s.2

/-- The node holds the array `slots`, and what is written to it is written to the array. A pair that is put in goes
between the pairs before and behind its place and takes up the slot behind them, and one that is taken out leaves that
slot blank. -/
structure Refines (g : Geometry) (b : Node) (slots : Slots) : Prop where
  holds : b.Holds g slots
  edit : ∀ e : Edit, e.Fits g → ∃ b', e.act g b = .ok b' ∧ b'.Holds g (e.effect g slots) ∧
    ∀ m < g.pairs, ¬e.Writes m → b'.key g m = b.key g m ∧ b'.value g m = b.value g m
  insert : ∀ front behind free rest key value, slots = front ++ behind ++ free :: rest → key.length = g.keyLength →
    ∃ b', b.insertPair g front.length (front ++ behind).length key value = .ok b' ∧
      b'.Holds g (front ++ (key, value) :: behind ++ rest)
  erase : ∀ front pair behind rest, slots = front ++ pair :: behind ++ rest →
    ∃ b', b.erasePair g front.length (front ++ pair :: behind).length = .ok b' ∧
      b'.Holds g (front ++ behind ++ blank g :: rest)

/-- The words of the node are laid out as pairs, of which `slots` are the word forms. No memo names the node. -/
structure Backs (g : Geometry) (b : Node) (slots : Slots) : Prop where
  laid : ∃ pairs, Lays g b.words pairs ∧ slots = Row.inWords g pairs
  refs : b.refs = 0

variable {g : Geometry} {b : Node} {slots : Slots} {n : Nat} {s : Words × Word}

theorem inWords_zero (g : Geometry) (n : Nat) :
    Row.inWords g (List.replicate n .zero) = List.replicate n (blank g) := by
  simp [Row.inWords, blank, Words.ofNat_zero]

theorem inWords_set (g : Geometry) (row : Row) (n k : Nat) (v : Word) :
    Row.inWords g (row.set n (k, v)) = (Row.inWords g row).set n (Words.ofNat g.keyLength k, v) := List.map_set

theorem getElem?_inWords {row : Row} :
    (Row.inWords g row)[n]? = some s ↔ ∃ e, row[n]? = some e ∧ (Words.ofNat g.keyLength e.1, e.2) = s := by
  rw [Row.inWords, List.getElem?_map, Option.map_eq_some_iff]

theorem Holds.same (h : b.Holds g slots) {b' : Node} {slots' : Slots} (h' : b'.Holds g slots')
    (hs : slots'[n]? = slots[n]?) (hn : n < g.pairs) : b'.key g n = b.key g n ∧ b'.value g n = b.value g n := by
  rw [← h.count] at hn
  have hget := List.getElem?_eq_getElem hn
  rw [h.key n _ hget, h.value n _ hget]
  rw [hget] at hs
  exact ⟨h'.key n _ hs, h'.value n _ hs⟩

namespace Backs

theorem holds (h : Backs g b slots) : b.Holds g slots := by
  obtain ⟨row, hlays, rfl⟩ := h.laid
  refine ⟨by simp [Row.inWords, hlays.count], ?_, ?_⟩
  · intro n s hs
    obtain ⟨e, he, rfl⟩ := getElem?_inWords.mp hs
    exact hlays.key_eq he
  · intro n s hs
    obtain ⟨e, he, rfl⟩ := getElem?_inWords.mp hs
    exact hlays.value_eq he

/-- A new node backs an array of blank slots. -/
theorem of_fresh (h : fresh g.blockWords = .ok b) : Backs g b (List.replicate g.pairs (blank g)) := by
  rw [Node.of_fresh h, Geometry.blockWords, Nat.add_sub_cancel]
  exact ⟨⟨_, Lays.zero g, (inWords_zero g _).symm⟩, rfl⟩

/-- An edit of a node is the same edit of the array. -/
theorem edit (h : Backs g b slots) {e : Edit} (he : e.Fits g) :
    ∃ b', e.act g b = .ok b' ∧ Backs g b' (e.effect g slots) := by
  obtain ⟨⟨row, hlays, rfl⟩, hrefs⟩ := h
  cases e with
  | writePair n key value =>
    -- the layout is stated for numbers, and any words of the right length are those of a number
    obtain ⟨hn, hkey⟩ := he
    obtain ⟨k, hk, rfl⟩ := Words.exists_ofNat hkey
    obtain ⟨words, hwrite, hlays'⟩ := hlays.writePair hn hk value
    exact ⟨_, hwrite, ⟨_, hlays', (inWords_set g row n k value).symm⟩, hrefs⟩
  | writeKey n key =>
    obtain ⟨hn, hkey⟩ := he
    obtain ⟨k, hk, rfl⟩ := Words.exists_ofNat hkey
    obtain ⟨s, hs⟩ := hlays.exists_slot hn
    obtain ⟨words, hwrite, hlays'⟩ := hlays.writeKey hs hk
    refine ⟨_, hwrite, ⟨_, hlays', ?_⟩, hrefs⟩
    rw [inWords_set, Edit.effect, List.modify_eq_set_getElem?, getElem?_inWords.mpr ⟨s, hs, rfl⟩]
    rfl
  | writeValue n value =>
    obtain ⟨s, hs⟩ := hlays.exists_slot he
    obtain ⟨words, hwrite, hlays'⟩ := hlays.writeValue hs value
    refine ⟨_, hwrite, ⟨_, hlays', ?_⟩, hrefs⟩
    rw [inWords_set, Edit.effect, List.modify_eq_set_getElem?, getElem?_inWords.mpr ⟨s, hs, rfl⟩]
    rfl
  | copySlot source target =>
    obtain ⟨s, hs⟩ := hlays.exists_slot he.1
    obtain ⟨words, hcopy, hlays'⟩ := hlays.copySlot hs he.2
    refine ⟨_, hcopy, ⟨_, hlays', ?_⟩, hrefs⟩
    rw [inWords_set, Edit.effect, getElem?_inWords.mpr ⟨s, hs, rfl⟩]
    rfl
  | clearSlot n =>
    obtain ⟨words, hclear, hlays'⟩ := hlays.clearSlot he
    refine ⟨_, hclear, ⟨_, hlays', ?_⟩, hrefs⟩
    rw [inWords_set, Words.ofNat_zero]
    rfl
  | renew =>
    refine ⟨_, if_pos hrefs, ⟨_, ?_, (inWords_zero g _).symm⟩, rfl⟩
    rw [hlays.size]
    exact Lays.zero g

/-- A run of edits, one after the other. -/
theorem edits {edits : List Edit} (h : Backs g b slots) (he : ∀ e ∈ edits, e.Fits g) :
    ∃ b', edits.foldlM (fun b e => e.act g b) b = .ok b' ∧
    Backs g b' (edits.foldl (fun slots e => e.effect g slots) slots) := by
  induction edits generalizing b slots with
  | nil => exact ⟨b, rfl, h⟩
  | cons e edits ih =>
    obtain ⟨b', hact, h'⟩ := h.edit (he e List.mem_cons_self)
    obtain ⟨b'', hrest, h''⟩ := ih h' fun e he' => he e (List.mem_cons_of_mem _ he')
    refine ⟨b'', ?_, h''⟩
    rw [List.foldlM_cons, hact]
    exact hrest

theorem insertPair {front behind rest : Slots} {free : Words × Word} {key : Words}
    (h : Backs g b (front ++ behind ++ free :: rest)) (hkey : key.length = g.keyLength) (value : Word) :
    ∃ b', b.insertPair g front.length (front ++ behind).length key value = .ok b' ∧
      Backs g b' (front ++ (key, value) :: behind ++ rest) := by
  obtain ⟨⟨row, hlays, hrow⟩, hrefs⟩ := h
  obtain ⟨k, hk, rfl⟩ := Words.exists_ofNat hkey
  obtain ⟨M, C, rfl, hM, hC⟩ := List.map_eq_append_iff.mp hrow.symm
  obtain ⟨A, M, rfl, rfl, rfl⟩ := List.map_eq_append_iff.mp hM
  obtain ⟨z, C, rfl, rfl, rfl⟩ := List.map_eq_cons_iff.mp hC
  obtain ⟨words, hinsert, hlays'⟩ := hlays.insertPair hk value
  refine ⟨{ b with words := words }, ?_, ⟨_, hlays', by simp [Row.inWords]⟩, hrefs⟩
  simpa using hinsert

theorem erasePair {front behind rest : Slots} {pair : Words × Word} (h : Backs g b (front ++ pair :: behind ++ rest)) :
    ∃ b', b.erasePair g front.length (front ++ pair :: behind).length = .ok b' ∧
      Backs g b' (front ++ behind ++ blank g :: rest) := by
  obtain ⟨⟨row, hlays, hrow⟩, hrefs⟩ := h
  obtain ⟨M, C, rfl, hM, rfl⟩ := List.map_eq_append_iff.mp hrow.symm
  obtain ⟨A, M, rfl, rfl, hbehind⟩ := List.map_eq_append_iff.mp hM
  obtain ⟨e, M, rfl, rfl, rfl⟩ := List.map_eq_cons_iff.mp hbehind
  obtain ⟨words, herase, hlays'⟩ := hlays.erasePair
  refine ⟨{ b with words := words }, ?_, ⟨_, hlays', by simp [Row.inWords, blank, Words.ofNat_zero]⟩, hrefs⟩
  simpa using herase

theorem refines (h : Backs g b slots) : b.Refines g slots where
  holds := h.holds
  edit e he := by
    obtain ⟨b', hact, h'⟩ := h.edit he
    exact ⟨b', hact, h'.holds, fun m hm hwrites => h.holds.same h'.holds (Edit.getElem?_effect hwrites) hm⟩
  insert front behind free rest key value hslots hkey := by
    subst hslots
    obtain ⟨b', hinsert, h'⟩ := h.insertPair hkey value
    exact ⟨b', hinsert, h'.holds⟩
  erase front pair behind rest hslots := by
    subst hslots
    obtain ⟨b', herase, h'⟩ := h.erasePair
    exact ⟨b', herase, h'.holds⟩

end Backs

/-- Edits of a new node never fail, and leave in its slots what they leave in an array of blank ones. -/
theorem edits_refine {edits : List Edit} (hfresh : fresh g.blockWords = .ok b) (he : ∀ e ∈ edits, e.Fits g) :
    ∃ b', edits.foldlM (fun b e => e.act g b) b = .ok b' ∧
      b'.Refines g (edits.foldl (fun slots e => e.effect g slots) (List.replicate g.pairs (blank g))) := by
  obtain ⟨b', hrun, h⟩ := (Backs.of_fresh hfresh).edits he
  exact ⟨b', hrun, h.refines⟩

/-- The last slot of three is written, copied over the first one, which then gets another key, and emptied. -/
theorem edits_refine_three : ∃ b',
    [Edit.writePair 2 [1, 0] 7, .copySlot 2 0, .writeKey 0 [0, 5], .clearSlot 2].foldlM (fun b e => e.act ⟨2, 3⟩ b)
      ⟨Array.replicate 9 0, 0, false, Ring.empty⟩ = .ok b' ∧
    b'.Refines ⟨2, 3⟩ [([0, 5], 7), ([0, 0], 0), ([0, 0], 0)] :=
  edits_refine (fresh_eq (by decide)) (by simp [Edit.Fits])

end Node
end MemoTree
