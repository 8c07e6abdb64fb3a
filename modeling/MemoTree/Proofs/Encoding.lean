import MemoTree.Proofs.KeyOrder

/-! # The word form of keys

Keys go into nodes as words, and the tree never turns them back into numbers to compare them or to find the one
before. So the words have to be as good as the numbers. For every number of words this is said of all lists of that
length (`Words.Counts`), of which the word forms of the keys of a width are the first ones (`Key.Codes`). -/

namespace MemoTree

namespace Words
variable {a b : Words}

/-- A borrow goes to the left only past zeros. -/
theorem pred_cons (w : Word) (ws : Words) : pred (w :: ws) = (if isZero ws then w - 1 else w) :: pred ws := by
  rw [← borrow_snd, pred, pred, borrow]
  rcases borrow ws with ⟨ws', _ | _⟩ <;> rfl

theorem isZero_zeros (n : Nat) : isZero (List.replicate n 0) = true := by
  simp [isZero]

theorem pred_zeros (n : Nat) : pred (List.replicate n 0) = List.replicate n (-1) := by
  induction n with
  | zero => rfl
  | succ n ih => simp [List.replicate_succ, pred_cons, isZero_zeros, ih]

/-- A borrow does not go past a word that is not zero. -/
theorem pred_append (h : isZero b = false) : pred (a ++ b) = a ++ pred b := by
  induction a with
  | nil => rfl
  | cons w a ih =>
    have hrest : isZero (a ++ b) = false := by
      rw [isZero, List.all_append, ← isZero, ← isZero, h, Bool.and_false]
    rw [List.cons_append, pred_cons, hrest, ih]
    rfl

/-- Lists of `n` words are the numbers below `2 ^ (64 * n)` in their order, and the list before one is the number before
it, modulo `2 ^ (64 * n)`. A borrow changes the zeros at the end and the word in front of them. -/
structure Counts (n : Nat) : Prop where
  small : ∀ a : Words, a.length = n → a.toNat < 2 ^ (64 * n)
  every : ∀ v < 2 ^ (64 * n), ∃ a : Words, a.length = n ∧ a.toNat = v
  unique : ∀ a b : Words, a.length = n → b.length = n → a.toNat = b.toNat → a = b
  order : ∀ a b : Words, a.length = n → b.length = n → Words.order a b = .ok (Ord.compare a.toNat b.toNat)
  zero : ∀ a : Words, a.length = n → (a.isZero = true ↔ a.toNat = 0)
  before : ∀ a : Words, a.length = n →
    a.pred.length = n ∧ a.pred.toNat = (a.toNat + (2 ^ (64 * n) - 1)) % 2 ^ (64 * n)
  borrows : ∀ (front : Words) (w : Word) (zeros : Nat), front.length + 1 + zeros = n → w ≠ 0 →
    (front ++ w :: List.replicate zeros 0).pred = front ++ (w - 1) :: List.replicate zeros (-1)
  wraps : pred (List.replicate n 0) = List.replicate n (-1)

theorem counts (n : Nat) : Counts n where
  small a ha := ha ▸ toNat_lt a
  every v hv := ⟨ofNat n v, length_ofNat n v, toNat_ofNat hv⟩
  unique a b ha hb hab := by
    rw [← ofNat_toNat a, ← ofNat_toNat b, ha, hb, hab]
  order a b ha hb := by
    rw [Words.order, if_pos (ha.trans hb.symm), compare_eq (ha.trans hb.symm)]
  zero a _ := isZero_iff a
  before a ha := by
    subst ha
    exact ⟨length_pred a, toNat_pred a⟩
  borrows front w zeros _ hw := by
    have hrun : isZero (w :: List.replicate zeros 0) = false := by simp [isZero, hw]
    rw [pred_append hrun, pred_cons, isZero_zeros, pred_zeros]
    rfl
  wraps := pred_zeros n

end Words

namespace Key

/-- The word form of keys of width `w`: each key is read back from it, it goes through the lists of words that denote
a key, and what is done with words is what is done with keys. -/
structure Codes (w : Width) : Prop where
  back : ∀ a : Key w, ofWords w a.toWords = .ok a
  onto : ∀ ws : Words, ws.length = w.words → ws.toNat < 2 ^ w.bits → ∃ a : Key w, a.toWords = ws
  number : ∀ a : Key w, a.toWords.toNat = a.val
  order : ∀ a b : Key w, Words.order a.toWords b.toWords = .ok (Ord.compare a.val b.val)
  zero : ∀ a : Key w, a.toWords.isZero = true ↔ a.val = 0
  before : ∀ a b : Key w, a.val = b.val + 1 → a.toWords.pred = b.toWords

theorem codes (w : Width) : Codes w := by
  have hsmall : ∀ a : Key w, a.val < 2 ^ (64 * w.words) := fun a => Nat.lt_of_lt_of_le a.isLt (pow_bits_le w)
  refine ⟨fun a => ofWords_ofNat a.isLt, ?_, fun a => Words.toNat_ofNat (hsmall a),
    fun a b => Words.order_ofNat (hsmall a) (hsmall b), fun a => Words.isZero_ofNat (hsmall a), ?_⟩
  · intro ws hlen hlt
    refine ⟨⟨ws.toNat, hlt⟩, ?_⟩
    rw [toWords, ← hlen]
    exact Words.ofNat_toNat ws
  · intro a b hab
    have hpos : 0 < a.val := by omega
    rw [toWords, Words.pred_ofNat hpos (hsmall a), hab]
    rfl

/-- The word form of keys keeps their order and what comes before each, for every width, and lists of words of any
length keep that of the numbers they denote. -/
theorem words_as_numbers : (∀ w : Width, Codes w) ∧ ∀ n : Nat, Words.Counts n := ⟨codes, Words.counts⟩

example : Words.pred [7, 1, 0, 0] = [7, 0, -1, -1] := by decide

end Key
end MemoTree
