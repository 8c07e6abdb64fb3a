import MemoTree.Key.Basic
import Mathlib.Tactic.Ring

/-! # Words as numbers

A list of `n` words denotes a number below `2 ^ (64 * n)`, and every such number is denoted by one list of `n`
words. The order of two lists of one length is the order of their numbers, and subtracting one from a list
subtracts one from its number. -/

namespace MemoTree
namespace Words

theorem pow_word_succ (n : Nat) : 2 ^ (64 * (n + 1)) = 2 ^ 64 * 2 ^ (64 * n) := by
  rw [← pow_add]
  congr 1
  ring

/-- The number of a list fits in its words. -/
theorem toNat_lt : ∀ ws : Words, toNat ws < 2 ^ (64 * ws.length)
  | [] => by simp [toNat]
  | w :: ws => by
    have ih := toNat_lt ws
    have hw := w.toNat_lt
    rw [List.length_cons, pow_word_succ, toNat]
    calc w.toNat * 2 ^ (64 * ws.length) + toNat ws
        < w.toNat * 2 ^ (64 * ws.length) + 2 ^ (64 * ws.length) := by omega
      _ = (w.toNat + 1) * 2 ^ (64 * ws.length) := by ring
      _ ≤ 2 ^ 64 * 2 ^ (64 * ws.length) := Nat.mul_le_mul_right _ (by omega)

/-- The lowest words of a number denote what is left of it modulo their range. -/
theorem toNat_ofNat_mod (n v : Nat) : toNat (ofNat n v) = v % 2 ^ (64 * n) := by
  induction n with
  | zero => simp [ofNat, toNat, Nat.mod_one]
  | succ n ih =>
    rw [ofNat, toNat, ih, length_ofNat, UInt64.toNat_ofNat', pow_word_succ, Nat.mul_comm (2 ^ 64),
      Nat.mod_mul, Nat.mul_comm (v / _ % _), Nat.add_comm]

theorem toNat_ofNat {n v : Nat} (hv : v < 2 ^ (64 * n)) : toNat (ofNat n v) = v := by
  rw [toNat_ofNat_mod, Nat.mod_eq_of_lt hv]

/-- Words above the lowest `n` do not change the lowest `n`. -/
theorem ofNat_add_mul (n u v : Nat) : ofNat n (u * 2 ^ (64 * n) + v) = ofNat n v := by
  suffices h : ∀ m, m ≤ n → ofNat m (u * 2 ^ (64 * n) + v) = ofNat m v from h n (Nat.le_refl n)
  intro m hm
  induction m with
  | zero => rfl
  | succ m ih =>
    rw [ofNat, ofNat, ih (by omega)]
    congr 1
    have hpow : 2 ^ (64 * n) = 2 ^ (64 * m) * (2 ^ 64 * 2 ^ (64 * (n - m - 1))) := by
      rw [← pow_add, ← pow_add]
      congr 1
      omega
    have hdiv : (u * 2 ^ (64 * n) + v) / 2 ^ (64 * m) =
        2 ^ 64 * (u * 2 ^ (64 * (n - m - 1))) + v / 2 ^ (64 * m) := by
      rw [hpow, show u * (2 ^ (64 * m) * (2 ^ 64 * 2 ^ (64 * (n - m - 1)))) + v =
        v + 2 ^ (64 * m) * (2 ^ 64 * (u * 2 ^ (64 * (n - m - 1)))) by ring,
        Nat.add_mul_div_left _ _ (Nat.two_pow_pos _), Nat.add_comm]
    rw [hdiv]
    apply UInt64.toNat_inj.mp
    rw [UInt64.toNat_ofNat', UInt64.toNat_ofNat', Nat.mul_add_mod]

/-- A list of words is the word form of its number. -/
theorem ofNat_toNat : ∀ ws : Words, ofNat ws.length (toNat ws) = ws
  | [] => rfl
  | w :: ws => by
    rw [List.length_cons, ofNat, toNat, ofNat_add_mul, ofNat_toNat ws]
    congr 1
    rw [Nat.mul_comm, Nat.mul_add_div (Nat.two_pow_pos _), Nat.div_eq_of_lt (toNat_lt ws), Nat.add_zero,
      UInt64.ofNat_toNat]

/-- Words are those of a number that fits in them. -/
theorem exists_ofNat {ws : Words} {n : Nat} (h : ws.length = n) : ∃ v < 2 ^ (64 * n), ofNat n v = ws := by
  subst h
  exact ⟨toNat ws, toNat_lt ws, ofNat_toNat ws⟩

theorem ofNat_inj {n u v : Nat} (hu : u < 2 ^ (64 * n)) (hv : v < 2 ^ (64 * n)) (h : ofNat n u = ofNat n v) :
    u = v := by
  rw [← toNat_ofNat hu, ← toNat_ofNat hv, h]

theorem ofNat_zero (n : Nat) : ofNat n 0 = List.replicate n 0 := by
  induction n with
  | zero => rfl
  | succ n ih => rw [ofNat, ih, Nat.zero_div, List.replicate_succ]; rfl

/-- The order of two lists of one length is the order of their numbers. -/
theorem compare_eq : ∀ {a b : Words}, a.length = b.length → compare a b = Ord.compare (toNat a) (toNat b)
  | [], [], _ => rfl
  | [], _ :: _, h => by simp at h
  | _ :: _, [], h => by simp at h
  | a :: as, b :: bs, h => by
    have hlen : as.length = bs.length := by simpa using h
    -- the words after the first denote less than one unit of the first, so the first decides unless it is the same
    have ha := toNat_lt as
    have hb := toNat_lt bs
    rw [compare, toNat, toNat, compare_eq hlen, hlen]
    rw [hlen] at ha
    have hword : Ord.compare a b = Ord.compare a.toNat b.toNat := by
      simp only [Ord.compare, compareOfLessAndEq, UInt64.lt_iff_toNat_lt, UInt64.toNat_inj]
    rw [hword]
    generalize 2 ^ (64 * bs.length) = m at ha hb
    rcases Nat.lt_trichotomy a.toNat b.toNat with hab | hab | hab
    · have hmul : (a.toNat + 1) * m ≤ b.toNat * m := Nat.mul_le_mul_right m hab
      rw [Nat.add_mul] at hmul
      have hlt : a.toNat * m + toNat as < b.toNat * m + toNat bs := by omega
      rw [Nat.compare_eq_lt.mpr hab, Nat.compare_eq_lt.mpr hlt]
      rfl
    · rw [hab, Nat.compare_eq_eq.mpr rfl]
      simp only [Ordering.eq_then, Ord.compare, compareOfLessAndEq, Nat.add_lt_add_iff_left, Nat.add_left_cancel_iff]
    · have hmul : (b.toNat + 1) * m ≤ a.toNat * m := Nat.mul_le_mul_right m hab
      rw [Nat.add_mul] at hmul
      have hlt : b.toNat * m + toNat bs < a.toNat * m + toNat as := by omega
      rw [Nat.compare_eq_gt.mpr hab, Nat.compare_eq_gt.mpr hlt]
      rfl

theorem compare_ofNat {n u v : Nat} (hu : u < 2 ^ (64 * n)) (hv : v < 2 ^ (64 * n)) :
    compare (ofNat n u) (ofNat n v) = Ord.compare u v := by
  rw [compare_eq (by simp), toNat_ofNat hu, toNat_ofNat hv]

theorem order_ofNat {n u v : Nat} (hu : u < 2 ^ (64 * n)) (hv : v < 2 ^ (64 * n)) :
    order (ofNat n u) (ofNat n v) = .ok (Ord.compare u v) := by
  rw [order, if_pos (by simp), compare_ofNat hu hv]

theorem isZero_iff (ws : Words) : isZero ws = true ↔ toNat ws = 0 := by
  induction ws with
  | nil => simp [isZero, toNat]
  | cons w ws ih =>
    simp only [isZero, List.all_cons, Bool.and_eq_true, beq_iff_eq, toNat, Nat.add_eq_zero_iff, Nat.mul_eq_zero] at ih ⊢
    rw [ih, ← UInt64.toNat_inj]
    simp

theorem isZero_ofNat {n v : Nat} (hv : v < 2 ^ (64 * n)) : isZero (ofNat n v) = true ↔ v = 0 := by
  rw [isZero_iff, toNat_ofNat hv]

/-- A borrow takes one from the number, or wraps around. -/
theorem toNat_borrow (ws : Words) :
    toNat (borrow ws).1 + 1 = toNat ws + if (borrow ws).2 then 2 ^ (64 * ws.length) else 0 := by
  induction ws with
  | nil => rfl
  | cons w ws ih =>
    have hlen := length_borrow ws
    rw [borrow]
    rcases hb : borrow ws with ⟨ws', b⟩
    rw [hb] at ih hlen
    cases b with
    | false => simpa [toNat, hlen, Nat.add_assoc] using ih
    | true =>
      simp only [if_true] at ih
      by_cases hw : w = 0
      · simp only [hw, toNat, beq_self_eq_true, if_true, List.length_cons, hlen, pow_word_succ,
          show ((0 : Word) - 1).toNat = 2 ^ 64 - 1 from rfl,
          show (0 : Word).toNat = 0 from rfl]
        generalize 2 ^ (64 * ws.length) = m at ih ⊢
        omega
      · have hpos : 0 < w.toNat := Nat.pos_of_ne_zero fun h => hw (UInt64.toNat_inj.mp h)
        have hsub : (w - 1).toNat = w.toNat - 1 := UInt64.toNat_sub_of_le w 1 (UInt64.le_iff_toNat_le.mpr hpos)
        simp only [toNat, hlen, hsub, beq_eq_false_iff_ne.mpr hw, Bool.false_eq_true, if_false, Nat.add_zero]
        have hmul : w.toNat * 2 ^ (64 * ws.length) = (w.toNat - 1) * 2 ^ (64 * ws.length) + 2 ^ (64 * ws.length) := by
          rw [← Nat.succ_mul, Nat.succ_eq_add_one, Nat.sub_add_cancel hpos]
        omega

/-- A borrow leaves the first word if there is nothing to borrow from. -/
theorem borrow_snd (ws : Words) : (borrow ws).2 = isZero ws := by
  induction ws with
  | nil => rfl
  | cons w ws ih =>
    rw [isZero] at ih
    rw [borrow, isZero, List.all_cons, ← ih]
    split <;> simp [*]

/-- One is taken from the number, modulo the range of its words. -/
theorem toNat_pred (ws : Words) :
    toNat (pred ws) = (toNat ws + (2 ^ (64 * ws.length) - 1)) % 2 ^ (64 * ws.length) := by
  have hborrow := toNat_borrow ws
  have hlt := toNat_lt ws
  have hpos := Nat.two_pow_pos (64 * ws.length)
  rw [borrow_snd] at hborrow
  rw [pred]
  by_cases hzero : isZero ws = true
  · rw [(isZero_iff ws).mp hzero] at hborrow ⊢
    rw [if_pos hzero] at hborrow
    rw [Nat.zero_add, Nat.mod_eq_of_lt (by omega)]
    omega
  · rw [if_neg hzero] at hborrow
    rw [show toNat ws + (2 ^ (64 * ws.length) - 1) = toNat (borrow ws).1 + 2 ^ (64 * ws.length) by omega,
      Nat.add_mod_right, Nat.mod_eq_of_lt (by omega)]

theorem pred_ofNat {n v : Nat} (h0 : 0 < v) (hv : v < 2 ^ (64 * n)) : pred (ofNat n v) = ofNat n (v - 1) := by
  have hnat : toNat (pred (ofNat n v)) = v - 1 := by
    rw [toNat_pred, toNat_ofNat hv, length_ofNat,
      show v + (2 ^ (64 * n) - 1) = v - 1 + 2 ^ (64 * n) by omega, Nat.add_mod_right, Nat.mod_eq_of_lt (by omega)]
  rw [← hnat]
  conv_lhs => rw [← ofNat_toNat (pred (ofNat n v)), length_pred, length_ofNat]

end Words

namespace Key
variable {w : Width}

theorem bits_le (w : Width) : w.bits ≤ 64 * w.words := by cases w <;> decide

theorem pow_bits_le (w : Width) : 2 ^ w.bits ≤ 2 ^ (64 * w.words) := Nat.pow_le_pow_right (by decide) (bits_le w)

theorem ofWords_ofNat {n : Nat} (hn : n < 2 ^ w.bits) : ofWords w (Words.ofNat w.words n) = .ok ⟨n, hn⟩ := by
  have htake : (Words.ofNat w.words n).take w.words = Words.ofNat w.words n :=
    List.take_of_length_le (Nat.le_of_eq (Words.length_ofNat _ _))
  rw [ofWords, if_pos (Nat.le_of_eq (Words.length_ofNat _ _).symm), htake,
    Words.toNat_ofNat (Nat.lt_of_lt_of_le hn (pow_bits_le w))]
  exact congrArg Except.ok (Fin.ext (Nat.mod_eq_of_lt hn))

end Key
end MemoTree
