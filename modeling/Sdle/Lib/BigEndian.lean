import Mathlib.Algebra.GroupWithZero.Nat
import Mathlib.Data.Fin.Basic
import Mathlib.Data.List.Induction
import Mathlib.Data.List.Lex
import Mathlib.Order.Fin.Basic

/-!
# Big-endian digits

A number written in base `b`, the most significant digit first.  With `w` digits all the texts have
the same length, so comparing two of them digit by digit, as `memcmp` does, is comparing the numbers.
A reader that takes digit after digit and stops when the number gets too large for its type reads
just the numerals of the numbers that are small enough, however many leading zeros they have.

* `digits_lt_iff`, `digits_le_iff` — **the lexicographic order of the digits is the order of the
  numbers**.
* `read_eq` — **what a reader with checked arithmetic reads**.
-/

set_option autoImplicit false

namespace BigEndian

variable {b : ℕ} [NeZero b]

/-- The `w` digits of a number in base `b`, the most significant one first. -/
def digits (b : ℕ) [NeZero b] : ℕ → ℕ → List (Fin b)
  | 0, _ => []
  | w + 1, n => Fin.ofNat b (n / b ^ w) :: digits b w (n % b ^ w)

/-- Two numbers compare by their quotients first, and by their remainders where these agree. -/
theorem lt_iff_div_mod (m n c : ℕ) :
    m < n ↔ m / c < n / c ∨ m / c = n / c ∧ m % c < n % c := by
  have hm := Nat.div_add_mod m c
  have hn := Nat.div_add_mod n c
  constructor
  · intro h
    rcases Nat.lt_or_eq_of_le (Nat.div_le_div_right h.le) with hq | hq
    · exact Or.inl hq
    · refine Or.inr ⟨hq, ?_⟩
      rw [hq] at hm
      omega
  · intro h
    rcases h with hq | ⟨hq, hr⟩
    · exact Nat.lt_of_not_le fun hle => absurd hq (Nat.not_lt.2 (Nat.div_le_div_right hle))
    · rw [hq] at hm
      omega

theorem val_ofNat_div {w n : ℕ} (hn : n < b ^ (w + 1)) :
    (Fin.ofNat b (n / b ^ w)).val = n / b ^ w := by
  rw [Nat.pow_succ] at hn
  exact Nat.mod_eq_of_lt (Nat.div_lt_of_lt_mul hn)

/-- **The lexicographic order of the digits is the order of the numbers.** -/
theorem digits_lt_iff {w m n : ℕ} (hm : m < b ^ w) (hn : n < b ^ w) :
    digits b w m < digits b w n ↔ m < n := by
  induction w generalizing m n with
  | zero =>
    rw [Nat.pow_zero, Nat.lt_one_iff] at hm hn
    simp [digits, hm, hn]
  | succ w ih =>
    have hpos : 0 < b ^ w := Nat.pow_pos (Nat.pos_of_neZero b)
    have hrest := ih (Nat.mod_lt m hpos) (Nat.mod_lt n hpos)
    rw [digits, digits, List.cons_lt_cons_iff, hrest, lt_iff_div_mod m n (b ^ w), Fin.lt_def,
      Fin.ext_iff, val_ofNat_div hm, val_ofNat_div hn]

theorem digits_le_iff {w m n : ℕ} (hm : m < b ^ w) (hn : n < b ^ w) :
    digits b w m ≤ digits b w n ↔ m ≤ n := by
  rw [← not_lt, digits_lt_iff hn hm, Nat.not_lt]

/-! ## Reading digits -/

section Read

variable {α : Type}

/-- The number that some digits stand for. -/
def value (b : ℕ) (ds : List ℕ) : ℕ := ds.foldl (fun n d => n * b + d) 0

/-- Read digit after digit, as long as each is one and the number stays below a bound. -/
def read (bound b : ℕ) (digit : α → Option ℕ) (xs : List α) : Option ℕ :=
  xs.foldlM (fun n x => (digit x).bind fun d => if n * b + d < bound then some (n * b + d) else none) 0

theorem value_append (b : ℕ) (ds : List ℕ) (d : ℕ) : value b (ds ++ [d]) = value b ds * b + d := by
  unfold value
  rw [List.foldl_append]
  rfl

/-- **What a reader with checked arithmetic reads**: the number, where it is below the bound. -/
theorem read_eq {bound b : ℕ} (hbound : 0 < bound) (hb : 0 < b) (digit : α → Option ℕ) (xs : List α) :
    read bound b digit xs =
      (xs.mapM digit).bind fun ds => if value b ds < bound then some (value b ds) else none := by
  induction xs using List.reverseRecOn with
  | nil => simp [read, value, hbound]
  | append_singleton xs x ih =>
    unfold read at ih ⊢
    rw [List.foldlM_append, ih, List.mapM_append]
    cases hds : xs.mapM digit with
    | none => rfl
    | some ds =>
      cases hd : digit x with
      | none => simp [hd]
      | some d =>
        by_cases hlt : value b ds < bound
        · simp [hd, hlt, value_append]
        · -- a number that is too large only gets larger
          have hmul : value b ds ≤ value b ds * b := Nat.le_mul_of_pos_right _ hb
          have hge : ¬ value b (ds ++ [d]) < bound := by
            rw [value_append]
            omega
          simp [hd, hlt, hge]

end Read

end BigEndian
