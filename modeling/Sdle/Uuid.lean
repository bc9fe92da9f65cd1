import Mathlib.Data.Fin.Basic
import Mathlib.Order.Lattice
import Mathlib.Order.Fin.Basic
import Mathlib.Data.List.Basic
import Mathlib.Tactic.Ring

/-!
# UUIDs and their text form

`Uuid` is the 128-bit number behind `uuid::Uuid`, ordered as its bytes are (most significant
first, so as the number).  `Uuid.toString` is its `Display`: 32 lower-case hexadecimal digits in
groups of 8, 4, 4, 4 and 12.

* `Uuid.toString_injective` — two UUIDs with one text are equal, so that a text column, a hash
  key or a request id made from a UUID identifies it.
* `Uuid.toString_ne_empty` — the text is never the empty request id of unsolicited messages.
-/

set_option autoImplicit false

namespace Sdle

/-- `u128`. -/
abbrev U128 := Fin (2 ^ 128)

instance neZero_u128 : NeZero (2 ^ 128) := inferInstance

instance transOrd_u128 : Std.TransOrd U128 := inferInstance

/-- `uuid::Uuid`. -/
structure Uuid where
  u128 : U128
  deriving DecidableEq

instance : LinearOrder Uuid :=
  LinearOrder.lift' Uuid.u128 (by intro a b h; cases a; cases b; simpa using h)

namespace Uuid

/-- A lower-case hexadecimal digit. -/
def hexDigit (n : ℕ) : Char := if n < 10 then Char.ofNat (48 + n) else Char.ofNat (87 + n)

/-- The `k` hexadecimal digits of `n`, most significant first. -/
def hexDigits : ℕ → ℕ → List Char
  | 0, _ => []
  | k + 1, n => hexDigits k (n / 16) ++ [hexDigit (n % 16)]

/-- `Uuid::to_string`. -/
protected def toString (u : Uuid) : String :=
  let cs := hexDigits 32 u.u128.val
  String.ofList (cs.take 8 ++ '-' :: ((cs.drop 8).take 4 ++ '-' :: ((cs.drop 12).take 4 ++
    '-' :: ((cs.drop 16).take 4 ++ '-' :: cs.drop 20))))

theorem hexDigit_inj {m n : ℕ} (hm : m < 16) (hn : n < 16) (h : hexDigit m = hexDigit n) :
    m = n := by
  have key : ∀ i : Fin 16, ∀ j : Fin 16, hexDigit i = hexDigit j → i = j := by decide
  exact Fin.mk.inj_iff.1 (key ⟨m, hm⟩ ⟨n, hn⟩ h)

theorem length_hexDigits (k n : ℕ) : (hexDigits k n).length = k := by
  induction k generalizing n with
  | zero => rfl
  | succ k ih => simp [hexDigits, ih]

theorem hexDigits_inj (k : ℕ) {m n : ℕ} (hm : m < 16 ^ k) (hn : n < 16 ^ k)
    (h : hexDigits k m = hexDigits k n) : m = n := by
  induction k generalizing m n with
  | zero => omega
  | succ k ih =>
    obtain ⟨hrest, hlast⟩ := List.append_inj' h rfl
    have hdiv : m / 16 = n / 16 := by
      apply ih _ _ hrest
      · exact Nat.div_lt_of_lt_mul (by rw [pow_succ] at hm; omega)
      · exact Nat.div_lt_of_lt_mul (by rw [pow_succ] at hn; omega)
    have hmod : m % 16 = n % 16 := by
      apply hexDigit_inj (Nat.mod_lt _ (by decide)) (Nat.mod_lt _ (by decide))
      simpa using hlast
    omega

theorem toString_injective : Function.Injective Uuid.toString := by
  intro a b h
  have hl := String.ofList_injective h
  have hlen := length_hexDigits 32 a.u128.val
  have hlen' := length_hexDigits 32 b.u128.val
  generalize ha : hexDigits 32 a.u128.val = x at *
  generalize hb : hexDigits 32 b.u128.val = y at *
  -- the groups have fixed lengths, so that equal texts have equal groups
  obtain ⟨h₁, hl⟩ := List.append_inj hl (by simp [hlen, hlen'])
  obtain ⟨h₂, hl⟩ := List.append_inj (List.tail_eq_of_cons_eq hl) (by simp [hlen, hlen'])
  obtain ⟨h₃, hl⟩ := List.append_inj (List.tail_eq_of_cons_eq hl) (by simp [hlen, hlen'])
  obtain ⟨h₄, hl⟩ := List.append_inj (List.tail_eq_of_cons_eq hl) (by simp [hlen, hlen'])
  have h₅ := List.tail_eq_of_cons_eq hl
  have hx : ∀ z : List Char, z = z.take 8 ++ ((z.drop 8).take 4 ++ ((z.drop 12).take 4 ++
      ((z.drop 16).take 4 ++ z.drop 20))) := by
    intro z
    conv_lhs => rw [← List.take_append_drop 8 z, ← List.take_append_drop 4 (z.drop 8),
      List.drop_drop, ← List.take_append_drop 4 (z.drop 12), List.drop_drop,
      ← List.take_append_drop 4 (z.drop 16), List.drop_drop]
  have hxy : x = y := by rw [hx x, hx y, h₁, h₂, h₃, h₄, h₅]
  have hbound : ∀ u : Uuid, u.u128.val < 16 ^ 32 := by
    intro u
    calc u.u128.val < 2 ^ 128 := u.u128.isLt
      _ = 16 ^ 32 := by norm_num
  have hval : a.u128.val = b.u128.val :=
    hexDigits_inj 32 (hbound a) (hbound b) (by rw [ha, hb, hxy])
  cases a; cases b
  simpa using Fin.ext hval

theorem toString_ne_empty (u : Uuid) : u.toString ≠ "" := by
  intro h
  have hl := congrArg String.length h
  simp [Uuid.toString, length_hexDigits] at hl

theorem length_toString (u : Uuid) : u.toString.length = 36 := by
  have hlen := length_hexDigits 32 u.u128.val
  unfold Uuid.toString
  generalize hexDigits 32 u.u128.val = cs at hlen ⊢
  rw [String.length_ofList]
  simp only [List.length_append, List.length_cons, List.length_take, List.length_drop, hlen]
  rfl

-- from here on a text is only compared through these lemmas
attribute [irreducible] Uuid.toString

end Uuid

end Sdle
