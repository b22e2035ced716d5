import Mathlib.Algebra.Group.Int.Defs
import Mathlib.Algebra.Group.Nat.Defs
import Mathlib.Data.List.Basic
import Mathlib.Tactic.Common

/-!
# Decimal numerals as bytes

Decimal printing of natural numbers as ASCII bytes, and the saturating reader
that terminal parsers use for 16-bit parameters.

Main results:

- Theorem {lit}`foldl_readDigit_decimal`: reading a printed number back gives
  the number, saturated at the 16-bit maximum.
- Theorem {lit}`isDigit_of_mem_decimal`: a printed number consists of digits.
- Theorem {lit}`length_decimal_le`: a number below a power of ten has no more digits
  than the exponent.
-/

namespace JftermMuxer.Foundation

/-- The ASCII byte of one decimal digit. -/
def digitByte (d : Nat) : UInt8 := UInt8.ofNat (48 + d)

/-- Decimal digits of a number below {lit}`10 ^ fuel`, most significant first. -/
def decimalAux : Nat → Nat → List UInt8
  | 0, n => [digitByte (n % 10)]
  | fuel + 1, n => if n < 10 then [digitByte n] else decimalAux fuel (n / 10) ++ [digitByte (n % 10)]

/-- The decimal numeral of a number, without leading zeros. -/
def decimal (n : Nat) : List UInt8 := decimalAux n n

/-- Append one digit to a 16-bit parameter, saturating at 65535. -/
def readDigit (acc : Nat) (b : UInt8) : Nat := min 65535 (acc * 10 + (b.toNat - 48))

/-- The digit's byte stands as far behind that of zero as the digit's value. -/
theorem toNat_digitByte {d : Nat} (hd : d < 10) : (digitByte d).toNat = 48 + d := by
  simp [digitByte]
  omega

/-- Every byte of a numeral is a decimal digit. -/
theorem isDigit_of_mem_decimal {n : Nat} {b : UInt8} (hb : b ∈ decimal n) :
    0x30 ≤ b ∧ b ≤ 0x39 := by
  have hdigit : ∀ d, d < 10 → 0x30 ≤ digitByte d ∧ digitByte d ≤ 0x39 := by
    intro d hd
    rw [UInt8.le_iff_toNat_le, UInt8.le_iff_toNat_le, toNat_digitByte hd]
    exact ⟨by simp, by simp; omega⟩
  have haux : ∀ fuel n, b ∈ decimalAux fuel n → 0x30 ≤ b ∧ b ≤ 0x39 := by
    intro fuel
    induction fuel with
    | zero =>
        intro n hmem
        simp only [decimalAux, List.mem_singleton] at hmem
        subst hmem
        exact hdigit _ (Nat.mod_lt _ (by decide))
    | succ fuel ih =>
        intro n hmem
        simp only [decimalAux] at hmem
        split at hmem
        · simp only [List.mem_singleton] at hmem
          subst hmem
          exact hdigit _ (by assumption)
        · rcases List.mem_append.mp hmem with hmem | hmem
          · exact ih _ hmem
          · simp only [List.mem_singleton] at hmem
            subst hmem
            exact hdigit _ (Nat.mod_lt _ (by decide))
  exact haux _ _ hb

/-- Reading a printed number back saturates at the 16-bit maximum. -/
theorem foldl_readDigit_decimal (n : Nat) : (decimal n).foldl readDigit 0 = min 65535 n := by
  have haux : ∀ fuel n, n ≤ fuel → (decimalAux fuel n).foldl readDigit 0 = min 65535 n := by
    intro fuel
    induction fuel with
    | zero =>
        intro n hn
        have hzero : n = 0 := by omega
        subst hzero
        simp [decimalAux, readDigit, toNat_digitByte]
    | succ fuel ih =>
        intro n hn
        simp only [decimalAux]
        split
        · simp [readDigit, toNat_digitByte (by assumption : n < 10)]
        · rw [List.foldl_append, ih _ (by omega)]
          simp only [List.foldl_cons, List.foldl_nil, readDigit,
            toNat_digitByte (Nat.mod_lt n (by decide : 0 < 10))]
          omega
  exact haux n n (Nat.le_refl n)

/-- A number below a power of ten has no more digits than the exponent. -/
theorem length_decimal_le {k n : Nat} (hk : 0 < k) (hn : n < 10 ^ k) : (decimal n).length ≤ k := by
  have haux : ∀ fuel k n, 0 < k → n < 10 ^ k → (decimalAux fuel n).length ≤ k := by
    intro fuel
    induction fuel with
    | zero =>
        intro k n hk _
        simp only [decimalAux, List.length_singleton]
        omega
    | succ fuel ih =>
        intro k n hk hn
        simp only [decimalAux]
        split
        · simp only [List.length_singleton]
          omega
        · rename_i hten
          rcases k with _ | _ | k
          · omega
          · rw [Nat.pow_one] at hn
            omega
          · have hdiv : n / 10 < 10 ^ (k + 1) := by
              rw [Nat.pow_succ] at hn
              omega
            have hrest := ih (k + 1) (n / 10) (Nat.succ_pos k) hdiv
            rw [List.length_append, List.length_singleton]
            omega
  exact haux n k n hk hn

end JftermMuxer.Foundation
