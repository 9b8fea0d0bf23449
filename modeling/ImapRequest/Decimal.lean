import ImapRequest.Octet

/-!
# Decimal numbers

`Decimal.value` is the number that decimal digits stand for, the most significant digit first and
any number of leading zeros allowed.  `Decimal.padded` writes a number with at least so many
digits.
-/

namespace ImapRequest

namespace Decimal

/-- The number that some digits make when they follow the digits of `n`. -/
def extend (n : Nat) : List UInt8 → Nat
  | [] => n
  | b :: bs => extend (10 * n + Octet.digitValue b) bs

/-- The number that decimal digits stand for. -/
def value (digits : List UInt8) : Nat := extend 0 digits

/-- The largest number that a request can hold. -/
def maxNumber : Nat := 4294967295

/-- The digits of a number, with zeros in front up to a width. -/
def padded (width n : Nat) : String :=
  let digits := Nat.toDigits 10 n
  String.ofList (List.replicate (width - digits.length) '0' ++ digits)

theorem extend_append (n : Nat) (xs ys : List UInt8) :
    extend n (xs ++ ys) = extend (extend n xs) ys := by
  induction xs generalizing n with
  | nil => rfl
  | cons b xs ih => exact ih _

theorem le_extend (n : Nat) (bs : List UInt8) : n ≤ extend n bs := by
  induction bs generalizing n with
  | nil => exact Nat.le_refl n
  | cons b bs ih => exact Nat.le_trans (m := 10 * n + Octet.digitValue b) (by omega) (ih _)

end Decimal

end ImapRequest
