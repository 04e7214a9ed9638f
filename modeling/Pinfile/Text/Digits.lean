/-!
# Digits

The number that a text of decimal digits stands for. Writing is `Nat.repr`; the main statement is
that reading takes it back (`ofDigits_repr`).

Hexadecimal digits are written in lowercase, or in uppercase where the format asks for it, and read
in either case. Reading takes both ways of writing back (`Hex.value?_lower`, `Hex.value?_upper`).
-/

namespace Pinfile.Text

/-! ## Decimal digits -/

/-- The number that decimal digits stand for. -/
def ofDigits (digits : List Char) : Nat :=
  digits.foldl (fun n c => 10 * n + (c.toNat - '0'.toNat)) 0

@[simp] theorem ofDigits_nil : ofDigits [] = 0 := rfl

theorem ofDigits_append_singleton (digits : List Char) (c : Char) :
    ofDigits (digits ++ [c]) = 10 * ofDigits digits + (c.toNat - '0'.toNat) := by
  simp [ofDigits]

/-- The digits of a number stand for it. -/
theorem ofDigits_toDigits (n : Nat) : ofDigits (Nat.toDigits 10 n) = n := by
  induction n using Nat.strongRecOn with
  | ind n ih =>
    by_cases hn : n < 10
    · rw [Nat.toDigits_of_lt_base hn, ← List.nil_append [_], ofDigits_append_singleton,
        Nat.toNat_digitChar_of_lt_ten hn]
      simp
    · have hd : 0 < n / 10 := by omega
      have h := Nat.toDigits_append_toDigits (b := 10) (n := n / 10) (d := n % 10) (by decide) hd
        (by omega)
      rw [show 10 * (n / 10) + n % 10 = n by omega,
        Nat.toDigits_of_lt_base (show n % 10 < 10 by omega)] at h
      rw [← h, ofDigits_append_singleton, ih (n / 10) (by omega),
        Nat.toNat_digitChar_of_lt_ten (by omega)]
      simp
      omega

/-- A written number is read back. -/
@[simp] theorem ofDigits_repr (n : Nat) : ofDigits n.repr.toList = n := by
  rw [Nat.toList_repr, ofDigits_toDigits]

/-! ## Hexadecimal digits -/

namespace Hex

/-- The lowercase digits in order. -/
def lowerDigits : List Char := "0123456789abcdef".toList

/-- The uppercase digits in order. -/
def upperDigits : List Char := "0123456789ABCDEF".toList

/-- The lowercase digit of a number below 16. -/
def lower (n : Nat) : Char := lowerDigits.getD n '0'

/-- The uppercase digit of a number below 16. -/
def upper (n : Nat) : Char := upperDigits.getD n '0'

/-- The number of a digit. -/
def value? (c : Char) : Option Nat :=
  if '0' ≤ c ∧ c ≤ '9' then some (c.toNat - '0'.toNat)
  else if 'a' ≤ c ∧ c ≤ 'f' then some (c.toNat - 'a'.toNat + 10)
  else if 'A' ≤ c ∧ c ≤ 'F' then some (c.toNat - 'A'.toNat + 10)
  else none

/-- The number that a text of digits stands for, the digits before it standing for `n`. -/
def valueFrom? (n : Nat) : List Char → Option Nat
  | [] => some n
  | c :: cs => (value? c).bind fun d => valueFrom? (16 * n + d) cs

/-- The number that a text of digits stands for. -/
def number? (cs : List Char) : Option Nat := valueFrom? 0 cs

/-- The two lowercase digits of a byte. -/
def ofByte (b : UInt8) : List Char := [lower (b.toNat / 16), lower (b.toNat % 16)]

/-- The lowercase digits of bytes. -/
def ofBytes (bytes : List UInt8) : List Char := bytes.flatMap ofByte

/-- The bytes that pairs of digits stand for. -/
def bytes? : List Char → Option (List UInt8)
  | [] => some []
  | a :: b :: rest => do
    let high ← value? a
    let low ← value? b
    return UInt8.ofNat (16 * high + low) :: (← bytes? rest)
  | [_] => none

/-- A lowercase digit is read back. -/
theorem value?_lower : ∀ n < 16, value? (lower n) = some n := by decide

/-- An uppercase digit is read back. -/
theorem value?_upper : ∀ n < 16, value? (upper n) = some n := by decide

/-- Every byte has two digits. -/
@[simp] theorem length_ofBytes (bytes : List UInt8) :
    (ofBytes bytes).length = 2 * bytes.length := by
  induction bytes with
  | nil => rfl
  | cons b rest ih =>
    have h : ofBytes (b :: rest) = ofByte b ++ ofBytes rest := rfl
    rw [h, List.length_append, ih, List.length_cons]
    simp only [ofByte, List.length_cons, List.length_nil]
    omega

end Hex
end Pinfile.Text
