import TokenEditor.Text.Basic

/-! # Decimal integers

Signed 64-bit integers in decimal. `read?` takes an optional sign and at least one ASCII digit and
refuses what does not fit; `write` gives the digits without a leading zero. What is written reads
back (`read?_write`). -/

namespace TokenEditor.Decimal

/-- Non-empty and made of ASCII digits. -/
def isDigits (t : Text) : Bool :=
  !t.isEmpty && t.all Char.isDigit

/-- The number that the digits spell, most significant first. -/
def valueOf (ds : Text) : Nat :=
  ds.foldl (fun n d => 10 * n + (d.toNat - '0'.toNat)) 0

/-- The integer if 64 bits hold it. -/
def fit? (n : Int) : Option Int64 :=
  if -9223372036854775808 ≤ n ∧ n < 9223372036854775808 then some (Int64.ofInt n) else none

def read? (t : Text) : Option Int64 :=
  match t with
  | '-' :: ds => if isDigits ds then fit? (-(valueOf ds : Int)) else none
  | '+' :: ds => if isDigits ds then fit? (valueOf ds) else none
  | ds => if isDigits ds then fit? (valueOf ds) else none

def write (n : Int64) : Text :=
  if n.toInt < 0 then '-' :: Nat.toDigits 10 n.toInt.natAbs else Nat.toDigits 10 n.toInt.natAbs

/-- The decimal text filled up with zeros after the sign to at least `width` characters. -/
def writePadded (width : Nat) (n : Int64) : Text :=
  let digits := Nat.toDigits 10 n.toInt.natAbs
  if n.toInt < 0 then '-' :: (List.replicate (width - 1 - digits.length) '0' ++ digits)
  else List.replicate (width - digits.length) '0' ++ digits

theorem fit?_toInt (n : Int64) : fit? n.toInt = some n := by
  rw [fit?, if_pos ⟨n.le_toInt, n.toInt_lt⟩, Int64.ofInt_toInt]

theorem toInt_of_fit? {n : Int} {m : Int64} (h : fit? n = some m) : m.toInt = n := by
  unfold fit? at h
  split at h
  case isTrue hn =>
    obtain rfl := Option.some.inj h
    exact Int64.toInt_ofInt_of_le hn.1 hn.2
  case isFalse => simp at h

/-! ### Digits -/

theorem digitChar_facts : ∀ d, d < 10 →
    (Nat.digitChar d).isDigit = true ∧ (Nat.digitChar d).toNat - '0'.toNat = d := by
  decide

theorem valueOf_concat (ds : Text) (c : Char) :
    valueOf (ds ++ [c]) = 10 * valueOf ds + (c.toNat - '0'.toNat) := by
  simp [valueOf]

@[simp] theorem valueOf_toDigits (n : Nat) : valueOf (Nat.toDigits 10 n) = n := by
  induction n using Nat.strongRecOn with
  | ind n ih =>
    by_cases h : n < 10
    · rw [Nat.toDigits_of_lt_base h, ← List.nil_append [_], valueOf_concat, (digitChar_facts n h).2]
      simp [valueOf]
    · rw [Nat.toDigits_of_base_le (by omega) (by omega), valueOf_concat, ih _ (by omega),
        (digitChar_facts _ (by omega)).2]
      omega

@[simp] theorem isDigits_toDigits (n : Nat) : isDigits (Nat.toDigits 10 n) = true := by
  induction n using Nat.strongRecOn with
  | ind n ih =>
    by_cases h : n < 10
    · rw [Nat.toDigits_of_lt_base h]
      simp [isDigits, (digitChar_facts n h).1]
    · have := ih (n / 10) (by omega)
      rw [Nat.toDigits_of_base_le (by omega) (by omega)]
      simp_all [isDigits, (digitChar_facts _ (Nat.mod_lt n (by omega))).1]

/-- Digits alone are read as they stand: no digit is a sign. -/
theorem read?_of_isDigits {ds : Text} (h : isDigits ds = true) : read? ds = fit? (valueOf ds) := by
  unfold read?
  split
  · simp [isDigits] at h
  · simp [isDigits] at h
  · rw [if_pos h]

theorem read?_write (n : Int64) : read? (write n) = some n := by
  unfold write
  split
  · have hn : -((valueOf (Nat.toDigits 10 n.toInt.natAbs) : Nat) : Int) = n.toInt := by
      rw [valueOf_toDigits]; omega
    rw [read?, if_pos (isDigits_toDigits _), hn, fit?_toInt]
  · have hn : ((valueOf (Nat.toDigits 10 n.toInt.natAbs) : Nat) : Int) = n.toInt := by
      rw [valueOf_toDigits]; omega
    rw [read?_of_isDigits (isDigits_toDigits _), hn, fit?_toInt]

end TokenEditor.Decimal
