/-!
# Powers of ten and of two

Decimals are scaled by powers of ten (`tenTo`) and binary numbers by powers of two
(`twoTo`). The powers of ten grow tenfold with each step of the exponent, turn sums
of exponents into products, and are never zero.
-/

namespace Bourse

/-- The power of ten with exponent `k`. -/
def tenTo (k : Nat) : Nat := Nat.pow 10 k

/-- The power of two with exponent `k`. -/
def twoTo (k : Nat) : Nat := Nat.pow 2 k

@[simp] theorem tenTo_zero : tenTo 0 = 1 := rfl

theorem tenTo_succ (k : Nat) : tenTo (k + 1) = tenTo k * 10 := rfl

theorem tenTo_pos (k : Nat) : 0 < tenTo k := Nat.pow_pos (by decide)

theorem tenTo_add (j k : Nat) : tenTo (j + k) = tenTo j * tenTo k := Nat.pow_add 10 j k

theorem tenTo_le_tenTo {j k : Nat} (h : j ≤ k) : tenTo j ≤ tenTo k :=
  Nat.pow_le_pow_right (by decide) h

end Bourse
