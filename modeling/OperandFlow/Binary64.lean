/-! Whole numbers in binary64: 53 binary digits, rounded to nearest with ties to even. -/
namespace OperandFlow.Binary64

/-- The distance between neighbours where `n` lies. -/
def spacing (n : Nat) : Nat :=
  Nat.pow 2 (n.log2 - 52)

/-- The nearest number that is a multiple of `unit`; of two equally near ones the even multiple. -/
def nearestMultiple (unit n : Nat) : Nat :=
  let k := n / unit
  let rest := n % unit
  let rounded :=
    if 2 * rest < unit then k
    else if unit < 2 * rest then k + 1
    else k + k % 2
  rounded * unit

/-- The nearest number of 53 binary digits. -/
def nearest (n : Nat) : Nat :=
  nearestMultiple (spacing n) n

/-- The least number that rounds beyond the finite range. -/
def overflowBound : Nat := Nat.pow 2 1024 - Nat.pow 2 970

/-- The product of two numbers is infinite. Each factor is rounded before. -/
def productOverflows (a b : Nat) : Bool :=
  overflowBound ≤ nearest a * nearest b

theorem nearestMultiple_one (n : Nat) : nearestMultiple 1 n = n := by
  simp [nearestMultiple, Nat.mod_one]

/-- Numbers of at most 53 binary digits stand for themselves. -/
theorem nearest_of_lt {n : Nat} (h : n < 9007199254740992) : nearest n = n := by
  have hlog : n.log2 - 52 = 0 := by
    by_cases hn : n = 0
    · simp [hn]
    · have := (Nat.log2_lt hn).2 (show n < 2 ^ 53 from h)
      omega
  rw [nearest, spacing, hlog]
  exact nearestMultiple_one n

end OperandFlow.Binary64
