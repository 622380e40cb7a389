/-! Ranges of signed machine words, over unbounded integers. Arithmetic that must stay inside a word
is done on `Int` and checked afterwards. -/
namespace LayerCheck

/-- Whether an integer is a signed 64-bit word. -/
def fits64 (n : Int) : Bool := -9223372036854775808 ≤ n && n < 9223372036854775808

/-- Whether an integer is a signed 128-bit word. -/
def fits128 (n : Int) : Bool :=
  -170141183460469231731687303715884105728 ≤ n && n < 170141183460469231731687303715884105728

/-- The nearest signed 64-bit word. -/
def clamp64 (n : Int) : Int := max (-9223372036854775808) (min 9223372036854775807 n)

theorem fits64_iff {n : Int} : fits64 n = true ↔ -9223372036854775808 ≤ n ∧ n < 9223372036854775808 := by
  simp [fits64]

theorem fits128_iff {n : Int} : fits128 n = true ↔
    -170141183460469231731687303715884105728 ≤ n ∧ n < 170141183460469231731687303715884105728 := by
  simp [fits128]

theorem fits64_clamp64 (n : Int) : fits64 (clamp64 n) = true := by
  rw [fits64_iff, clamp64]
  omega

end LayerCheck
