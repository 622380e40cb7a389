import LayerCheck.Token.Scan

/-! What a reader leaves of its input, with a bound on the length that makes reading end. -/
namespace LayerCheck

/-- What is left of `xs` after at least one item. -/
abbrev Shorter {α : Type} (xs : List α) := { rest : List α // rest.length < xs.length }

/-- What is left of `xs`, possibly all of it. -/
abbrev NoLonger {α : Type} (xs : List α) := { rest : List α // rest.length ≤ xs.length }

variable {α : Type}

def NoLonger.all (xs : List α) : NoLonger xs := ⟨xs, Nat.le_refl _⟩

/-- What is left after one more item in front. -/
def NoLonger.behind {xs : List α} (x : α) (left : NoLonger xs) : Shorter (x :: xs) :=
  ⟨left.1, Nat.lt_succ_of_le left.2⟩

def Shorter.noLonger {xs : List α} (left : Shorter xs) : NoLonger xs := ⟨left.1, Nat.le_of_lt left.2⟩

theorem length_lt_of_le {xs ys zs : List α} (h : ys.length ≤ xs.length) (h₁ : zs.length < ys.length) :
    zs.length < xs.length := Nat.lt_of_lt_of_le h₁ h

theorem length_lt_between {xs ys zs ws : List α} (h : ys.length ≤ xs.length) (h₁ : zs.length < ys.length)
    (h₂ : ws.length ≤ zs.length) : ws.length < xs.length := Nat.lt_of_le_of_lt h₂ (length_lt_of_le h h₁)

theorem length_le_beyond {xs ys zs ws vs : List α} (h : ys.length ≤ xs.length) (h₁ : zs.length ≤ ys.length)
    (h₂ : ws.length < zs.length) (h₃ : vs.length ≤ ws.length) : vs.length ≤ xs.length := by omega

end LayerCheck
