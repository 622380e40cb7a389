import Mathlib
import LayerCheck.Proofs.Term.Written
import LayerCheck.Term.Reader

/-! Reading a written term. The reader gives back the term whose tokens it is given, with the signs in front of
literals folded into them; what it gives for any tokens is a term that it would give back. -/
namespace LayerCheck

/-- The term with the negation of every integer literal replaced by the negated literal, from the inside out. -/
def Term.folded : Term → Term
  | .unary .neg operand =>
    match operand.folded with
    | .int value => .int (-value)
    | t => .unary .neg t
  | .unary .not operand => .unary .not operand.folded
  | .binary op lhs rhs => .binary op lhs.folded rhs.folded
  | t => t

theorem Token.ofName_cases (word : String → Token) (x : String) :
    (∃ y, x = "$" ++ y ∧ ofName word x = [unknown '$', word y]) ∨ ofName word x = [word x] := by
  unfold ofName
  split
  next cs hx =>
    refine .inl ⟨String.ofList cs, ?_, rfl⟩
    rw [← String.toList_inj, hx]
    simp
  next => exact .inr rfl

/-- Digits denote a signed 64-bit integer exactly if their number is small enough. -/
theorem Decimal.int64?_of_digits {digits : String} (hne : digits.toList ≠ [])
    (hd : digits.toList.all Char.isDigit = true) :
    int64? digits =
      if ofDigits digits.toList < 9223372036854775808 then some (ofDigits digits.toList : Int) else none := by
  have hdigit := List.all_eq_true.1 hd
  have hsigned : signed? digits.toList = some (ofDigits digits.toList : Int) := by
    unfold signed?
    split
    next heq => cases hdigit '-' (heq ▸ List.mem_cons_self)
    next heq => cases hdigit '+' (heq ▸ List.mem_cons_self)
    next => rw [digits?, if_pos ⟨hne, hd⟩]; rfl
  have hfits : fits64 (ofDigits digits.toList : Int) = decide (ofDigits digits.toList < 9223372036854775808) := by
    rw [Bool.eq_iff_iff, fits64_iff, decide_eq_true_iff]
    omega
  rw [int64?, hsigned, Option.filter_some, hfits]
  simp only [decide_eq_true_iff]

namespace Reader

-- The equations of the readers are made here, once for all the proofs that rewrite with them.
attribute [grind =] term extend operand

variable {least : Nat} {ts rest rest' : List Token} {t u : Term}

/-- A reader reads a value and leaves the given tokens. -/
def Reads {α : Type} {bound : List Token → Prop} (r : Except ReadError (α × { rest : List Token // bound rest }))
    (a : α) (rest : List Token) : Prop :=
  ∃ h, r = .ok (a, ⟨rest, h⟩)

theorem reads_term (ho : Reads (operand ts) t rest) (he : Reads (extend t least rest) u rest') :
    Reads (term least ts) u rest' := by
  obtain ⟨h₁, ho⟩ := ho
  obtain ⟨h₂, he⟩ := he
  refine ⟨Nat.lt_of_le_of_lt h₂ h₁, ?_⟩
  rw [term, ho]
  change (extend t least rest >>= _) = _
  rw [he]
  rfl

/-- Reading stops at a token that does not continue a term of the given precedence. -/
theorem reads_extend_self (h : ∀ op rest', rest = .op op :: rest' → op.precedence < least) :
    Reads (extend t least rest) t rest := by
  refine ⟨Nat.le_refl _, ?_⟩
  unfold extend
  split
  next op rest' =>
    rw [if_pos (h op rest' rfl)]
    rfl
  next => rfl

theorem reads_extend_binary {op : BinaryOp} {rhs : Term} {rest₁ : List Token} (hop : least ≤ op.precedence)
    (hr : Reads (term (op.precedence + 1) rest) rhs rest₁)
    (he : Reads (extend (.binary op t rhs) least rest₁) u rest') :
    Reads (extend t least (.op op :: rest)) u rest' := by
  obtain ⟨h₁, hr⟩ := hr
  obtain ⟨h₂, he⟩ := he
  refine ⟨Nat.le_succ_of_le (Nat.le_trans h₂ (Nat.le_of_lt h₁)), ?_⟩
  rw [extend, if_neg (Nat.not_lt.2 hop), hr]
  change (extend (.binary op t rhs) least rest₁ >>= _) = _
  rw [he]
  rfl

theorem reads_parenthesized (h : Reads (term 0 ts) t (.punct .rparen :: rest)) :
    Reads (operand (.punct .lparen :: ts)) t rest := by
  obtain ⟨h, hr⟩ := h
  refine ⟨?_, ?_⟩
  · simp only [List.length_cons] at h ⊢
    omega
  · rw [operand, hr]
    rfl

theorem reads_not (h : Reads (operand ts) t rest) : Reads (operand (.bang :: ts)) (.not t) rest := by
  obtain ⟨h, hr⟩ := h
  refine ⟨Nat.lt_succ_of_lt h, ?_⟩
  rw [operand, hr]
  rfl

theorem reads_neg (h : Reads (operand ts) t rest) : Reads (operand (.op .sub :: ts)) (negated t) rest := by
  obtain ⟨h, hr⟩ := h
  refine ⟨Nat.lt_succ_of_lt h, ?_⟩
  rw [operand, hr]
  rfl

/-! ### Names and numbers -/

theorem reads_ident (x : String) (rest : List Token) : Reads (operand (.ident x :: rest)) (.var x) rest := by
  refine ⟨Nat.lt_succ_self _, ?_⟩
  rw [operand]
  rfl

theorem reads_dollar (x : String) (rest : List Token) :
    Reads (operand (.unknown '$' :: .ident x :: rest)) (.var ("$" ++ x)) rest := by
  refine ⟨Nat.lt_succ_of_lt (Nat.lt_succ_self _), ?_⟩
  rw [operand]
  rfl

theorem reads_name (x : String) (rest : List Token) :
    Reads (operand (Token.ofName .ident x ++ rest)) (.var x) rest := by
  rcases Token.ofName_cases .ident x with ⟨y, rfl, hname⟩ | hname
  · rw [hname]
    exact reads_dollar y rest
  · rw [hname]
    exact reads_ident x rest

theorem int64?_toString {n : Nat} (h : n < 9223372036854775808) : Decimal.int64? (toString n) = some (n : Int) := by
  have hlist : (toString n).toList = Nat.toDigits 10 n := by simp
  have hdigits : (Nat.toDigits 10 n).all Char.isDigit = true :=
    List.all_eq_true.2 fun c hc => Nat.isDigit_of_mem_toDigits (by decide) (by decide) hc
  have hvalue : Decimal.ofDigits (Nat.toDigits 10 n) = n := Nat.ofDigitChars_ten_toDigits
  rw [Decimal.int64?_of_digits (hlist ▸ Nat.toDigits_ne_nil) (hlist ▸ hdigits), hlist, hvalue, if_pos h]

theorem reads_digits {digits : String} {value : Int} (h : Decimal.int64? digits = some value) (rest : List Token) :
    Reads (operand (.int digits :: rest)) (.int value) rest := by
  refine ⟨Nat.lt_succ_self _, ?_⟩
  rw [operand, h]
  rfl

theorem reads_nat {n : Nat} (h : n < 9223372036854775808) (rest : List Token) :
    Reads (operand (.int (toString n) :: rest)) (.int n) rest :=
  reads_digits (int64?_toString h) rest

theorem reads_int {n : Int} (h : -9223372036854775808 < n ∧ n < 9223372036854775808) (rest : List Token) :
    Reads (operand (Token.ofInt n ++ rest)) (.int n) rest := by
  have hn : n.natAbs < 9223372036854775808 := by omega
  by_cases hneg : n < 0
  · have hvalue : negated (.int (n.natAbs : Int)) = .int n := by
      rw [negated]
      congr 1
      omega
    rw [Token.ofInt, if_pos hneg, ← hvalue]
    exact reads_neg (reads_nat hn rest)
  · have hvalue : (n.natAbs : Int) = n := by omega
    have hread := reads_nat hn rest
    rw [hvalue] at hread
    rw [Token.ofInt, if_neg hneg]
    exact hread

theorem reads_true (rest : List Token) : Reads (operand (.keyword .trueKw :: rest)) (.bool true) rest := by
  refine ⟨Nat.lt_succ_self _, ?_⟩
  rw [operand]
  rfl

theorem reads_false (rest : List Token) : Reads (operand (.keyword .falseKw :: rest)) (.bool false) rest := by
  refine ⟨Nat.lt_succ_self _, ?_⟩
  rw [operand]
  rfl

/-! ### Written terms -/

/-- The tokens after a term do not continue it with an operator that binds tighter than a given precedence. -/
def Holds (precedence : Nat) (rest : List Token) : Prop :=
  ∀ op rest', rest = .op op :: rest' → op.precedence ≤ precedence

/-- A term is read back from its tokens, both where a whole term is read and where an operand is. -/
structure ReadBack (t : Term) : Prop where
  operand : 6 ≤ t.strength → ∀ rest, Reads (Reader.operand (t.tokens ++ rest)) t.folded rest
  term : ∀ least rest u rest', least ≤ t.strength → Holds t.strength rest →
    Reads (extend t.folded least rest) u rest' → Reads (Reader.term least (t.tokens ++ rest)) u rest'

/-- An operand is also read as the beginning of a term. -/
theorem ReadBack.of_operand (h : ∀ rest, Reads (Reader.operand (t.tokens ++ rest)) t.folded rest) : ReadBack t where
  operand _ := h
  term _ rest _ _ _ _ he := reads_term (h rest) he

theorem ReadBack.parenthesized (h : ReadBack t) (rest : List Token) :
    Reads (Reader.operand (.punct .lparen :: (t.tokens ++ [.punct .rparen]) ++ rest)) t.folded rest := by
  have hstop : ∀ precedence, Holds precedence (.punct .rparen :: rest) := fun _ _ _ heq => by cases heq
  have hread := h.term 0 (.punct .rparen :: rest) _ _ (Nat.zero_le _) (hstop _)
    (reads_extend_self fun _ _ heq => by cases heq)
  rw [List.cons_append, List.append_assoc]
  exact reads_parenthesized hread

theorem ReadBack.guarded_operand (h : ReadBack t) (rest : List Token) :
    Reads (Reader.operand (Token.guarded 6 t.strength t.tokens ++ rest)) t.folded rest := by
  by_cases hs : t.strength < 6
  · rw [Token.guarded, if_pos hs]
    exact h.parenthesized rest
  · rw [Token.guarded, if_neg hs]
    exact h.operand (Nat.not_lt.1 hs) rest

theorem ReadBack.guarded (h : ReadBack t) {precedence : Nat} (hle : least ≤ precedence)
    (hrest : Holds precedence rest) (he : Reads (extend t.folded least rest) u rest') :
    Reads (Reader.term least (Token.guarded precedence t.strength t.tokens ++ rest)) u rest' := by
  by_cases hs : t.strength < precedence
  · rw [Token.guarded, if_pos hs]
    exact reads_term (h.parenthesized rest) he
  · rw [Token.guarded, if_neg hs]
    have hs := Nat.not_lt.1 hs
    exact h.term least rest u rest' (Nat.le_trans hle hs) (fun op r heq => Nat.le_trans (hrest op r heq) hs) he

theorem folded_neg (t : Term) : (Term.unary .neg t).folded = negated t.folded := by
  rewrite [Term.folded]
  cases t.folded <;> rfl

theorem readBack (t : Term) (h : ∀ n ∈ t.literals, -9223372036854775808 < n ∧ n < 9223372036854775808) :
    ReadBack t := by
  induction t with
  | var x => exact .of_operand (reads_name x)
  | int n => exact .of_operand (reads_int (h n List.mem_cons_self))
  | bool b =>
    cases b
    · exact .of_operand reads_false
    · exact .of_operand reads_true
  | unary op t ih =>
    have hread := (ih h).guarded_operand
    cases op with
    | not => exact .of_operand fun rest => reads_not (hread rest)
    | neg => exact .of_operand fun rest => folded_neg t ▸ reads_neg (hread rest)
  | binary op l r ihl ihr =>
    have hl := ihl fun n hn => h n (List.mem_append_left _ hn)
    have hr := ihr fun n hn => h n (List.mem_append_right _ hn)
    constructor
    · intro hs
      have hp : op.precedence < 6 := by cases op <;> decide
      exact absurd hs (Nat.not_le.2 hp)
    · intro least rest u rest' hle hrest he
      rw [Term.tokens, List.append_assoc, List.cons_append]
      refine hl.guarded hle (fun op' _ heq => by cases heq; exact Nat.le_refl _) ?_
      refine reads_extend_binary hle (hr.guarded (Nat.le_refl _) ?_ (reads_extend_self ?_)) he
      · exact fun op' r heq => Nat.le_succ_of_le (hrest op' r heq)
      · exact fun op' r heq => Nat.lt_succ_of_le (hrest op' r heq)

/-- A term is read from its tokens up to a token that is no operator. -/
theorem reads_tokens (h : ∀ n ∈ t.literals, -9223372036854775808 < n ∧ n < 9223372036854775808)
    (hrest : ∀ op rest', rest ≠ .op op :: rest') : Reads (term 0 (t.tokens ++ rest)) t.folded rest :=
  (readBack t h).term 0 rest _ _ (Nat.zero_le _) (fun op r heq => absurd heq (hrest op r))
    (reads_extend_self fun op r heq => absurd heq (hrest op r))

end Reader

theorem tokensOf_eq (text : String) : tokensOf text = Token.scan text.toList := rfl

namespace Term

theorem tokensOf_render {t : Term} (h : t.Spelled) : tokensOf t.render = t.tokens := by
  have hscan := t.scan_render h (Stops.nil (p := isIdentRest))
  rwa [List.append_nil, Token.scan_nil, List.append_nil] at hscan

theorem parse_render {t : Term} (hspelled : t.Spelled)
    (hrange : ∀ n ∈ t.literals, -9223372036854775808 < n ∧ n < 9223372036854775808) :
    parse t.render = .ok t.folded := by
  have hread : Reader.Reads (Reader.term 0 (t.tokens ++ [])) t.folded [] := Reader.reads_tokens hrange (by simp)
  rw [List.append_nil, ← tokensOf_render hspelled] at hread
  obtain ⟨_, hread⟩ := hread
  rw [parse, hread]
  rfl

end Term

end LayerCheck
