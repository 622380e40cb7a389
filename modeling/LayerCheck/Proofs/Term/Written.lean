import Mathlib
import LayerCheck.Proofs.Token.Scanning
import LayerCheck.Term.Basic

/-! The tokens of a written term. Scanning the text of a term gives the tokens of its parts in their order,
with parentheses where the text has them. -/
namespace LayerCheck

def UnaryOp.token : UnaryOp → Token
  | .not => .bang
  | .neg => .op .sub

namespace Token

/-- The tokens of a number: its digits, behind a minus sign if it is negative. -/
def ofInt (n : Int) : List Token :=
  if n < 0 then [op .sub, int (toString n.natAbs)] else [int (toString n.natAbs)]

/-- Tokens in parentheses when the term they are of binds less tightly than its place asks for. -/
def guarded (least strength : Nat) (ts : List Token) : List Token :=
  if strength < least then punct .lparen :: (ts ++ [punct .rparen]) else ts

end Token

namespace Term

def tokens : Term → List Token
  | var name => Token.ofName .ident name
  | int value => Token.ofInt value
  | bool value => [.keyword (if value then .trueKw else .falseKw)]
  | unary op operand => op.token :: Token.guarded 6 operand.strength operand.tokens
  | binary op lhs rhs =>
    Token.guarded op.precedence lhs.strength lhs.tokens ++
      .op op :: Token.guarded (op.precedence + 1) rhs.strength rhs.tokens

/-- Every variable of a term has a name that can be written. -/
def Spelled (t : Term) : Prop := ∀ x ∈ t.freeVars, Token.isName x = true

theorem spelled_binary {op : BinaryOp} {l r : Term} : (binary op l r).Spelled ↔ l.Spelled ∧ r.Spelled := by
  simp only [Spelled, mem_freeVars_binary, or_imp, forall_and]

end Term

namespace Token

/-- Whether a character turns a sign in front of it into another one. -/
def isSignTail (c : Char) : Bool := c == '=' || c == '>'

/-- Signs are not extended by the characters of a class that the two extending ones are not in. -/
theorem not_isSignTail {p : Char → Bool} (heq : p '=' = false) (hgt : p '>' = false) {c : Char} (h : p c = true) :
    isSignTail c = false := by
  cases hc : isSignTail c with
  | false => rfl
  | true =>
    simp only [isSignTail, Bool.or_eq_true, beq_iff_eq] at hc
    rcases hc with rfl | rfl
    · cases heq.symm.trans h
    · cases hgt.symm.trans h

theorem stops_name {x : String} (h : isName x = true) (rest : List Char) :
    Stops isSignTail (x.toList ++ rest) := by
  have hword := (Bool.and_eq_true_iff.1 h).1
  unfold bare at hword
  split at hword
  next hx =>
    rw [hx]
    exact .cons rfl
  next =>
    unfold isWord at hword
    split at hword
    next => cases hword
    next c cs hx =>
      rw [hx]
      exact .cons (not_isSignTail rfl rfl (Bool.and_eq_true_iff.1 hword).1)

theorem stops_digit {rest : List Char} (h : Stops isIdentRest rest) : Stops Char.isDigit rest :=
  h.imp fun _ hc => (not_word_of_isDigit hc).2.2.2

theorem scan_nat (n : Nat) {rest : List Char} (hrest : Stops isIdentRest rest) :
    scan ((toString n).toList ++ rest) = int (toString n) :: scan rest := by
  have hlist : (toString n).toList = Nat.toDigits 10 n := by simp
  have hdigits : (Nat.toDigits 10 n).all Char.isDigit = true :=
    List.all_eq_true.2 fun c hc => Nat.isDigit_of_mem_toDigits (by decide) (by decide) hc
  rw [hlist, scan_digits Nat.toDigits_ne_nil hdigits (stops_digit hrest), ← hlist, String.ofList_toList]

theorem stops_nat (n : Nat) (rest : List Char) : Stops isSignTail ((toString n).toList ++ rest) := by
  have hlist : (toString n).toList = Nat.toDigits 10 n := by simp
  rw [hlist]
  cases hd : Nat.toDigits 10 n with
  | nil => exact absurd hd Nat.toDigits_ne_nil
  | cons d ds =>
    have hdigit : d.isDigit = true :=
      Nat.isDigit_of_mem_toDigits (by decide) (by decide) (hd ▸ List.mem_cons_self)
    exact .cons (not_isSignTail rfl rfl hdigit)

theorem toList_negSucc (n : Nat) : (toString (Int.negSucc n)).toList = '-' :: (toString (n + 1)).toList := by
  change ("-" ++ Nat.repr (n + 1)).toList = _
  simp

theorem scan_int (n : Int) {rest : List Char} (hrest : Stops isIdentRest rest) :
    scan ((toString n).toList ++ rest) = ofInt n ++ scan rest := by
  cases n with
  | ofNat n => exact scan_nat n hrest
  | negSucc n =>
    have htokens : ofInt (Int.negSucc n) = [op .sub, int (toString (n + 1))] := by
      rw [ofInt, if_pos (Int.negSucc_lt_zero n)]
      rfl
    have hstop := (stops_nat (n + 1) rest).imp (q := (· == '>')) fun c hc => by simp_all [isSignTail]
    rw [toList_negSucc, List.cons_append, scan_minus hstop, scan_nat _ hrest, htokens]
    rfl

end Token

namespace Term

/-- The text of a term begins with a character that does not extend a sign in front of it. -/
theorem stops_render (t : Term) (h : t.Spelled) (rest : List Char) :
    Stops Token.isSignTail (t.render.toList ++ rest) := by
  induction t generalizing rest with
  | var x => exact Token.stops_name (h x (by simp [freeVars])) rest
  | int n =>
    cases n with
    | ofNat n => exact Token.stops_nat n rest
    | negSucc n =>
      have htext : (int (Int.negSucc n)).render.toList = '-' :: (toString (n + 1)).toList := Token.toList_negSucc n
      rw [htext]
      exact .cons rfl
  | bool b => cases b <;> exact .cons rfl
  | unary op t ih =>
    cases op <;> simp only [render, String.toList_append, UnaryOp.symbol] <;> exact .cons rfl
  | binary op l r ihl ihr =>
    obtain ⟨hl, -⟩ := spelled_binary.1 h
    simp only [render, guarded, String.toList_append, List.append_assoc]
    split
    next =>
      simp only [String.toList_append, List.append_assoc]
      exact .cons rfl
    next => exact ihl hl _

theorem stops_guarded {t : Term} (h : t.Spelled) (least : Nat) (rest : List Char) :
    Stops Token.isSignTail ((guarded least t.strength t.render).toList ++ rest) := by
  rw [guarded]
  split
  next =>
    simp only [String.toList_append, List.append_assoc]
    exact .cons rfl
  next => exact stops_render t h rest

theorem scan_guarded {t : Term} (least : Nat) {rest : List Char} (hrest : Stops isIdentRest rest)
    (ih : ∀ {rest : List Char}, Stops isIdentRest rest →
      Token.scan (t.render.toList ++ rest) = t.tokens ++ Token.scan rest) :
    Token.scan ((guarded least t.strength t.render).toList ++ rest) =
      Token.guarded least t.strength t.tokens ++ Token.scan rest := by
  rw [guarded, Token.guarded]
  split
  next =>
    have hclose : Stops isIdentRest (')' :: rest) := .cons rfl
    have htext : ("(" ++ t.render ++ ")").toList ++ rest = '(' :: (t.render.toList ++ ')' :: rest) := by simp
    rw [htext, Token.scan_punct '(' .lparen (by decide), ih hclose, Token.scan_punct ')' .rparen (by decide)]
    simp
  next => exact ih hrest

theorem scan_render (t : Term) (h : t.Spelled) {rest : List Char} (hrest : Stops isIdentRest rest) :
    Token.scan (t.render.toList ++ rest) = t.tokens ++ Token.scan rest := by
  induction t generalizing rest with
  | var x => exact Token.scan_isName (h x (by simp [freeVars])) hrest
  | int n => exact Token.scan_int n hrest
  | bool b => cases b <;> exact Token.scan_isWord rfl hrest
  | unary op t ih =>
    have hstop := stops_guarded (t := t) h 6 rest
    have hoperand := scan_guarded 6 hrest (ih h)
    have htext : (unary op t).render.toList ++ rest =
        op.symbol.toList ++ ((guarded 6 t.strength t.render).toList ++ rest) := by
      simp [render]
    rw [htext, tokens, List.cons_append, ← hoperand]
    cases op with
    | not => exact Token.scan_bang (hstop.imp fun c hc => by simp_all [Token.isSignTail])
    | neg => exact Token.scan_minus (hstop.imp fun c hc => by simp_all [Token.isSignTail])
  | binary op l r ihl ihr =>
    obtain ⟨hl, hr⟩ := spelled_binary.1 h
    have hspace (cs : List Char) : Stops isIdentRest (' ' :: cs) := .cons rfl
    have htext : (binary op l r).render.toList ++ rest =
        (guarded op.precedence l.strength l.render).toList ++ ' ' :: (op.symbol.toList ++ ' ' ::
          ((guarded (op.precedence + 1) r.strength r.render).toList ++ rest)) := by
      simp [render]
    rw [htext, scan_guarded _ (hspace _) (ihl hl), Token.scan_space, Token.scan_operator,
      scan_guarded _ hrest (ihr hr), tokens, List.append_assoc, List.cons_append]

end Term

theorem BaseType.scan_name (base : BaseType) {rest : List Char} (hrest : Stops isIdentRest rest) :
    Token.scan (base.name.toList ++ rest) = .ident base.name :: Token.scan rest := by
  cases base <;> exact Token.scan_isName rfl hrest

end LayerCheck
