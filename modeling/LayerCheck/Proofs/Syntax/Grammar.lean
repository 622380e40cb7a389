import Mathlib
import LayerCheck.Proofs.Term.Denotation
import LayerCheck.Syntax.Parse

/-! The grammar of programs, with the trees that it makes. Each production says which lexemes it takes, which tree
they become and what is left; a reader that succeeds has followed one production after another. For expressions the
productions also say what must not come next, so that reading succeeds exactly where they apply, and an operand that
has been extended cannot be extended again. -/
namespace LayerCheck.Parse

variable {src : Source}

/-- The mark `p` comes first, and then `rest`. -/
def Begins (p : Punct) (ts rest : List Lexeme) : Prop := ∃ start stop, ts = ⟨.punct p, start, stop⟩ :: rest

theorem expect_eq_ok {p : Punct} {ts rest : List Lexeme} :
    (∃ h, expect src p ts = .ok ⟨rest, h⟩) ↔ Begins p ts rest := by
  unfold expect Begins
  split
  next t rest' =>
    obtain ⟨token, start, stop⟩ := t
    constructor
    · rintro ⟨h, hr⟩
      split at hr
      next ht =>
        cases hr
        exact ⟨start, stop, by rw [show token = .punct p from ht]⟩
      next => cases hr
    · rintro ⟨start', stop', heq⟩
      cases heq
      exact ⟨Nat.lt_succ_self _, if_pos rfl⟩
  next =>
    constructor
    · rintro ⟨h, hr⟩
      cases hr
    · rintro ⟨start, stop, heq⟩
      cases heq

/-- Only the end of the lexemes looks like the end of the text. -/
theorem exists_of_peek {ts : List Lexeme} {token : Token} (h : peek ts = token) (hne : token ≠ .eof) :
    ∃ start stop rest, ts = ⟨token, start, stop⟩ :: rest := by
  cases ts with
  | nil => exact absurd h.symm hne
  | cons t rest =>
    obtain ⟨token', start, stop⟩ := t
    cases h
    exact ⟨start, stop, rest, rfl⟩

/-! ### Expressions -/

/-- What is read of an expression, together with what was read before and becomes a part of it. -/
inductive Phrase where
  | expression (limit : Nat)
  | binary (lhs : Tree) (limit : Nat)
  | operand
  | afterName (name : String) (loc : Location)
  | arguments

/-- The lexemes `ts` begin with a phrase that becomes the trees `es`, and `rest` is left. -/
inductive Derives (src : Source) : Phrase → List Lexeme → List Tree → List Lexeme → Prop
  | expression {limit ts rest rest' lhs e} (first : Derives src .operand ts [lhs] rest)
      (more : Derives src (.binary lhs limit) rest [e] rest') : Derives src (.expression limit) ts [e] rest'
  | stop {lhs limit ts} (h : ∀ op, peek ts = .op op → op.precedence ≤ limit) :
      Derives src (.binary lhs limit) ts [lhs] ts
  | extend {lhs limit op start stop rest rhs rest₁ e rest₂} (h : limit < op.precedence)
      (right : Derives src (.expression op.precedence) (skipNewlines rest).1 [rhs] rest₁)
      (more : Derives src
        (.binary (.node .binOp lhs.loc [lhs, .leaf .operator (src.locate start) op.symbol, rhs]) limit)
        rest₁ [e] rest₂) :
      Derives src (.binary lhs limit) (⟨.op op, start, stop⟩ :: rest) [e] rest₂
  | not {start stop rest e rest'} (inner : Derives src .operand rest [e] rest') :
      Derives src .operand (⟨.bang, start, stop⟩ :: rest)
        [.node .unaryOp (src.locate start) [.leaf .operator (src.locate start) "!", e]] rest'
  | neg {start stop rest e rest'} (inner : Derives src .operand rest [e] rest') :
      Derives src .operand (⟨.op .sub, start, stop⟩ :: rest)
        [.node .unaryOp (src.locate start) [.leaf .operator (src.locate start) "-", e]] rest'
  | num (digits : String) (start stop : Nat) (rest : List Lexeme) :
      Derives src .operand (⟨.int digits, start, stop⟩ :: rest)
        [.node .num (src.locate start) [.leaf .int (src.locate start) digits]] rest
  | trueLit (start stop : Nat) (rest : List Lexeme) :
      Derives src .operand (⟨.keyword .trueKw, start, stop⟩ :: rest) [.node .trueLit (src.locate start) []] rest
  | falseLit (start stop : Nat) (rest : List Lexeme) :
      Derives src .operand (⟨.keyword .falseKw, start, stop⟩ :: rest) [.node .falseLit (src.locate start) []] rest
  | name {name start stop rest e rest'} (more : Derives src (.afterName name (src.locate start)) rest [e] rest') :
      Derives src .operand (⟨.ident name, start, stop⟩ :: rest) [e] rest'
  | parens {start stop rest e rest₁ rest₂} (inner : Derives src (.expression 0) (skipNewlines rest).1 [e] rest₁)
      (close : Begins .rparen (skipNewlines rest₁).1 rest₂) :
      Derives src .operand (⟨.punct .lparen, start, stop⟩ :: rest) [e] rest₂
  | plain {name loc ts} (h : peek ts ≠ .punct .lparen) : Derives src (.afterName name loc) ts [identNode name loc] ts
  | callNone {name loc start stop rest rest'} (close : Begins .rparen (skipNewlines rest).1 rest') :
      Derives src (.afterName name loc) (⟨.punct .lparen, start, stop⟩ :: rest)
        [.node .funCall loc [.leaf .name loc name]] rest'
  | call {name loc start stop rest args rest₁ rest₂} (h : peek (skipNewlines rest).1 ≠ .punct .rparen)
      (inner : Derives src .arguments (skipNewlines rest).1 args rest₁) (close : Begins .rparen rest₁ rest₂) :
      Derives src (.afterName name loc) (⟨.punct .lparen, start, stop⟩ :: rest)
        [.node .funCall loc (.leaf .name loc name :: args)] rest₂
  | lastArgument {ts e rest} (inner : Derives src (.expression 0) ts [e] rest)
      (h : peek (skipNewlines rest).1 ≠ .punct .comma) : Derives src .arguments ts [e] (skipNewlines rest).1
  | moreArguments {ts e rest rest₁ es rest₂} (inner : Derives src (.expression 0) ts [e] rest)
      (comma : Begins .comma (skipNewlines rest).1 rest₁)
      (more : Derives src .arguments (skipNewlines rest₁).1 es rest₂) : Derives src .arguments ts (e :: es) rest₂

/-- The readers of expressions follow the productions on less than some number of lexemes. -/
structure Expressions (src : Source) (n : Nat) : Prop where
  expression : ∀ limit ts, ts.length < n → ∀ e rest, expression src limit ts = .ok (e, rest) →
    Derives src (.expression limit) ts [e] rest.1
  binary : ∀ lhs limit ts, ts.length < n → ∀ e rest, binary src lhs limit ts = .ok (e, rest) →
    Derives src (.binary lhs limit) ts [e] rest.1
  operand : ∀ ts, ts.length < n → ∀ e rest, operand src ts = .ok (e, rest) → Derives src .operand ts [e] rest.1
  afterName : ∀ name loc ts, ts.length < n → ∀ e rest, afterName src name loc ts = .ok (e, rest) →
    Derives src (.afterName name loc) ts [e] rest.1
  arguments : ∀ ts, ts.length < n → ∀ es rest, arguments src ts = .ok (es, rest) →
    Derives src .arguments ts es rest.1

variable {n limit : Nat} {ts : List Lexeme} {lhs e : Tree} {name : String} {loc : Location}

theorem derives_binary (hi : Expressions src n) (hn : ts.length ≤ n) {rest : NoLonger ts}
    (hr : binary src lhs limit ts = .ok (e, rest)) : Derives src (.binary lhs limit) ts [e] rest.1 := by
  unfold binary at hr
  split at hr
  next op start stop rest₀ =>
    split at hr
    next hop =>
      have hskip := (skipNewlines rest₀).2
      dsimp only at hr
      obtain ⟨⟨rhs, rest₁, h₁⟩, hrhs, hr⟩ := bind_eq_ok.1 hr
      obtain ⟨⟨e', rest₂, h₂⟩, hbin, hr⟩ := bind_eq_ok.1 hr
      cases hr
      have hlt := Nat.lt_of_le_of_lt hskip hn
      exact .extend hop (hi.expression _ _ hlt _ _ hrhs) (hi.binary _ _ _ (Nat.lt_trans h₁ hlt) _ _ hbin)
    next hop =>
      cases hr
      refine .stop fun op' h => ?_
      cases h
      exact Nat.not_lt.1 hop
  next hne =>
    cases hr
    refine .stop fun op h => ?_
    obtain ⟨start, stop, rest, heq⟩ := exists_of_peek h Token.noConfusion
    exact absurd heq (hne _ _ _ _)

theorem derives_afterName (hi : Expressions src n) (hn : ts.length ≤ n) {rest : NoLonger ts}
    (hr : afterName src name loc ts = .ok (e, rest)) : Derives src (.afterName name loc) ts [e] rest.1 := by
  unfold afterName at hr
  split at hr
  next start stop rest₀ =>
    have hskip := (skipNewlines rest₀).2
    dsimp only at hr
    split at hr
    next =>
      obtain ⟨⟨args, rest₁⟩, hargs, hr⟩ := bind_eq_ok.1 hr
      cases hargs
      obtain ⟨⟨rest₂, h₂⟩, hclose, hr⟩ := bind_eq_ok.1 hr
      cases hr
      exact .callNone (expect_eq_ok.1 ⟨h₂, hclose⟩)
    next hclose =>
      obtain ⟨⟨args, rest₁, h₁⟩, hargs, hr⟩ := bind_eq_ok.1 hr
      obtain ⟨⟨rest₂, h₂⟩, hclose, hr⟩ := bind_eq_ok.1 hr
      cases hr
      exact .call ‹_› (hi.arguments _ (Nat.lt_of_le_of_lt hskip hn) _ _ hargs) (expect_eq_ok.1 ⟨h₂, hclose⟩)
  next hne =>
    cases hr
    refine .plain fun h => ?_
    obtain ⟨start, stop, rest, heq⟩ := exists_of_peek h Token.noConfusion
    exact absurd heq (hne _ _ _)

theorem derives_operand (hi : Expressions src n) (hn : ts.length ≤ n) {rest : Shorter ts}
    (hr : operand src ts = .ok (e, rest)) : Derives src .operand ts [e] rest.1 := by
  unfold operand at hr
  split at hr
  next =>
    obtain ⟨⟨e', rest₁, h₁⟩, he, hr⟩ := bind_eq_ok.1 hr
    cases hr
    exact .not (hi.operand _ hn _ _ he)
  next =>
    obtain ⟨⟨e', rest₁, h₁⟩, he, hr⟩ := bind_eq_ok.1 hr
    cases hr
    exact .neg (hi.operand _ hn _ _ he)
  next =>
    cases hr
    exact .num _ _ _ _
  next =>
    cases hr
    exact .trueLit _ _ _
  next =>
    cases hr
    exact .falseLit _ _ _
  next =>
    obtain ⟨⟨e', rest₁, h₁⟩, he, hr⟩ := bind_eq_ok.1 hr
    cases hr
    exact .name (hi.afterName _ _ _ hn _ _ he)
  next start stop rest₀ =>
    have hskip := (skipNewlines rest₀).2
    dsimp only at hr
    obtain ⟨⟨e', rest₁, h₁⟩, he, hr⟩ := bind_eq_ok.1 hr
    obtain ⟨⟨rest₂, h₂⟩, hclose, hr⟩ := bind_eq_ok.1 hr
    cases hr
    exact .parens (hi.expression _ _ (Nat.lt_of_le_of_lt hskip hn) _ _ he) (expect_eq_ok.1 ⟨h₂, hclose⟩)
  next => cases hr

theorem derives_expression (hi : Expressions src n) (hn : ts.length ≤ n) {rest : Shorter ts}
    (hr : expression src limit ts = .ok (e, rest)) : Derives src (.expression limit) ts [e] rest.1 := by
  unfold expression at hr
  obtain ⟨⟨lhs, rest₁, h₁⟩, hop, hr⟩ := bind_eq_ok.1 hr
  obtain ⟨⟨e', rest₂, h₂⟩, hbin, hr⟩ := bind_eq_ok.1 hr
  cases hr
  exact .expression (derives_operand hi hn hop) (hi.binary _ _ _ (Nat.lt_of_lt_of_le h₁ hn) _ _ hbin)

theorem derives_arguments (hi : Expressions src n) (hn : ts.length ≤ n) {es : List Tree} {rest : NoLonger ts}
    (hr : arguments src ts = .ok (es, rest)) : Derives src .arguments ts es rest.1 := by
  unfold arguments at hr
  obtain ⟨⟨e, rest₁, h₁⟩, he, hr⟩ := bind_eq_ok.1 hr
  have he := derives_expression hi hn he
  have hskip := (skipNewlines rest₁).2
  dsimp only at hr
  split at hr
  next rest₂ _ heq _ =>
    rw [heq] at hskip
    have hlt : (skipNewlines rest₂).1.length < n := by
      have hskip' := (skipNewlines rest₂).2
      rw [List.length_cons] at hskip
      omega
    obtain ⟨⟨es', rest₃, h₃⟩, hes, hr⟩ := bind_eq_ok.1 hr
    cases hr
    exact .moreArguments he ⟨_, _, heq⟩ (hi.arguments _ hlt _ _ hes)
  next hne =>
    cases hr
    refine .lastArgument he fun h => ?_
    obtain ⟨start, stop, rest, heq⟩ := exists_of_peek h Token.noConfusion
    exact hne _ _ _ (heq ▸ hskip) heq (proof_irrel_heq _ _)

theorem expressions (src : Source) (n : Nat) : Expressions src n := by
  induction n with
  | zero => constructor <;> exact fun _ => (by intros; omega)
  | succ n ih =>
    exact {
      expression := fun _ _ hn _ _ => derives_expression ih (Nat.le_of_lt_succ hn)
      binary := fun _ _ _ hn _ _ => derives_binary ih (Nat.le_of_lt_succ hn)
      operand := fun _ hn _ _ => derives_operand ih (Nat.le_of_lt_succ hn)
      afterName := fun _ _ _ hn _ _ => derives_afterName ih (Nat.le_of_lt_succ hn)
      arguments := fun _ hn _ _ => derives_arguments ih (Nat.le_of_lt_succ hn) }

/-- What is read as an expression follows the productions. -/
theorem derives_of_expression {rest : Shorter ts} (hr : expression src limit ts = .ok (e, rest)) :
    Derives src (.expression limit) ts [e] rest.1 :=
  (expressions src _).expression limit ts (Nat.lt_succ_self _) e rest hr

/-- A phrase is read as the trees `es`, and `rest` is left. -/
def Phrase.Reads (src : Source) (ts : List Lexeme) (es : List Tree) (rest : List Lexeme) : Phrase → Prop
  | expression limit => ∃ e h, es = [e] ∧ Parse.expression src limit ts = .ok (e, ⟨rest, h⟩)
  | binary lhs limit => ∃ e h, es = [e] ∧ Parse.binary src lhs limit ts = .ok (e, ⟨rest, h⟩)
  | operand => ∃ e h, es = [e] ∧ Parse.operand src ts = .ok (e, ⟨rest, h⟩)
  | afterName name loc => ∃ e h, es = [e] ∧ Parse.afterName src name loc ts = .ok (e, ⟨rest, h⟩)
  | arguments => ∃ h, Parse.arguments src ts = .ok (es, ⟨rest, h⟩)

/-- What follows the productions is read. -/
theorem Derives.reads {phrase : Phrase} {es : List Tree} {rest : List Lexeme} (h : Derives src phrase ts es rest) :
    phrase.Reads src ts es rest := by
  induction h with
  | expression first more ih ih' =>
    obtain ⟨_, h₁, ⟨⟩, hfirst⟩ := ih
    obtain ⟨_, h₂, ⟨⟩, hmore⟩ := ih'
    refine ⟨_, Nat.lt_of_le_of_lt h₂ h₁, rfl, ?_⟩
    rw [Parse.expression, hfirst]
    change (Parse.binary src _ _ _ >>= _) = _
    rw [hmore]
    rfl
  | @stop lhs limit ts hstop =>
    refine ⟨_, Nat.le_refl _, rfl, ?_⟩
    unfold Parse.binary
    split
    next op start stop rest =>
      rw [if_neg (Nat.not_lt.2 (hstop op rfl))]
      rfl
    next => rfl
  | @extend lhs limit op start stop rest rhs rest₁ e rest₂ hop right more ih ih' =>
    obtain ⟨_, h₁, ⟨⟩, hright⟩ := ih
    obtain ⟨_, h₂, ⟨⟩, hmore⟩ := ih'
    have hskip := (skipNewlines rest).2
    refine ⟨_, Nat.le_succ_of_le (Nat.le_trans h₂ (Nat.le_trans (Nat.le_of_lt h₁) hskip)), rfl, ?_⟩
    rw [Parse.binary, if_pos hop]
    change (Parse.expression src op.precedence (skipNewlines rest).1 >>= _) = _
    rw [hright]
    change (Parse.binary src _ _ _ >>= _) = _
    rw [hmore]
    rfl
  | not inner ih | neg inner ih =>
    obtain ⟨_, h₁, ⟨⟩, hinner⟩ := ih
    refine ⟨_, Nat.lt_succ_of_lt h₁, rfl, ?_⟩
    rw [Parse.operand, hinner]
    rfl
  | num | trueLit | falseLit =>
    refine ⟨_, Nat.lt_succ_self _, rfl, ?_⟩
    rw [Parse.operand]
    rfl
  | name more ih =>
    obtain ⟨_, h₁, ⟨⟩, hmore⟩ := ih
    refine ⟨_, Nat.lt_succ_of_le h₁, rfl, ?_⟩
    rw [Parse.operand, hmore]
    rfl
  | @parens start stop rest e rest₁ rest₂ inner close ih =>
    obtain ⟨_, h₁, ⟨⟩, hinner⟩ := ih
    obtain ⟨h₂, hclose⟩ := expect_eq_ok.2 close
    have hskip := (skipNewlines rest).2
    have hskip' := (skipNewlines rest₁).2
    refine ⟨_, by rw [List.length_cons]; omega, rfl, ?_⟩
    rw [Parse.operand]
    change (Parse.expression src 0 (skipNewlines rest).1 >>= _) = _
    rw [hinner]
    change (expect src .rparen (skipNewlines rest₁).1 >>= _) = _
    rw [hclose]
    rfl
  | @plain name loc ts hne =>
    refine ⟨_, Nat.le_refl _, rfl, ?_⟩
    unfold Parse.afterName
    split
    next => exact absurd rfl hne
    next => rfl
  | @callNone name loc start stop rest rest' close =>
    obtain ⟨h₂, hclose⟩ := expect_eq_ok.2 close
    have hskip := (skipNewlines rest).2
    have hpeek : peek (skipNewlines rest).1 = .punct .rparen := by
      obtain ⟨start, stop, heq⟩ := close
      rw [heq]
      rfl
    refine ⟨_, by rw [List.length_cons]; omega, rfl, ?_⟩
    rw [Parse.afterName]
    dsimp only
    rw [if_pos hpeek]
    change (expect src .rparen (skipNewlines rest).1 >>= _) = _
    rw [hclose]
    rfl
  | @call name loc start stop rest args rest₁ rest₂ hne inner close ih =>
    obtain ⟨h₁, hinner⟩ := ih
    obtain ⟨h₂, hclose⟩ := expect_eq_ok.2 close
    have hskip := (skipNewlines rest).2
    refine ⟨_, by rw [List.length_cons]; omega, rfl, ?_⟩
    rw [Parse.afterName]
    dsimp only
    rw [if_neg hne, hinner]
    change (expect src .rparen rest₁ >>= _) = _
    rw [hclose]
    rfl
  | @lastArgument ts e rest inner hne ih =>
    obtain ⟨_, h₁, ⟨⟩, hinner⟩ := ih
    have hskip := (skipNewlines rest).2
    refine ⟨by omega, ?_⟩
    rw [Parse.arguments, hinner]
    dsimp only [bind, Except.bind]
    split
    next heq _ =>
      rw [heq] at hne
      exact absurd rfl hne
    next => rfl
  | @moreArguments ts e rest rest₁ es rest₂ inner comma more ih ih' =>
    obtain ⟨_, h₁, ⟨⟩, hinner⟩ := ih
    obtain ⟨h₂, hmore⟩ := ih'
    obtain ⟨start, stop, hcomma⟩ := comma
    have hskip := (skipNewlines rest).2
    have hskip' := (skipNewlines rest₁).2
    rw [hcomma, List.length_cons] at hskip
    refine ⟨by omega, ?_⟩
    rw [Parse.arguments, hinner]
    dsimp only [bind, Except.bind]
    split
    next rest₃ _ heq _ =>
      cases hcomma.symm.trans heq
      change (Parse.arguments src (skipNewlines rest₁).1 >>= _) = _
      rw [hmore]
      rfl
    next hne => exact (hne _ _ _ hskip hcomma (proof_irrel_heq _ _)).elim

/-- An expression is read exactly where the productions apply. -/
theorem expression_eq_ok {rest : List Lexeme} :
    (∃ h, expression src limit ts = .ok (e, ⟨rest, h⟩)) ↔ Derives src (.expression limit) ts [e] rest := by
  constructor
  · rintro ⟨h, hr⟩
    exact derives_of_expression hr
  · intro h
    obtain ⟨_, h', ⟨⟩, hr⟩ := h.reads
    exact ⟨h', hr⟩

/-! ### Extending again -/

/-- The next operator binds tighter than `limit`. -/
def Tighter (limit : Nat) (ts : List Lexeme) : Prop := ∃ op, peek ts = .op op ∧ limit < op.precedence

/-- What extending leaves does not begin with an operator that binds tighter than the limit. -/
theorem Derives.not_tighter {phrase : Phrase} {es : List Tree} {rest : List Lexeme} (h : Derives src phrase ts es rest)
    (hphrase : phrase = .binary lhs limit) : ¬ Tighter limit rest := by
  induction h generalizing lhs with
  | stop hstop =>
    cases hphrase
    rintro ⟨op, hop, hlt⟩
    exact Nat.not_lt.2 (hstop op hop) hlt
  | extend _ _ _ _ ih =>
    cases hphrase
    exact ih rfl
  | _ => cases hphrase

theorem binary_of_not_tighter (h : ¬ Tighter limit ts) : binary src lhs limit ts = .ok (lhs, .all ts) := by
  unfold binary
  split
  next op start stop rest => exact if_neg fun hlt => h ⟨op, rfl, hlt⟩
  next => rfl

/-- An operand is extended again and again, as long as the next operator binds tighter than `limit`. -/
inductive Reenters (src : Source) (limit : Nat) : Tree → List Lexeme → Except SyntaxError (Tree × List Lexeme) → Prop
  | done {e : Tree} {ts : List Lexeme} : ¬ Tighter limit ts → Reenters src limit e ts (.ok (e, ts))
  | failed {e : Tree} {ts : List Lexeme} {err : SyntaxError} : Tighter limit ts →
      binary src e limit ts = .error err → Reenters src limit e ts (.error err)
  | again {e e' : Tree} {ts : List Lexeme} {rest : NoLonger ts} {r : Except SyntaxError (Tree × List Lexeme)} :
      Tighter limit ts → binary src e limit ts = .ok (e', rest) → Reenters src limit e' rest.1 r →
        Reenters src limit e ts r

/-- Extending an operand once leaves nothing to extend it by, so extending it again and again comes to the same. -/
theorem reenters_iff {r : Except SyntaxError (Tree × List Lexeme)} :
    Reenters src limit e ts r ↔ r = (binary src e limit ts).map fun p => (p.1, p.2.1) := by
  have ends {e' : Tree} {rest : NoLonger ts} (hbin : binary src e limit ts = .ok (e', rest)) : ¬ Tighter limit rest.1 :=
    ((expressions src _).binary e limit ts (Nat.lt_succ_self _) _ _ hbin).not_tighter rfl
  constructor
  · intro h
    cases h with
    | done hstop =>
      rw [binary_of_not_tighter hstop]
      rfl
    | failed _ hbin =>
      rw [hbin]
      rfl
    | again _ hbin hrest =>
      rw [hbin]
      cases hrest with
      | done _ => rfl
      | failed htight _ => exact absurd htight (ends hbin)
      | again htight _ _ => exact absurd htight (ends hbin)
  · rintro rfl
    by_cases htight : Tighter limit ts
    · cases hbin : binary src e limit ts with
      | error err => exact .failed htight hbin
      | ok p => exact .again htight hbin (.done (ends hbin))
    · rw [binary_of_not_tighter htight]
      exact .done htight

/-! ### Statements -/

/-- What is read of a list of statements. -/
inductive Clause where
  | names
  | statements (inBlock : Bool)
  | block
  | conditional (loc : Location)
  | statement

/-- The lexemes `ts` begin with a clause that becomes the trees `ss`, and `rest` is left. -/
inductive Forms (src : Source) : Clause → List Lexeme → List Tree → List Lexeme → Prop
  | noNames (ts : List Lexeme) : Forms src .names ts [] ts
  | lastName (x : String) (start stop : Nat) (rest : List Lexeme) :
      Forms src .names (⟨.ident x, start, stop⟩ :: rest) [.leaf .name (src.locate start) x] rest
  | moreNames {x start stop rest rest₁ xs rest₂} (comma : Begins .comma rest rest₁)
      (more : Forms src .names rest₁ xs rest₂) :
      Forms src .names (⟨.ident x, start, stop⟩ :: rest) (.leaf .name (src.locate start) x :: xs) rest₂
  | noStatements {inBlock ts} (h : closes inBlock (peek (skip isSeparator ts).1) = true) :
      Forms src (.statements inBlock) ts [] (skip isSeparator ts).1
  | moreStatements {inBlock ts s rest ss rest'} (first : Forms src .statement (skip isSeparator ts).1 [s] rest)
      (more : Forms src (.statements inBlock) rest ss rest') : Forms src (.statements inBlock) ts (s :: ss) rest'
  | block {ts rest ss rest₁ rest₂} (opens : Begins .lbrace ts rest)
      (inner : Forms src (.statements true) rest ss rest₁) (close : Begins .rbrace rest₁ rest₂) :
      Forms src .block ts [.node .block (here src ts) ss] rest₂
  | ifThen {loc ts c rest b rest'} (condition : Derives src (.expression 0) ts [c] rest)
      (thenBlock : Forms src .block rest [b] rest') : Forms src (.conditional loc) ts [.node .ifStmt loc [c, b]] rest'
  | ifElse {loc ts c rest b start stop rest₁ b' rest₂} (condition : Derives src (.expression 0) ts [c] rest)
      (thenBlock : Forms src .block rest [b] (⟨.keyword .elseKw, start, stop⟩ :: rest₁))
      (elseBlock : Forms src .block rest₁ [b'] rest₂) :
      Forms src (.conditional loc) ts [.node .ifStmt loc [c, b, b']] rest₂
  | elseIf {loc ts c rest b start stop start' stop' rest₁ s rest₂} (condition : Derives src (.expression 0) ts [c] rest)
      (thenBlock : Forms src .block rest [b]
        (⟨.keyword .elseKw, start, stop⟩ :: ⟨.keyword .ifKw, start', stop'⟩ :: rest₁))
      (nested : Forms src (.conditional (src.locate start')) rest₁ [s] rest₂) :
      Forms src (.conditional loc) ts [.node .ifStmt loc [c, b, s]] rest₂
  | funDef {start stop f start' stop' rest rest₁ params rest₂ rest₃ body rest₄} (opens : Begins .lparen rest rest₁)
      (inner : Forms src .names rest₁ params rest₂) (close : Begins .rparen rest₂ rest₃)
      (block : Forms src .block rest₃ [body] rest₄) :
      Forms src .statement (⟨.keyword .defKw, start, stop⟩ :: ⟨.ident f, start', stop'⟩ :: rest)
        [.node .funDef (src.locate start) (.leaf .name (src.locate start') f :: params ++ [body])] rest₄
  | branch {start stop rest s rest'} (inner : Forms src (.conditional (src.locate start)) rest [s] rest') :
      Forms src .statement (⟨.keyword .ifKw, start, stop⟩ :: rest) [s] rest'
  | loop {start stop rest c rest₁ b rest₂} (condition : Derives src (.expression 0) rest [c] rest₁)
      (block : Forms src .block rest₁ [b] rest₂) :
      Forms src .statement (⟨.keyword .whileKw, start, stop⟩ :: rest)
        [.node .whileStmt (src.locate start) [c, b]] rest₂
  | retNone (start stop : Nat) (rest : List Lexeme) :
      Forms src .statement (⟨.keyword .returnKw, start, stop⟩ :: rest) [.node .returnStmt (src.locate start) []] rest
  | ret {start stop rest e rest'} (value : Derives src (.expression 0) rest [e] rest') :
      Forms src .statement (⟨.keyword .returnKw, start, stop⟩ :: rest)
        [.node .returnStmt (src.locate start) [e]] rest'
  | brk (start stop : Nat) (rest : List Lexeme) :
      Forms src .statement (⟨.keyword .breakKw, start, stop⟩ :: rest) [.node .breakStmt (src.locate start) []] rest
  | cont (start stop : Nat) (rest : List Lexeme) :
      Forms src .statement (⟨.keyword .continueKw, start, stop⟩ :: rest)
        [.node .continueStmt (src.locate start) []] rest
  | declare {x start stop start₁ stop₁ layer start₂ stop₂ rest t rest'} (text : String)
      (colon : Begins .colon rest (t :: rest')) (h : t.token ≠ .newline) :
      Forms src .statement
        (⟨.ident x, start, stop⟩ :: ⟨.punct .colon, start₁, stop₁⟩ :: ⟨.ident layer, start₂, stop₂⟩ :: rest)
        [.node .layer (src.locate start) [identNode x (src.locate start), .leaf .layerName (src.locate start₂) layer,
          .leaf .annotationText (src.locate t.start) text]] (nextLine rest')
  | assign {x start stop start' stop' rest e rest'} (value : Derives src (.expression 0) rest [e] rest') :
      Forms src .statement (⟨.ident x, start, stop⟩ :: ⟨.punct .assign, start', stop'⟩ :: rest)
        [.node .assign (src.locate start) [identNode x (src.locate start), e]] rest'
  | exprStmt {ts e rest} (value : Derives src (.expression 0) ts [e] rest) :
      Forms src .statement ts [.node .exprStmt (here src ts) [e]] rest

theorem forms_names (hn : ts.length ≤ n) {xs : List Tree} {rest : NoLonger ts}
    (hr : nameList src ts = .ok (xs, rest)) : Forms src .names ts xs rest.1 := by
  induction n generalizing ts xs with
  | zero =>
    obtain ⟨⟨_, _, h₁⟩, _⟩ := bind_eq_ok.1 (by rwa [nameList] at hr)
    omega
  | succ n ih =>
    rw [nameList] at hr
    obtain ⟨⟨x, rest₁, h₁⟩, hx, hr⟩ := bind_eq_ok.1 hr
    unfold nameLeaf at hx
    split at hx
    next =>
      cases hx
      dsimp only at hr
      split at hr
      next rest₂ h₂ =>
        obtain ⟨⟨xs', rest₃, h₃⟩, hxs, hr⟩ := bind_eq_ok.1 hr
        cases hr
        simp only [List.length_cons] at h₂ hn
        exact .moreNames ⟨_, _, rfl⟩ (ih (by omega) hxs)
      next =>
        cases hr
        exact .lastName _ _ _ _
    next => cases hx

/-- The readers of statements follow the productions on less than some number of lexemes. -/
structure Statements (src : Source) (n : Nat) : Prop where
  statements : ∀ inBlock ts, ts.length < n → ∀ ss rest, statements src inBlock ts = .ok (ss, rest) →
    Forms src (.statements inBlock) ts ss rest.1
  block : ∀ ts, ts.length < n → ∀ b rest, block src ts = .ok (b, rest) → Forms src .block ts [b] rest.1
  conditional : ∀ loc ts, ts.length < n → ∀ s rest, conditional src loc ts = .ok (s, rest) →
    Forms src (.conditional loc) ts [s] rest.1

theorem forms_block (hi : Statements src n) (hn : ts.length ≤ n) {rest : Shorter ts}
    (hr : block src ts = .ok (e, rest)) : Forms src .block ts [e] rest.1 := by
  unfold block at hr
  obtain ⟨⟨rest₁, h₁⟩, hopen, hr⟩ := bind_eq_ok.1 hr
  obtain ⟨⟨ss, rest₂, h₂⟩, hss, hr⟩ := bind_eq_ok.1 hr
  obtain ⟨⟨rest₃, h₃⟩, hclose, hr⟩ := bind_eq_ok.1 hr
  cases hr
  exact .block (expect_eq_ok.1 ⟨h₁, hopen⟩) (hi.statements _ _ (Nat.lt_of_lt_of_le h₁ hn) _ _ hss)
    (expect_eq_ok.1 ⟨h₃, hclose⟩)

theorem forms_conditional (hi : Statements src n) (hn : ts.length ≤ n) {rest : Shorter ts}
    (hr : conditional src loc ts = .ok (e, rest)) : Forms src (.conditional loc) ts [e] rest.1 := by
  unfold conditional at hr
  obtain ⟨⟨c, rest₁, h₁⟩, hc, hr⟩ := bind_eq_ok.1 hr
  obtain ⟨⟨b, rest₂, h₂⟩, hb, hr⟩ := bind_eq_ok.1 hr
  have hcond := derives_of_expression hc
  have hthen := hi.block _ (Nat.lt_of_lt_of_le h₁ hn) _ _ hb
  dsimp only at hr
  split at hr
  next rest₃ h₃ =>
    obtain ⟨⟨b', rest₄, h₄⟩, hb', hr⟩ := bind_eq_ok.1 hr
    cases hr
    simp only [List.length_cons] at h₃
    exact .elseIf hcond hthen (hi.conditional _ _ (by omega) _ _ hb')
  next rest₃ h₃ _ =>
    obtain ⟨⟨b', rest₄, h₄⟩, hb', hr⟩ := bind_eq_ok.1 hr
    cases hr
    rw [List.length_cons] at h₃
    exact .ifElse hcond hthen (hi.block _ (by omega) _ _ hb')
  next =>
    cases hr
    exact .ifThen hcond hthen

theorem forms_declaration {start start₁ stop stop₁ : Nat} {rest : Shorter ts}
    (hr : declaration src name (src.locate start) ts = .ok (e, rest)) :
    Forms src .statement (⟨.ident name, start, stop⟩ :: ⟨.punct .colon, start₁, stop₁⟩ :: ts) [e] rest.1 := by
  unfold declaration at hr
  split at hr
  next =>
    obtain ⟨⟨rest₁, h₁⟩, hcolon, hr⟩ := bind_eq_ok.1 hr
    have hbegins := expect_eq_ok.1 ⟨h₁, hcolon⟩
    dsimp only at hr
    split at hr
    next => cases hr
    next hnext =>
      obtain ⟨hline, hend⟩ := not_or.1 hnext
      obtain _ | ⟨t, rest₂⟩ := rest₁
      · exact absurd rfl hend
      · cases hr
        have hdrop : nextLine (t :: rest₂) = nextLine rest₂ :=
          List.dropWhile_cons_of_pos (by simpa [peek] using hline)
        change Forms src _ _ _ (nextLine (t :: rest₂))
        rw [hdrop]
        exact .declare _ hbegins hline
  next => cases hr

theorem forms_statement (hi : Statements src n) (hn : ts.length ≤ n) {rest : Shorter ts}
    (hr : statement src ts = .ok (e, rest)) : Forms src .statement ts [e] rest.1 := by
  unfold statement at hr
  split at hr
  next start stop rest₀ =>
    rw [List.length_cons] at hn
    obtain ⟨⟨f, rest₁, h₁⟩, hf, hr⟩ := bind_eq_ok.1 hr
    obtain ⟨⟨rest₂, h₂⟩, hopen, hr⟩ := bind_eq_ok.1 hr
    unfold nameLeaf at hf
    split at hf
    next =>
      cases hf
      have hopen := expect_eq_ok.1 ⟨h₂, hopen⟩
      dsimp only at hr
      split at hr
      next =>
        obtain ⟨⟨params, rest₃⟩, hparams, hr⟩ := bind_eq_ok.1 hr
        cases hparams
        obtain ⟨⟨rest₄, h₄⟩, hclose, hr⟩ := bind_eq_ok.1 hr
        obtain ⟨⟨body, rest₅, h₅⟩, hbody, hr⟩ := bind_eq_ok.1 hr
        cases hr
        have hlt : rest₄.length < n := Nat.lt_trans h₄ (Nat.lt_trans h₂ (Nat.lt_trans h₁ hn))
        exact .funDef hopen (.noNames _) (expect_eq_ok.1 ⟨h₄, hclose⟩) (hi.block _ hlt _ _ hbody)
      next =>
        obtain ⟨⟨params, rest₃, h₃⟩, hparams, hr⟩ := bind_eq_ok.1 hr
        obtain ⟨⟨rest₄, h₄⟩, hclose, hr⟩ := bind_eq_ok.1 hr
        obtain ⟨⟨body, rest₅, h₅⟩, hbody, hr⟩ := bind_eq_ok.1 hr
        cases hr
        have hlt : rest₄.length < n :=
          Nat.lt_trans (Nat.lt_of_lt_of_le h₄ h₃) (Nat.lt_trans h₂ (Nat.lt_trans h₁ hn))
        exact .funDef hopen (forms_names (Nat.le_refl _) hparams) (expect_eq_ok.1 ⟨h₄, hclose⟩)
          (hi.block _ hlt _ _ hbody)
    next => cases hf
  next =>
    obtain ⟨⟨s, rest₁, h₁⟩, hs, hr⟩ := bind_eq_ok.1 hr
    cases hr
    exact .branch (hi.conditional _ _ hn _ _ hs)
  next =>
    obtain ⟨⟨c, rest₁, h₁⟩, hc, hr⟩ := bind_eq_ok.1 hr
    obtain ⟨⟨b, rest₂, h₂⟩, hb, hr⟩ := bind_eq_ok.1 hr
    cases hr
    exact .loop (derives_of_expression hc) (hi.block _ (Nat.lt_trans h₁ hn) _ _ hb)
  next =>
    dsimp only at hr
    split at hr
    next =>
      cases hr
      exact .retNone _ _ _
    next =>
      obtain ⟨⟨e, rest₁, h₁⟩, he, hr⟩ := bind_eq_ok.1 hr
      cases hr
      exact .ret (derives_of_expression he)
  next =>
    cases hr
    exact .brk _ _ _
  next =>
    cases hr
    exact .cont _ _ _
  next =>
    obtain ⟨⟨s, rest₁, h₁⟩, hs, hr⟩ := bind_eq_ok.1 hr
    cases hr
    exact forms_declaration hs
  next =>
    obtain ⟨⟨e, rest₁, h₁⟩, he, hr⟩ := bind_eq_ok.1 hr
    cases hr
    exact .assign (derives_of_expression he)
  next =>
    obtain ⟨⟨e, rest₁, h₁⟩, he, hr⟩ := bind_eq_ok.1 hr
    cases hr
    exact .exprStmt (derives_of_expression he)

theorem forms_statements (hi : Statements src n) {inBlock : Bool} (hn : ts.length ≤ n) {ss : List Tree}
    {rest : NoLonger ts} (hr : statements src inBlock ts = .ok (ss, rest)) :
    Forms src (.statements inBlock) ts ss rest.1 := by
  unfold statements at hr
  have hskip := (skip isSeparator ts).2
  dsimp only at hr
  split at hr
  next hclose =>
    cases hr
    exact .noStatements hclose
  next =>
    split at hr
    next => cases hr
    next =>
      obtain ⟨⟨s, rest₂, h₂⟩, hs, hr⟩ := bind_eq_ok.1 hr
      dsimp only at hr
      split at hr
      next =>
        obtain ⟨⟨ss', rest₃, h₃⟩, hss, hr⟩ := bind_eq_ok.1 hr
        cases hr
        have hlt := Nat.lt_of_lt_of_le h₂ (Nat.le_trans hskip hn)
        exact .moreStatements (forms_statement hi (Nat.le_trans hskip hn) hs) (hi.statements _ _ hlt _ _ hss)
      next => cases hr

theorem statements_readers (src : Source) (n : Nat) : Statements src n := by
  induction n with
  | zero => constructor <;> exact fun _ => (by intros; omega)
  | succ n ih =>
    exact {
      statements := fun _ _ hn _ _ => forms_statements ih (Nat.le_of_lt_succ hn)
      block := fun _ hn _ _ => forms_block ih (Nat.le_of_lt_succ hn)
      conditional := fun _ _ hn _ _ => forms_conditional ih (Nat.le_of_lt_succ hn) }

/-- A program is a list of statements. -/
theorem exists_forms_of_program {t : Tree} (hr : program src = .ok t) :
    ∃ ss rest, t = .node .program ⟨1, 1⟩ ss ∧ Forms src (.statements false) src.lexemes ss rest := by
  obtain ⟨⟨ss, rest⟩, hss, hr⟩ := bind_eq_ok.1 hr
  cases hr
  exact ⟨ss, rest.1, rfl, (statements_readers src _).statements false _ (Nat.lt_succ_self _) _ _ hss⟩

end LayerCheck.Parse
