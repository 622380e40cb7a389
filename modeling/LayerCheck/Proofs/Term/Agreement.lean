import Mathlib
import LayerCheck.Program.Basic
import LayerCheck.Proofs.Syntax.Shape

/-! Two readers of expressions. A predicate is read from its tokens as a term, and the right-hand side of an
assignment is read from its lexemes as a tree. The one reader is given the least precedence that it may take, the
other the precedence that it must go beyond; they take the same operators and build the same operations. -/
namespace LayerCheck

/-- The term that an expression without calls stands for. -/
def Expr.term? : Expr → Option Term
  | num _ value => some (.int value)
  | bool _ value => some (.bool value)
  | ident _ name => some (.var name)
  | binary _ op lhs rhs => lhs.term?.bind fun l => rhs.term?.map (.binary op l)
  | unary _ op operand => operand.term?.map (.unary op)
  | call .. | malformed .. => none

namespace Tree

def term? : Tree → Option Term
  | node kind loc children => (Expr.ofNode kind loc children).term?
  | leaf .. => none

attribute [grind =] Expr.ofNode Expr.term? term?

/-- A tree stands for a term once the signs in front of literals are folded into them. -/
def Denotes (e : Tree) (t : Term) : Prop := e.term?.map Term.folded = some t

def isCall : Tree → Bool
  | node .funCall _ _ => true
  | _ => false

/-- A program that is one assignment. -/
def IsAssignment (t : Tree) (x : String) (value : Tree) : Prop :=
  ∃ loc loc₁ loc₂, t = node .program loc [.node .assign loc₁ [Parse.identNode x loc₂, value]]

variable {e lhs rhs : Tree} {t : Term} {loc loc' : Location}

theorem term?_num {digits : String} :
    (node .num loc [.leaf .int loc' digits]).term? = (Decimal.int64? digits).map .int := by
  rw [term?, Expr.ofNode]
  cases Decimal.int64? digits <;> rfl

theorem term?_binary {op : BinaryOp} :
    (node .binOp loc [lhs, .leaf .operator loc' op.symbol, rhs]).term? =
      lhs.term?.bind fun l => rhs.term?.map (.binary op l) := by
  cases lhs <;> cases rhs <;> simp [term?, Expr.ofNode, Expr.term?]

theorem term?_unary (op : UnaryOp) :
    (node .unaryOp loc [.leaf .operator loc' op.symbol, e]).term? = e.term?.map (.unary op) := by
  cases e <;> simp [term?, Expr.ofNode, Expr.term?]

theorem term?_call {name : String} {args : List Tree} :
    (node .funCall loc (.leaf .name loc' name :: args)).term? = none := by
  simp [term?, Expr.ofNode, Expr.term?]

theorem term?_ident {name : String} : (Parse.identNode name loc).term? = some (.var name) := by
  simp [Parse.identNode, term?, Expr.ofNode, Expr.term?]

theorem term?_true : (node .trueLit loc []).term? = some (.bool true) := by
  simp [term?, Expr.ofNode, Expr.term?]

theorem term?_false : (node .falseLit loc []).term? = some (.bool false) := by
  simp [term?, Expr.ofNode, Expr.term?]

/-- An expression stands for a term exactly if it has no call and all its literals have values. -/
theorem IsExpr.isSome_term? (h : e.IsExpr) : e.term?.isSome = e.nodes.all fun n => !n.isCall && n.hasValue := by
  induction h with
  | num => simp [term?_num, nodes, nodesAll, isCall, hasValue]
  | trueLit => simp [term?_true, nodes, nodesAll, isCall, hasValue]
  | falseLit => simp [term?_false, nodes, nodesAll, isCall, hasValue]
  | ident =>
    rw [term?_ident]
    simp [Parse.identNode, nodes, nodesAll, isCall, hasValue]
  | call => simp [term?_call, nodes, isCall]
  | binary hl hr ihl ihr =>
    have hboth : ∀ (l r : Option Term) (f : Term → Term → Term),
        (l.bind fun a => r.map (f a)).isSome = (l.isSome && r.isSome) := by
      intro l r f
      cases l <;> cases r <;> rfl
    simp [term?_binary, hboth, ihl, ihr, nodes, nodesAll, isCall, hasValue, List.all_append]
  | unary op ho ih => simp [term?_unary, nodes, nodesAll, isCall, hasValue, ih]

theorem denotes_num {digits : String} :
    (node .num loc [.leaf .int loc' digits]).Denotes t ↔
      ∃ value, Decimal.int64? digits = some value ∧ t = .int value := by
  simp [Denotes, term?_num, Term.folded, eq_comm]

theorem denotes_binary {op : BinaryOp} :
    (node .binOp loc [lhs, .leaf .operator loc' op.symbol, rhs]).Denotes t ↔
      ∃ l r, lhs.Denotes l ∧ rhs.Denotes r ∧ t = .binary op l r := by
  simp only [Denotes, term?_binary]
  cases lhs.term? <;> cases rhs.term? <;> simp [Term.folded, eq_comm]

theorem denotes_not :
    (node .unaryOp loc [.leaf .operator loc' "!", e]).Denotes t ↔ ∃ a, e.Denotes a ∧ t = .not a := by
  have hterm : (node .unaryOp loc [.leaf .operator loc' "!", e]).term? = e.term?.map (.unary .not) := term?_unary .not
  simp only [Denotes, hterm]
  cases e.term? <;> simp [Term.folded, Term.not, eq_comm]

theorem denotes_neg :
    (node .unaryOp loc [.leaf .operator loc' "-", e]).Denotes t ↔ ∃ a, e.Denotes a ∧ t = Reader.negated a := by
  have hterm : (node .unaryOp loc [.leaf .operator loc' "-", e]).term? = e.term?.map (.unary .neg) := term?_unary .neg
  simp only [Denotes, hterm]
  cases e.term? <;> simp [Reader.folded_neg, eq_comm]

theorem denotes_ident {name : String} : (Parse.identNode name loc).Denotes t ↔ t = .var name := by
  simp [Denotes, term?_ident, Term.folded, eq_comm]

theorem denotes_true : (node .trueLit loc []).Denotes t ↔ t = .bool true := by
  simp [Denotes, term?_true, Term.folded, eq_comm]

theorem denotes_false : (node .falseLit loc []).Denotes t ↔ t = .bool false := by
  simp [Denotes, term?_false, Term.folded, eq_comm]

theorem not_denotes_call {name : String} {args : List Tree} :
    ¬ (node .funCall loc (.leaf .name loc' name :: args)).Denotes t := by
  simp [Denotes, term?_call]

end Tree

/-! ### From trees to terms -/

/-- The least precedence that one reader may take stands for what the other must go beyond. -/
def Level (least limit : Nat) : Prop := ∀ op : BinaryOp, least ≤ op.precedence ↔ limit < op.precedence

theorem level_zero : Level 0 0 := fun op => by simp [op.precedence_pos]

theorem level_succ (p : Nat) : Level (p + 1) p := fun _ => Iff.rfl

namespace Parse

variable {src : Source} {ts rest : List Lexeme}

/-- No lexeme ends a line or a statement, and none is known to one of the readers only. -/
def Plain (ts : List Lexeme) : Prop :=
  ∀ l ∈ ts, l.token ≠ .eof ∧ l.token ≠ .newline ∧ l.token ≠ .punct .semi ∧ l.token ≠ .unknown '$'

theorem Plain.sublist (h : Plain ts) (hs : rest.Sublist ts) : Plain rest := fun l hl => h l (hs.subset hl)

theorem Plain.tail {l : Lexeme} (h : Plain (l :: ts)) : Plain ts := h.sublist (List.sublist_cons_self l ts)

theorem Plain.skip_eq {p : Token → Bool} (h : Plain ts) (hp : ∀ t, p t = true → t = .newline ∨ t = .punct .semi) :
    (skip p ts).1 = ts := by
  cases ts with
  | nil => rfl
  | cons l ts =>
    obtain ⟨-, hnewline, hsemi, -⟩ := h l List.mem_cons_self
    have hl : ¬ p l.token = true := fun htrue => (hp _ htrue).elim hnewline hsemi
    change (l :: ts).dropWhile (p ·.token) = l :: ts
    exact List.dropWhile_cons_of_neg hl

theorem Plain.skipNewlines (h : Plain ts) : (skipNewlines ts).1 = ts := h.skip_eq fun t ht => .inl (by simpa using ht)

theorem Plain.eq_nil_of_peek (h : Plain ts) (hend : peek ts = .eof) : ts = [] := by
  cases ts with
  | nil => rfl
  | cons l ts => exact absurd hend (h l List.mem_cons_self).1

/-- The reader of terms makes of a phrase the term that its tree stands for. -/
def Phrase.Denoted (ts : List Lexeme) (es : List Tree) (rest : List Lexeme) : Phrase → Prop
  | expression limit => ∀ e t, es = [e] → e.Denotes t → ∀ least, Level least limit →
      Reader.Reads (Reader.term least (ts.map (·.token))) t (rest.map (·.token))
  | binary lhs limit => ∀ e t, es = [e] → e.Denotes t → ∃ l, lhs.Denotes l ∧ ∀ least, Level least limit →
      Reader.Reads (Reader.extend l least (ts.map (·.token))) t (rest.map (·.token))
  | operand => ∀ e t, es = [e] → e.Denotes t →
      Reader.Reads (Reader.operand (ts.map (·.token))) t (rest.map (·.token))
  | afterName name _ => ∀ e t, es = [e] → e.Denotes t → t = .var name ∧ rest = ts
  | arguments => True

theorem Derives.denoted {phrase : Phrase} {es : List Tree} (h : Derives src phrase ts es rest) (hp : Plain ts) :
    phrase.Denoted ts es rest := by
  induction h with
  | expression first more ih ih' =>
    rintro e t ⟨⟩ ht least hlevel
    obtain ⟨l, hl, hextend⟩ := ih' (hp.sublist first.sublist) _ t rfl ht
    exact Reader.reads_term (ih hp _ l rfl hl) (hextend least hlevel)
  | @stop lhs limit ts hstop =>
    rintro e t ⟨⟩ ht
    refine ⟨t, ht, fun least hlevel => Reader.reads_extend_self fun op rest' heq => ?_⟩
    obtain ⟨l, ls, rfl, hop, -⟩ := List.map_eq_cons_iff.1 heq
    have hle := hstop op hop
    have := hlevel op
    omega
  | @extend lhs limit op start stop rest rhs rest₁ e rest₂ hop right more ih ih' =>
    rintro e t ⟨⟩ ht
    rw [hp.tail.skipNewlines] at right ih
    -- The right operand is read beyond the precedence of the operator, that is, from the next one on.
    obtain ⟨b, hb, hextend⟩ := ih' (hp.tail.sublist right.sublist) _ t rfl ht
    obtain ⟨l, r, hl, hr, rfl⟩ := Tree.denotes_binary.1 hb
    refine ⟨l, hl, fun least hlevel => ?_⟩
    exact Reader.reads_extend_binary ((hlevel op).2 hop) (ih hp.tail _ r rfl hr _ (level_succ _)) (hextend least hlevel)
  | not inner ih =>
    rintro e t ⟨⟩ ht
    obtain ⟨a, ha, rfl⟩ := Tree.denotes_not.1 ht
    exact Reader.reads_not (ih hp.tail _ a rfl ha)
  | neg inner ih =>
    rintro e t ⟨⟩ ht
    obtain ⟨a, ha, rfl⟩ := Tree.denotes_neg.1 ht
    exact Reader.reads_neg (ih hp.tail _ a rfl ha)
  | num digits start stop rest =>
    rintro e t ⟨⟩ ht
    obtain ⟨value, hvalue, rfl⟩ := Tree.denotes_num.1 ht
    exact Reader.reads_digits hvalue _
  | trueLit start stop rest =>
    rintro e t ⟨⟩ ht
    obtain rfl := Tree.denotes_true.1 ht
    exact Reader.reads_true _
  | falseLit start stop rest =>
    rintro e t ⟨⟩ ht
    obtain rfl := Tree.denotes_false.1 ht
    exact Reader.reads_false _
  | name more ih =>
    rintro e t ⟨⟩ ht
    obtain ⟨rfl, rfl⟩ := ih hp.tail _ t rfl ht
    exact Reader.reads_ident _ _
  | @parens start stop rest e rest₁ rest₂ inner close ih =>
    rintro e t ⟨⟩ ht
    rw [hp.tail.skipNewlines] at inner ih
    rw [(hp.tail.sublist inner.sublist).skipNewlines] at close
    obtain ⟨start', stop', rfl⟩ := close
    exact Reader.reads_parenthesized (ih hp.tail _ t rfl ht 0 level_zero)
  | plain hne =>
    rintro e t ⟨⟩ ht
    exact ⟨Tree.denotes_ident.1 ht, rfl⟩
  | callNone | call =>
    rintro e t ⟨⟩ ht
    exact absurd ht Tree.not_denotes_call
  | lastArgument | moreArguments => trivial

/-! ### From terms to trees -/

/-- What was read as a term is a phrase whose tree stands for that term. -/
def Derived (src : Source) (phrase : Phrase) (ts : List Lexeme) (t : Term) (left : List Token) : Prop :=
  ∃ e rest, left = rest.map (·.token) ∧ Derives src phrase ts [e] rest ∧ e.Denotes t

/-- The reader of terms follows the productions on less than some number of tokens, where no parenthesis comes next
that would make a call of a name. -/
structure Terms (src : Source) (n : Nat) : Prop where
  term : ∀ least limit ts us, us.length < n → us = ts.map (·.token) → Level least limit → Plain ts → ∀ t rest,
    Reader.term least us = .ok (t, rest) → Reader.next rest.1 ≠ .punct .lparen →
    Derived src (.expression limit) ts t rest.1
  extend : ∀ lhs l least limit ts us, us.length < n → us = ts.map (·.token) → Level least limit → Plain ts →
    lhs.Denotes l → ∀ t rest, Reader.extend l least us = .ok (t, rest) → Reader.next rest.1 ≠ .punct .lparen →
    Derived src (.binary lhs limit) ts t rest.1
  operand : ∀ ts us, us.length < n → us = ts.map (·.token) → Plain ts → ∀ t rest,
    Reader.operand us = .ok (t, rest) → Reader.next rest.1 ≠ .punct .lparen → Derived src .operand ts t rest.1

variable {n least limit : Nat} {us : List Token} {t l : Term} {lhs : Tree}

theorem exists_lexeme_of_map {u : Token} (h : u :: us = ts.map (·.token)) :
    ∃ start stop ts', ts = ⟨u, start, stop⟩ :: ts' ∧ us = ts'.map (·.token) := by
  obtain ⟨⟨token, start, stop⟩, ts', hts, rfl, hus⟩ := List.map_eq_cons_iff.1 h.symm
  exact ⟨start, stop, ts', hts, hus.symm⟩

/-- A parenthesis stops the extension of a term at once, so that it would be left. -/
theorem next_ne_of_extend {rest : NoLonger us} (hr : Reader.extend l least us = .ok (t, rest))
    (hne : Reader.next rest.1 ≠ .punct .lparen) : Reader.next us ≠ .punct .lparen := by
  unfold Reader.extend at hr
  split at hr
  next => exact Token.noConfusion
  next =>
    cases hr
    exact hne

theorem eq_cons_of_expect {u : Token} {rest : List Token} {h : rest.length < us.length}
    (hr : Reader.expect u us = .ok ⟨rest, h⟩) : us = u :: rest := by
  unfold Reader.expect at hr
  split at hr
  next =>
    split at hr
    next heq =>
      cases hr
      rw [heq]
    next => cases hr
  next => cases hr

theorem derived_operand (hi : Terms src n) (hn : us.length ≤ n) (hus : us = ts.map (·.token)) (hp : Plain ts)
    {rest : Shorter us} (hr : Reader.operand us = .ok (t, rest)) (hne : Reader.next rest.1 ≠ .punct .lparen) :
    Derived src .operand ts t rest.1 := by
  unfold Reader.operand at hr
  split at hr
  next =>
    obtain ⟨start, stop, ts, rfl, rfl⟩ := exists_lexeme_of_map hus
    obtain ⟨⟨a, rest₁, h₁⟩, ha, hr⟩ := bind_eq_ok.1 hr
    cases hr
    obtain ⟨e, rest', hrest, hd, he⟩ := hi.operand _ _ hn rfl hp.tail _ _ ha hne
    exact ⟨_, rest', hrest, .not hd, Tree.denotes_not.2 ⟨a, he, rfl⟩⟩
  next =>
    obtain ⟨start, stop, ts, rfl, rfl⟩ := exists_lexeme_of_map hus
    obtain ⟨⟨a, rest₁, h₁⟩, ha, hr⟩ := bind_eq_ok.1 hr
    cases hr
    obtain ⟨e, rest', hrest, hd, he⟩ := hi.operand _ _ hn rfl hp.tail _ _ ha hne
    exact ⟨_, rest', hrest, .neg hd, Tree.denotes_neg.2 ⟨a, he, rfl⟩⟩
  next digits rest₁ =>
    obtain ⟨start, stop, ts, rfl, rfl⟩ := exists_lexeme_of_map hus
    split at hr
    next value hvalue =>
      cases hr
      exact ⟨_, ts, rfl, .num digits start stop ts, Tree.denotes_num.2 ⟨value, hvalue, rfl⟩⟩
    next => cases hr
  next =>
    obtain ⟨start, stop, ts, rfl, rfl⟩ := exists_lexeme_of_map hus
    cases hr
    exact ⟨_, ts, rfl, .trueLit start stop ts, Tree.denotes_true.2 rfl⟩
  next =>
    obtain ⟨start, stop, ts, rfl, rfl⟩ := exists_lexeme_of_map hus
    cases hr
    exact ⟨_, ts, rfl, .falseLit start stop ts, Tree.denotes_false.2 rfl⟩
  next =>
    obtain ⟨start, stop, ts, rfl, rfl⟩ := exists_lexeme_of_map hus
    obtain ⟨⟨a, rest₁, h₁⟩, ha, hr⟩ := bind_eq_ok.1 hr
    obtain ⟨⟨rest₂, h₂⟩, hclose, hr⟩ := bind_eq_ok.1 hr
    cases hr
    obtain rfl := eq_cons_of_expect hclose
    have hclosed : Reader.next (.punct .rparen :: rest₂) ≠ .punct .lparen := by simp [Reader.next]
    obtain ⟨e, rest', hrest, hd, he⟩ := hi.term 0 0 _ _ hn rfl level_zero hp.tail _ _ ha hclosed
    obtain ⟨start', stop', rest', rfl, rfl⟩ := exists_lexeme_of_map hrest
    have hskip := (hp.tail.sublist hd.sublist).skipNewlines
    rw [← hp.tail.skipNewlines] at hd
    exact ⟨e, rest', rfl, .parens hd ⟨start', stop', hskip⟩, he⟩
  next name rest₁ =>
    obtain ⟨start, stop, ts, rfl, rfl⟩ := exists_lexeme_of_map hus
    cases hr
    -- A parenthesis after the name would make a call of it.
    refine ⟨_, ts, rfl, .name (.plain fun hpeek => hne ?_), Tree.denotes_ident.2 rfl⟩
    rw [← hpeek]
    cases ts <;> rfl
  next =>
    obtain ⟨start, stop, ts, rfl, rfl⟩ := exists_lexeme_of_map hus
    exact absurd rfl (hp _ List.mem_cons_self).2.2.2
  next => cases hr

theorem derived_extend (hi : Terms src n) (hn : us.length ≤ n) (hus : us = ts.map (·.token)) (hl : Level least limit)
    (hp : Plain ts) (hlhs : lhs.Denotes l) {rest : NoLonger us} (hr : Reader.extend l least us = .ok (t, rest))
    (hne : Reader.next rest.1 ≠ .punct .lparen) : Derived src (.binary lhs limit) ts t rest.1 := by
  unfold Reader.extend at hr
  split at hr
  next op rest₀ =>
    obtain ⟨start, stop, ts, rfl, rfl⟩ := exists_lexeme_of_map hus
    split at hr
    next hlt =>
      cases hr
      refine ⟨lhs, _, rfl, .stop fun op' hop => ?_, hlhs⟩
      cases hop
      exact Nat.not_lt.1 fun h => Nat.not_le.2 hlt ((hl op).2 h)
    next hle =>
      obtain ⟨⟨r, rest₁, h₁⟩, hright, hr⟩ := bind_eq_ok.1 hr
      obtain ⟨⟨t', rest₂, h₂⟩, hmore, hr⟩ := bind_eq_ok.1 hr
      cases hr
      obtain ⟨rhs, rest₁, rfl, hdr, hrhs⟩ :=
        hi.term _ _ _ _ hn rfl (level_succ _) hp.tail _ _ hright (next_ne_of_extend hmore hne)
      have hplain := hp.tail.sublist hdr.sublist
      have hnode : (Tree.node .binOp lhs.loc [lhs, .leaf .operator (src.locate start) op.symbol, rhs]).Denotes
          (.binary op l r) := Tree.denotes_binary.2 ⟨l, r, hlhs, hrhs, rfl⟩
      obtain ⟨e, rest₂, rfl, hdm, he⟩ :=
        hi.extend _ _ _ _ _ _ (Nat.lt_trans h₁ hn) rfl hl hplain hnode _ _ hmore hne
      refine ⟨e, rest₂, rfl, .extend ((hl op).1 (Nat.not_lt.1 hle)) ?_ hdm, he⟩
      rw [hp.tail.skipNewlines]
      exact hdr
  next hop =>
    cases hr
    refine ⟨lhs, ts, hus, .stop fun op hpeek => ?_, hlhs⟩
    obtain ⟨start, stop, rest, rfl⟩ := exists_of_peek hpeek Token.noConfusion
    exact absurd hus (hop _ _)

theorem derived_term (hi : Terms src n) (hn : us.length ≤ n) (hus : us = ts.map (·.token)) (hl : Level least limit)
    (hp : Plain ts) {rest : Shorter us} (hr : Reader.term least us = .ok (t, rest))
    (hne : Reader.next rest.1 ≠ .punct .lparen) : Derived src (.expression limit) ts t rest.1 := by
  unfold Reader.term at hr
  obtain ⟨⟨l, rest₁, h₁⟩, hfirst, hr⟩ := bind_eq_ok.1 hr
  obtain ⟨⟨t', rest₂, h₂⟩, hmore, hr⟩ := bind_eq_ok.1 hr
  cases hr
  obtain ⟨lhs, rest₁, rfl, hdf, hlhs⟩ := derived_operand hi hn hus hp hfirst (next_ne_of_extend hmore hne)
  obtain ⟨e, rest₂, rfl, hdm, he⟩ := hi.extend _ _ _ _ _ _ (Nat.lt_of_lt_of_le h₁ hn) rfl hl
    (hp.sublist hdf.sublist) hlhs _ _ hmore hne
  exact ⟨e, rest₂, rfl, .expression hdf hdm, he⟩

theorem terms (src : Source) (n : Nat) : Terms src n := by
  induction n with
  | zero => constructor <;> (intros; omega)
  | succ n ih =>
    exact {
      term := fun _ _ _ _ hn hus hl hp _ _ => derived_term ih (Nat.le_of_lt_succ hn) hus hl hp
      extend := fun _ _ _ _ _ _ hn hus hl hp hlhs _ _ => derived_extend ih (Nat.le_of_lt_succ hn) hus hl hp hlhs
      operand := fun _ _ hn hus hp _ _ => derived_operand ih (Nat.le_of_lt_succ hn) hus hp }

/-! ### Whole texts -/

variable {text : String} {value : Tree}

theorem plain_scanFrom (hline : '\n' ∉ text.toList) (hsemi : ';' ∉ text.toList) (hdollar : '$' ∉ text.toList)
    (pos : Nat) : Plain (scanFrom pos text.toList) := by
  intro l hl
  obtain ⟨before, after, hcs, -⟩ := exists_split_of_mem_scanFrom hl
  have hsub : ∀ c ∈ l.token.spelling.toList, c ∈ text.toList := fun c hc => by simp [hcs, hc]
  refine ⟨fun h => ?_, fun h => ?_, fun h => ?_, fun h => ?_⟩ <;> rw [h] at hsub
  · exact spelling_ne_nil_of_mem_scanFrom hl (by rw [h]; rfl)
  · exact hline (hsub '\n' (by decide))
  · exact hsemi (hsub ';' (by decide))
  · exact hdollar (hsub '$' (by decide))

theorem lexemes_assignment (text : String) :
    (Source.ofString ("x = " ++ text)).lexemes =
      ⟨.ident "x", 0, 1⟩ :: ⟨.punct .assign, 2, 3⟩ :: scanFrom 4 text.toList := by
  have hchars : (Source.ofString ("x = " ++ text)).chars = 'x' :: ' ' :: '=' :: ' ' :: text.toList := by
    simp [Source.ofString, Source.ofChars]
  have hx : Token.read 'x' (' ' :: '=' :: ' ' :: text.toList) = (.ident "x", ' ' :: '=' :: ' ' :: text.toList) := rfl
  have hassign : Token.read '=' (' ' :: text.toList) = (.punct .assign, ' ' :: text.toList) := rfl
  have hgap (pos : Nat) (cs : List Char) : scanFrom pos (' ' :: cs) = scanFrom (pos + 1) cs := by
    rw [scanFrom, if_pos (by decide)]
    rfl
  rw [Source.lexemes, hchars, Token.scanFrom_read (by decide) (by decide), hx, hgap,
    Token.scanFrom_read (by decide) (by decide), hassign, hgap]
  rfl

/-- An assignment whose value takes all the lexemes is read as the only statement. -/
theorem program_of_assignment {x : String} {start stop start' stop' : Nat} {e : Tree}
    (hlexemes : src.lexemes = ⟨.ident x, start, stop⟩ :: ⟨.punct .assign, start', stop'⟩ :: ts)
    (h : Derives src (.expression 0) ts [e] []) :
    program src = .ok (.node .program ⟨1, 1⟩
      [.node .assign (src.locate start) [identNode x (src.locate start), e]]) := by
  obtain ⟨h₁, hr⟩ := expression_eq_ok.2 h
  have hstatement : statement src (⟨.ident x, start, stop⟩ :: ⟨.punct .assign, start', stop'⟩ :: ts) =
      .ok (.node .assign (src.locate start) [identNode x (src.locate start), e], ⟨[], Nat.succ_pos _⟩) := by
    rw [statement, hr]
    rfl
  have hnone : statements src false [] = .ok ([], ⟨[], Nat.le_refl _⟩) := by
    rw [statements]
    rfl
  have hstatements : ∃ h, statements src false src.lexemes =
      .ok ([.node .assign (src.locate start) [identNode x (src.locate start), e]], ⟨[], h⟩) := by
    rw [hlexemes]
    refine ⟨Nat.zero_le _, ?_⟩
    rw [statements]
    change (statement src (⟨.ident x, start, stop⟩ :: ⟨.punct .assign, start', stop'⟩ :: ts) >>= _) = _
    rw [hstatement]
    change (statements src false [] >>= _) = _
    rw [hnone]
    rfl
  obtain ⟨h₂, hstatements⟩ := hstatements
  rw [program, hstatements]
  rfl

/-- The text of an assignment to `x` is read as one assignment whose value is read from the rest of the text. -/
theorem parse_assignment_iff (hp : Plain (scanFrom 4 text.toList)) :
    (∃ tree, Tree.parse ("x = " ++ text) = .ok tree ∧ tree.IsAssignment "x" value) ↔
      Derives (Source.ofString ("x = " ++ text)) (.expression 0) (scanFrom 4 text.toList) [value] [] := by
  constructor
  · rintro ⟨tree, hparse, loc, loc₁, loc₂, rfl⟩
    obtain ⟨ss, rest, heq, hforms⟩ := exists_forms_of_program hparse
    cases heq
    rw [lexemes_assignment] at hforms
    cases hforms with
    | moreStatements first more =>
      cases first with
      | assign hvalue =>
        cases more with
        | noStatements hcloses =>
          have hplain := hp.sublist hvalue.sublist
          rw [hplain.skip_eq (by simp [isSeparator])] at hcloses
          rwa [hplain.eq_nil_of_peek (by simpa [closes] using hcloses)] at hvalue
  · intro h
    exact ⟨_, program_of_assignment (lexemes_assignment text) h, _, _, _, rfl⟩

/-- A text is read as the term that stands in the text of the assignment. -/
theorem parse_term_iff (hp : Plain (scanFrom 4 text.toList)) :
    Term.parse text = .ok t ↔ ∃ e,
      Derives (Source.ofString ("x = " ++ text)) (.expression 0) (scanFrom 4 text.toList) [e] [] ∧ e.Denotes t := by
  have htokens : tokensOf text = (scanFrom 4 text.toList).map (·.token) := Token.map_token_scanFrom _ _ _
  constructor
  · intro h
    obtain ⟨⟨t', rest⟩, hr, h⟩ := bind_eq_ok.1 (mapError_eq_ok.1 h)
    obtain ⟨_, hend, h⟩ := bind_eq_ok.1 h
    cases h
    have hend : Reader.next rest.1 = .eof ∨ Reader.next rest.1 = .newline := by
      unfold Reader.expectEnd at hend
      split at hend
      next h => exact h
      next => cases hend
    have hne : Reader.next rest.1 ≠ .punct .lparen := by
      rcases hend with h | h <;> rw [h] <;> exact Token.noConfusion
    obtain ⟨e, rest', hrest, hd, he⟩ :=
      (terms _ _).term 0 0 _ _ (Nat.lt_succ_self _) htokens level_zero hp t rest hr hne
    have hnil : rest' = [] := by
      cases rest' with
      | nil => rfl
      | cons l ls =>
        obtain ⟨heof, hline, -⟩ := hp.sublist hd.sublist l List.mem_cons_self
        rw [hrest] at hend
        exact absurd hend (not_or.2 ⟨heof, hline⟩)
    exact ⟨e, hnil ▸ hd, he⟩
  · rintro ⟨e, hd, he⟩
    have hreads := hd.denoted hp e t rfl he 0 level_zero
    rw [← htokens] at hreads
    obtain ⟨h, hr⟩ := hreads
    rw [Term.parse, hr]
    rfl

end Parse

namespace Tree

variable {source x : String} {tree value value' : Tree}

theorem IsAssignment.unique (h : tree.IsAssignment x value) (h' : tree.IsAssignment x value') : value = value' := by
  obtain ⟨_, _, _, rfl⟩ := h
  obtain ⟨_, _, _, heq⟩ := h'
  cases heq
  rfl

theorem IsAssignment.nodes_subset (h : tree.IsAssignment x value) : value.nodes ⊆ tree.nodes := by
  obtain ⟨_, _, _, rfl⟩ := h
  intro n hn
  simp [nodes, nodesAll, hn]

/-- The value of an assignment stands for a term exactly if it has no call and no literal that is too large. -/
theorem IsAssignment.isSome_term? (hparse : Tree.parse source = .ok tree) (h : tree.IsAssignment x value)
    (hvalue : value.IsExpr) :
    value.term?.isSome = true ↔ ∀ n ∈ value.nodes, n.isCall = false ∧ n.fits = true := by
  rw [hvalue.isSome_term?, List.all_eq_true]
  refine forall₂_congr fun n hn => ?_
  rw [hasValue_eq_fits hparse (h.nodes_subset hn), Bool.and_eq_true, Bool.not_eq_true']

end Tree

/-- A text is a term exactly if the assignment of it is a program whose value has no call and no literal that is too
large, and the value stands for that term. -/
theorem Term.parse_iff_assignment (text : String) (hline : '\n' ∉ text.toList) (hsemi : ';' ∉ text.toList)
    (hdollar : '$' ∉ text.toList) :
    ((∃ t, Term.parse text = .ok t) ↔ ∃ tree value, Tree.parse ("x = " ++ text) = .ok tree ∧
        tree.IsAssignment "x" value ∧ ∀ n ∈ value.nodes, n.isCall = false ∧ n.fits = true) ∧
      ∀ t tree value, Term.parse text = .ok t → Tree.parse ("x = " ++ text) = .ok tree →
        tree.IsAssignment "x" value → value.term?.map Term.folded = some t := by
  have hp := Parse.plain_scanFrom hline hsemi hdollar 4
  refine ⟨⟨?_, ?_⟩, ?_⟩
  · rintro ⟨t, ht⟩
    obtain ⟨value, hd, hdenotes⟩ := (Parse.parse_term_iff hp).1 ht
    obtain ⟨tree, hparse, hassign⟩ := (Parse.parse_assignment_iff hp).2 hd
    have hsome : value.term?.isSome = true := by
      rw [← Option.isSome_map, hdenotes]
      rfl
    exact ⟨tree, value, hparse, hassign, (hassign.isSome_term? hparse hd.isExpr_expression).1 hsome⟩
  · rintro ⟨tree, value, hparse, hassign, hnodes⟩
    have hd := (Parse.parse_assignment_iff hp).1 ⟨tree, hparse, hassign⟩
    have hsome := (hassign.isSome_term? hparse hd.isExpr_expression).2 hnodes
    obtain ⟨u, hu⟩ := Option.isSome_iff_exists.1 hsome
    exact ⟨u.folded, (Parse.parse_term_iff hp).2 ⟨value, hd, by rw [Tree.Denotes, hu]; rfl⟩⟩
  · intro t tree value ht hparse hassign
    obtain ⟨value', hd, hdenotes⟩ := (Parse.parse_term_iff hp).1 ht
    obtain ⟨tree', hparse', hassign'⟩ := (Parse.parse_assignment_iff hp).2 hd
    cases hparse.symm.trans hparse'
    rwa [hassign.unique hassign']

/-- Parentheses, a sign in front of a literal, and a comment. -/
def signedText : String := "(a - -2) * b # c"

/-- The tree of the text where it stands in an assignment. -/
def signedTree : Tree :=
  .node .binOp ⟨1, 6⟩ [.node .binOp ⟨1, 6⟩ [Parse.identNode "a" ⟨1, 6⟩, .leaf .operator ⟨1, 8⟩ "-",
    .node .unaryOp ⟨1, 10⟩ [.leaf .operator ⟨1, 10⟩ "-", .node .num ⟨1, 11⟩ [.leaf .int ⟨1, 11⟩ "2"]]],
    .leaf .operator ⟨1, 14⟩ "*", Parse.identNode "b" ⟨1, 16⟩]

theorem parse_signedText :
    Tree.parse ("x = " ++ signedText) =
      .ok (.node .program ⟨1, 1⟩ [.node .assign ⟨1, 1⟩ [Parse.identNode "x" ⟨1, 1⟩, signedTree]]) := by
  cbv

theorem folded_signedTree :
    signedTree.term?.map Term.folded =
      some (.binary .mul (.binary .sub (.var "a") (.int (-2))) (.var "b")) := by
  cbv

theorem signedText_agrees :
    Term.parse signedText = .ok (.binary .mul (.binary .sub (.var "a") (.int (-2))) (.var "b")) := by
  obtain ⟨hiff, hterm⟩ := Term.parse_iff_assignment signedText (by decide) (by decide) (by decide)
  have hassign : Tree.IsAssignment _ "x" signedTree := ⟨⟨1, 1⟩, ⟨1, 1⟩, ⟨1, 1⟩, rfl⟩
  obtain ⟨t, ht⟩ := hiff.2 ⟨_, signedTree, parse_signedText, hassign, by decide⟩
  cases folded_signedTree.symm.trans (hterm t _ _ ht parse_signedText hassign)
  exact ht

end LayerCheck
