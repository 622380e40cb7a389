import Mathlib
import LayerCheck.Proofs.Term.Denotation
import LayerCheck.Proofs.Term.Reading

/-! What reading gives. A term that is read from a text has names that can be written, literals that a signed word
holds together with their negations, and no sign in front of a literal, so that its own text is read as the same
term. -/
namespace LayerCheck

/-- No keyword has a digit. -/
theorem Keyword.ofSpelling?_of_isDigit {x : String} {c : Char} (hc : c ∈ x.toList) (hd : c.isDigit = true) :
    ofSpelling? x = none := by
  refine List.find?_eq_none.2 fun k _ hk => ?_
  have hx : k.spelling = x := by simpa using hk
  have hall : k.spelling.toList.all (!·.isDigit) = true := by cases k <;> decide
  have hcd := List.all_eq_true.1 hall c (hx ▸ hc)
  simp [hd] at hcd

namespace Token

/-- A token as scanning gives it: an identifier is a word that is no keyword, and a number consists of digits. -/
def Scanned : Token → Prop
  | ident x => isWord x = true ∧ Keyword.ofSpelling? x = none
  | int digits => digits.toList.all Char.isDigit = true
  | _ => True

theorem scanned_readMark (c : Char) (cs : List Char) : (readMark c cs).1.Scanned := by
  unfold readMark
  split <;> trivial

theorem scanned_read (c : Char) (cs : List Char) : (read c cs).1.Scanned := by
  unfold read
  split
  next hc =>
    have hword : isWord (String.ofList (c :: cs.takeWhile isIdentRest)) = true := by
      simp [isWord, hc, List.all_takeWhile]
    dsimp only [ofWord]
    split
    next => trivial
    next hkeyword => exact ⟨hword, hkeyword⟩
  next =>
    split
    next hc => simp [Scanned, hc, List.all_takeWhile]
    next => exact scanned_readMark c cs

theorem scanned_of_mem_scanFrom (pos : Nat) (cs : List Char) : ∀ l ∈ scanFrom pos cs, l.token.Scanned := by
  fun_induction scanFrom pos cs with
  | case1 => exact fun l hl => (by cases hl)
  | case2 pos c cs hgap ih => exact ih
  | case3 pos cs comment hgap ih => exact ih
  | case4 pos c cs hgap hcomment token stop ih =>
    intro l hl
    rcases List.mem_cons.1 hl with rfl | hl
    · exact scanned_read c cs
    · exact ih l hl

theorem isName_of_scanned {x : String} (h : (ident x).Scanned) : isName x = true ∧ isName ("$" ++ x) = true := by
  obtain ⟨hword, hkeyword⟩ := h
  have hbare : bare x = x := by
    unfold bare
    split
    next cs hx => simp [isWord, hx, isIdentStart] at hword
    next => rfl
  have hdollar : bare ("$" ++ x) = x := by simp [bare]
  simp [isName, hbare, hdollar, hword, hkeyword]

/-- A dollar sign, a word and a number make a name. -/
theorem isName_numbered {x : String} {c : Char} (cs : List Char) (n : Nat)
    (hx : x.toList = '$' :: c :: (cs ++ Nat.toDigits 10 n)) (hc : isIdentStart c = true)
    (hcs : cs.all isIdentRest = true) : isName x = true := by
  have hdigits : ∀ d ∈ Nat.toDigits 10 n, d.isDigit = true :=
    fun d hd => Nat.isDigit_of_mem_toDigits (by decide) (by decide) hd
  have hbare : (bare x).toList = c :: (cs ++ Nat.toDigits 10 n) := by simp [bare, hx]
  have hword : isWord (bare x) = true := by
    have hrest : (Nat.toDigits 10 n).all isIdentRest = true :=
      List.all_eq_true.2 fun d hd => (not_word_of_isDigit (hdigits d hd)).2.2.2
    simp [isWord, hbare, hc, hcs, hrest]
  obtain ⟨d, hd⟩ := List.exists_mem_of_ne_nil _ (Nat.toDigits_ne_nil (n := n) (b := 10))
  have hkeyword : Keyword.ofSpelling? (bare x) = none :=
    Keyword.ofSpelling?_of_isDigit (c := d) (by simp [hbare, hd]) (hdigits d hd)
  simp [isName, hword, hkeyword]

end Token

namespace Term

/-- A term whose text is read as that term. -/
structure Readable (t : Term) : Prop where
  spelled : t.Spelled
  ranged : ∀ n ∈ t.literals, -9223372036854775808 < n ∧ n < 9223372036854775808
  folded : t.folded = t

namespace Readable

variable {t l r : Term}

theorem parse_render (h : t.Readable) : parse t.render = .ok t := by
  rw [Term.parse_render h.spelled h.ranged, h.folded]

theorem var {x : String} (h : Token.isName x = true) : (var x).Readable :=
  ⟨fun y hy => by rwa [List.mem_singleton.1 hy], fun n hn => (by cases hn), rfl⟩

theorem int {n : Int} (h : -9223372036854775808 < n ∧ n < 9223372036854775808) : (int n).Readable :=
  ⟨fun x hx => (by cases hx), fun m hm => by rwa [List.mem_singleton.1 hm], rfl⟩

theorem bool (b : Bool) : (bool b).Readable := ⟨fun x hx => (by cases hx), fun n hn => (by cases hn), rfl⟩

theorem not (h : t.Readable) : t.not.Readable :=
  ⟨h.spelled, h.ranged, by rw [Term.not, Term.folded, h.folded]⟩

theorem negated (h : t.Readable) : (Reader.negated t).Readable := by
  cases t with
  | int n =>
    have hn := h.ranged n List.mem_cons_self
    exact .int (by omega)
  | _ => exact ⟨h.spelled, h.ranged, (Reader.folded_neg _).trans (congrArg Reader.negated h.folded)⟩

theorem binary {op : BinaryOp} (hl : l.Readable) (hr : r.Readable) : (binary op l r).Readable where
  spelled := spelled_binary.2 ⟨hl.spelled, hr.spelled⟩
  ranged n hn := (List.mem_append.1 hn).elim (hl.ranged n) (hr.ranged n)
  folded := by rw [Term.folded, hl.folded, hr.folded]

theorem of_not (h : t.not.Readable) : t.Readable := by
  have hfolded := h.folded
  rw [Term.not, Term.folded] at hfolded
  injection hfolded with _ hfolded
  exact ⟨h.spelled, h.ranged, hfolded⟩

/-- A minus sign that stays in front of its operand has no literal behind it. -/
theorem of_neg (h : (unary .neg t).Readable) : t.Readable ∧ Reader.negated t = .unary .neg t := by
  have hfolded := h.folded
  rw [Reader.folded_neg] at hfolded
  have ht : t.folded = t := by
    cases hu : t.folded with
    | int n =>
      rw [hu] at hfolded
      cases hfolded
    | _ =>
      rw [hu] at hfolded
      injection hfolded
  exact ⟨⟨h.spelled, h.ranged, ht⟩, (congrArg Reader.negated ht).symm.trans hfolded⟩

theorem of_binary {op : BinaryOp} (h : (Term.binary op l r).Readable) : l.Readable ∧ r.Readable := by
  have hspelled := spelled_binary.1 h.spelled
  have hfolded := h.folded
  rw [Term.folded] at hfolded
  injection hfolded with _ hl hr
  exact ⟨⟨hspelled.1, fun n hn => h.ranged n (List.mem_append_left _ hn), hl⟩,
    ⟨hspelled.2, fun n hn => h.ranged n (List.mem_append_right _ hn), hr⟩⟩

end Readable

end Term

namespace Reader

variable {n least : Nat} {ts : List Token} {t : Term}

/-- What a reader reads has a property, and what it leaves are scanned tokens. -/
def Finds {α : Type} (Q : α → Prop) {bound : List Token → Prop}
    (r : Except ReadError (α × { rest : List Token // bound rest })) : Prop :=
  ∀ a rest, r = .ok (a, rest) → Q a ∧ ∀ t ∈ rest.1, t.Scanned

theorem scanned_tail {t : Token} (h : ∀ u ∈ t :: ts, u.Scanned) : ∀ u ∈ ts, u.Scanned :=
  fun u hu => h u (List.mem_cons_of_mem t hu)

theorem scanned_expect (h : ∀ u ∈ ts, u.Scanned) {t : Token} {rest : Shorter ts} (hr : expect t ts = .ok rest) :
    ∀ u ∈ rest.1, u.Scanned := by
  unfold expect at hr
  split at hr
  next =>
    split at hr
    next =>
      cases hr
      exact scanned_tail h
    next => cases hr
  next => cases hr

theorem finds_variableName (h : ∀ u ∈ ts, u.Scanned) : Finds (Token.isName · = true) (variableName ts) := by
  intro x rest hr
  unfold variableName at hr
  split at hr
  next =>
    cases hr
    have hname := scanned_tail h _ List.mem_cons_self
    exact ⟨(Token.isName_of_scanned hname).2, scanned_tail (scanned_tail h)⟩
  next => cases hr
  next =>
    cases hr
    exact ⟨(Token.isName_of_scanned (h _ List.mem_cons_self)).1, scanned_tail h⟩
  next => cases hr

theorem range_of_int64? {digits : String} (hd : digits.toList.all Char.isDigit = true) {value : Int}
    (h : Decimal.int64? digits = some value) : -9223372036854775808 < value ∧ value < 9223372036854775808 := by
  have hne : digits.toList ≠ [] := by
    intro hnil
    rw [Decimal.int64?, hnil] at h
    cases h
  rw [Decimal.int64?_of_digits hne hd] at h
  split at h
  next hlt =>
    cases h
    omega
  next => cases h

/-- The readers of terms give readable terms on less than some number of tokens. -/
structure Readers (n : Nat) : Prop where
  term : ∀ least ts, ts.length < n → (∀ u ∈ ts, u.Scanned) → Finds Term.Readable (term least ts)
  extend : ∀ t least ts, ts.length < n → t.Readable → (∀ u ∈ ts, u.Scanned) →
    Finds Term.Readable (extend t least ts)
  operand : ∀ ts, ts.length < n → (∀ u ∈ ts, u.Scanned) → Finds Term.Readable (operand ts)

theorem finds_operand (hi : Readers n) (hn : ts.length ≤ n) (h : ∀ u ∈ ts, u.Scanned) :
    Finds Term.Readable (operand ts) := by
  intro a rest hr
  unfold operand at hr
  split at hr
  next =>
    obtain ⟨⟨t, rest₁, h₁⟩, ht, hr⟩ := bind_eq_ok.1 hr
    cases hr
    obtain ⟨ht, hs⟩ := hi.operand _ hn (scanned_tail h) _ _ ht
    exact ⟨ht.not, hs⟩
  next =>
    obtain ⟨⟨t, rest₁, h₁⟩, ht, hr⟩ := bind_eq_ok.1 hr
    cases hr
    obtain ⟨ht, hs⟩ := hi.operand _ hn (scanned_tail h) _ _ ht
    exact ⟨ht.negated, hs⟩
  next =>
    split at hr
    next value hvalue =>
      cases hr
      exact ⟨.int (range_of_int64? (h _ List.mem_cons_self) hvalue), scanned_tail h⟩
    next => cases hr
  next =>
    cases hr
    exact ⟨.bool true, scanned_tail h⟩
  next =>
    cases hr
    exact ⟨.bool false, scanned_tail h⟩
  next =>
    obtain ⟨⟨t, rest₁, h₁⟩, ht, hr⟩ := bind_eq_ok.1 hr
    obtain ⟨⟨rest₂, h₂⟩, hclose, hr⟩ := bind_eq_ok.1 hr
    cases hr
    obtain ⟨ht, hs⟩ := hi.term _ _ hn (scanned_tail h) _ _ ht
    exact ⟨ht, scanned_expect hs hclose⟩
  next =>
    cases hr
    exact ⟨.var (Token.isName_of_scanned (h _ List.mem_cons_self)).1, scanned_tail h⟩
  next =>
    obtain ⟨⟨x, rest₁⟩, hx, hr⟩ := bind_eq_ok.1 hr
    cases hr
    obtain ⟨hx, hs⟩ := finds_variableName h _ _ hx
    exact ⟨.var hx, hs⟩
  next => cases hr

theorem finds_extend (hi : Readers n) (hn : ts.length ≤ n) (ht : t.Readable) (h : ∀ u ∈ ts, u.Scanned) :
    Finds Term.Readable (extend t least ts) := by
  intro a rest hr
  unfold extend at hr
  split at hr
  next op rest₀ =>
    split at hr
    next =>
      cases hr
      exact ⟨ht, h⟩
    next =>
      obtain ⟨⟨rhs, rest₁, h₁⟩, hrhs, hr⟩ := bind_eq_ok.1 hr
      obtain ⟨⟨u, rest₂, h₂⟩, hu, hr⟩ := bind_eq_ok.1 hr
      cases hr
      obtain ⟨hrhs, hs₁⟩ := hi.term _ _ hn (scanned_tail h) _ _ hrhs
      exact hi.extend _ _ _ (Nat.lt_trans h₁ hn) (ht.binary hrhs) hs₁ _ _ hu
  next =>
    cases hr
    exact ⟨ht, h⟩

theorem finds_term (hi : Readers n) (hn : ts.length ≤ n) (h : ∀ u ∈ ts, u.Scanned) :
    Finds Term.Readable (term least ts) := by
  intro a rest hr
  unfold term at hr
  obtain ⟨⟨t, rest₁, h₁⟩, ht, hr⟩ := bind_eq_ok.1 hr
  obtain ⟨⟨u, rest₂, h₂⟩, hu, hr⟩ := bind_eq_ok.1 hr
  cases hr
  obtain ⟨ht, hs₁⟩ := finds_operand hi hn h _ _ ht
  exact hi.extend _ _ _ (Nat.lt_of_lt_of_le h₁ hn) ht hs₁ _ _ hu

theorem readers (n : Nat) : Readers n := by
  induction n with
  | zero => constructor <;> exact fun _ => (by intros; omega)
  | succ n ih =>
    exact {
      term := fun _ _ hn => finds_term ih (Nat.le_of_lt_succ hn)
      extend := fun _ _ _ hn => finds_extend ih (Nat.le_of_lt_succ hn)
      operand := fun _ hn => finds_operand ih (Nat.le_of_lt_succ hn) }

/-- Whatever the tokens of a text are read as is a readable term. -/
theorem finds_readable (least : Nat) (h : ∀ u ∈ ts, u.Scanned) : Finds Term.Readable (term least ts) :=
  (readers _).term least ts (Nat.lt_succ_self _) h

end Reader

theorem Token.scanned_tokensOf (text : String) : ∀ t ∈ tokensOf text, t.Scanned := by
  intro t ht
  obtain ⟨l, hl, rfl⟩ := List.mem_map.1 ht
  exact scanned_of_mem_scanFrom 0 _ l hl

theorem Term.readable_of_parse {text : String} {t : Term} (h : Term.parse text = .ok t) : t.Readable := by
  obtain ⟨⟨t', rest⟩, hread, h⟩ := bind_eq_ok.1 (mapError_eq_ok.1 h)
  obtain ⟨_, -, h⟩ := bind_eq_ok.1 h
  cases h
  exact (Reader.finds_readable 0 (Token.scanned_tokensOf text) _ _ hread).1

end LayerCheck
