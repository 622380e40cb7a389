import Mathlib
import LayerCheck.Proofs.Refinement.Names
import LayerCheck.Proofs.Term.Readable

/-! Terms that are written alike. Reading a text folds the minus signs in front of literals away, so texts are
compared with the digits of every literal turned into a name that no text has: that is read without folding. Terms
with one text differ at most in how they spell negations, as a literal or as a minus sign in front of one, and only
for numbers that occur in both ways. -/
namespace LayerCheck

namespace Token

/-- A name that no text has, for the digits of a literal. -/
def digitName (digits : String) : String := "#" ++ digits

/-- The digits of a literal turned into a name. -/
def mark : Token → Token
  | int digits => ident (digitName digits)
  | t => t

theorem digitName_injective {m n : Nat} (h : digitName (toString m) = digitName (toString n)) : m = n := by
  have hlist := congrArg String.toList h
  exact toDigits_injective (by simpa [digitName] using hlist)

theorem digitName_not_isName (digits : String) : isName (digitName digits) = false := by
  have hlist : (digitName digits).toList = '#' :: digits.toList := by simp [digitName]
  simp [isName, bare, isWord, hlist, isIdentStart]

theorem ofName_digitName (digits : String) : ofName ident (digitName digits) = [ident (digitName digits)] := by
  have hlist : (digitName digits).toList = '#' :: digits.toList := by simp [digitName]
  simp [ofName, hlist]

theorem map_mark_ofName (x : String) : (ofName ident x).map mark = ofName ident x := by
  rcases ofName_cases ident x with ⟨y, -, h⟩ | h <;> rw [h] <;> rfl

theorem map_mark_guarded (least strength : Nat) (ts : List Token) :
    (guarded least strength ts).map mark = guarded least strength (ts.map mark) := by
  rw [guarded, guarded]
  split
  next => simp [mark]
  next => rfl

end Token

theorem Reader.Reads.unique {α : Type} {bound : List Token → Prop}
    {r : Except ReadError (α × { rest : List Token // bound rest })} {a a' : α} {rest rest' : List Token}
    (h : Reads r a rest) (h' : Reads r a' rest') : a = a' ∧ rest = rest' := by
  obtain ⟨_, h⟩ := h
  obtain ⟨_, h'⟩ := h'
  cases h.symm.trans h'
  exact ⟨rfl, rfl⟩

namespace Term

/-- The term with a name in the place of every literal, and a minus sign in front of it where the literal has one. -/
def marked : Term → Term
  | var name => var name
  | int value =>
    let name := var (Token.digitName (toString value.natAbs))
    if value < 0 then unary .neg name else name
  | bool value => bool value
  | unary op operand => unary op operand.marked
  | binary op lhs rhs => binary op lhs.marked rhs.marked

/-- Places ask for no more than a unary operator gives, so a sign that leaves its literal needs no parentheses. -/
theorem guarded_marked (t : Term) {least : Nat} (h : least ≤ 6) (ts : List Token) :
    Token.guarded least t.marked.strength ts = Token.guarded least t.strength ts := by
  cases t with
  | int n =>
    rw [marked, Token.guarded, Token.guarded]
    split
    next => exact (if_neg (Nat.not_lt.2 h)).trans (if_neg (Nat.not_lt.2 (Nat.le_succ_of_le h))).symm
    next => rfl
  | _ => rfl

theorem precedence_lt (op : BinaryOp) : op.precedence < 6 := by cases op <;> decide

theorem tokens_marked (t : Term) : t.marked.tokens = t.tokens.map Token.mark := by
  induction t with
  | var x => exact (Token.map_mark_ofName x).symm
  | int n =>
    rw [marked, tokens, Token.ofInt]
    split
    next =>
      rw [tokens, tokens, Token.ofName_digitName]
      rfl
    next =>
      rw [tokens, Token.ofName_digitName]
      rfl
  | bool b => rfl
  | unary op t ih =>
    rw [marked, tokens, tokens, List.map_cons, Token.map_mark_guarded, guarded_marked t (Nat.le_refl 6), ih]
    cases op <;> rfl
  | binary op l r ihl ihr =>
    have hp := precedence_lt op
    rw [marked, tokens, tokens, List.map_append, List.map_cons, Token.map_mark_guarded, Token.map_mark_guarded,
      guarded_marked l (Nat.le_of_lt hp), guarded_marked r hp, ihl, ihr]
    rfl

theorem literals_marked (t : Term) : t.marked.literals = [] := by
  induction t with
  | var x => rfl
  | int n =>
    rw [marked]
    split <;> rfl
  | bool b => rfl
  | unary op t ih => exact ih
  | binary op l r ihl ihr => rw [marked, literals, ihl, ihr, List.append_nil]

theorem folded_of_literals (t : Term) (h : t.literals = []) : t.folded = t := by
  induction t with
  | var x => rfl
  | int n => cases h
  | bool b => rfl
  | unary op t ih =>
    cases op with
    | not => rw [folded, ih h]
    | neg =>
      rw [Reader.folded_neg, ih h]
      cases t with
      | int n => cases h
      | _ => rfl
  | binary op l r ihl ihr =>
    obtain ⟨hl, hr⟩ := List.append_eq_nil_iff.1 h
    rw [folded, ihl hl, ihr hr]

/-- A marked term is read from its tokens as it is. -/
theorem reads_marked (t : Term) {rest : List Token} (hrest : ∀ op r, rest ≠ .op op :: r) :
    Reader.Reads (Reader.term 0 ((t.tokens ++ rest).map Token.mark)) t.marked (rest.map Token.mark) := by
  have hmark : ∀ op r, rest.map Token.mark ≠ .op op :: r := by
    intro op r heq
    cases rest with
    | nil => cases heq
    | cons u us =>
      cases u with
      | op op' => exact hrest op' us rfl
      | _ => cases heq
  have hlits := t.literals_marked
  have hreads := Reader.reads_tokens (t := t.marked) (by simp [hlits]) hmark
  rwa [folded_of_literals _ hlits, tokens_marked, ← List.map_append] at hreads

/-- The tokens up to one that is no operator are those of one term. -/
theorem marked_eq_of_tokens {t t' : Term} {rest rest' : List Token} (hrest : ∀ op r, rest ≠ .op op :: r)
    (hrest' : ∀ op r, rest' ≠ .op op :: r) (h : t.tokens ++ rest = t'.tokens ++ rest') :
    t.marked = t'.marked ∧ rest = rest' := by
  have hread := reads_marked t hrest
  rw [h] at hread
  obtain ⟨hmarked, -⟩ := hread.unique (reads_marked t' hrest')
  have hlength : t.tokens.length = t'.tokens.length := by
    have hmap := congrArg (fun u => u.tokens.length) hmarked
    simpa [tokens_marked] using hmap
  exact ⟨hmarked, (List.append_inj h hlength).2⟩

/-- Terms that differ at most in how they spell the negations of numbers in `V`: as a literal, or as a minus sign in
front of one. -/
inductive Alike (V : Int → Prop) : Term → Term → Prop
  | var (x : String) : Alike V (var x) (var x)
  | int (n : Int) : Alike V (int n) (int n)
  | bool (b : Bool) : Alike V (bool b) (bool b)
  | unary (op : UnaryOp) {t t' : Term} (h : Alike V t t') : Alike V (unary op t) (unary op t')
  | binary (op : BinaryOp) {l l' r r' : Term} (hl : Alike V l l') (hr : Alike V r r') :
    Alike V (binary op l r) (binary op l' r')
  | unfold {n : Int} (hn : 0 < n) (hV : V n) : Alike V (int (-n)) (unary .neg (int n))
  | fold {n : Int} (hn : 0 < n) (hV : V n) : Alike V (unary .neg (int n)) (int (-n))

section

variable {V : Int → Prop} {t t' : Term}

theorem Alike.symm (h : Alike V t t') : Alike V t' t := by
  induction h with
  | var x => exact .var x
  | int n => exact .int n
  | bool b => exact .bool b
  | unary op _ ih => exact .unary op ih
  | binary op _ _ ihl ihr => exact .binary op ihl ihr
  | unfold hn hV => exact .fold hn hV
  | fold hn hV => exact .unfold hn hV

theorem Alike.eq (h : Alike V t t') (hV : ∀ n, 0 < n → ¬ V n) : t = t' := by
  induction h with
  | var | int | bool => rfl
  | unary op _ ih => rw [ih]
  | binary op _ _ ihl ihr => rw [ihl, ihr]
  | unfold hn hVn | fold hn hVn => exact absurd hVn (hV _ hn)

end

/-- The operands of the minus signs in a term. -/
def negands : Term → List Term
  | unary .neg t => t :: t.negands
  | unary .not t => t.negands
  | binary _ l r => l.negands ++ r.negands
  | var _ | int _ | bool _ => []

/-- A term over names that can be written, with literals in `L` and minus signs in front of literals in `N` only. -/
structure Legible (L N : Int → Prop) (t : Term) : Prop where
  spelled : t.Spelled
  literals : ∀ n ∈ t.literals, L n
  negands : ∀ n, int n ∈ t.negands → N n

section

variable {L N : Int → Prop} {t t' : Term}

theorem Legible.operand {op : UnaryOp} (h : (unary op t).Legible L N) : t.Legible L N := by
  refine ⟨h.spelled, h.literals, fun n hn => h.negands n ?_⟩
  cases op with
  | not => exact hn
  | neg => exact List.mem_cons_of_mem _ hn

theorem Legible.not (h : t.Legible L N) : t.not.Legible L N := ⟨h.spelled, h.literals, h.negands⟩

theorem Legible.neg (h : t.Legible L N) (ht : ∀ n, t = int n → N n) : (unary .neg t).Legible L N := by
  refine ⟨h.spelled, h.literals, fun n hn => ?_⟩
  rcases List.mem_cons.1 hn with hn | hn
  · exact ht n hn.symm
  · exact h.negands n hn

theorem legible_binary {op : BinaryOp} {l r : Term} :
    (binary op l r).Legible L N ↔ l.Legible L N ∧ r.Legible L N := by
  constructor
  · intro h
    obtain ⟨hl, hr⟩ := spelled_binary.1 h.spelled
    constructor
    · exact ⟨hl, fun n hn => h.literals n (List.mem_append_left _ hn),
        fun n hn => h.negands n (List.mem_append_left _ hn)⟩
    · exact ⟨hr, fun n hn => h.literals n (List.mem_append_right _ hn),
        fun n hn => h.negands n (List.mem_append_right _ hn)⟩
  · rintro ⟨hl, hr⟩
    exact ⟨spelled_binary.2 ⟨hl.spelled, hr.spelled⟩,
      fun n hn => (List.mem_append.1 hn).elim (hl.literals n) (hr.literals n),
      fun n hn => (List.mem_append.1 hn).elim (hl.negands n) (hr.negands n)⟩

/-- In a term whose names can be written, a marked literal is a literal. -/
theorem eq_int_of_marked (h : t.Spelled) {n : Nat} (ht : t.marked = var (Token.digitName (toString n))) :
    t = int n := by
  cases t with
  | var x =>
    injection ht with hx
    have hname := h x (List.mem_singleton.2 rfl)
    rw [hx, Token.digitName_not_isName] at hname
    cases hname
  | int m =>
    rw [marked] at ht
    split at ht
    next => cases ht
    next hm =>
      injection ht with ht
      have habs := Token.digitName_injective ht
      congr
      omega
  | _ => cases ht

theorem alike_of_marked_int {n : Int} (hn : (int n).Legible L N) (ht : t.Legible L N)
    (h : (int n).marked = t.marked) : Alike (fun m => L (-m) ∧ N m) (int n) t := by
  rw [marked] at h
  split at h
  next hneg =>
    cases t with
    | int m =>
      rw [marked] at h
      split at h
      next hm =>
        injection h with _ h
        injection h with h
        have habs := Token.digitName_injective h
        have hmn : m = n := by omega
        rw [hmn]
        exact .int n
      next => cases h
    | unary op u =>
      injection h with hop h
      have hu := eq_int_of_marked (t := u) ht.spelled h.symm
      obtain ⟨m, rfl⟩ : ∃ m : Int, n = -m := ⟨-n, (Int.neg_neg n).symm⟩
      have hm : ((-m).natAbs : Int) = m := by omega
      rw [← hop, hu, hm] at ht ⊢
      have hL := hn.literals (-m) (List.mem_singleton_self _)
      exact .unfold (by omega) ⟨hL, ht.negands m List.mem_cons_self⟩
    | _ => cases h
  next hpos =>
    have hval : n = (n.natAbs : Int) := by omega
    rw [eq_int_of_marked ht.spelled h.symm, ← hval]
    exact .int n

theorem alike_of_marked (ht : t.Legible L N) (ht' : t'.Legible L N) (h : t.marked = t'.marked) :
    Alike (fun n => L (-n) ∧ N n) t t' := by
  induction t generalizing t' with
  | var x =>
    cases t' with
    | var y =>
      injection h with h
      rw [h]
      exact .var y
    | int n => cases alike_of_marked_int ht' ht h.symm
    | _ => cases h
  | int n => exact alike_of_marked_int ht ht' h
  | bool b =>
    cases t' with
    | bool b' =>
      injection h with h
      rw [h]
      exact .bool b'
    | int n => cases alike_of_marked_int ht' ht h.symm
    | _ => cases h
  | unary op u ih =>
    cases t' with
    | unary op' u' =>
      injection h with hop h
      rw [hop]
      exact .unary op' (ih ht.operand ht'.operand h)
    | int n => exact (alike_of_marked_int ht' ht h.symm).symm
    | _ => cases h
  | binary op l r ihl ihr =>
    cases t' with
    | binary op' l' r' =>
      injection h with hop hl hr
      have ht := legible_binary.1 ht
      have ht' := legible_binary.1 ht'
      rw [hop]
      exact .binary op' (ihl ht.1 ht'.1 hl) (ihr ht.2 ht'.2 hr)
    | int n => cases alike_of_marked_int ht' ht h.symm
    | _ => cases h

theorem Legible.alike_of_tokens (ht : t.Legible L N) (ht' : t'.Legible L N) {rest rest' : List Token}
    (hrest : ∀ op r, rest ≠ .op op :: r) (hrest' : ∀ op r, rest' ≠ .op op :: r)
    (h : t.tokens ++ rest = t'.tokens ++ rest') : Alike (fun n => L (-n) ∧ N n) t t' ∧ rest = rest' := by
  obtain ⟨hmarked, hr⟩ := marked_eq_of_tokens hrest hrest' h
  exact ⟨alike_of_marked ht ht' hmarked, hr⟩

/-- What is read has no minus sign in front of a literal. -/
theorem Readable.legible (h : t.Readable) (ht : ∀ n ∈ t.literals, L n) : t.Legible L N := by
  refine ⟨h.spelled, ht, fun n hn => ?_⟩
  induction t with
  | var | int | bool => cases hn
  | unary op t ih =>
    cases op with
    | not => exact ih h.of_not ht hn
    | neg =>
      obtain ⟨hread, hneg⟩ := h.of_neg
      rcases List.mem_cons.1 hn with rfl | hn
      · cases hneg
      · exact ih hread ht hn
  | binary op l r ihl ihr =>
    rcases List.mem_append.1 hn with hn | hn
    · exact ihl h.of_binary.1 (fun m hm => ht m (List.mem_append_left _ hm)) hn
    · exact ihr h.of_binary.2 (fun m hm => ht m (List.mem_append_right _ hm)) hn

end

end Term

end LayerCheck
