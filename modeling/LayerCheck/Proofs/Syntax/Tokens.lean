import Mathlib
import LayerCheck.Proofs.Syntax.Grammar

/-! The tokens of a tree stand for lexemes of its text. Whatever production made a tree, the tokens in it from left
to right are lexemes in the order in which they were taken, each at its place and with its text. -/
namespace LayerCheck

namespace Tree

@[simp] theorem leavesAll_nil : leavesAll [] = [] := rfl

@[simp] theorem leavesAll_cons (t : Tree) (ts : List Tree) : leavesAll (t :: ts) = t.leaves ++ leavesAll ts := rfl

@[simp] theorem leaves_node (kind : NodeKind) (loc : Location) (ts : List Tree) :
    (node kind loc ts).leaves = leavesAll ts := rfl

@[simp] theorem leaves_leaf (kind : LeafKind) (loc : Location) (text : String) :
    (leaf kind loc text).leaves = [leaf kind loc text] := rfl

@[simp] theorem leavesAll_append (ts us : List Tree) : leavesAll (ts ++ us) = leavesAll ts ++ leavesAll us := by
  induction ts with
  | nil => rfl
  | cons t ts ih => rw [List.cons_append, leavesAll_cons, ih, leavesAll_cons, List.append_assoc]

end Tree

namespace Parse

open LayerCheck.Tree

variable {src : Source} {ts rest rest' : List Lexeme} {ls ls' : List Tree} {t : Lexeme} {l : Tree}

/-- A token stands for a lexeme. The text of an annotation begins at its lexeme and may go on behind it. -/
inductive Shows (src : Source) : Lexeme → Tree → Prop
  | name (x : String) (start stop : Nat) : Shows src ⟨.ident x, start, stop⟩ (.leaf .name (src.locate start) x)
  | layerName (x : String) (start stop : Nat) :
      Shows src ⟨.ident x, start, stop⟩ (.leaf .layerName (src.locate start) x)
  | int (digits : String) (start stop : Nat) :
      Shows src ⟨.int digits, start, stop⟩ (.leaf .int (src.locate start) digits)
  | operator (op : BinaryOp) (start stop : Nat) :
      Shows src ⟨.op op, start, stop⟩ (.leaf .operator (src.locate start) op.symbol)
  | bang (start stop : Nat) : Shows src ⟨.bang, start, stop⟩ (.leaf .operator (src.locate start) "!")
  | freeText (t : Lexeme) (text : String) : Shows src t (.leaf .annotationText (src.locate t.start) text)

/-- Of the lexemes taken from `ts` when `rest` is left, some in their order are shown by the tokens. -/
def Takes (src : Source) (ts rest : List Lexeme) (tokens : List Tree) : Prop :=
  ∃ picked, List.Forall₂ (Shows src) picked tokens ∧ (picked ++ rest).Sublist ts

namespace Takes

theorem of_sublist (h : rest.Sublist ts) : Takes src ts rest [] := ⟨[], .nil, h⟩

theorem refl (ts : List Lexeme) : Takes src ts ts [] := of_sublist (.refl _)

theorem trans (h : Takes src ts rest ls) (h' : Takes src rest rest' ls') : Takes src ts rest' (ls ++ ls') := by
  obtain ⟨picked, hp, hs⟩ := h
  obtain ⟨picked', hp', hs'⟩ := h'
  refine ⟨picked ++ picked', List.rel_append hp hp', ?_⟩
  rw [List.append_assoc]
  exact ((List.Sublist.refl picked).append hs').trans hs

theorem cons (ht : Shows src t l) (h : Takes src ts rest ls) : Takes src (t :: ts) rest (l :: ls) := by
  obtain ⟨picked, hp, hs⟩ := h
  exact ⟨t :: picked, .cons ht hp, hs.cons_cons t⟩

theorem drop (h : Takes src ts rest ls) : Takes src (t :: ts) rest ls := by
  obtain ⟨picked, hp, hs⟩ := h
  exact ⟨picked, hp, hs.cons t⟩

theorem skip (p : Token → Bool) (ts : List Lexeme) : Takes src ts (Parse.skip p ts).1 [] :=
  of_sublist (List.dropWhile_sublist _)

theorem newlines (ts : List Lexeme) : Takes src ts (skipNewlines ts).1 [] := skip _ ts

theorem begins {p : Punct} (h : Begins p ts rest) : Takes src ts rest [] := by
  obtain ⟨start, stop, rfl⟩ := h
  exact drop (refl _)

end Takes

/-- The tokens in what was read before a phrase and becomes a part of it. -/
def Phrase.before : Phrase → List Tree
  | binary lhs _ => lhs.leaves
  | afterName name loc => [.leaf .name loc name]
  | expression _ | operand | arguments => []

theorem Derives.takes {phrase : Phrase} {es : List Tree} (h : Derives src phrase ts es rest) :
    ∃ new, leavesAll es = phrase.before ++ new ∧ Takes src ts rest new := by
  induction h with
  | expression first more ih ih' =>
    obtain ⟨new, hnew, ht⟩ := ih
    obtain ⟨new', hnew', ht'⟩ := ih'
    refine ⟨new ++ new', ?_, ht.trans ht'⟩
    simp_all [Phrase.before]
  | stop => exact ⟨[], by simp [Phrase.before], .refl _⟩
  | @extend lhs limit op start stop rest rhs rest₁ e rest₂ hop right more ih ih' =>
    obtain ⟨new, hnew, ht⟩ := ih
    obtain ⟨new', hnew', ht'⟩ := ih'
    refine ⟨.leaf .operator (src.locate start) op.symbol :: (new ++ new'), ?_,
      .cons (.operator op start stop) (((Takes.newlines _).trans ht).trans ht')⟩
    simp_all [Phrase.before]
  | @not start stop rest e rest' inner ih =>
    obtain ⟨new, hnew, ht⟩ := ih
    exact ⟨.leaf .operator (src.locate start) "!" :: new, by simp_all [Phrase.before], .cons (.bang start stop) ht⟩
  | @neg start stop rest e rest' inner ih =>
    obtain ⟨new, hnew, ht⟩ := ih
    exact ⟨.leaf .operator (src.locate start) "-" :: new, by simp_all [Phrase.before],
      .cons (.operator .sub start stop) ht⟩
  | num digits start stop rest => exact ⟨_, rfl, .cons (.int digits start stop) (.refl _)⟩
  | trueLit start stop rest => exact ⟨[], rfl, .drop (.refl _)⟩
  | falseLit start stop rest => exact ⟨[], rfl, .drop (.refl _)⟩
  | @name name start stop rest e rest' more ih =>
    obtain ⟨new, hnew, ht⟩ := ih
    exact ⟨.leaf .name (src.locate start) name :: new, hnew, .cons (.name name start stop) ht⟩
  | parens inner close ih =>
    obtain ⟨new, hnew, ht⟩ := ih
    refine ⟨new, hnew, .drop ?_⟩
    simpa using (((Takes.newlines _).trans ht).trans (Takes.newlines _)).trans (.begins close)
  | plain => exact ⟨[], rfl, .refl _⟩
  | callNone close => exact ⟨[], rfl, .drop ((Takes.newlines _).trans (.begins close))⟩
  | call hne inner close ih =>
    obtain ⟨new, hnew, ht⟩ := ih
    refine ⟨new, by simp_all [Phrase.before], .drop ?_⟩
    simpa using ((Takes.newlines _).trans ht).trans (.begins close)
  | lastArgument inner hne ih =>
    obtain ⟨new, hnew, ht⟩ := ih
    exact ⟨new, hnew, by simpa using ht.trans (Takes.newlines _)⟩
  | moreArguments inner comma more ih ih' =>
    obtain ⟨new, hnew, ht⟩ := ih
    obtain ⟨new', hnew', ht'⟩ := ih'
    refine ⟨new ++ new', by simp_all [Phrase.before], ?_⟩
    simpa using (((ht.trans (Takes.newlines _)).trans (.begins comma)).trans (Takes.newlines _)).trans ht'

theorem Derives.sublist {phrase : Phrase} {es : List Tree} (h : Derives src phrase ts es rest) : rest.Sublist ts := by
  obtain ⟨new, -, picked, -, hs⟩ := h.takes
  exact (List.sublist_append_right picked rest).trans hs

theorem Derives.takes_expression {limit : Nat} {e : Tree} (h : Derives src (.expression limit) ts [e] rest) :
    Takes src ts rest e.leaves := by
  obtain ⟨new, hnew, ht⟩ := h.takes
  have hleaves : e.leaves = new := by simpa [Phrase.before] using hnew
  exact hleaves ▸ ht

theorem Forms.takes {clause : Clause} {ss : List Tree} (h : Forms src clause ts ss rest) :
    Takes src ts rest (leavesAll ss) := by
  induction h with
  | noNames ts => exact .refl ts
  | lastName x start stop rest => exact .cons (.name x start stop) (.refl _)
  | moreNames comma more ih => exact .cons (.name _ _ _) ((Takes.begins comma).trans ih)
  | noStatements => exact .skip _ _
  | moreStatements first more ih ih' =>
    have h := ((Takes.skip _ _).trans ih).trans ih'
    simpa using h
  | block opens inner close ih => simpa using ((Takes.begins opens).trans ih).trans (.begins close)
  | ifThen condition thenBlock ih => simpa using condition.takes_expression.trans ih
  | ifElse condition thenBlock elseBlock ih ih' =>
    simpa using (condition.takes_expression.trans ih).trans (.drop ih')
  | elseIf condition thenBlock nested ih ih' =>
    simpa using (condition.takes_expression.trans ih).trans (.drop (.drop ih'))
  | funDef opens inner close block ih ih' =>
    have h := (((Takes.begins opens).trans ih).trans (.begins close)).trans ih'
    simpa using Takes.drop (Takes.cons (.name _ _ _) h)
  | branch inner ih => exact .drop ih
  | loop condition block ih => simpa using Takes.drop (condition.takes_expression.trans ih)
  | retNone => exact .drop (.refl _)
  | ret value => simpa using Takes.drop value.takes_expression
  | brk => exact .drop (.refl _)
  | cont => exact .drop (.refl _)
  | @declare x start stop start₁ stop₁ layer start₂ stop₂ rest t rest' text colon hline =>
    have hline : Takes src rest' (nextLine rest') [] := .of_sublist (List.dropWhile_sublist _)
    have h := (Takes.begins colon).trans (.cons (.freeText t text) hline)
    exact .cons (.name x start stop) (.drop (.cons (.layerName layer start₂ stop₂) h))
  | @assign x start stop start' stop' rest e rest' value =>
    simpa [identNode] using Takes.cons (.name x start stop) (Takes.drop value.takes_expression)
  | exprStmt value => simpa using value.takes_expression

theorem exists_lexeme_of_mem {picked : List Lexeme} (h : List.Forall₂ (Shows src) picked ls) (hl : l ∈ ls) :
    ∃ t ∈ picked, Shows src t l := by
  induction h with
  | nil => cases hl
  | cons ht _ ih =>
    rcases List.mem_cons.1 hl with rfl | hl
    · exact ⟨_, List.mem_cons_self, ht⟩
    · obtain ⟨t, hmem, ht⟩ := ih hl
      exact ⟨t, List.mem_cons_of_mem _ hmem, ht⟩

/-- The tokens of a program stand for lexemes of its text, in their order. -/
theorem exists_lexemes_of_program {t : Tree} (h : program src = .ok t) :
    ∃ picked, List.Forall₂ (Shows src) picked t.leaves ∧ picked.Sublist src.lexemes := by
  obtain ⟨ss, rest, rfl, hs⟩ := exists_forms_of_program h
  obtain ⟨picked, hp, hsub⟩ := hs.takes
  exact ⟨picked, hp, (List.sublist_append_left _ _).trans hsub⟩

end Parse

end LayerCheck
