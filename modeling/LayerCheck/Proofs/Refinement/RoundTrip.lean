import Mathlib
import LayerCheck.Proofs.Refinement.Positional
import LayerCheck.Proofs.Term.Readable
import LayerCheck.Refinement.Reader

/-! Refined types and signatures are read back from their texts. -/
namespace LayerCheck

variable {rest : List Token} {ty : RefinedType}

/-! ### Tokens of types -/

namespace RefinedType

def tokens (ty : RefinedType) : List Token :=
  match ty.refinement with
  | some r =>
    .punct .lbrace :: (Token.ofName .ident r.name ++
      .punct .colon :: .ident ty.base.name :: .unknown '|' :: (r.predicate.tokens ++ [.punct .rbrace]))
  | none => [.ident ty.base.name]

/-- A type whose text is read as that type. -/
def Readable (ty : RefinedType) : Prop :=
  ∀ r, ty.refinement = some r → Token.isName r.name = true ∧ r.predicate.Readable

theorem scan_render (h : ty.Readable) {rest : List Char} (hrest : Stops isIdentRest rest) :
    Token.scan (ty.render.toList ++ rest) = ty.tokens ++ Token.scan rest := by
  obtain ⟨base, refinement⟩ := ty
  cases refinement with
  | none => exact BaseType.scan_name base hrest
  | some r =>
    obtain ⟨hname, hpred⟩ := h r rfl
    have htext : (RefinedType.mk base (some r)).render.toList ++ rest =
        '{' :: (r.name.toList ++ ':' :: (base.name.toList ++ ' ' :: '|' :: ' ' ::
          (r.predicate.render.toList ++ '}' :: rest))) := by
      simp [render]
    rw [htext, Token.scan_punct '{' .lbrace (by decide), Token.scan_isName hname (.cons rfl),
      Token.scan_punct ':' .colon (by decide), BaseType.scan_name base (.cons rfl), Token.scan_space, Token.scan_bar,
      Term.scan_render _ hpred.spelled (.cons rfl), Token.scan_punct '}' .rbrace (by decide)]
    simp [tokens]

theorem tokensOf_render (h : ty.Readable) : tokensOf ty.render = ty.tokens := by
  have hscan := scan_render h (Stops.nil (p := isIdentRest))
  rwa [List.append_nil, Token.scan_nil, List.append_nil] at hscan

end RefinedType

namespace Signature

def tokens (s : Signature) : List Token :=
  if s.args.isEmpty then .punct .arrow :: s.ret.tokens
  else s.args.flatMap (fun arg => arg.tokens ++ [.punct .arrow]) ++ s.ret.tokens

/-- A signature whose text is read as that signature. -/
def Readable (s : Signature) : Prop := (∀ arg ∈ s.args, arg.Readable) ∧ s.ret.Readable

theorem scan_args {args : List RefinedType} (h : ∀ arg ∈ args, arg.Readable) (rest : List Char) :
    Token.scan ((String.join (args.map fun arg => arg.render ++ " -> ")).toList ++ rest) =
      args.flatMap (fun arg => arg.tokens ++ [.punct .arrow]) ++ Token.scan rest := by
  induction args with
  | nil => rfl
  | cons arg args ih =>
    have htext : (String.join ((arg :: args).map fun arg => arg.render ++ " -> ")).toList ++ rest =
        arg.render.toList ++ ' ' :: '-' :: '>' :: ' ' ::
          ((String.join (args.map fun arg => arg.render ++ " -> ")).toList ++ rest) := by
      simp [String.join_cons]
    rw [htext, RefinedType.scan_render (h arg List.mem_cons_self) (.cons rfl), Token.scan_space, Token.scan_arrow,
      Token.scan_space, ih fun a ha => h a (List.mem_cons_of_mem _ ha)]
    simp

theorem tokensOf_render {s : Signature} (h : s.Readable) : tokensOf s.render = s.tokens := by
  have hret := RefinedType.tokensOf_render h.2
  rw [render, tokens]
  split
  next =>
    have htext : ("-> " ++ s.ret.render).toList = '-' :: '>' :: ' ' :: s.ret.render.toList := by simp
    rw [tokensOf_eq, htext, Token.scan_arrow, Token.scan_space]
    exact congrArg _ hret
  next =>
    rw [tokensOf_eq, String.toList_append, scan_args h.1]
    exact congrArg _ hret

end Signature

namespace LiquidType

def Readable : LiquidType → Prop
  | value ty => ty.Readable
  | function s => s.Readable

end LiquidType

/-! ### Reading types -/

namespace Reader

theorem reads_variableName (x : String) (rest : List Token) :
    Reads (variableName (Token.ofName .ident x ++ rest)) x rest := by
  rcases Token.ofName_cases .ident x with ⟨y, rfl, hname⟩ | hname
  · rw [hname]
    exact ⟨Nat.lt_succ_of_lt (Nat.lt_succ_self _), rfl⟩
  · rw [hname]
    exact ⟨Nat.lt_succ_self _, rfl⟩

theorem reads_refinedType (h : ty.Readable) (rest : List Token) :
    Reads (refinedType (ty.tokens ++ rest)) ty rest := by
  obtain ⟨base, refinement⟩ := ty
  cases refinement with
  | none => cases base <;> exact ⟨Nat.lt_succ_self _, rfl⟩
  | some r =>
    obtain ⟨hname, hpred⟩ := h r rfl
    have hclose : ∀ op rest', .punct .rbrace :: rest ≠ Token.op op :: rest' := by simp
    obtain ⟨h₁, hx⟩ := reads_variableName r.name
      (.punct .colon :: .ident base.name :: .unknown '|' :: (r.predicate.tokens ++ .punct .rbrace :: rest))
    obtain ⟨h₂, hp⟩ := reads_tokens hpred.ranged hclose
    rw [hpred.folded] at hp
    have htokens : (RefinedType.mk base (some r)).tokens ++ rest = .punct .lbrace :: (Token.ofName .ident r.name ++
        .punct .colon :: .ident base.name :: .unknown '|' :: (r.predicate.tokens ++ .punct .rbrace :: rest)) := by
      simp [RefinedType.tokens]
    rw [htokens]
    refine ⟨?_, ?_⟩
    · simp only [List.length_cons, List.length_append]
      omega
    · rw [refinedType, hx]
      cases base
      · change (term 0 _ >>= _) = _
        rw [hp]
        rfl
      · change (term 0 _ >>= _) = _
        rw [hp]
        rfl

theorem reads_typeChain_last {ts : List Token} (h : Reads (refinedType ts) ty []) :
    Reads (typeChain ts) [ty] [] := by
  obtain ⟨h₁, hread⟩ := h
  refine ⟨h₁, ?_⟩
  rw [typeChain, hread]
  rfl

theorem reads_typeChain_cons {ts : List Token} {tys : List RefinedType}
    (h : Reads (refinedType ts) ty (.punct .arrow :: rest)) (htys : Reads (typeChain rest) tys []) :
    Reads (typeChain ts) (ty :: tys) [] := by
  obtain ⟨h₁, hread⟩ := h
  obtain ⟨h₂, htys⟩ := htys
  refine ⟨Nat.lt_trans h₂ (Nat.lt_of_succ_lt h₁), ?_⟩
  rw [typeChain, hread]
  change (typeChain rest >>= _) = _
  rw [htys]
  rfl

theorem reads_typeChain {args : List RefinedType} (hargs : ∀ arg ∈ args, arg.Readable) (hret : ty.Readable) :
    Reads (typeChain (args.flatMap (fun arg => arg.tokens ++ [.punct .arrow]) ++ ty.tokens)) (args ++ [ty]) [] := by
  induction args with
  | nil =>
    have hread := reads_refinedType hret []
    rw [List.append_nil] at hread
    exact reads_typeChain_last hread
  | cons arg args ih =>
    have hread := reads_refinedType (hargs arg List.mem_cons_self)
      (.punct .arrow :: (args.flatMap (fun arg => arg.tokens ++ [.punct .arrow]) ++ ty.tokens))
    have htokens : (arg :: args).flatMap (fun arg => arg.tokens ++ [.punct .arrow]) ++ ty.tokens = arg.tokens ++
        .punct .arrow :: (args.flatMap (fun arg => arg.tokens ++ [.punct .arrow]) ++ ty.tokens) := by
      simp
    rw [htokens]
    exact reads_typeChain_cons hread (ih fun a ha => hargs a (List.mem_cons_of_mem _ ha))

theorem tokens_ne_arrow (ty : RefinedType) (ts rest : List Token) : ty.tokens ++ ts ≠ .punct .arrow :: rest := by
  obtain ⟨base, refinement⟩ := ty
  cases refinement <;> simp [RefinedType.tokens]

theorem liquidType_value (h : ty.Readable) : liquidType ty.tokens = .ok (.value ty) := by
  obtain ⟨_, hread⟩ : Reads (typeChain ty.tokens) [ty] [] := by
    have hread := reads_refinedType h []
    rw [List.append_nil] at hread
    exact reads_typeChain_last hread
  unfold liquidType
  split
  next rest heq => exact absurd heq (List.append_nil ty.tokens ▸ tokens_ne_arrow ty [] rest)
  next =>
    rw [hread]
    rfl

/-- Two or more types are the arguments of a function and its result. -/
theorem liquidType_chain {ts : List Token} (hts : ∀ rest, ts ≠ .punct .arrow :: rest) {args : List RefinedType}
    (hargs : args ≠ []) (h : Reads (typeChain ts) (args ++ [ty]) []) :
    liquidType ts = .ok (.function ⟨args, ty⟩) := by
  obtain ⟨h₁, hread⟩ := h
  have hlast : (args ++ [ty]).getLastD ⟨.int, none⟩ = ty := by simp
  unfold liquidType
  split
  next => exact absurd rfl (hts _)
  next =>
    rw [hread]
    cases args with
    | nil => exact absurd rfl hargs
    | cons arg args =>
      cases args with
      | nil => rfl
      | cons arg' args =>
        change Except.ok (LiquidType.function ⟨(arg :: arg' :: args ++ [ty]).dropLast,
          (arg :: arg' :: args ++ [ty]).getLastD ⟨.int, none⟩⟩) = _
        rw [List.dropLast_concat, hlast]

theorem liquidType_function {s : Signature} (h : s.Readable) : liquidType s.tokens = .ok (.function s) := by
  obtain ⟨args, ret⟩ := s
  cases args with
  | nil =>
    have hread := reads_refinedType h.2 []
    rw [List.append_nil] at hread
    obtain ⟨_, hread⟩ := hread
    change (refinedType ret.tokens >>= _) = _
    rw [hread]
    rfl
  | cons arg args =>
    have hchain := reads_typeChain h.1 h.2
    refine liquidType_chain (fun rest => ?_) (List.cons_ne_nil _ _) hchain
    change (arg :: args).flatMap _ ++ ret.tokens ≠ _
    rw [List.flatMap_cons, List.append_assoc, List.append_assoc]
    exact tokens_ne_arrow arg _ rest

/-! ### What reading types gives -/

theorem finds_baseType {ts : List Token} (h : ∀ u ∈ ts, u.Scanned) : Finds (fun _ => True) (baseType ts) := by
  intro base rest hr
  unfold baseType at hr
  split at hr
  next =>
    split at hr
    next =>
      cases hr
      exact ⟨trivial, scanned_tail h⟩
    next => cases hr
  next => cases hr

theorem finds_refinedType {ts : List Token} (h : ∀ u ∈ ts, u.Scanned) :
    Finds RefinedType.Readable (refinedType ts) := by
  intro ty rest hr
  unfold refinedType at hr
  split at hr
  next =>
    obtain ⟨⟨x, rest₁, h₁⟩, hx, hr⟩ := bind_eq_ok.1 hr
    obtain ⟨hx, hs₁⟩ := finds_variableName (scanned_tail h) _ _ hx
    obtain ⟨⟨rest₂, h₂⟩, hcolon, hr⟩ := bind_eq_ok.1 hr
    have hs₂ := scanned_expect hs₁ hcolon
    obtain ⟨⟨base, rest₃, h₃⟩, hbase, hr⟩ := bind_eq_ok.1 hr
    obtain ⟨-, hs₃⟩ := finds_baseType hs₂ _ _ hbase
    obtain ⟨⟨rest₄, h₄⟩, hbar, hr⟩ := bind_eq_ok.1 hr
    have hs₄ := scanned_expect hs₃ hbar
    obtain ⟨⟨p, rest₅, h₅⟩, hp, hr⟩ := bind_eq_ok.1 hr
    obtain ⟨hp, hs₅⟩ := finds_readable 0 hs₄ _ _ hp
    obtain ⟨⟨rest₆, h₆⟩, hclose, hr⟩ := bind_eq_ok.1 hr
    cases hr
    refine ⟨fun r hr => ?_, scanned_expect hs₅ hclose⟩
    cases hr
    exact ⟨hx, hp⟩
  next =>
    obtain ⟨⟨base, rest₁⟩, hbase, hr⟩ := bind_eq_ok.1 hr
    cases hr
    exact ⟨fun r hr => (by cases hr), (finds_baseType h _ _ hbase).2⟩

theorem finds_typeChain {n : Nat} {ts : List Token} (hn : ts.length ≤ n) (h : ∀ u ∈ ts, u.Scanned) :
    Finds (∀ ty ∈ ·, RefinedType.Readable ty) (typeChain ts) := by
  induction n generalizing ts with
  | zero =>
    intro tys rest hr
    obtain ⟨⟨_, _, h₁⟩, _⟩ := bind_eq_ok.1 (by rwa [typeChain] at hr)
    omega
  | succ n ih =>
    intro tys rest hr
    rw [typeChain] at hr
    obtain ⟨⟨ty, rest₁, h₁⟩, hty, hr⟩ := bind_eq_ok.1 hr
    obtain ⟨hreadable, hs₁⟩ := finds_refinedType h _ _ hty
    dsimp only at hr
    split at hr
    next rest₂ h₂ =>
      obtain ⟨⟨tys', rest₃, h₃⟩, htys, hr⟩ := bind_eq_ok.1 hr
      cases hr
      rw [List.length_cons] at h₂
      obtain ⟨htys, hs₃⟩ := ih (by omega) (scanned_tail hs₁) _ _ htys
      exact ⟨List.forall_mem_cons.2 ⟨hreadable, htys⟩, hs₃⟩
    next =>
      cases hr
      exact ⟨by simpa using hreadable, hs₁⟩

theorem readable_liquidType {ts : List Token} (h : ∀ u ∈ ts, u.Scanned) {T : LiquidType}
    (hr : liquidType ts = .ok T) : T.Readable := by
  unfold liquidType at hr
  split at hr
  next =>
    obtain ⟨⟨ret, rest₁⟩, hret, hr⟩ := bind_eq_ok.1 hr
    obtain ⟨hret, -⟩ := finds_refinedType (scanned_tail h) _ _ hret
    obtain ⟨_, -, hr⟩ := bind_eq_ok.1 hr
    cases hr
    exact ⟨fun arg harg => (by cases harg), hret⟩
  next =>
    obtain ⟨⟨types, rest₁⟩, htypes, hr⟩ := bind_eq_ok.1 hr
    obtain ⟨htypes, -⟩ := finds_typeChain (Nat.le_refl _) h _ _ htypes
    obtain ⟨_, -, hr⟩ := bind_eq_ok.1 hr
    split at hr
    next =>
      cases hr
      exact htypes _ List.mem_cons_self
    next =>
      cases hr
      refine ⟨fun arg harg => htypes arg ((List.dropLast_sublist types).mem harg), ?_⟩
      cases types with
      | nil => exact fun r hr => (by cases hr)
      | cons ty tys =>
        rw [List.getLastD_cons]
        exact htypes _ List.getLastD_mem_cons

end Reader

/-! ### Positional names -/

namespace Canonical

theorem isName_spelled_nameAt (i : Nat) : Token.isName (nameAt i) = true :=
  Token.isName_numbered ['r', 'g'] i (toList_nameAt i) rfl rfl

/-- A substitution that puts positional names in the place of names. -/
def Positions (σ : String → Option Term) : Prop := ∀ x t, σ x = some t → ∃ i, t = .var (nameAt i)

/-- A type with positional names in the place of names in its predicate, and possibly as its bound name. -/
def Repositioned (ty ty' : RefinedType) : Prop :=
  ∀ r', ty'.refinement = some r' → ∃ r, ty.refinement = some r ∧ (r'.name = r.name ∨ ∃ i, r'.name = nameAt i) ∧
    ∃ σ, Positions σ ∧ r'.predicate = r.predicate.subst σ

theorem Positions.insert {table : NameMap Term} (h : Positions table.get?) (x : String) (i : Nat) :
    Positions (table.insert x (.var (nameAt i))).get? := by
  intro y t hy
  rw [NameMap.get?_insert] at hy
  split at hy
  next =>
    cases hy
    exact ⟨i, rfl⟩
  next => exact h y t hy

theorem Positions.erase {table : NameMap Term} (h : Positions table.get?) (x : String) :
    Positions (table.erase x).get? := by
  intro y t hy
  rw [NameMap.get?_erase] at hy
  split at hy
  next => cases hy
  next => exact h y t hy

theorem positions_tableFrom {table : NameMap Term} (h : Positions table.get?) (position : Nat)
    (args : List RefinedType) : Positions (tableFrom position table args).get? := by
  induction args generalizing position table with
  | nil => exact h
  | cons arg args ih =>
    rw [tableFrom]
    split
    next => exact ih h _
    next r _ => exact ih (h.insert r.name position) _

theorem repositioned_argumentsFrom {table : NameMap Term} (h : Positions table.get?) {position : Nat}
    {args : List RefinedType} {refinements : List (Option Refinement)}
    (hr : argumentsFrom position table (args.map (·.refinement)) = .ok refinements) :
    ∀ arg' ∈ args.zipWith (fun arg refinement => ⟨arg.base, refinement⟩) refinements,
      ∃ arg ∈ args, Repositioned arg arg' := by
  induction args generalizing position table refinements with
  | nil => exact fun arg' h => (by cases h)
  | cons arg args ih =>
    rw [List.map_cons] at hr
    cases harg : arg.refinement with
    | none =>
      rw [harg] at hr
      obtain ⟨rest, hrest, hr⟩ := bind_eq_ok.1 hr
      cases hr
      intro arg' harg'
      rcases List.mem_cons.1 harg' with rfl | harg'
      · exact ⟨arg, List.mem_cons_self, fun r' hr' => (by cases hr')⟩
      · obtain ⟨a, ha, hre⟩ := ih h hrest arg' harg'
        exact ⟨a, List.mem_cons_of_mem _ ha, hre⟩
    | some r =>
      rw [harg] at hr
      obtain ⟨p, hp, hr⟩ := bind_eq_ok.1 hr
      obtain ⟨rest, hrest, hr⟩ := bind_eq_ok.1 hr
      cases hr
      have htable := h.insert r.name position
      intro arg' harg'
      rcases List.mem_cons.1 harg' with rfl | harg'
      · refine ⟨arg, List.mem_cons_self, fun r' hr' => ?_⟩
        cases hr'
        exact ⟨r, harg, .inr ⟨position, rfl⟩, _, htable, resolve_eq_ok hp⟩
      · obtain ⟨a, ha, hre⟩ := ih htable hrest arg' harg'
        exact ⟨a, List.mem_cons_of_mem _ ha, hre⟩

theorem repositioned_signature {function : String} {s s' : Signature} (h : signature function s = .ok s') :
    (∀ arg' ∈ s'.args, ∃ arg ∈ s.args, Repositioned arg arg') ∧ Repositioned s.ret s'.ret := by
  have hnil : Positions (NameMap.get? []) := fun x t hx => (by cases hx)
  obtain ⟨_, -, h⟩ := bind_eq_ok.1 h
  obtain ⟨refinements, hargs, h⟩ := bind_eq_ok.1 h
  obtain ⟨ret, hret, h⟩ := bind_eq_ok.1 h
  cases h
  refine ⟨repositioned_argumentsFrom hnil hargs, fun r' hr' => ?_⟩
  unfold result at hret
  split at hret
  next hnone =>
    cases hret
    rw [hnone] at hr'
    cases hr'
  next r hsome =>
    obtain ⟨p, hp, hret⟩ := bind_eq_ok.1 hret
    cases hret
    cases hr'
    exact ⟨r, hsome, .inl rfl, _, (positions_tableFrom hnil 0 s.args).erase r.name, resolve_eq_ok hp⟩

/-! ### Readability under positional names -/

theorem subst_var {σ : String → Option Term} (hσ : Positions σ) (x : String) :
    ∃ y, (Term.var x).subst σ = .var y ∧ (y = x ∨ ∃ i, y = nameAt i) := by
  rw [Term.subst]
  cases hx : σ x with
  | none => exact ⟨x, rfl, .inl rfl⟩
  | some t =>
    obtain ⟨i, rfl⟩ := hσ x t hx
    exact ⟨nameAt i, rfl, .inr ⟨i, rfl⟩⟩

/-- Names in the place of names are no literals, so no sign comes to stand in front of a literal. -/
theorem negated_subst {σ : String → Option Term} (hσ : Positions σ) (t : Term) :
    Reader.negated (t.subst σ) = (Reader.negated t).subst σ := by
  cases t with
  | var x =>
    obtain ⟨y, hy, -⟩ := subst_var hσ x
    change _ = Term.unary .neg ((Term.var x).subst σ)
    rw [hy]
    rfl
  | _ => rfl

/-- Reading term by term: a term whose names become positional stays readable. -/
theorem readable_subst {σ : String → Option Term} (hσ : Positions σ) {t : Term} (h : t.Readable) :
    (t.subst σ).Readable := by
  induction t with
  | var x =>
    obtain ⟨y, hy, hcase⟩ := subst_var hσ x
    rw [hy]
    rcases hcase with rfl | ⟨i, rfl⟩
    · exact h
    · exact .var (isName_spelled_nameAt i)
  | int n => exact h
  | bool b => exact h
  | unary op t ih =>
    cases op with
    | not => exact (ih h.of_not).not
    | neg =>
      obtain ⟨ht, hneg⟩ := h.of_neg
      rw [← hneg, ← negated_subst hσ]
      exact (ih ht).negated
  | binary op l r ihl ihr => exact .binary (ihl h.of_binary.1) (ihr h.of_binary.2)

theorem readable_of_repositioned {ty ty' : RefinedType} (hty : ty.Readable) (h : Repositioned ty ty') :
    ty'.Readable := by
  intro r' hr'
  obtain ⟨r, hr, hname, σ, hσ, hpred⟩ := h r' hr'
  obtain ⟨hrname, hrpred⟩ := hty r hr
  refine ⟨?_, hpred ▸ readable_subst hσ hrpred⟩
  rcases hname with hname | ⟨i, hname⟩
  · rwa [hname]
  · rw [hname]
    exact isName_spelled_nameAt i

theorem readable_signature {function : String} {s s' : Signature} (hs : s.Readable)
    (h : signature function s = .ok s') : s'.Readable := by
  obtain ⟨hargs, hret⟩ := repositioned_signature h
  refine ⟨fun arg' harg' => ?_, readable_of_repositioned hs.2 hret⟩
  obtain ⟨arg, harg, hre⟩ := hargs arg' harg'
  exact readable_of_repositioned (hs.1 arg harg) hre

end Canonical

/-! ### Texts -/

namespace LiquidType

theorem Readable.parse_render {T : LiquidType} (h : T.Readable) : parse T.render = .ok T := by
  cases T with
  | value ty =>
    change (Reader.liquidType (tokensOf ty.render)).mapError _ = _
    rw [RefinedType.tokensOf_render h, Reader.liquidType_value h]
    rfl
  | function s =>
    change (Reader.liquidType (tokensOf s.render)).mapError _ = _
    rw [Signature.tokensOf_render h, Reader.liquidType_function h]
    rfl

theorem readable_of_parse {text : String} {T : LiquidType} (h : parse text = .ok T) : T.Readable :=
  Reader.readable_liquidType (Token.scanned_tokensOf text) (mapError_eq_ok.1 h)

end LiquidType

/-- The text of a term is read as the term with the signs of its literals folded in. What was read from a text, and
what a signature becomes under positional names, is read back as it is. -/
theorem reading_rendered_text :
    (∀ t : Term, t.Spelled → (∀ n ∈ t.literals, -9223372036854775808 < n ∧ n < 9223372036854775808) →
      Term.parse t.render = .ok t.folded) ∧
    (∀ text t, Term.parse text = .ok t → Term.parse t.render = .ok t) ∧
    (∀ text T, LiquidType.parse text = .ok T → LiquidType.parse T.render = .ok T) ∧
    (∀ text function s s', LiquidType.parse text = .ok (.function s) → Canonical.signature function s = .ok s' →
      LiquidType.parse (LiquidType.function s').render = .ok (.function s')) := by
  refine ⟨fun t => Term.parse_render, fun text t h => (Term.readable_of_parse h).parse_render,
    fun text T h => (LiquidType.readable_of_parse h).parse_render, fun text function s s' h hcanonical => ?_⟩
  have hs : s.Readable := LiquidType.readable_of_parse h
  exact LiquidType.Readable.parse_render (T := .function s') (Canonical.readable_signature hs hcanonical)

def signedProduct : Term :=
  .binary .sub (.var "$v1") (.unary .neg (.binary .mul (.int (-3)) (.unary .neg (.int 2))))

/-- An argument above the one before it, and the result above both. -/
def risingText : String := "\x7bx:Int | x > 0\x7d -> \x7by:Int | y > x\x7d -> \x7bv:Int | v - y > -(-x)\x7d"

def rising : Signature where
  args := [⟨.int, some ⟨"x", .binary .gt (.var "x") (.int 0)⟩⟩,
    ⟨.int, some ⟨"y", .binary .gt (.var "y") (.var "x")⟩⟩]
  ret := ⟨.int, some ⟨"v",
    .binary .gt (.binary .sub (.var "v") (.var "y")) (.unary .neg (.unary .neg (.var "x")))⟩⟩

def risingPositions : Signature where
  args := [⟨.int, some ⟨"$arg0", .binary .gt (.var "$arg0") (.int 0)⟩⟩,
    ⟨.int, some ⟨"$arg1", .binary .gt (.var "$arg1") (.var "$arg0")⟩⟩]
  ret := ⟨.int, some ⟨"v",
    .binary .gt (.binary .sub (.var "v") (.var "$arg1")) (.unary .neg (.unary .neg (.var "$arg0")))⟩⟩

theorem reading_signedProduct_rising :
    Term.parse signedProduct.render =
      .ok (.binary .sub (.var "$v1") (.unary .neg (.binary .mul (.int (-3)) (.int (-2))))) ∧
    LiquidType.parse risingText = .ok (.function rising) ∧
    LiquidType.parse (LiquidType.function rising).render = .ok (.function rising) ∧
    LiquidType.parse (LiquidType.function risingPositions).render = .ok (.function risingPositions) := by
  have hparse : LiquidType.parse risingText = .ok (.function rising) := by cbv
  have hcanonical : Canonical.signature "f" rising = .ok risingPositions := by cbv
  have hspelled : ∀ x ∈ signedProduct.freeVars, Token.isName x = true := by decide
  obtain ⟨hterm, -, htype, hcanon⟩ := reading_rendered_text
  exact ⟨hterm signedProduct hspelled (by decide), hparse, htype risingText _ hparse,
    hcanon risingText "f" _ _ hparse hcanonical⟩

end LayerCheck
