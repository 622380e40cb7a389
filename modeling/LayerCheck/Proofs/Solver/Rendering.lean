import Mathlib
import LayerCheck.Proofs.Term.Distinct
import LayerCheck.Solver.Query

/-! The text of a query tells which query it is, up to the spelling of negations. -/
namespace LayerCheck

/-- Lists of coded values in front of a stop that begins no code. -/
theorem forall₂_of_flatMap_append {α β : Type} {P : α → Prop} {R : α → α → Prop} {code : α → List β} {stop : β}
    (hcode : ∀ {a a' r r'}, P a → P a' → code a ++ r = code a' ++ r' → R a a' ∧ r = r')
    (hstop : ∀ a r r', code a ++ r ≠ stop :: r') {as as' : List α} (has : ∀ a ∈ as, P a) (has' : ∀ a ∈ as', P a)
    {rest rest' : List β} (h : as.flatMap code ++ stop :: rest = as'.flatMap code ++ stop :: rest') :
    List.Forall₂ R as as' ∧ rest = rest' := by
  induction as generalizing as' with
  | nil =>
    cases as' with
    | nil =>
      injection h with _ h
      exact ⟨.nil, h⟩
    | cons a as' =>
      rw [List.flatMap_cons, List.append_assoc] at h
      exact absurd h.symm (hstop _ _ _)
  | cons a as ih =>
    rw [List.flatMap_cons, List.append_assoc] at h
    cases as' with
    | nil => exact absurd h (hstop _ _ _)
    | cons a' as' =>
      rw [List.flatMap_cons, List.append_assoc] at h
      obtain ⟨hhead, htail⟩ := hcode (has a List.mem_cons_self) (has' a' List.mem_cons_self) h
      obtain ⟨hall, hrest⟩ := ih (fun b hb => has b (List.mem_cons_of_mem _ hb))
        (fun b hb => has' b (List.mem_cons_of_mem _ hb)) htail
      exact ⟨.cons hhead hall, hrest⟩

namespace Token

theorem ofWord_injective {x y : String} (h : ofWord x = ofWord y) : x = y := by
  have hspelling : ∀ {z : String} {k : Keyword}, Keyword.ofSpelling? z = some k → k.spelling = z := by
    intro z k hk
    simpa using List.find?_some hk
  unfold ofWord at h
  split at h <;> split at h
  next hx _ _ hy =>
    injection h with h
    rw [← hspelling hx, ← hspelling hy, h]
  next => cases h
  next => cases h
  next => injection h

theorem ofWord_ne_unknown (x : String) (c : Char) : ofWord x ≠ unknown c := by
  unfold ofWord
  split <;> simp

theorem ofName_append_inj {x y : String} {rest rest' : List Token}
    (h : ofName ofWord x ++ rest = ofName ofWord y ++ rest') : x = y ∧ rest = rest' := by
  rcases ofName_cases ofWord x with ⟨x', hx, hcx⟩ | hcx <;> rcases ofName_cases ofWord y with ⟨y', hy, hcy⟩ | hcy <;>
    rw [hcx, hcy] at h
  · injection h with _ h
    injection h with hw h
    rw [hx, hy, ofWord_injective hw]
    exact ⟨rfl, h⟩
  · injection h with hw _
    exact absurd hw.symm (ofWord_ne_unknown _ _)
  · injection h with hw _
    exact absurd hw (ofWord_ne_unknown _ _)
  · injection h with hw h
    exact ⟨ofWord_injective hw, h⟩

theorem scan_implies (cs : List Char) : scan ('=' :: '>' :: ' ' :: cs) = punct .assign :: Token.op .gt :: scan cs := by
  have hassign : scan ('=' :: '>' :: ' ' :: cs) = punct .assign :: scan ('>' :: ' ' :: cs) :=
    scan_mark rfl (by decide) rfl rfl _
  rw [hassign]
  exact congrArg _ (scan_operator .gt cs)

end Token

namespace Query

variable {q q' : Query} {L N : Int → Prop}

def bindingTokens (b : Binding) : List Token :=
  Token.ofName Token.ofWord b.name ++ [.punct .colon, .ident b.base.name]

def premiseTokens (p : Term) : List Token := .punct .lparen :: (p.tokens ++ [.punct .rparen, .op .and])

def tokens (q : Query) : List Token :=
  .ident "forall" :: (q.bindings.flatMap bindingTokens ++ .unknown '.' :: (q.premises.flatMap premiseTokens ++
    .keyword .trueKw :: .punct .assign :: .op .gt :: q.conclusion.tokens))

/-- A query over names that can be written, with literals in `L` and minus signs in front of literals in `N` only. -/
structure Legible (L N : Int → Prop) (q : Query) : Prop where
  bindings : ∀ b ∈ q.bindings, Token.isWord (Token.bare b.name) = true
  premises : ∀ p ∈ q.premises, p.Legible L N
  conclusion : q.conclusion.Legible L N

/-- Queries that differ at most in how they spell the negations of numbers in `V`. -/
structure Alike (V : Int → Prop) (q q' : Query) : Prop where
  bindings : q.bindings = q'.bindings
  premises : List.Forall₂ (Term.Alike V) q.premises q'.premises
  conclusion : Term.Alike V q.conclusion q'.conclusion

theorem Alike.symm {V : Int → Prop} (h : Alike V q q') : Alike V q' q :=
  ⟨h.bindings.symm, List.Forall₂.flip (h.premises.imp fun _ _ ht => ht.symm), h.conclusion.symm⟩

theorem Alike.eq {V : Int → Prop} (h : Alike V q q') (hV : ∀ n, 0 < n → ¬ V n) : q = q' := by
  obtain ⟨bs, ps, p⟩ := q
  obtain ⟨bs', ps', p'⟩ := q'
  have hpremises : ps = ps' := List.forall₂_eq_eq_eq ▸ h.premises.imp fun _ _ ht => ht.eq hV
  cases h.bindings
  cases hpremises
  cases h.conclusion.eq hV
  rfl

def bindingsText (bs : List Binding) : String := String.join (bs.map fun b => " " ++ b.name ++ ":" ++ b.base.name)

theorem scan_bindings {bs : List Binding} (h : ∀ b ∈ bs, Token.isWord (Token.bare b.name) = true)
    {rest : List Char} (hrest : Stops isIdentRest rest) :
    Token.scan ((bindingsText bs).toList ++ rest) = bs.flatMap bindingTokens ++ Token.scan rest ∧
      Stops isIdentRest ((bindingsText bs).toList ++ rest) := by
  induction bs with
  | nil => exact ⟨rfl, hrest⟩
  | cons b bs ih =>
    obtain ⟨hscan, hstops⟩ := ih fun b' hb' => h b' (List.mem_cons_of_mem _ hb')
    have htext : (bindingsText (b :: bs)).toList ++ rest = ' ' :: (b.name.toList ++ ':' :: (b.base.name.toList ++
        ((bindingsText bs).toList ++ rest))) := by
      simp [bindingsText, String.join_cons]
    rw [htext]
    refine ⟨?_, .cons rfl⟩
    rw [Token.scan_space, Token.scan_name (h b List.mem_cons_self) (.cons rfl),
      Token.scan_punct ':' .colon (by decide), BaseType.scan_name b.base hstops, hscan]
    simp [bindingTokens]

theorem scan_premises {ps : List Term} (h : ∀ p ∈ ps, p.Spelled) (rest : List Char) :
    Token.scan ((String.join (ps.map fun p => "(" ++ p.render ++ ") && ")).toList ++ rest) =
      ps.flatMap premiseTokens ++ Token.scan rest := by
  induction ps with
  | nil => rfl
  | cons p ps ih =>
    have htext : (String.join ((p :: ps).map fun p => "(" ++ p.render ++ ") && ")).toList ++ rest =
        '(' :: (p.render.toList ++ ')' :: ' ' :: (BinaryOp.and.symbol.toList ++
          ' ' :: ((String.join (ps.map fun p => "(" ++ p.render ++ ") && ")).toList ++ rest))) := by
      simp [String.join_cons, BinaryOp.symbol]
    rw [htext, Token.scan_punct '(' .lparen (by decide), Term.scan_render p (h p List.mem_cons_self) (.cons rfl),
      Token.scan_punct ')' .rparen (by decide), Token.scan_space, Token.scan_operator,
      ih fun p' hp' => h p' (List.mem_cons_of_mem _ hp')]
    simp [premiseTokens]

theorem scan_render (h : q.Legible L N) : Token.scan q.render.toList = q.tokens := by
  have htext : q.render.toList = "forall".toList ++ ((bindingsText q.bindings).toList ++ '.' :: ' ' ::
      ((String.join (q.premises.map fun p => "(" ++ p.render ++ ") && ")).toList ++
        ("true".toList ++ ' ' :: '=' :: '>' :: ' ' :: q.conclusion.render.toList))) := by
    simp [render, bindingsText]
  have hconclusion := q.conclusion.scan_render h.conclusion.spelled (Stops.nil (p := isIdentRest))
  rw [List.append_nil, Token.scan_nil, List.append_nil] at hconclusion
  obtain ⟨hbindings, hstops⟩ := scan_bindings h.bindings (Stops.cons (c := '.') rfl)
  rw [htext, Token.scan_isWord rfl hstops, hbindings, Token.scan_unknown (.inr rfl), Token.scan_space,
    scan_premises fun p hp => (h.premises p hp).spelled, Token.scan_isWord rfl (.cons rfl), Token.scan_space,
    Token.scan_implies, hconclusion]
  rfl

theorem eq_of_bindingTokens {b b' : Binding} {r r' : List Token}
    (h : bindingTokens b ++ r = bindingTokens b' ++ r') : b = b' ∧ r = r' := by
  rw [bindingTokens, bindingTokens, List.append_assoc, List.append_assoc] at h
  obtain ⟨hname, h⟩ := Token.ofName_append_inj h
  injection h with _ h
  injection h with hbase h
  injection hbase with hbase
  obtain ⟨x, base⟩ := b
  obtain ⟨x', base'⟩ := b'
  cases base <;> cases base' <;> simp_all [BaseType.name]

theorem bindingTokens_ne_unknown (b : Binding) (r r' : List Token) : bindingTokens b ++ r ≠ .unknown '.' :: r' := by
  intro h
  rcases Token.ofName_cases Token.ofWord b.name with ⟨_, -, hcode⟩ | hcode <;> rw [bindingTokens, hcode] at h
  · injection h with h _
    injection h with h
    cases h
  · injection h with h _
    exact Token.ofWord_ne_unknown _ _ h

theorem alike_of_premiseTokens {p p' : Term} {r r' : List Token} (hp : p.Legible L N) (hp' : p'.Legible L N)
    (h : premiseTokens p ++ r = premiseTokens p' ++ r') : Term.Alike (fun n => L (-n) ∧ N n) p p' ∧ r = r' := by
  rw [premiseTokens, premiseTokens, List.cons_append, List.cons_append, List.append_assoc, List.append_assoc] at h
  injection h with _ h
  obtain ⟨halike, h⟩ := hp.alike_of_tokens hp' (by simp) (by simp) h
  exact ⟨halike, by simpa using h⟩

/-- Queries with one text differ at most in how they spell the negations of numbers that occur in both ways. -/
theorem Legible.alike_of_render (h : q.Legible L N) (h' : q'.Legible L N) (heq : q.render = q'.render) :
    Alike (fun n => L (-n) ∧ N n) q q' := by
  have htokens : q.tokens = q'.tokens := by rw [← scan_render h, ← scan_render h', heq]
  injection htokens with _ htokens
  obtain ⟨hbindings, htokens⟩ := forall₂_of_flatMap_append (P := fun _ => True)
    (fun _ _ => eq_of_bindingTokens) bindingTokens_ne_unknown (fun _ _ => trivial) (fun _ _ => trivial) htokens
  obtain ⟨hpremises, htokens⟩ := forall₂_of_flatMap_append alike_of_premiseTokens (by simp [premiseTokens])
    h.premises h'.premises htokens
  injection htokens with _ htokens
  injection htokens with _ htokens
  have htokens : q.conclusion.tokens ++ [] = q'.conclusion.tokens ++ [] := congrArg (· ++ []) htokens
  obtain ⟨hconclusion, -⟩ := h.conclusion.alike_of_tokens h'.conclusion (by simp) (by simp) htokens
  exact ⟨List.forall₂_eq_eq_eq ▸ hbindings, hpremises, hconclusion⟩

end Query

end LayerCheck
