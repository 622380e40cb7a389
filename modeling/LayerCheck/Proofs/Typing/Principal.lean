import Mathlib
import LayerCheck.Proofs.Term.Denotation
import LayerCheck.Typing.Primitive

/-! Principal types. Widening is a partial order in which two types with a common upper bound are comparable, so the
join of two types, where it is tried in both directions, is their least upper bound. The rules below give an
expression every type that it may be used at; inference finds the least of them, and fails only if there is none. -/
namespace LayerCheck

namespace BinaryOp

variable {op : BinaryOp}

theorem isLogical_iff : op.isLogical = true ↔ op ∈ [.and, .or] := by cases op <;> decide

theorem isArithmetic_iff : op.isArithmetic = true ↔ op ∈ [.add, .sub, .mul] := by cases op <;> decide

theorem isComparison_iff :
    op.isLogical = false ∧ op.isArithmetic = false ↔ op ∈ [.eq, .ne, .lt, .le, .gt, .ge] := by
  cases op <;> decide

end BinaryOp

/-! ### The order of types -/

namespace Widening

variable {a b c : String}

/-- The pairs of different types of which the first widens to the second. -/
def steps : List (String × String) := primitives.flatMap fun a => (wider a).map (a, ·)

theorem mem_wider_iff : b ∈ wider a ↔ (a, b) ∈ steps := by
  constructor
  · intro h
    unfold wider at h
    split at h <;> (simp only [List.mem_cons, List.not_mem_nil, or_false] at h)
    all_goals rcases h with rfl | rfl | rfl <;> decide
  · intro h
    obtain ⟨a', -, h⟩ := List.mem_flatMap.1 h
    obtain ⟨b', hb, heq⟩ := List.mem_map.1 h
    cases heq
    exact hb

theorem widens_iff : widens a b = true ↔ a = b ∨ (a, b) ∈ steps := by
  rw [widens, Bool.or_eq_true, beq_iff_eq, List.contains_iff_mem, mem_wider_iff]

@[simp] theorem widens_refl (a : String) : widens a a = true := widens_iff.2 (.inl rfl)

theorem widens_trans (hab : widens a b = true) (hbc : widens b c = true) : widens a c = true := by
  have chained : ∀ p ∈ steps, ∀ q ∈ steps, p.2 = q.1 → (p.1, q.2) ∈ steps := by decide
  rcases widens_iff.1 hab with rfl | hab
  · exact hbc
  · rcases widens_iff.1 hbc with rfl | hbc'
    · exact widens_iff.2 (.inr hab)
    · exact widens_iff.2 (.inr (chained _ hab _ hbc' rfl))

theorem widens_antisymm (hab : widens a b = true) (hba : widens b a = true) : a = b := by
  have oneWay : ∀ p ∈ steps, (p.2, p.1) ∉ steps := by decide
  rcases widens_iff.1 hab with rfl | hab
  · rfl
  · rcases widens_iff.1 hba with rfl | hba
    · rfl
    · exact absurd hba (oneWay _ hab)

/-- Of two types that widen to a third, one widens to the other. -/
theorem widens_total_of_common (hac : widens a c = true) (hbc : widens b c = true) :
    widens a b = true ∨ widens b a = true := by
  have linear : ∀ p ∈ steps, ∀ q ∈ steps, p.2 = q.2 → p.1 = q.1 ∨ (p.1, q.1) ∈ steps ∨ (q.1, p.1) ∈ steps := by
    decide
  rcases widens_iff.1 hac with rfl | hac'
  · exact .inr hbc
  · rcases widens_iff.1 hbc with rfl | hbc'
    · exact .inl hac
    · rcases linear _ hac' _ hbc' rfl with h | h | h
      · exact .inl (widens_iff.2 (.inl h))
      · exact .inl (widens_iff.2 (.inr h))
      · exact .inr (widens_iff.2 (.inr h))

/-- The join of two types is their least upper bound, and they have a join if they have any upper bound. -/
theorem join_widens_iff : (∃ j, join? a b = some j ∧ widens j c = true) ↔ widens a c = true ∧ widens b c = true := by
  unfold join?
  constructor
  · rintro ⟨j, hj, hjc⟩
    split at hj
    next hab =>
      cases hj
      exact ⟨widens_trans hab hjc, hjc⟩
    next =>
      split at hj
      next hba =>
        cases hj
        exact ⟨hjc, widens_trans hba hjc⟩
      next => cases hj
  · rintro ⟨hac, hbc⟩
    split
    next => exact ⟨b, rfl, hbc⟩
    next hab =>
      have hba : widens b a = true := (widens_total_of_common hac hbc).resolve_left hab
      exact ⟨a, if_pos hba, hac⟩

theorem isNumeric_eq_of_widens (h : widens a b = true) : isNumeric a = isNumeric b := by
  have numeric : ∀ p ∈ steps, isNumeric p.1 = true ∧ isNumeric p.2 = true := by decide
  rcases widens_iff.1 h with rfl | h
  · rfl
  · rw [(numeric _ h).1, (numeric _ h).2]

theorem widens_bool_iff : widens a "bool" = true ↔ a = "bool" := by
  have apart : ∀ p ∈ steps, p.2 ≠ "bool" := by decide
  rw [widens_iff]
  exact ⟨fun h => h.resolve_right fun h => apart _ h rfl, .inl⟩

end Widening

/-! ### The rules -/

namespace Primitive

open Widening

attribute [grind =] signatureFor unaryType binaryType typeOf checkArgs

/-- The types that an expression may be used at. The rule `widen` lets a value of one type stand for another; by the
others, a literal has the narrowest integer type, an argument the type of its parameter, the operands of a logical
operator are truth values, those of an arithmetic operator have one numeric type, and those of a comparison have
any one type. -/
inductive HasType (env : Env) : Expr → String → Prop
  | num (loc : Location) (value : Int) : HasType env (.num loc value) "byte"
  | bool (loc : Location) (value : Bool) : HasType env (.bool loc value) "bool"
  | ident {name ty : String} (loc : Location) (h : env.vars.get? name = some ty) : HasType env (.ident loc name) ty
  | call {callee ret : String} {params : List String} {args : List Expr} (loc : Location)
      (h : env.functions.get? callee = some (params ++ [ret])) (hlength : params.length = args.length)
      (hargs : ∀ p ∈ args.zip params, HasType env p.1 p.2) : HasType env (.call loc callee args) ret
  | not {e : Expr} (loc : Location) (h : HasType env e "bool") : HasType env (.unary loc .not e) "bool"
  | neg {e : Expr} {ty : String} (loc : Location) (hnum : isNumeric ty = true) (h : HasType env e ty) :
      HasType env (.unary loc .neg e) ty
  | logical {op : BinaryOp} {e e' : Expr} (loc : Location) (hop : op ∈ [.and, .or]) (h : HasType env e "bool")
      (h' : HasType env e' "bool") : HasType env (.binary loc op e e') "bool"
  | arithmetic {op : BinaryOp} {e e' : Expr} {ty : String} (loc : Location) (hop : op ∈ [.add, .sub, .mul])
      (hnum : isNumeric ty = true) (h : HasType env e ty) (h' : HasType env e' ty) :
      HasType env (.binary loc op e e') ty
  | comparison {op : BinaryOp} {e e' : Expr} {ty : String} (loc : Location)
      (hop : op ∈ [.eq, .ne, .lt, .le, .gt, .ge]) (h : HasType env e ty) (h' : HasType env e' ty) :
      HasType env (.binary loc op e e') "bool"
  | widen {e : Expr} {ty ty' : String} (h : HasType env e ty) (hw : widens ty ty' = true) : HasType env e ty'

/-- Inference gives an expression a type that widens to `ty`. -/
def Infers (env : Env) (e : Expr) (ty : String) : Prop := ∃ s, typeOf env e = .ok s ∧ widens s ty = true

variable {env : Env} {loc : Location} {op : BinaryOp} {e e' : Expr} {args : List Expr} {ty : String}

/-! ### What inference accepts, one construct at a time -/

theorem infers_ok {e : Expr} {s : String} (h : typeOf env e = .ok s) : Infers env e ty ↔ widens s ty = true := by
  constructor
  · rintro ⟨s', hs, hw⟩
    cases h.symm.trans hs
    exact hw
  · exact fun hw => ⟨s, h, hw⟩

theorem infers_ident {name : String} :
    Infers env (.ident loc name) ty ↔ ∃ s, env.vars.get? name = some s ∧ widens s ty = true := by
  unfold Infers
  rw [typeOf]
  split
  next s hs => simp [hs]
  next hs => simp [hs]

theorem unaryType_not_eq_ok {s r : String} : unaryType .not s loc = .ok r ↔ s = "bool" ∧ r = "bool" := by
  dsimp only [unaryType]
  split
  next hs => simp [hs, eq_comm]
  next hs => simp [hs]

theorem unaryType_neg_eq_ok {s r : String} : unaryType .neg s loc = .ok r ↔ isNumeric s = true ∧ r = s := by
  dsimp only [unaryType]
  split
  next hs => simp [hs, eq_comm]
  next hs => simp [hs]

theorem infers_not : Infers env (.unary loc .not e) ty ↔ Infers env e "bool" ∧ widens "bool" ty = true := by
  unfold Infers
  simp only [typeOf, bind_eq_ok, unaryType_not_eq_ok, widens_bool_iff]
  grind

theorem infers_neg : Infers env (.unary loc .neg e) ty ↔ isNumeric ty = true ∧ Infers env e ty := by
  unfold Infers
  simp only [typeOf, bind_eq_ok, unaryType_neg_eq_ok]
  constructor
  · rintro ⟨_, ⟨s, hs, hnum, rfl⟩, hw⟩
    exact ⟨isNumeric_eq_of_widens hw ▸ hnum, _, hs, hw⟩
  · rintro ⟨hnum, s, hs, hw⟩
    exact ⟨s, ⟨s, hs, (isNumeric_eq_of_widens hw).trans hnum, rfl⟩, hw⟩

section Binary

variable {lhs rhs : String × Location} {r : String}

theorem binaryType_logical_eq_ok (hop : op.isLogical = true) :
    binaryType op lhs rhs loc = .ok r ↔ lhs.1 = "bool" ∧ rhs.1 = "bool" ∧ r = "bool" := by
  rw [binaryType, if_pos hop]
  by_cases hl : lhs.1 = "bool"
  · by_cases hr : rhs.1 = "bool"
    · simp [hl, hr, eq_comm]
    · simp [hl, hr]
  · simp [hl]

theorem binaryType_arithmetic_eq_ok (hop : op.isArithmetic = true) :
    binaryType op lhs rhs loc = .ok r ↔ join? lhs.1 rhs.1 = some r ∧ isNumeric r = true := by
  have hlogical : op.isLogical = false := by
    revert hop
    cases op <;> decide
  rw [binaryType, if_neg (by simp [hlogical])]
  split
  next hj => simp [hj]
  next joined hj =>
    simp only [hop, hj, Bool.not_true, Bool.false_eq_true, if_false, Option.some.injEq]
    constructor
    · intro h
      split at h
      next hnum =>
        cases h
        exact ⟨rfl, hnum⟩
      next => cases h
    · rintro ⟨rfl, hnum⟩
      exact if_pos hnum

theorem binaryType_comparison_eq_ok (hlogical : op.isLogical = false) (harithmetic : op.isArithmetic = false) :
    binaryType op lhs rhs loc = .ok r ↔ (join? lhs.1 rhs.1).isSome = true ∧ r = "bool" := by
  rw [binaryType, if_neg (by simp [hlogical])]
  split
  next hj => simp [hj]
  next joined hj => simp [harithmetic, hj, eq_comm]

end Binary

theorem typeOf_binary_eq_ok {r : String} : typeOf env (.binary loc op e e') = .ok r ↔
    ∃ s, typeOf env e = .ok s ∧ ∃ s', typeOf env e' = .ok s' ∧ binaryType op (s, e.loc) (s', e'.loc) loc = .ok r := by
  simp only [typeOf, bind_eq_ok]

theorem infers_logical (hop : op.isLogical = true) : Infers env (.binary loc op e e') ty ↔
    Infers env e "bool" ∧ Infers env e' "bool" ∧ widens "bool" ty = true := by
  unfold Infers
  simp only [typeOf_binary_eq_ok, binaryType_logical_eq_ok hop, widens_bool_iff]
  grind

theorem infers_arithmetic (hop : op.isArithmetic = true) : Infers env (.binary loc op e e') ty ↔
    isNumeric ty = true ∧ Infers env e ty ∧ Infers env e' ty := by
  unfold Infers
  simp only [typeOf_binary_eq_ok, binaryType_arithmetic_eq_ok hop]
  constructor
  · rintro ⟨r, ⟨s, hs, s', hs', hj, hnum⟩, hw⟩
    obtain ⟨hl, hr⟩ := join_widens_iff.1 ⟨r, hj, hw⟩
    exact ⟨isNumeric_eq_of_widens hw ▸ hnum, ⟨s, hs, hl⟩, s', hs', hr⟩
  · rintro ⟨hnum, ⟨s, hs, hl⟩, s', hs', hr⟩
    obtain ⟨r, hj, hw⟩ := join_widens_iff.2 ⟨hl, hr⟩
    exact ⟨r, ⟨s, hs, s', hs', hj, (isNumeric_eq_of_widens hw).trans hnum⟩, hw⟩

theorem infers_comparison (hlogical : op.isLogical = false) (harithmetic : op.isArithmetic = false) :
    Infers env (.binary loc op e e') ty ↔
      (∃ common, Infers env e common ∧ Infers env e' common) ∧ widens "bool" ty = true := by
  unfold Infers
  simp only [typeOf_binary_eq_ok, binaryType_comparison_eq_ok hlogical harithmetic, Option.isSome_iff_exists]
  constructor
  · rintro ⟨r, ⟨s, hs, s', hs', ⟨j, hj⟩, rfl⟩, hw⟩
    obtain ⟨hl, hr⟩ := join_widens_iff.1 ⟨j, hj, widens_refl j⟩
    exact ⟨⟨j, ⟨s, hs, hl⟩, s', hs', hr⟩, hw⟩
  · rintro ⟨⟨common, ⟨s, hs, hl⟩, s', hs', hr⟩, hw⟩
    obtain ⟨j, hj, -⟩ := join_widens_iff.2 ⟨hl, hr⟩
    exact ⟨"bool", ⟨s, hs, s', hs', ⟨j, hj⟩, rfl⟩, hw⟩

/-! ### Calls -/

theorem signatureFor_eq_ok {function ret : String} {count : Nat} {params : List String} :
    signatureFor env function count loc = .ok (params, ret) ↔
      env.functions.get? function = some (params ++ [ret]) ∧ params.length = count := by
  unfold signatureFor
  split
  next hf => simp [hf]
  next names hf =>
    split
    next hlast => simp_all
    next last hlast =>
      obtain ⟨init, rfl⟩ := List.getLast?_eq_some_iff.1 hlast
      simp only [List.dropLast_concat, Option.some.injEq, List.append_singleton_inj, ne_eq, hf]
      constructor
      · intro h
        split at h
        next => cases h
        next hcount =>
          cases h
          exact ⟨⟨rfl, rfl⟩, Decidable.not_not.1 hcount⟩
      · rintro ⟨⟨rfl, rfl⟩, hcount⟩
        exact if_neg (not_not_intro hcount)

theorem checkArgs_eq_ok {params : List String} (hlength : params.length = args.length) :
    checkArgs env args params = .ok () ↔ ∀ p ∈ args.zip params, Infers env p.1 p.2 := by
  induction args generalizing params with
  | nil => simp [checkArgs]
  | cons arg args ih =>
    obtain _ | ⟨param, params⟩ := params
    · cases hlength
    · have hrest : params.length = args.length := Nat.succ.inj hlength
      simp only [checkArgs, bind_eq_ok, List.zip_cons_cons, List.forall_mem_cons, ← ih hrest]
      unfold Infers
      constructor
      · rintro ⟨s, hs, h⟩
        split at h
        next hw => exact ⟨⟨s, hs, hw⟩, h⟩
        next => cases h
      · rintro ⟨⟨s, hs, hw⟩, h⟩
        exact ⟨s, hs, (if_pos hw).trans h⟩

theorem typeOf_call_eq_ok {callee r : String} : typeOf env (.call loc callee args) = .ok r ↔
    ∃ params, env.functions.get? callee = some (params ++ [r]) ∧ params.length = args.length ∧
      ∀ p ∈ args.zip params, Infers env p.1 p.2 := by
  rw [typeOf, bind_eq_ok]
  constructor
  · rintro ⟨⟨params, ret⟩, hsig, h⟩
    obtain ⟨hf, hlength⟩ := signatureFor_eq_ok.1 hsig
    obtain ⟨_, hargs, h⟩ := bind_eq_ok.1 h
    cases h
    exact ⟨params, hf, hlength, (checkArgs_eq_ok hlength).1 hargs⟩
  · rintro ⟨params, hf, hlength, hargs⟩
    exact ⟨(params, r), signatureFor_eq_ok.2 ⟨hf, hlength⟩,
      bind_eq_ok.2 ⟨(), (checkArgs_eq_ok hlength).2 hargs, rfl⟩⟩

theorem infers_call {callee : String} : Infers env (.call loc callee args) ty ↔
    ∃ params ret, env.functions.get? callee = some (params ++ [ret]) ∧ params.length = args.length ∧
      (∀ p ∈ args.zip params, Infers env p.1 p.2) ∧ widens ret ty = true := by
  rw [Infers]
  simp only [typeOf_call_eq_ok]
  constructor
  · rintro ⟨ret, ⟨params, hf, hlength, hargs⟩, hw⟩
    exact ⟨params, ret, hf, hlength, hargs, hw⟩
  · rintro ⟨params, ret, hf, hlength, hargs, hw⟩
    exact ⟨ret, ⟨params, hf, hlength, hargs⟩, hw⟩

/-! ### Inference and the rules -/

/-- Whatever the rules allow, inference allows. -/
theorem HasType.infers (h : HasType env e ty) : Infers env e ty := by
  induction h with
  | num loc value => exact ⟨"byte", by rw [typeOf], widens_refl _⟩
  | bool loc value => exact ⟨"bool", by rw [typeOf], widens_refl _⟩
  | ident loc h => exact infers_ident.2 ⟨_, h, widens_refl _⟩
  | call loc h hlength _ ih => exact infers_call.2 ⟨_, _, h, hlength, ih, widens_refl _⟩
  | not loc _ ih => exact infers_not.2 ⟨ih, widens_refl _⟩
  | neg loc hnum _ ih => exact infers_neg.2 ⟨hnum, ih⟩
  | logical loc hop _ _ ih ih' =>
    exact (infers_logical (BinaryOp.isLogical_iff.2 hop)).2 ⟨ih, ih', widens_refl _⟩
  | arithmetic loc hop hnum _ _ ih ih' =>
    exact (infers_arithmetic (BinaryOp.isArithmetic_iff.2 hop)).2 ⟨hnum, ih, ih'⟩
  | comparison loc hop _ _ ih ih' =>
    obtain ⟨hlogical, harithmetic⟩ := BinaryOp.isComparison_iff.2 hop
    exact (infers_comparison hlogical harithmetic).2 ⟨⟨_, ih, ih'⟩, widens_refl _⟩
  | widen _ hw ih =>
    obtain ⟨s, hs, hs'⟩ := ih
    exact ⟨s, hs, widens_trans hs' hw⟩

mutual

/-- Whatever inference allows, the rules allow. -/
theorem hasType_of_infers (e : Expr) {ty : String} (h : Infers env e ty) : HasType env e ty := by
  cases e with
  | num loc value => exact .widen (.num loc value) ((infers_ok (by rw [typeOf])).1 h)
  | bool loc value => exact .widen (.bool loc value) ((infers_ok (by rw [typeOf])).1 h)
  | ident loc name =>
    obtain ⟨s, hs, hw⟩ := infers_ident.1 h
    exact .widen (.ident loc hs) hw
  | call loc callee args =>
    obtain ⟨params, ret, hf, hlength, hargs, hw⟩ := infers_call.1 h
    exact .widen (.call loc hf hlength (hasType_of_infers_zip args params hargs)) hw
  | unary loc op operand =>
    cases op with
    | not =>
      obtain ⟨ho, hw⟩ := infers_not.1 h
      exact .widen (.not loc (hasType_of_infers operand ho)) hw
    | neg =>
      obtain ⟨hnum, ho⟩ := infers_neg.1 h
      exact .neg loc hnum (hasType_of_infers operand ho)
  | binary loc op lhs rhs =>
    cases hlogical : op.isLogical with
    | true =>
      obtain ⟨hl, hr, hw⟩ := (infers_logical hlogical).1 h
      have hop := BinaryOp.isLogical_iff.1 hlogical
      exact .widen (.logical loc hop (hasType_of_infers lhs hl) (hasType_of_infers rhs hr)) hw
    | false =>
      cases harithmetic : op.isArithmetic with
      | true =>
        obtain ⟨hnum, hl, hr⟩ := (infers_arithmetic harithmetic).1 h
        have hop := BinaryOp.isArithmetic_iff.1 harithmetic
        exact .arithmetic loc hop hnum (hasType_of_infers lhs hl) (hasType_of_infers rhs hr)
      | false =>
        obtain ⟨⟨common, hl, hr⟩, hw⟩ := (infers_comparison hlogical harithmetic).1 h
        have hop := BinaryOp.isComparison_iff.1 ⟨hlogical, harithmetic⟩
        exact .widen (.comparison loc hop (hasType_of_infers lhs hl) (hasType_of_infers rhs hr)) hw
  | malformed loc kind =>
    obtain ⟨s, hs, -⟩ := h
    rw [typeOf] at hs
    cases hs

theorem hasType_of_infers_zip (args : List Expr) (params : List String)
    (h : ∀ p ∈ args.zip params, Infers env p.1 p.2) : ∀ p ∈ args.zip params, HasType env p.1 p.2 := by
  match args, params with
  | [], _ => exact fun p hp => (by cases hp)
  | _ :: _, [] => exact fun p hp => (by cases hp)
  | arg :: args, param :: params =>
    rw [List.zip_cons_cons, List.forall_mem_cons] at h ⊢
    exact ⟨hasType_of_infers arg h.1, hasType_of_infers_zip args params h.2⟩

end

/-- Inference finds principal types. The types that the rules give an expression are those to which its inferred type
widens, so that the inferred type is the least of them; inference fails exactly where there are none. -/
theorem typeOf_principal (env : Env) (e : Expr) :
    (∀ ty, HasType env e ty ↔ ∃ s, typeOf env e = .ok s ∧ widens s ty = true) ∧
      (∀ s, typeOf env e = .ok s ↔ HasType env e s ∧ ∀ ty, HasType env e ty → widens s ty = true) ∧
      ((∃ f, typeOf env e = .error f) ↔ ∀ ty, ¬ HasType env e ty) := by
  have hiff : ∀ ty, HasType env e ty ↔ Infers env e ty := fun ty => ⟨HasType.infers, hasType_of_infers e⟩
  refine ⟨hiff, fun s => ⟨?_, ?_⟩, ⟨?_, ?_⟩⟩
  · intro hs
    exact ⟨(hiff s).2 ⟨s, hs, widens_refl s⟩, fun ty hty => (infers_ok hs).1 hty.infers⟩
  · rintro ⟨hs, hleast⟩
    -- The inferred type is a least one too, and least types are equal.
    obtain ⟨s', hs', hw⟩ := hs.infers
    have hw' : widens s s' = true := hleast s' ((hiff s').2 ⟨s', hs', widens_refl s'⟩)
    rw [hs', widens_antisymm hw hw']
  · rintro ⟨f, hf⟩ ty hty
    obtain ⟨s, hs, -⟩ := hty.infers
    cases hf.symm.trans hs
  · intro hnone
    cases htype : typeOf env e with
    | error f => exact ⟨f, rfl⟩
    | ok s => exact absurd ((hiff s).2 ⟨s, htype, widens_refl s⟩) (hnone s)

end Primitive

end LayerCheck
