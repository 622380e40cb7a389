import Mathlib
import LayerCheck.Proofs.Solver.Reconstruction
import LayerCheck.Proofs.Solver.Refutation

/-! Linear comparisons are read without loss. Over typed terms whose comparisons all have a linear form, a
model that solves one of the cases of a predicate gives it the truth value that the cases were made for,
so reading a predicate as alternatives is exact there and not only a cover. -/
namespace LayerCheck

/-- Exactly the names in `flags` are boolean. -/
def Bases.Flags (Γ : Bases) (flags : List String) : Prop := ∀ x, flags.contains x = true ↔ Γ x = some .bool

/-! ### Models -/

namespace Model

/-- The value of a binding in a model: zero or false where the model gives none. -/
def valueOf (m : Model) (b : Binding) : Value :=
  match b.base with
  | .int => .int (Linear.reading m.ints b.name)
  | .bool => .bool ((m.bools.get? b.name).getD false)

def env (m : Model) (bs : List Binding) : Env := bs.map fun b => (b.name, m.valueOf b)

/-- The values of all names, of which those in `flags` have truth values. -/
def valuation (m : Model) (flags : List String) : Valuation := fun x =>
  some (m.valueOf ⟨x, if flags.contains x then .bool else .int⟩)

def Satisfies (m : Model) : Atom → Prop
  | .atMostZero e => e.value (Linear.reading m.ints) ≤ 0
  | .flag x b => (m.bools.get? x).getD false = b

/-- A model satisfies one of some cases. -/
def Solves (m : Model) (cs : Cases) : Prop := ∃ c ∈ cs, ∀ a ∈ c, m.Satisfies a

variable {m : Model} {flags : List String} {Γ : Bases}

theorem reads_valuation (m : Model) (flags : List String) :
    (m.valuation flags).Reads flags (Linear.reading m.ints) := by
  intro x v hx hv
  rw [valuation, if_neg hx] at hv
  exact (Option.some.inj hv).symm

theorem base_valueOf (m : Model) (b : Binding) : (m.valueOf b).base = b.base := by
  rcases b with ⟨x, _ | _⟩ <;> rfl

/-- A name has a value of its base type. -/
theorem valuation_eq (hΓ : Γ.Flags flags) (m : Model) {x : String} {b : BaseType}
    (hb : Γ x = some b) : m.valuation flags x = some (m.valueOf ⟨x, b⟩) := by
  have hbase : (if flags.contains x then BaseType.bool else .int) = b := by
    cases b with
    | bool => exact if_pos ((hΓ x).2 hb)
    | int => exact if_neg fun hx => by cases ((hΓ x).1 hx).symm.trans hb
  rw [valuation, hbase]

theorem fits_valuation (hΓ : Γ.Flags flags) (m : Model) :
    (m.valuation flags).Fits Γ :=
  fun _ _ hb => ⟨_, m.valuation_eq hΓ hb, m.base_valueOf _⟩

theorem assigns_env (m : Model) (bs : List Binding) : Query.Assigns bs (m.env bs) := by
  rw [Query.Assigns, env, List.map_map]
  refine (List.map_congr_left fun b _ => ?_).trans (List.map_id bs)
  simp [base_valueOf]

theorem get?_env {bs : List Binding} (hn : (Query.names bs).Nodup)
    (hΓ : (Query.bases bs).Flags flags) (m : Model) {x : String} (hx : x ∈ Query.names bs) :
    (m.env bs).get? x = m.valuation flags x := by
  let f : String → Value := fun x => m.valueOf ⟨x, if flags.contains x then .bool else .int⟩
  have henv : m.env bs = bs.map fun b => (b.name, f b.name) := by
    refine List.map_congr_left fun b hb => ?_
    exact congrArg _ (Option.some.inj (m.valuation_eq hΓ (Query.bases_of_mem hn hb))).symm
  rw [henv, Query.get?_map_names, if_pos hx]
  rfl

theorem solves_cons {c : List Atom} {cs : Cases} :
    m.Solves (c :: cs) ↔ (∀ a ∈ c, m.Satisfies a) ∨ m.Solves cs := by
  simp [Solves]

theorem not_solves_nil : ¬ m.Solves [] := by
  simp [Solves]

theorem satisfies_offset {e r : Linear} (h : e.offset 1 = some r) :
    m.Satisfies (.atMostZero r) ↔ e.value (Linear.reading m.ints) < 0 := by
  rw [Satisfies, Linear.value_offset h]
  exact Int.add_one_le_iff

theorem solves_either {l r cs : Cases} (h : Cases.either l r = some cs) (hm : m.Solves cs) :
    m.Solves l ∨ m.Solves r := by
  obtain ⟨c, hc, hsat⟩ := hm
  exact ((Cases.mem_either h).1 hc).imp (fun hc => ⟨c, hc, hsat⟩) fun hc => ⟨c, hc, hsat⟩

theorem solves_both {l r cs : Cases} (h : Cases.both l r = some cs) (hm : m.Solves cs) :
    m.Solves l ∧ m.Solves r := by
  obtain ⟨c, hc, hsat⟩ := hm
  obtain ⟨cl, hl, cr, hr, rfl⟩ := (Cases.mem_both h).1 hc
  exact ⟨⟨cl, hl, fun a ha => hsat a (List.mem_append_left _ ha)⟩,
    ⟨cr, hr, fun a ha => hsat a (List.mem_append_right _ ha)⟩⟩

end Model

/-! ### Exact cases -/

theorem BinaryOp.isArithmetic_opposite (op : BinaryOp) : op.opposite.isArithmetic = false := by cases op <;> rfl

theorem BinaryOp.isLogical_opposite (op : BinaryOp) : op.opposite.isLogical = false := by cases op <;> rfl

namespace Cases

open Linear

variable {m : Model} {flags : List String} {Γ : Bases}

/-- Every comparison of integers in a predicate has a linear form, and so has its opposite. -/
def Linearizes (flags : List String) : Term → Bool
  | .unary _ t => Linearizes flags t
  | .binary op l r =>
    if op.isLogical || isBoolean flags l then Linearizes flags l && Linearizes flags r
    else op.isArithmetic || (comparison? flags op l r).isSome && (comparison? flags op.opposite l r).isSome
  | _ => true

/-- On typed terms, the form tells the base type. -/
theorem isBoolean_iff (hΓ : Γ.Flags flags) {t : Term} {b : BaseType}
    (ht : t.HasBase Γ b) : isBoolean flags t = true ↔ b = .bool := by
  cases ht with
  | @var x b hx =>
    rw [isBoolean, hΓ, hx]
    exact Option.some_inj
  | int n => simp [isBoolean]
  | bool c => simp [isBoolean]
  | @unary op t ht => cases op <;> simp [isBoolean, UnaryOp.base]
  | @binary op l r a b hop hl hr =>
    cases op <;> cases a <;> cases hop <;> simp [isBoolean, BinaryOp.isArithmetic]

theorem hasBase_bool_of_isBoolean (hΓ : Γ.Flags flags) {op : BinaryOp}
    {l r : Term} {b : BaseType} (ht : (Term.binary op l r).HasBase Γ b) (h : isBoolean flags l = true) :
    l.HasBase Γ .bool ∧ r.HasBase Γ .bool := by
  cases ht with
  | binary _ hl hr =>
    obtain rfl := (isBoolean_iff hΓ hl).1 h
    exact ⟨hl, hr⟩

theorem binary?_of_eq {op : BinaryOp} (hop : op = .eq ∨ op = .ne) (a positive : Bool) :
    (Value.bool a).binary? op (.bool (bif a then (op == .eq) == positive else !((op == .eq) == positive))) =
      some (.bool positive) := by
  rcases hop with rfl | rfl <;> cases a <;> cases positive <;> rfl

/-- A comparison that is not one of truth values is one of integers. -/
theorem hasBase_int_of_comparison (hΓ : Γ.Flags flags) {op : BinaryOp}
    {l r : Term} (ht : (Term.binary op l r).HasBase Γ .bool) (hlog : op.isLogical = false)
    (h : ¬ ((op == .eq || op == .ne) && isBoolean flags l) = true) : l.HasBase Γ .int ∧ r.HasBase Γ .int := by
  cases ht with
  | @binary _ _ _ a _ hop hl hr =>
    cases a with
    | int => exact ⟨hl, hr⟩
    | bool =>
      rw [(isBoolean_iff hΓ hl).2 rfl, Bool.and_true] at h
      cases op with
      | eq | ne => exact absurd rfl h
      | and | or => cases hlog
      | _ => cases hop

theorem comparison?_isSome_of_linearizes {op : BinaryOp} (hlog : op.isLogical = false)
    (harith : op.isArithmetic = false) {l r : Term} (hl : ¬ isBoolean flags l = true)
    (h : Linearizes flags (.binary op l r) = true) :
    (comparison? flags op l r).isSome = true ∧ (comparison? flags op.opposite l r).isSome = true := by
  rw [Linearizes, hlog, Bool.false_or, if_neg hl, harith, Bool.false_or] at h
  exact Bool.and_eq_true_iff.1 h

theorem binary?_of_opposite {op : BinaryOp} (harith : op.isArithmetic = false) (hlog : op.isLogical = false)
    {a b : Value} (h : a.binary? op.opposite b = some (.bool true)) :
    a.binary? op b = some (.bool false) := by
  cases op <;> cases a <;> cases b <;> simp_all [Value.binary?, Value.sameAs?, BinaryOp.opposite,
    BinaryOp.isLogical, BinaryOp.isArithmetic]

/-- The constraints of a comparison hold only where the comparison does. -/
theorem binary?_of_ofDifference? {op : BinaryOp} (harith : op.isArithmetic = false) (hlog : op.isLogical = false)
    {diff : Linear} {cs : Cases} (h : ofDifference? op diff = some cs) (hm : m.Solves cs) :
    (Value.int (diff.value (reading m.ints))).binary? op (.int 0) = some (.bool true) := by
  obtain ⟨negated, hnegated, h⟩ := Option.bind_eq_some_iff.1 h
  have hvalue : negated.value (reading m.ints) = -diff.value (reading m.ints) := by
    rw [value_scale hnegated, Int.neg_one_mul]
  cases op with
  | add | sub | mul => cases harith
  | and | or => cases hlog
  | eq =>
    cases h
    simp only [Model.solves_cons, Model.not_solves_nil, or_false, List.forall_mem_cons, Model.Satisfies,
      hvalue] at hm
    obtain ⟨hle, hge, -⟩ := hm
    have heq : diff.value (reading m.ints) = 0 := by omega
    simp [Value.binary?, Value.sameAs?, heq]
  | ne =>
    obtain ⟨above, habove, h⟩ := Option.bind_eq_some_iff.1 h
    obtain ⟨below, hbelow, h⟩ := Option.bind_eq_some_iff.1 h
    cases h
    simp only [Model.solves_cons, Model.not_solves_nil, or_false, List.forall_mem_singleton,
      Model.satisfies_offset habove, Model.satisfies_offset hbelow, hvalue] at hm
    have hne : diff.value (reading m.ints) ≠ 0 := by omega
    simp [Value.binary?, Value.sameAs?, hne]
  | lt =>
    obtain ⟨above, habove, h⟩ := Option.bind_eq_some_iff.1 h
    cases h
    simp only [Model.solves_cons, Model.not_solves_nil, or_false, List.forall_mem_singleton,
      Model.satisfies_offset habove] at hm
    simpa [Value.binary?] using hm
  | gt =>
    obtain ⟨below, hbelow, h⟩ := Option.bind_eq_some_iff.1 h
    cases h
    simp only [Model.solves_cons, Model.not_solves_nil, or_false, List.forall_mem_singleton,
      Model.satisfies_offset hbelow, hvalue] at hm
    simpa [Value.binary?] using hm
  | le | ge =>
    cases h
    simp only [Model.solves_cons, Model.not_solves_nil, List.forall_mem_singleton, Model.Satisfies, hvalue] at hm
    simpa [Value.binary?] using hm

theorem binary?_of_comparison? {op : BinaryOp} (harith : op.isArithmetic = false) (hlog : op.isLogical = false)
    {l r : Term} {cs : Cases} {a b : Value} (h : comparison? flags op l r = some cs) (hm : m.Solves cs)
    (hl : l.denote (m.valuation flags) = some a) (hr : r.denote (m.valuation flags) = some b) :
    a.binary? op b = some (.bool true) := by
  obtain ⟨el, hel, h⟩ := Option.bind_eq_some_iff.1 h
  obtain ⟨er, her, h⟩ := Option.bind_eq_some_iff.1 h
  obtain ⟨diff, hdiff, h⟩ := Option.bind_eq_some_iff.1 h
  obtain ⟨hproper, hlv⟩ := ofTerm?_eq_some (m.reads_valuation flags) hel
  rw [hlv a hl, (ofTerm?_eq_some (m.reads_valuation flags) her).2 b hr]
  have hdifference := binary?_of_ofDifference? harith hlog h hm
  rw [value_addScaled hproper hdiff, Int.neg_one_mul, ← Int.sub_eq_add_neg] at hdifference
  exact binary?_sub.1 hdifference

/-- A model that solves one of the cases of a typed predicate gives it the truth value of the cases. -/
theorem denote_of_solves (hΓ : Γ.Flags flags) {t : Term} {positive : Bool}
    {cs : Cases} (ht : t.HasBase Γ .bool) (hlin : Linearizes flags t = true)
    (h : ofTerm? flags t positive = some cs) (hm : m.Solves cs) :
    t.denote (m.valuation flags) = some (.bool positive) := by
  have hfits := m.fits_valuation hΓ
  fun_induction ofTerm? flags t positive generalizing cs with
  | case1 b positive =>
    cases h
    split at hm
    next hb => rw [Term.denote, hb]
    next => exact absurd hm Model.not_solves_nil
  | case2 x positive =>
    have hx : flags.contains x = true := (isBoolean_iff hΓ ht).2 rfl
    cases h
    rw [if_pos hx, Model.solves_cons, List.forall_mem_singleton, or_iff_left Model.not_solves_nil] at hm
    rw [Term.denote, m.valuation_eq hΓ ((hΓ x).1 hx), ← hm]
    rfl
  | case3 t positive ih =>
    cases ht with
    | unary ht => exact Term.denote_not.2 (ih ht hlin h hm)
  | case4 l r positive ihl ihr =>
    obtain ⟨hl, hr⟩ := Bool.and_eq_true_iff.1 hlin
    obtain ⟨htl, htr⟩ := ht.of_isLogical rfl
    obtain ⟨left, hleft, h⟩ := Option.bind_eq_some_iff.1 h
    obtain ⟨right, hright, h⟩ := Option.bind_eq_some_iff.1 h
    cases positive with
    | true =>
      obtain ⟨hml, hmr⟩ := Model.solves_both h hm
      exact Term.holds_and.2 ⟨ihl htl hl hleft hml, ihr htr hr hright hmr⟩
    | false =>
      rcases Model.solves_either h hm with hm | hm
      · exact Term.denote_and_false.2 (.inl (ihl htl hl hleft hm))
      · have hright := ihr htr hr hright hm
        exact Term.denote_and_false.2 ((htl.holds_or hfits).symm.imp_right fun hl => ⟨hl, hright⟩)
  | case5 l r positive ihl ihr =>
    obtain ⟨hl, hr⟩ := Bool.and_eq_true_iff.1 hlin
    obtain ⟨htl, htr⟩ := ht.of_isLogical rfl
    obtain ⟨left, hleft, h⟩ := Option.bind_eq_some_iff.1 h
    obtain ⟨right, hright, h⟩ := Option.bind_eq_some_iff.1 h
    cases positive with
    | true =>
      rcases Model.solves_either h hm with hm | hm
      · exact Term.holds_or.2 (.inl (ihl htl hl hleft hm))
      · have hright := ihr htr hr hright hm
        exact Term.holds_or.2 ((htl.holds_or hfits).imp_right fun hl => ⟨hl, hright⟩)
    | false =>
      obtain ⟨hml, hmr⟩ := Model.solves_both h hm
      exact Term.denote_or_false.2 ⟨ihl htl hl hleft hml, ihr htr hr hright hmr⟩
  | case7 op l r positive hand hor harith hboolean equal ih₁ ih₂ ih₃ =>
    rename_i ih₄
    obtain ⟨hop, hbool⟩ := Bool.and_eq_true_iff.1 hboolean
    simp only [Bool.or_eq_true, beq_iff_eq] at hop
    rw [Linearizes, hbool, Bool.or_true, if_pos rfl] at hlin
    obtain ⟨hl, hr⟩ := Bool.and_eq_true_iff.1 hlin
    obtain ⟨htl, htr⟩ := hasBase_bool_of_isBoolean hΓ ht hbool
    obtain ⟨lt, hlt, h⟩ := Option.bind_eq_some_iff.1 h
    obtain ⟨rt, hrt, h⟩ := Option.bind_eq_some_iff.1 h
    obtain ⟨same, hsame, h⟩ := Option.bind_eq_some_iff.1 h
    obtain ⟨lf, hlf, h⟩ := Option.bind_eq_some_iff.1 h
    obtain ⟨rf, hrf, h⟩ := Option.bind_eq_some_iff.1 h
    obtain ⟨other, hother, h⟩ := Option.bind_eq_some_iff.1 h
    rcases Model.solves_either h hm with hm | hm
    · obtain ⟨hml, hmr⟩ := Model.solves_both hsame hm
      rw [Term.denote_binary (ih₁ htl hl hlt hml) (ih₂ htr hr hrt hmr) rfl]
      exact binary?_of_eq hop true positive
    · obtain ⟨hml, hmr⟩ := Model.solves_both hother hm
      rw [Term.denote_binary (ih₃ htl hl hlf hml) (ih₄ htr hr hrf hmr) rfl]
      exact binary?_of_eq hop false positive
  | case8 op l r positive hand hor harith hboolean =>
    have hlog : op.isLogical = false := by
      cases op with
      | and | or => exact absurd rfl ‹_›
      | _ => rfl
    have harith : op.isArithmetic = false := Bool.eq_false_of_not_eq_true harith
    obtain ⟨htl, htr⟩ := hasBase_int_of_comparison hΓ ht hlog hboolean
    have hint : ¬ isBoolean flags l = true := fun h => by cases (isBoolean_iff hΓ htl).1 h
    obtain ⟨hpos, hneg⟩ := comparison?_isSome_of_linearizes hlog harith hint hlin
    obtain ⟨a, ha, hab⟩ := htl.denote hfits
    obtain ⟨b, hb, hbb⟩ := htr.denote hfits
    rw [Term.denote_binary ha hb (hab.trans hbb.symm)]
    cases h
    cases positive with
    | true =>
      obtain ⟨cs, hcs⟩ := Option.isSome_iff_exists.1 hpos
      rw [if_pos rfl, hcs] at hm
      exact binary?_of_comparison? harith hlog hcs hm ha hb
    | false =>
      obtain ⟨cs, hcs⟩ := Option.isSome_iff_exists.1 hneg
      rw [if_neg Bool.false_ne_true, hcs] at hm
      exact binary?_of_opposite harith hlog
        (binary?_of_comparison? op.isArithmetic_opposite op.isLogical_opposite hcs hm ha hb)
  | case6 op l r positive hand hor harith =>
    -- an operation that gives an integer is no predicate
    cases ht with
    | @binary _ _ _ a _ hop => cases op <;> cases a <;> cases harith <;> cases hop
  | case9 => cases ht
  | case10 => cases ht

end Cases

/-- The names that stand for truth values in a query. -/
def Query.flags (q : Query) : List String := (q.bindings.filter (·.base == .bool)).map (·.name)

/-- Every comparison of integers in a query has a linear form, and so has its opposite. -/
def Query.Linearizes (q : Query) : Bool :=
  q.premises.all (Cases.Linearizes q.flags) && Cases.Linearizes q.flags q.conclusion

end LayerCheck
