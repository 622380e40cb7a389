import Mathlib
import LayerCheck.Proofs.Solver.Exactness

/-! Candidates are counterexamples where everything is linear. The constraints of the cases have no zero
coefficients, so the values that are rebuilt after an elimination satisfy them; the settings of a case
are kept as they are. The model of a case therefore satisfies the case, and the query fails under it. -/
namespace LayerCheck

/-! ### Constraints in cases -/

namespace Cases

open Linear

variable {flags : List String}

/-- Every constraint in some cases has a property. -/
def Each (P : Linear → Prop) (cs : Cases) : Prop := ∀ c ∈ cs, ∀ e, .atMostZero e ∈ c → P e

variable {P : Linear → Prop}

theorem each_always : Each P always := by
  intro c hc e he
  rw [List.mem_singleton.1 hc] at he
  cases he

theorem each_either {l r cs : Cases} (h : either l r = some cs) (hl : Each P l) (hr : Each P r) : Each P cs :=
  fun c hc => ((mem_either h).1 hc).elim (hl c) (hr c)

theorem each_both {l r cs : Cases} (h : both l r = some cs) (hl : Each P l) (hr : Each P r) : Each P cs := by
  intro c hc e he
  obtain ⟨cl, hcl, cr, hcr, rfl⟩ := (mem_both h).1 hc
  exact (List.mem_append.1 he).elim (hl cl hcl e) (hr cr hcr e)

/-- The constraints of a predicate are those of its comparisons. -/
theorem each_ofTerm? (hP : ∀ op l r cs, comparison? flags op l r = some cs → Each P cs) {t : Term}
    {positive : Bool} {cs : Cases} (h : ofTerm? flags t positive = some cs) : Each P cs := by
  fun_induction ofTerm? flags t positive generalizing cs with
  | case1 b positive =>
    cases h
    split
    next => exact each_always
    next => exact fun c hc => by cases hc
  | case2 x positive =>
    cases h
    split
    next =>
      intro c hc e he
      rw [List.mem_singleton.1 hc] at he
      cases List.mem_singleton.1 he
    next => exact each_always
  | case3 t positive ih => exact ih h
  | case4 l r positive ihl ihr =>
    obtain ⟨left, hleft, h⟩ := Option.bind_eq_some_iff.1 h
    obtain ⟨right, hright, h⟩ := Option.bind_eq_some_iff.1 h
    split at h
    next => exact each_both h (ihl hleft) (ihr hright)
    next => exact each_either h (ihl hleft) (ihr hright)
  | case5 l r positive ihl ihr =>
    obtain ⟨left, hleft, h⟩ := Option.bind_eq_some_iff.1 h
    obtain ⟨right, hright, h⟩ := Option.bind_eq_some_iff.1 h
    split at h
    next => exact each_either h (ihl hleft) (ihr hright)
    next => exact each_both h (ihl hleft) (ihr hright)
  | case7 op l r positive hand hor harith hboolean equal ih₁ ih₂ ih₃ =>
    rename_i ih₄
    obtain ⟨lt, hlt, h⟩ := Option.bind_eq_some_iff.1 h
    obtain ⟨rt, hrt, h⟩ := Option.bind_eq_some_iff.1 h
    obtain ⟨same, hsame, h⟩ := Option.bind_eq_some_iff.1 h
    obtain ⟨lf, hlf, h⟩ := Option.bind_eq_some_iff.1 h
    obtain ⟨rf, hrf, h⟩ := Option.bind_eq_some_iff.1 h
    obtain ⟨other, hother, h⟩ := Option.bind_eq_some_iff.1 h
    exact each_either h (each_both hsame (ih₁ hlt) (ih₂ hrt)) (each_both hother (ih₃ hlf) (ih₄ hrf))
  | case8 op l r positive hand hor harith hboolean =>
    cases h
    cases hcs : comparison? flags (if positive = true then op else op.opposite) l r with
    | none => exact each_always
    | some cs => exact hP _ _ _ _ hcs
  | case6 | case9 | case10 =>
    cases h
    exact each_always

/-- The constraints of a comparison are a difference and its opposite, or these with a constant larger by one. -/
theorem each_comparison? {op : BinaryOp} {l r : Term} {cs : Cases} (h : comparison? flags op l r = some cs) :
    Each (fun e => ∃ el er diff negated : Linear, el.Proper ∧ el.addScaled er (-1) = some diff ∧
      diff.scale (-1) = some negated ∧
      (e = diff ∨ e = negated ∨ diff.offset 1 = some e ∨ negated.offset 1 = some e)) cs := by
  obtain ⟨el, hel, h⟩ := Option.bind_eq_some_iff.1 h
  obtain ⟨er, her, h⟩ := Option.bind_eq_some_iff.1 h
  obtain ⟨diff, hdiff, h⟩ := Option.bind_eq_some_iff.1 h
  obtain ⟨negated, hnegated, h⟩ := Option.bind_eq_some_iff.1 h
  have hproper : el.Proper := (ofTerm?_eq_some (Model.reads_valuation ⟨[], []⟩ flags) hel).1
  intro c hc e he
  have hmem : .atMostZero e ∈ cs.flatten := List.mem_flatten.2 ⟨c, hc, he⟩
  refine ⟨el, er, diff, negated, hproper, hdiff, hnegated, ?_⟩
  cases op with
  | eq =>
    cases h
    simp only [List.flatten_singleton, List.mem_cons, Atom.atMostZero.injEq, List.not_mem_nil, or_false] at hmem
    exact hmem.imp_right .inl
  | ne =>
    obtain ⟨above, habove, h⟩ := Option.bind_eq_some_iff.1 h
    obtain ⟨below, hbelow, h⟩ := Option.bind_eq_some_iff.1 h
    cases h
    have hmem : e = above ∨ e = below := by simpa using hmem
    rcases hmem with rfl | rfl
    · exact .inr (.inr (.inl habove))
    · exact .inr (.inr (.inr hbelow))
  | lt =>
    obtain ⟨above, habove, h⟩ := Option.bind_eq_some_iff.1 h
    cases h
    obtain rfl : e = above := by simpa using hmem
    exact .inr (.inr (.inl habove))
  | gt =>
    obtain ⟨below, hbelow, h⟩ := Option.bind_eq_some_iff.1 h
    cases h
    obtain rfl : e = below := by simpa using hmem
    exact .inr (.inr (.inr hbelow))
  | le =>
    cases h
    exact .inl (by simpa using hmem)
  | _ =>
    cases h
    exact .inr (.inl (by simpa using hmem))

theorem tidy_comparison? {op : BinaryOp} {l r : Term} {cs : Cases} (h : comparison? flags op l r = some cs) :
    Each Tidy cs := by
  intro c hc e he
  obtain ⟨el, er, diff, negated, hel, hdiff, hnegated, hform⟩ := each_comparison? h c hc e he
  rcases hform with rfl | rfl | he | he
  · exact hel.tidy_addScaled hdiff
  · exact tidy_scale hnegated
  · exact (hel.tidy_addScaled hdiff).offset he
  · exact (tidy_scale hnegated).offset he

end Cases

/-! ### The model of a case -/

namespace Refutation

open Linear

variable {m : Model} {flags : List String}

theorem each_premiseCases {P : Linear → Prop}
    (hP : ∀ op l r cs, Cases.comparison? flags op l r = some cs → Cases.Each P cs) {ps : List Term}
    {cs cs' : Cases} (h : premiseCases flags ps cs = some cs') (hcs : Cases.Each P cs) : Cases.Each P cs' := by
  induction ps generalizing cs with
  | nil =>
    cases h
    exact hcs
  | cons p ps ih =>
    obtain ⟨new, hnew, h⟩ := Option.bind_eq_some_iff.1 h
    obtain ⟨joined, hjoined, h⟩ := Option.bind_eq_some_iff.1 h
    exact ih h (Cases.each_both hjoined hcs (Cases.each_ofTerm? hP hnew))

theorem denote_of_premiseCases {Γ : Bases} (hΓ : Γ.Flags flags) {ps : List Term}
    {cs cs' : Cases} (h : premiseCases flags ps cs = some cs') (ht : ∀ p ∈ ps, p.HasBase Γ .bool)
    (hlin : ∀ p ∈ ps, Cases.Linearizes flags p = true) (hm : m.Solves cs') :
    m.Solves cs ∧ ∀ p ∈ ps, p.Holds (m.valuation flags) := by
  induction ps generalizing cs with
  | nil =>
    cases h
    exact ⟨hm, by simp⟩
  | cons p ps ih =>
    obtain ⟨htp, ht⟩ := List.forall_mem_cons.1 ht
    obtain ⟨hlinp, hlin⟩ := List.forall_mem_cons.1 hlin
    obtain ⟨new, hnew, h⟩ := Option.bind_eq_some_iff.1 h
    obtain ⟨joined, hjoined, h⟩ := Option.bind_eq_some_iff.1 h
    obtain ⟨hm, hps⟩ := ih h ht hlin
    obtain ⟨hcs, hmp⟩ := Model.solves_both hjoined hm
    exact ⟨hcs, List.forall_mem_cons.2 ⟨Cases.denote_of_solves hΓ htp hlinp hnew hmp, hps⟩⟩

theorem mem_of_sort {c : List Atom} {settings settings' : NameMap Bool} {es es' : List Linear}
    (h : sort c settings es = .ok (some (settings', es'))) {e : Linear} :
    e ∈ es' ↔ e ∈ es ∨ ∃ e', .atMostZero e' ∈ c ∧ e'.tighten = e := by
  fun_induction sort c settings es with
  | case1 settings es =>
    cases h
    simp
  | case2 e' rest settings es ih =>
    obtain ⟨e'', htighten, h⟩ := bind_eq_ok.1 h
    obtain rfl := tighten!_eq_ok htighten
    simp only [ih _ h, List.mem_cons, Atom.atMostZero.injEq, or_and_right, exists_or, exists_eq_left]
    tauto
  | case3 x rest settings es known hx ih => simp [ih h]
  | case4 => cases h
  | case5 x b rest settings es hx ih => simp [ih h]

/-- The settings of a case are kept, and so are those from before it. -/
theorem get?_of_sort {c : List Atom} {settings settings' : NameMap Bool} {es es' : List Linear}
    (h : sort c settings es = .ok (some (settings', es'))) {x : String} {b : Bool}
    (hx : settings.get? x = some b ∨ .flag x b ∈ c) : settings'.get? x = some b := by
  fun_induction sort c settings es with
  | case1 settings es =>
    cases h
    exact hx.resolve_right (by simp)
  | case2 e' rest settings es ih =>
    obtain ⟨e'', -, h⟩ := bind_eq_ok.1 h
    exact ih e'' h (hx.imp_right fun hx => by simpa using hx)
  | case3 y rest settings es known hy ih =>
    refine ih h ?_
    rcases hx with hx | hx
    · exact .inl hx
    · rcases List.mem_cons.1 hx with hx | hx
      · cases hx
        exact .inl hy
      · exact .inr hx
  | case4 => cases h
  | case5 y c rest settings es hy ih =>
    refine ih h ?_
    rw [NameMap.get?_insert]
    rcases hx with hx | hx
    · have hne : x ≠ y := by
        rintro rfl
        rw [hy] at hx
        cases hx
      exact .inl (by rw [if_neg hne]; exact hx)
    · rcases List.mem_cons.1 hx with hx | hx
      · cases hx
        exact .inl (if_pos rfl)
      · exact .inr hx

theorem tryCase_eq_candidate {c : List Atom} (h : tryCase c = .candidate m) :
    ∃ es stages, sort c [] [] = .ok (some (m.bools, es)) ∧
      Elimination.ofConstraints (toSet es) = .feasible stages ∧ Stage.backSubstitute stages [] = .ok m.ints := by
  unfold tryCase at h
  split at h
  next => cases h
  next => cases h
  next settings es hsort =>
    split at h
    next => cases h
    next => cases h
    next => cases h
    next stages hstages =>
      split at h
      next ints hints =>
        cases h
        exact ⟨es, stages, hsort, hstages, hints⟩
      next => cases h
      next => cases h

/-- The model of a case satisfies everything in the case. -/
theorem satisfies_of_tryCase {c : List Atom} (ht : ∀ e, .atMostZero e ∈ c → e.Tidy)
    (h : tryCase c = .candidate m) : ∀ a ∈ c, m.Satisfies a := by
  obtain ⟨es, stages, hsort, hstages, hints⟩ := tryCase_eq_candidate h
  have htidy : ∀ e ∈ toSet es, e.Tidy := by
    intro e he
    rcases (mem_of_sort hsort).1 (mem_toSet.1 he) with he | ⟨e', he', rfl⟩
    · cases he
    · exact (ht e' he').tighten
  have hsolves := Elimination.solves_of_ends (Elimination.ends_ofConstraints htidy) htidy hstages hints
  intro a ha
  cases a with
  | atMostZero e =>
    have hmem : e.tighten ∈ toSet es := mem_toSet.2 ((mem_of_sort hsort).2 (.inr ⟨e, ha, rfl⟩))
    exact value_tighten_nonpos_iff.1 (hsolves _ hmem)
  | flag x b =>
    rw [Model.Satisfies, get?_of_sort hsort (.inr ha)]
    rfl

/-! ### Candidates of a query -/

/-- The cases in which the premises of a query hold and its conclusion fails. -/
def casesOf? (q : Query) : Option Cases :=
  (premiseCases q.flags q.premises Cases.always).bind fun premises =>
    (Cases.ofTerm? q.flags q.conclusion false).bind (Cases.both premises)

theorem model?_eq_some {o : Outcome} (h : o.model? = some m) : o = .candidate m := by
  cases o with
  | candidate m' => exact congrArg _ (Option.some.inj h)
  | closed => cases h
  | doubtful d => cases h
  | broken op => cases h

theorem mem_of_ofOutcomes {outcomes : List Outcome} {ms : List Model} {d : Doubt}
    (h : ofOutcomes outcomes = .undecided ms d) (hm : m ∈ ms) : .candidate m ∈ outcomes := by
  have hms : ms = outcomes.filterMap Outcome.model? := by
    unfold ofOutcomes at h
    split at h
    next => cases h
    next =>
      simp only at h
      split at h
      next => cases h
      next => exact (Refutation.undecided.inj h).1.symm
      next => exact (Refutation.undecided.inj h).1.symm
  rw [hms] at hm
  obtain ⟨o, ho, hmodel⟩ := List.mem_filterMap.1 hm
  rw [← model?_eq_some hmodel]
  exact ho

theorem candidate_of_undecided {q : Query} {ms : List Model} {d : Doubt} (h : ofQuery q = .undecided ms d)
    (hm : m ∈ ms) : ∃ cs, casesOf? q = some cs ∧ ∃ c ∈ cs, tryCase c = .candidate m := by
  unfold ofQuery at h
  simp only at h
  split at h
  next =>
    cases h
    cases hm
  next premises hpremises =>
    split at h
    next =>
      cases h
      cases hm
    next cases hcases =>
      obtain ⟨c, hc, hcandidate⟩ := List.mem_map.1 (mem_of_ofOutcomes h hm)
      refine ⟨cases, ?_, c, hc, hcandidate⟩
      rw [casesOf?, Query.flags, hpremises]
      exact hcases

theorem each_casesOf? {P : Linear → Prop} {q : Query}
    (hP : ∀ op l r cs, Cases.comparison? q.flags op l r = some cs → Cases.Each P cs) {cs : Cases}
    (h : casesOf? q = some cs) : Cases.Each P cs := by
  obtain ⟨premises, hpremises, h⟩ := Option.bind_eq_some_iff.1 h
  obtain ⟨negated, hnegated, h⟩ := Option.bind_eq_some_iff.1 h
  exact Cases.each_both h (each_premiseCases hP hpremises Cases.each_always) (Cases.each_ofTerm? hP hnegated)

/-- A model that solves one of the cases of a linear query falsifies it. -/
theorem falsified_of_solves {q : Query} (hn : (Query.names q.bindings).Nodup) (hw : q.WellTyped)
    (hlin : q.Linearizes = true) {cs : Cases} (h : casesOf? q = some cs) (hm : m.Solves cs) :
    q.Falsified (m.valuation q.flags) := by
  have hΓ := contains_flags_iff hn
  obtain ⟨premises, hpremises, h⟩ := Option.bind_eq_some_iff.1 h
  obtain ⟨negated, hnegated, h⟩ := Option.bind_eq_some_iff.1 h
  obtain ⟨hmp, hmn⟩ := Model.solves_both h hm
  obtain ⟨hlp, hlc⟩ := Bool.and_eq_true_iff.1 hlin
  have hp := denote_of_premiseCases hΓ hpremises hw.premises (List.all_eq_true.1 hlp) hmp
  exact ⟨hp.2, Cases.denote_of_solves hΓ hw.conclusion hlc hnegated hmn⟩

/-- Candidates of a linear query refute it, and values that are rebuilt satisfy the constraints. -/
theorem candidates_refute_and_values_solve :
    (∀ (q : Query) (ms : List Model) (d : Doubt), (Query.names q.bindings).Nodup → q.WellTyped →
      q.Linearizes = true → ofQuery q = .undecided ms d →
        ∀ m ∈ ms, Query.Assigns q.bindings (m.env q.bindings) ∧ q.Refuted (m.env q.bindings)) ∧
    ∀ es : List Linear, (∀ e ∈ es, e.Tidy) → Elimination.Ends es (Elimination.ofConstraints es) ∧
      ∀ stages values, Elimination.ofConstraints es = .feasible stages →
        Stage.backSubstitute stages [] = .ok values → Solves (reading values) es := by
  constructor
  · intro q ms d hn hw hlin h m hm
    obtain ⟨cs, hcs, c, hc, hcandidate⟩ := candidate_of_undecided h hm
    have htidy : Cases.Each Tidy cs := each_casesOf? (fun _ _ _ _ => Cases.tidy_comparison?) hcs
    have hsolves : m.Solves cs := ⟨c, hc, satisfies_of_tryCase (htidy c hc) hcandidate⟩
    have hfalsified := falsified_of_solves hn hw hlin hcs hsolves
    refine ⟨m.assigns_env _, Query.refuted_iff.2 (hfalsified.congr hw fun x hx => ?_)⟩
    exact (m.get?_env hn (contains_flags_iff hn) hx).symm
  · intro es ht
    have hends := Elimination.ends_ofConstraints ht
    exact ⟨hends, fun stages values hstages hback => Elimination.solves_of_ends hends ht hstages hback⟩

/-- A counterexample has `x` and `y` with sum 62 where `x` is above 40 and `b` says that it is above `3 * y`. -/
def sumQuery : Query :=
  ⟨[⟨"b", .bool⟩, ⟨"x", .int⟩, ⟨"y", .int⟩],
    [.binary .gt (.var "x") (.int 40),
      .equal (.var "b") (.binary .lt (.binary .mul (.int 3) (.var "y")) (.var "x"))],
    .binary .or (.unary .not (.var "b")) (.binary .ne (.binary .add (.var "x") (.var "y")) (.int 62))⟩

/-- Constraints whose combination is rounded: `y` is at most 24, where 123 divided by 5 is more. -/
def roundedConstraints : List Linear :=
  [⟨[("x", -2), ("y", 3)], 1⟩, ⟨[("x", 1), ("y", 1)], -62⟩, ⟨[("y", -1)], 7⟩]

theorem sumQuery_candidate_refutes_and_values_solve :
    (sumQuery.Linearizes = true ∧
      ofQuery sumQuery = .undecided [⟨[("x", 47), ("y", 15)], [("b", true)]⟩] .satisfiable ∧
      sumQuery.Refuted [("b", .bool true), ("x", .int 47), ("y", .int 15)]) ∧
    Elimination.Ends roundedConstraints (Elimination.ofConstraints roundedConstraints) ∧
      Solves (reading [("x", 11), ("y", 7)]) roundedConstraints := by
  obtain ⟨hcandidates, hvalues⟩ := candidates_refute_and_values_solve
  have hquery : ofQuery sumQuery = .undecided [⟨[("x", 47), ("y", 15)], [("b", true)]⟩] .satisfiable := by cbv
  have hlin : sumQuery.Linearizes = true := by cbv
  have hrefuted := hcandidates sumQuery _ _ (by decide) (by decide) hlin hquery _ (List.mem_singleton_self _)
  obtain ⟨hends, hsolves⟩ := hvalues roundedConstraints (by decide)
  have hstages : Elimination.ofConstraints roundedConstraints = .feasible
      [⟨"y", [⟨[("y", -1)], 7⟩, ⟨[("y", 1)], -24⟩]⟩,
        ⟨"x", [⟨[("x", -2), ("y", 3)], 1⟩, ⟨[("x", 1), ("y", 1)], -62⟩]⟩] := by cbv
  exact ⟨⟨hlin, hquery, hrefuted.2⟩, hends, hsolves _ _ hstages (by cbv)⟩

end Refutation

end LayerCheck
