import Mathlib
import LayerCheck.Proofs.Solver.Inlining
import LayerCheck.Proofs.Solver.Refutation
import LayerCheck.Proofs.Solver.Search

/-! What the answers of the solver mean. A query that it calls valid is not falsifiable, whether a search
over truth values or a refutation has settled it, and one that it calls invalid has a counterexample
for all its bindings, also for those that were replaced by their definitions. -/
namespace LayerCheck

namespace Query

variable {w : Width} {env : Env}

theorem holds_eq_ok {ps : List Term} {b : Bool} (h : holds w env ps = .ok b) :
    (∀ p ∈ ps, p.Holds env.get?) ↔ b = true := by
  induction ps with
  | nil =>
    cases h
    simp
  | cons p ps ih =>
    rw [holds] at h
    rcases hp : p.evalBool w env with e | c
    · rw [hp] at h
      cases h
    · have hdenote := Term.denote_of_evalBool hp
      rw [List.forall_mem_cons]
      cases c with
      | true =>
        rw [hp] at h
        rw [ih h]
        exact and_iff_right hdenote
      | false =>
        rw [hp] at h
        cases h
        simp [Term.Holds, hdenote]

/-- An answer of the test for a counterexample, in whatever width, is right over unbounded integers. -/
theorem refutedBy_eq_ok {q : Query} {b : Bool} (h : q.refutedBy w env = .ok b) :
    q.Falsified env.get? ↔ b = true := by
  unfold refutedBy at h
  rcases hp : holds w env q.premises with e | c
  · rw [hp] at h
    cases h
  · rw [Falsified, holds_eq_ok hp]
    rw [hp] at h
    cases c with
    | false =>
      cases h
      simp
    | true =>
      rcases hc : q.conclusion.evalBool w env with e | d
      · rw [hc] at h
        cases h
      · rw [hc] at h
        cases h
        simp [Term.denote_of_evalBool hc]

end Query

namespace Solver

open Query

variable {q : Query}

/-! ### Search -/

theorem base_of_mem_valuesOf {ints : List Int} {b : BaseType} {v : Value} (h : v ∈ valuesOf ints b) :
    v.base = b := by
  cases b with
  | int =>
    obtain ⟨n, -, rfl⟩ := List.mem_map.1 h
    rfl
  | bool =>
    rcases List.mem_cons.1 h with rfl | h
    · rfl
    · rw [List.mem_singleton.1 h]
      rfl

/-- The elements of a product are values of all bindings. -/
theorem assigns_of_mem_elements {ints : List Int} {bs : List Binding} {env : Env} (h : env ∈ elements ints bs) :
    Assigns bs env := by
  induction bs generalizing env with
  | nil =>
    rw [List.mem_singleton.1 h]
    rfl
  | cons b bs ih =>
    obtain ⟨rest, hrest, v, hv, rfl⟩ := mem_elements_cons.1 h
    rw [Assigns, List.map_cons, ih hrest, base_of_mem_valuesOf hv]

/-- The product for truth values has all values of the bindings. -/
theorem mem_elements_of_assigns {ints : List Int} {bs : List Binding} {env : Env}
    (hb : ∀ b ∈ bs, b.base = .bool) (h : Assigns bs env) : env ∈ elements ints bs := by
  induction bs generalizing env with
  | nil =>
    obtain rfl : env = [] := List.map_eq_nil_iff.1 h
    exact List.mem_singleton_self _
  | cons b bs ih =>
    obtain ⟨hbool, hbs⟩ := List.forall_mem_cons.1 hb
    obtain ⟨⟨x, v⟩, rest, rfl, hv, hrest⟩ := List.map_eq_cons_iff.1 h
    subst hv
    have hmem : v ∈ valuesOf ints v.base := by
      rcases v with n | _ | _
      · cases hbool
      · exact List.mem_cons_self
      · exact List.mem_cons_of_mem _ List.mem_cons_self
    exact mem_elements_cons.2 ⟨rest, ih hbs hrest, v, hmem, rfl⟩

theorem falsifiable_of_refutedBy {w : Width} {env : Env} (hn : (names q.bindings).Nodup)
    (ha : Assigns q.bindings env) (h : q.refutedBy w env = .ok true) : q.Falsifiable :=
  ⟨env.get?, ha.exactly hn, (refutedBy_eq_ok h).2 rfl⟩

theorem falsifiable_of_hasCounterexample {ints : List Int} (hn : (names q.bindings).Nodup)
    (h : hasCounterexample q ints = .ok true) : q.Falsifiable := by
  obtain ⟨earlier, env, later, hall, henv, -⟩ :=
    (hasCounterexample_eq_true (sizeOf_pos_of_hasCounterexample h)).1 h
  have hmem : env ∈ elements ints q.bindings := by simp [hall]
  exact falsifiable_of_refutedBy hn (assigns_of_mem_elements hmem) henv

theorem valid_of_hasCounterexample {ints : List Int} (hb : q.bindings.all (·.base == .bool) = true)
    (h : hasCounterexample q ints = .ok false) : q.Valid := by
  intro env ha hr
  have hbool : ∀ b ∈ q.bindings, b.base = .bool := fun b hmem => eq_of_beq (List.all_eq_true.1 hb b hmem)
  have hfalse := (hasCounterexample_eq_false (sizeOf_pos_of_hasCounterexample h)).1 h env
    (mem_elements_of_assigns hbool ha)
  exact absurd ((refutedBy_eq_ok hfalse).1 (refuted_iff.1 hr)) (by simp)

/-! ### Candidates -/

theorem envOf?_cons {m : Model} {b : Binding} {bs : List Binding} {env : Env}
    (h : envOf? m (b :: bs) = some env) :
    ∃ v rest, v.base = b.base ∧ envOf? m bs = some rest ∧ env = (b.name, v) :: rest := by
  rw [envOf?] at h
  split at h
  next hb =>
    simp only at h
    split at h
    next =>
      obtain ⟨_, hv, h⟩ := Option.bind_eq_some_iff.1 h
      cases hv
      obtain ⟨rest, hrest, h⟩ := Option.bind_eq_some_iff.1 h
      refine ⟨_, rest, ?_, hrest, (Option.some.inj h).symm⟩
      exact hb.symm
    next => cases h
  next hb =>
    obtain ⟨_, hv, h⟩ := Option.bind_eq_some_iff.1 h
    cases hv
    obtain ⟨rest, hrest, h⟩ := Option.bind_eq_some_iff.1 h
    refine ⟨_, rest, ?_, hrest, (Option.some.inj h).symm⟩
    exact hb.symm

theorem assigns_of_envOf? {m : Model} {bs : List Binding} {env : Env} (h : envOf? m bs = some env) :
    Assigns bs env := by
  induction bs generalizing env with
  | nil =>
    cases h
    rfl
  | cons b bs ih =>
    obtain ⟨v, rest, hbase, hrest, rfl⟩ := envOf?_cons h
    rw [Assigns, List.map_cons, ih hrest, hbase]

theorem falsifiable_of_confirms {m : Model} (hn : (names q.bindings).Nodup) (h : confirms q m = true) :
    q.Falsifiable := by
  unfold confirms at h
  split at h
  next => cases h
  next env henv =>
    split at h
    next refuted hr =>
      subst h
      exact falsifiable_of_refutedBy hn (assigns_of_envOf? henv) hr
    next => cases h

theorem falsifiable_iff_of_byRefutation {b : Bool} (hn : (names q.bindings).Nodup)
    (h : byRefutation q = .ok b) : q.Falsifiable ↔ b = false := by
  unfold byRefutation at h
  split at h
  next hu =>
    cases h
    simp [Refutation.not_falsifiable_of_unsatisfiable hn hu]
  next candidates doubt hu =>
    split at h
    next hany =>
      cases h
      obtain ⟨m, -, hm⟩ := List.any_eq_true.1 hany
      simp [falsifiable_of_confirms hn hm]
    next => cases h
  next => cases h

/-! ### Answers -/

theorem falsifiable_iff_of_settleReduced {s : Solver} {b : Bool} (hn : (names q.bindings).Nodup)
    (h : s.settleReduced q = .ok b) : q.Falsifiable ↔ b = false := by
  unfold settleReduced at h
  split at h
  next =>
    rcases hsearch : hasCounterexample q (s.domain q) with e | found
    · rw [hsearch] at h
      cases h
    · rw [hsearch] at h
      cases found with
      | true =>
        cases h
        simp [falsifiable_of_hasCounterexample hn hsearch]
      | false =>
        replace h : (if q.bindings.all (·.base == .bool) = true then .ok true else byRefutation q) = .ok b := h
        split at h
        next hbool =>
          cases h
          simpa using (valid_iff hn).1 (valid_of_hasCounterexample hbool hsearch)
        next => exact falsifiable_iff_of_byRefutation hn h
  next => exact falsifiable_iff_of_byRefutation hn h

theorem falsifiable_eliminate_iff {s : Solver} {b : Bool} (hn : (names q.bindings).Nodup)
    (h : s.settle q = .ok b) : q.eliminate.Falsifiable ↔ b = false :=
  falsifiable_iff_of_settleReduced (hn.sublist (names_eliminate_sublist q)) h

/-- A query that the solver calls valid is true for all integers and truth values. -/
theorem valid_of_settle (s : Solver) (q : Query) (hn : (names q.bindings).Nodup) (h : s.settle q = .ok true) :
    q.Valid := by
  rw [valid_iff hn]
  intro hf
  exact absurd ((falsifiable_eliminate_iff hn h).1 hf.eliminate) (by simp)

/-- Whether `x` exceeds a number, given that it is the successor of a positive integer. -/
def successorExceeds (n : Int) : Query :=
  ⟨[⟨"x", .int⟩, ⟨"y", .int⟩],
    [.equal (.var "x") (.binary .add (.var "y") (.int 1)), .binary .lt (.int 0) (.var "y")],
    .binary .lt (.int n) (.var "x")⟩

theorem successorExceeds_one_valid :
    settle ⟨1, 100⟩ (successorExceeds 1) = .ok true ∧ (successorExceeds 1).Valid := by
  have h : settle ⟨1, 100⟩ (successorExceeds 1) = .ok true := by cbv
  exact ⟨h, valid_of_settle ⟨1, 100⟩ (successorExceeds 1) (by decide) h⟩

/-- A query of predicates that the solver calls invalid has a counterexample. -/
theorem exists_refuted_of_settle (s : Solver) (q : Query) (hn : (names q.bindings).Nodup) (hw : q.WellTyped)
    (h : s.settle q = .ok false) : ∃ env, Assigns q.bindings env ∧ q.Refuted env := by
  have hf : q.eliminate.Falsifiable := (falsifiable_eliminate_iff hn h).2 rfl
  exact (Falsifiable.of_eliminate hw hf).exists_refuted hn

theorem successorExceeds_two_refuted : settle ⟨1, 100⟩ (successorExceeds 2) = .ok false ∧
    ∃ env, Assigns (successorExceeds 2).bindings env ∧ (successorExceeds 2).Refuted env := by
  have h : settle ⟨1, 100⟩ (successorExceeds 2) = .ok false := by cbv
  exact ⟨h, exists_refuted_of_settle ⟨1, 100⟩ (successorExceeds 2) (by decide) (by decide) h⟩

end Solver

end LayerCheck
