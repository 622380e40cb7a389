import Mathlib
import LayerCheck.Proofs.Solver.Candidates
import LayerCheck.Proofs.Solver.WordOperation

/-! Where a refutation breaks off. Sorting cases and rebuilding values never do. Combining bounds does exactly
when a sum of two bounds has the least word as a coefficient, and then at the magnitude of that word, since
every form that is kept comes from a difference that has an opposite or from a sum that was tightened. There
are queries for which that happens. -/
namespace LayerCheck

/-! ### Combinations -/

namespace Elimination

open Linear Stop

/-- A lower and an upper bound of a variable. -/
structure Pair where
  name : String
  lower : Linear
  upper : Linear
deriving DecidableEq, Repr

namespace Pair

def combined (p : Pair) : Except Stop Linear := combine p.name p.lower p.upper

/-- The combination of a pair before it is tightened. -/
def sum? (p : Pair) : Option Linear :=
  (p.upper.scale (-p.lower.coefficient p.name)).bind fun scaled =>
    scaled.addScaled p.lower (p.upper.coefficient p.name)

theorem kept_of_sum? {p : Pair} {sum : Linear} (h : p.sum? = some sum) : sum.Kept := by
  obtain ⟨scaled, hscaled, h⟩ := Option.bind_eq_some_iff.1 h
  exact (proper_scale hscaled).kept_addScaled h

/-- Where the lower bound is balanced, only the sum of a pair decides what comes of it. -/
theorem combined_eq {p : Pair} (hkept : p.lower.Kept) (hbalanced : p.lower.Balanced) :
    p.combined = orRefused p.sum? >>= fun sum => orBroken sum.tighten! := by
  have hopposite : (WordOp.opposite (p.lower.coefficient p.name)).inRange = true := by
    have hne := (balanced_iff hkept.sorted).1 hbalanced p.name
    have hword := hkept.toProper.fits_coefficient p.name
    rw [least128] at hne
    rw [fits128_iff] at hword
    exact fits128_iff.2 (by omega)
  rw [combined, combine, WordOp.run_of_inRange hopposite]
  change (orRefused (p.upper.scale (-p.lower.coefficient p.name)) >>= fun scaled => _) = _
  rw [sum?]
  cases p.upper.scale (-p.lower.coefficient p.name) <;> rfl

theorem combined_eq_broken {p : Pair} {op : WordOp} (hkept : p.lower.Kept) (hbalanced : p.lower.Balanced) :
    p.combined = .error (.broken op) ↔
      op = .magnitude least128 ∧ ∃ sum, p.sum? = some sum ∧ ¬ sum.Balanced := by
  rw [combined_eq hkept hbalanced]
  cases hsum : p.sum? with
  | none =>
    refine iff_of_false (fun h => ?_) (by simp)
    cases h
  | some sum =>
    have hkept := kept_of_sum? hsum
    change orBroken sum.tighten! = _ ↔ _
    by_cases hb : sum.Balanced
    · rw [hkept.tighten!_eq hb]
      refine iff_of_false (fun h => ?_) (by simpa using fun _ => hb)
      cases h
    · rw [hkept.tighten!_of_not_balanced hb]
      simp [orBroken, Except.mapError, hb, eq_comm]

theorem balanced_of_combined {p : Pair} {e : Linear} (hkept : p.lower.Kept) (hbalanced : p.lower.Balanced)
    (h : p.combined = .ok e) : e.Kept ∧ e.Balanced := by
  rw [combined_eq hkept hbalanced] at h
  obtain ⟨sum, hsum, h⟩ := bind_eq_ok.1 h
  have hsum := kept_of_sum? (orRefused_eq_ok.1 hsum)
  have htighten := orBroken_eq_ok.1 h
  by_cases hb : sum.Balanced
  · rw [tighten!_eq_ok htighten]
    exact ⟨hsum.tighten, hsum.balanced_tighten hb⟩
  · rw [hsum.tighten!_of_not_balanced hb] at htighten
    cases htighten

end Pair

def pairs (x : String) (lowers uppers : List Linear) : List Pair :=
  lowers.flatMap fun lower => uppers.map fun upper => ⟨x, lower, upper⟩

/-- The pairs that are looked at: the first that has no combination is the last one. -/
def attempted : List Pair → List Pair
  | [] => []
  | p :: ps => p :: if p.combined.isOk then attempted ps else []

variable {es es' : List Linear} {e : Linear} {x : String} {p : Pair} {s : Stage} {op : WordOp}

theorem mem_pairs {lowers uppers : List Linear} :
    p ∈ pairs x lowers uppers ↔ ∃ lower ∈ lowers, ∃ upper ∈ uppers, p = ⟨x, lower, upper⟩ := by
  simp only [pairs, List.mem_flatMap, List.mem_map, eq_comm]

theorem mem_of_attempted {ps : List Pair} (h : p ∈ attempted ps) : p ∈ ps := by
  induction ps with
  | nil => cases h
  | cons p' ps ih =>
    rw [attempted] at h
    split at h
    next =>
      rcases List.mem_cons.1 h with rfl | h
      · exact List.mem_cons_self
      · exact List.mem_cons_of_mem _ (ih h)
    next => exact List.mem_singleton.1 h ▸ List.mem_cons_self

/-- What ends the combinations of some pairs is what ends one that is looked at. -/
theorem findSome?_combined {ps : List Pair} {stop : Stop} :
    ps.findSome? (fun p => errorOf? p.combined) = some stop ↔ ∃ p ∈ attempted ps, p.combined = .error stop := by
  induction ps with
  | nil => simp [attempted]
  | cons p ps ih =>
    rw [List.findSome?_cons, attempted]
    cases hp : p.combined with
    | error stop' => simp [errorOf?, hp, Except.isOk, Except.toBool]
    | ok e =>
      simp only [errorOf?, Except.isOk, Except.toBool, if_true, List.mem_cons, exists_eq_or_imp, hp, reduceCtorEq,
        false_or]
      exact ih

/-- Combining all bounds fails with the first pair that fails. -/
theorem errorOf?_combineAll (x : String) (uppers lowers set : List Linear) :
    errorOf? (combineAll x uppers lowers set) =
      (pairs x lowers uppers).findSome? fun p => errorOf? p.combined := by
  induction lowers generalizing set with
  | nil => rfl
  | cons lower lowers ih =>
    have hpairs : pairs x (lower :: lowers) uppers =
        (uppers.map fun upper => ⟨x, lower, upper⟩) ++ pairs x lowers uppers := List.flatMap_cons
    rw [combineAll, errorOf?_bind _ _ fun new => ih _, errorOf?_mapM, hpairs, List.findSome?_append,
      List.findSome?_map]
    rfl

theorem combineAll_eq_error (uppers lowers set : List Linear) {stop : Stop} :
    combineAll x uppers lowers set = .error stop ↔
      ∃ p ∈ attempted (pairs x lowers uppers), p.combined = .error stop := by
  rw [← errorOf?_eq_some, errorOf?_combineAll, findSome?_combined]

/-- The pairs of bounds of a variable. -/
def pairsOn (x : String) (es : List Linear) : List Pair :=
  let mentioning := (mixed es).filter (·.coefficient x != 0)
  pairs x (lowers x mentioning) (uppers x mentioning)

/-- The rounds from some constraints try to combine a pair. -/
inductive Combines : List Linear → Pair → Prop
  | now {es : List Linear} {x : String} {p : Pair} : chosen? es = some x → p ∈ attempted (pairsOn x es) →
      Combines es p
  | later {es es' : List Linear} {s : Stage} {p : Pair} : round es = .next s es' → Combines es' p → Combines es p

/-- A round breaks off exactly if one of its pairs does. -/
theorem round_eq_broken : round es = .ended (.broken op) ↔
    ∃ x, chosen? es = some x ∧ ∃ p ∈ attempted (pairsOn x es), p.combined = .error (.broken op) := by
  unfold round roundOver chosen?
  split
  next => simp
  next =>
    cases cheapest? (cost (mixed es)) (namesOf (mixed es)) with
    | none => simp
    | some x =>
      simp only [Option.some.injEq, exists_eq_left', pairsOn]
      rw [← combineAll_eq_error _ _ ((mixed es).filter (not ∘ (·.coefficient x != 0)))]
      generalize combineAll x _ _ _ = combined
      rcases combined with (_ | op') | es'
      · simp
      · simp
      · simp only
        split <;> simp

/-- What is left after a round is kept and balanced if what it began with was. -/
theorem Eliminates.balanced (h : Eliminates es s es') (hes : ∀ e ∈ es, e.Kept ∧ e.Balanced) :
    ∀ e ∈ es', e.Kept ∧ e.Balanced := by
  intro e he
  rcases h.mem_rest he with ⟨he, -⟩ | ⟨lower, hl, upper, -, -, -, hc⟩
  · exact hes e he
  · obtain ⟨hkept, hbalanced⟩ := hes lower hl
    exact Pair.balanced_of_combined (p := ⟨s.name, lower, upper⟩) hkept hbalanced hc

/-- The lower bound of a pair that the next round combines is one of the constraints. -/
theorem lower_mem (h : p ∈ attempted (pairsOn x es)) : p.lower ∈ es := by
  obtain ⟨lower, hl, upper, -, rfl⟩ := mem_pairs.1 (mem_of_attempted h)
  exact (mem_mixed.1 (List.mem_filter.1 (mem_lowers.1 hl).1).1).1

/-- A sum of two bounds is formed that has the least word as a coefficient. -/
def Unbalanced (es : List Linear) : Prop := ∃ p sum, Combines es p ∧ p.sum? = some sum ∧ ¬ sum.Balanced

/-- A pair with such a sum breaks off its round. -/
theorem round_of_unbalanced (hes : ∀ e ∈ es, e.Kept ∧ e.Balanced) (hx : chosen? es = some x)
    (hp : p ∈ attempted (pairsOn x es)) {sum : Linear} (hsum : p.sum? = some sum) (hb : ¬ sum.Balanced) :
    round es = .ended (.broken (.magnitude least128)) := by
  obtain ⟨hkept, hbalanced⟩ := hes _ (lower_mem hp)
  exact round_eq_broken.2 ⟨x, hx, p, hp, (Pair.combined_eq_broken hkept hbalanced).2 ⟨rfl, sum, hsum, hb⟩⟩

theorem unbalanced_iff_of_ended {r : Elimination} (hes : ∀ e ∈ es, e.Kept ∧ e.Balanced)
    (h : round es = .ended r) : r = .broken op ↔ op = .magnitude least128 ∧ Unbalanced es := by
  constructor
  · rintro rfl
    obtain ⟨x, hx, p, hp, hbroken⟩ := round_eq_broken.1 h
    obtain ⟨hkept, hbalanced⟩ := hes _ (lower_mem hp)
    obtain ⟨hop, sum, hsum, hb⟩ := (Pair.combined_eq_broken hkept hbalanced).1 hbroken
    exact ⟨hop, p, sum, .now hx hp, hsum, hb⟩
  · rintro ⟨rfl, p, sum, hp, hsum, hb⟩
    cases hp with
    | now hx hp =>
      cases h.symm.trans (round_of_unbalanced hes hx hp hsum hb)
      rfl
    | later h' _ => cases h.symm.trans h'

theorem unbalanced_iff_of_next (hes : ∀ e ∈ es, e.Kept ∧ e.Balanced) (h : round es = .next s es') :
    Unbalanced es ↔ Unbalanced es' := by
  constructor
  · rintro ⟨p, sum, hp, hsum, hb⟩
    cases hp with
    | now hx hp => cases h.symm.trans (round_of_unbalanced hes hx hp hsum hb)
    | later h' hp =>
      cases h.symm.trans h'
      exact ⟨p, sum, hp, hsum, hb⟩
  · rintro ⟨p, sum, hp, hsum, hb⟩
    exact ⟨p, sum, .later h hp, hsum, hb⟩

theorem onto_eq_broken {r : Elimination} {stages : List Stage} : r.onto stages = .broken op ↔ r = .broken op := by
  cases r <;> simp [onto]

/-- Rounds break off exactly if they form a sum with the least word as a coefficient. -/
theorem Ends.broken_iff {r : Elimination} (h : Ends es r) (hes : ∀ e ∈ es, e.Kept ∧ e.Balanced) (op : WordOp) :
    r = .broken op ↔ op = .magnitude least128 ∧ Unbalanced es := by
  induction h with
  | ended hround => exact unbalanced_iff_of_ended hes hround
  | next hround _ ih =>
    rw [onto_eq_broken, unbalanced_iff_of_next hes hround]
    exact ih ((round_eq_next hround).balanced hes)

/-- What the stages of an elimination keep. -/
theorem kept_of_ends {r : Elimination} (h : Ends es r) (hes : ∀ e ∈ es, e.Kept ∧ e.Balanced)
    {stages : List Stage} (hr : r = .feasible stages) :
    ∀ s ∈ stages, ∀ e ∈ s.constraints, fits128 e.constant = true ∧ e.coefficient s.name ≠ 0 := by
  induction h generalizing stages with
  | ended hround =>
    subst hr
    obtain ⟨rfl, -, -⟩ := round_eq_feasible hround
    simp
  | next hround _ ih =>
    have helim := round_eq_next hround
    obtain ⟨later, rfl, rfl⟩ := onto_eq_feasible hr
    refine List.forall_mem_append.2 ⟨ih (helim.balanced hes) rfl, List.forall_mem_singleton.2 fun e he => ?_⟩
    refine ⟨(hes e (helim.mem_constraints he)).1.constant_word, ?_⟩
    rw [helim.constraints] at he
    simpa using (List.mem_filter.1 he).2

end Elimination

/-! ### Rebuilt values -/

namespace Stage

open Linear Stop

variable {x : String} {values : NameMap Int} {op : WordOp}

theorem orRefused_ne_broken {α : Type} (o : Option α) : orRefused o ≠ .error (.broken op) := by
  cases o <;> simp [orRefused]

theorem fits128_valueWithout {m : NameMap Int} {t n : Int} (ht : fits128 t = true)
    (h : valueWithout x values m t = some n) : fits128 n = true := by
  fun_induction valueWithout x values m t with
  | case1 t =>
    cases h
    exact ht
  | case2 c rest t ih => exact ih ht h
  | case3 y c rest t hne ih =>
    obtain ⟨product, -, h⟩ := Option.bind_eq_some_iff.1 h
    obtain ⟨sum, hsum, h⟩ := Option.bind_eq_some_iff.1 h
    obtain ⟨rfl, hfits⟩ := word128_eq_some.1 hsum
    exact ih _ hfits h

/-- Each divisor is positive: a coefficient, or the opposite of a negative one. -/
theorem bounds_ne_broken {es : List Linear} (hes : ∀ e ∈ es, fits128 e.constant = true ∧ e.coefficient x ≠ 0)
    (lower upper : Option Int) : bounds x values es lower upper ≠ .error (.broken op) := by
  induction es generalizing lower upper with
  | nil => simp [bounds]
  | cons e es ih =>
    obtain ⟨⟨hconstant, hne⟩, hes⟩ := List.forall_mem_cons.1 hes
    intro h
    rcases bind_eq_error.1 h with h | ⟨value, hvalue, h⟩
    · exact orRefused_ne_broken _ h
    · have hvalue := fits128_valueWithout hconstant (orRefused_eq_ok.1 hvalue)
      split at h
      next hpos =>
        rcases bind_eq_error.1 h with h | ⟨opposite, hopposite, h⟩
        · exact orRefused_ne_broken _ h
        · obtain ⟨rfl, hword⟩ := word128_eq_some.1 (orRefused_eq_ok.1 hopposite)
          rw [WordOp.run_of_inRange (inRange_wholes hword hpos)] at h
          exact ih hes _ _ h
      next hpos =>
        rcases bind_eq_error.1 h with h | ⟨opposite, hopposite, h⟩
        · exact orRefused_ne_broken _ h
        · obtain ⟨rfl, -⟩ := word128_eq_some.1 (orRefused_eq_ok.1 hopposite)
          rw [ceilDiv!_eq hvalue (by omega)] at h
          exact ih hes _ _ h

theorem backSubstitute_ne_broken {stages : List Stage}
    (h : ∀ s ∈ stages, ∀ e ∈ s.constraints, fits128 e.constant = true ∧ e.coefficient s.name ≠ 0)
    (values : NameMap Int) : backSubstitute stages values ≠ .error (.broken op) := by
  induction stages generalizing values with
  | nil => simp [backSubstitute]
  | cons s stages ih =>
    obtain ⟨hs, hstages⟩ := List.forall_mem_cons.1 h
    intro h
    rcases bind_eq_error.1 h with h | ⟨b, -, h⟩
    · exact bounds_ne_broken hs none none h
    · rcases bind_eq_error.1 h with h | ⟨value, -, h⟩
      · exact orRefused_ne_broken _ h
      · exact ih hstages _ h

end Stage

/-! ### Refutations that break off -/

namespace Refutation

open Linear

/-- The constraints of a case of a query, as the elimination begins with them. -/
def Constrains (q : Query) (es : List Linear) : Prop :=
  ∃ cs, casesOf? q = some cs ∧ ∃ c ∈ cs, ∃ settings fs, sort c [] [] = .ok (some (settings, fs)) ∧ es = toSet fs

/-- A sum of two bounds is formed. -/
def Sums (q : Query) (e : Linear) : Prop :=
  ∃ es, Constrains q es ∧ ∃ p, Elimination.Combines es p ∧ p.sum? = some e

variable {q : Query} {op : WordOp}

theorem kept_casesOf? {cs : Cases} (h : casesOf? q = some cs) : Cases.Each (fun e => e.Kept ∧ e.Balanced) cs := by
  refine each_casesOf? (fun op l r cs h c hc e he => ?_) h
  obtain ⟨el, er, diff, negated, hel, hdiff, hnegated, hform⟩ := Cases.each_comparison? h c hc e he
  have hkept := hel.kept_addScaled hdiff
  have hkept' := kept_scale hnegated
  obtain ⟨hbalanced, hbalanced'⟩ := hkept.toProper.balanced_of_scale hnegated
  rcases hform with rfl | rfl | he | he
  · exact ⟨hkept, hbalanced⟩
  · exact ⟨hkept', hbalanced'⟩
  · exact ⟨hkept.offset he, hbalanced.offset he⟩
  · exact ⟨hkept'.offset he, hbalanced'.offset he⟩

/-- Sorting a case whose constraints are balanced does not break off, and leaves balanced constraints. -/
theorem sort_of_balanced {c : List Atom} (hc : ∀ e, .atMostZero e ∈ c → e.Kept ∧ e.Balanced)
    (settings : NameMap Bool) {es : List Linear} (hes : ∀ e ∈ es, e.Kept ∧ e.Balanced) :
    ∃ r, sort c settings es = .ok r ∧ ∀ settings' es', r = some (settings', es') → ∀ e ∈ es', e.Kept ∧ e.Balanced := by
  fun_induction sort c settings es with
  | case1 settings es =>
    refine ⟨_, rfl, fun settings' es' h => ?_⟩
    cases h
    exact hes
  | case2 e rest settings es ih =>
    obtain ⟨hkept, hbalanced⟩ := hc e List.mem_cons_self
    rw [hkept.tighten!_eq hbalanced]
    refine ih _ (fun e' he' => hc e' (List.mem_cons_of_mem _ he')) (List.forall_mem_cons.2 ⟨?_, hes⟩)
    exact ⟨hkept.tighten, hkept.balanced_tighten hbalanced⟩
  | case3 x rest settings es known hx ih => exact ih (fun e' he' => hc e' (List.mem_cons_of_mem _ he')) hes
  | case4 => exact ⟨none, rfl, fun _ _ h => by cases h⟩
  | case5 x b rest settings es hx ih => exact ih (fun e' he' => hc e' (List.mem_cons_of_mem _ he')) hes

/-- A case breaks off exactly if its elimination forms a sum with the least word as a coefficient. -/
theorem tryCase_eq_broken {c : List Atom} (hc : ∀ e, .atMostZero e ∈ c → e.Kept ∧ e.Balanced) :
    tryCase c = .broken op ↔ op = .magnitude least128 ∧
      ∃ settings fs, sort c [] [] = .ok (some (settings, fs)) ∧ Elimination.Unbalanced (toSet fs) := by
  obtain ⟨r, hsort, hes⟩ := sort_of_balanced hc [] (List.forall_mem_nil _)
  unfold tryCase
  rw [hsort]
  rcases r with _ | ⟨settings, fs⟩
  · simp
  · have hset : ∀ e ∈ toSet fs, e.Kept ∧ e.Balanced := fun e he => hes settings fs rfl e (mem_toSet.1 he)
    have hends := Elimination.ends_ofConstraints fun e he => (hset e he).1.toTidy
    have hbroken := hends.broken_iff hset op
    simp only [Except.ok.injEq, Option.some.injEq, Prod.mk.injEq, and_assoc, exists_and_left, exists_eq_left']
    rw [← hbroken]
    cases hr : Elimination.ofConstraints (toSet fs) with
    | infeasible => simp
    | tooLarge => simp
    | broken op' => simp
    | feasible stages =>
      have hstages := Elimination.kept_of_ends hends hset hr
      rcases hvalues : Stage.backSubstitute stages [] with (_ | op') | values
      · simp [hvalues]
      · exact absurd hvalues (Stage.backSubstitute_ne_broken hstages [])
      · simp [hvalues]

theorem broken?_eq_some {o : Outcome} : o.broken? = some op ↔ o = .broken op := by
  cases o <;> simp [Outcome.broken?]

theorem ofOutcomes_eq_broken {outcomes : List Outcome} :
    ofOutcomes outcomes = .broken op ↔ outcomes.findSome? Outcome.broken? = some op := by
  unfold ofOutcomes
  cases outcomes.findSome? Outcome.broken? with
  | none =>
    simp only [reduceCtorEq, iff_false]
    split <;> simp
  | some op' => simp

theorem ofQuery_broken_iff_findSome? : ofQuery q = .broken op ↔
    ∃ cs, casesOf? q = some cs ∧ (cs.map tryCase).findSome? Outcome.broken? = some op := by
  unfold ofQuery casesOf? Query.flags
  simp only
  cases premiseCases _ q.premises Cases.always with
  | none => simp
  | some premises =>
    simp only [Option.bind_some]
    cases (Cases.ofTerm? _ q.conclusion false).bind (Cases.both premises) with
    | none => simp
    | some cs => simp [ofOutcomes_eq_broken]

/-- A refutation breaks off exactly if a sum of two bounds has the least word as a coefficient, and then at the
magnitude of that word. -/
theorem ofQuery_eq_broken_iff (q : Query) (op : WordOp) : ofQuery q = .broken op ↔
    op = .magnitude least128 ∧ ∃ e, Sums q e ∧ ¬ e.Balanced := by
  rw [ofQuery_broken_iff_findSome?]
  constructor
  · rintro ⟨cs, hcs, h⟩
    obtain ⟨o, ho, hbroken⟩ := List.exists_of_findSome?_eq_some h
    obtain ⟨c, hc, rfl⟩ := List.mem_map.1 ho
    obtain ⟨hop, settings, fs, hsort, p, sum, hp, hsum, hb⟩ :=
      (tryCase_eq_broken (kept_casesOf? hcs c hc)).1 (broken?_eq_some.1 hbroken)
    exact ⟨hop, sum, ⟨_, ⟨cs, hcs, c, hc, settings, fs, hsort, rfl⟩, p, hp, hsum⟩, hb⟩
  · rintro ⟨rfl, sum, ⟨_, ⟨cs, hcs, c, hc, settings, fs, hsort, rfl⟩, p, hp, hsum⟩, hb⟩
    refine ⟨cs, hcs, ?_⟩
    have hbroken : tryCase c = .broken (.magnitude least128) :=
      (tryCase_eq_broken (kept_casesOf? hcs c hc)).2 ⟨rfl, settings, fs, hsort, p, sum, hp, hsum, hb⟩
    cases hfirst : (cs.map tryCase).findSome? Outcome.broken? with
    | none =>
      have hnone := List.findSome?_eq_none_iff.1 hfirst _ (List.mem_map_of_mem hc)
      rw [broken?_eq_some.2 hbroken] at hnone
      cases hnone
    | some op' =>
      -- an earlier case may be the one that is told, but it breaks off at the same word
      obtain ⟨o, ho, hearlier⟩ := List.exists_of_findSome?_eq_some hfirst
      obtain ⟨c', hc', rfl⟩ := List.mem_map.1 ho
      rw [((tryCase_eq_broken (kept_casesOf? hcs c' hc')).1 (broken?_eq_some.1 hearlier)).1]

/-- Four times the square of a 64-bit word. -/
def wideTerm : Term :=
  .binary .mul (.binary .mul (.int 4611686018427387904) (.int 4611686018427387904)) (.int 4)

/-- Two bounds of `x` whose sum has the least word as the coefficient of `y`. -/
def wideQuery : Query :=
  ⟨[⟨"x", .int⟩, ⟨"y", .int⟩],
    [.binary .ge (.binary .add (.var "x") (.binary .mul (.binary .sub wideTerm (.int 1)) (.var "y"))) (.int 0),
      .binary .lt (.var "x") (.binary .mul (.binary .add wideTerm (.int 1)) (.var "y"))],
    .binary .ge (.var "y") (.int 1)⟩

theorem wideQuery_valid : wideQuery.Valid := by
  rw [Query.valid_iff (by decide)]
  rintro ⟨ρ, hρ, hp, hc⟩
  obtain ⟨u, hx, hu⟩ := hρ.fits "x" .int rfl
  obtain ⟨v, hy, hv⟩ := hρ.fits "y" .int rfl
  cases u with
  | bool b => cases hu
  | int m =>
    cases v with
    | bool b => cases hv
    | int n =>
      have hlower := hp _ List.mem_cons_self
      have hupper := hp _ (List.mem_cons_of_mem _ List.mem_cons_self)
      simp [wideQuery, wideTerm, Term.Holds, Term.denote, hx, hy, BinaryOp.shortcut?, Value.binary?]
        at hlower hupper hc
      omega

/-- A valid query whose refutation breaks off. -/
theorem wideQuery_breaks_off : wideQuery.Valid ∧ ofQuery wideQuery = .broken (.magnitude least128) :=
  ⟨wideQuery_valid, by cbv⟩

end Refutation

end LayerCheck
