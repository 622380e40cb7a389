import Mathlib
import LayerCheck.Proofs.Solver.Rounds

/-! Values for eliminated variables. Each stage bounds its variable from both sides once the variables that
were eliminated after it have values. A value between the bounds satisfies the constraints of the
stage, and it leaves alone the constraints that were left when the variable went, so the values that are
rebuilt satisfy all constraints that the elimination began with. -/
namespace LayerCheck

namespace Linear

/-- The values of variables, zero where none is given. -/
def reading (values : NameMap Int) (x : String) : Int := (values.get? x).getD 0

theorem reading_insert (values : NameMap Int) (x : String) (n : Int) :
    reading (NameMap.insert x n values) = fun y => if y = x then n else reading values y := by
  funext y
  rw [reading, NameMap.get?_insert]
  split <;> rfl

theorem total_add (f g : String → Int) (m : NameMap Int) :
    total (fun y => f y + g y) m = total f m + total g m := by
  induction m with
  | nil => rfl
  | cons p m ih =>
    rw [total_cons, total_cons, total_cons, ih]
    ring

theorem total_mul (f : String → Int) (n : Int) (m : NameMap Int) :
    total (fun y => f y * n) m = total f m * n := by
  induction m with
  | nil => simp [total]
  | cons p m ih =>
    rw [total_cons, total_cons, ih]
    ring

/-- The value of a form in terms of one of its variables. -/
theorem value_eq_coefficient_mul {e : Linear} (hs : NameMap.Sorted e.coefficients) (f : String → Int)
    (x : String) (n : Int) : e.value (fun y => if y = x then n else f y) =
      e.coefficient x * n + e.value (fun y => if y = x then 0 else f y) := by
  have hparts : (fun y => if y = x then n else f y) =
      fun y => (if y = x then 1 else 0) * n + (if y = x then 0 else f y) := by
    funext y
    split <;> simp
  rw [value, value, hparts, total_add, total_mul, ← coefficient_eq_total hs]
  ring

theorem value_of_coefficient_eq_zero {e : Linear} (hs : NameMap.Sorted e.coefficients) {x : String}
    (hx : e.coefficient x = 0) (f : String → Int) (n : Int) :
    e.value (fun y => if y = x then n else f y) = e.value f := by
  have hself : f = fun y => if y = x then f x else f y := by
    funext y
    split <;> simp_all
  calc e.value (fun y => if y = x then n else f y)
      = e.value (fun y => if y = x then f x else f y) := by
        rw [value_eq_coefficient_mul hs, value_eq_coefficient_mul hs f x (f x), hx, Int.zero_mul, Int.zero_mul]
    _ = e.value f := by rw [← hself]

theorem valueWithout_eq_some {values : NameMap Int} {x : String} {m : NameMap Int} {t n : Int}
    (h : valueWithout x values m t = some n) :
    n = total (fun y => if y = x then 0 else reading values y) m + t := by
  fun_induction valueWithout x values m t with
  | case1 t =>
    cases h
    simp [total]
  | case2 c rest t ih =>
    rw [ih h, total_cons]
    simp
  | case3 y c rest t hne ih =>
    obtain ⟨product, hproduct, h⟩ := Option.bind_eq_some_iff.1 h
    obtain ⟨sum, hsum, h⟩ := Option.bind_eq_some_iff.1 h
    obtain ⟨rfl, -⟩ := word128_eq_some.1 hproduct
    obtain ⟨rfl, -⟩ := word128_eq_some.1 hsum
    rw [ih _ h, total_cons, if_neg hne, reading]
    ring

end Linear

namespace Stage

open Linear Stop

/-- An integer is not beyond the bounds that there are. -/
def Between (lower upper : Option Int) (n : Int) : Prop := (∀ l ∈ lower, l ≤ n) ∧ ∀ u ∈ upper, n ≤ u

theorem between_nearest {lower upper : Option Int} {n : Int} (h : nearest lower upper = some n) :
    Between lower upper n := by
  unfold nearest at h
  split at h
  next l u =>
    split at h
    next => cases h
    next hle =>
      cases h
      simp only [Between, Option.mem_some_iff, forall_eq']
      omega
  all_goals
    cases h
    simp [Between]

theorem between_lowerOf {lower upper : Option Int} {bound n : Int}
    (h : Between lower (some (lowerOf upper bound)) n) : Between lower upper n ∧ n ≤ bound := by
  obtain ⟨hl, hu⟩ := h
  have hmin := hu _ rfl
  cases upper with
  | none => exact ⟨⟨hl, by simp⟩, hmin⟩
  | some u =>
    have hmin : n ≤ min u bound := hmin
    exact ⟨⟨hl, by simp; omega⟩, by omega⟩

theorem between_higherOf {lower upper : Option Int} {bound n : Int}
    (h : Between (some (higherOf lower bound)) upper n) : Between lower upper n ∧ bound ≤ n := by
  obtain ⟨hl, hu⟩ := h
  have hmax := hl _ rfl
  cases lower with
  | none => exact ⟨⟨by simp, hu⟩, hmax⟩
  | some l =>
    have hmax : max l bound ≤ n := hmax
    exact ⟨⟨by simp; omega, hu⟩, by omega⟩

/-- An integer between the bounds of a variable satisfies the constraints that gave them. -/
theorem value_nonpos_of_bounds {x : String} {values : NameMap Int} {es : List Linear}
    {lower upper lower' upper' : Option Int} {n : Int} (h : bounds x values es lower upper = .ok (lower', upper'))
    (hn : Between lower' upper' n) (hs : ∀ e ∈ es, NameMap.Sorted e.coefficients)
    (hx : ∀ e ∈ es, e.coefficient x ≠ 0) :
    Between lower upper n ∧ ∀ e ∈ es, e.value (reading (NameMap.insert x n values)) ≤ 0 := by
  induction es generalizing lower upper with
  | nil =>
    cases h
    exact ⟨hn, by simp⟩
  | cons e es ih =>
    obtain ⟨hse, hs⟩ := List.forall_mem_cons.1 hs
    obtain ⟨hxe, hx⟩ := List.forall_mem_cons.1 hx
    obtain ⟨rest, hrest, h⟩ := bind_eq_ok.1 h
    have hvalue : e.value (reading (NameMap.insert x n values)) = e.coefficient x * n + rest := by
      rw [reading_insert, value_eq_coefficient_mul hse, valueWithout_eq_some (orRefused_eq_ok.1 hrest), value]
    rw [List.forall_mem_cons, hvalue]
    split at h
    next hpos =>
      obtain ⟨opposite, hopposite, h⟩ := bind_eq_ok.1 h
      obtain ⟨rfl, -⟩ := word128_eq_some.1 (orRefused_eq_ok.1 hopposite)
      obtain ⟨bound, hbound, h⟩ := bind_eq_ok.1 h
      obtain ⟨hbetween, hsolved⟩ := ih h hs hx
      obtain ⟨hbetween, hle⟩ := between_lowerOf hbetween
      rw [(WordOp.run_eq_ok.1 (orBroken_eq_ok.1 hbound)).2] at hle
      have hmul := Int.mul_le_of_le_ediv hpos hle
      exact ⟨hbetween, by linarith [Int.mul_comm n (e.coefficient x)], hsolved⟩
    next hpos =>
      obtain ⟨opposite, hopposite, h⟩ := bind_eq_ok.1 h
      obtain ⟨rfl, -⟩ := word128_eq_some.1 (orRefused_eq_ok.1 hopposite)
      obtain ⟨bound, hbound, h⟩ := bind_eq_ok.1 h
      obtain ⟨hbetween, hsolved⟩ := ih h hs hx
      obtain ⟨hbetween, hle⟩ := between_higherOf hbetween
      rw [ceilDiv!_eq_ok (orBroken_eq_ok.1 hbound)] at hle
      have hneg : 0 < -e.coefficient x := by omega
      have hround := (add_ceilDiv_nonpos_iff (s := -n) (n := rest) hneg).1 (by omega)
      exact ⟨hbetween, by linarith [Int.neg_mul_neg (e.coefficient x) n], hsolved⟩

theorem backSubstitute_append (first second : List Stage) (values : NameMap Int) :
    backSubstitute (first ++ second) values = backSubstitute first values >>= backSubstitute second := by
  induction first generalizing values with
  | nil => rfl
  | cons s first ih => simp only [List.cons_append, backSubstitute, ih, bind_assoc]

theorem backSubstitute_singleton {s : Stage} {values values' : NameMap Int}
    (h : backSubstitute [s] values = .ok values') :
    ∃ lower upper n, bounds s.name values s.constraints none none = .ok (lower, upper) ∧
      nearest lower upper = some n ∧ values' = NameMap.insert s.name n values := by
  obtain ⟨⟨lower, upper⟩, hbounds, h⟩ := bind_eq_ok.1 h
  obtain ⟨n, hn, h⟩ := bind_eq_ok.1 h
  exact ⟨lower, upper, n, hbounds, orRefused_eq_ok.1 hn, (Except.ok.inj h).symm⟩

end Stage

namespace Elimination

open Linear Stage

variable {es es' : List Linear}

theorem onto_eq_feasible {r : Elimination} {stages stages' : List Stage} (h : r.onto stages = .feasible stages') :
    ∃ later, r = .feasible later ∧ stages' = later ++ stages := by
  cases r with
  | feasible later => exact ⟨later, rfl, (Elimination.feasible.inj h).symm⟩
  | infeasible => cases h
  | tooLarge => cases h
  | broken op => cases h

/-- One stage: values that solve what a round has left are completed to values that solve what it began with. -/
theorem Eliminates.solves {s : Stage} (h : Eliminates es s es') (ht : ∀ e ∈ es, e.Tidy)
    {values values' : NameMap Int} (hsolves : Solves (reading values) es')
    (hback : backSubstitute [s] values = .ok values') : Solves (reading values') es := by
  obtain ⟨lower, upper, n, hbounds, hn, rfl⟩ := backSubstitute_singleton hback
  have hmention : ∀ e ∈ s.constraints, e.coefficient s.name ≠ 0 := by
    intro e he
    rw [h.constraints] at he
    simpa using (List.mem_filter.1 he).2
  obtain ⟨-, hstage⟩ := value_nonpos_of_bounds hbounds (between_nearest hn)
    (fun e he => (ht e (h.mem_constraints he)).sorted) hmention
  intro e he
  rcases h.cases he with ⟨hconst, hle⟩ | ⟨he, -⟩ | ⟨he', hzero⟩
  · rw [value_of_isConst hconst]
    exact hle
  · exact hstage e he
  · -- the constraint does not look at the new value
    rw [reading_insert, value_of_coefficient_eq_zero (ht e he).sorted hzero]
    exact hsolves e he'

theorem solves_of_ends {r : Elimination} (h : Ends es r) (ht : ∀ e ∈ es, e.Tidy) {stages : List Stage}
    (hr : r = .feasible stages) {values : NameMap Int} (hback : backSubstitute stages [] = .ok values) :
    Solves (reading values) es := by
  induction h generalizing stages values with
  | ended hround =>
    subst hr
    obtain ⟨rfl, hclosed, hnames⟩ := round_eq_feasible hround
    intro e he
    have hconst := isConst_of_namesOf hnames he
    rw [value_of_isConst hconst]
    exact hclosed e he hconst
  | next hround _ ih =>
    have helim := round_eq_next hround
    obtain ⟨later, rfl, rfl⟩ := onto_eq_feasible hr
    rw [backSubstitute_append] at hback
    obtain ⟨values', hlater, hback⟩ := bind_eq_ok.1 hback
    exact helim.solves ht (ih (helim.tidy ht) rfl hlater) hback

end Elimination

end LayerCheck
