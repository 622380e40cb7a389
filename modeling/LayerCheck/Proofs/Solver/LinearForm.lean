import Mathlib
import LayerCheck.Proofs.Except
import LayerCheck.Proofs.Name.Map
import LayerCheck.Solver.Linear

/-! Values of linear forms. Every operation on forms that stays inside 128-bit words does to values what
its name says, and tightening a constraint keeps its integer solutions. -/
namespace LayerCheck

theorem word128_eq_some {n m : Int} : word128 n = some m ↔ m = n ∧ fits128 n = true := by
  unfold word128
  split
  next h => simp [h, eq_comm]
  next h => simp [h]

/-! ### Exact divisions -/

/-- Euclid's algorithm over unbounded integers. -/
def euclid (a b : Int) : Int := if _h : b = 0 then a else euclid b (a.tmod b)
termination_by b.natAbs
decreasing_by
  rw [Int.natAbs_tmod]
  exact Nat.mod_lt _ (Int.natAbs_pos.2 _h)

/-- The least integer that is at least a quotient with a positive divisor. -/
def ceilDiv (n d : Int) : Int := if n % d = 0 then n / d else n / d + 1

theorem euclid!_eq_ok {a b d : Int} (h : euclid! a b = .ok d) : d = euclid a b := by
  fun_induction euclid! a b with
  | case1 a =>
    cases h
    rw [euclid, dif_pos rfl]
  | case2 => cases h
  | case3 a b hb r hr ih =>
    have hexact : r = a.tmod b := (WordOp.run_eq_ok.1 hr).2
    rw [ih h, hexact, euclid.eq_def a, dif_neg hb]

theorem ceilDiv!_eq_ok {n d q : Int} (h : ceilDiv! n d = .ok q) : q = ceilDiv n d := by
  obtain ⟨wholes, hwholes, h⟩ := bind_eq_ok.1 h
  obtain ⟨residue, hresidue, h⟩ := bind_eq_ok.1 h
  have hwholes : wholes = n / d := (WordOp.run_eq_ok.1 hwholes).2
  have hresidue : residue = n % d := (WordOp.run_eq_ok.1 hresidue).2
  rw [ceilDiv, ← hwholes, ← hresidue]
  split at h
  next hzero =>
    cases h
    rw [if_pos hzero]
  next hne => rw [if_neg hne, (WordOp.run_eq_ok.1 h).2, WordOp.exact]

theorem euclid_dvd (a b : Int) : euclid a b ∣ a ∧ euclid a b ∣ b := by
  fun_induction euclid a b with
  | case1 a => exact ⟨Int.dvd_refl a, Int.dvd_zero a⟩
  | case2 a b hb ih =>
    refine ⟨?_, ih.1⟩
    have h := Int.dvd_add (Int.dvd_mul_of_dvd_left (c := a.tdiv b) ih.1) ih.2
    rwa [Int.mul_tdiv_add_tmod a b] at h

namespace Linear

/-- The sum of some multiples of variables. -/
def total (ρ : String → Int) (m : NameMap Int) : Int := (m.map fun p => p.2 * ρ p.1).sum

def value (ρ : String → Int) (e : Linear) : Int := total ρ e.coefficients + e.constant

/-- The names of a form are in order and its coefficients are words. -/
structure Proper (e : Linear) : Prop where
  sorted : NameMap.Sorted e.coefficients
  words : ∀ p ∈ e.coefficients, fits128 p.2 = true

variable {ρ : String → Int}

theorem total_cons (p : String × Int) (m : NameMap Int) : total ρ (p :: m) = p.2 * ρ p.1 + total ρ m := by
  simp [total]

theorem total_insert {m : NameMap Int} (hs : m.Sorted) (x : String) (c : Int) :
    total ρ (NameMap.insert x c m) = total ρ m + (c - (m.get? x).getD 0) * ρ x := by
  induction m with
  | nil => simp [NameMap.insert, total, NameMap.get?]
  | cons p m ih =>
    rw [NameMap.insert]
    split
    next hlt =>
      rw [hs.get?_of_lt hlt, total_cons]
      simp only [Option.getD_none]
      ring
    next =>
      rw [NameMap.get?_cons]
      split
      next heq =>
        rw [total_cons, total_cons, heq]
        simp only [Option.getD_some]
        ring
      next hne =>
        rw [total_cons, total_cons, ih (List.pairwise_cons.1 hs).2]
        ring

theorem total_filter (m : NameMap Int) : total ρ (m.filter (·.2 != 0)) = total ρ m := by
  induction m with
  | nil => rfl
  | cons p m ih =>
    by_cases h : p.2 = 0
    · rw [List.filter_cons_of_neg (by simp [h]), total_cons, ih, h]
      ring
    · rw [List.filter_cons_of_pos (by simp [h]), total_cons, total_cons, ih]

/-! ### Sums and multiples -/

theorem addCoefficients_cons {k : Int} {sum m r : NameMap Int} {x : String} {c : Int}
    (h : addCoefficients k sum ((x, c) :: m) = some r) :
    ∃ n, fits128 n = true ∧ n = (sum.get? x).getD 0 + c * k ∧
      addCoefficients k (NameMap.insert x n sum) m = some r := by
  rw [addCoefficients] at h
  obtain ⟨product, hp, h⟩ := Option.bind_eq_some_iff.1 h
  obtain ⟨n, hn, h⟩ := Option.bind_eq_some_iff.1 h
  obtain ⟨rfl, -⟩ := word128_eq_some.1 hp
  obtain ⟨rfl, hfit⟩ := word128_eq_some.1 hn
  exact ⟨_, hfit, rfl, h⟩

theorem addCoefficients_spec {k : Int} {sum m r : NameMap Int} (hs : sum.Sorted)
    (hw : ∀ p ∈ sum, fits128 p.2 = true) (h : addCoefficients k sum m = some r) :
    (r.Sorted ∧ ∀ p ∈ r, fits128 p.2 = true) ∧ total ρ r = total ρ sum + k * total ρ m := by
  induction m generalizing sum with
  | nil =>
    cases h
    exact ⟨⟨hs, hw⟩, by simp [total]⟩
  | cons p m ih =>
    obtain ⟨n, hfit, hn, h⟩ := addCoefficients_cons h
    have hw' : ∀ p' ∈ NameMap.insert p.1 n sum, fits128 p'.2 = true := by
      intro p' hp'
      rcases NameMap.mem_insert hp' with rfl | hp'
      · exact hfit
      · exact hw p' hp'
    obtain ⟨hr, htotal⟩ := ih (hs.insert p.1 n) hw' h
    refine ⟨hr, ?_⟩
    rw [htotal, total_insert hs, total_cons, hn]
    ring

variable {e e' r : Linear} {k : Int}

theorem addScaled_eq_some (h : e.addScaled e' k = some r) :
    ∃ m, addCoefficients k e.coefficients e'.coefficients = some m ∧
      r = ⟨m.filter (·.2 != 0), e.constant + e'.constant * k⟩ := by
  unfold addScaled at h
  obtain ⟨m, hm, h⟩ := Option.bind_eq_some_iff.1 h
  obtain ⟨product, hp, h⟩ := Option.bind_eq_some_iff.1 h
  obtain ⟨constant, hc, h⟩ := Option.bind_eq_some_iff.1 h
  obtain ⟨rfl, -⟩ := word128_eq_some.1 hp
  obtain ⟨rfl, -⟩ := word128_eq_some.1 hc
  exact ⟨m, hm, (Option.some.inj h).symm⟩

theorem Proper.addScaled (he : e.Proper) (h : e.addScaled e' k = some r) : r.Proper := by
  obtain ⟨m, hm, rfl⟩ := addScaled_eq_some h
  obtain ⟨⟨hs, hw⟩, -⟩ := addCoefficients_spec (ρ := fun _ => 0) he.sorted he.words hm
  exact ⟨hs.filter _, fun p hp => hw p (List.mem_filter.1 hp).1⟩

theorem value_addScaled (he : e.Proper) (h : e.addScaled e' k = some r) :
    r.value ρ = e.value ρ + k * e'.value ρ := by
  obtain ⟨m, hm, rfl⟩ := addScaled_eq_some h
  obtain ⟨-, htotal⟩ := addCoefficients_spec (ρ := ρ) he.sorted he.words hm
  rw [value, value, value, total_filter, htotal]
  ring

theorem proper_const (n : Int) : (const n).Proper := ⟨List.Pairwise.nil, fun _ h => by cases h⟩

theorem proper_ofName (x : String) : (ofName x).Proper := by
  refine ⟨List.pairwise_singleton _ _, fun p hp => ?_⟩
  rw [List.mem_singleton.1 hp]
  rfl

theorem value_const (n : Int) : (const n).value ρ = n := by simp [value, total, const]

theorem value_ofName (x : String) : (ofName x).value ρ = ρ x := by simp [value, total, ofName]

theorem proper_scale (h : e.scale k = some r) : r.Proper := (proper_const 0).addScaled h

theorem value_scale (h : e.scale k = some r) : r.value ρ = k * e.value ρ := by
  rw [value_addScaled (proper_const 0) h, value_const]
  ring

theorem offset_eq_some (h : e.offset k = some r) : r = { e with constant := e.constant + k } := by
  unfold offset at h
  obtain ⟨n, hn, h⟩ := Option.bind_eq_some_iff.1 h
  obtain ⟨rfl, -⟩ := word128_eq_some.1 hn
  exact (Option.some.inj h).symm

theorem Proper.offset (he : e.Proper) (h : e.offset k = some r) : r.Proper := by
  rw [offset_eq_some h]
  exact ⟨he.sorted, he.words⟩

theorem value_offset (h : e.offset k = some r) : r.value ρ = e.value ρ + k := by
  rw [offset_eq_some h, value, value]
  ring

theorem value_of_isConst (h : e.isConst = true) : e.value ρ = e.constant := by
  have hnil : e.coefficients = [] := by simpa [isConst] using h
  simp [value, total, hnil]

/-! ### Coefficients -/

/-- A coefficient is the sum where its variable is one and all others are zero. -/
theorem coefficient_eq_total (hs : NameMap.Sorted e.coefficients) (x : String) :
    e.coefficient x = total (fun y => if y = x then 1 else 0) e.coefficients := by
  rw [coefficient]
  generalize e.coefficients = m at hs
  induction m with
  | nil => rfl
  | cons p m ih =>
    obtain ⟨hp, hs'⟩ := List.pairwise_cons.1 hs
    rw [NameMap.get?_cons, total_cons, ← ih hs']
    by_cases h : x = p.1
    · subst h
      have hnone : NameMap.get? m p.1 = none := by
        cases hx : NameMap.get? m p.1 with
        | none => rfl
        | some a => exact absurd (hp _ (NameMap.mem_of_get? hx)) (String.lt_irrefl _)
      simp [hnone]
    · simp [h, Ne.symm h]

theorem coefficient_addScaled (he : e.Proper) (he' : e'.Proper) (h : e.addScaled e' k = some r) (x : String) :
    r.coefficient x = e.coefficient x + k * e'.coefficient x := by
  have hr := he.addScaled h
  obtain ⟨m, hm, rfl⟩ := addScaled_eq_some h
  obtain ⟨-, htotal⟩ := addCoefficients_spec (ρ := fun y => if y = x then 1 else 0) he.sorted he.words hm
  rw [coefficient_eq_total hr.sorted, coefficient_eq_total he.sorted, coefficient_eq_total he'.sorted,
    total_filter, htotal]

theorem coefficient_scale (he : e.Proper) (h : e.scale k = some r) (x : String) :
    r.coefficient x = k * e.coefficient x := by
  rw [coefficient_addScaled (proper_const 0) he h]
  simp [coefficient, const, NameMap.get?]

theorem Proper.fits_coefficient (he : e.Proper) (x : String) : fits128 (e.coefficient x) = true := by
  rw [coefficient]
  cases h : e.coefficients.get? x with
  | none => rfl
  | some c => exact he.words _ (NameMap.mem_of_get? h)

/-! ### Tightening -/

/-- The common divisor of some coefficients and an integer. -/
def divisorFrom (d : Int) (m : NameMap Int) : Int := m.foldl (fun d p => euclid d p.2.natAbs) d

/-- The common divisor of the coefficients. -/
def divisor (e : Linear) : Int := divisorFrom 0 e.coefficients

/-- A tightened constraint, by exact divisions. -/
def tighten (e : Linear) : Linear :=
  if 1 < e.divisor then
    ⟨e.coefficients.map fun p => (p.1, p.2.tdiv e.divisor), ceilDiv e.constant e.divisor⟩
  else e

theorem divisorFrom!_eq_ok {d d' : Int} {m : NameMap Int} (h : divisorFrom! d m = .ok d') : d' = divisorFrom d m := by
  induction m generalizing d with
  | nil =>
    cases h
    rfl
  | cons p m ih =>
    obtain ⟨size, hsize, h⟩ := bind_eq_ok.1 h
    obtain ⟨g, hg, h⟩ := bind_eq_ok.1 h
    rw [ih h, euclid!_eq_ok hg, (WordOp.run_eq_ok.1 hsize).2]
    rfl

theorem divide!_eq_ok {d : Int} {m m' : NameMap Int} (h : divide! d m = .ok m') :
    m' = m.map fun p => (p.1, p.2.tdiv d) := by
  induction m generalizing m' with
  | nil =>
    cases h
    rfl
  | cons p m ih =>
    obtain ⟨quotient, hquotient, h⟩ := bind_eq_ok.1 h
    obtain ⟨rest, hrest, h⟩ := bind_eq_ok.1 h
    cases h
    rw [(WordOp.run_eq_ok.1 hquotient).2, ih hrest]
    rfl

/-- A constraint that is tightened without breaking off is the exact one. -/
theorem tighten!_eq_ok (h : e.tighten! = .ok r) : r = e.tighten := by
  obtain ⟨d, hd, h⟩ := bind_eq_ok.1 h
  obtain rfl : d = e.divisor := divisorFrom!_eq_ok hd
  unfold tighten
  split at h
  next hlt =>
    obtain ⟨m, hm, h⟩ := bind_eq_ok.1 h
    obtain ⟨n, hn, h⟩ := bind_eq_ok.1 h
    cases h
    rw [if_pos hlt, divide!_eq_ok hm, ceilDiv!_eq_ok hn]
  next hle =>
    cases h
    rw [if_neg hle]

theorem divisorFrom_dvd (d : Int) (m : NameMap Int) :
    divisorFrom d m ∣ d ∧ ∀ p ∈ m, divisorFrom d m ∣ p.2 := by
  induction m generalizing d with
  | nil => exact ⟨Int.dvd_refl d, List.forall_mem_nil _⟩
  | cons q m ih =>
    obtain ⟨hd, hm⟩ := ih (euclid d q.2.natAbs)
    obtain ⟨h₁, h₂⟩ := euclid_dvd d q.2.natAbs
    exact ⟨Int.dvd_trans hd h₁, List.forall_mem_cons.2 ⟨Int.dvd_trans hd (Int.dvd_natAbs.1 h₂), hm⟩⟩

theorem divisor_dvd {p : String × Int} (hp : p ∈ e.coefficients) : e.divisor ∣ p.2 :=
  (divisorFrom_dvd 0 e.coefficients).2 p hp

theorem total_tdiv {d : Int} {m : NameMap Int} (h : ∀ p ∈ m, d ∣ p.2) :
    d * total ρ (m.map fun p => (p.1, p.2.tdiv d)) = total ρ m := by
  induction m with
  | nil => simp [total]
  | cons p m ih =>
    have hp : d * p.2.tdiv d = p.2 := Int.mul_tdiv_cancel_of_dvd (h p List.mem_cons_self)
    rw [List.map_cons, total_cons, total_cons, Int.mul_add, ih fun q hq => h q (List.mem_cons_of_mem _ hq),
      ← Int.mul_assoc, hp]

/-- A bound on a multiple of an integer bounds the integer by the rounded quotient. -/
theorem add_ceilDiv_nonpos_iff {d s n : Int} (hd : 0 < d) : s + ceilDiv n d ≤ 0 ↔ d * s + n ≤ 0 := by
  have hsum : d * s + n = d * (s + n / d) + n % d := by
    linarith [Int.mul_ediv_add_emod n d, Int.mul_add d s (n / d)]
  have hlt : n % d < d := Int.emod_lt_of_pos n hd
  have hge : 0 ≤ n % d := Int.emod_nonneg n hd.ne'
  rw [hsum]
  unfold ceilDiv
  split
  next h =>
    rw [h, Int.add_zero]
    exact ⟨fun h' => by nlinarith, fun h' => by nlinarith⟩
  next h =>
    -- a remainder is left, which only a quotient below zero makes up for
    constructor
    · intro h'
      have : d * (s + n / d) ≤ d * -1 := mul_le_mul_of_nonneg_left (by linarith) hd.le
      linarith
    · intro h'
      have hpos : 0 < n % d := lt_of_le_of_ne hge (Ne.symm h)
      have : s + n / d < 0 := by nlinarith
      linarith

theorem value_tighten_nonpos_iff : e.tighten.value ρ ≤ 0 ↔ e.value ρ ≤ 0 := by
  unfold tighten
  split
  next h =>
    have hd : 0 < e.divisor := by omega
    rw [value, value, ← total_tdiv (d := e.divisor) fun p hp => divisor_dvd hp]
    exact add_ceilDiv_nonpos_iff hd
  next => rfl

theorem Proper.tighten (he : e.Proper) : e.tighten.Proper := by
  unfold Linear.tighten
  split
  next h =>
    refine ⟨he.sorted.mapValues fun _ c => c.tdiv e.divisor, fun p hp => ?_⟩
    obtain ⟨q, hq, rfl⟩ := List.mem_map.1 hp
    have hmul : e.divisor * q.2.tdiv e.divisor = q.2 := Int.mul_tdiv_cancel_of_dvd (divisor_dvd hq)
    have hfit := fits128_iff.1 (he.words q hq)
    rw [← hmul] at hfit
    rw [fits128_iff]
    constructor <;> nlinarith
  next => exact he

end Linear

end LayerCheck
