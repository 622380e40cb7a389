import Mathlib
import LayerCheck.Proofs.Solver.Rounds

/-! Where tightening a form breaks off. The divisions that it takes are by positive words and stay in range, so it
breaks off exactly where the magnitude of a coefficient does: where a coefficient is the least word, the only one
without an opposite. -/
namespace LayerCheck

theorem WordOp.run_of_inRange {op : WordOp} (h : op.inRange = true) : op.run = .ok op.exact := if_pos h

/-! ### Divisions -/

theorem fits128_of_natAbs_le {n m : Int} (hn : fits128 n = true) (hle : m.natAbs ≤ n.natAbs)
    (hsign : n < 0 → m ≤ 0) : fits128 m = true := by
  rw [fits128_iff] at hn ⊢
  omega

theorem fits128_tdiv {n d : Int} (hn : fits128 n = true) (hd : 0 < d) : fits128 (n.tdiv d) = true := by
  refine fits128_of_natAbs_le hn (Int.natAbs_tdiv_le_natAbs n d) fun hneg => ?_
  have hnonneg := Int.tdiv_nonneg (Int.neg_nonneg.2 hneg.le) hd.le
  rw [Int.neg_tdiv] at hnonneg
  omega

theorem fits128_ediv {n d : Int} (hn : fits128 n = true) (hd : 0 < d) : fits128 (n / d) = true :=
  fits128_of_natAbs_le hn (Int.natAbs_ediv_le_natAbs n d) fun hneg => (Int.ediv_neg_of_neg_of_pos hneg hd).le

theorem inRange_quotient {n d : Int} (hn : fits128 n = true) (hd : 0 < d) :
    (WordOp.quotient n d).inRange = true := by
  simp [WordOp.inRange, hd.ne', fits128_tdiv hn hd]

theorem inRange_wholes {n d : Int} (hn : fits128 n = true) (hd : 0 < d) : (WordOp.wholes n d).inRange = true := by
  simp [WordOp.inRange, hd.ne', fits128_ediv hn hd]

theorem exists_euclid! {a b : Int} (ha : fits128 a = true) (hb : fits128 b = true) (ha' : 0 ≤ a) (hb' : 0 ≤ b) :
    ∃ d, euclid! a b = .ok d ∧ fits128 d = true ∧ 0 ≤ d := by
  fun_induction euclid! a b with
  | case1 a => exact ⟨a, rfl, ha, ha'⟩
  | case2 a b hne op hop =>
    have hrange : (WordOp.remainder a b).inRange = true := inRange_quotient ha (by omega)
    rw [WordOp.run_of_inRange hrange] at hop
    cases hop
  | case3 a b hne r hr ih =>
    have hpos : 0 < b := by omega
    obtain rfl : r = a.tmod b := (WordOp.run_eq_ok.1 hr).2
    have hnonneg : 0 ≤ a.tmod b := Int.tmod_nonneg b ha'
    have hmod : fits128 (a.tmod b) = true := by
      have := Int.tmod_lt_of_pos a hpos
      rw [fits128_iff] at hb ⊢
      omega
    exact ih hb hmod hb' hnonneg

/-- A divisor that leaves a remainder is at least two, so the quotient is far from the greatest word. -/
theorem fits128_ediv_add_one {n d : Int} (hn : fits128 n = true) (hd : 0 < d) (hmod : n % d ≠ 0) :
    fits128 (n / d + 1) = true := by
  have htwo : 2 ≤ d := by
    refine Int.not_lt.1 fun hlt => hmod ?_
    obtain rfl : d = 1 := by omega
    exact Int.emod_one n
  have hle : d * (n / d) ≤ n := Int.mul_ediv_self_le hd.ne'
  have hdiv := fits128_iff.1 (fits128_ediv hn hd)
  rw [fits128_iff] at hn ⊢
  refine ⟨by omega, ?_⟩
  rcases lt_or_ge (n / d) 0 with hneg | hnonneg
  · omega
  · have := Int.mul_le_mul_of_nonneg_right htwo hnonneg
    omega

theorem fits128_ceilDiv {n d : Int} (hn : fits128 n = true) (hd : 0 < d) : fits128 (ceilDiv n d) = true := by
  unfold ceilDiv
  split
  next => exact fits128_ediv hn hd
  next hmod => exact fits128_ediv_add_one hn hd hmod

theorem ceilDiv!_eq {n d : Int} (hn : fits128 n = true) (hd : 0 < d) : ceilDiv! n d = .ok (ceilDiv n d) := by
  have hwholes := WordOp.run_of_inRange (inRange_wholes hn hd)
  have hresidue : (WordOp.residue n d).run = .ok (n % d) := WordOp.run_of_inRange (inRange_wholes hn hd)
  rw [ceilDiv!, hwholes, ceilDiv]
  change ((WordOp.residue n d).run >>= fun r => _) = _
  rw [hresidue]
  change (if n % d = 0 then _ else _) = _
  split
  next => rfl
  next hmod => exact WordOp.run_of_inRange (fits128_ediv_add_one hn hd hmod)

/-! ### Tightening -/

namespace Linear

/-- A form as it is kept: tidy, and with a constant that is a word. -/
structure Kept (e : Linear) : Prop extends Tidy e where
  constant_word : fits128 e.constant = true

/-- Every coefficient has an opposite. -/
def Balanced (e : Linear) : Prop := ∀ p ∈ e.coefficients, p.2 ≠ least128

variable {e e' r : Linear} {k : Int} {x : String}

theorem fits128_natAbs {n : Int} (hn : fits128 n = true) (hne : n ≠ least128) : fits128 n.natAbs = true := by
  rw [least128] at hne
  rw [fits128_iff] at hn ⊢
  omega

/-- The common divisor of balanced coefficients is found. -/
theorem exists_divisorFrom! {m : NameMap Int} (hw : ∀ p ∈ m, fits128 p.2 = true) (hb : ∀ p ∈ m, p.2 ≠ least128)
    {d : Int} (hd : fits128 d = true) (hd' : 0 ≤ d) : ∃ d', divisorFrom! d m = .ok d' := by
  induction m generalizing d with
  | nil => exact ⟨d, rfl⟩
  | cons p m ih =>
    obtain ⟨hwp, hw⟩ := List.forall_mem_cons.1 hw
    obtain ⟨hbp, hb⟩ := List.forall_mem_cons.1 hb
    have hsize := fits128_natAbs hwp hbp
    obtain ⟨g, hg, hword, hnonneg⟩ := exists_euclid! hd hsize hd' (Int.natCast_nonneg _)
    obtain ⟨d', hd'⟩ := ih hw hb hword hnonneg
    exact ⟨d', bind_eq_ok.2 ⟨_, WordOp.run_of_inRange hsize, bind_eq_ok.2 ⟨g, hg, hd'⟩⟩⟩

/-- The first coefficient that is the least word ends the search for a common divisor. -/
theorem divisorFrom!_of_least {m : NameMap Int} (hw : ∀ p ∈ m, fits128 p.2 = true) {q : String × Int} (hq : q ∈ m)
    (hleast : q.2 = least128) {d : Int} (hd : fits128 d = true) (hd' : 0 ≤ d) :
    divisorFrom! d m = .error (.magnitude least128) := by
  induction m generalizing d with
  | nil => cases hq
  | cons p m ih =>
    obtain ⟨hwp, hw⟩ := List.forall_mem_cons.1 hw
    by_cases hbp : p.2 = least128
    · refine bind_eq_error.2 (.inl ?_)
      rw [hbp]
      rfl
    · have hq : q ∈ m := (List.mem_cons.1 hq).resolve_left fun heq => hbp (heq ▸ hleast)
      have hsize := fits128_natAbs hwp hbp
      obtain ⟨g, hg, hword, hnonneg⟩ := exists_euclid! hd hsize hd' (Int.natCast_nonneg _)
      refine bind_eq_error.2 (.inr ⟨_, WordOp.run_of_inRange hsize, bind_eq_error.2 (.inr ⟨g, hg, ?_⟩)⟩)
      exact ih hw hq hword hnonneg

theorem divide!_eq {m : NameMap Int} (hw : ∀ p ∈ m, fits128 p.2 = true) {d : Int} (hd : 0 < d) :
    divide! d m = .ok (m.map fun p => (p.1, p.2.tdiv d)) := by
  induction m with
  | nil => rfl
  | cons p m ih =>
    obtain ⟨hwp, hw⟩ := List.forall_mem_cons.1 hw
    exact bind_eq_ok.2 ⟨_, WordOp.run_of_inRange (inRange_quotient hwp hd), bind_eq_ok.2 ⟨_, ih hw, rfl⟩⟩

/-- Tightening a balanced form gives the exact result. -/
theorem Kept.tighten!_eq (he : e.Kept) (hb : e.Balanced) : e.tighten! = .ok e.tighten := by
  obtain ⟨d, hd⟩ := exists_divisorFrom! he.words hb rfl le_rfl
  refine bind_eq_ok.2 ⟨d, hd, ?_⟩
  obtain rfl : d = e.divisor := divisorFrom!_eq_ok hd
  unfold Linear.tighten
  split
  next hlt =>
    have hpos : 0 < e.divisor := by omega
    exact bind_eq_ok.2 ⟨_, divide!_eq he.words hpos, bind_eq_ok.2 ⟨_, ceilDiv!_eq he.constant_word hpos, rfl⟩⟩
  next => rfl

/-- Tightening any other form breaks off, at the magnitude of the least word. -/
theorem Kept.tighten!_of_not_balanced (he : e.Kept) (hb : ¬ e.Balanced) :
    e.tighten! = .error (.magnitude least128) := by
  rw [Balanced] at hb
  push Not at hb
  obtain ⟨p, hp, hleast⟩ := hb
  exact bind_eq_error.2 (.inl (divisorFrom!_of_least he.words hp hleast rfl le_rfl))

theorem Kept.tighten (he : e.Kept) : e.tighten.Kept := by
  refine ⟨he.toTidy.tighten, ?_⟩
  unfold Linear.tighten
  split
  next hd => exact fits128_ceilDiv he.constant_word (by omega)
  next => exact he.constant_word

theorem Kept.balanced_tighten (he : e.Kept) (hb : e.Balanced) : e.tighten.Balanced := by
  unfold Linear.tighten
  split
  next hd =>
    intro p hp
    obtain ⟨q, hq, rfl⟩ := List.mem_map.1 hp
    have hmul : e.divisor * q.2.tdiv e.divisor = q.2 := Int.mul_tdiv_cancel_of_dvd (divisor_dvd hq)
    have hword := fits128_iff.1 (he.words q hq)
    intro hleast
    simp only at hleast
    rw [hleast, least128] at hmul
    omega
  next => exact hb

theorem Proper.kept_addScaled (he : e.Proper) (h : e.addScaled e' k = some r) : r.Kept := by
  refine ⟨he.tidy_addScaled h, ?_⟩
  obtain ⟨m, -, h⟩ := Option.bind_eq_some_iff.1 h
  obtain ⟨product, -, h⟩ := Option.bind_eq_some_iff.1 h
  obtain ⟨constant, hc, h⟩ := Option.bind_eq_some_iff.1 h
  obtain ⟨rfl, hfits⟩ := word128_eq_some.1 hc
  rw [← Option.some.inj h]
  exact hfits

theorem kept_scale (h : e.scale k = some r) : r.Kept := (proper_const 0).kept_addScaled h

theorem Kept.offset (he : e.Kept) (h : e.offset k = some r) : r.Kept := by
  refine ⟨he.toTidy.offset h, ?_⟩
  obtain ⟨constant, hc, h⟩ := Option.bind_eq_some_iff.1 h
  obtain ⟨rfl, hfits⟩ := word128_eq_some.1 hc
  rw [← Option.some.inj h]
  exact hfits

theorem Balanced.offset (hb : e.Balanced) (h : e.offset k = some r) : r.Balanced := by
  rw [offset_eq_some h]
  exact hb

theorem balanced_iff (hs : NameMap.Sorted e.coefficients) : e.Balanced ↔ ∀ x, e.coefficient x ≠ least128 := by
  constructor
  · intro hb x
    rw [coefficient]
    cases hx : e.coefficients.get? x with
    | none => decide
    | some c => exact hb (x, c) (NameMap.mem_of_get? hx)
  · intro h p hp
    have hcoefficient : e.coefficient p.1 = p.2 := by
      rw [coefficient, hs.get? hp]
      rfl
    exact hcoefficient ▸ h p.1

/-- A form whose opposite is a form too is balanced, and so is the opposite. -/
theorem Proper.balanced_of_scale (he : e.Proper) (h : e.scale (-1) = some r) : e.Balanced ∧ r.Balanced := by
  have hr := proper_scale h
  rw [balanced_iff he.sorted, balanced_iff hr.sorted, ← forall_and]
  intro x
  have hword := fits128_iff.1 (he.fits_coefficient x)
  have hword' := fits128_iff.1 (hr.fits_coefficient x)
  have hopposite := coefficient_scale he h x
  rw [least128]
  omega

end Linear

end LayerCheck
