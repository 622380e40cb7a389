import Mathlib
import LayerCheck.Proofs.Solver.LinearForm
import LayerCheck.Proofs.Term.Denotation
import LayerCheck.Solver.Cases

/-! Reading a predicate as alternatives loses no solution: values that make a term true solve one of its
cases, and values that make it false solve one of the cases of its negation. -/
namespace LayerCheck

namespace Valuation

/-- The integers among some values; every other variable counts as zero. -/
def ints (ρ : Valuation) (x : String) : Int :=
  match ρ x with
  | some (.int n) => n
  | _ => 0

/-- Exactly the names in `flags` have truth values. -/
def Flags (ρ : Valuation) (flags : List String) : Prop :=
  ∀ x, flags.contains x = true ↔ ∃ b, ρ x = some (.bool b)

/-- Every value of a name outside `flags` is the integer that `η` gives it. -/
def Reads (ρ : Valuation) (flags : List String) (η : String → Int) : Prop :=
  ∀ x v, ¬ flags.contains x = true → ρ x = some v → v = .int (η x)

theorem Flags.reads {ρ : Valuation} {flags : List String} (hf : ρ.Flags flags) : ρ.Reads flags ρ.ints := by
  intro x v hx hv
  rw [ints, hv]
  cases v with
  | int n => rfl
  | bool b => exact absurd ((hf x).2 ⟨b, hv⟩) hx

end Valuation

variable {ρ : Valuation} {flags : List String}

/-! ### Linear terms -/

theorem Term.denote_of_strict {op : BinaryOp} (hop : op.isLogical = false) {l r : Term} {v : Value}
    (h : (Term.binary op l r).denote ρ = some v) :
    ∃ a b, l.denote ρ = some a ∧ r.denote ρ = some b ∧ a.binary? op b = some v := by
  rw [denote] at h
  obtain ⟨a, ha, h⟩ := Option.bind_eq_some_iff.1 h
  have hnone : op.shortcut? a = none := by
    cases op with
    | and | or => cases hop
    | _ => rfl
  rw [hnone, Option.none_or] at h
  obtain ⟨b, hb, h⟩ := Option.bind_eq_some_iff.1 h
  exact ⟨a, b, ha, hb, h⟩

theorem Term.denote_of_ints {op : BinaryOp} (hop : op.isLogical = false) {l r : Term} {v : Value} {m n : Int}
    (hl : ∀ v, l.denote ρ = some v → v = .int m) (hr : ∀ v, r.denote ρ = some v → v = .int n)
    (h : (Term.binary op l r).denote ρ = some v) : (Value.int m).binary? op (.int n) = some v := by
  obtain ⟨a, b, ha, hb, h⟩ := denote_of_strict hop h
  rwa [hl a ha, hr b hb] at h

/-- The form of a linear term has the value of the term, if that has one. -/
theorem Linear.ofTerm?_eq_some {η : String → Int} (hη : ρ.Reads flags η) {t : Term} {e : Linear}
    (h : ofTerm? flags t = some e) : e.Proper ∧ ∀ v, t.denote ρ = some v → v = .int (e.value η) := by
  fun_induction ofTerm? flags t generalizing e with
  | case1 n =>
    cases h
    refine ⟨proper_const n, fun v hv => ?_⟩
    rw [value_const]
    exact (Option.some.inj hv).symm
  | case2 x hx => cases h
  | case3 x hx =>
    cases h
    refine ⟨proper_ofName x, fun v hv => ?_⟩
    rw [value_ofName]
    exact hη x v hx hv
  | case4 t ih =>
    obtain ⟨e', he', h⟩ := Option.bind_eq_some_iff.1 h
    refine ⟨proper_scale h, fun v hv => ?_⟩
    rw [Term.denote] at hv
    obtain ⟨a, ha, hv⟩ := Option.bind_eq_some_iff.1 hv
    rw [(ih he').2 a ha] at hv
    rw [value_scale h, ← Option.some.inj hv]
    simp
  | case5 l r ihl ihr =>
    obtain ⟨a, ha, h⟩ := Option.bind_eq_some_iff.1 h
    obtain ⟨b, hb, h⟩ := Option.bind_eq_some_iff.1 h
    obtain ⟨hproper, hl⟩ := ihl ha
    refine ⟨hproper.addScaled h, fun v hv => ?_⟩
    have hv := Term.denote_of_ints rfl hl (ihr hb).2 hv
    rw [value_addScaled hproper h, ← Option.some.inj hv, Int.one_mul]
  | case6 l r ihl ihr =>
    obtain ⟨a, ha, h⟩ := Option.bind_eq_some_iff.1 h
    obtain ⟨b, hb, h⟩ := Option.bind_eq_some_iff.1 h
    obtain ⟨hproper, hl⟩ := ihl ha
    refine ⟨hproper.addScaled h, fun v hv => ?_⟩
    have hv := Term.denote_of_ints rfl hl (ihr hb).2 hv
    rw [value_addScaled hproper h, ← Option.some.inj hv, Int.neg_one_mul, Int.sub_eq_add_neg]
  | case7 l r ihl ihr =>
    obtain ⟨a, ha, h⟩ := Option.bind_eq_some_iff.1 h
    obtain ⟨b, hb, h⟩ := Option.bind_eq_some_iff.1 h
    have hmul : ∀ v, (Term.binary .mul l r).denote ρ = some v → v = .int (a.value η * b.value η) :=
      fun v hv => (Option.some.inj (Term.denote_of_ints rfl (ihl ha).2 (ihr hb).2 hv)).symm
    split at h
    next hconst =>
      refine ⟨proper_scale h, fun v hv => ?_⟩
      rw [hmul v hv, value_scale h, value_of_isConst hconst]
    next =>
      split at h
      next hconst =>
        refine ⟨proper_scale h, fun v hv => ?_⟩
        rw [hmul v hv, value_scale h, value_of_isConst hconst, Int.mul_comm]
      next => cases h
  | case8 => cases h

/-! ### Cases -/

def Atom.Holds (ρ : Valuation) : Atom → Prop
  | .atMostZero e => e.Proper ∧ e.value ρ.ints ≤ 0
  | .flag x b => ρ x = some (.bool b)

namespace Cases

theorem mem_either {l r cs : Cases} (h : either l r = some cs) {c : List Atom} :
    c ∈ cs ↔ c ∈ l ∨ c ∈ r := by
  unfold either at h
  split at h
  next =>
    cases h
    exact List.mem_append
  next => cases h

theorem mem_both {l r cs : Cases} (h : both l r = some cs) {c : List Atom} :
    c ∈ cs ↔ ∃ cl ∈ l, ∃ cr ∈ r, cl ++ cr = c := by
  unfold both at h
  split at h
  next => cases h
  next =>
    cases h
    simp only [List.mem_flatMap, List.mem_map]

/-- One of the cases holds. -/
def Cover (ρ : Valuation) (cs : Cases) : Prop := ∃ c ∈ cs, ∀ a ∈ c, a.Holds ρ

theorem cover_always : Cover ρ always := ⟨[], by simp [always], by simp⟩

theorem cover_either {l r cs : Cases} (h : either l r = some cs) (hc : Cover ρ l ∨ Cover ρ r) :
    Cover ρ cs := by
  rcases hc with ⟨c, hc, hholds⟩ | ⟨c, hc, hholds⟩
  · exact ⟨c, (mem_either h).2 (.inl hc), hholds⟩
  · exact ⟨c, (mem_either h).2 (.inr hc), hholds⟩

theorem cover_both {l r cs : Cases} (h : both l r = some cs) (hl : Cover ρ l) (hr : Cover ρ r) :
    Cover ρ cs := by
  obtain ⟨c, hc, hcholds⟩ := hl
  obtain ⟨d, hd, hdholds⟩ := hr
  refine ⟨c ++ d, (mem_both h).2 ⟨c, hc, d, hd, rfl⟩, fun a ha => ?_⟩
  exact (List.mem_append.1 ha).elim (hcholds a) (hdholds a)

/-- A comparison of two integers is one of their difference with zero. -/
theorem binary?_sub {op : BinaryOp} {m n : Int} : (Value.int (m - n)).binary? op (.int 0) = some (.bool true) ↔
    (Value.int m).binary? op (.int n) = some (.bool true) := by
  cases op <;> simp [Value.binary?, Value.sameAs?] <;> omega

theorem binary?_opposite {op : BinaryOp} (hop : op.isLogical = false) {a b : Value}
    (h : a.binary? op b = some (.bool false)) : a.binary? op.opposite b = some (.bool true) := by
  cases op <;> cases a <;> cases b <;> simp_all [Value.binary?, Value.sameAs?, BinaryOp.opposite,
    BinaryOp.isLogical]

theorem holds_offset {e r : Linear} (he : e.Proper) (h : e.offset 1 = some r) (hlt : e.value ρ.ints < 0) :
    (Atom.atMostZero r).Holds ρ := by
  refine ⟨he.offset h, ?_⟩
  rw [Linear.value_offset h]
  exact hlt

theorem cover_ofDifference? {op : BinaryOp} {diff : Linear} {cs : Cases} (hd : diff.Proper)
    (h : ofDifference? op diff = some cs)
    (hv : (Value.int (diff.value ρ.ints)).binary? op (.int 0) = some (.bool true)) : Cover ρ cs := by
  obtain ⟨negated, hnegated, h⟩ := Option.bind_eq_some_iff.1 h
  have hn := Linear.proper_scale hnegated
  have hvalue : negated.value ρ.ints = -diff.value ρ.ints := by
    rw [Linear.value_scale hnegated, Int.neg_one_mul]
  cases op <;> simp [Value.binary?, Value.sameAs?] at hv
  case eq =>
    cases h
    refine ⟨_, List.mem_singleton_self _, ?_⟩
    simp [Atom.Holds, hd, hn, hvalue, hv]
  case ne =>
    obtain ⟨above, habove, h⟩ := Option.bind_eq_some_iff.1 h
    obtain ⟨below, hbelow, h⟩ := Option.bind_eq_some_iff.1 h
    cases h
    rcases Int.lt_or_gt_of_ne hv with hlt | hgt
    · refine ⟨_, List.mem_cons_self, ?_⟩
      simpa using holds_offset hd habove hlt
    · refine ⟨_, List.mem_cons_of_mem _ List.mem_cons_self, ?_⟩
      simpa using holds_offset hn hbelow (by omega)
  case lt =>
    obtain ⟨above, habove, h⟩ := Option.bind_eq_some_iff.1 h
    cases h
    refine ⟨_, List.mem_singleton_self _, ?_⟩
    simpa using holds_offset hd habove hv
  case gt =>
    obtain ⟨below, hbelow, h⟩ := Option.bind_eq_some_iff.1 h
    cases h
    refine ⟨_, List.mem_singleton_self _, ?_⟩
    simpa using holds_offset hn hbelow (by omega)
  case le | ge =>
    cases h
    refine ⟨_, List.mem_singleton_self _, ?_⟩
    simpa [Atom.Holds, hd, hn, hvalue] using hv

theorem cover_comparison? (hf : ρ.Flags flags) {op : BinaryOp} {l r : Term} {cs : Cases} {a b : Value}
    (h : comparison? flags op l r = some cs) (hl : l.denote ρ = some a) (hr : r.denote ρ = some b)
    (hv : a.binary? op b = some (.bool true)) : Cover ρ cs := by
  obtain ⟨el, hel, h⟩ := Option.bind_eq_some_iff.1 h
  obtain ⟨er, her, h⟩ := Option.bind_eq_some_iff.1 h
  obtain ⟨diff, hdiff, h⟩ := Option.bind_eq_some_iff.1 h
  obtain ⟨hproper, hlv⟩ := Linear.ofTerm?_eq_some hf.reads hel
  rw [hlv a hl, (Linear.ofTerm?_eq_some hf.reads her).2 b hr] at hv
  refine cover_ofDifference? (hproper.addScaled hdiff) h ?_
  rw [Linear.value_addScaled hproper hdiff, Int.neg_one_mul, ← Int.sub_eq_add_neg]
  exact binary?_sub.2 hv

/-- A term that is boolean by its form has no other value. -/
theorem eq_bool_of_isBoolean (hf : ρ.Flags flags) {t : Term} {v : Value} (h : isBoolean flags t = true)
    (hv : t.denote ρ = some v) : ∃ b, v = .bool b := by
  cases t with
  | var x =>
    obtain ⟨b, hb⟩ := (hf x).1 h
    exact ⟨b, Option.some.inj (hv.symm.trans hb)⟩
  | int n => cases h
  | bool b => exact ⟨b, (Option.some.inj hv).symm⟩
  | unary op t =>
    obtain ⟨a, -, hv⟩ := Option.bind_eq_some_iff.1 hv
    cases op with
    | neg => cases h
    | not => cases a <;> cases hv; exact ⟨_, rfl⟩
  | binary op l r =>
    obtain ⟨a, -, hv⟩ := Option.bind_eq_some_iff.1 hv
    rcases Option.or_eq_some_iff.1 hv with hv | ⟨-, hv⟩
    · cases op <;> rcases a with _ | _ | _ <;> cases hv <;> exact ⟨_, rfl⟩
    · obtain ⟨b, -, hv⟩ := Option.bind_eq_some_iff.1 hv
      cases op with
      | add | sub | mul => cases h
      | _ => cases a <;> cases b <;> cases hv <;> exact ⟨_, rfl⟩

/-- The right side of an equation or inequation between truth values, from its left side. -/
theorem eq_of_binary? {op : BinaryOp} (hop : op = .eq ∨ op = .ne) {a positive : Bool} {v : Value}
    (h : (Value.bool a).binary? op v = some (.bool positive)) :
    v = .bool (a == ((op == .eq) == positive)) := by
  rcases hop with rfl | rfl <;> cases v <;> simp [Value.binary?, Value.sameAs?] at h
  all_goals cases a <;> cases positive <;> simp_all

/-- Values under which a term is true, or false, solve one of its cases. -/
theorem cover_ofTerm? (hf : ρ.Flags flags) {t : Term} {positive : Bool} {cs : Cases}
    (h : ofTerm? flags t positive = some cs) (hv : t.denote ρ = some (.bool positive)) : Cover ρ cs := by
  fun_induction ofTerm? flags t positive generalizing cs with
  | case1 b positive =>
    cases hv
    cases h
    rw [if_pos rfl]
    exact cover_always
  | case2 x positive =>
    cases h
    split
    next => exact ⟨_, List.mem_singleton_self _, by simpa [Atom.Holds, Term.denote] using hv⟩
    next => exact cover_always
  | case3 t positive ih => exact ih h (Term.denote_not.1 hv)
  | case4 l r positive ihl ihr =>
    obtain ⟨left, hleft, h⟩ := Option.bind_eq_some_iff.1 h
    obtain ⟨right, hright, h⟩ := Option.bind_eq_some_iff.1 h
    cases positive with
    | true =>
      obtain ⟨hl, hr⟩ := Term.holds_and.1 hv
      exact cover_both h (ihl hleft hl) (ihr hright hr)
    | false =>
      exact cover_either h ((Term.denote_and_false.1 hv).imp (ihl hleft) fun hv => ihr hright hv.2)
  | case5 l r positive ihl ihr =>
    obtain ⟨left, hleft, h⟩ := Option.bind_eq_some_iff.1 h
    obtain ⟨right, hright, h⟩ := Option.bind_eq_some_iff.1 h
    cases positive with
    | true => exact cover_either h ((Term.holds_or.1 hv).imp (ihl hleft) fun hv => ihr hright hv.2)
    | false =>
      obtain ⟨hl, hr⟩ := Term.denote_or_false.1 hv
      exact cover_both h (ihl hleft hl) (ihr hright hr)
  | case7 op l r positive hand hor harith hboolean equal ih₁ ih₂ ih₃ =>
    rename_i ih₄
    obtain ⟨hop, hl⟩ := Bool.and_eq_true_iff.1 hboolean
    simp only [Bool.or_eq_true, beq_iff_eq] at hop
    obtain ⟨a, b, ha, hb, hv⟩ := Term.denote_of_strict (by rcases hop with rfl | rfl <;> rfl) hv
    obtain ⟨a, rfl⟩ := eq_bool_of_isBoolean hf hl ha
    rw [eq_of_binary? hop hv] at hb
    obtain ⟨lt, hlt, h⟩ := Option.bind_eq_some_iff.1 h
    obtain ⟨rt, hrt, h⟩ := Option.bind_eq_some_iff.1 h
    obtain ⟨same, hsame, h⟩ := Option.bind_eq_some_iff.1 h
    obtain ⟨lf, hlf, h⟩ := Option.bind_eq_some_iff.1 h
    obtain ⟨rf, hrf, h⟩ := Option.bind_eq_some_iff.1 h
    obtain ⟨other, hother, h⟩ := Option.bind_eq_some_iff.1 h
    cases a with
    | true => exact cover_either h (.inl (cover_both hsame (ih₁ hlt ha) (ih₂ hrt (by simpa using hb))))
    | false => exact cover_either h (.inr (cover_both hother (ih₃ hlf ha) (ih₄ hrf (by simpa using hb))))
  | case8 op l r positive hand hor harith hboolean =>
    cases h
    cases hcs : comparison? flags (if positive = true then op else op.opposite) l r with
    | none => exact cover_always
    | some cs =>
      have hop : op.isLogical = false := by
        cases op with
        | and | or => exact absurd rfl ‹_›
        | _ => rfl
      obtain ⟨a, b, ha, hb, hv⟩ := Term.denote_of_strict hop hv
      refine cover_comparison? hf hcs ha hb ?_
      cases positive with
      | true => exact hv
      | false => exact binary?_opposite hop hv
  | case6 | case9 | case10 =>
    cases h
    exact cover_always

end Cases

end LayerCheck
