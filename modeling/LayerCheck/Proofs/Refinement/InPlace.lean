import Mathlib
import LayerCheck.Proofs.Refinement.ArgumentMeaning

/-! Arguments that have their positional names already. Giving positional names changes exactly the arguments that do
not have them, and once given they are not changed again: what was put in for the names of arguments refers to
arguments that are there, and what was left alone does not look like a position. -/
namespace LayerCheck.Canonical

/-- An argument is there at a position, with a refinement. -/
def Present (args : List (Option Refinement)) (i : Nat) : Prop := ∃ r, args[i]? = some (some r)

/-- Each argument that is there binds the name of its position, and the names of positional spelling in its predicate
are those of arguments up to there. -/
def InPlace (args : List (Option Refinement)) : Prop :=
  ∀ i r, args[i]? = some (some r) → r.name = nameAt i ∧
    ∀ x ∈ r.predicate.freeVars, isName x = true → ∃ j ≤ i, x = nameAt j ∧ Present args j

variable {args done rest out : List (Option Refinement)} {arg : Option Refinement} {table : NameMap Term} {i j : Nat}

/-! ### One argument more -/

theorem present_append (h : i < done.length) : Present (done ++ rest) i ↔ Present done i := by
  rw [Present, Present, List.getElem?_append_left h]

theorem Present.lt (h : Present done i) : i < done.length := by
  obtain ⟨r, hr⟩ := h
  exact (List.getElem?_eq_some_iff.1 hr).1

theorem present_append_singleton : Present (done ++ [arg]) i ↔ Present done i ∨ i = done.length ∧ arg.isSome := by
  rcases Nat.lt_trichotomy i done.length with hi | rfl | hi
  · rw [present_append hi]
    exact (or_iff_left fun h => absurd h.1 (Nat.ne_of_lt hi)).symm
  · have hdone : ¬ Present done done.length := fun h => absurd h.lt (Nat.lt_irrefl _)
    rw [Present, List.getElem?_concat_length]
    cases arg <;> simp [hdone]
  · have hdone : ¬ Present done i := fun h => absurd h.lt (Nat.lt_asymm hi)
    have hmore : ¬ Present (done ++ [arg]) i := by
      intro h
      have := h.lt
      rw [List.length_append, List.length_singleton] at this
      omega
    exact iff_of_false hmore (not_or.2 ⟨hdone, fun h => absurd h.1 (Nat.ne_of_gt hi)⟩)

theorem InPlace.concat (h : InPlace done)
    (harg : ∀ r, arg = some r → r.name = nameAt done.length ∧ ∀ x ∈ r.predicate.freeVars, isName x = true →
      ∃ j ≤ done.length, x = nameAt j ∧ Present (done ++ [arg]) j) : InPlace (done ++ [arg]) := by
  intro i r hr
  rcases Nat.lt_or_ge i done.length with hi | hi
  · rw [List.getElem?_append_left hi] at hr
    obtain ⟨hname, hrefers⟩ := h i r hr
    refine ⟨hname, fun x hx hxname => ?_⟩
    obtain ⟨j, hj, hxj, hpresent⟩ := hrefers x hx hxname
    exact ⟨j, hj, hxj, present_append_singleton.2 (.inl hpresent)⟩
  · obtain ⟨rfl, hsome⟩ := (present_append_singleton.1 ⟨r, hr⟩).resolve_left fun h => absurd h.lt (Nat.not_lt.2 hi)
    rw [List.getElem?_concat_length] at hr
    exact harg r (Option.some.inj hr)

/-! ### Positional names are in place -/

/-- What a table puts in are the positional names of arguments that are there. -/
def Refers (table : NameMap Term) (done : List (Option Refinement)) : Prop :=
  ∀ x t, table.get? x = some t → ∃ j, t = .var (nameAt j) ∧ Present done j

theorem Refers.concat (h : Refers table done) (arg : Option Refinement) : Refers table (done ++ [arg]) := by
  intro x t hx
  obtain ⟨j, ht, hpresent⟩ := h x t hx
  exact ⟨j, ht, present_append_singleton.2 (.inl hpresent)⟩

theorem Refers.insert (h : Refers table done) (x : String) (r : Refinement) :
    Refers (table.insert x (.var (nameAt done.length))) (done ++ [some r]) := by
  intro y t hy
  rw [NameMap.get?_insert] at hy
  split at hy
  next =>
    cases hy
    exact ⟨done.length, rfl, present_append_singleton.2 (.inr ⟨rfl, rfl⟩)⟩
  next => exact h.concat (some r) y t hy

/-- A name of positional spelling in a rewritten predicate was put in by the table. -/
theorem Refers.mem_freeVars_resolve (h : Refers table done) {p q : Term} (hq : resolve table p = .ok q) {x : String}
    (hx : x ∈ q.freeVars) (hname : isName x = true) : ∃ j, x = nameAt j ∧ Present done j := by
  rw [resolve_eq_ok hq] at hx
  obtain ⟨y, hy, hxy⟩ := Term.mem_freeVars_subst hx
  cases ht : table.get? y with
  | none =>
    rw [ht] at hxy
    obtain rfl : x = y := List.mem_singleton.1 hxy
    rw [isName_of_resolve hq hy ht] at hname
    cases hname
  | some t =>
    rw [ht] at hxy
    obtain ⟨j, rfl, hpresent⟩ := h y t ht
    exact ⟨j, List.mem_singleton.1 hxy, hpresent⟩

theorem inPlace_argumentsFrom (htable : Refers table done) (hdone : InPlace done)
    (h : argumentsFrom done.length table rest = .ok out) : InPlace (done ++ out) := by
  induction rest generalizing table done out with
  | nil =>
    cases h
    rwa [List.append_nil]
  | cons arg rest ih =>
    have hlength (arg : Option Refinement) : (done ++ [arg]).length = done.length + 1 := by simp
    cases arg with
    | none =>
      rw [argumentsFrom] at h
      obtain ⟨out, hrest, h⟩ := bind_eq_ok.1 h
      cases h
      rw [← hlength none] at hrest
      rw [List.append_cons]
      exact ih (htable.concat none) (hdone.concat fun r hr => (by cases hr)) hrest
    | some r =>
      rw [argumentsFrom] at h
      obtain ⟨p, hp, h⟩ := bind_eq_ok.1 h
      obtain ⟨out, hrest, h⟩ := bind_eq_ok.1 h
      cases h
      have htable := htable.insert r.name ⟨nameAt done.length, p⟩
      rw [← hlength (some ⟨nameAt done.length, p⟩)] at hrest
      rw [List.append_cons]
      refine ih htable (hdone.concat fun r' hr' => ?_) hrest
      cases hr'
      refine ⟨rfl, fun x hx hname => ?_⟩
      obtain ⟨j, hxj, hpresent⟩ := htable.mem_freeVars_resolve hp hx hname
      have hj := hpresent.lt
      rw [hlength] at hj
      exact ⟨j, Nat.le_of_lt_succ hj, hxj, hpresent⟩

theorem inPlace_arguments (h : arguments args = .ok out) : InPlace out := by
  have hrefers : Refers [] [] := fun x t hx => (by cases hx)
  have hnone : InPlace [] := fun i r hr => (by cases hr)
  exact inPlace_argumentsFrom hrefers hnone h

/-! ### Arguments in place are left alone -/

/-- A table that puts in each name for itself, and has the names of all arguments that are there. -/
structure Identity (table : NameMap Term) (done : List (Option Refinement)) : Prop where
  found : ∀ x t, table.get? x = some t → t = .var x
  all : ∀ j, Present done j → table.contains (nameAt j) = true

theorem Identity.concat_none (h : Identity table done) : Identity table (done ++ [none]) := by
  refine ⟨h.found, fun j hj => h.all j ((present_append_singleton.1 hj).resolve_right ?_)⟩
  rintro ⟨-, hnone⟩
  cases hnone

theorem Identity.concat_some (h : Identity table done) (r : Refinement) :
    Identity (table.insert (nameAt done.length) (.var (nameAt done.length))) (done ++ [some r]) := by
  refine ⟨fun x t hx => ?_, fun j hj => ?_⟩
  · rw [NameMap.get?_insert] at hx
    split at hx
    next hname => rw [hname, ← Option.some.inj hx]
    next => exact h.found x t hx
  · rw [NameMap.contains, NameMap.get?_insert]
    split
    next => rfl
    next hne =>
      rcases present_append_singleton.1 hj with hj | ⟨rfl, -⟩
      · exact h.all j hj
      · exact absurd rfl hne

theorem Identity.subst (h : Identity table done) (p : Term) : p.subst table.get? = p := by
  refine (Term.subst_congr fun x _ => ?_).trans p.subst_none
  cases hx : table.get? x with
  | none => rfl
  | some t => exact h.found x t hx

theorem argumentsFrom_of_inPlace (htable : Identity table done) (h : InPlace (done ++ rest)) :
    argumentsFrom done.length table rest = .ok rest := by
  induction rest generalizing table done with
  | nil => rfl
  | cons arg rest ih =>
    have hlength : (done ++ [arg]).length = done.length + 1 := by simp
    have hall : done ++ [arg] ++ rest = done ++ arg :: rest := by simp
    cases arg with
    | none =>
      have hrest := ih htable.concat_none (hall ▸ h)
      rw [hlength] at hrest
      rw [argumentsFrom, hrest]
      rfl
    | some r =>
      obtain ⟨hname, hrefers⟩ := h done.length r (by simp)
      have htable := htable.concat_some r
      have hrest := ih htable (hall ▸ h)
      rw [hlength] at hrest
      rw [argumentsFrom, hname]
      rcases resolve_cases (table.insert (nameAt done.length) (.var (nameAt done.length))) r.predicate with
        ⟨x, hx, hxname, hfree, -⟩ | ⟨-, hp⟩
      · obtain ⟨j, hj, rfl, hpresent⟩ := hrefers x hx hxname
        rw [← hall, present_append (by omega)] at hpresent
        rw [htable.all j hpresent] at hfree
        cases hfree
      · simp only [hp, htable.subst, hrest, bind, Except.bind, pure, Except.pure]
        rw [← hname]

/-- Positional names leave alone exactly the arguments that are in place. -/
theorem arguments_eq_self_iff : arguments args = .ok args ↔ InPlace args := by
  have hidentity : Identity [] [] := ⟨fun x t hx => (by cases hx), fun j hj => absurd hj.lt (Nat.not_lt_zero j)⟩
  exact ⟨inPlace_arguments, fun h => argumentsFrom_of_inPlace hidentity h⟩

/-- Arguments that have got positional names are in place, and to give them such names again changes nothing. -/
theorem arguments_idempotent {args once : List (Option Refinement)} (h : arguments args = .ok once) :
    InPlace once ∧ arguments once = .ok once :=
  ⟨inPlace_arguments h, arguments_eq_self_iff.2 (inPlace_arguments h)⟩

/-- Arguments with a gap, a variable that is not theirs, and a name that looks like a position and is used twice. -/
def reusedName : List (Option Refinement) :=
  [some ⟨"$arg1", .binary .gt (.var "$arg1") (.var "limit")⟩, none,
    some ⟨"x", .binary .gt (.var "x") (.var "$arg1")⟩,
    some ⟨"$arg1", .binary .ne (.var "$arg1") (.var "x")⟩,
    some ⟨"y", .binary .ge (.var "y") (.binary .add (.var "$arg1") (.var "limit"))⟩]

theorem reusedName_idempotent : ∃ once : List (Option Refinement), arguments reusedName = .ok once ∧
    once[4]? = some (some ⟨"$arg4", .binary .ge (.var "$arg4") (.binary .add (.var "$arg3") (.var "limit"))⟩) ∧
    InPlace once ∧ arguments once = .ok once := by
  have hok : arguments reusedName = .ok
      [some ⟨"$arg0", .binary .gt (.var "$arg0") (.var "limit")⟩, none,
        some ⟨"$arg2", .binary .gt (.var "$arg2") (.var "$arg0")⟩,
        some ⟨"$arg3", .binary .ne (.var "$arg3") (.var "$arg2")⟩,
        some ⟨"$arg4", .binary .ge (.var "$arg4") (.binary .add (.var "$arg3") (.var "limit"))⟩] := by
    cbv
  exact ⟨_, hok, rfl, arguments_idempotent hok⟩

end LayerCheck.Canonical
