import Mathlib
import LayerCheck.Proofs.Term.Denotation
import LayerCheck.Solver.Bounded

/-! The search for a counterexample goes through the product of the values of the bindings. The indices that its wheels
show are the digits of a number in mixed radix, and a turn adds one to that number, so the wheels show every choice of
indices once and come round after the last of them. Whatever effects a test has, the search is therefore the same as
trying the members of a list, up to the first that passes or breaks it off. -/
namespace LayerCheck

namespace Odometer

variable {sizes : List Nat} {n : Nat}

/-! ### Counting -/

/-- The digits of a number in mixed radix, the least significant one first. -/
def digits : List Nat → Nat → List Nat
  | [], _ => []
  | size :: sizes, n => n % size :: digits sizes (n / size)

theorem digits_zero (sizes : List Nat) : digits sizes 0 = sizes.map fun _ => 0 := by
  induction sizes with
  | nil => rfl
  | cons size sizes ih => rw [digits, Nat.zero_mod, Nat.zero_div, ih, List.map_cons]

theorem digits_mul_add {size i : Nat} (hi : i < size) (sizes : List Nat) (n : Nat) :
    digits (size :: sizes) (size * n + i) = i :: digits sizes n := by
  have hsize : 0 < size := Nat.zero_lt_of_lt hi
  rw [digits, Nat.mul_add_mod, Nat.mod_eq_of_lt hi, Nat.mul_add_div hsize, Nat.div_eq_of_lt hi, Nat.add_zero]

/-- A turn of the wheels adds one, until all choices have been shown. -/
theorem advance_digits (hpos : ∀ size ∈ sizes, 0 < size) (hn : n < sizes.prod) :
    advance sizes (digits sizes n) = if n + 1 < sizes.prod then some (digits sizes (n + 1)) else none := by
  induction sizes generalizing n with
  | nil =>
    rw [List.prod_nil] at hn ⊢
    rw [if_neg (by omega)]
    rfl
  | cons size sizes ih =>
    obtain ⟨hsize, hpos⟩ := List.forall_mem_cons.1 hpos
    rw [List.prod_cons] at hn ⊢
    have hrest : n / size < sizes.prod := Nat.div_lt_of_lt_mul hn
    have hsplit : size * (n / size) + n % size = n := Nat.div_add_mod n size
    have hi : n % size < size := Nat.mod_lt n hsize
    rw [digits, advance, ih hpos hrest]
    generalize n / size = m at hrest hsplit
    generalize n % size = i at hi hsplit
    subst hsplit
    have hle := Nat.mul_le_mul_left size (Nat.succ_le_of_lt hrest)
    rw [Nat.mul_succ] at hle
    split
    next hturn => rw [if_pos (by omega), Nat.add_assoc, digits_mul_add hturn]
    next hround =>
      have hnext : size * m + i + 1 = size * (m + 1) := by
        rw [Nat.mul_succ]
        omega
      have hdigits := digits_mul_add hsize sizes (m + 1)
      rw [Nat.add_zero] at hdigits
      rw [hnext, hdigits]
      by_cases hlast : m + 1 < sizes.prod
      · rw [if_pos hlast, if_pos (Nat.mul_lt_mul_of_pos_left hlast hsize), Option.map_some]
      · rw [if_neg hlast, if_neg (mt Nat.lt_of_mul_lt_mul_left hlast), Option.map_none]

theorem digits_injOn {n' : Nat} (hn : n < sizes.prod) (hn' : n' < sizes.prod)
    (h : digits sizes n = digits sizes n') : n = n' := by
  induction sizes generalizing n n' with
  | nil =>
    rw [List.prod_nil] at hn hn'
    omega
  | cons size sizes ih =>
    rw [List.prod_cons] at hn hn'
    obtain ⟨hmod, hrest⟩ := List.cons.inj h
    have hdiv := ih (Nat.div_lt_of_lt_mul hn) (Nat.div_lt_of_lt_mul hn') hrest
    rw [← Nat.div_add_mod n size, hmod, hdiv, Nat.div_add_mod]

/-! ### All choices -/

/-- All choices of indices, in the order in which the wheels show them. -/
def choices (sizes : List Nat) : List (List Nat) := (List.range sizes.prod).map (digits sizes)

theorem nodup_choices (sizes : List Nat) : (choices sizes).Nodup :=
  List.nodup_range.map_on fun _ hn _ hn' h => digits_injOn (List.mem_range.1 hn) (List.mem_range.1 hn') h

theorem range_mul (k p : Nat) :
    List.range (k * p) = (List.range p).flatMap fun n => (List.range k).map fun i => k * n + i := by
  induction p with
  | zero => rfl
  | succ p ih => rw [Nat.mul_succ, List.range_add, ih, List.range_succ, List.flatMap_append, List.flatMap_singleton]

/-- The first wheel shows all its indices with each choice of the others. -/
theorem choices_cons (size : Nat) (sizes : List Nat) :
    choices (size :: sizes) = (choices sizes).flatMap fun indices => (List.range size).map (· :: indices) := by
  rw [choices, List.prod_cons, range_mul, List.map_flatMap, choices, List.flatMap_map]
  refine List.flatMap_congr fun n _ => ?_
  rw [List.map_map]
  exact List.map_congr_left fun i hi => digits_mul_add (List.mem_range.1 hi) sizes n

/-! ### The search -/

section

variable {m : Type → Type} [Monad m] {test : List Nat → m Bool}

theorem search_of_advance_some {indices next : List Nat} (h : advance sizes indices = some next) :
    search test sizes indices = (do if ← test indices then return true else search test sizes next) := by
  rw [search]
  split
  next h' => cases h.symm.trans h'
  next next' h' =>
    cases h.symm.trans h'
    rfl

theorem search_of_advance_none {indices : List Nat} (h : advance sizes indices = none) :
    search test sizes indices = (do if ← test indices then return true else return false) := by
  rw [search]
  split
  next => rfl
  next next' h' => cases h.symm.trans h'

theorem exists_test_of_search {ε : Type} {test : List Nat → Except ε Bool} {indices : List Nat} {found : Bool}
    (h : search test sizes indices = .ok found) : ∃ passed, test indices = .ok passed := by
  cases hnext : advance sizes indices with
  | none =>
    rw [search_of_advance_none hnext] at h
    obtain ⟨passed, hpassed, -⟩ := bind_eq_ok.1 h
    exact ⟨passed, hpassed⟩
  | some next =>
    rw [search_of_advance_some hnext] at h
    obtain ⟨passed, hpassed, -⟩ := bind_eq_ok.1 h
    exact ⟨passed, hpassed⟩

/-- From any number on, the search tries the choices with the numbers to come. -/
theorem search_digits (hpos : ∀ size ∈ sizes, 0 < size) {later : Nat} (hn : n + (later + 1) = sizes.prod) :
    search test sizes (digits sizes n) = ((List.range' n (later + 1)).map (digits sizes)).anyM test := by
  induction later generalizing n with
  | zero =>
    have hlast : advance sizes (digits sizes n) = none := by rw [advance_digits hpos (by omega), if_neg (by omega)]
    rw [search_of_advance_none hlast, List.range'_succ, List.map_cons, List.anyM_cons]
    rfl
  | succ later ih =>
    have hnext : advance sizes (digits sizes n) = some (digits sizes (n + 1)) := by
      rw [advance_digits hpos (by omega), if_pos (by omega)]
    have hrest : n + 1 + (later + 1) = sizes.prod := by omega
    rw [search_of_advance_some hnext, List.range'_succ, List.map_cons, List.anyM_cons, ih hrest]

/-- A search with whatever effects, from the first choice on, tries all choices in turn. -/
theorem search_eq_anyM (test : List Nat → m Bool) (hpos : ∀ size ∈ sizes, 0 < size) :
    search test sizes (sizes.map fun _ => 0) = (choices sizes).anyM test := by
  obtain ⟨later, hlater⟩ := Nat.exists_eq_succ_of_ne_zero (Nat.ne_of_gt (List.prod_pos hpos))
  have hall : 0 + (later + 1) = sizes.prod := by omega
  rw [← digits_zero, search_digits hpos hall, choices, List.range_eq_range', hlater]

end

end Odometer

/-! ### Tests in turn -/

section

variable {ε α : Type} {test : α → Except ε Bool} {xs : List α}

theorem anyM_cons_of_false {x : α} (h : test x = .ok false) : (x :: xs).anyM test = xs.anyM test := by
  rw [List.anyM_cons, h]
  rfl

theorem anyM_cons_of_ne_false {x : α} (h : test x ≠ .ok false) : (x :: xs).anyM test = test x := by
  rw [List.anyM_cons]
  generalize test x = r at h
  rcases r with e | _ | _
  · rfl
  · exact absurd rfl h
  · rfl

theorem anyM_eq_false : xs.anyM test = .ok false ↔ ∀ x ∈ xs, test x = .ok false := by
  induction xs with
  | nil => exact iff_of_true rfl (List.forall_mem_nil _)
  | cons x xs ih =>
    rw [List.forall_mem_cons]
    by_cases hx : test x = .ok false
    · rw [anyM_cons_of_false hx, ih, and_iff_right hx]
    · rw [anyM_cons_of_ne_false hx]
      exact iff_of_false hx fun h => hx h.1

/-- Any other outcome is that of a test after tests that failed. -/
theorem anyM_eq_iff {r : Except ε Bool} (hr : r ≠ .ok false) : xs.anyM test = r ↔
    ∃ earlier x later, xs = earlier ++ x :: later ∧ test x = r ∧ ∀ y ∈ earlier, test y = .ok false := by
  induction xs with
  | nil =>
    refine iff_of_false (fun h => hr h.symm) ?_
    rintro ⟨_ | ⟨y, earlier⟩, x, later, ⟨⟩, -⟩
  | cons x xs ih =>
    by_cases hx : test x = .ok false
    · rw [anyM_cons_of_false hx, ih]
      constructor
      · rintro ⟨earlier, y, later, rfl, hy, hearlier⟩
        exact ⟨x :: earlier, y, later, rfl, hy, List.forall_mem_cons.2 ⟨hx, hearlier⟩⟩
      · rintro ⟨_ | ⟨x', earlier⟩, y, later, heq, hy, hearlier⟩
        · cases heq
          exact absurd (hy.symm.trans hx) hr
        · cases heq
          exact ⟨earlier, y, later, rfl, hy, fun z hz => hearlier z (List.mem_cons_of_mem _ hz)⟩
    · rw [anyM_cons_of_ne_false hx]
      constructor
      · exact fun h => ⟨[], x, xs, rfl, h, List.forall_mem_nil _⟩
      · rintro ⟨_ | ⟨x', earlier⟩, y, later, heq, hy, hearlier⟩
        · cases heq
          exact hy
        · cases heq
          exact absurd (hearlier x List.mem_cons_self) hx

/-- A test that also takes down what it is asked about. -/
def logged (test : α → Except ε Bool) (x : α) : ExceptT ε (StateM (List α)) Bool := do
  modify (· ++ [x])
  ExceptT.mk (pure (test x))

/-- Members of a list are visited in turn, up to the end or to one whose test does not fail. -/
structure Scans (test : α → Except ε Bool) (xs visited : List α) : Prop where
  order : visited <+: xs
  passed : ∀ x ∈ visited.dropLast, test x = .ok false
  stopped : visited = xs ∨ ∃ x ∈ visited, test x ≠ .ok false

theorem run_anyM_logged (test : α → Except ε Bool) (xs log : List α) : ∃ visited,
    (xs.anyM (logged test)).run.run log = (xs.anyM test, log ++ visited) ∧ Scans test xs visited := by
  induction xs generalizing log with
  | nil => exact ⟨[], by rw [List.append_nil]; rfl, List.prefix_rfl, fun x hx => (by cases hx), .inl rfl⟩
  | cons x xs ih =>
    have hstep : ((x :: xs).anyM (logged test)).run.run log = (ExceptT.bindCont
        (fun passed => if passed = true then pure true else xs.anyM (logged test)) (test x)).run (log ++ [x]) := by
      rw [List.anyM_cons]
      rfl
    by_cases hx : test x = .ok false
    · obtain ⟨visited, hrun, hscans⟩ := ih (log ++ [x])
      refine ⟨x :: visited, ?_, (List.cons_prefix_cons ..).2 ⟨rfl, hscans.order⟩, fun y hy => ?_, ?_⟩
      · rw [hstep, hx, anyM_cons_of_false hx, List.append_cons log x visited]
        exact hrun
      · cases visited with
        | nil => cases hy
        | cons z visited =>
          rcases List.mem_cons.1 hy with rfl | hy
          · exact hx
          · exact hscans.passed y hy
      · rcases hscans.stopped with rfl | ⟨y, hy, hne⟩
        · exact .inl rfl
        · exact .inr ⟨y, List.mem_cons_of_mem _ hy, hne⟩
    · refine ⟨[x], ?_, by simp, fun y hy => (by cases hy), .inr ⟨x, List.mem_singleton_self x, hx⟩⟩
      rw [hstep, anyM_cons_of_ne_false hx]
      generalize test x = r at hx
      rcases r with e | _ | _
      · rfl
      · exact absurd rfl hx
      · rfl

end

namespace Solver

open Query

variable {q : Query} {ints : List Int}

/-! ### The product of the values -/

/-- The values to try for a base type. -/
def valuesOf (ints : List Int) : BaseType → List Value
  | .int => ints.map .int
  | .bool => [.bool false, .bool true]

/-- The product of the values of some bindings: every way to give each of them a value, that of the first changing
fastest. -/
def elements (ints : List Int) : List Binding → List Env
  | [] => [[]]
  | b :: bs => (elements ints bs).flatMap fun env => (valuesOf ints b.base).map fun v => (b.name, v) :: env

theorem mem_elements_cons {b : Binding} {bs : List Binding} {env : Env} : env ∈ elements ints (b :: bs) ↔
    ∃ rest ∈ elements ints bs, ∃ v ∈ valuesOf ints b.base, (b.name, v) :: rest = env := by
  simp only [elements, List.mem_flatMap, List.mem_map]

/-- The indices of the values of a base type. -/
theorem map_valueAt? (ints : List Int) (b : BaseType) :
    (List.range (sizeOf ints.length b)).map (valueAt? ints.toArray b) = (valuesOf ints b).map some := by
  cases b with
  | int =>
    refine List.ext_getElem (by simp [sizeOf, valuesOf]) fun i hi _ => ?_
    have hi : i < ints.length := by simpa [sizeOf] using hi
    simp [valueAt?, valuesOf, hi]
  | bool => rfl

/-- The sizes of the wheels for some bindings. -/
def sizes (ints : List Int) (bs : List Binding) : List Nat := bs.map fun b => sizeOf ints.length b.base

theorem envAt_cons {arr : Array Int} {b : Binding} {bs : List Binding} {i : Nat} {v : Value}
    (h : valueAt? arr b.base i = some v) (indices : List Nat) :
    envAt arr (b :: bs) (i :: indices) = (envAt arr bs indices).map ((b.name, v) :: ·) := by
  rw [envAt, h]
  rfl

/-- The choices of the wheels are the elements of the product, and none of their indices is out of range. -/
theorem map_envAt_choices (ints : List Int) (bs : List Binding) :
    (Odometer.choices (sizes ints bs)).map (envAt ints.toArray bs) = (elements ints bs).map .ok := by
  induction bs with
  | nil => rfl
  | cons b bs ih =>
    -- what the first binding adds to the values of the others
    let put (rest : Except SolverError Env) := (valuesOf ints b.base).map fun v => rest.map ((b.name, v) :: ·)
    have hput : ∀ indices, ((List.range (sizeOf ints.length b.base)).map (· :: indices)).map
        (envAt ints.toArray (b :: bs)) = put (envAt ints.toArray bs indices) := by
      intro indices
      let add (v? : Option Value) := v?.elim (.ok []) fun v => (envAt ints.toArray bs indices).map ((b.name, v) :: ·)
      have hadd : ∀ i ∈ List.range (sizeOf ints.length b.base),
          envAt ints.toArray (b :: bs) (i :: indices) = add (valueAt? ints.toArray b.base i) := by
        intro i hi
        have hmem := List.mem_map_of_mem hi (f := valueAt? ints.toArray b.base)
        rw [map_valueAt?] at hmem
        obtain ⟨v, -, hv⟩ := List.mem_map.1 hmem
        rw [envAt_cons hv.symm, ← hv]
        rfl
      calc ((List.range (sizeOf ints.length b.base)).map (· :: indices)).map (envAt ints.toArray (b :: bs))
          = ((List.range (sizeOf ints.length b.base)).map (valueAt? ints.toArray b.base)).map add := by
            rw [List.map_map, List.map_map]
            exact List.map_congr_left hadd
        _ = put (envAt ints.toArray bs indices) := by
            rw [map_valueAt?, List.map_map]
            rfl
    calc (Odometer.choices (sizes ints (b :: bs))).map (envAt ints.toArray (b :: bs))
        = (Odometer.choices (sizes ints bs)).flatMap fun indices => put (envAt ints.toArray bs indices) := by
          rw [sizes, List.map_cons, Odometer.choices_cons, List.map_flatMap]
          exact List.flatMap_congr fun indices _ => hput indices
      _ = ((elements ints bs).map .ok).flatMap put := by rw [← ih, List.flatMap_map]
      _ = (elements ints (b :: bs)).map .ok := by
          rw [List.flatMap_map, elements, List.map_flatMap]
          refine List.flatMap_congr fun env _ => ?_
          rw [List.map_map]
          rfl

/-! ### Searches -/

/-- The values at some indices are a counterexample. -/
theorem refutedAt_eq {indices : List Nat} {env : Env} (h : envAt ints.toArray q.bindings indices = .ok env) :
    refutedAt q ints.toArray indices = (q.refutedBy .word env).mapError .evaluation := by
  rw [refutedAt, h]
  rfl

theorem anyM_refutedAt (q : Query) (ints : List Int) :
    (Odometer.choices (sizes ints q.bindings)).anyM (refutedAt q ints.toArray) =
      (elements ints q.bindings).anyM fun env => (q.refutedBy .word env).mapError .evaluation := by
  have hmap := map_envAt_choices ints q.bindings
  generalize Odometer.choices (sizes ints q.bindings) = cs at hmap
  generalize elements ints q.bindings = envs at hmap
  induction cs generalizing envs with
  | nil =>
    rw [List.map_nil, eq_comm, List.map_eq_nil_iff] at hmap
    rw [hmap]
    rfl
  | cons c cs ih =>
    rw [List.map_cons, eq_comm, List.map_eq_cons_iff] at hmap
    obtain ⟨env, envs, rfl, henv, hmap⟩ := hmap
    rw [List.anyM_cons, List.anyM_cons, refutedAt_eq henv.symm, ih envs hmap.symm]

/-- Where all bindings have values to try, a search with whatever effects tries all choices in turn. -/
theorem search_eq_anyM_choices {m : Type → Type} [Monad m] (test : List Nat → m Bool) {bs : List Binding}
    (hpos : ∀ b ∈ bs, 0 < sizeOf ints.length b.base) :
    Odometer.search test (bs.map fun b => sizeOf ints.length b.base) (bs.map fun _ => 0) =
      (Odometer.choices (sizes ints bs)).anyM test := by
  have hzero : (bs.map fun _ => 0) = (sizes ints bs).map fun _ => 0 := by
    rw [sizes, List.map_map]
    rfl
  rw [hzero]
  exact Odometer.search_eq_anyM test (List.forall_mem_map.2 hpos)

theorem hasCounterexample_eq (hpos : ∀ b ∈ q.bindings, 0 < sizeOf ints.length b.base) :
    hasCounterexample q ints =
      (elements ints q.bindings).anyM fun env => (q.refutedBy .word env).mapError .evaluation := by
  rw [hasCounterexample, search_eq_anyM_choices _ hpos, anyM_refutedAt]

theorem sizeOf_pos_of_envAt {bs : List Binding} {env : Env}
    (h : envAt ints.toArray bs (bs.map fun _ => 0) = .ok env) : ∀ b ∈ bs, 0 < sizeOf ints.length b.base := by
  induction bs generalizing env with
  | nil => exact List.forall_mem_nil _
  | cons b bs ih =>
    rw [List.map_cons, envAt] at h
    split at h
    next => cases h
    next v hv =>
      obtain ⟨rest, hrest, -⟩ := bind_eq_ok.1 h
      refine List.forall_mem_cons.2 ⟨?_, ih hrest⟩
      cases hb : b.base with
      | int =>
        rw [hb, valueAt?] at hv
        obtain ⟨n, hn, -⟩ := Option.map_eq_some_iff.1 hv
        rw [List.getElem?_toArray] at hn
        exact (List.getElem?_eq_some_iff.1 hn).1
      | bool => exact Nat.two_pos

/-- A search that succeeds has found a value of each binding to begin with. -/
theorem sizeOf_pos_of_hasCounterexample {found : Bool} (h : hasCounterexample q ints = .ok found) :
    ∀ b ∈ q.bindings, 0 < sizeOf ints.length b.base := by
  obtain ⟨passed, hpassed⟩ := Odometer.exists_test_of_search h
  obtain ⟨env, henv, -⟩ := bind_eq_ok.1 hpassed
  exact sizeOf_pos_of_envAt henv

theorem hasCounterexample_eq_false (hpos : ∀ b ∈ q.bindings, 0 < sizeOf ints.length b.base) :
    hasCounterexample q ints = .ok false ↔
      ∀ env ∈ elements ints q.bindings, q.refutedBy .word env = .ok false := by
  rw [hasCounterexample_eq hpos, anyM_eq_false]
  exact forall₂_congr fun env _ => mapError_eq_ok

theorem hasCounterexample_eq_true (hpos : ∀ b ∈ q.bindings, 0 < sizeOf ints.length b.base) :
    hasCounterexample q ints = .ok true ↔ ∃ earlier env later, elements ints q.bindings = earlier ++ env :: later ∧
      q.refutedBy .word env = .ok true ∧ ∀ e ∈ earlier, q.refutedBy .word e = .ok false := by
  rw [hasCounterexample_eq hpos, anyM_eq_iff (by simp)]
  simp only [mapError_eq_ok]

/-! ### The run of a search -/

/-- The search, with the indices that it looks at taken down in order. -/
def loggedSearch (q : Query) (ints : List Int) : Except SolverError Bool × List (List Nat) :=
  (Odometer.search (logged (refutedAt q ints.toArray)) (q.bindings.map fun b => sizeOf ints.length b.base)
    (q.bindings.map fun _ => 0)).run.run []

/-- The indices that a search looks at, in order. -/
def visits (q : Query) (ints : List Int) : List (List Nat) := (loggedSearch q ints).2

/-- A search for a counterexample among some integers goes through the product of the values of the bindings. -/
structure Exhausts (q : Query) (ints : List Int) : Prop where
  /-- Taking down the indices makes no difference to the outcome. -/
  outcome : (loggedSearch q ints).1 = hasCounterexample q ints
  /-- The values looked at are those of the product in its order, so there are no more of them. -/
  order : (visits q ints).map (envAt ints.toArray q.bindings) <+: (elements ints q.bindings).map .ok
  once : (visits q ints).Nodup
  /-- Different indices stand for different values where the integers differ. -/
  distinct : ints.Nodup → (elements ints q.bindings).Nodup
  /-- The search goes on from values that are no counterexample, and only from those. -/
  passed : ∀ c ∈ (visits q ints).dropLast, refutedAt q ints.toArray c = .ok false
  whole : (∀ c ∈ visits q ints, refutedAt q ints.toArray c = .ok false) →
    (visits q ints).map (envAt ints.toArray q.bindings) = (elements ints q.bindings).map .ok
  false_iff : hasCounterexample q ints = .ok false ↔
    ∀ env ∈ elements ints q.bindings, q.refutedBy .word env = .ok false
  true_iff : hasCounterexample q ints = .ok true ↔
    ∃ earlier env later, elements ints q.bindings = earlier ++ env :: later ∧
      q.refutedBy .word env = .ok true ∧ ∀ e ∈ earlier, q.refutedBy .word e = .ok false
  inRange : ∀ i, hasCounterexample q ints ≠ .error (.outOfRange i)

theorem nodup_elements (h : ints.Nodup) (bs : List Binding) : (elements ints bs).Nodup := by
  induction bs with
  | nil => exact List.nodup_singleton _
  | cons b bs ih =>
    have hvalues : (valuesOf ints b.base).Nodup := by
      cases b.base with
      | int => exact h.map fun _ _ heq => Value.int.inj heq
      | bool => simp [valuesOf]
    refine List.nodup_flatMap.2 ⟨fun env _ => hvalues.map fun v w heq => ?_, ih.imp fun {env env'} hne => ?_⟩
    · exact (Prod.mk.inj (List.cons.inj heq).1).2
    · rintro _ h h'
      obtain ⟨v, -, rfl⟩ := List.mem_map.1 h
      obtain ⟨w, -, heq⟩ := List.mem_map.1 h'
      exact hne (List.cons.inj heq).2.symm

theorem exhausts (hpos : ∀ b ∈ q.bindings, 0 < sizeOf ints.length b.base) : Exhausts q ints := by
  have hchoices := map_envAt_choices ints q.bindings
  obtain ⟨visited, hrun, hscans⟩ :=
    run_anyM_logged (refutedAt q ints.toArray) (Odometer.choices (sizes ints q.bindings)) []
  have hsearch : loggedSearch q ints = (hasCounterexample q ints, visited) := by
    rw [loggedSearch, search_eq_anyM_choices _ hpos, hrun, anyM_refutedAt, hasCounterexample_eq hpos, List.nil_append]
  have hvisits : visits q ints = visited := congrArg Prod.snd hsearch
  constructor
  case outcome => rw [hsearch]
  case order => rw [hvisits, ← hchoices]; exact hscans.order.map _
  case once => rw [hvisits]; exact (Odometer.nodup_choices _).sublist hscans.order.sublist
  case distinct => exact fun h => nodup_elements h q.bindings
  case passed => rw [hvisits]; exact hscans.passed
  case whole =>
    intro h
    rw [hvisits] at h ⊢
    rcases hscans.stopped with hall | ⟨c, hc, hne⟩
    · rw [hall, hchoices]
    · exact absurd (h c hc) hne
  case false_iff => exact hasCounterexample_eq_false hpos
  case true_iff => exact hasCounterexample_eq_true hpos
  case inRange =>
    intro i h
    rw [hasCounterexample_eq hpos, anyM_eq_iff (by simp)] at h
    obtain ⟨_, env, _, -, henv, -⟩ := h
    cases hr : q.refutedBy .word env with
    | error e =>
      rw [hr] at henv
      cases henv
    | ok b =>
      rw [hr] at henv
      cases henv

theorem domain_ne_nil {s : Solver} (h : 0 ≤ s.bound) (q : Query) : s.domain q ≠ [] := by
  rw [← List.length_pos_iff, length_domain, domainSize, if_neg (Int.not_lt.2 h)]
  omega

theorem sizeOf_pos (h : ints ≠ []) (b : BaseType) : 0 < sizeOf ints.length b := by
  cases b with
  | int => exact List.length_pos_iff.2 h
  | bool => exact Nat.two_pos

/-- With integers to try, the search looks at every element of the product of the values of the bindings once, in order,
until one is a counterexample or cannot be evaluated, and its outcome is that of the last one. A window that is not
negative always has integers to try. -/
theorem search_exhausts_product (q : Query) :
    (∀ ints, ints ≠ [] → Exhausts q ints) ∧
      ∀ s : Solver, 0 ≤ s.bound → s.domain q ≠ [] ∧ Exhausts q (s.domain q) := by
  refine ⟨fun ints h => exhausts fun b _ => sizeOf_pos h b.base, fun s h => ?_⟩
  have hne := domain_ne_nil h q
  exact ⟨hne, exhausts fun b _ => sizeOf_pos hne b.base⟩

/-- Whether an integer is less than one unless a truth value holds. -/
def mixedQuery : Query :=
  ⟨[⟨"x", .int⟩, ⟨"b", .bool⟩], [], .binary .or (.var "b") (.binary .lt (.var "x") (.int 1))⟩

/-- Of the four elements of its product, the search looks at the first two. -/
theorem mixedQuery_search : [0, 1] ≠ ([] : List Int) ∧ Exhausts mixedQuery [0, 1] ∧
    visits mixedQuery [0, 1] = [[0, 0], [1, 0]] ∧ hasCounterexample mixedQuery [0, 1] = .ok true ∧
    0 ≤ (⟨1, 100⟩ : Solver).bound ∧ Exhausts mixedQuery (domain ⟨1, 100⟩ mixedQuery) := by
  obtain ⟨hsearch, hdomain⟩ := search_exhausts_product mixedQuery
  exact ⟨by decide, hsearch [0, 1] (by decide), by cbv, by cbv, by decide, (hdomain ⟨1, 100⟩ (by decide)).2⟩

end Solver

end LayerCheck
