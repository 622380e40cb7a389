import LayerCheck.Solver.Query

/-! Removing bindings that a premise fixes. A premise `x == t`, where `x` is bound and does not occur in
`t`, says what `x` is: every other use of `x` can be replaced by `t`. Each replacement takes away a
premise, so the process ends. -/
namespace LayerCheck

/-- The parts of a conjunction from left to right, without those that are plainly true. -/
def Term.conjuncts : Term → List Term
  | .binary .and l r => l.conjuncts ++ r.conjuncts
  | .bool true => []
  | t => [t]

namespace Query

/-- A variable and the term that it equals. -/
structure Definition where
  name : String
  value : Term
deriving DecidableEq, Repr

/-- The definition that an equation gives when its left side is a bound variable. -/
def definition? (bound : List Binding) (lhs rhs : Term) : Option Definition :=
  match lhs with
  | .var x => if bound.any (·.name == x) && !rhs.freeVars.contains x then some ⟨x, rhs⟩ else none
  | _ => none

/-- The definition that a premise gives, read from left to right or else from right to left. -/
def definitionOf? (bound : List Binding) : Term → Option Definition
  | .binary .eq l r => (definition? bound l r).or (definition? bound r l)
  | _ => none

/-- The first definition among some premises, and the premises without it. -/
def takeDefinition? (bound : List Binding) : List Term → Option (Definition × List Term)
  | [] => none
  | p :: ps =>
    match definitionOf? bound p with
    | some d => some (d, ps)
    | none => (takeDefinition? bound ps).map fun (d, rest) => (d, p :: rest)

theorem takeDefinition?_length {bound : List Binding} {ps rest : List Term} {d : Definition}
    (h : takeDefinition? bound ps = some (d, rest)) : rest.length < ps.length := by
  induction ps generalizing rest with
  | nil => simp [takeDefinition?] at h
  | cons p ps ih =>
    rw [takeDefinition?] at h
    split at h
    · simp only [Option.some.injEq, Prod.mk.injEq] at h
      simp [← h.2]
    · obtain ⟨⟨d', rest'⟩, h', e⟩ := Option.map_eq_some_iff.1 h
      simp only [Prod.mk.injEq] at e
      obtain ⟨rfl, rfl⟩ := e
      simpa using ih h'

/-- Replaces a defined variable everywhere and forgets its binding. -/
def inline (q : Query) (d : Definition) : Query :=
  let σ := Term.single d.name d.value
  ⟨q.bindings.filter (·.name != d.name), q.premises.map (·.subst σ), q.conclusion.subst σ⟩

def inlineAll (q : Query) : Query :=
  match _h : takeDefinition? q.bindings q.premises with
  | none => q
  | some (d, rest) => inlineAll (inline { q with premises := rest } d)
termination_by q.premises.length
decreasing_by
  simpa [inline] using takeDefinition?_length _h

/-- The query with conjunctions split and every defined variable replaced. -/
def eliminate (q : Query) : Query := inlineAll { q with premises := q.premises.flatMap Term.conjuncts }

end Query

end LayerCheck
