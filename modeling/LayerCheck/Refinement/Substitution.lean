import LayerCheck.Name.Map
import LayerCheck.Refinement.Basic

/-! Substitution in refined types. The name that a refined type binds is renamed where a term put into
its predicate would be captured by it. -/
namespace LayerCheck

/-- Names for bound values, in order of preference. -/
def boundName : Nat → String
  | 0 => "v"
  | 1 => "$v"
  | n + 2 => s!"$v{n + 1}"

/-- The first name for a bound value that is not taken. One of the first `taken.length + 1` is free. -/
def freshBoundName (taken : List String) : String :=
  (((List.range (taken.length + 1)).map boundName).find? (!taken.contains ·)).getD (boundName 1)

namespace RefinedType

/-- The values equal to a term, under a bound name that the term does not mention. -/
def exactly (base : BaseType) (t : Term) : RefinedType :=
  let name := if t.freeVars.contains (boundName 0) then boundName 1 else boundName 0
  refined base name (.equal (.var name) t)

/-- The text of a type with its bound name spelled `v` where that captures nothing. -/
def display (ty : RefinedType) : String :=
  match ty.refinement with
  | some r =>
    if r.name ≠ boundName 0 ∧ boundName 0 ∉ r.predicate.freeVars then
      (refined ty.base (boundName 0) (r.predicate.rename r.name (boundName 0))).render
    else ty.render
  | none => ty.render

/-- The variables of the terms that a substitution puts into a predicate. -/
def incoming (m : NameMap Term) (predicate : Term) : NameSet :=
  NameSet.ofList ((m.filter fun (x, _) => predicate.freeVars.contains x).flatMap fun (_, t) => t.freeVars)

/-- Replaces the free variables of the predicate of a type; its bound name is not one of them. -/
def subst (m : NameMap Term) (ty : RefinedType) : RefinedType :=
  match ty.refinement with
  | none => ty
  | some r =>
    let m := m.erase r.name
    let arriving := incoming m r.predicate
    let r := if arriving.contains r.name then
        let name := freshBoundName (arriving ++ r.predicate.freeVars)
        ⟨name, r.predicate.rename r.name name⟩
      else r
    refined ty.base r.name (r.predicate.subst m.get?)

end RefinedType

end LayerCheck
