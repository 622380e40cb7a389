import LayerCheck.Refinement.Basic
import LayerCheck.Term.Reader

/-! Reading refined types and signatures. -/
namespace LayerCheck

namespace Reader

def baseType (ts : List Token) : Result BaseType ts :=
  match ts with
  | .ident name :: rest =>
    match BaseType.ofName? name with
    | some base => .ok (base, (NoLonger.all rest).behind (.ident name))
    | none => .error (.expected .base (.ident name))
  | ts => .error (.expected .base (next ts))

/-- A base type, or a base type with a name and a predicate in braces. -/
def refinedType (ts : List Token) : Result RefinedType ts :=
  match ts with
  | .punct .lbrace :: rest => do
    let (name, ⟨rest₁, h₁⟩) ← variableName rest
    let ⟨rest₂, h₂⟩ ← expect (.punct .colon) rest₁
    let (base, ⟨rest₃, h₃⟩) ← baseType rest₂
    let ⟨rest₄, h₄⟩ ← expect (.unknown '|') rest₃
    let (predicate, ⟨rest₅, h₅⟩) ← term 0 rest₄
    let ⟨rest₆, h₆⟩ ← expect (.punct .rbrace) rest₅
    return (.refined base name predicate, ⟨rest₆, by simp only [List.length_cons]; omega⟩)
  | ts => do
    let (base, rest) ← baseType ts
    return (⟨base, none⟩, rest)

/-- One or more types separated by arrows. -/
def typeChain (ts : List Token) : Result (List RefinedType) ts := do
  let (ty, ⟨rest, h⟩) ← refinedType ts
  match rest, h with
  | .punct .arrow :: rest', h => do
    let (tys, ⟨rest'', h''⟩) ← typeChain rest'
    return (ty :: tys, ⟨rest'', by simp only [List.length_cons] at h; omega⟩)
  | rest, h => return ([ty], ⟨rest, h⟩)
termination_by ts.length
decreasing_by simp only [List.length_cons] at h; omega

def liquidType (ts : List Token) : Except ReadError LiquidType :=
  match ts with
  | .punct .arrow :: rest => do
    let (ret, rest') ← refinedType rest
    expectEnd rest'.1
    return .function ⟨[], ret⟩
  | ts => do
    let (types, rest) ← typeChain ts
    expectEnd rest.1
    match types with
    | [ty] => return .value ty
    | types => return .function ⟨types.dropLast, types.getLastD ⟨.int, none⟩⟩

end Reader

def RefinedType.parse (text : String) : Except Fault RefinedType :=
  let result := do
    let (ty, rest) ← Reader.refinedType (tokensOf text)
    Reader.expectEnd rest.1
    return ty
  result.mapError (ReadError.fault text)

/-- Reads a refined type, a signature, or `-> T` for a function without arguments. -/
def LiquidType.parse (text : String) : Except Fault LiquidType :=
  (Reader.liquidType (tokensOf text)).mapError (ReadError.fault text)

end LayerCheck
