import LayerCheck.Fact.Recording
import LayerCheck.Program.Declarations
import LayerCheck.Typing.TypeList

/-! The layer of declared types: every declaration gives a list of type names, whatever they are, and
every function definition needs one with as many arguments as it has parameters. -/
namespace LayerCheck.Declared

def layerName : String := "types"

/-- Writes the declarations of the layer. -/
def recordAll : List Declaration → Recording Unit
  | [] => pure ()
  | d :: ds => do
    let (subject, names) ← Recording.ofExcept ((TypeList.parse d.text).mapError (·.orLoc d.loc))
    Recording.write ⟨layerName, d.identifier, subject.key⟩ (.types names) d.loc
    recordAll ds

def functionType? (table : FactTable) (layer function : String) : Option (List String) :=
  (table.get? ⟨layer, function, Subject.functionType.key⟩).bind Fact.types?

/-- The functions that have a type. -/
def functions (table : FactTable) : NameSet :=
  (table.identifiers layerName).filter fun f => table.contains ⟨layerName, f, Subject.functionType.key⟩

mutual

/-- Checks the function definitions in a statement. -/
def checkStmt (table : FactTable) : Stmt → Except Fault Unit
  | .declare _ | .brk _ | .cont _ | .ret _ none => .ok ()
  | .funDef loc name params body =>
    match functionType? table layerName name with
    | none => .error (.unresolved name layerName loc (functions table))
    | some names =>
      if names.length - 1 ≠ params.length then
        .error (.located (.argumentCount name (names.length - 1) params.length) loc)
      else checkAll table body
  | .branch _ condition thenBlock elseBlock => do
    condition.check
    checkAll table thenBlock
    checkAll table elseBlock
  | .loop _ condition body => do
    condition.check
    checkAll table body
  | .ret _ (some value) => value.check
  | .assign _ _ value => value.check
  | .expr _ value => value.check
  | .malformed loc kind => .error (misshapen loc kind)

def checkAll (table : FactTable) : List Stmt → Except Fault Unit
  | [] => .ok ()
  | s :: ss => do
    checkStmt table s
    checkAll table ss

end

/-- Records the declared types of a program and checks its definitions. -/
def check (tree : Tree) : Recording Unit := do
  recordAll (tree.declarationsFor layerName)
  Recording.ofExcept (checkAll (← get) tree.statements)

end LayerCheck.Declared
