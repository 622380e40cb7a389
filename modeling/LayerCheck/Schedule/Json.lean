import LayerCheck.Schedule.Report
import LayerCheck.Text.JsonValue

/-! Reports as JSON. -/
namespace LayerCheck

def Location.toJson (loc : Location) : JsonValue := .obj [("line", .num loc.line), ("col", .num loc.col)]

def Fault.Cause.Field.toJson : Fault.Cause.Field → JsonValue
  | text value => .str value
  | count value => .num value

def Fault.toJson (f : Fault) : JsonValue :=
  .obj [("kind", .obj (("kind", .str f.cause.label) :: f.cause.fields.map fun (name, v) => (name, v.toJson))),
    ("location", (f.loc.map Location.toJson).getD .null),
    ("suggestions", .strs f.hints)]

def Metrics.toJson (m : Metrics) : JsonValue :=
  let counts (m : NameMap Nat) : JsonValue := .obj (m.map fun (name, n) => (name, .num n))
  .obj [("timings", counts m.microseconds), ("counters", counts m.counters)]

def Report.toJson (r : Report) : JsonValue :=
  .obj [("states", .obj (r.states.map fun (n, s) => (n, .str s.label))),
    ("order", .strs r.order),
    ("failures", .arr (r.failures.map fun (layer, f) => .obj [("layer", .str layer), ("error", f.toJson)])),
    ("cycles", .arr (r.cycles.map .strs)),
    ("implicit_layers", .strs r.implicit),
    ("metrics", r.metrics.toJson)]

end LayerCheck
