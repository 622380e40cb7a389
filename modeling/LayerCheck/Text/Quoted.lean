import LayerCheck.Text.Hidden

/-! Quoted text with escapes, for listing names. -/
namespace LayerCheck.Text

/-- A character as it stands between double quotes. -/
def escaped (c : Char) : String :=
  match c with
  | '\t' => "\\t"
  | '\r' => "\\r"
  | '\n' => "\\n"
  | '"' => "\\\""
  | '\\' => "\\\\"
  | c =>
    if c.toNat = 0 then "\\0"
    else if isHidden c then
      "\\u\x7b" ++ String.ofList (Nat.toDigits 16 c.toNat) ++ "\x7d"
    else c.toString

def quoted (s : String) : String := "\"" ++ String.join (s.toList.map escaped) ++ "\""

end LayerCheck.Text
