import LayerCheck.Operator

/-! Tokens of the surface language. The newline is a token, because it ends a statement. A character
that the language has no use for is a token too: the free text of an annotation may hold anything, so
only the reader of a statement can tell whether such a character is an error. -/
namespace LayerCheck

inductive Keyword where
  | defKw | ifKw | elseKw | whileKw | returnKw | breakKw | continueKw | trueKw | falseKw
deriving DecidableEq, Repr

namespace Keyword

def spelling : Keyword → String
  | defKw => "def" | ifKw => "if" | elseKw => "else" | whileKw => "while" | returnKw => "return"
  | breakKw => "break" | continueKw => "continue" | trueKw => "true" | falseKw => "false"

/-- How a message names a keyword that stands in the wrong place. -/
def label : Keyword → String
  | defKw => "KwDef" | ifKw => "KwIf" | elseKw => "KwElse" | whileKw => "KwWhile" | returnKw => "KwReturn"
  | breakKw => "KwBreak" | continueKw => "KwContinue" | trueKw => "KwTrue" | falseKw => "KwFalse"

def all : List Keyword :=
  [defKw, ifKw, elseKw, whileKw, returnKw, breakKw, continueKw, trueKw, falseKw]

def ofSpelling? (s : String) : Option Keyword := all.find? (·.spelling == s)

end Keyword

inductive Punct where
  | lparen | rparen | lbrace | rbrace | comma | colon | semi | assign | arrow
deriving DecidableEq, Repr

namespace Punct

def spelling : Punct → String
  | lparen => "(" | rparen => ")" | lbrace => "\x7b" | rbrace => "\x7d" | comma => "," | colon => ":"
  | semi => ";" | assign => "=" | arrow => "->"

/-- How a message names a mark that stands in the wrong place. -/
def label : Punct → String
  | lparen => "LParen" | rparen => "RParen" | lbrace => "LBrace" | rbrace => "RBrace" | comma => "Comma"
  | colon => "Colon" | semi => "Semi" | assign => "Assign" | arrow => "Arrow"

end Punct

inductive Token where
  | eof
  | newline
  | ident (name : String)
  | int (digits : String)
  | keyword (word : Keyword)
  | punct (mark : Punct)
  | op (operator : BinaryOp)
  | bang
  | unknown (char : Char)
deriving DecidableEq, Repr

namespace Token

/-- The text that a token stands for. -/
def spelling : Token → String
  | eof => ""
  | newline => "\n"
  | ident name => name
  | int digits => digits
  | keyword word => word.spelling
  | punct mark => mark.spelling
  | op operator => operator.symbol
  | bang => "!"
  | unknown char => char.toString

/-- How a message names a token that was found where another was expected. -/
def describe : Token → String
  | eof => "end of input"
  | newline => "newline"
  | ident name => s!"identifier '{name}'"
  | int digits => s!"integer {digits}"
  | keyword word => word.label
  | punct mark => mark.label
  | op operator => s!"'{operator.symbol}'"
  | bang => "'!'"
  | unknown char => s!"character '{char}'"

end Token

/-- A token and the bytes of the text that it covers. -/
structure Lexeme where
  token : Token
  start : Nat
  stop : Nat
deriving DecidableEq, Repr

end LayerCheck
