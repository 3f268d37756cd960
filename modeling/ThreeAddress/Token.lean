/-!
# Tokens

The words of the written form of a class. A token that could not be made out is kept as `invalid`,
so that reading can go on; `Token.isMark` and its like accept it in any place.
-/

namespace ThreeAddress

/-- Punctuation and operators. -/
inductive Mark where
  | dot | comma | semicolon | colon | colonEqual
  | leftParen | rightParen | leftBrace | rightBrace | leftBracket | rightBracket
  | equal | plus | minus | star | slash | andAnd | orOr | bang
  | less | greater | lessEqual | greaterEqual | equalEqual | bangEqual
  deriving DecidableEq, Repr

def Mark.text : Mark → String
  | .dot => "."
  | .comma => ","
  | .semicolon => ";"
  | .colon => ":"
  | .colonEqual => ":="
  | .leftParen => "("
  | .rightParen => ")"
  | .leftBrace => "\x7b"
  | .rightBrace => "\x7d"
  | .leftBracket => "["
  | .rightBracket => "]"
  | .equal => "="
  | .plus => "+"
  | .minus => "-"
  | .star => "*"
  | .slash => "/"
  | .andAnd => "&&"
  | .orOr => "||"
  | .bang => "!"
  | .less => "<"
  | .greater => ">"
  | .lessEqual => "<="
  | .greaterEqual => ">="
  | .equalEqual => "=="
  | .bangEqual => "!="

inductive Token where
  | mark (mark : Mark)
  | name (name : String)
  /-- The index of a parameter, such as `$1`, which may stand before its name. -/
  | param (index : Nat)
  | number (value : Nat)
  | str (contents : String)
  | invalid
  deriving DecidableEq, Repr

namespace Token

/-- How the token is named in diagnostics. -/
def text : Token → String
  | .mark m => "`" ++ m.text ++ "`"
  | .name n => "`" ++ n ++ "`"
  | .param index => "`$" ++ toString index ++ "`"
  | .number value => "`" ++ toString value ++ "`"
  | .str contents => "\"" ++ contents ++ "\""
  | .invalid => "an invalid token"

def isInvalid : Token → Bool
  | .invalid => true
  | _ => false

def isMark (wanted : Mark) : Token → Bool
  | .mark m => m == wanted
  | .invalid => true
  | _ => false

def isName : Token → Bool
  | .name _ | .invalid => true
  | _ => false

def isParam : Token → Bool
  | .param _ | .invalid => true
  | _ => false

def isNumber : Token → Bool
  | .number _ | .invalid => true
  | _ => false

/-- Only the very word will do: an invalid token is no keyword. -/
def isKeyword (word : String) : Token → Bool
  | .name n => n == word
  | _ => false

end Token

end ThreeAddress
