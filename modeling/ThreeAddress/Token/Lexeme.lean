import ThreeAddress.Diagnostic
import ThreeAddress.Token

/-!
# Lexemes

`lexemes` cuts a text into lexemes, blanks and comments included, so that the lexemes put together
are the text again (`flatMap_chars_lexemes`). `lex` then gives each lexeme its place in bytes, drops
what separates tokens, and reports what is no token.
-/

namespace ThreeAddress

inductive Lexeme.Class where
  | blank
  | comment
  | mark (mark : Mark)
  | name
  | param
  | number
  | str
  /-- A character that starts no token, or a string that its line does not close. -/
  | stray
  deriving DecidableEq, Repr

structure Lexeme where
  kind : Lexeme.Class
  chars : List Char
  deriving DecidableEq, Repr

namespace Lexeme

def isBlank (c : Char) : Bool :=
  c == ' ' || c == '\t' || c == '\n' || c == '\r' || c == '\x0b' || c == '\x0c'

def isNameStart (c : Char) : Bool := c.isAlpha || c == '_'

def isNameChar (c : Char) : Bool := c.isAlphanum || c == '_'

def isLineEnd (c : Char) : Bool := c == '\n' || c == '\r'

/-- The characters that may stand between the quotes of a string. -/
def isStrChar (c : Char) : Bool := !(c == '"' || isLineEnd c)

/-- The mark made of two characters. -/
def pairMark? : Char → Char → Option Mark
  | ':', '=' => some .colonEqual
  | '&', '&' => some .andAnd
  | '|', '|' => some .orOr
  | '<', '=' => some .lessEqual
  | '>', '=' => some .greaterEqual
  | '=', '=' => some .equalEqual
  | '!', '=' => some .bangEqual
  | _, _ => none

def charMark? : Char → Option Mark
  | '.' => some .dot
  | ',' => some .comma
  | ';' => some .semicolon
  | ':' => some .colon
  | '(' => some .leftParen
  | ')' => some .rightParen
  | '\x7b' => some .leftBrace
  | '\x7d' => some .rightBrace
  | '[' => some .leftBracket
  | ']' => some .rightBracket
  | '=' => some .equal
  | '+' => some .plus
  | '-' => some .minus
  | '*' => some .star
  | '/' => some .slash
  | '!' => some .bang
  | '<' => some .less
  | '>' => some .greater
  | _ => none

/-- A single character as a mark, or as a stray one. -/
def single (c : Char) : Lexeme :=
  match charMark? c with
  | some m => ⟨.mark m, [c]⟩
  | none => ⟨.stray, [c]⟩

/-- The lexeme that starts with `c`, and what is left after it. -/
def first (c : Char) (rest : List Char) : Lexeme × List Char :=
  if isBlank c then
    (⟨.blank, c :: rest.takeWhile isBlank⟩, rest.dropWhile isBlank)
  else if isNameStart c then
    (⟨.name, c :: rest.takeWhile isNameChar⟩, rest.dropWhile isNameChar)
  else if c.isDigit then
    (⟨.number, c :: rest.takeWhile Char.isDigit⟩, rest.dropWhile Char.isDigit)
  else if c = '$' then
    -- Without digits the sign stands for nothing.
    match rest.takeWhile Char.isDigit with
    | [] => (⟨.stray, [c]⟩, rest)
    | digit :: digits => (⟨.param, c :: digit :: digits⟩, rest.dropWhile Char.isDigit)
  else if c = '"' then
    match rest.dropWhile isStrChar with
    | '"' :: rest' => (⟨.str, c :: (rest.takeWhile isStrChar ++ ['"'])⟩, rest')
    -- The line or the text ends before the string does.
    | rest' => (⟨.stray, c :: rest.takeWhile isStrChar⟩, rest')
  else
    match rest with
    | [] => (single c, [])
    | second :: rest' =>
      if c = '/' ∧ second = '/' then
        (⟨.comment, c :: second :: rest'.takeWhile (!isLineEnd ·)⟩, rest'.dropWhile (!isLineEnd ·))
      else
        match pairMark? c second with
        | some m => (⟨.mark m, [c, second]⟩, rest')
        | none => (single c, second :: rest')

theorem chars_single (c : Char) : (single c).chars = [c] := by
  simp only [single]
  split <;> rfl

theorem chars_first (c : Char) (rest : List Char) :
    (first c rest).1.chars ++ (first c rest).2 = c :: rest := by
  unfold first
  split
  · simp [List.takeWhile_append_dropWhile]
  split
  · simp [List.takeWhile_append_dropWhile]
  split
  · simp [List.takeWhile_append_dropWhile]
  split
  · split
    · simp
    · next digit digits h =>
      have := List.takeWhile_append_dropWhile (p := Char.isDigit) (l := rest)
      rw [h] at this
      simpa using this
  split
  · split
    · next rest' h =>
      have := List.takeWhile_append_dropWhile (p := isStrChar) (l := rest)
      rw [h] at this
      simpa using this
    · simp [List.takeWhile_append_dropWhile]
  · split
    · simp [chars_single]
    · split
      · simp [List.takeWhile_append_dropWhile]
      · split
        · simp
        · simp [chars_single]

theorem chars_first_ne_nil (c : Char) (rest : List Char) : (first c rest).1.chars ≠ [] := by
  unfold first
  split
  · simp
  split
  · simp
  split
  · simp
  split
  · split <;> simp
  split
  · split <;> simp
  · split
    · simp [chars_single]
    · split
      · simp
      · split
        · simp
        · simp [chars_single]

theorem length_first_lt (c : Char) (rest : List Char) :
    (first c rest).2.length < (c :: rest).length := by
  have all := congrArg List.length (chars_first c rest)
  have some := List.length_pos_iff.mpr (chars_first_ne_nil c rest)
  rw [List.length_append] at all
  omega

end Lexeme

def lexemes : List Char → List Lexeme
  | [] => []
  | c :: rest => (Lexeme.first c rest).1 :: lexemes (Lexeme.first c rest).2
termination_by chars => chars.length
decreasing_by exact Lexeme.length_first_lt c rest

theorem flatMap_chars_lexemes (chars : List Char) : (lexemes chars).flatMap Lexeme.chars = chars := by
  fun_induction lexemes chars with
  | case1 => rfl
  | case2 c rest ih => rw [List.flatMap_cons, ih, Lexeme.chars_first]

/-- The number of bytes that characters take up in a file. -/
def byteLength : List Char → Nat
  | [] => 0
  | c :: rest => c.utf8Size + byteLength rest

namespace Lexeme

def decimal (digits : List Char) : Nat :=
  digits.foldl (fun value digit => 10 * value + (digit.toNat - '0'.toNat)) 0

/-- Numbers and parameter indices have 64 bits. -/
def wordLimit : Nat := 18446744073709551616

def bounded (chars digits : List Char) (make : Nat → Token) : Token × Option Diagnostic.Cause :=
  if decimal digits < wordLimit then (make (decimal digits), none)
  else (.invalid, some (.literalRange (String.ofList chars)))

/-- The token that a lexeme stands for, and what is wrong with it. Blanks and comments stand for
none. -/
def token? (lexeme : Lexeme) : Option (Token × Option Diagnostic.Cause) :=
  match lexeme.kind with
  | .blank | .comment => none
  | .mark m => some (.mark m, none)
  | .name => some (.name (String.ofList lexeme.chars), none)
  | .param => some (bounded lexeme.chars lexeme.chars.tail .param)
  | .number => some (bounded lexeme.chars lexeme.chars .number)
  | .str => some (.str (String.ofList lexeme.chars.tail.dropLast), none)
  | .stray => some (.invalid, some .invalidToken)

end Lexeme

/-- A token at its place. -/
abbrev Placed := Token × Span

/-- The tokens of lexemes that start at byte `start`, and the diagnostics about them. -/
def tokensFrom (file : Nat) : Nat → List Lexeme → List Placed × List Diagnostic
  | _, [] => ([], [])
  | start, lexeme :: rest =>
    let stop := start + byteLength lexeme.chars
    let after := tokensFrom file stop rest
    match lexeme.token? with
    | none => after
    | some (token, cause?) =>
      let span : Span := { file, start, stop }
      ((token, span) :: after.1, (cause?.map (Diagnostic.pointing span)).toList ++ after.2)

def lex (file : Nat) (source : String) : List Placed × List Diagnostic :=
  tokensFrom file 0 (lexemes source.toList)

end ThreeAddress
