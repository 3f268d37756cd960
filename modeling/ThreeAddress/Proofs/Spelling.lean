import ThreeAddress.Statement
import ThreeAddress.Token.Lexeme

/-!
# The tokens of a printed statement

`Statement.isPrintable` says which statements are told by their text: their names are identifiers, and
none of them is a word that means something else where it stands. `Statement.tokens` is the row of tokens
that such a text is made of, and `Statement.lex_text` the main statement: the lexer finds these tokens in
the text, and nothing to complain about.
-/

namespace ThreeAddress

/-- The text can be a name. -/
def isIdentifier (text : String) : Bool :=
  match text.toList with
  | [] => false
  | c :: rest => Lexeme.isNameStart c && rest.all Lexeme.isNameChar

-- ---------------------------------------------------------------------------
-- Printable statements
-- ---------------------------------------------------------------------------

def Ty.isPrintable : Ty → Bool
  | .int32 | .boolean | .string | .void => true
  | .array item => item.isPrintable
  | .object name => isIdentifier name && !(["i32", "bool", "V", "String", "array"].contains name)
  | .classRef _ | .receiver => false

def Element.isPrintable : Element → Bool
  -- A number with the type of truth values would be read as one of these.
  | .literal (.int _) ty => ty.isPrintable && ty != .boolean
  | .literal (.bool _) ty => ty.isPrintable
  | .operand name (.classRef owner) => name == owner && isIdentifier name && name != "this"
  | .operand name .receiver => name == "this"
  | .operand name ty => ty.isPrintable && isIdentifier name && !(["true", "false", "this"].contains name)
  | .slot name index ty => isIdentifier name && name != "this" && index.isPrintable && ty.isPrintable

def Call.isPrintable (call : Call) : Bool :=
  let hasMethod := match call.invocation, call.method? with
    | .virtual, some method | .static, some method | .special, some method =>
      method.toList.all Lexeme.isStrChar
    | .new, none | .arrayLength, none => true
    | _, _ => false
  hasMethod && call.target.isPrintable && call.args.all Element.isPrintable && call.ret.isPrintable

def Unary.isPrintable (unary : Unary) : Bool := unary.operand.isPrintable

def Binary.isPrintable (binary : Binary) : Bool := binary.left.isPrintable && binary.right.isPrintable

def Condition.isPrintable : Condition → Bool
  | .single e => e.isPrintable
  | .unary u => u.isPrintable
  | .binary b => b.isPrintable

/-- What may stand on the right of an assignment. -/
def Statement.isPrintableValue : Statement → Bool
  | .element e => e.isPrintable
  | .call c => c.isPrintable
  | .getField object field ty => object.isPrintable && field.isPrintable && ty.isPrintable
  | .putField object field value => object.isPrintable && field.isPrintable && value.isPrintable
  | .unary u => u.op == .not && u.isPrintable
  | .binary b => b.op != .not && b.isPrintable
  | _ => false

/-- What may stand on the left. A variable `ret` would make a return of the assignment. -/
def Element.isPrintableDest : Element → Bool
  | .literal .. => false
  | .operand name ty => !ty.isClassRef && name != "ret" && (Element.operand name ty).isPrintable
  | .slot name index ty => (Element.slot name index ty).isPrintable

def Statement.isPrintable : Statement → Bool
  | .assign dest ty rhs => dest.isPrintableDest && ty.isPrintable && rhs.isPrintableValue
  | .call c => c.isPrintable
  | .goto label => isIdentifier label
  | .branch condition label => condition.isPrintable && isIdentifier label
  | .ret value? ty => value?.all Element.isPrintable && ty.isPrintable
  | .putField object field value => object.isPrintable && field.isPrintable && value.isPrintable
  | .getField object field ty => object.isPrintable && field.isPrintable && ty.isPrintable
  | .unary _ | .binary _ | .element _ => false

-- ---------------------------------------------------------------------------
-- Tokens
-- ---------------------------------------------------------------------------

def Ty.tokens : Ty → List Token
  | .array item => .name "array" :: .mark .dot :: item.tokens
  | ty => [.name ty.text]

/-- The tokens of a type behind a dot. -/
def Ty.typedTokens (ty : Ty) : List Token := .mark .dot :: ty.tokens

def Literal.tokens : Literal → List Token
  | .int value =>
    if value.toInt < 0 then [.mark .minus, .number value.toInt.natAbs] else [.number value.toInt.natAbs]
  | .bool value => [.name (Literal.bool value).text]

def Element.tokens : Element → List Token
  | .literal value ty => value.tokens ++ ty.typedTokens
  | .operand name (.classRef _) | .operand name .receiver => [.name name]
  | .operand name ty => .name name :: ty.typedTokens
  | .slot name index ty =>
    .name name :: .mark .leftBracket :: (index.tokens ++ .mark .rightBracket :: ty.typedTokens)

def Operator.mark : Operator → Mark
  | .add => .plus
  | .sub => .minus
  | .mul => .star
  | .div => .slash
  | .and => .andAnd
  | .or => .orOr
  | .not => .bang
  | .lt => .less
  | .gt => .greater
  | .le => .lessEqual
  | .ge => .greaterEqual
  | .eq => .equalEqual
  | .ne => .bangEqual

def Operator.tokens (op : Operator) : List Token := .mark op.mark :: op.resultTy.typedTokens

/-- Arguments, each behind a comma. -/
def argsTokens : List Element → List Token
  | [] => []
  | arg :: rest => .mark .comma :: (arg.tokens ++ argsTokens rest)

def methodTokens : Option String → List Token
  | some method => [.mark .comma, .str method]
  | none => []

def Call.tokens (call : Call) : List Token :=
  .name call.invocation.text :: .mark .leftParen :: (call.target.tokens ++
    (methodTokens call.method? ++ (argsTokens call.args ++ .mark .rightParen :: call.ret.typedTokens)))

def Unary.tokens (unary : Unary) : List Token := unary.op.tokens ++ unary.operand.tokens

def Binary.tokens (binary : Binary) : List Token :=
  binary.left.tokens ++ (binary.op.tokens ++ binary.right.tokens)

def Condition.tokens : Condition → List Token
  | .single e => e.tokens
  | .unary u => u.tokens
  | .binary b => b.tokens

def Statement.tokens : Statement → List Token
  | .assign dest ty rhs => dest.tokens ++ .mark .colonEqual :: (ty.typedTokens ++ rhs.tokens)
  | .call c => c.tokens
  | .goto label => [.name "goto", .name label]
  | .branch condition label =>
    .name "if" :: .mark .leftParen ::
      (condition.tokens ++ [.mark .rightParen, .name "goto", .name label])
  | .ret value? ty => .name "ret" :: (ty.typedTokens ++ (value?.map Element.tokens).getD [])
  | .putField object field value =>
    .name "putfield" :: .mark .leftParen :: (object.tokens ++ .mark .comma :: (field.tokens ++
      .mark .comma :: (value.tokens ++ .mark .rightParen :: Ty.void.typedTokens)))
  | .getField object field ty =>
    .name "getfield" :: .mark .leftParen :: (object.tokens ++ .mark .comma :: (field.tokens ++
      .mark .rightParen :: ty.typedTokens))
  | .unary u => u.tokens
  | .binary b => b.tokens
  | .element e => e.tokens

-- ---------------------------------------------------------------------------
-- Characters
-- ---------------------------------------------------------------------------

open Lexeme

/-- A token that nothing is wrong with. -/
def fine (token : Token) : Token × Option Diagnostic.Cause := (token, none)

/-- The tokens that characters are cut into. -/
def spelled (chars : List Char) : List (Token × Option Diagnostic.Cause) :=
  (lexemes chars).filterMap Lexeme.token?

theorem spelled_nil : spelled [] = [] := by
  rw [spelled, lexemes]
  rfl

theorem spelled_cons {c : Char} {rest rest' : List Char} {lexeme : Lexeme}
    (h : first c rest = (lexeme, rest')) :
    spelled (c :: rest) = lexeme.token?.toList ++ spelled rest' := by
  rw [spelled, lexemes, h, List.filterMap_cons]
  cases lexeme.token? <;> rfl

/-- The marks that are whole, whatever comes behind them. -/
def loneMarks : List (Char × Mark) :=
  [('.', .dot), (',', .comma), (';', .semicolon), ('(', .leftParen), (')', .rightParen),
    ('[', .leftBracket), (']', .rightBracket), ('-', .minus)]

theorem spelled_lone {c : Char} {m : Mark} (h : (c, m) ∈ loneMarks) (rest : List Char) :
    spelled (c :: rest) = fine (.mark m) :: spelled rest := by
  have hfirst : first c rest = (⟨.mark m, [c]⟩, rest) := by
    simp only [loneMarks, List.mem_cons, Prod.mk.injEq, List.not_mem_nil, or_false] at h
    rcases h with ⟨rfl, rfl⟩ | ⟨rfl, rfl⟩ | ⟨rfl, rfl⟩ | ⟨rfl, rfl⟩ | ⟨rfl, rfl⟩ | ⟨rfl, rfl⟩ |
      ⟨rfl, rfl⟩ | ⟨rfl, rfl⟩ <;> cases rest <;> rfl
  exact spelled_cons hfirst

theorem spelled_dot (rest : List Char) : spelled ('.' :: rest) = fine (.mark .dot) :: spelled rest :=
  spelled_lone (by decide) rest

/-- The characters do not go on with a name or a number. -/
def Stops (chars : List Char) : Prop := ∀ c ∈ chars.head?, isNameChar c = false

theorem stops_cons {c : Char} {rest : List Char} (h : isNameChar c = false) : Stops (c :: rest) := by
  rintro _ ⟨⟩
  exact h

theorem takeWhile_of_stops {test : Char → Bool} (hname : ∀ c, test c = true → isNameChar c = true)
    {rest : List Char} (h : Stops rest) : rest.takeWhile test = [] ∧ rest.dropWhile test = rest := by
  cases rest with
  | nil => exact ⟨rfl, rfl⟩
  | cons c rest =>
    have hc : test c = false := by
      have hnot := h c rfl
      cases htest : test c with
      | false => rfl
      | true => exact absurd (hname c htest) (by simp [hnot])
    simp [hc]

theorem not_isBlank_of_isNameChar {c : Char} (h : isNameChar c = true) : isBlank c = false := by
  cases hblank : isBlank c with
  | false => rfl
  | true =>
    simp only [isBlank, Bool.or_eq_true, beq_iff_eq] at hblank
    rcases hblank with ((((rfl | rfl) | rfl) | rfl) | rfl) | rfl <;> cases h

theorem isNameChar_of_isNameStart {c : Char} (h : isNameStart c = true) : isNameChar c = true := by
  simp only [isNameStart, isNameChar, Char.isAlphanum, Bool.or_eq_true] at h ⊢
  exact h.imp_left .inl

theorem isNameChar_of_isDigit {c : Char} (h : c.isDigit = true) : isNameChar c = true := by
  simp only [isNameChar, Char.isAlphanum, h, Bool.or_true, Bool.true_or]

theorem not_isNameStart_of_isDigit {c : Char} (h : c.isDigit = true) : isNameStart c = false := by
  simp only [Char.isDigit, ge_iff_le, Bool.and_eq_true, decide_eq_true_eq, UInt32.le_iff_toNat_le] at h
  have hne : c ≠ '_' := by
    rintro rfl
    exact absurd h (by decide)
  have halpha : c.isAlpha = false := by
    show (decide (c.val ≥ 'A'.val ∧ c.val ≤ 'Z'.val)
      || decide (c.val ≥ 'a'.val) && decide (c.val ≤ 'z'.val)) = false
    simp only [ge_iff_le, Bool.or_eq_false_iff, Bool.and_eq_false_iff, decide_eq_false_iff_not,
      UInt32.le_iff_toNat_le]
    simp at h ⊢
    omega
  simp [isNameStart, halpha, hne]

theorem spelled_word {name : String} (h : isIdentifier name = true) {rest : List Char}
    (hstop : Stops rest) : spelled (name.toList ++ rest) = fine (.name name) :: spelled rest := by
  unfold isIdentifier at h
  cases hchars : name.toList with
  | nil =>
    rw [hchars] at h
    cases h
  | cons c more =>
    rw [hchars] at h
    simp only [Bool.and_eq_true, List.all_eq_true] at h
    obtain ⟨hstart, hmore⟩ := h
    obtain ⟨htake, hdrop⟩ := takeWhile_of_stops (fun _ h => h) hstop
    have hfirst : first c (more ++ rest) = (⟨.name, c :: more⟩, rest) := by
      simp only [first, not_isBlank_of_isNameChar (isNameChar_of_isNameStart hstart), hstart,
        List.takeWhile_append_of_pos hmore, List.dropWhile_append_of_pos hmore, htake, hdrop,
        List.append_nil, Bool.false_eq_true, if_false, if_true]
    rw [List.cons_append, spelled_cons hfirst, ← @String.ofList_toList name, hchars]
    rfl

theorem spelled_number {number : Nat} (h : number < wordLimit) {rest : List Char}
    (hstop : Stops rest) :
    spelled (Nat.toDigits 10 number ++ rest) = fine (.number number) :: spelled rest := by
  have hdigits : ∀ c ∈ Nat.toDigits 10 number, c.isDigit = true :=
    fun _ hc => Nat.isDigit_of_mem_toDigits (by decide) (by decide) hc
  have hvalue : decimal (Nat.toDigits 10 number) = number :=
    Nat.ofDigitChars_toDigits (by decide) (by decide)
  cases hchars : Nat.toDigits 10 number with
  | nil => exact absurd hchars Nat.toDigits_ne_nil
  | cons c more =>
    rw [hchars] at hdigits hvalue
    obtain ⟨hc, hmore⟩ := List.forall_mem_cons.mp hdigits
    obtain ⟨htake, hdrop⟩ := takeWhile_of_stops (fun _ => isNameChar_of_isDigit) hstop
    have hfirst : first c (more ++ rest) = (⟨.number, c :: more⟩, rest) := by
      simp only [first, not_isBlank_of_isNameChar (isNameChar_of_isDigit hc),
        not_isNameStart_of_isDigit hc, hc, List.takeWhile_append_of_pos hmore,
        List.dropWhile_append_of_pos hmore, htake, hdrop, List.append_nil, Bool.false_eq_true, if_false,
        if_true]
    have htoken : (⟨.number, c :: more⟩ : Lexeme).token? = some (fine (.number number)) := by
      simp only [token?, bounded, hvalue, if_pos h]
      rfl
    rw [List.cons_append, spelled_cons hfirst, htoken]
    rfl

theorem Lexeme.first_str {contents : List Char} (h : ∀ c ∈ contents, isStrChar c = true)
    (rest : List Char) :
    first '"' (contents ++ '"' :: rest) = (⟨.str, '"' :: (contents ++ ['"'])⟩, rest) := by
  have hdrop : (contents ++ '"' :: rest).dropWhile isStrChar = '"' :: rest := by
    rw [List.dropWhile_append_of_pos h]
    rfl
  have htake : (contents ++ '"' :: rest).takeWhile isStrChar = contents := by
    rw [List.takeWhile_append_of_pos h]
    exact List.append_nil _
  simp only [first, hdrop, htake]
  rfl

theorem spelled_string {contents : String} (h : contents.toList.all isStrChar = true)
    (rest : List Char) :
    spelled ('"' :: (contents.toList ++ '"' :: rest)) = fine (.str contents) :: spelled rest := by
  rw [spelled_cons (first_str (List.all_eq_true.mp h) rest)]
  simp [token?, fine]

/-- A blank makes no token, also if others come behind it. -/
theorem spelled_blank (rest : List Char) : spelled (' ' :: rest) = spelled rest := by
  have hskip : spelled (' ' :: rest) = spelled (rest.dropWhile isBlank) := spelled_cons rfl
  rw [hskip]
  cases rest with
  | nil => rfl
  | cons c rest =>
    cases hblank : isBlank c with
    | false => rw [List.dropWhile_cons_of_neg (by simp [hblank])]
    | true =>
      have hfirst : first c rest = (⟨.blank, c :: rest.takeWhile isBlank⟩, rest.dropWhile isBlank) := by
        simp only [first, hblank, if_true]
      rw [List.dropWhile_cons_of_pos hblank, spelled_cons hfirst]
      rfl

-- ---------------------------------------------------------------------------
-- Types and elements
-- ---------------------------------------------------------------------------

namespace Ty

theorem isIdentifier_text {ty : Ty} (h : ty.isPrintable = true) (hitem : ∀ item, ty ≠ .array item) :
    isIdentifier ty.text = true := by
  cases ty with
  | array item => exact absurd rfl (hitem item)
  | object name =>
    simp only [isPrintable, Bool.and_eq_true] at h
    exact h.1
  | classRef name => cases h
  | receiver => cases h
  | _ => decide

theorem spelled_text {ty : Ty} (h : ty.isPrintable = true) {rest : List Char} (hstop : Stops rest) :
    spelled (ty.text.toList ++ rest) = ty.tokens.map fine ++ spelled rest := by
  induction ty with
  | array item ih =>
    have harray : (array item).text.toList ++ rest
        = "array".toList ++ '.' :: (item.text.toList ++ rest) := by
      simp [text]
    rw [harray, spelled_word (by decide) (stops_cons rfl), spelled_dot, ih h]
    rfl
  | _ => exact spelled_word (isIdentifier_text h (by simp)) hstop

theorem spelled_typed {ty : Ty} (h : ty.isPrintable = true) {rest : List Char} (hstop : Stops rest) :
    spelled ('.' :: (ty.text.toList ++ rest)) = ty.typedTokens.map fine ++ spelled rest := by
  rw [spelled_dot, spelled_text h hstop]
  rfl

end Ty

theorem toList_toString_int (value : Int) : (toString value).toList
    = if value < 0 then '-' :: Nat.toDigits 10 value.natAbs else Nat.toDigits 10 value.natAbs := by
  cases value with
  | ofNat number =>
    rw [if_neg (by simp)]
    exact Nat.toList_repr
  | negSucc number =>
    rw [if_pos (Int.negSucc_lt_zero number)]
    change ("-" ++ (number + 1).repr).toList = _
    simp [Nat.toList_repr]

theorem Literal.spelled_text (value : Literal) {rest : List Char} (hstop : Stops rest) :
    spelled (value.text.toList ++ rest) = value.tokens.map fine ++ spelled rest := by
  cases value with
  | bool value => cases value <;> exact spelled_word (by decide) hstop
  | int value =>
    have hbound : value.toInt.natAbs < wordLimit := by
      have hlow := value.le_toInt
      have hhigh := value.toInt_lt
      unfold wordLimit
      omega
    simp only [text, tokens, toList_toString_int]
    split
    · rw [List.cons_append, @spelled_lone '-' .minus (by decide), spelled_number hbound hstop]
      rfl
    · rw [spelled_number hbound hstop]
      rfl

namespace Element

theorem spelled_variable {name : String} {ty : Ty} (hname : isIdentifier name = true)
    (hty : ty.isPrintable = true) {rest : List Char} (hstop : Stops rest) :
    spelled ((name ++ "." ++ ty.text).toList ++ rest)
      = (.name name :: ty.typedTokens).map fine ++ spelled rest := by
  have htext : (name ++ "." ++ ty.text).toList ++ rest
      = name.toList ++ '.' :: (ty.text.toList ++ rest) := by
    simp
  rw [htext, spelled_word hname (stops_cons rfl), Ty.spelled_typed hty hstop]
  rfl

theorem spelled_text {element : Element} (h : element.isPrintable = true) {rest : List Char}
    (hstop : Stops rest) :
    spelled (element.text.toList ++ rest) = element.tokens.map fine ++ spelled rest := by
  induction element generalizing rest with
  | literal value ty =>
    have hty : ty.isPrintable = true := by
      cases value with
      | int value =>
        simp only [isPrintable, Bool.and_eq_true] at h
        exact h.1
      | bool value => exact h
    have htext : (literal value ty).text.toList ++ rest
        = value.text.toList ++ '.' :: (ty.text.toList ++ rest) := by
      simp [text]
    rw [htext, value.spelled_text (stops_cons rfl), Ty.spelled_typed hty hstop, tokens,
      List.map_append, List.append_assoc]
  | operand name ty =>
    cases ty with
    | classRef owner =>
      simp only [isPrintable, Bool.and_eq_true] at h
      exact spelled_word h.1.2 hstop
    | receiver =>
      obtain rfl : name = "this" := by simpa [isPrintable] using h
      exact spelled_word (by decide) hstop
    | _ =>
      simp only [isPrintable, Bool.and_eq_true] at h
      exact spelled_variable h.1.2 h.1.1 hstop
  | slot name index ty ih =>
    simp only [isPrintable, Bool.and_eq_true] at h
    obtain ⟨⟨⟨hname, -⟩, hindex⟩, hty⟩ := h
    have htext : (slot name index ty).text.toList ++ rest
        = name.toList ++ '[' :: (index.text.toList ++ ']' :: '.' :: (ty.text.toList ++ rest)) := by
      simp [text]
    rw [htext, spelled_word hname (stops_cons rfl), @spelled_lone '[' .leftBracket (by decide),
      ih hindex (stops_cons rfl), @spelled_lone ']' .rightBracket (by decide), Ty.spelled_typed hty hstop]
    simp [tokens]

end Element

-- ---------------------------------------------------------------------------
-- Statements
-- ---------------------------------------------------------------------------

/-- An operator stands before the dot of its type, with which it makes no other mark. -/
theorem Operator.spelled_symbol (op : Operator) (rest : List Char) :
    spelled (op.symbol.toList ++ '.' :: rest) = fine (.mark op.mark) :: spelled ('.' :: rest) := by
  cases op <;> exact spelled_cons rfl

theorem Operator.spelled_typed (op : Operator) {rest : List Char} (hstop : Stops rest) :
    spelled (op.symbol.toList ++ '.' :: (op.resultTy.text.toList ++ rest))
      = op.tokens.map fine ++ spelled rest := by
  have hty : op.resultTy.isPrintable = true := by cases op <;> rfl
  rw [op.spelled_symbol, Ty.spelled_typed hty hstop]
  rfl

theorem Unary.spelled_text {unary : Unary} (h : unary.isPrintable = true) {rest : List Char}
    (hstop : Stops rest) :
    spelled (unary.text.toList ++ rest) = unary.tokens.map fine ++ spelled rest := by
  have htext : unary.text.toList ++ rest = unary.op.symbol.toList ++
      '.' :: (unary.op.resultTy.text.toList ++ ' ' :: (unary.operand.text.toList ++ rest)) := by
    simp [text]
  rw [htext, Operator.spelled_typed _ (stops_cons rfl), spelled_blank, Element.spelled_text h hstop]
  simp [tokens]

theorem Binary.spelled_text {binary : Binary} (h : binary.isPrintable = true) {rest : List Char}
    (hstop : Stops rest) :
    spelled (binary.text.toList ++ rest) = binary.tokens.map fine ++ spelled rest := by
  simp only [isPrintable, Bool.and_eq_true] at h
  have htext : binary.text.toList ++ rest = binary.left.text.toList ++ ' ' ::
      (binary.op.symbol.toList ++ '.' :: (binary.op.resultTy.text.toList ++
        ' ' :: (binary.right.text.toList ++ rest))) := by
    simp [text]
  rw [htext, Element.spelled_text h.1 (stops_cons rfl), spelled_blank,
    Operator.spelled_typed _ (stops_cons rfl), spelled_blank, Element.spelled_text h.2 hstop]
  simp [tokens]

theorem Condition.spelled_text {condition : Condition} (h : condition.isPrintable = true)
    {rest : List Char} (hstop : Stops rest) :
    spelled (condition.text.toList ++ rest) = condition.tokens.map fine ++ spelled rest := by
  cases condition with
  | single e => exact Element.spelled_text h hstop
  | unary u => exact Unary.spelled_text h hstop
  | binary b => exact Binary.spelled_text h hstop

def argsText (args : List Element) : String := String.join (args.map fun arg => ", " ++ arg.text)

theorem toList_argsText_cons (arg : Element) (args : List Element) : (argsText (arg :: args)).toList
    = ',' :: ' ' :: (arg.text.toList ++ (argsText args).toList) := by
  simp [argsText]

theorem spelled_args {args : List Element} (h : args.all Element.isPrintable = true) {rest : List Char}
    (hstop : Stops rest) :
    spelled ((argsText args).toList ++ rest) = (argsTokens args).map fine ++ spelled rest := by
  induction args with
  | nil => rfl
  | cons arg args ih =>
    simp only [List.all_cons, Bool.and_eq_true] at h
    have hnext : Stops ((argsText args).toList ++ rest) := by
      cases args with
      | nil => exact hstop
      | cons next args =>
        rw [toList_argsText_cons]
        exact stops_cons rfl
    rw [toList_argsText_cons, List.cons_append, List.cons_append, List.append_assoc,
      @spelled_lone ',' .comma (by decide), spelled_blank, Element.spelled_text h.1 hnext, ih h.2]
    simp [argsTokens]

theorem Invocation.isIdentifier_text (invocation : Invocation) :
    isIdentifier invocation.text = true := by
  cases invocation <;> decide

/-- The text of the method in a call, with the comma before it. -/
def methodText : Option String → String
  | some method => ", \"" ++ method ++ "\""
  | none => ""

theorem spelled_method {method? : Option String}
    (h : ∀ method, method? = some method → method.toList.all isStrChar = true) (rest : List Char) :
    spelled ((methodText method?).toList ++ rest) = (methodTokens method?).map fine ++ spelled rest := by
  cases method? with
  | none => rfl
  | some method =>
    have htext : (methodText (some method)).toList ++ rest
        = ',' :: ' ' :: '"' :: (method.toList ++ '"' :: rest) := by
      simp [methodText]
    rw [htext, @spelled_lone ',' .comma (by decide), spelled_blank, spelled_string (h method rfl)]
    rfl

namespace Call

theorem text_eq (call : Call) : call.text = call.invocation.text ++ "(" ++ call.target.text
    ++ methodText call.method? ++ argsText call.args ++ ")." ++ call.ret.text := by
  unfold text methodText argsText
  cases call.method? <;> rfl

theorem isPrintable_parts {call : Call} (h : call.isPrintable = true) :
    (∀ method, call.method? = some method → method.toList.all isStrChar = true) ∧
      call.target.isPrintable = true ∧ call.args.all Element.isPrintable = true ∧
      call.ret.isPrintable = true := by
  obtain ⟨kind, target, method?, args, ret⟩ := call
  simp only [isPrintable, Bool.and_eq_true] at h
  obtain ⟨⟨⟨hmethod, htarget⟩, hargs⟩, hret⟩ := h
  refine ⟨?_, htarget, hargs, hret⟩
  rintro method rfl
  cases kind with
  | virtual | static | special => exact hmethod
  | new | arrayLength => cases hmethod

theorem spelled_text {call : Call} (h : call.isPrintable = true) {rest : List Char}
    (hstop : Stops rest) :
    spelled (call.text.toList ++ rest) = call.tokens.map fine ++ spelled rest := by
  obtain ⟨hmethod, htarget, hargs, hret⟩ := isPrintable_parts h
  have htext : call.text.toList ++ rest = call.invocation.text.toList ++ '(' :: (call.target.text.toList
      ++ ((methodText call.method?).toList ++ ((argsText call.args).toList
        ++ ')' :: '.' :: (call.ret.text.toList ++ rest)))) := by
    simp [text_eq]
  -- The name of the method or the first argument comes behind a comma.
  have hnext : Stops ((argsText call.args).toList ++ ')' :: '.' :: (call.ret.text.toList ++ rest)) := by
    cases call.args with
    | nil => exact stops_cons rfl
    | cons arg args =>
      rw [toList_argsText_cons]
      exact stops_cons rfl
  have htargetNext : Stops ((methodText call.method?).toList ++ ((argsText call.args).toList
      ++ ')' :: '.' :: (call.ret.text.toList ++ rest))) := by
    cases call.method? with
    | none => exact hnext
    | some method =>
      simp only [methodText, String.toList_append]
      exact stops_cons rfl
  rw [htext, spelled_word (Invocation.isIdentifier_text _) (stops_cons rfl),
    @spelled_lone '(' .leftParen (by decide), Element.spelled_text htarget htargetNext,
    spelled_method hmethod, spelled_args hargs (stops_cons rfl), @spelled_lone ')' .rightParen (by decide),
    Ty.spelled_typed hret hstop]
  simp [tokens]

end Call

theorem spelled_getField {object field : Element} {ty : Ty} (hobject : object.isPrintable = true)
    (hfield : field.isPrintable = true) (hty : ty.isPrintable = true) {rest : List Char}
    (hstop : Stops rest) :
    spelled ((Statement.getField object field ty).text.toList ++ rest)
      = (Statement.getField object field ty).tokens.map fine ++ spelled rest := by
  have htext : (Statement.getField object field ty).text.toList ++ rest = "getfield".toList ++
      '(' :: (object.text.toList ++ ',' :: ' ' :: (field.text.toList ++ ')' :: '.' ::
        (ty.text.toList ++ rest))) := by
    simp [Statement.text]
  rw [htext, spelled_word (by decide) (stops_cons rfl), @spelled_lone '(' .leftParen (by decide),
    Element.spelled_text hobject (stops_cons rfl), @spelled_lone ',' .comma (by decide), spelled_blank,
    Element.spelled_text hfield (stops_cons rfl), @spelled_lone ')' .rightParen (by decide),
    Ty.spelled_typed hty hstop]
  simp [Statement.tokens]

theorem spelled_putField {object field value : Element} (hobject : object.isPrintable = true)
    (hfield : field.isPrintable = true) (hvalue : value.isPrintable = true) {rest : List Char}
    (hstop : Stops rest) :
    spelled ((Statement.putField object field value).text.toList ++ rest)
      = (Statement.putField object field value).tokens.map fine ++ spelled rest := by
  have htext : (Statement.putField object field value).text.toList ++ rest = "putfield".toList ++
      '(' :: (object.text.toList ++ ',' :: ' ' :: (field.text.toList ++ ',' :: ' ' ::
        (value.text.toList ++ ')' :: '.' :: (Ty.void.text.toList ++ rest)))) := by
    simp [Statement.text, Ty.text]
  rw [htext, spelled_word (by decide) (stops_cons rfl), @spelled_lone '(' .leftParen (by decide),
    Element.spelled_text hobject (stops_cons rfl), @spelled_lone ',' .comma (by decide), spelled_blank,
    Element.spelled_text hfield (stops_cons rfl), @spelled_lone ',' .comma (by decide), spelled_blank,
    Element.spelled_text hvalue (stops_cons rfl), @spelled_lone ')' .rightParen (by decide),
    Ty.spelled_typed rfl hstop]
  simp [Statement.tokens]

namespace Statement

theorem spelled_value {rhs : Statement} (h : rhs.isPrintableValue = true) {rest : List Char}
    (hstop : Stops rest) :
    spelled (rhs.text.toList ++ rest) = rhs.tokens.map fine ++ spelled rest := by
  cases rhs with
  | element e => exact Element.spelled_text h hstop
  | call c => exact Call.spelled_text h hstop
  | getField object field ty =>
    simp only [isPrintableValue, Bool.and_eq_true] at h
    exact spelled_getField h.1.1 h.1.2 h.2 hstop
  | putField object field value =>
    simp only [isPrintableValue, Bool.and_eq_true] at h
    exact spelled_putField h.1.1 h.1.2 h.2 hstop
  | unary u =>
    simp only [isPrintableValue, Bool.and_eq_true] at h
    exact Unary.spelled_text h.2 hstop
  | binary b =>
    simp only [isPrintableValue, Bool.and_eq_true] at h
    exact Binary.spelled_text h.2 hstop
  | _ => cases h

theorem isPrintable_of_dest {dest : Element} (h : dest.isPrintableDest = true) :
    dest.isPrintable = true := by
  cases dest with
  | literal value ty => cases h
  | operand name ty =>
    simp only [Element.isPrintableDest, Bool.and_eq_true] at h
    exact h.2
  | slot name index ty => exact h

theorem spelled_assign {dest : Element} {ty : Ty} {rhs : Statement}
    (hdest : dest.isPrintable = true) (hty : ty.isPrintable = true)
    (hrhs : rhs.isPrintableValue = true) {rest : List Char} (hstop : Stops rest) :
    spelled ((assign dest ty rhs).text.toList ++ rest)
      = (assign dest ty rhs).tokens.map fine ++ spelled rest := by
  have htext : (assign dest ty rhs).text.toList ++ rest = dest.text.toList ++ ' ' :: ':' :: '=' :: '.' ::
      (ty.text.toList ++ ' ' :: (rhs.text.toList ++ rest)) := by
    simp [text]
  have hbecomes (rest : List Char) :
      spelled (':' :: '=' :: rest) = fine (.mark .colonEqual) :: spelled rest := spelled_cons rfl
  rw [htext, Element.spelled_text hdest (stops_cons rfl), spelled_blank, hbecomes,
    Ty.spelled_typed hty (stops_cons rfl), spelled_blank, spelled_value hrhs hstop]
  simp [tokens]

theorem spelled_branch {condition : Condition} {label : String}
    (hcondition : condition.isPrintable = true) (hlabel : isIdentifier label = true)
    {rest : List Char} (hstop : Stops rest) :
    spelled ((branch condition label).text.toList ++ rest)
      = (branch condition label).tokens.map fine ++ spelled rest := by
  have htext : (branch condition label).text.toList ++ rest = "if".toList ++ ' ' :: '(' ::
      (condition.text.toList ++ ')' :: ' ' :: ("goto".toList ++ ' ' :: (label.toList ++ rest))) := by
    simp [text]
  rw [htext, spelled_word (by decide) (stops_cons rfl), spelled_blank,
    @spelled_lone '(' .leftParen (by decide), Condition.spelled_text hcondition (stops_cons rfl),
    @spelled_lone ')' .rightParen (by decide), spelled_blank, spelled_word (by decide) (stops_cons rfl),
    spelled_blank, spelled_word hlabel hstop]
  simp [tokens]

theorem spelled_ret {value? : Option Element} {ty : Ty} (hvalue : value?.all Element.isPrintable = true)
    (hty : ty.isPrintable = true) {rest : List Char} (hstop : Stops rest) :
    spelled ((ret value? ty).text.toList ++ rest) = (ret value? ty).tokens.map fine ++ spelled rest := by
  cases value? with
  | none =>
    have htext : (ret none ty).text.toList ++ rest
        = "ret".toList ++ '.' :: (ty.text.toList ++ rest) := by
      simp [text]
    rw [htext, spelled_word (by decide) (stops_cons rfl), Ty.spelled_typed hty hstop]
    simp [tokens]
  | some value =>
    have htext : (ret (some value) ty).text.toList ++ rest
        = "ret".toList ++ '.' :: (ty.text.toList ++ ' ' :: (value.text.toList ++ rest)) := by
      simp [text]
    rw [htext, spelled_word (by decide) (stops_cons rfl), Ty.spelled_typed hty (stops_cons rfl),
      spelled_blank, Element.spelled_text hvalue hstop]
    simp [tokens]

theorem spelled_text {statement : Statement} (h : statement.isPrintable = true) {rest : List Char}
    (hstop : Stops rest) :
    spelled (statement.text.toList ++ rest) = statement.tokens.map fine ++ spelled rest := by
  cases statement with
  | assign dest ty rhs =>
    simp only [isPrintable, Bool.and_eq_true] at h
    exact spelled_assign (isPrintable_of_dest h.1.1) h.1.2 h.2 hstop
  | call c => exact Call.spelled_text h hstop
  | goto label =>
    have htext : (goto label).text.toList ++ rest = "goto".toList ++ ' ' :: (label.toList ++ rest) := by
      simp [text]
    rw [htext, spelled_word (by decide) (stops_cons rfl), spelled_blank, spelled_word h hstop]
    rfl
  | branch condition label =>
    simp only [isPrintable, Bool.and_eq_true] at h
    exact spelled_branch h.1 h.2 hstop
  | ret value? ty =>
    simp only [isPrintable, Bool.and_eq_true] at h
    exact spelled_ret h.1 h.2 hstop
  | putField object field value =>
    simp only [isPrintable, Bool.and_eq_true] at h
    exact spelled_putField h.1.1 h.1.2 h.2 hstop
  | getField object field ty =>
    simp only [isPrintable, Bool.and_eq_true] at h
    exact spelled_getField h.1.1 h.1.2 h.2 hstop
  | _ => cases h

end Statement

-- ---------------------------------------------------------------------------
-- Places
-- ---------------------------------------------------------------------------

theorem tokensFrom_fine {file start : Nat} {found : List Lexeme} {tokens : List Token}
    (h : found.filterMap Lexeme.token? = tokens.map fine) :
    (tokensFrom file start found).1.map Prod.fst = tokens ∧ (tokensFrom file start found).2 = [] := by
  induction found generalizing start tokens with
  | nil =>
    obtain rfl : tokens = [] := by simpa using h.symm
    exact ⟨rfl, rfl⟩
  | cons lexeme rest ih =>
    rw [List.filterMap_cons] at h
    simp only [tokensFrom]
    cases htoken : lexeme.token? with
    | none =>
      rw [htoken] at h
      exact ih h
    | some found =>
      rw [htoken] at h
      obtain ⟨token, others, rfl, rfl, hrest⟩ := List.map_eq_cons_iff.mp h.symm
      obtain ⟨htokens, hreports⟩ := @ih (start + byteLength lexeme.chars) others hrest.symm
      simp only [fine, List.map_cons, htokens, hreports, Option.map_none, Option.toList_none,
        List.append_nil, and_self]

/-- The lexer finds the tokens of the statement and of the semicolon behind it. -/
theorem Statement.lex_text {statement : Statement} (h : statement.isPrintable = true) (file : Nat) :
    (lex file (statement.text ++ ";")).1.map Prod.fst = statement.tokens ++ [.mark .semicolon] ∧
      (lex file (statement.text ++ ";")).2 = [] := by
  refine tokensFrom_fine ?_
  have htext : (statement.text ++ ";").toList = statement.text.toList ++ [';'] := by simp
  change spelled (statement.text ++ ";").toList = _
  rw [htext, spelled_text h (stops_cons rfl), @spelled_lone ';' .semicolon (by decide), spelled_nil]
  simp

end ThreeAddress
