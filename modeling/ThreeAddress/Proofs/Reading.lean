import ThreeAddress.Proofs.Spelling
import ThreeAddress.Written.Line

/-!
# Reading the tokens of a statement

`Parse.Reads` says that a parse succeeds at a cursor, which value it yields and which tokens it leaves,
and that it reports nothing. One lemma for each function of the reader says that it takes the tokens of
what it reads, as `Statement.tokens` and its like give them, and leaves the others. Where the reader looks
ahead, the lemma asks for what must not come next. `line_reads` is the main statement.
-/

namespace ThreeAddress

namespace Condition

/-- The operator of the condition has a place in what the reader takes. -/
def isWritten : Condition → Bool
  | .single _ => true
  | .unary u => u.op == .not
  | .binary b => b.op != .not

/-- The condition as the right of an assignment. -/
def value : Condition → Statement
  | .single e => .element e
  | .unary u => .unary u
  | .binary b => .binary b

theorem tokens_value (condition : Condition) : condition.value.tokens = condition.tokens := by
  cases condition <;> rfl

theorem isPrintableValue_value {condition : Condition} (h : condition.isPrintable = true)
    (hwritten : condition.isWritten = true) : condition.value.isPrintableValue = true := by
  cases condition with
  | single e => exact h
  | unary u => exact Bool.and_eq_true_iff.mpr ⟨hwritten, h⟩
  | binary b => exact Bool.and_eq_true_iff.mpr ⟨hwritten, h⟩

end Condition

namespace Written

/-- The tokens that are left, without their places. -/
def Cursor.tokens (cursor : Cursor) : List Token := cursor.rest.map Prod.fst

namespace Cursor

variable {cursor : Cursor} {token next : Token} {rest : List Token}

theorem exists_rest (h : cursor.tokens = token :: rest) :
    ∃ span others, cursor.rest = (token, span) :: others ∧ others.map Prod.fst = rest := by
  obtain ⟨⟨found, span⟩, others, hrest, rfl, hothers⟩ := List.map_eq_cons_iff.mp h
  exact ⟨span, others, hrest, hothers⟩

theorem tokens_advance (h : cursor.tokens = token :: rest) : cursor.advance.tokens = rest := by
  obtain ⟨span, others, hrest, hothers⟩ := exists_rest h
  simp only [tokens, advance, hrest, List.tail_cons, hothers]

theorem peek_eq (h : cursor.tokens = token :: rest) (test : Token → Bool) :
    cursor.peek test = test token := by
  obtain ⟨span, others, hrest, -⟩ := exists_rest h
  simp only [peek, hrest]

theorem peekNext_eq (h : cursor.tokens = token :: next :: rest) (test : Token → Bool) :
    cursor.peekNext test = test next := by
  obtain ⟨span, others, hrest, hothers⟩ := exists_rest h
  obtain ⟨⟨found, nextSpan⟩, more, rfl, rfl, -⟩ := List.map_eq_cons_iff.mp hothers
  simp only [peekNext, hrest]

theorem peekNext_eq_false (h : cursor.tokens = token :: rest) {test : Token → Bool}
    (hrest : ∀ next ∈ rest.head?, test next = false) : cursor.peekNext test = false := by
  cases rest with
  | nil =>
    obtain ⟨span, others, hcursor, hothers⟩ := exists_rest h
    obtain rfl := List.map_eq_nil_iff.mp hothers
    simp only [peekNext, hcursor]
  | cons next rest =>
    rw [peekNext_eq h]
    exact hrest next rfl

theorem peek_eq_false {test : Token → Bool} (h : ∀ token ∈ cursor.tokens.head?, test token = false) :
    cursor.peek test = false := by
  cases htokens : cursor.tokens with
  | nil =>
    have hrest : cursor.rest = [] := List.map_eq_nil_iff.mp htokens
    simp only [peek, hrest]
  | cons token rest =>
    rw [peek_eq htokens]
    exact h token (by simp [htokens])

end Cursor

namespace Parse

variable {α β : Type} {cursor : Cursor} {rest middle : List Token}

/-- The parse yields the value, leaves the tokens, and reports nothing. -/
def Reads (p : Parse α) (cursor : Cursor) (a : α) (rest : List Token) : Prop :=
  ∃ after, p cursor = (some a, after) ∧ after.tokens = rest ∧ after.reports = cursor.reports

theorem reads_pure {a : α} (h : cursor.tokens = rest) : Reads (pure a) cursor a rest :=
  ⟨cursor, rfl, h, rfl⟩

theorem Reads.bind {p : Parse α} {f : α → Parse β} {a : α} {b : β} (h : Reads p cursor a middle)
    (hf : ∀ after, after.tokens = middle → Reads (f a) after b rest) :
    Reads (p >>= f) cursor b rest := by
  obtain ⟨after, hp, htokens, hreports⟩ := h
  obtain ⟨last, hlast, hrest, hreports'⟩ := hf after htokens
  refine ⟨last, ?_, hrest, hreports'.trans hreports⟩
  rw [bind_apply, hp]
  exact hlast

theorem reads_look {f : Cursor → Parse β} {b : β} (h : Reads (f cursor) cursor b rest) :
    Reads (look >>= f) cursor b rest :=
  h

theorem reads_advance {token : Token} (h : cursor.tokens = token :: rest) :
    Reads advance cursor () rest :=
  ⟨cursor.advance, rfl, Cursor.tokens_advance h, rfl⟩

theorem reads_expect {token : Token} (h : cursor.tokens = token :: rest) {test : Token → Bool}
    (htest : test token = true) (expected : String) :
    Reads (expect test expected) cursor cursor.span rest := by
  refine ⟨cursor.advance, ?_, Cursor.tokens_advance h, rfl⟩
  rw [expect, if_pos ((Cursor.peek_eq h test).trans htest)]

theorem reads_mark {m : Mark} (h : cursor.tokens = .mark m :: rest) (expected : String) :
    Reads (mark m expected) cursor cursor.span rest :=
  reads_expect h (by simp [Token.isMark]) expected

theorem reads_accept {token : Token} (h : cursor.tokens = token :: rest) {test : Token → Bool}
    (htest : test token = true) : Reads (accept test) cursor true rest := by
  refine ⟨cursor.advance, ?_, Cursor.tokens_advance h, rfl⟩
  rw [accept, if_pos ((Cursor.peek_eq h test).trans htest)]

theorem reads_decline (h : cursor.tokens = rest) {test : Token → Bool}
    (htest : cursor.peek test = false) : Reads (accept test) cursor false rest := by
  refine ⟨cursor, ?_, h, rfl⟩
  rw [accept, if_neg (by simp [htest])]

theorem reads_name {name : String} (h : cursor.tokens = .name name :: rest) (expected : String) :
    Reads (Parse.name expected) cursor (name, cursor.span) rest := by
  refine ⟨cursor.advance, ?_, Cursor.tokens_advance h, rfl⟩
  obtain ⟨span, others, hrest, -⟩ := Cursor.exists_rest h
  simp only [Parse.name, Cursor.span, hrest]

theorem reads_number {value : Nat} (h : cursor.tokens = .number value :: rest) (expected : String) :
    Reads (number expected) cursor (value, cursor.span) rest := by
  refine ⟨cursor.advance, ?_, Cursor.tokens_advance h, rfl⟩
  obtain ⟨span, others, hrest, -⟩ := Cursor.exists_rest h
  simp only [number, Cursor.span, hrest]

theorem reads_str {contents : String} (h : cursor.tokens = .str contents :: rest) (expected : String) :
    Reads (str expected) cursor contents rest := by
  refine ⟨cursor.advance, ?_, Cursor.tokens_advance h, rfl⟩
  obtain ⟨span, others, hrest, -⟩ := Cursor.exists_rest h
  simp only [str, hrest]

/-- There is enough fuel for as many tokens as the value has. -/
theorem reads_within {p : Nat → Parse α} {a : α} {taken : List Token}
    (h : cursor.tokens = taken ++ rest)
    (hp : ∀ fuel, taken.length ≤ fuel → Reads (p fuel) cursor a rest) :
    Reads (withinRest p) cursor a rest := by
  refine hp cursor.rest.length ?_
  have hlength := congrArg List.length h
  rw [Cursor.tokens, List.length_map, List.length_append] at hlength
  omega

end Parse

open Parse

variable {cursor : Cursor} {rest : List Token}

-- ---------------------------------------------------------------------------
-- Types
-- ---------------------------------------------------------------------------

theorem ofWord_text {ty : Ty} (h : ty.isPrintable = true) (hitem : ∀ item, ty ≠ .array item) :
    ty.text ≠ "array" ∧ Ty.ofWord ty.text = ty := by
  cases ty with
  | array item => exact absurd rfl (hitem item)
  | object name =>
    simp only [Ty.isPrintable, List.contains_cons, List.contains_nil, Bool.or_false, Bool.not_or,
      Bool.and_eq_true, Bool.not_eq_true', beq_eq_false_iff_ne] at h
    obtain ⟨-, hint, hbool, hvoid, hstring, harray⟩ := h
    exact ⟨harray, by simp [Ty.text, Ty.ofWord, hint, hbool, hvoid, hstring]⟩
  | classRef name => cases h
  | receiver => cases h
  | _ => exact ⟨by decide, rfl⟩

theorem tyWithin_reads {ty : Ty} (h : ty.isPrintable = true) {fuel : Nat}
    (hfuel : ty.tokens.length ≤ fuel) (hcursor : cursor.tokens = ty.tokens ++ rest) :
    Reads (tyWithin fuel) cursor ty rest := by
  induction ty generalizing fuel cursor with
  | array item ih =>
    cases fuel with
    | zero => cases hfuel
    | succ fuel =>
      refine (reads_name hcursor _).bind fun after hafter => ?_
      refine (reads_mark hafter _).bind fun dotted hdotted => ?_
      have hfuel' : item.tokens.length ≤ fuel := by
        simp only [Ty.tokens, List.length_cons] at hfuel
        omega
      exact (ih h hfuel' hdotted).bind fun last hlast => reads_pure hlast
  | _ =>
    cases fuel with
    | zero => cases hfuel
    | succ fuel =>
      obtain ⟨hne, hword⟩ := ofWord_text h (by simp)
      refine (reads_name hcursor _).bind fun after hafter => ?_
      simp only [hne, if_false, hword]
      exact reads_pure hafter

theorem ty_reads {ty : Ty} (h : ty.isPrintable = true) (hcursor : cursor.tokens = ty.tokens ++ rest) :
    Reads Written.ty cursor ty rest :=
  reads_within hcursor fun _ hfuel => tyWithin_reads h hfuel hcursor

theorem typed_reads {ty : Ty} (h : ty.isPrintable = true)
    (hcursor : cursor.tokens = ty.typedTokens ++ rest) : Reads typed cursor ty rest :=
  (reads_mark hcursor _).bind fun _ hafter => ty_reads h hafter

-- ---------------------------------------------------------------------------
-- Elements
-- ---------------------------------------------------------------------------

/-- Nothing comes next that an element before it would go on with, or that would make a call of it. -/
def EndsElement (rest : List Token) : Prop :=
  ∀ next ∈ rest.head?, next.isMark .dot = false ∧ next.isMark .leftBracket = false
    ∧ next.isMark .leftParen = false

theorem endsElement_mark {m : Mark} (h : m ∉ [Mark.dot, .leftBracket, .leftParen]) :
    EndsElement (.mark m :: rest) := by
  rintro _ ⟨⟩
  simpa [Token.isMark] using h

theorem EndsElement.not_typed (hends : EndsElement rest) (hcursor : cursor.tokens = rest) :
    cursor.peek (Token.isMark .dot) = false :=
  Cursor.peek_eq_false fun next hnext => (hends next (hcursor ▸ hnext)).1

theorem literal_reads {negative : Bool} {value : Int32} {ty : Ty} (h : ty.isPrintable = true)
    (hty : ty ≠ .boolean) (hsign : value.toInt = if negative then -(value.toInt.natAbs : Int)
      else value.toInt.natAbs)
    (hcursor : cursor.tokens = .number value.toInt.natAbs :: (ty.typedTokens ++ rest)) (start : Span) :
    Reads (literal negative start) cursor (.literal (.int value) ty) rest := by
  refine (reads_number hcursor _).bind fun after hafter => ?_
  refine (typed_reads h hafter).bind fun last hlast => ?_
  have hfits : fitsInt32 value.toInt = true := by
    have hlow := value.le_toInt
    have hhigh := value.toInt_lt
    simp only [fitsInt32, Bool.and_eq_true, decide_eq_true_eq]
    omega
  simp only [← hsign, hfits, if_true, literalOf, if_neg hty, Int32.ofInt_toInt]
  exact reads_pure hlast

theorem intLiteral_reads {fuel : Nat} {value : Int32} {ty : Ty} (h : ty.isPrintable = true)
    (hty : ty ≠ .boolean) (hcursor : cursor.tokens = (Element.literal (.int value) ty).tokens ++ rest) :
    Reads (elementWithin (fuel + 1)) cursor (.literal (.int value) ty) rest := by
  refine reads_look ?_
  simp only [Element.tokens, Literal.tokens] at hcursor
  split at hcursor
  · next hneg =>
    have hminus : (cursor.peek (Token.isMark .minus) && cursor.peekNext Token.isNumber) = true := by
      rw [Cursor.peek_eq hcursor, Cursor.peekNext_eq hcursor]
      rfl
    rw [if_pos hminus]
    refine (reads_advance hcursor).bind fun after hafter => ?_
    exact literal_reads h hty (by simp only [if_true]; omega) hafter _
  · next hnonneg =>
    have hminus : cursor.peek (Token.isMark .minus) = false := Cursor.peek_eq hcursor _
    have hnumber : cursor.peek Token.isNumber = true := Cursor.peek_eq hcursor _
    simp only [hminus, hnumber, Bool.false_and, Bool.false_eq_true, if_false, if_true]
    exact literal_reads h hty (by simp only [Bool.false_eq_true, if_false]; omega) hcursor _

theorem boolLiteral_reads {fuel : Nat} {value : Bool} {ty : Ty} (h : ty.isPrintable = true)
    (hcursor : cursor.tokens = (Element.literal (.bool value) ty).tokens ++ rest) :
    Reads (elementWithin (fuel + 1)) cursor (.literal (.bool value) ty) rest := by
  have hminus : cursor.peek (Token.isMark .minus) = false := Cursor.peek_eq hcursor _
  have hnumber : cursor.peek Token.isNumber = false := Cursor.peek_eq hcursor _
  have hdot : cursor.peekNext (Token.isMark .dot) = true := Cursor.peekNext_eq hcursor _
  have htrue : cursor.peek (Token.isKeyword "true") = value := by
    rw [Cursor.peek_eq hcursor]
    cases value <;> rfl
  have hfalse : cursor.peek (Token.isKeyword "false") = !value := by
    rw [Cursor.peek_eq hcursor]
    cases value <;> rfl
  refine reads_look ?_
  simp only [hminus, hnumber, hdot, htrue, hfalse, Bool.or_not_self, Bool.and_self, Bool.false_and,
    Bool.false_eq_true, if_false, if_true]
  refine (reads_advance hcursor).bind fun after hafter => ?_
  exact (typed_reads h hafter).bind fun last hlast => reads_pure hlast

theorem paramIndex_reads {token : Token} (hcursor : cursor.tokens = token :: rest)
    (htoken : token.isParam = false) : Reads paramIndex cursor () (token :: rest) :=
  (reads_decline hcursor ((Cursor.peek_eq hcursor _).trans htoken)).bind fun _ hafter => reads_pure hafter

/-- A name that stands for no literal and not for the receiver is that of a variable or a class. -/
theorem named_reads {fuel : Nat} {name : String} {element : Element} {middle : List Token}
    (hcursor : cursor.tokens = .name name :: middle) (hthis : name ≠ "this")
    (hword : name = "true" ∨ name = "false" → ∀ next ∈ middle.head?, next.isMark .dot = false)
    (hform : ∀ after, after.tokens = middle →
      Reads (afterName (elementWithin fuel) name) after element rest) :
    Reads (elementWithin (fuel + 1)) cursor element rest := by
  have hbool : ((cursor.peek (Token.isKeyword "true") || cursor.peek (Token.isKeyword "false"))
      && cursor.peekNext (Token.isMark .dot)) = false := by
    simp only [Cursor.peek_eq hcursor, Token.isKeyword, Bool.and_eq_false_imp, Bool.or_eq_true,
      beq_iff_eq]
    exact fun h => Cursor.peekNext_eq_false hcursor (hword h)
  have hreceiver : cursor.peek (Token.isKeyword "this") = false := by
    simpa [Cursor.peek_eq hcursor, Token.isKeyword] using hthis
  have hminus : cursor.peek (Token.isMark .minus) = false := Cursor.peek_eq hcursor _
  have hnumber : cursor.peek Token.isNumber = false := Cursor.peek_eq hcursor _
  refine reads_look ?_
  simp only [hminus, hnumber, hbool, hreceiver, Bool.false_and, Bool.false_eq_true, if_false]
  refine (paramIndex_reads hcursor rfl).bind fun after hafter => ?_
  exact (reads_name hafter _).bind hform

theorem typedName_reads {fuel : Nat} {name : String} {ty : Ty} (h : ty.isPrintable = true)
    (hname : ["true", "false", "this"].contains name = false)
    (hcursor : cursor.tokens = .name name :: (ty.typedTokens ++ rest)) :
    Reads (elementWithin (fuel + 1)) cursor (.operand name ty) rest := by
  simp only [List.contains_cons, List.contains_nil, Bool.or_false, Bool.or_eq_false_iff,
    beq_eq_false_iff_ne] at hname
  obtain ⟨htrue, hfalse, hthis⟩ := hname
  have hword : ¬ (name = "true" ∨ name = "false") := by simp [htrue, hfalse]
  refine named_reads hcursor hthis (fun h => absurd h hword) fun after hafter => ?_
  refine (reads_decline hafter (Cursor.peek_eq hafter _)).bind fun dotted hdotted => reads_look ?_
  have hdot : dotted.peek (Token.isMark .dot) = true := Cursor.peek_eq hdotted _
  rw [if_pos hdot]
  exact (typed_reads h hdotted).bind fun last hlast => reads_pure hlast

theorem className_reads {fuel : Nat} {name : String} (hthis : name ≠ "this") (hends : EndsElement rest)
    (hcursor : cursor.tokens = .name name :: rest) :
    Reads (elementWithin (fuel + 1)) cursor (.ofClass name) rest := by
  refine named_reads hcursor hthis (fun _ next hnext => (hends next hnext).1) fun after hafter => ?_
  have hbracket : after.peek (Token.isMark .leftBracket) = false :=
    Cursor.peek_eq_false fun next hnext => (hends next (hafter ▸ hnext)).2.1
  refine (reads_decline hafter hbracket).bind fun last hlast => reads_look ?_
  rw [if_neg (by simp [hends.not_typed hlast])]
  exact reads_pure hlast

theorem receiver_reads {fuel : Nat} (hends : EndsElement rest)
    (hcursor : cursor.tokens = .name "this" :: rest) :
    Reads (elementWithin (fuel + 1)) cursor .receiver rest := by
  refine reads_look ?_
  simp only [Cursor.peek_eq hcursor, Token.isMark, Token.isNumber, Token.isKeyword, String.reduceBEq,
    Bool.or_self, Bool.false_and, Bool.false_eq_true, if_false, if_true]
  refine (reads_advance hcursor).bind fun after hafter => reads_look ?_
  rw [if_neg (by simp [hends.not_typed hafter])]
  exact reads_pure hafter

theorem slot_reads {fuel : Nat} {name : String} {index : Element} {ty : Ty} (h : ty.isPrintable = true)
    (hthis : name ≠ "this")
    (hindex : ∀ after, after.tokens = index.tokens ++ .mark .rightBracket :: (ty.typedTokens ++ rest) →
      Reads (elementWithin fuel) after index (.mark .rightBracket :: (ty.typedTokens ++ rest)))
    (hcursor : cursor.tokens = (Element.slot name index ty).tokens ++ rest) :
    Reads (elementWithin (fuel + 1)) cursor (.slot name index ty) rest := by
  simp only [Element.tokens, List.cons_append, List.append_assoc] at hcursor
  refine named_reads hcursor hthis (fun _ next hnext => ?_) fun after hafter => ?_
  · obtain rfl : .mark .leftBracket = next := Option.some_inj.mp hnext
    rfl
  refine (reads_accept hafter rfl).bind fun inside hinside => ?_
  refine (hindex inside hinside).bind fun closing hclosing => ?_
  refine (reads_mark hclosing _).bind fun dotted hdotted => ?_
  exact (typed_reads h hdotted).bind fun last hlast => reads_pure hlast

/-- An element begins with a number or its sign, or with a name that a type or an index may follow. -/
theorem element_begins (element : Element) : ∃ first more, element.tokens = first :: more ∧
    (first = .mark .minus ∨ (∃ value, first = .number value) ∨ ∃ name, first = .name name ∧
      ∀ next ∈ more.head?, next = .mark .dot ∨ next = .mark .leftBracket) := by
  cases element with
  | literal value ty =>
    cases value with
    | int value =>
      simp only [Element.tokens, Literal.tokens]
      split
      · exact ⟨_, _, rfl, .inl rfl⟩
      · exact ⟨_, _, rfl, .inr (.inl ⟨_, rfl⟩)⟩
    | bool value => exact ⟨_, _, rfl, .inr (.inr ⟨_, rfl, by simp [Ty.typedTokens]⟩)⟩
  | operand name ty =>
    cases ty with
    | _ => exact ⟨_, _, rfl, .inr (.inr ⟨_, rfl, by simp [Ty.typedTokens]⟩)⟩
  | slot name index ty => exact ⟨_, _, rfl, .inr (.inr ⟨_, rfl, by simp⟩)⟩

theorem element_length_pos (element : Element) : 0 < element.tokens.length := by
  obtain ⟨first, more, htokens, -⟩ := element_begins element
  simp [htokens]

theorem elementWithin_reads {element : Element} (h : element.isPrintable = true) {fuel : Nat}
    (hfuel : element.tokens.length ≤ fuel + 1) (hends : EndsElement rest)
    (hcursor : cursor.tokens = element.tokens ++ rest) :
    Reads (elementWithin (fuel + 1)) cursor element rest := by
  induction element generalizing fuel cursor rest with
  | literal value ty =>
    cases value with
    | int value =>
      simp only [Element.isPrintable, Bool.and_eq_true, bne_iff_ne] at h
      exact intLiteral_reads h.1 h.2 hcursor
    | bool value => exact boolLiteral_reads h hcursor
  | operand name ty =>
    cases ty with
    | classRef owner =>
      simp only [Element.isPrintable, Bool.and_eq_true, beq_iff_eq, bne_iff_ne] at h
      obtain ⟨⟨rfl, -⟩, hthis⟩ := h
      exact className_reads hthis hends hcursor
    | receiver =>
      obtain rfl : name = "this" := by simpa [Element.isPrintable] using h
      exact receiver_reads hends hcursor
    | _ =>
      simp only [Element.isPrintable, Bool.and_eq_true, Bool.not_eq_true'] at h
      exact typedName_reads h.1.1 h.2 hcursor
  | slot name index ty ih =>
    simp only [Element.isPrintable, Bool.and_eq_true, bne_iff_ne] at h
    obtain ⟨⟨⟨-, hthis⟩, hindex⟩, hty⟩ := h
    refine slot_reads hty hthis (fun after hafter => ?_) hcursor
    simp only [Element.tokens, List.length_cons, List.length_append] at hfuel
    have hpos := element_length_pos index
    obtain ⟨fuel, rfl⟩ : ∃ less, fuel = less + 1 := ⟨fuel - 1, by omega⟩
    exact ih hindex (by omega) (endsElement_mark (by decide)) hafter

theorem element_reads {element : Element} (h : element.isPrintable = true) (hends : EndsElement rest)
    (hcursor : cursor.tokens = element.tokens ++ rest) : Reads Written.element cursor element rest := by
  refine reads_within hcursor fun fuel hfuel => ?_
  have hpos := element_length_pos element
  obtain ⟨fuel, rfl⟩ : ∃ less, fuel = less + 1 := ⟨fuel - 1, by omega⟩
  exact elementWithin_reads h hfuel hends hcursor

theorem isName_of_isKeyword {word : String} {token : Token} (h : token.isKeyword word = true) :
    token.isName = true := by
  cases token with
  | name name => rfl
  | _ => cases h

/-- What comes behind a name that begins an element is part of the element or comes behind all of it. -/
theorem element_not_before (element : Element) {word test : Token → Bool}
    (hword : ∀ token, word token = true → token.isName = true) (hdot : test (.mark .dot) = false)
    (hbracket : test (.mark .leftBracket) = false) (hrest : ∀ next ∈ rest.head?, test next = false)
    (hcursor : cursor.tokens = element.tokens ++ rest) :
    (cursor.peek word && cursor.peekNext test) = false := by
  obtain ⟨first, more, htokens, hfirst⟩ := element_begins element
  rw [htokens, List.cons_append] at hcursor
  rw [Cursor.peek_eq hcursor, Bool.and_eq_false_imp]
  intro hname
  replace hname := hword first hname
  rcases hfirst with rfl | ⟨value, rfl⟩ | ⟨name, rfl, hmore⟩
  · cases hname
  · cases hname
  · refine Cursor.peekNext_eq_false hcursor fun next hnext => ?_
    cases more with
    | nil => exact hrest next hnext
    | cons second more =>
      rcases hmore next hnext with rfl | rfl
      · exact hdot
      · exact hbracket

theorem element_not_mark (element : Element) {m : Mark} (h : m ≠ .minus)
    (hcursor : cursor.tokens = element.tokens ++ rest) : cursor.peek (Token.isMark m) = false := by
  obtain ⟨first, more, htokens, hfirst⟩ := element_begins element
  rw [htokens, List.cons_append] at hcursor
  rw [Cursor.peek_eq hcursor]
  rcases hfirst with rfl | ⟨value, rfl⟩ | ⟨name, rfl, -⟩
  · simpa [Token.isMark] using h.symm
  · rfl
  · rfl

-- ---------------------------------------------------------------------------
-- Calls
-- ---------------------------------------------------------------------------

theorem argsWithin_reads {args : List Element} (h : args.all Element.isPrintable = true) {fuel : Nat}
    (hfuel : (argsTokens args).length ≤ fuel)
    (hcursor : cursor.tokens = argsTokens args ++ .mark .rightParen :: rest) :
    Reads (argsWithin fuel) cursor args (.mark .rightParen :: rest) := by
  induction args generalizing fuel cursor with
  | nil =>
    cases fuel with
    | zero => exact reads_pure hcursor
    | succ fuel =>
      refine (reads_decline hcursor (Cursor.peek_eq hcursor _)).bind fun after hafter => ?_
      exact reads_pure hafter
  | cons arg args ih =>
    simp only [List.all_cons, Bool.and_eq_true] at h
    simp only [argsTokens, List.length_cons, List.length_append] at hfuel
    simp only [argsTokens, List.cons_append, List.append_assoc] at hcursor
    obtain ⟨fuel, rfl⟩ : ∃ less, fuel = less + 1 := ⟨fuel - 1, by omega⟩
    have hends : EndsElement (argsTokens args ++ .mark .rightParen :: rest) := by
      cases args with
      | nil => exact endsElement_mark (by decide)
      | cons next args => exact endsElement_mark (by decide)
    refine (reads_accept hcursor rfl).bind fun after hafter => ?_
    refine (element_reads h.1 hends hafter).bind fun behind hbehind => ?_
    exact (ih h.2 (by omega) hbehind).bind fun last hlast => reads_pure hlast

/-- Whether there is a name of a method follows from the kind of call. -/
theorem methodName_reads {call : Call} (h : call.isPrintable = true)
    (hcursor : cursor.tokens = methodTokens call.method? ++ rest) :
    Reads (methodName call.invocation) cursor call.method? rest := by
  obtain ⟨kind, target, method?, args, ret⟩ := call
  cases kind with
  | virtual | static | special =>
    cases method? with
    | none => cases h
    | some method =>
      refine (reads_mark hcursor _).bind fun named hnamed => ?_
      exact (reads_str hnamed _).bind fun after hafter => reads_pure hafter
  | new | arrayLength =>
    cases method? with
    | none => exact reads_pure hcursor
    | some method => cases h

theorem invocation_reads {call : Call} (h : call.isPrintable = true)
    (hcursor : cursor.tokens = call.target.tokens ++ (methodTokens call.method? ++
      (argsTokens call.args ++ .mark .rightParen :: (call.ret.typedTokens ++ rest)))) :
    Reads (invocation call.invocation) cursor (.call call) rest := by
  obtain ⟨-, htarget, hargs, hret⟩ := Call.isPrintable_parts h
  have hends : EndsElement (methodTokens call.method? ++
      (argsTokens call.args ++ .mark .rightParen :: (call.ret.typedTokens ++ rest))) := by
    cases call.method? with
    | some method => exact endsElement_mark (by decide)
    | none =>
      cases call.args with
      | nil => exact endsElement_mark (by decide)
      | cons arg args => exact endsElement_mark (by decide)
  refine (element_reads htarget hends hcursor).bind fun behind hbehind => ?_
  refine (methodName_reads h hbehind).bind fun listed hlisted => ?_
  have hlist : Reads (withinRest argsWithin) listed call.args
      (.mark .rightParen :: (call.ret.typedTokens ++ rest)) :=
    reads_within hlisted fun fuel hfuel => argsWithin_reads hargs hfuel hlisted
  refine hlist.bind fun closing hclosing => ?_
  refine (reads_mark hclosing _).bind fun dotted hdotted => ?_
  exact (typed_reads hret hdotted).bind fun last hlast => reads_pure hlast

theorem call_reads {call : Call} (h : call.isPrintable = true)
    (hcursor : cursor.tokens = call.tokens ++ rest) : Reads Written.call cursor (.call call) rest := by
  simp only [Call.tokens, List.cons_append, List.append_assoc] at hcursor
  have hkind : Invocation.ofText? call.invocation.text = some call.invocation := by
    cases call.invocation <;> rfl
  refine (reads_name hcursor _).bind fun after hafter => ?_
  refine (reads_mark hafter _).bind fun inside hinside => ?_
  simp only [hkind]
  exact invocation_reads h hinside

theorem getField_reads {object field : Element} {ty : Ty} (hobject : object.isPrintable = true)
    (hfield : field.isPrintable = true) (hty : ty.isPrintable = true)
    (hcursor : cursor.tokens = (Statement.getField object field ty).tokens ++ rest) :
    Reads Written.call cursor (.getField object field ty) rest := by
  simp only [Statement.tokens, List.cons_append, List.append_assoc] at hcursor
  refine (reads_name hcursor _).bind fun after hafter => ?_
  refine (reads_mark hafter _).bind fun inside hinside => ?_
  refine (element_reads hobject (endsElement_mark (by decide)) hinside).bind fun c h => ?_
  refine (reads_mark h _).bind fun c h => ?_
  refine (element_reads hfield (endsElement_mark (by decide)) h).bind fun c h => ?_
  refine (reads_mark h _).bind fun c h => ?_
  exact (typed_reads hty h).bind fun c h => reads_pure h

theorem putField_reads {object field value : Element} (hobject : object.isPrintable = true)
    (hfield : field.isPrintable = true) (hvalue : value.isPrintable = true)
    (hcursor : cursor.tokens = (Statement.putField object field value).tokens ++ rest) :
    Reads Written.call cursor (.putField object field value) rest := by
  simp only [Statement.tokens, List.cons_append, List.append_assoc] at hcursor
  refine (reads_name hcursor _).bind fun after hafter => ?_
  refine (reads_mark hafter _).bind fun inside hinside => ?_
  refine (element_reads hobject (endsElement_mark (by decide)) hinside).bind fun c h => ?_
  refine (reads_mark h _).bind fun c h => ?_
  refine (element_reads hfield (endsElement_mark (by decide)) h).bind fun c h => ?_
  refine (reads_mark h _).bind fun c h => ?_
  refine (element_reads hvalue (endsElement_mark (by decide)) h).bind fun c h => ?_
  refine (reads_mark h _).bind fun c h => ?_
  exact (typed_reads rfl h).bind fun c h => reads_pure h

-- ---------------------------------------------------------------------------
-- Values
-- ---------------------------------------------------------------------------

/-- No operator comes next either, so that an element before it is all of a value. -/
def EndsValue (rest : List Token) : Prop :=
  EndsElement rest ∧ ∀ next ∈ rest.head?, binaryOperator? next = none

theorem endsValue_mark {m : Mark} (h : m ∉ [Mark.dot, .leftBracket, .leftParen])
    (hop : binaryOperator? (.mark m) = none) : EndsValue (.mark m :: rest) := by
  refine ⟨endsElement_mark h, ?_⟩
  rintro _ ⟨⟩
  exact hop

theorem operator_none_reads (hends : EndsValue rest) (hcursor : cursor.tokens = rest) :
    Reads operator cursor none rest := by
  refine ⟨cursor, ?_, hcursor, rfl⟩
  unfold operator
  split
  · next token span others hrest =>
    have htoken : binaryOperator? token = none :=
      hends.2 token (by simp [← hcursor, Cursor.tokens, hrest])
    simp only [htoken]
  · rfl

theorem operator_reads {op : Operator} (h : op ≠ .not)
    (hcursor : cursor.tokens = .mark op.mark :: rest) : Reads operator cursor (some op) rest := by
  have htoken : binaryOperator? (.mark op.mark) = some op := by
    cases op with
    | not => exact absurd rfl h
    | _ => rfl
  obtain ⟨span, others, hrest, -⟩ := Cursor.exists_rest hcursor
  refine ⟨cursor.advance, ?_, Cursor.tokens_advance hcursor, rfl⟩
  simp only [operator, hrest, htoken]

theorem rhs_operand {left : Element} {value : Statement} {middle : List Token}
    (h : left.isPrintable = true) (hends : EndsElement middle)
    (hcursor : cursor.tokens = left.tokens ++ middle)
    (hvalue : ∀ after, after.tokens = middle → Reads (afterOperand left) after value rest) :
    Reads rhs cursor value rest := by
  refine (reads_decline hcursor (element_not_mark left (by decide) hcursor)).bind fun after hafter => ?_
  refine reads_look ?_
  have hcall : after.atCall = false :=
    element_not_before left (fun _ h => h) rfl rfl (fun next hnext => (hends next hnext).2.2) hafter
  simp only [hcall, Bool.false_eq_true, if_false]
  exact (element_reads h hends hafter).bind hvalue

/-- A call, which a word and a parenthesis begin, is read as one wherever a value may stand. -/
theorem rhs_call {word : String} {value : Statement} {middle : List Token}
    (hcursor : cursor.tokens = .name word :: .mark .leftParen :: middle)
    (hvalue : ∀ after, after.tokens = cursor.tokens → Reads Written.call after value rest) :
    Reads rhs cursor value rest := by
  refine (reads_decline rfl (Cursor.peek_eq hcursor _)).bind fun after hafter => ?_
  refine reads_look ?_
  have hcall : after.atCall = true := by
    rw [Cursor.atCall, Cursor.peek_eq (hafter.trans hcursor), Cursor.peekNext_eq (hafter.trans hcursor)]
    rfl
  simp only [hcall, if_true]
  exact hvalue after hafter

theorem rhs_element {element : Element} (h : element.isPrintable = true) (hends : EndsValue rest)
    (hcursor : cursor.tokens = element.tokens ++ rest) : Reads rhs cursor (.element element) rest :=
  rhs_operand h hends.1 hcursor fun _ hafter =>
    (operator_none_reads hends hafter).bind fun _ hlast => reads_pure hlast

theorem rhs_binary {binary : Binary} (h : binary.isPrintable = true) (hop : binary.op ≠ .not)
    (hends : EndsElement rest) (hcursor : cursor.tokens = binary.tokens ++ rest) :
    Reads rhs cursor (.binary binary) rest := by
  simp only [Binary.isPrintable, Bool.and_eq_true] at h
  simp only [Binary.tokens, Operator.tokens, List.cons_append, List.append_assoc] at hcursor
  refine rhs_operand h.1 (endsElement_mark (by cases binary.op <;> decide)) hcursor fun after hafter => ?_
  refine (operator_reads hop hafter).bind fun dotted hdotted => ?_
  refine (typed_reads (by cases binary.op <;> rfl) hdotted).bind fun behind hbehind => ?_
  exact (element_reads h.2 hends hbehind).bind fun last hlast => reads_pure hlast

theorem rhs_unary {unary : Unary} (h : unary.isPrintable = true) (hop : unary.op = .not)
    (hends : EndsElement rest) (hcursor : cursor.tokens = unary.tokens ++ rest) :
    Reads rhs cursor (.unary unary) rest := by
  obtain ⟨op, operand⟩ := unary
  cases hop
  refine (reads_accept hcursor rfl).bind fun dotted hdotted => ?_
  refine (@typed_reads dotted _ .boolean rfl hdotted).bind fun behind hbehind => ?_
  exact (element_reads h hends hbehind).bind fun last hlast => reads_pure hlast

theorem rhs_reads {value : Statement} (h : value.isPrintableValue = true) (hends : EndsValue rest)
    (hcursor : cursor.tokens = value.tokens ++ rest) : Reads rhs cursor value rest := by
  cases value with
  | element e => exact rhs_element h hends hcursor
  | call c => exact rhs_call hcursor fun after hafter => call_reads h (hafter.trans hcursor)
  | getField object field ty =>
    simp only [Statement.isPrintableValue, Bool.and_eq_true] at h
    exact rhs_call hcursor fun after hafter => getField_reads h.1.1 h.1.2 h.2 (hafter.trans hcursor)
  | putField object field value =>
    simp only [Statement.isPrintableValue, Bool.and_eq_true] at h
    exact rhs_call hcursor fun after hafter => putField_reads h.1.1 h.1.2 h.2 (hafter.trans hcursor)
  | unary u =>
    simp only [Statement.isPrintableValue, Bool.and_eq_true, beq_iff_eq] at h
    exact rhs_unary h.2 h.1 hends.1 hcursor
  | binary b =>
    simp only [Statement.isPrintableValue, Bool.and_eq_true, bne_iff_ne] at h
    exact rhs_binary h.2 h.1 hends.1 hcursor
  | assign | goto | branch | ret => cases h

-- ---------------------------------------------------------------------------
-- Lines
-- ---------------------------------------------------------------------------

theorem labelUse_reads {label : String} (hcursor : cursor.tokens = .name label :: rest) :
    Reads labelUse cursor label rest := by
  refine (reads_name hcursor _).bind fun after hafter => ?_
  exact ⟨_, rfl, hafter, rfl⟩

theorem condition_reads {condition : Condition} (h : condition.isPrintable = true)
    (hwritten : condition.isWritten = true) (hends : EndsValue rest)
    (hcursor : cursor.tokens = condition.tokens ++ rest) :
    Reads Written.condition cursor condition rest := by
  have hvalue := rhs_reads (condition.isPrintableValue_value h hwritten) hends
    (hcursor.trans (by rw [condition.tokens_value]))
  refine reads_look (hvalue.bind fun after hafter => ?_)
  cases condition with
  | _ => exact reads_pure hafter

theorem statement_goto {label : String} (hcursor : cursor.tokens = .name "goto" :: .name label :: rest) :
    Reads statement cursor (.goto label) rest := by
  have hgoto : (cursor.peek (Token.isKeyword "goto") && cursor.peekNext Token.isName) = true := by
    rw [Cursor.peek_eq hcursor, Cursor.peekNext_eq hcursor]
    rfl
  refine reads_look ?_
  rw [if_pos hgoto]
  refine (reads_advance hcursor).bind fun after hafter => ?_
  exact (labelUse_reads hafter).bind fun last hlast => reads_pure hlast

/-- Behind `if` and a parenthesis, the reader takes the branch. -/
theorem statement_if {middle : List Token}
    (hcursor : cursor.tokens = .name "if" :: .mark .leftParen :: middle) :
    statement cursor = branch cursor := by
  have hgoto : cursor.peek (Token.isKeyword "goto") = false := Cursor.peek_eq hcursor _
  have hif : cursor.peek (Token.isKeyword "if") = true := Cursor.peek_eq hcursor _
  have hparen : cursor.peekNext (Token.isMark .leftParen) = true := Cursor.peekNext_eq hcursor _
  unfold statement
  simp only [Parse.bind_apply, look, hgoto, hif, hparen, Bool.false_and, Bool.and_self,
    Bool.false_eq_true, if_false, if_true]

theorem branch_reads {condition : Condition} {label : String} (h : condition.isPrintable = true)
    (hwritten : condition.isWritten = true)
    (hcursor : cursor.tokens = (Statement.branch condition label).tokens ++ rest) :
    Reads branch cursor (.branch condition label) rest := by
  simp only [Statement.tokens, List.cons_append, List.append_assoc] at hcursor
  refine (reads_advance hcursor).bind fun opening hopening => ?_
  refine (reads_advance hopening).bind fun inside hinside => ?_
  have hends : EndsValue (.mark .rightParen :: .name "goto" :: .name label :: rest) :=
    endsValue_mark (by decide) rfl
  refine (condition_reads h hwritten hends hinside).bind fun closing hclosing => ?_
  refine (reads_mark hclosing _).bind fun jump hjump => ?_
  refine (reads_expect hjump rfl _).bind fun target htarget => ?_
  exact (labelUse_reads htarget).bind fun last hlast => reads_pure hlast

theorem statement_ret {value? : Option Element} {ty : Ty} (h : value?.all Element.isPrintable = true)
    (hty : ty.isPrintable = true)
    (hcursor : cursor.tokens = (Statement.ret value? ty).tokens ++ .mark .semicolon :: rest) :
    Reads statement cursor (.ret value? ty) (.mark .semicolon :: rest) := by
  simp only [Statement.tokens, List.cons_append, List.append_assoc] at hcursor
  have hgoto : cursor.peek (Token.isKeyword "goto") = false := Cursor.peek_eq hcursor _
  have hif : cursor.peek (Token.isKeyword "if") = false := Cursor.peek_eq hcursor _
  have hret : cursor.peek (Token.isKeyword "ret") = true := Cursor.peek_eq hcursor _
  have hdot : cursor.peekNext (Token.isMark .dot) = true := Cursor.peekNext_eq hcursor _
  refine reads_look ?_
  simp only [hgoto, hif, hret, hdot, Bool.false_and, Bool.and_self, Bool.false_eq_true, if_false, if_true]
  refine (reads_advance hcursor).bind fun dotted hdotted => ?_
  refine (typed_reads hty hdotted).bind fun after hafter => reads_look ?_
  cases value? with
  | none =>
    have hdone : after.peek (Token.isMark .semicolon) = true := Cursor.peek_eq hafter _
    rw [if_pos hdone]
    exact reads_pure hafter
  | some value =>
    have hmore : after.peek (Token.isMark .semicolon) = false := element_not_mark value (by decide) hafter
    rw [if_neg (by simp [hmore])]
    exact (element_reads h (endsElement_mark (by decide)) hafter).bind fun last hlast => reads_pure hlast

theorem statement_call {word : String} {value : Statement} {middle : List Token} (hif : word ≠ "if")
    (hcursor : cursor.tokens = .name word :: .mark .leftParen :: middle)
    (hcall : Reads Written.call cursor value rest) : Reads statement cursor value rest := by
  have hgoto : cursor.peekNext Token.isName = false := Cursor.peekNext_eq hcursor _
  have hif : cursor.peek (Token.isKeyword "if") = false := by
    simpa [Cursor.peek_eq hcursor, Token.isKeyword] using hif
  have hret : cursor.peekNext (Token.isMark .dot) = false := Cursor.peekNext_eq hcursor _
  have hatCall : cursor.atCall = true := by
    rw [Cursor.atCall, Cursor.peek_eq hcursor, Cursor.peekNext_eq hcursor]
    rfl
  refine reads_look ?_
  simp only [hgoto, hif, hret, hatCall, Bool.false_and, Bool.and_false, Bool.false_eq_true, if_false,
    if_true]
  exact hcall

theorem dest_not_ret {dest : Element} (h : dest.isPrintableDest = true)
    (hcursor : cursor.tokens = dest.tokens ++ rest) :
    (cursor.peek (Token.isKeyword "ret") && cursor.peekNext (Token.isMark .dot)) = false := by
  cases dest with
  | literal value ty => cases h
  | operand name ty =>
    simp only [Element.isPrintableDest, Bool.and_eq_true, bne_iff_ne] at h
    obtain ⟨⟨-, hname⟩, -⟩ := h
    obtain ⟨more, hfirst⟩ : ∃ more, (Element.operand name ty).tokens = .name name :: more := by
      cases ty with
      | _ => exact ⟨_, rfl⟩
    rw [hfirst] at hcursor
    simp [Cursor.peek_eq hcursor, Token.isKeyword, hname]
  | slot name index ty =>
    have hdot : cursor.peekNext (Token.isMark .dot) = false := Cursor.peekNext_eq hcursor _
    rw [hdot, Bool.and_false]

theorem dest_name? {dest : Element} (h : dest.isPrintableDest = true) :
    ∃ name, dest.name? = some name := by
  cases dest with
  | literal value ty => cases h
  | operand name ty =>
    simp only [Element.isPrintableDest, Bool.and_eq_true, Bool.not_eq_true'] at h
    exact ⟨name, by simp [Element.name?, h.1.1]⟩
  | slot name index ty => exact ⟨name, rfl⟩

theorem assignment_reads {dest : Element} {ty : Ty} {value : Statement}
    (h : dest.isPrintableDest = true) (hty : ty.isPrintable = true)
    (hvalue : value.isPrintableValue = true) (hends : EndsValue rest)
    (hcursor : cursor.tokens = dest.tokens ++ .mark .colonEqual :: (ty.typedTokens ++
      (value.tokens ++ rest))) :
    Reads assignment cursor (.assign dest ty value) rest := by
  have hdest := Statement.isPrintable_of_dest h
  obtain ⟨name, hname⟩ := dest_name? h
  refine reads_look ?_
  refine (element_reads hdest (endsElement_mark (by decide)) hcursor).bind fun after hafter => ?_
  simp only [hname]
  refine (reads_mark hafter _).bind fun dotted hdotted => ?_
  refine (typed_reads hty hdotted).bind fun behind hbehind => ?_
  exact (rhs_reads hvalue hends hbehind).bind fun last hlast => reads_pure hlast

theorem statement_assign {dest : Element} {ty : Ty} {value : Statement}
    (h : dest.isPrintableDest = true) (hty : ty.isPrintable = true)
    (hvalue : value.isPrintableValue = true) (hends : EndsValue rest)
    (hcursor : cursor.tokens = (Statement.assign dest ty value).tokens ++ rest) :
    Reads statement cursor (.assign dest ty value) rest := by
  simp only [Statement.tokens, List.cons_append, List.append_assoc] at hcursor
  have hgoto : (cursor.peek (Token.isKeyword "goto") && cursor.peekNext Token.isName) = false :=
    element_not_before dest (fun _ => isName_of_isKeyword) rfl rfl (by simp [Token.isName]) hcursor
  have hif : (cursor.peek (Token.isKeyword "if") && cursor.peekNext (Token.isMark .leftParen)) = false :=
    element_not_before dest (fun _ => isName_of_isKeyword) rfl rfl (by simp [Token.isMark]) hcursor
  have hret := dest_not_ret h hcursor
  have hcall : cursor.atCall = false :=
    element_not_before dest (fun _ h => h) rfl rfl (by simp [Token.isMark]) hcursor
  refine reads_look ?_
  simp only [hgoto, hif, hret, hcall, Bool.false_eq_true, if_false]
  exact assignment_reads h hty hvalue hends hcursor

theorem statement_reads {stmt : Statement} (h : stmt.isPrintable = true)
    (hcondition : ∀ condition label, stmt = .branch condition label → condition.isWritten = true)
    (hcursor : cursor.tokens = stmt.tokens ++ .mark .semicolon :: rest) :
    Reads statement cursor stmt (.mark .semicolon :: rest) := by
  cases stmt with
  | assign dest ty value =>
    simp only [Statement.isPrintable, Bool.and_eq_true] at h
    exact statement_assign h.1.1 h.1.2 h.2 (endsValue_mark (by decide) rfl) hcursor
  | call c =>
    have hword : c.invocation.text ≠ "if" := by cases c.invocation <;> decide
    exact statement_call hword hcursor (call_reads h hcursor)
  | goto label => exact statement_goto hcursor
  | branch condition label =>
    simp only [Statement.isPrintable, Bool.and_eq_true] at h
    have hread := branch_reads h.1 (hcondition condition label rfl) hcursor
    rwa [Reads, ← statement_if hcursor] at hread
  | ret value? ty =>
    simp only [Statement.isPrintable, Bool.and_eq_true] at h
    exact statement_ret h.1 h.2 hcursor
  | putField object field value =>
    simp only [Statement.isPrintable, Bool.and_eq_true] at h
    exact statement_call (by decide) hcursor (putField_reads h.1.1 h.1.2 h.2 hcursor)
  | getField object field ty =>
    simp only [Statement.isPrintable, Bool.and_eq_true] at h
    exact statement_call (by decide) hcursor (getField_reads h.1.1 h.1.2 h.2 hcursor)
  | unary | binary | element => cases h

/-- No statement begins like the definition of a label. -/
theorem statement_not_label {stmt : Statement} (h : stmt.isPrintable = true)
    (hcursor : cursor.tokens = stmt.tokens ++ rest) :
    (cursor.peek Token.isName && cursor.peekNext (Token.isMark .colon)) = false := by
  cases stmt with
  | assign dest ty value =>
    simp only [Statement.tokens, List.cons_append, List.append_assoc] at hcursor
    exact element_not_before dest (fun _ h => h) rfl rfl (by simp [Token.isMark]) hcursor
  | call | goto | branch | ret | putField | getField =>
    have hcolon : cursor.peekNext (Token.isMark .colon) = false := Cursor.peekNext_eq hcursor _
    rw [hcolon, Bool.and_false]
  | unary | binary | element => cases h

theorem line_reads {stmt : Statement} (h : stmt.isPrintable = true)
    (hcondition : ∀ condition label, stmt = .branch condition label → condition.isWritten = true)
    (hcursor : cursor.tokens = stmt.tokens ++ .mark .semicolon :: rest) :
    Reads line cursor (.statement stmt) rest := by
  refine reads_look ?_
  rw [if_neg (by simp [statement_not_label h hcursor])]
  refine (statement_reads h hcondition hcursor).bind fun after hafter => ?_
  exact (reads_mark hafter _).bind fun last hlast => reads_pure hlast

end Written

end ThreeAddress
