import ThreeAddress.Proofs.Reading

/-!
# Reading undoes printing

`Statement.ReadsBack` says that a statement is what the reader makes of its text. `readsBack_iff` is the
main statement: a printable statement reads back unless it is a branch on an operator that the grammar has
no place for, that is `!` between two elements or any other operator before one. Of such a branch, nothing
is read at all.
-/

namespace ThreeAddress

namespace Written

open Parse

variable {cursor : Cursor} {rest middle : List Token}

namespace Parse

variable {α β : Type}

/-- The parse yields nothing. -/
def Fails (p : Parse α) (cursor : Cursor) : Prop := (p cursor).1 = none

theorem Fails.bind {p : Parse α} {f : α → Parse β} (h : Fails p cursor) : Fails (p >>= f) cursor := by
  rcases hp : p cursor with ⟨value?, after⟩
  obtain rfl : value? = none := by simpa [Fails, hp] using h
  simp only [Fails, bind_apply, hp]

theorem Reads.fails_bind {p : Parse α} {f : α → Parse β} {a : α} (h : Reads p cursor a middle)
    (hf : ∀ after, after.tokens = middle → Fails (f a) after) : Fails (p >>= f) cursor := by
  obtain ⟨after, hp, htokens, -⟩ := h
  rw [Fails, bind_apply, hp]
  exact hf after htokens

theorem fails_look {f : Cursor → Parse β} (h : Fails (f cursor) cursor) : Fails (look >>= f) cursor :=
  h

theorem fails_name {token : Token} (h : cursor.tokens = token :: rest) (hname : token.isName = false)
    (expected : String) : Fails (Parse.name expected) cursor := by
  obtain ⟨span, others, hrest, -⟩ := Cursor.exists_rest h
  cases token with
  | name name => cases hname
  | _ => simp only [Fails, Parse.name, hrest, unexpected]

theorem fails_mark {token : Token} {m : Mark} (h : cursor.tokens = token :: rest)
    (hmark : token.isMark m = false) (expected : String) : Fails (mark m expected) cursor := by
  have hpeek : cursor.peek (Token.isMark m) = false := (Cursor.peek_eq h _).trans hmark
  simp only [Fails, mark, expect, hpeek, Bool.false_eq_true, if_false, unexpected]

end Parse

/-- No element begins with the sign of an operator and the dot of its type. -/
theorem element_fails {m : Mark} (hcursor : cursor.tokens = .mark m :: .mark .dot :: rest) :
    Fails element cursor := by
  obtain ⟨span, others, hrest, -⟩ := Cursor.exists_rest hcursor
  change Fails (elementWithin cursor.rest.length) cursor
  rw [hrest, List.length_cons]
  have hminus : cursor.peekNext Token.isNumber = false := Cursor.peekNext_eq hcursor _
  have hnumber : cursor.peek Token.isNumber = false := Cursor.peek_eq hcursor _
  have hword : ∀ word, cursor.peek (Token.isKeyword word) = false := fun _ => Cursor.peek_eq hcursor _
  refine fails_look ?_
  simp only [hminus, hnumber, hword, Bool.and_false, Bool.or_self, Bool.false_and, Bool.false_eq_true,
    if_false]
  exact (paramIndex_reads hcursor rfl).fails_bind fun after hafter => (fails_name hafter rfl _).bind

theorem rhs_fails {unary : Unary} (hop : unary.op ≠ .not)
    (hcursor : cursor.tokens = unary.tokens ++ rest) : Fails rhs cursor := by
  have hbang : cursor.peek (Token.isMark .bang) = false := by
    rw [Cursor.peek_eq hcursor]
    cases hsign : unary.op with
    | not => exact absurd hsign hop
    | _ => rfl
  refine (reads_decline hcursor hbang).fails_bind fun after hafter => fails_look ?_
  have hcall : after.atCall = false := by
    rw [Cursor.atCall, Cursor.peek_eq hafter]
    rfl
  simp only [hcall, Bool.false_eq_true, if_false]
  exact (element_fails hafter).bind

theorem branch_fails {condition : Condition} {label : String} (h : condition.isPrintable = true)
    (hwritten : condition.isWritten = false)
    (hcursor : cursor.tokens = (Statement.branch condition label).tokens ++ rest) :
    Fails branch cursor := by
  simp only [Statement.tokens, List.cons_append, List.append_assoc] at hcursor
  refine (reads_advance hcursor).fails_bind fun opening hopening => ?_
  refine (reads_advance hopening).fails_bind fun inside hinside => ?_
  cases condition with
  | single e => cases hwritten
  | unary u =>
    have hop : u.op ≠ .not := by simpa [Condition.isWritten] using hwritten
    exact (fails_look (rhs_fails hop hinside).bind).bind
  | binary b =>
    -- The reader takes the left side for the whole condition, and then misses the parenthesis.
    obtain ⟨op, left, right⟩ := b
    obtain rfl : op = .not := by simpa [Condition.isWritten] using hwritten
    simp only [Condition.isPrintable, Binary.isPrintable, Bool.and_eq_true] at h
    simp only [Condition.tokens, Binary.tokens, List.append_assoc] at hinside
    have hleft : Reads Written.condition inside (.single left) _ :=
      condition_reads h.1 rfl (endsValue_mark (by decide) rfl) hinside
    exact hleft.fails_bind fun closing hclosing => (fails_mark hclosing rfl _).bind

theorem line_fails {condition : Condition} {label : String} (h : condition.isPrintable = true)
    (hwritten : condition.isWritten = false)
    (hcursor : cursor.tokens = (Statement.branch condition label).tokens ++ rest) :
    Fails line cursor := by
  have hcolon : cursor.peekNext (Token.isMark .colon) = false := Cursor.peekNext_eq hcursor _
  have hstatement : Fails statement cursor := by
    rw [Fails, statement_if hcursor]
    exact branch_fails h hwritten hcursor
  refine fails_look ?_
  simp only [hcolon, Bool.and_false, Bool.false_eq_true, if_false]
  exact hstatement.bind

end Written

namespace Statement

open Written

/-- The text of the statement and a semicolon are read as the statement, with nothing to report and
nothing left to read. -/
def ReadsBack (statement : Statement) (file : Nat) : Prop :=
  ∃ tokens after, lex file (statement.text ++ ";") = (tokens, []) ∧
    Written.line (.ofTokens file tokens) = (some (.statement statement), after) ∧
    after.isDone = true ∧ after.reports = []

theorem readsBack {statement : Statement} (h : statement.isPrintable = true)
    (hcondition : ∀ condition label, statement = .branch condition label → condition.isWritten = true)
    (file : Nat) : statement.ReadsBack file := by
  obtain ⟨htokens, hreports⟩ := lex_text h file
  rcases hlex : lex file (statement.text ++ ";") with ⟨tokens, reports⟩
  rw [hlex] at htokens hreports
  obtain rfl : reports = [] := hreports
  have hread : Parse.Reads Written.line (.ofTokens file tokens) (.statement statement) [] :=
    line_reads h hcondition htokens
  obtain ⟨after, hline, hrest, hnone⟩ := hread
  refine ⟨tokens, after, hlex, hline, ?_, hnone⟩
  rw [Cursor.isDone, List.map_eq_nil_iff.mp hrest, List.isEmpty_nil]

theorem not_readsBack {condition : Condition} {label : String}
    (h : (branch condition label).isPrintable = true) (hwritten : condition.isWritten = false)
    (file : Nat) : ¬ (branch condition label).ReadsBack file := by
  rintro ⟨tokens, after, hlex, hline, -⟩
  have htokens := (lex_text h file).1
  rw [hlex] at htokens
  simp only [isPrintable, Bool.and_eq_true] at h
  have hfails : Parse.Fails Written.line (.ofTokens file tokens) := line_fails h.1 hwritten htokens
  rw [Parse.Fails, hline] at hfails
  cases hfails

/-- Reading undoes printing, for branches whose operator the grammar has a place for and for all other
statements. -/
theorem readsBack_iff {statement : Statement} (h : statement.isPrintable = true) (file : Nat) :
    statement.ReadsBack file ↔
      ∀ condition label, statement = .branch condition label → condition.isWritten = true := by
  refine ⟨?_, fun hcondition => readsBack h hcondition file⟩
  rintro hread condition label rfl
  cases hwritten : condition.isWritten with
  | true => rfl
  | false => exact absurd hread (not_readsBack h hwritten file)

/-- A branch on two elements, with words for names that mean something else in other places: for `&&` it
is `if (true[-3.i32].bool &&.bool ret.bool) goto goto`. -/
def guarded (op : Operator) : Statement :=
  .branch (.binary { op
                     left := .slot "true" (.literal (.int (-3)) .int32) .boolean
                     right := .operand "ret" .boolean }) "goto"

theorem readsBack_iff_guarded : (guarded .and).isPrintable = true ∧ (guarded .and).ReadsBack 0 := by
  have hprintable : (guarded .and).isPrintable = true := by decide +kernel
  refine ⟨hprintable, (readsBack_iff hprintable 0).mpr ?_⟩
  rintro condition label ⟨⟩
  rfl

/-- With `!` between the elements the branch has a text, but none that can be read. -/
theorem guarded_not_readsBack : (guarded .not).isPrintable = true ∧ ¬ (guarded .not).ReadsBack 0 := by
  have hprintable : (guarded .not).isPrintable = true := by decide +kernel
  exact ⟨hprintable, not_readsBack hprintable rfl 0⟩

end Statement

end ThreeAddress
