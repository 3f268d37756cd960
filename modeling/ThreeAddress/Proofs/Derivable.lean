import ThreeAddress.Proofs.Reported
import ThreeAddress.Proofs.Spans

/-!
# What is read without a word is in the grammar

Where the reader recovers from a mistake it yields a value all the same, but then it has reported the
mistake (`Parse.Tells`), so the lemmas from bodies upwards ask that no error was reported in the end.
`parse_derivable` is the main statement. The grammar there is the lenient one, and `parse_beyond_rules`
shows that all of its leniency is needed.
-/

namespace ThreeAddress

open Grammar

namespace Written

open Parse

variable {cursor after : Cursor}

-- ---------------------------------------------------------------------------
-- Members
-- ---------------------------------------------------------------------------

section Silent

variable {α : Type}

theorem orSkipBlock_some {p : Parse α} {value : α} (h : orSkipBlock p cursor = (some value, after)) :
    p cursor = (some value, after) := by
  unfold orSkipBlock at h
  generalize p cursor = outcome at h ⊢
  obtain ⟨_ | found, middle⟩ := outcome
  · cases h
  · exact h

/-- No error has been reported so far. -/
def Cursor.Clean (cursor : Cursor) : Prop :=
  ∀ diagnostic ∈ cursor.reports, diagnostic.isError = false

theorem Cursor.clean_of_nil (h : cursor.reports = []) : cursor.Clean := by
  simp [Clean, h]

/-- Where no error was reported in the end, none was before, and there is a value. -/
theorem Parse.Tells.clean {p : Parse α} {value? : Option α} (htells : p.Tells)
    (h : p cursor = (value?, after)) (clean : after.Clean) :
    (∃ value, value? = some value) ∧ cursor.Clean := by
  obtain ⟨added, hadded, herror⟩ := htells cursor
  rw [h] at hadded herror
  refine ⟨?_, fun diagnostic hmem => clean diagnostic (hadded ▸ List.mem_append_left _ hmem)⟩
  cases value? with
  | none =>
    obtain ⟨diagnostic, hmem, hdiagnostic⟩ := herror rfl
    rw [clean diagnostic (hadded ▸ List.mem_append_right _ hmem)] at hdiagnostic
    cases hdiagnostic
  | some value => exact ⟨value, rfl⟩

theorem Parse.Tells.silent {p : Parse α} {value? : Option α} (htells : p.Tells)
    (h : p cursor = (value?, after)) (silent : after.reports = []) :
    (∃ value, value? = some value) ∧ cursor.Clean :=
  htells.clean h (Cursor.clean_of_nil silent)

theorem Parse.Tells.loud {p : Parse α} (htells : p.Tells) (h : p cursor = (none, after)) :
    ¬ after.Clean := by
  intro clean
  obtain ⟨⟨value, hvalue⟩, -⟩ := htells.clean h clean
  cases hvalue

end Silent

theorem accessOfWord?_some {word : String} {found : Access} (h : accessOfWord? word = some found) :
    Form.word word ∈ (lenient .access).alternatives := by
  unfold accessOfWord? at h
  split at h
  · next hword => subst hword; decide
  · split at h
    · next hword => subst hword; decide
    · split at h
      · next hword => subst hword; decide
      · split at h
        · next hword => subst hword; decide
        · cases h

theorem access_spans {found? : Option Access} (h : access cursor = (some found?, after)) :
    (found? = none ∧ after = cursor)
      ∨ (found? ≠ none ∧ Spans (.rule .access) cursor.tokens after.tokens) := by
  unfold access at h
  split at h
  · next word span rest hrest =>
    split at h
    · next found hfound =>
      cases h
      have hpeek : cursor.peek (Token.isKeyword word) = true := by
        simp [Cursor.peek, hrest, Token.isKeyword]
      exact .inr ⟨Option.some_ne_none found, (peek_word hpeek).rule (accessOfWord?_some hfound)⟩
    · cases h
      exact .inl ⟨rfl, rfl⟩
  · cases h
    exact .inl ⟨rfl, rfl⟩

theorem modifiersWithin_spans {next : Mark} {fuel : Nat} {before found : Modifiers}
    (h : modifiersWithin next fuel before cursor = (some found, after)) :
    Spans (.many (.rule .modifier)) cursor.tokens after.tokens := by
  induction fuel generalizing cursor before with
  | zero =>
    cases h
    exact .stop _
  | succ fuel ih =>
    simp only [modifiersWithin, bind_some] at h
    obtain ⟨looked, c1, hlook, h⟩ := h
    cases hlook
    split at h
    · simp only [bind_some] at h
      obtain ⟨access?, c2, haccess, h⟩ := h
      rcases access_spans haccess with ⟨rfl, rfl⟩ | ⟨hsome, hspans⟩
      · simp only [bind_some] at h
        obtain ⟨isStatic, c3, hstatic, h⟩ := h
        cases isStatic with
        | true =>
          obtain ⟨hword, rfl⟩ := accept_true hstatic
          exact ((peek_word hword).rule (by decide)).more (ih h)
        | false =>
          obtain rfl := accept_false hstatic
          simp only [Bool.false_eq_true, if_false, bind_some] at h
          obtain ⟨isFinal, c4, hfinal, h⟩ := h
          cases isFinal with
          | true =>
            obtain ⟨hword, rfl⟩ := accept_true hfinal
            exact ((peek_word hword).rule (by decide)).more (ih h)
          | false =>
            obtain rfl := accept_false hfinal
            cases h
            exact .stop _
      · cases access? with
        | none => exact absurd rfl hsome
        | some access => exact (hspans.rule (by decide)).more (ih h)
    · cases h
      exact .stop _

/-- A field behind the dot and the word that introduce it. -/
theorem field_spans {found : Field} {before : List Token}
    (hopen : Spans (.mark .dot ++ .word "field") before cursor.tokens)
    (h : field cursor = (some found, after)) : Spans (.rule .field) before after.tokens := by
  simp only [field, bind_some] at h
  obtain ⟨mods, c1, hmods, ⟨name, span⟩, c2, hname, ty, c3, hty, _, c4, hend, h⟩ := h
  cases h
  have hfield := (hopen.seq (modifiersWithin_spans hmods)).seq (name_spans hname).name
  exact ((hfield.seq (typed_spans hty)).seq (mark_spans hend)).rule (by decide)

/-- One parameter and those behind it. -/
theorem paramsWithin_spans {fuel : Nat} {draft found : Draft}
    (h : paramsWithin fuel draft cursor = (some found, after)) :
    ∃ named typed, Spans Form.name cursor.tokens named ∧ Spans (.rule .typed) named typed ∧
      Spans (.many (.mark .comma ++ Form.name ++ .rule .typed)) typed after.tokens := by
  induction fuel generalizing cursor draft with
  | zero => cases h
  | succ fuel ih =>
    simp only [paramsWithin, bind_some] at h
    obtain ⟨⟨name, span⟩, c1, hname, ty, c2, hty, more, c3, haccept, h⟩ := h
    refine ⟨_, _, (name_spans hname).name, typed_spans hty, ?_⟩
    cases more with
    | true =>
      obtain ⟨hcomma, rfl⟩ := accept_true haccept
      obtain ⟨named, typed, hnamed, htyped, hothers⟩ := ih h
      exact (((peek_mark hcomma).seq hnamed).seq htyped).more hothers
    | false =>
      obtain rfl := accept_false haccept
      cases h
      exact .stop _

theorem params_spans {draft found : Draft} (h : params draft cursor = (some found, after)) :
    Spans (.mark .leftParen
      ++ .opt (Form.name ++ .rule .typed ++ .many (.mark .comma ++ Form.name ++ .rule .typed)))
      cursor.tokens after.tokens := by
  simp only [params, bind_some] at h
  obtain ⟨_, c1, hparen, looked, c2, hlook, h⟩ := h
  cases hlook
  refine (mark_spans hparen).seq ?_
  split at h
  · cases h
    exact .skip _ _
  · obtain ⟨named, typed, hnamed, htyped, hothers⟩ := paramsWithin_spans h
    exact ((hnamed.seq htyped).seq hothers).take

/-- The modifiers of a method, then the rest of its header behind whatever is before that, and the brace
of the body. -/
theorem methodHeader_spans {isConstructor : Bool} {found : Draft × Span}
    (h : methodHeader isConstructor cursor = (some found, after)) :
    ∃ named opened, Spans (.many (.rule .modifier)) cursor.tokens named ∧
      (∀ {form before}, Spans form before named →
        Spans (form ++ Form.name ++ .rule .params ++ .rule .typed) before opened) ∧
      Spans (.mark .leftBrace) opened after.tokens := by
  simp only [methodHeader, bind_some] at h
  obtain ⟨mods, c1, hmods, ⟨name, span⟩, c2, hname, draft, c3, hparams, _, c4, hclose, ret, c5, hret,
    _, c6, hbrace, h⟩ := h
  cases h
  have hparams : Spans (.rule .params) c2.tokens c4.tokens :=
    ((params_spans hparams).seq (mark_spans hclose)).rule (by decide)
  refine ⟨_, _, modifiersWithin_spans hmods, fun hbefore => ?_, mark_spans hbrace⟩
  exact ((hbefore.seq (name_spans hname).name).seq hparams).seq (typed_spans hret)

theorem bodyWithin_spans {fuel : Nat} {draft found : Draft}
    (h : bodyWithin fuel draft cursor = (some found, after)) (clean : after.Clean) :
    Spans (.many (.rule .stmt)) cursor.tokens after.tokens := by
  induction fuel generalizing cursor draft with
  | zero =>
    cases h
    exact .stop _
  | succ fuel ih =>
    simp only [bodyWithin, bind_some] at h
    obtain ⟨looked, c1, hlook, h⟩ := h
    cases hlook
    split at h
    · cases h
      exact .stop _
    · simp only [bind_some] at h
      obtain ⟨line?, c2, hline, h⟩ := h
      cases line? with
      | some found => exact (line_spans (attempt_some.mp hline)).more (ih h)
      | none =>
        -- The line was skipped, and so it was reported.
        have hclean := ((tells_recover.bind fun _ => bodyWithin_tells fuel draft).clean h clean).2
        exact absurd hclean (line_tells.loud (attempt_some.mp hline))

theorem build_some {draft : Draft} {header : Span} {found : Method}
    (h : build draft header cursor = (some found, after)) : after = cursor := by
  simp only [build, bind_some] at h
  obtain ⟨looked, c1, hlook, h⟩ := h
  cases hlook
  cases hbuild : draft.build with
  | ok method =>
    simp only [hbuild] at h
    cases h
    rfl
  | error fault =>
    simp only [hbuild] at h
    cases h

/-- A method behind the dot and the word that introduce it. -/
theorem method_spans {isConstructor : Bool} {start : Span} {found : Method} {before : List Token}
    (h : method isConstructor start cursor = (some found, after)) (clean : after.Clean)
    (hopen : Spans (.mark .dot ++ .word (if isConstructor then "construct" else "method")) before
      cursor.tokens) : Spans (.rule .method) before after.tokens := by
  simp only [method, bind_some] at h
  obtain ⟨⟨draft, span⟩, c1, hheader, _, c2, hmodify, draft', c3, hbody, end?, c4, hend, h⟩ := h
  cases hmodify
  obtain rfl := build_some h
  obtain ⟨⟨close, rfl⟩, hclean⟩ := (tells_mark _ _).clean (attempt_some.mp hend) clean
  obtain ⟨named, opened, hmods, hnamed, hbrace⟩ := methodHeader_spans (orSkipBlock_some hheader)
  -- Forgetting the labels of the method before leaves the tokens where they are.
  have hlines : Spans (.many (.rule .stmt)) c1.tokens c3.tokens := (bodyWithin_spans hbody hclean :)
  have hbody : Spans (.rule .body) opened after.tokens :=
    ((hbrace.seq hlines).seq (mark_spans (attempt_some.mp hend))).rule (by decide)
  cases isConstructor with
  | false => exact ((hnamed (hopen.seq hmods)).seq hbody).rule (by decide)
  | true =>
    -- The modifiers are read by the loop that reads those of the other methods.
    rcases hmods.many_cases with hnone | hsome
    · rw [hnone] at hopen
      exact ((hnamed hopen).seq hbody).rule (by decide)
    · exact ((hnamed (hopen.seq hsome)).seq hbody).rule (by decide)

-- ---------------------------------------------------------------------------
-- Classes
-- ---------------------------------------------------------------------------

theorem importPathWithin_spans {fuel : Nat} {path found : String}
    (h : importPathWithin fuel path cursor = (some found, after)) :
    Spans (.many (.mark .dot ++ Form.name)) cursor.tokens after.tokens := by
  induction fuel generalizing cursor path with
  | zero =>
    cases h
    exact .stop _
  | succ fuel ih =>
    simp only [importPathWithin, bind_some] at h
    obtain ⟨more, c1, haccept, h⟩ := h
    cases more with
    | true =>
      obtain ⟨hdot, rfl⟩ := accept_true haccept
      simp only [if_true, bind_some] at h
      obtain ⟨⟨part, span⟩, c2, hpart, h⟩ := h
      exact ((peek_mark hdot).seq (name_spans hpart).name).more (ih h)
    | false =>
      obtain rfl := accept_false haccept
      cases h
      exact .stop _

theorem importPath_spans {found : String} {before : List Token}
    (hopen : Spans (.word "import") before cursor.tokens)
    (h : importPath cursor = (some found, after)) : Spans (.rule .imported) before after.tokens := by
  simp only [importPath, bind_some] at h
  obtain ⟨⟨start, span⟩, c1, hstart, path, c2, hpath, _, c3, hend, h⟩ := h
  cases h
  have hparts := (hopen.seq (name_spans hstart).name).seq (importPathWithin_spans hpath)
  exact (hparts.seq (mark_spans hend)).rule (by decide)

theorem importsWithin_spans {fuel : Nat} {imports found : List String}
    (h : importsWithin fuel imports cursor = (some found, after)) (clean : after.Clean) :
    Spans (.many (.rule .imported)) cursor.tokens after.tokens := by
  induction fuel generalizing cursor imports with
  | zero =>
    cases h
    exact .stop _
  | succ fuel ih =>
    simp only [importsWithin, bind_some] at h
    obtain ⟨another, c1, haccept, h⟩ := h
    cases another with
    | true =>
      obtain ⟨hword, rfl⟩ := accept_true haccept
      simp only [if_true, bind_some] at h
      obtain ⟨path?, c2, hpath, h⟩ := h
      cases path? with
      | some path => exact (importPath_spans (peek_word hword) (attempt_some.mp hpath)).more (ih h)
      | none =>
        have hclean :=
          ((tells_recover.bind fun _ => importsWithin_tells fuel imports).clean h clean).2
        exact absurd hclean (importPath_tells.loud (attempt_some.mp hpath))
    | false =>
      obtain rfl := accept_false haccept
      cases h
      exact .stop _

theorem addField_spans {members found : Members} {before : List Token}
    (hopen : Spans (.mark .dot ++ .word "field") before cursor.tokens)
    (h : addField members cursor = (some found, after)) (clean : after.Clean) :
    Spans (.rule .member) before after.tokens := by
  simp only [addField, bind_some] at h
  obtain ⟨field?, c1, hfield, h⟩ := h
  cases field? with
  | some field =>
    cases h
    exact (field_spans hopen (attempt_some.mp hfield)).rule (by decide)
  | none =>
    have hclean := ((tells_recover.bind fun _ => tells_pure members).clean h clean).2
    exact absurd hclean (field_tells.loud (attempt_some.mp hfield))

theorem addMethod_spans {members found : Members} {isConstructor : Bool} {start : Span}
    {before : List Token} (h : addMethod members isConstructor start cursor = (some found, after))
    (clean : after.Clean)
    (hopen : Spans (.mark .dot ++ .word (if isConstructor then "construct" else "method")) before
      cursor.tokens) : Spans (.rule .member) before after.tokens := by
  simp only [addMethod, bind_some] at h
  obtain ⟨method?, c1, hmethod, h⟩ := h
  cases method? with
  | some method =>
    cases h
    exact (method_spans (attempt_some.mp hmethod) clean hopen).rule (by decide)
  | none =>
    cases h
    exact absurd clean ((method_tells isConstructor start).loud (attempt_some.mp hmethod))

theorem member_spans {members found : Members} (h : member members cursor = (some found, after))
    (clean : after.Clean) : Spans (.rule .member) cursor.tokens after.tokens := by
  simp only [member, bind_some] at h
  obtain ⟨start?, c1, hstart, h⟩ := h
  cases start? with
  | none =>
    have hclean := ((tells_recover.bind fun _ => tells_pure members).clean h clean).2
    exact absurd hclean ((tells_mark _ _).loud (attempt_some.mp hstart))
  | some start =>
    have hdot := mark_spans (attempt_some.mp hstart)
    simp only [bind_some] at h
    obtain ⟨isField, c2, hfield, h⟩ := h
    cases isField with
    | true =>
      obtain ⟨hword, rfl⟩ := accept_true hfield
      exact addField_spans (hdot.seq (peek_word hword)) h clean
    | false =>
      obtain rfl := accept_false hfield
      simp only [Bool.false_eq_true, if_false, bind_some] at h
      obtain ⟨isMethod, c3, hmethod, h⟩ := h
      cases isMethod with
      | true =>
        obtain ⟨hword, rfl⟩ := accept_true hmethod
        exact addMethod_spans h clean (hdot.seq (peek_word hword))
      | false =>
        obtain rfl := accept_false hmethod
        simp only [Bool.false_eq_true, if_false, bind_some] at h
        obtain ⟨isConstructor, c4, hconstruct, h⟩ := h
        cases isConstructor with
        | true =>
          obtain ⟨hword, rfl⟩ := accept_true hconstruct
          exact addMethod_spans h clean (hdot.seq (peek_word hword))
        | false =>
          simp only [Bool.false_eq_true, if_false, bind_some] at h
          obtain ⟨value?, c5, hunexpected, h⟩ := h
          have hclean := ((tells_recover.bind fun _ => tells_pure members).clean
            (bind_some.mpr h) clean).2
          cases hunexpected
          exact absurd hclean ((tells_unexpected _ : (unexpected _ : Parse Unit).Tells).loud rfl)

theorem membersWithin_spans {fuel : Nat} {members found : Members}
    (h : membersWithin fuel members cursor = (some found, after)) (clean : after.Clean) :
    Spans (.many (.rule .member)) cursor.tokens after.tokens := by
  induction fuel generalizing cursor members with
  | zero =>
    cases h
    exact .stop _
  | succ fuel ih =>
    simp only [membersWithin, bind_some] at h
    obtain ⟨looked, c1, hlook, h⟩ := h
    cases hlook
    split at h
    · cases h
      exact .stop _
    · simp only [bind_some] at h
      obtain ⟨members', c2, hmember, h⟩ := h
      have hclean := ((membersWithin_tells fuel members').clean h clean).2
      exact (member_spans hmember hclean).more (ih h)

theorem superclass_spans {found? : Option String} (h : superclass cursor = (some found?, after)) :
    Spans (.opt (.word "extends" ++ Form.name)) cursor.tokens after.tokens := by
  simp only [superclass, bind_some] at h
  obtain ⟨given, c1, haccept, h⟩ := h
  cases given with
  | true =>
    obtain ⟨hword, rfl⟩ := accept_true haccept
    simp only [if_true, bind_some] at h
    obtain ⟨⟨name, span⟩, c2, hname, h⟩ := h
    cases h
    exact ((peek_word hword).seq (name_spans hname).name).take
  | false =>
    obtain rfl := accept_false haccept
    cases h
    exact .skip _ _

theorem classUnit_spans {imports : List String} {found : ClassUnit}
    (h : classUnit imports cursor = (some found, after)) (clean : after.Clean) :
    Spans (.rule .unit) cursor.tokens after.tokens := by
  simp only [classUnit, bind_some] at h
  obtain ⟨access?, c1, haccess, ⟨name, span⟩, c2, hname, super?, c3, hsuper, _, c4, hopen, members, c5,
    hmembers, _, c6, hclose, h⟩ := h
  cases h
  have hclean := ((tells_mark _ _).clean hclose clean).2
  have haccess : Spans (.opt (.rule .access)) cursor.tokens c1.tokens := by
    rcases access_spans haccess with ⟨-, rfl⟩ | ⟨-, hspans⟩
    · exact .skip _ _
    · exact hspans.take
  have hheader := (haccess.seq (name_spans hname).name).seq (superclass_spans hsuper)
  have hbody := (hheader.seq (mark_spans hopen)).seq (membersWithin_spans hmembers hclean)
  exact (hbody.seq (mark_spans hclose)).rule (by decide)

theorem endOfInput_some (h : endOfInput cursor = (some (), after)) (clean : after.Clean) :
    cursor.tokens = [] := by
  simp only [endOfInput, bind_some] at h
  obtain ⟨looked, c1, hlook, h⟩ := h
  cases hlook
  split at h
  · next hdone => simpa [Cursor.tokens, Cursor.isDone] using hdone
  · cases h
    cases clean _ (List.mem_append_right _ (List.mem_singleton_self _))

theorem program_spans {found : ClassUnit} (h : program cursor = (some found, after))
    (silent : after.reports = []) : Spans (.rule .program) cursor.tokens [] := by
  simp only [program, bind_some] at h
  obtain ⟨imports, c1, himports, unit, c2, hunit, _, c3, hend, h⟩ := h
  cases h
  have clean := Cursor.clean_of_nil silent
  have hclean := (endOfInput_tells.clean hend clean).2
  have hclean' := ((classUnit_tells imports).clean hunit hclean).2
  rw [← endOfInput_some hend clean]
  have hunit := classUnit_spans hunit hclean
  exact ((importsWithin_spans himports hclean').seq hunit).rule (by decide)

end Written

/-- Tokens that the parser has nothing to say about are derivable in the grammar of what it takes. -/
theorem parse_derivable {file : Nat} {tokens : List Placed}
    (clear : ∀ placed ∈ tokens, placed.1.isInvalid = false)
    (silent : (parse file tokens).2 = []) :
    Derives lenient (.rule .program) (tokens.map Prod.fst) := by
  obtain ⟨⟨unit, hunit⟩, -⟩ := Written.program_tells.silent (Prod.eta _).symm silent
  have hclear : ∀ token ∈ tokens.map Prod.fst, token.isInvalid = false := by
    simpa only [List.forall_mem_map] using clear
  obtain ⟨taken, htaken, hderives⟩ := Written.program_spans (Prod.ext hunit rfl) silent hclear
  have htokens : tokens.map Prod.fst = taken := by rwa [List.append_nil] at htaken
  exact htokens ▸ hderives

/-- A class with an import, a field and a method that jumps back. -/
def loopTokens : List Token :=
  [.name "import", .name "io", .mark .dot, .name "Pipe", .mark .semicolon,
   .name "public", .name "A", .name "extends", .name "B", .mark .leftBrace,
   .mark .dot, .name "field", .name "private", .name "n", .mark .dot, .name "i32", .mark .semicolon,
   .mark .dot, .name "method", .name "static", .name "f",
   .mark .leftParen, .name "a", .mark .dot, .name "i32",
   .mark .comma, .name "b", .mark .dot, .name "i32", .mark .rightParen,
   .mark .dot, .name "i32", .mark .leftBrace,
   .name "again", .mark .colon,
   .name "if", .mark .leftParen, .param 0, .mark .dot, .name "a", .mark .dot, .name "i32",
   .mark .less, .mark .dot, .name "bool", .name "b", .mark .dot, .name "i32", .mark .rightParen,
   .name "goto", .name "again", .mark .semicolon,
   .name "ret", .mark .dot, .name "i32",
   .mark .minus, .number 1, .mark .dot, .name "i32", .mark .semicolon,
   .mark .rightBrace, .mark .rightBrace]

def loopPlaced : List Placed := loopTokens.map fun token => (token, ⟨0, 0, 0⟩)

theorem parse_derivable_loop :
    (∀ placed ∈ loopPlaced, placed.1.isInvalid = false) ∧ (parse 0 loopPlaced).2 = [] ∧
      (parse 0 loopPlaced).1 ≠ none ∧ Derives lenient (.rule .program) (loopPlaced.map Prod.fst) :=
  ⟨by decide, by decide +kernel, by decide +kernel,
    @parse_derivable 0 loopPlaced (by decide) (by decide +kernel)⟩

-- ---------------------------------------------------------------------------
-- What the documented grammar does not have
-- ---------------------------------------------------------------------------

namespace Grammar

/-- A class with one method, which begins as given and has the given lines. -/
def unitWith (introduction lines : List Token) : List Token :=
  [.name "A", .mark .leftBrace, .mark .dot] ++ introduction
    ++ [.name "f", .mark .leftParen, .mark .rightParen, .mark .dot, .name "V", .mark .leftBrace] ++ lines
    ++ [.mark .rightBrace, .mark .rightBrace]

def i32One : List Token := [.number 1, .mark .dot, .name "i32"]

/-- The length of an array, and then of a second one. -/
def lengthOfTwo : List Token :=
  unitWith [.name "method"] ([.name "arraylength", .mark .leftParen] ++ i32One ++ [.mark .comma] ++ i32One
    ++ [.mark .rightParen, .mark .dot, .name "i32", .mark .semicolon])

/-- A class is returned that is said to be a parameter. -/
def indexedClass : List Token :=
  unitWith [.name "method"]
    [.name "ret", .mark .dot, .name "V", .param 0, .mark .dot, .name "b", .mark .semicolon]

def staticConstructor : List Token := unitWith [.name "construct", .name "static"] []

-- A call of `arraylength` has one number, and the semicolon behind it makes up for it.
def lengthWeight : Token → Int
  | .number _ => 1
  | .mark .semicolon => -1
  | _ => 0

def lengthBound : Rule → Ceiling
  | .element | .call | .rhs => .upTo 1
  | .ty | .typed | .stmt | .body | .params | .method | .member | .unit | .program => .upTo 0
  | _ => .absent

-- An index comes with two dots, its own and that of the type behind the name.
def indexWeight : Token → Int
  | .param _ => 2
  | .mark .dot => -1
  | .mark .leftParen => 2
  | .mark .semicolon => 1
  | _ => 0

def indexBound : Rule → Ceiling
  | .params => .upTo 2
  | .typed => .upTo (-1)
  | .ty | .element | .rhs | .stmt | .body | .method | .member | .unit | .program => .upTo 0
  | _ => .absent

-- The names of a constructor, its own and the word for it, are made up for by the dot before them.
def constructorWeight : Token → Int
  | .name _ => 1
  | .mark .dot => -2
  | .mark .leftParen => 1
  | _ => 0

def constructorBound : Rule → Ceiling
  | .modifier | .ty | .params | .element | .rhs | .unit | .program => .upTo 1
  | .typed => .upTo (-1)
  | .body | .method | .member => .upTo 0
  | _ => .absent

theorem not_derives_lengthOfTwo : ¬ Derives rules (.rule .program) lengthOfTwo := by
  have hbound (rule : Rule) :
      ((rules rule).ceiling lengthOfTwo lengthWeight lengthBound).le (lengthBound rule) = true := by
    cases rule <;> decide
  exact not_derives_of_weight hbound (by decide)

theorem not_derives_indexedClass : ¬ Derives rules (.rule .program) indexedClass := by
  have hbound (rule : Rule) :
      ((rules rule).ceiling indexedClass indexWeight indexBound).le (indexBound rule) = true := by
    cases rule <;> decide
  exact not_derives_of_weight hbound (by decide)

theorem not_derives_staticConstructor : ¬ Derives rules (.rule .program) staticConstructor := by
  have hbound (rule : Rule) :
      ((rules rule).ceiling staticConstructor constructorWeight constructorBound).le
        (constructorBound rule) = true := by
    cases rule <;> decide
  exact not_derives_of_weight hbound (by decide)

end Grammar

/-- The parser has nothing to say about the tokens, and yet they are not in the documented grammar. -/
def BeyondRules (tokens : List Token) : Prop :=
  (∀ token ∈ tokens, token.isInvalid = false) ∧
    (parse 0 (tokens.map fun token => (token, ⟨0, 0, 0⟩))).2 = [] ∧
    ¬ Derives rules (.rule .program) tokens

theorem parse_beyond_rules :
    BeyondRules lengthOfTwo ∧ BeyondRules indexedClass ∧ BeyondRules staticConstructor :=
  ⟨⟨by decide, by decide +kernel, not_derives_lengthOfTwo⟩,
    ⟨by decide, by decide +kernel, not_derives_indexedClass⟩,
    ⟨by decide, by decide +kernel, not_derives_staticConstructor⟩⟩

end ThreeAddress
