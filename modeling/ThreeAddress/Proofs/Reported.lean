import ThreeAddress.Written.Program

/-!
# Nothing is lost without a word

A parse that fails says so only by yielding nothing, and its caller may well go on. That this never goes
unnoticed is what `Parse.Tells` says: reports are added behind those that are there, and if there is no
value, then an error is among the new ones. One lemma for each function of the reader carries this up to
`program_tells`. A token that could not be made out is reported where it is found
(`any_isInvalid_lex`), so that `read_eq_none_iff` can say: a text has no class exactly if an error was
reported.
-/

namespace ThreeAddress

namespace Written

namespace Parse

variable {α β : Type} {cursor after : Cursor}

/-- The outcome adds to the reports at the cursor, and it adds an error if it has no value. -/
def Told (cursor : Cursor) (outcome : Option α × Cursor) : Prop :=
  ∃ added, outcome.2.reports = cursor.reports ++ added ∧
    (outcome.1 = none → ∃ diagnostic ∈ added, diagnostic.isError = true)

/-- Wherever the parse fails, it reports an error. -/
def Tells (p : Parse α) : Prop := ∀ cursor, Told cursor (p cursor)

theorem told_value (a : α) (h : after.reports = cursor.reports) : Told cursor (some a, after) :=
  ⟨[], by rw [h, List.append_nil], fun hnone => nomatch hnone⟩

theorem Told.trans {a : α} {outcome : Option β × Cursor} (h : Told cursor (some a, after))
    (h' : Told after outcome) : Told cursor outcome := by
  obtain ⟨added, hadded, -⟩ := h
  obtain ⟨more, hmore, herror⟩ := h'
  refine ⟨added ++ more, by rw [hmore, hadded, List.append_assoc], fun hnone => ?_⟩
  obtain ⟨diagnostic, hmem, hdiagnostic⟩ := herror hnone
  exact ⟨diagnostic, List.mem_append_right _ hmem, hdiagnostic⟩

theorem Tells.bind {p : Parse α} {f : α → Parse β} (hp : p.Tells) (hf : ∀ a, (f a).Tells) :
    (p >>= f).Tells := by
  intro cursor
  have htold := hp cursor
  rw [bind_apply]
  generalize p cursor = outcome at htold
  obtain ⟨_ | a, middle⟩ := outcome
  · obtain ⟨added, hadded, herror⟩ := htold
    exact ⟨added, hadded, fun _ => herror rfl⟩
  · exact htold.trans (hf a middle)

theorem Tells.ite {p q : Parse α} {c : Prop} [Decidable c] (hp : p.Tells) (hq : q.Tells) :
    (if c then p else q).Tells := by
  split
  · exact hp
  · exact hq

theorem tells_pure (a : α) : (pure a : Parse α).Tells := fun _ => told_value a rfl

theorem tells_look : look.Tells := fun cursor => told_value cursor rfl

theorem tells_modify {f : Cursor → Cursor} (h : ∀ cursor, (f cursor).reports = cursor.reports) :
    (modify f).Tells :=
  fun cursor => told_value () (h cursor)

theorem tells_advance : advance.Tells := tells_modify fun _ => rfl

theorem tells_recover : recover.Tells := tells_modify fun _ => rfl

theorem tells_report (span : Span) (cause : Diagnostic.Cause) : (report span cause).Tells :=
  fun _ => ⟨[.pointing span cause], rfl, fun hnone => nomatch hnone⟩

theorem tells_failAt (span : Span) {cause : Diagnostic.Cause} (h : cause.severity = .error) :
    (failAt span cause : Parse α).Tells := by
  refine fun cursor => ⟨[.pointing span cause], rfl, fun _ => ⟨_, List.mem_singleton_self _, ?_⟩⟩
  simp [Diagnostic.isError, Diagnostic.pointing, h]

theorem tells_unexpected (expected : String) : (unexpected expected : Parse α).Tells :=
  fun cursor => tells_failAt cursor.span rfl cursor

theorem tells_accept (test : Token → Bool) : (accept test).Tells := by
  intro cursor
  unfold accept
  split
  · exact told_value true rfl
  · exact told_value false rfl

theorem tells_expect (test : Token → Bool) (expected : String) : (expect test expected).Tells := by
  intro cursor
  unfold expect
  split
  · exact told_value _ rfl
  · exact tells_unexpected expected cursor

theorem tells_mark (m : Mark) (expected : String) : (mark m expected).Tells := tells_expect _ _

theorem tells_keyword (word : String) : (keyword word).Tells := tells_expect _ _

-- An invalid token passes for any mark, but it is no name, number or string.
theorem tells_name (expected : String) : (name expected).Tells := by
  intro cursor
  unfold name
  split
  · exact told_value _ rfl
  · exact tells_unexpected expected cursor

theorem tells_number (expected : String) : (number expected).Tells := by
  intro cursor
  unfold number
  split
  · exact told_value _ rfl
  · exact tells_unexpected expected cursor

theorem tells_str (expected : String) : (str expected).Tells := by
  intro cursor
  unfold str
  split
  · exact told_value _ rfl
  · exact tells_unexpected expected cursor

/-- A failure that is handled has still been reported. -/
theorem Tells.attempt {p : Parse α} (h : p.Tells) : (attempt p).Tells := by
  intro cursor
  obtain ⟨added, hadded, -⟩ := h cursor
  exact ⟨added, hadded, fun hnone => nomatch hnone⟩

theorem Tells.withinRest {p : Nat → Parse α} (h : ∀ fuel, (p fuel).Tells) : (withinRest p).Tells :=
  fun cursor => h _ cursor

theorem Tells.orSkipBlock {p : Parse α} (h : p.Tells) : (orSkipBlock p).Tells := by
  intro cursor
  have htold := h cursor
  unfold Parse.orSkipBlock
  generalize p cursor = outcome at htold
  obtain ⟨_ | a, after⟩ := outcome
  · exact htold
  · exact htold

end Parse

open Parse

-- ---------------------------------------------------------------------------
-- Types and elements
-- ---------------------------------------------------------------------------

theorem tyWithin_tells (fuel : Nat) : (tyWithin fuel).Tells := by
  induction fuel with
  | zero => exact tells_unexpected _
  | succ fuel ih =>
    refine (tells_name _).bind ?_
    rintro ⟨word, -⟩
    refine .ite ?_ (tells_pure _)
    exact (tells_mark _ _).bind fun _ => ih.bind fun _ => tells_pure _

theorem ty_tells : ty.Tells := .withinRest tyWithin_tells

theorem typed_tells : typed.Tells := (tells_mark _ _).bind fun _ => ty_tells

theorem literal_tells (negative : Bool) (start : Span) : (literal negative start).Tells := by
  refine (tells_number _).bind ?_
  rintro ⟨magnitude, span⟩
  exact typed_tells.bind fun _ => .ite (tells_pure _) (tells_failAt _ rfl)

theorem receiver_tells : receiver.Tells :=
  tells_look.bind fun _ => .ite (typed_tells.bind fun _ => tells_pure _) (tells_pure _)

theorem paramIndex_tells : paramIndex.Tells :=
  (tells_accept _).bind fun _ => .ite ((tells_mark _ _).bind fun _ => tells_pure _) (tells_pure _)

theorem afterName_tells {index : Parse Element} (h : index.Tells) (name : String) :
    (afterName index name).Tells := by
  refine (tells_accept _).bind fun slot => .ite ?_ ?_
  · exact h.bind fun _ => (tells_mark _ _).bind fun _ => typed_tells.bind fun _ => tells_pure _
  · exact tells_look.bind fun _ => .ite (typed_tells.bind fun _ => tells_pure _) (tells_pure _)

theorem elementWithin_tells (fuel : Nat) : (elementWithin fuel).Tells := by
  induction fuel with
  | zero => exact tells_unexpected _
  | succ fuel ih =>
    refine tells_look.bind fun cursor => .ite ?_ (.ite ?_ (.ite ?_ (.ite ?_ ?_)))
    · exact tells_advance.bind fun _ => literal_tells _ _
    · exact literal_tells _ _
    · exact tells_advance.bind fun _ => typed_tells.bind fun _ => tells_pure _
    · exact tells_advance.bind fun _ => receiver_tells
    · refine paramIndex_tells.bind fun _ => (tells_name _).bind ?_
      rintro ⟨name, -⟩
      exact afterName_tells ih name

theorem element_tells : element.Tells := .withinRest elementWithin_tells

-- ---------------------------------------------------------------------------
-- Lines
-- ---------------------------------------------------------------------------

theorem operator_tells : operator.Tells := by
  intro cursor
  unfold operator
  split
  · split
    · exact told_value _ rfl
    · exact told_value _ rfl
  · exact told_value _ rfl

theorem labelUse_tells : labelUse.Tells := by
  refine (tells_name _).bind ?_
  rintro ⟨label, span⟩
  exact (tells_modify fun _ => rfl).bind fun _ => tells_pure _

theorem labelDefinition_tells : labelDefinition.Tells := by
  refine (tells_name _).bind ?_
  rintro ⟨label, span⟩
  exact tells_advance.bind fun _ => (tells_modify fun _ => rfl).bind fun _ => tells_pure _

theorem getField_tells : getField.Tells :=
  element_tells.bind fun _ => (tells_mark _ _).bind fun _ => element_tells.bind fun _ =>
    (tells_mark _ _).bind fun _ => typed_tells.bind fun _ => tells_pure _

theorem putField_tells : putField.Tells :=
  element_tells.bind fun _ => (tells_mark _ _).bind fun _ => element_tells.bind fun _ =>
    (tells_mark _ _).bind fun _ => element_tells.bind fun _ => (tells_mark _ _).bind fun _ =>
      typed_tells.bind fun _ => tells_pure _

theorem methodName_tells (invocation : Invocation) : (methodName invocation).Tells := by
  have named : (mark .comma "`,` after the call target" >>= fun _ =>
      str "a method name" >>= fun method => pure (some method)).Tells :=
    (tells_mark _ _).bind fun _ => (tells_str _).bind fun _ => tells_pure _
  cases invocation with
  | new => exact tells_pure _
  | arrayLength => exact tells_pure _
  | _ => exact named

theorem argsWithin_tells (fuel : Nat) : (argsWithin fuel).Tells := by
  induction fuel with
  | zero => exact tells_pure _
  | succ fuel ih =>
    refine (tells_accept _).bind fun _ => .ite ?_ (tells_pure _)
    exact element_tells.bind fun _ => ih.bind fun _ => tells_pure _

theorem invocation_tells (kind : Invocation) : (invocation kind).Tells :=
  element_tells.bind fun _ => (methodName_tells kind).bind fun _ =>
    (Tells.withinRest argsWithin_tells).bind fun _ => (tells_mark _ _).bind fun _ =>
      typed_tells.bind fun _ => tells_pure _

theorem call_tells : call.Tells := by
  refine (tells_name _).bind ?_
  rintro ⟨word, span⟩
  refine (tells_mark _ _).bind fun _ => ?_
  split
  · exact invocation_tells _
  · exact .ite getField_tells (.ite putField_tells (tells_failAt _ rfl))

theorem afterOperand_tells (left : Element) : (afterOperand left).Tells := by
  refine operator_tells.bind fun op? => ?_
  cases op? with
  | none => exact tells_pure _
  | some op => exact typed_tells.bind fun _ => element_tells.bind fun _ => tells_pure _

theorem rhs_tells : rhs.Tells := by
  refine (tells_accept _).bind fun _ => .ite ?_ ?_
  · exact typed_tells.bind fun _ => element_tells.bind fun _ => tells_pure _
  · refine tells_look.bind fun _ => .ite call_tells ?_
    exact element_tells.bind fun left => afterOperand_tells left

theorem condition_tells : condition.Tells := by
  refine tells_look.bind fun _ => rhs_tells.bind fun value => ?_
  cases value with
  | element e => exact tells_pure _
  | unary u => exact tells_pure _
  | binary b => exact tells_pure _
  | _ => exact tells_failAt _ rfl

theorem assignment_tells : assignment.Tells := by
  refine tells_look.bind fun _ => element_tells.bind fun dest => ?_
  cases dest.name? with
  | none => exact tells_failAt _ rfl
  | some name =>
    exact (tells_mark _ _).bind fun _ => typed_tells.bind fun _ => rhs_tells.bind fun _ => tells_pure _

theorem jump_tells : jump.Tells :=
  tells_advance.bind fun _ => labelUse_tells.bind fun _ => tells_pure _

theorem branch_tells : branch.Tells :=
  tells_advance.bind fun _ => tells_advance.bind fun _ => condition_tells.bind fun _ =>
    (tells_mark _ _).bind fun _ => (tells_keyword _).bind fun _ => labelUse_tells.bind fun _ =>
      tells_pure _

theorem ret_tells : ret.Tells := by
  refine tells_advance.bind fun _ => typed_tells.bind fun _ => tells_look.bind fun _ => ?_
  exact .ite (tells_pure _) (element_tells.bind fun _ => tells_pure _)

theorem statement_tells : statement.Tells :=
  tells_look.bind fun _ =>
    .ite jump_tells (.ite branch_tells (.ite ret_tells (.ite call_tells assignment_tells)))

theorem line_tells : line.Tells := by
  refine tells_look.bind fun _ => .ite ?_ ?_
  · exact labelDefinition_tells.bind fun _ => tells_pure _
  · exact statement_tells.bind fun _ => (tells_mark _ _).bind fun _ => tells_pure _

-- ---------------------------------------------------------------------------
-- Members
-- ---------------------------------------------------------------------------

theorem access_tells : access.Tells := by
  intro cursor
  unfold access
  split
  · split
    · exact told_value _ rfl
    · exact told_value _ rfl
  · exact told_value _ rfl

theorem modifiersWithin_tells (next : Mark) (fuel : Nat) (modifiers : Modifiers) :
    (modifiersWithin next fuel modifiers).Tells := by
  induction fuel generalizing modifiers with
  | zero => exact tells_pure _
  | succ fuel ih =>
    refine tells_look.bind fun _ => .ite ?_ (tells_pure _)
    refine access_tells.bind fun access? => ?_
    cases access? with
    | some access => exact ih _
    | none =>
      refine (tells_accept _).bind fun _ => .ite (ih _) ?_
      exact (tells_accept _).bind fun _ => .ite (ih _) (tells_pure _)

theorem modifiers_tells (next : Mark) : (modifiers next).Tells :=
  .withinRest fun fuel => modifiersWithin_tells next fuel {}

theorem field_tells : field.Tells := by
  refine (modifiers_tells _).bind fun _ => (tells_name _).bind ?_
  rintro ⟨name, -⟩
  exact typed_tells.bind fun _ => (tells_mark _ _).bind fun _ => tells_pure _

theorem paramsWithin_tells (fuel : Nat) (draft : Draft) : (paramsWithin fuel draft).Tells := by
  induction fuel generalizing draft with
  | zero => exact tells_unexpected _
  | succ fuel ih =>
    refine (tells_name _).bind ?_
    rintro ⟨name, -⟩
    exact typed_tells.bind fun _ => (tells_accept _).bind fun _ => .ite (ih _) (tells_pure _)

theorem params_tells (draft : Draft) : (params draft).Tells :=
  (tells_mark _ _).bind fun _ => tells_look.bind fun _ =>
    .ite (tells_pure _) (.withinRest fun fuel => paramsWithin_tells fuel draft)

theorem methodHeader_tells (isConstructor : Bool) : (methodHeader isConstructor).Tells := by
  refine (modifiers_tells _).bind fun _ => (tells_name _).bind ?_
  rintro ⟨name, span⟩
  exact (params_tells _).bind fun _ => (tells_mark _ _).bind fun _ => typed_tells.bind fun _ =>
    (tells_mark _ _).bind fun _ => tells_pure _

theorem bodyWithin_tells (fuel : Nat) (draft : Draft) : (bodyWithin fuel draft).Tells := by
  induction fuel generalizing draft with
  | zero => exact tells_pure _
  | succ fuel ih =>
    refine tells_look.bind fun _ => .ite (tells_pure _) ?_
    refine line_tells.attempt.bind fun line? => ?_
    cases line? with
    | some line => exact ih _
    | none => exact tells_recover.bind fun _ => ih _

theorem build_tells (draft : Draft) (header : Span) : (build draft header).Tells := by
  refine tells_look.bind fun _ => ?_
  cases draft.build with
  | ok method => exact tells_pure _
  | error fault =>
    refine tells_failAt _ ?_
    cases fault <;> rfl

theorem method_tells (isConstructor : Bool) (start : Span) : (method isConstructor start).Tells := by
  refine (methodHeader_tells _).orSkipBlock.bind ?_
  rintro ⟨draft, nameSpan⟩
  have forgets : (modify fun cursor => { cursor with labels := ∅ }).Tells := tells_modify fun _ => rfl
  refine forgets.bind fun _ => ?_
  refine (Tells.withinRest fun fuel => bodyWithin_tells fuel draft).bind fun _ => ?_
  exact (tells_mark _ _).attempt.bind fun _ => build_tells _ _

-- ---------------------------------------------------------------------------
-- Classes
-- ---------------------------------------------------------------------------

theorem importPathWithin_tells (fuel : Nat) (path : String) : (importPathWithin fuel path).Tells := by
  induction fuel generalizing path with
  | zero => exact tells_pure _
  | succ fuel ih =>
    refine (tells_accept _).bind fun _ => .ite ((tells_name _).bind ?_) (tells_pure _)
    rintro ⟨part, -⟩
    exact ih _

theorem importPath_tells : importPath.Tells := by
  refine (tells_name _).bind ?_
  rintro ⟨start, -⟩
  exact (Tells.withinRest fun fuel => importPathWithin_tells fuel start).bind fun _ =>
    (tells_mark _ _).bind fun _ => tells_pure _

theorem importsWithin_tells (fuel : Nat) (imports : List String) :
    (importsWithin fuel imports).Tells := by
  induction fuel generalizing imports with
  | zero => exact tells_pure _
  | succ fuel ih =>
    refine (tells_accept _).bind fun _ => .ite ?_ (tells_pure _)
    refine importPath_tells.attempt.bind fun path? => ?_
    cases path? with
    | some path => exact ih _
    | none => exact tells_recover.bind fun _ => ih _

theorem addField_tells (members : Members) : (addField members).Tells := by
  refine field_tells.attempt.bind fun field? => ?_
  cases field? with
  | some field => exact tells_pure _
  | none => exact tells_recover.bind fun _ => tells_pure _

theorem addMethod_tells (members : Members) (isConstructor : Bool) (start : Span) :
    (addMethod members isConstructor start).Tells := by
  refine (method_tells _ _).attempt.bind fun method? => ?_
  cases method? with
  | some method => exact tells_pure _
  | none => exact tells_pure _

theorem member_tells (members : Members) : (member members).Tells := by
  refine (tells_mark _ _).attempt.bind fun start? => ?_
  cases start? with
  | none => exact tells_recover.bind fun _ => tells_pure _
  | some start =>
    refine (tells_accept _).bind fun _ => .ite (addField_tells _) ?_
    refine (tells_accept _).bind fun _ => .ite (addMethod_tells _ _ _) ?_
    refine (tells_accept _).bind fun _ => .ite (addMethod_tells _ _ _) ?_
    exact (tells_unexpected _).attempt.bind fun _ => tells_recover.bind fun _ => tells_pure _

theorem membersWithin_tells (fuel : Nat) (members : Members) : (membersWithin fuel members).Tells := by
  induction fuel generalizing members with
  | zero => exact tells_pure _
  | succ fuel ih =>
    refine tells_look.bind fun _ => .ite (tells_pure _) ?_
    exact (member_tells _).bind fun _ => ih _

theorem superclass_tells : superclass.Tells := by
  refine (tells_accept _).bind fun _ => .ite ((tells_name _).bind ?_) (tells_pure _)
  rintro ⟨name, -⟩
  exact tells_pure _

theorem classUnit_tells (imports : List String) : (classUnit imports).Tells := by
  refine access_tells.bind fun _ => (tells_name _).bind ?_
  rintro ⟨name, -⟩
  refine superclass_tells.bind fun _ => (tells_mark _ _).bind fun _ => ?_
  exact (Tells.withinRest fun fuel => membersWithin_tells fuel {}).bind fun _ =>
    (tells_mark _ _).bind fun _ => tells_pure _

theorem endOfInput_tells : endOfInput.Tells :=
  tells_look.bind fun _ => .ite (tells_pure _) (tells_report _ _)

theorem program_tells : program.Tells :=
  (Tells.withinRest fun fuel => importsWithin_tells fuel []).bind fun _ =>
    (classUnit_tells _).bind fun _ => endOfInput_tells.bind fun _ => tells_pure _

end Written

-- ---------------------------------------------------------------------------
-- Texts
-- ---------------------------------------------------------------------------

/-- Exactly the tokens that could not be made out have a cause, which is an error. -/
theorem Lexeme.token?_cause {lexeme : Lexeme} {token : Token} {cause? : Option Diagnostic.Cause}
    (h : lexeme.token? = some (token, cause?)) :
    token.isInvalid = cause?.isSome ∧ ∀ cause ∈ cause?, cause.severity = .error := by
  have hbounded (chars digits : List Char) (make : Nat → Token)
      (hmake : ∀ value, (make value).isInvalid = false) :
      (bounded chars digits make).1.isInvalid = (bounded chars digits make).2.isSome ∧
        ∀ cause ∈ (bounded chars digits make).2, cause.severity = .error := by
    unfold bounded
    split
    · exact ⟨hmake _, fun _ hcause => nomatch hcause⟩
    · exact ⟨rfl, by rintro _ ⟨⟩; rfl⟩
  unfold Lexeme.token? at h
  split at h
  · cases h
  · cases h
  · cases h
    exact ⟨rfl, fun _ hcause => nomatch hcause⟩
  · cases h
    exact ⟨rfl, fun _ hcause => nomatch hcause⟩
  · obtain heq := Option.some.inj h
    simpa [heq] using hbounded lexeme.chars lexeme.chars.tail .param fun _ => rfl
  · obtain heq := Option.some.inj h
    simpa [heq] using hbounded lexeme.chars lexeme.chars .number fun _ => rfl
  · cases h
    exact ⟨rfl, fun _ hcause => nomatch hcause⟩
  · cases h
    exact ⟨rfl, by rintro _ ⟨⟩; rfl⟩

theorem any_isInvalid_tokensFrom (file start : Nat) (lexemes : List Lexeme) :
    (tokensFrom file start lexemes).1.any (fun placed => placed.1.isInvalid)
      = (tokensFrom file start lexemes).2.any Diagnostic.isError := by
  induction lexemes generalizing start with
  | nil => rfl
  | cons lexeme rest ih =>
    simp only [tokensFrom]
    cases htoken : lexeme.token? with
    | none => exact ih _
    | some pair =>
      obtain ⟨token, cause?⟩ := pair
      obtain ⟨hinvalid, herror⟩ := Lexeme.token?_cause htoken
      rw [List.any_cons, List.any_append, ih, hinvalid]
      congr 1
      cases cause? with
      | none => rfl
      | some cause => simp [Diagnostic.isError, Diagnostic.pointing, herror cause rfl]

theorem any_isInvalid_lex (file : Nat) (source : String) :
    (lex file source).1.any (fun placed => placed.1.isInvalid)
      = (lex file source).2.any Diagnostic.isError :=
  any_isInvalid_tokensFrom ..

theorem parse_eq_none {file : Nat} {tokens : List Placed} (h : (parse file tokens).1 = none) :
    (parse file tokens).2.any Diagnostic.isError = true := by
  obtain ⟨added, hadded, herror⟩ := Written.program_tells (.ofTokens file tokens)
  have hreports : (parse file tokens).2 = added := hadded
  rw [hreports, List.any_eq_true]
  exact herror h

theorem isNone_read (file : Nat) (source : String) :
    (read file source).1.isNone = (read file source).2.any Diagnostic.isError := by
  unfold read
  dsimp only
  split
  · next herror => rw [List.any_append, ← any_isInvalid_lex, herror]; rfl
  · next hclean =>
    rw [List.any_append, ← any_isInvalid_lex, Bool.eq_false_iff.mpr hclean, Option.isNone_eq_false_iff,
      Option.isSome_iff_ne_none]
    intro hnone
    rw [parse_eq_none hnone, Bool.or_true] at hclean
    exact hclean rfl

/-- A text has no class exactly if the reader reports an error, and this comes from its tokens or from
their parse. Below that, every function of the reader that yields nothing reports an error of its own,
whatever tokens it is at, invalid ones included. -/
theorem read_eq_none_iff (file : Nat) (source : String) :
    ((read file source).1 = none ↔
      ∃ diagnostic ∈ (lex file source).2 ++ (parse file (lex file source).1).2,
        diagnostic.isError = true) ∧
      (read file source).2 = (lex file source).2 ++ (parse file (lex file source).1).2 ∧
      (∀ imports, (Written.classUnit imports).Tells) ∧ Written.importPath.Tells ∧
      Written.field.Tells ∧ (∀ isConstructor start, (Written.method isConstructor start).Tells) ∧
      Written.line.Tells ∧ Written.element.Tells ∧ Written.ty.Tells := by
  refine ⟨?_, ?_, Written.classUnit_tells, Written.importPath_tells, Written.field_tells,
    Written.method_tells, Written.line_tells, Written.element_tells, Written.ty_tells⟩
  · rw [← List.any_eq_true, List.any_append, ← any_isInvalid_lex]
    unfold read
    dsimp only
    split
    · next herror => exact iff_of_true rfl herror
    · next hclean =>
      refine iff_of_false (fun hnone => ?_) hclean
      rw [parse_eq_none hnone, Bool.or_true] at hclean
      exact hclean rfl
  · unfold read
    dsimp only
    split <;> rfl

end ThreeAddress
