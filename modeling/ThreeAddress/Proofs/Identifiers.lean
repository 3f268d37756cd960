import ThreeAddress.Proofs.Derivable
import ThreeAddress.Proofs.Spelling

/-!
# The names in what is read

The lexer takes for a name what begins with a letter or an underscore and goes on with these or with
digits (`spelled_lex`). So the types of the parameters of a class that was read can be printed, and its
imports are such names with dots between them. `ClassUnit.named_of_read` is the main statement. It is
carried through the reader by what each function leaves of the tokens, so the lemmas from bodies upwards
ask that no error was reported.
-/

namespace ThreeAddress

/-- The token is not an invalid one, and if it is a name, it is spelled like one. -/
def Token.Spelled : Token → Prop
  | .name text => isIdentifier text = true
  | .invalid => False
  | _ => True

-- ---------------------------------------------------------------------------
-- The lexer
-- ---------------------------------------------------------------------------

theorem Lexeme.isIdentifier_first {c : Char} {rest : List Char}
    (h : (first c rest).1.kind = .name) : isIdentifier (String.ofList (first c rest).1.chars) = true := by
  have hsingle : ∀ c, (single c).kind ≠ .name := by
    intro c
    unfold single
    split <;> simp
  unfold first at h ⊢
  split at h
  · cases h
  · next hblank =>
    rw [if_neg hblank]
    split at h
    · next hstart =>
      rw [if_pos hstart]
      simp [isIdentifier, hstart, List.all_takeWhile]
    · split at h
      · cases h
      · split at h
        · split at h <;> cases h
        · split at h
          · split at h <;> cases h
          · split at h
            · exact absurd h (hsingle c)
            · split at h
              · cases h
              · split at h
                · cases h
                · exact absurd h (hsingle c)

theorem isIdentifier_lexemes {chars : List Char} {lexeme : Lexeme} (h : lexeme ∈ lexemes chars)
    (hname : lexeme.kind = .name) : isIdentifier (String.ofList lexeme.chars) = true := by
  fun_induction lexemes chars with
  | case1 => cases h
  | case2 c rest ih =>
    rcases List.mem_cons.mp h with rfl | h
    · exact Lexeme.isIdentifier_first hname
    · exact ih h

/-- A token of the text is one of a lexeme. -/
theorem exists_lexeme_of_mem {file start : Nat} {found : List Lexeme} {placed : Placed}
    (h : placed ∈ (tokensFrom file start found).1) :
    ∃ lexeme ∈ found, ∃ cause?, lexeme.token? = some (placed.1, cause?) := by
  induction found generalizing start with
  | nil => cases h
  | cons lexeme rest ih =>
    simp only [tokensFrom] at h
    cases htoken : lexeme.token? with
    | none =>
      rw [htoken] at h
      obtain ⟨other, hother, hfound⟩ := ih h
      exact ⟨other, List.mem_cons_of_mem _ hother, hfound⟩
    | some pair =>
      obtain ⟨token, cause?⟩ := pair
      rw [htoken] at h
      rcases List.mem_cons.mp h with rfl | h
      · exact ⟨lexeme, List.mem_cons_self, cause?, htoken⟩
      · obtain ⟨other, hother, hfound⟩ := ih h
        exact ⟨other, List.mem_cons_of_mem _ hother, hfound⟩

theorem spelled_lex {file : Nat} {source : String} {placed : Placed}
    (h : placed ∈ (lex file source).1) (valid : placed.1.isInvalid = false) : placed.1.Spelled := by
  obtain ⟨lexeme, hlexeme, cause?, htoken⟩ := exists_lexeme_of_mem h
  obtain ⟨token, span⟩ := placed
  cases token with
  | name name =>
    have hkind : lexeme.kind = .name ∧ String.ofList lexeme.chars = name := by
      unfold Lexeme.token? at htoken
      split at htoken
      · cases htoken
      · cases htoken
      · cases htoken
      · next hkind =>
        cases htoken
        exact ⟨hkind, rfl⟩
      · unfold Lexeme.bounded at htoken
        split at htoken <;> cases htoken
      · unfold Lexeme.bounded at htoken
        split at htoken <;> cases htoken
      · cases htoken
      · cases htoken
    exact hkind.2 ▸ isIdentifier_lexemes hlexeme hkind.1
  | invalid => cases valid
  | _ => trivial

namespace Written

open Parse

variable {cursor after : Cursor}

/-- All tokens ahead are spelled as they should. -/
def Cursor.Spelled (cursor : Cursor) : Prop := ∀ token ∈ cursor.tokens, token.Spelled

theorem Cursor.Spelled.of_spans {form : Grammar.Form} (spelled : cursor.Spelled)
    (h : Spans form cursor.tokens after.tokens) : after.Spelled := by
  have valid : ∀ token ∈ cursor.tokens, token.isInvalid = false := by
    intro token htoken
    cases token with
    | invalid => exact (spelled _ htoken).elim
    | _ => rfl
  obtain ⟨taken, heq, -⟩ := h valid
  exact fun token htoken => spelled token (heq ▸ List.mem_append_right _ htoken)

theorem Cursor.Spelled.of_suffix (spelled : cursor.Spelled) (h : after.rest <:+ cursor.rest) :
    after.Spelled :=
  fun token htoken => spelled token ((h.map Prod.fst).mem htoken)

theorem Cursor.Spelled.advance (spelled : cursor.Spelled) : cursor.advance.Spelled :=
  spelled.of_suffix (List.tail_suffix cursor.rest)

theorem name_spelled {expected text : String} {span : Span} (spelled : cursor.Spelled)
    (h : Parse.name expected cursor = (some (text, span), after)) : isIdentifier text = true := by
  unfold Parse.name at h
  split at h
  · next hrest =>
    cases h
    exact spelled (.name text) (by simp [Cursor.tokens, hrest])
  · cases h

-- ---------------------------------------------------------------------------
-- Parameters
-- ---------------------------------------------------------------------------

theorem isPrintable_ofWord {word : String} (h : isIdentifier word = true) (hne : word ≠ "array") :
    (Ty.ofWord word).isPrintable = true := by
  unfold Ty.ofWord
  split
  · rfl
  · split
    · rfl
    · split
      · rfl
      · split
        · rfl
        · simp [Ty.isPrintable, *]

theorem tyWithin_printable {fuel : Nat} {found : Ty} (spelled : cursor.Spelled)
    (h : tyWithin fuel cursor = (some found, after)) : found.isPrintable = true := by
  induction fuel generalizing cursor found after with
  | zero => cases h
  | succ fuel ih =>
    simp only [tyWithin, bind_some] at h
    obtain ⟨⟨word, span⟩, c1, hname, h⟩ := h
    have hword := name_spelled spelled hname
    split at h
    · simp only [bind_some] at h
      obtain ⟨_, c2, hdot, item, c3, hitem, h⟩ := h
      cases h
      have hspelled := (spelled.of_spans (name_spans hname)).of_spans (mark_spans hdot)
      have hprintable : item.isPrintable = true := ih hspelled hitem
      exact hprintable
    · next hne =>
      cases h
      exact isPrintable_ofWord hword hne

theorem typed_printable {found : Ty} (spelled : cursor.Spelled)
    (h : typed cursor = (some found, after)) : found.isPrintable = true := by
  simp only [typed, bind_some] at h
  obtain ⟨_, c1, hdot, hty⟩ := h
  exact tyWithin_printable (spelled.of_spans (mark_spans hdot)) hty

end Written

/-- The parameters have types that can be printed. -/
def ParamsPrintable (params : List Parameter) : Prop := ∀ param ∈ params, param.ty.isPrintable = true

namespace Written

open Parse

variable {cursor after : Cursor}

theorem printable_addParam {draft : Draft} {name : String} {ty : Ty}
    (printable : ParamsPrintable draft.params) (h : ty.isPrintable = true) :
    ParamsPrintable (draft.addParam name ty).params := by
  intro param hparam
  rcases List.mem_append.mp hparam with hparam | hparam
  · exact printable param hparam
  · obtain rfl := List.mem_singleton.mp hparam
    exact h

theorem paramsWithin_printable {fuel : Nat} {draft found : Draft} (spelled : cursor.Spelled)
    (printable : ParamsPrintable draft.params)
    (h : paramsWithin fuel draft cursor = (some found, after)) : ParamsPrintable found.params := by
  induction fuel generalizing cursor draft with
  | zero => cases h
  | succ fuel ih =>
    simp only [paramsWithin, bind_some] at h
    obtain ⟨⟨name, span⟩, c1, hname, ty, c2, hty, more, c3, haccept, h⟩ := h
    have hnamed := spelled.of_spans (name_spans hname)
    have hadded := @printable_addParam draft name ty printable (typed_printable hnamed hty)
    cases more with
    | true =>
      obtain ⟨-, rfl⟩ := accept_true haccept
      exact ih (hnamed.of_spans (typed_spans hty)).advance hadded h
    | false =>
      cases h
      exact hadded

theorem params_printable {draft found : Draft} (spelled : cursor.Spelled)
    (printable : ParamsPrintable draft.params) (h : params draft cursor = (some found, after)) :
    ParamsPrintable found.params := by
  simp only [params, bind_some] at h
  obtain ⟨_, c1, hparen, looked, c2, hlook, h⟩ := h
  cases hlook
  split at h
  · cases h
    exact printable
  · exact paramsWithin_printable (spelled.of_spans (mark_spans hparen)) printable h

theorem methodHeader_printable {isConstructor : Bool} {found : Draft × Span} (spelled : cursor.Spelled)
    (h : methodHeader isConstructor cursor = (some found, after)) : ParamsPrintable found.1.params := by
  simp only [methodHeader, bind_some] at h
  obtain ⟨mods, c1, hmods, ⟨name, span⟩, c2, hname, draft, c3, hparams, _, c4, -, ret, c5, -, _, c6, -,
    h⟩ := h
  cases h
  have hopen : (openDraft isConstructor name mods).params = [] := by cases isConstructor <;> rfl
  have none : ParamsPrintable (openDraft isConstructor name mods).params := by
    rw [hopen]
    exact fun _ hparam => absurd hparam List.not_mem_nil
  have hnamed := (spelled.of_spans (modifiersWithin_spans hmods)).of_spans (name_spans hname)
  have hfound := params_printable hnamed none hparams
  cases isConstructor <;> exact hfound

theorem params_addLine (draft : Draft) (line : Line) : (addLine draft line).params = draft.params := by
  cases line <;> rfl

theorem bodyWithin_params {fuel : Nat} {draft found : Draft}
    (h : bodyWithin fuel draft cursor = (some found, after)) : found.params = draft.params := by
  induction fuel generalizing cursor draft with
  | zero =>
    cases h
    rfl
  | succ fuel ih =>
    simp only [bodyWithin, bind_some] at h
    obtain ⟨looked, c1, -, h⟩ := h
    split at h
    · cases h
      rfl
    · simp only [bind_some] at h
      obtain ⟨line?, c2, -, h⟩ := h
      cases line? with
      | some line => rw [ih h, params_addLine]
      | none =>
        simp only [bind_some] at h
        obtain ⟨_, c3, -, h⟩ := h
        exact ih h

theorem method_printable {isConstructor : Bool} {start : Span} {found : Method}
    (spelled : cursor.Spelled) (h : method isConstructor start cursor = (some found, after)) :
    ParamsPrintable found.params := by
  simp only [method, bind_some] at h
  obtain ⟨⟨header, span⟩, c1, hheader, _, c2, hmodify, draft, c3, hbody, _, c4, -, hbuild⟩ := h
  obtain ⟨labels, linked, -, -, rfl⟩ := Draft.build_ok (build_built hbuild)
  show ParamsPrintable draft.params
  rw [bodyWithin_params hbody]
  exact methodHeader_printable spelled (orSkipBlock_some hheader)

-- ---------------------------------------------------------------------------
-- Classes
-- ---------------------------------------------------------------------------

theorem membersWithin_printable {fuel : Nat} {members found : Members} (spelled : cursor.Spelled)
    (printable : ∀ method ∈ members.methods, ParamsPrintable method.params)
    (h : membersWithin fuel members cursor = (some found, after)) (clean : after.Clean) :
    ∀ method ∈ found.methods, ParamsPrintable method.params := by
  induction fuel generalizing cursor members with
  | zero =>
    cases h
    exact printable
  | succ fuel ih =>
    simp only [membersWithin, bind_some] at h
    obtain ⟨looked, c1, hlook, h⟩ := h
    cases hlook
    split at h
    · cases h
      exact printable
    · simp only [bind_some] at h
      obtain ⟨members', c2, hmember, h⟩ := h
      have hclean := ((membersWithin_tells fuel members').clean h clean).2
      refine ih (spelled.of_spans (member_spans hmember hclean)) ?_ h
      rcases member_methods hmember with hsame | ⟨_, _, middle, method, hmiddle, hmethod, hadded⟩
      · rw [hsame]
        exact printable
      · rw [hadded, List.forall_mem_append]
        refine ⟨printable, fun other hother => ?_⟩
        obtain rfl := List.mem_singleton.mp hother
        exact method_printable (spelled.of_suffix hmiddle) hmethod

/-- The path is made of name characters and dots. -/
def isDotted (path : String) : Bool := path.toList.all fun c => Lexeme.isNameChar c || c == '.'

theorem isDotted_of_isIdentifier {name : String} (h : isIdentifier name = true) :
    isDotted name = true := by
  unfold isIdentifier at h
  unfold isDotted
  cases hchars : name.toList with
  | nil => rfl
  | cons c rest =>
    rw [hchars, Bool.and_eq_true, List.all_eq_true] at h
    rw [List.all_eq_true]
    intro other hother
    rw [Bool.or_eq_true]
    rcases List.mem_cons.mp hother with rfl | hother
    · exact .inl (isNameChar_of_isNameStart h.1)
    · exact .inl (h.2 other hother)

theorem importPathWithin_dotted {fuel : Nat} {path found : String} (spelled : cursor.Spelled)
    (dotted : isDotted path = true) (h : importPathWithin fuel path cursor = (some found, after)) :
    isDotted found = true := by
  induction fuel generalizing cursor path with
  | zero =>
    cases h
    exact dotted
  | succ fuel ih =>
    simp only [importPathWithin, bind_some] at h
    obtain ⟨more, c1, haccept, h⟩ := h
    cases more with
    | false =>
      cases h
      exact dotted
    | true =>
      obtain ⟨-, rfl⟩ := accept_true haccept
      simp only [if_true, bind_some] at h
      obtain ⟨⟨part, span⟩, c2, hpart, h⟩ := h
      have hpart' := isDotted_of_isIdentifier (name_spelled spelled.advance hpart)
      refine ih (spelled.advance.of_spans (name_spans hpart)) ?_ h
      simp only [isDotted] at dotted hpart' ⊢
      simp [dotted, hpart']

theorem importPath_dotted {found : String} (spelled : cursor.Spelled)
    (h : importPath cursor = (some found, after)) : isDotted found = true := by
  simp only [importPath, bind_some] at h
  obtain ⟨⟨start, span⟩, c1, hstart, path, c2, hpath, _, c3, -, h⟩ := h
  cases h
  exact importPathWithin_dotted (spelled.of_spans (name_spans hstart))
    (isDotted_of_isIdentifier (name_spelled spelled hstart)) hpath

theorem importsWithin_dotted {fuel : Nat} {imports found : List String} (spelled : cursor.Spelled)
    (dotted : ∀ path ∈ imports, isDotted path = true)
    (h : importsWithin fuel imports cursor = (some found, after)) (clean : after.Clean) :
    ∀ path ∈ found, isDotted path = true := by
  induction fuel generalizing cursor imports with
  | zero =>
    cases h
    exact dotted
  | succ fuel ih =>
    simp only [importsWithin, bind_some] at h
    obtain ⟨another, c1, haccept, h⟩ := h
    cases another with
    | false =>
      cases h
      exact dotted
    | true =>
      obtain ⟨hword, rfl⟩ := accept_true haccept
      simp only [if_true, bind_some] at h
      obtain ⟨path?, c2, hpath, h⟩ := h
      cases path? with
      | none =>
        have hclean := ((tells_recover.bind fun _ => importsWithin_tells fuel imports).clean h clean).2
        exact absurd hclean (importPath_tells.loud (attempt_some.mp hpath))
      | some path =>
        have hpath := attempt_some.mp hpath
        refine ih (spelled.of_spans (importPath_spans (peek_word hword) hpath)) ?_ h
        rw [List.forall_mem_append]
        refine ⟨dotted, fun other hother => ?_⟩
        obtain rfl := List.mem_singleton.mp hother
        exact importPath_dotted spelled.advance hpath

end Written

/-- The names of the class that descriptors are made of are spelled like names. -/
structure ClassUnit.Named (unit : ClassUnit) : Prop where
  imports : ∀ path ∈ unit.imports, Written.isDotted path = true
  params : ∀ method ∈ unit.methods, ParamsPrintable method.params

namespace Written

variable {cursor after : Cursor}

theorem program_named {unit : ClassUnit} (spelled : cursor.Spelled)
    (h : program cursor = (some unit, after)) (clean : after.Clean) : unit.Named := by
  simp only [program, Parse.bind_some] at h
  obtain ⟨imports, c1, himports, found, c2, hunit, _, c3, hend, h⟩ := h
  cases h
  have hclean := (endOfInput_tells.clean hend clean).2
  have hclean' := ((classUnit_tells imports).clean hunit hclean).2
  have dotted := importsWithin_dotted spelled (fun _ hpath => absurd hpath List.not_mem_nil) himports
    hclean'
  have hspelled := spelled.of_spans (importsWithin_spans himports hclean')
  simp only [classUnit, Parse.bind_some] at hunit
  obtain ⟨access?, d1, haccess, ⟨name, _⟩, d2, hname, super?, d3, hsuper, _, d4, hopen, members, d5,
    hmembers, _, d6, hclose, hunit⟩ := hunit
  cases hunit
  have haccessed : d1.Spelled := by
    rcases access_spans haccess with ⟨-, rfl⟩ | ⟨-, hspans⟩
    · exact hspelled
    · exact hspelled.of_spans hspans
  have hbody := ((haccessed.of_spans (name_spans hname)).of_spans (superclass_spans hsuper)).of_spans
    (mark_spans hopen)
  exact ⟨dotted, membersWithin_printable hbody (fun _ hmethod => absurd hmethod List.not_mem_nil) hmembers
    ((Parse.tells_mark _ _).clean hclose hclean).2⟩

end Written

theorem ClassUnit.named_of_read {file : Nat} {source : String} {unit : ClassUnit}
    (h : (read file source).1 = some unit) : unit.Named := by
  unfold read parse at h
  simp only at h
  split at h
  · cases h
  · next hnone =>
    simp only [Bool.or_eq_true, List.any_eq_true, not_or, not_exists, not_and,
      Bool.not_eq_true] at hnone
    obtain ⟨valid, clean⟩ := hnone
    refine Written.program_named ?_ (Prod.ext h rfl) clean
    intro token htoken
    obtain ⟨placed, hplaced, rfl⟩ := List.mem_map.mp htoken
    exact spelled_lex hplaced (valid placed hplaced)

end ThreeAddress
