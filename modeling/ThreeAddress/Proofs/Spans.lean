import ThreeAddress.Proofs.Accepted
import ThreeAddress.Proofs.Grammar
import ThreeAddress.Proofs.Reading

/-!
# Which form the reader takes

`Spans` says that the tokens between two places are what a form of the grammar stands for. One lemma for
each function of the reader, here up to the lines of a body, says which form it has taken when it yields
a value. The forms are those of the lenient grammar; the places where the reader goes beyond the
documented one are the branches of `afterName_spans` and `invocation_spans` with a comment.
-/

namespace ThreeAddress

open Grammar

namespace Grammar

/-- The forms between which the alternatives of a form choose. -/
def Form.alternatives : Form → List Form
  | .either first second => first.alternatives ++ second.alternatives
  | form => [form]

theorem Derives.among {grammar : Rule → Form} {form whole : Form} {tokens : List Token}
    (h : Derives grammar form tokens) (hform : form ∈ whole.alternatives) :
    Derives grammar whole tokens := by
  induction whole with
  | either first second ih ih' =>
    rcases List.mem_append.mp hform with hform | hform
    · exact .left (ih hform)
    · exact .right (ih' hform)
  | _ =>
    obtain rfl := List.mem_singleton.mp hform
    exact h

end Grammar

namespace Written

open Parse

/-- If no token is invalid, then what is taken from the first tokens to get to the second ones is what the
form stands for. -/
def Spans (form : Form) (before after : List Token) : Prop :=
  (∀ token ∈ before, token.isInvalid = false) →
    ∃ taken, before = taken ++ after ∧ Derives lenient form taken

namespace Spans

variable {form other whole : Form} {first second third : List Token}

theorem seq (h : Spans form first second) (h' : Spans other second third) :
    Spans (form ++ other) first third := by
  intro clear
  obtain ⟨taken, rfl, hform⟩ := h clear
  obtain ⟨more, rfl, hother⟩ := h' fun token htoken => clear token (List.mem_append_right _ htoken)
  exact ⟨taken ++ more, (List.append_assoc ..).symm, hform.seq hother⟩

theorem imp (h : Spans form first second)
    (himp : ∀ tokens, Derives lenient form tokens → Derives lenient other tokens) :
    Spans other first second := by
  intro clear
  obtain ⟨taken, htaken, hform⟩ := h clear
  exact ⟨taken, htaken, himp taken hform⟩

theorem among (h : Spans form first second) (hform : form ∈ whole.alternatives) :
    Spans whole first second :=
  h.imp fun _ hderives => hderives.among hform

/-- The form is one of those that a name of the grammar can stand for. -/
theorem rule {called : Rule} (h : Spans form first second)
    (hform : form ∈ (lenient called).alternatives) : Spans (.rule called) first second :=
  (h.among hform).imp fun _ => .rule

theorem take (h : Spans form first second) : Spans (.opt form) first second :=
  h.imp fun _ => .take

theorem skip (form : Form) (tokens : List Token) : Spans (.opt form) tokens tokens :=
  fun _ => ⟨[], rfl, .skip⟩

theorem stop (tokens : List Token) : Spans (.many form) tokens tokens :=
  fun _ => ⟨[], rfl, .stop⟩

theorem more (h : Spans form first second) (h' : Spans (.many form) second third) :
    Spans (.many form) first third :=
  (h.seq h').imp fun _ hderives => by
    cases hderives with
    | seq hform hothers => exact .more hform hothers

-- If a token is invalid, nothing is said, so either will do.
theorem many_cases (h : Spans (.many form) first second) :
    first = second ∨ Spans (form ++ .many form) first second := by
  by_cases clear : ∀ token ∈ first, token.isInvalid = false
  · obtain ⟨taken, rfl, hderives⟩ := h clear
    cases hderives with
    | stop => exact .inl rfl
    | more hform hothers => exact .inr fun _ => ⟨_, rfl, hform.seq hothers⟩
  · exact .inr fun hclear => absurd hclear clear

/-- Any word will do for a name. -/
theorem name {text : String} (h : Spans (.word text) first second) : Spans Form.name first second :=
  h.imp fun _ hderives => by
    cases hderives with
    | @terminal _ token hmatches =>
      refine .terminal ?_
      cases token with
      | name found => rfl
      | _ => cases hmatches

end Spans

variable {cursor after : Cursor}

-- ---------------------------------------------------------------------------
-- Single tokens
-- ---------------------------------------------------------------------------

theorem spans_of_peek {test : Token → Bool} {kind : Terminal} (h : cursor.peek test = true)
    (hmatches : ∀ token, token.isInvalid = false → test token = true → kind.matches token = true) :
    Spans (.terminal kind) cursor.tokens cursor.advance.tokens := by
  intro clear
  cases htokens : cursor.tokens with
  | nil =>
    have hnone : cursor.peek test = false := Cursor.peek_eq_false (by simp [htokens])
    rw [h] at hnone
    cases hnone
  | cons token rest =>
    rw [Cursor.peek_eq htokens] at h
    rw [Cursor.tokens_advance htokens]
    exact ⟨[token], rfl, .terminal (hmatches token (clear token (by simp [htokens])) h)⟩

theorem peek_mark {m : Mark} (h : cursor.peek (Token.isMark m) = true) :
    Spans (.mark m) cursor.tokens cursor.advance.tokens := by
  refine spans_of_peek h fun token hvalid hmark => ?_
  cases token with
  | mark found => exact hmark
  | invalid => cases hvalid
  | _ => cases hmark

theorem peek_word {word : String} (h : cursor.peek (Token.isKeyword word) = true) :
    Spans (.word word) cursor.tokens cursor.advance.tokens := by
  refine spans_of_peek h fun token _ hword => ?_
  cases token with
  | name found => exact hword
  | _ => cases hword

theorem peek_param (h : cursor.peek Token.isParam = true) :
    Spans Form.param cursor.tokens cursor.advance.tokens := by
  refine spans_of_peek h fun token hvalid hparam => ?_
  cases token with
  | param index => rfl
  | invalid => cases hvalid
  | _ => cases hparam

theorem peek_advance (cursor : Cursor) (test : Token → Bool) :
    cursor.advance.peek test = cursor.peekNext test := by
  unfold Cursor.peek Cursor.peekNext Cursor.advance
  rcases cursor.rest with _ | ⟨_, _ | _⟩ <;> rfl

theorem mark_spans {m : Mark} {expected : String} {span : Span}
    (h : mark m expected cursor = (some span, after)) :
    Spans (.mark m) cursor.tokens after.tokens := by
  obtain ⟨hpeek, rfl⟩ := expect_some h
  exact peek_mark hpeek

theorem keyword_spans {word : String} {span : Span} (h : keyword word cursor = (some span, after)) :
    Spans (.word word) cursor.tokens after.tokens := by
  obtain ⟨hpeek, rfl⟩ := expect_some h
  exact peek_word hpeek

theorem name_spans {expected name : String} {span : Span}
    (h : Parse.name expected cursor = (some (name, span), after)) :
    Spans (.word name) cursor.tokens after.tokens := by
  unfold Parse.name at h
  split at h
  · next hrest =>
    cases h
    refine peek_word ?_
    simp [Cursor.peek, hrest, Token.isKeyword]
  · cases h

theorem name_some {expected : String} {found : String × Span}
    (h : Parse.name expected cursor = (some found, after)) : after = cursor.advance := by
  unfold Parse.name at h
  split at h
  · cases h
    rfl
  · cases h

theorem number_spans {expected : String} {found : Nat × Span}
    (h : number expected cursor = (some found, after)) :
    Spans Form.number cursor.tokens after.tokens := by
  unfold number at h
  split at h
  · next hrest =>
    cases h
    have hpeek : cursor.peek (Terminal.matches .number) = true := by
      simp [Cursor.peek, hrest, Terminal.matches]
    exact spans_of_peek hpeek fun _ _ hmatches => hmatches
  · cases h

theorem str_spans {expected contents : String} (h : str expected cursor = (some contents, after)) :
    Spans Form.str cursor.tokens after.tokens := by
  unfold Parse.str at h
  split at h
  · next hrest =>
    cases h
    have hpeek : cursor.peek (Terminal.matches .str) = true := by
      simp [Cursor.peek, hrest, Terminal.matches]
    exact spans_of_peek hpeek fun _ _ hmatches => hmatches
  · cases h

-- ---------------------------------------------------------------------------
-- Types and elements
-- ---------------------------------------------------------------------------

theorem tyWithin_spans {fuel : Nat} {found : Ty} (h : tyWithin fuel cursor = (some found, after)) :
    Spans (.rule .ty) cursor.tokens after.tokens := by
  induction fuel generalizing cursor found after with
  | zero => cases h
  | succ fuel ih =>
    simp only [tyWithin, bind_some] at h
    obtain ⟨⟨word, span⟩, c1, hword, h⟩ := h
    have hspans := name_spans hword
    split at h
    · next harray =>
      obtain rfl : word = "array" := harray
      simp only [bind_some] at h
      obtain ⟨_, c2, hdot, item, c3, hitem, h⟩ := h
      cases h
      exact ((hspans.seq (mark_spans hdot)).seq (ih hitem)).rule (by decide)
    · cases h
      exact hspans.name.rule (by decide)

theorem typed_spans {found : Ty} (h : typed cursor = (some found, after)) :
    Spans (.rule .typed) cursor.tokens after.tokens := by
  simp only [typed, bind_some] at h
  obtain ⟨_, c1, hdot, hty⟩ := h
  exact ((mark_spans hdot).seq (tyWithin_spans hty)).rule (by decide)

/-- A number behind what may be its sign. -/
theorem literal_spans {negative : Bool} {start : Span} {found : Element} {before : List Token}
    (hsign : Spans (.opt (.mark .minus)) before cursor.tokens)
    (h : literal negative start cursor = (some found, after)) :
    Spans (.rule .element) before after.tokens := by
  simp only [literal, bind_some] at h
  obtain ⟨⟨magnitude, span⟩, c1, hnumber, ty, c2, hty, h⟩ := h
  have hspans := (hsign.seq (number_spans hnumber)).seq (typed_spans hty)
  by_cases hfits : fitsInt32 (if negative then -(magnitude : Int) else magnitude) = true
  · rw [if_pos hfits] at h
    cases h
    exact hspans.rule (by decide)
  · rw [if_neg hfits] at h
    cases h

theorem receiver_spans {found : Element} {before : List Token}
    (hthis : Spans (.word "this") before cursor.tokens)
    (h : receiver cursor = (some found, after)) : Spans (.rule .element) before after.tokens := by
  simp only [receiver, bind_some] at h
  obtain ⟨looked, c1, hlook, h⟩ := h
  cases hlook
  split at h
  · simp only [bind_some] at h
    obtain ⟨ty, c2, hty, h⟩ := h
    cases h
    exact (hthis.seq (typed_spans hty).take).rule (by decide)
  · cases h
    exact (hthis.seq (.skip (.rule .typed) _)).rule (by decide)

/-- The index of a parameter is there or it is not. -/
theorem paramIndex_spans (h : paramIndex cursor = (some (), after)) :
    Spans (.param ++ .mark .dot) cursor.tokens after.tokens ∨ after = cursor := by
  simp only [paramIndex, bind_some] at h
  obtain ⟨given, c1, haccept, h⟩ := h
  cases given with
  | true =>
    obtain ⟨hparam, rfl⟩ := accept_true haccept
    simp only [if_true, bind_some] at h
    obtain ⟨_, c2, hdot, h⟩ := h
    cases h
    exact .inl ((peek_param hparam).seq (mark_spans hdot))
  | false =>
    cases h
    exact .inr (accept_false haccept)

/-- A name and what comes behind it is an element, also behind the index of a parameter. -/
theorem afterName_spans {index : Parse Element} {name : String} {found : Element}
    {before middle : List Token}
    (hindex : ∀ {cursor after found}, index cursor = (some found, after) →
      Spans (.rule .element) cursor.tokens after.tokens)
    (hparam : Spans (.param ++ .mark .dot) before middle ∨ before = middle)
    (hname : Spans (.word name) middle cursor.tokens)
    (h : afterName index name cursor = (some found, after)) :
    Spans (.rule .element) before after.tokens := by
  have hopen : Spans (.opt (.param ++ .mark .dot) ++ Form.name) before cursor.tokens := by
    rcases hparam with hparam | rfl
    · exact hparam.take.seq hname.name
    · exact (Spans.skip _ _).seq hname.name
  simp only [afterName, bind_some] at h
  obtain ⟨slot, c1, haccept, h⟩ := h
  cases slot with
  | true =>
    obtain ⟨hbracket, rfl⟩ := accept_true haccept
    simp only [if_true, bind_some] at h
    obtain ⟨position, c2, hposition, _, c3, hclose, ty, c4, hty, h⟩ := h
    cases h
    have hslot := ((peek_mark hbracket).seq (hindex hposition)).seq (mark_spans hclose)
    exact ((hopen.seq hslot.take).seq (typed_spans hty)).rule (by decide)
  | false =>
    obtain rfl := accept_false haccept
    simp only [Bool.false_eq_true, if_false, bind_some] at h
    obtain ⟨looked, c2, hlook, h⟩ := h
    cases hlook
    split at h
    · simp only [bind_some] at h
      obtain ⟨ty, c3, hty, h⟩ := h
      cases h
      have hplain := hopen.seq (.skip (.mark .leftBracket ++ .rule .element ++ .mark .rightBracket) _)
      exact (hplain.seq (typed_spans hty)).rule (by decide)
    · cases h
      -- A class is a name by itself, but the reader lets the index of a parameter go before it.
      rcases hparam with hparam | rfl
      · exact (hparam.seq hname.name).rule (by decide)
      · exact hname.name.rule (by decide)

theorem elementWithin_spans {fuel : Nat} {found : Element}
    (h : elementWithin fuel cursor = (some found, after)) :
    Spans (.rule .element) cursor.tokens after.tokens := by
  induction fuel generalizing cursor found after with
  | zero => cases h
  | succ fuel ih =>
    simp only [elementWithin, bind_some] at h
    obtain ⟨looked, c1, hlook, h⟩ := h
    cases hlook
    split at h
    · next hminus =>
      simp only [bind_some] at h
      obtain ⟨_, c2, hadvance, h⟩ := h
      cases hadvance
      exact literal_spans (peek_mark (Bool.and_eq_true_iff.mp hminus).1).take h
    · split at h
      · exact literal_spans (.skip _ _) h
      · split at h
        · next hbool =>
          simp only [bind_some] at h
          obtain ⟨_, c2, hadvance, ty, c3, hty, h⟩ := h
          cases hadvance
          cases h
          have hword : Spans (.word "true" ||| .word "false") cursor.tokens cursor.advance.tokens := by
            rcases Bool.or_eq_true_iff.mp (Bool.and_eq_true_iff.mp hbool).1 with htrue | hfalse
            · exact (peek_word htrue).among (by decide)
            · exact (peek_word hfalse).among (by decide)
          exact (hword.seq (typed_spans hty)).rule (by decide)
        · split at h
          · next hthis =>
            simp only [bind_some] at h
            obtain ⟨_, c2, hadvance, h⟩ := h
            cases hadvance
            exact receiver_spans (peek_word hthis) h
          · simp only [bind_some] at h
            obtain ⟨_, c2, hparam, ⟨name, span⟩, c3, hname, h⟩ := h
            have hbefore : Spans (.param ++ .mark .dot) cursor.tokens c2.tokens
                ∨ cursor.tokens = c2.tokens :=
              (paramIndex_spans hparam).imp_right fun heq => by rw [heq]
            exact afterName_spans ih hbefore (name_spans hname) h

theorem element_spans {found : Element} (h : element cursor = (some found, after)) :
    Spans (.rule .element) cursor.tokens after.tokens :=
  elementWithin_spans h

-- ---------------------------------------------------------------------------
-- Lines
-- ---------------------------------------------------------------------------

theorem mem_alternatives_op {m : Mark} (h : (binaryOperator? (.mark m)).isSome = true) :
    Form.mark m ∈ (lenient .op).alternatives := by
  revert h
  cases m <;> decide

theorem operator_spans {op? : Option Operator} (h : operator cursor = (some op?, after)) :
    (op? = none ∧ after = cursor) ∨ (op? ≠ none ∧ Spans (.rule .op) cursor.tokens after.tokens) := by
  unfold operator at h
  split at h
  · next token span rest hrest =>
    split at h
    · next op hop =>
      cases h
      refine .inr ⟨Option.some_ne_none op, ?_⟩
      cases token with
      | mark m =>
        have hpeek : cursor.peek (Token.isMark m) = true := by
          simp [Cursor.peek, hrest, Token.isMark]
        exact (peek_mark hpeek).rule (mem_alternatives_op (by rw [hop]; rfl))
      | _ => cases hop
    · cases h
      exact .inl ⟨rfl, rfl⟩
  · cases h
    exact .inl ⟨rfl, rfl⟩

theorem labelUse_spans {label : String} (h : labelUse cursor = (some label, after)) :
    Spans Form.name cursor.tokens after.tokens := by
  simp only [labelUse, bind_some] at h
  obtain ⟨⟨name, span⟩, c1, hname, _, c2, hmodify, h⟩ := h
  cases hmodify
  cases h
  exact (name_spans hname).name

theorem getField_spans {found : Statement} {before : List Token}
    (hopen : Spans (.word "getfield" ++ .mark .leftParen) before cursor.tokens)
    (h : getField cursor = (some found, after)) : Spans (.rule .call) before after.tokens := by
  simp only [getField, bind_some] at h
  obtain ⟨object, c1, hobject, _, c2, hcomma, field, c3, hfield, _, c4, hclose, ty, c5, hty, h⟩ := h
  cases h
  have hargs := ((hopen.seq (element_spans hobject)).seq (mark_spans hcomma)).seq (element_spans hfield)
  exact ((hargs.seq (mark_spans hclose)).seq (typed_spans hty)).rule (by decide)

theorem putField_spans {found : Statement} {before : List Token}
    (hopen : Spans (.word "putfield" ++ .mark .leftParen) before cursor.tokens)
    (h : putField cursor = (some found, after)) : Spans (.rule .call) before after.tokens := by
  simp only [putField, bind_some] at h
  obtain ⟨object, c1, hobject, _, c2, hcomma, field, c3, hfield, _, c4, hcomma', value, c5, hvalue,
    _, c6, hclose, ty, c7, hty, h⟩ := h
  cases h
  have hfields := ((hopen.seq (element_spans hobject)).seq (mark_spans hcomma)).seq (element_spans hfield)
  have hargs := (hfields.seq (mark_spans hcomma')).seq (element_spans hvalue)
  exact ((hargs.seq (mark_spans hclose)).seq (typed_spans hty)).rule (by decide)

/-- Arguments, each behind a comma. -/
theorem argsWithin_spans {fuel : Nat} {args : List Element}
    (h : argsWithin fuel cursor = (some args, after)) :
    Spans (.many (.mark .comma ++ .rule .element)) cursor.tokens after.tokens := by
  induction fuel generalizing cursor args with
  | zero =>
    cases h
    exact .stop _
  | succ fuel ih =>
    simp only [argsWithin, bind_some] at h
    obtain ⟨more, c1, haccept, h⟩ := h
    cases more with
    | true =>
      obtain ⟨hcomma, rfl⟩ := accept_true haccept
      simp only [if_true, bind_some] at h
      obtain ⟨arg, c2, harg, args, c3, hargs, h⟩ := h
      cases h
      exact ((peek_mark hcomma).seq (element_spans harg)).more (ih hargs)
    | false =>
      obtain rfl := accept_false haccept
      cases h
      exact .stop _

/-- A call of a method names it behind the target. -/
theorem methodName_spans {kind : Invocation} {name : Option String} {before : List Token}
    {opening : Form} (hkind : kind = .virtual ∨ kind = .static ∨ kind = .special)
    (hopen : Spans opening before cursor.tokens) (h : methodName kind cursor = (some name, after)) :
    Spans (opening ++ .mark .comma ++ Form.str) before after.tokens := by
  rcases hkind with rfl | rfl | rfl
  all_goals
    simp only [methodName, bind_some] at h
    obtain ⟨_, c1, hcomma, contents, c2, hstr, h⟩ := h
    cases h
    exact (hopen.seq (mark_spans hcomma)).seq (str_spans hstr)

theorem methodName_eq {kind : Invocation} {name : Option String}
    (hkind : kind = .new ∨ kind = .arrayLength)
    (h : methodName kind cursor = (some name, after)) : after = cursor := by
  rcases hkind with rfl | rfl
  all_goals
    cases h
    rfl

theorem invocation_spans {kind : Invocation} {found : Statement} {before middle : List Token}
    (hword : Spans (.word kind.text) before middle)
    (hparen : Spans (.mark .leftParen) middle cursor.tokens)
    (h : invocation kind cursor = (some found, after)) : Spans (.rule .call) before after.tokens := by
  simp only [invocation, bind_some] at h
  obtain ⟨target, c1, htarget, name, c2, hname, args, c3, hargs, _, c4, hclose, ret, c5, hret, h⟩ := h
  cases h
  have hargs := argsWithin_spans hargs
  have hclose := mark_spans hclose
  have hret := typed_spans hret
  have named (hkind : kind = .virtual ∨ kind = .static ∨ kind = .special) :
      Spans (.rule .call) before after.tokens := by
    have hwords : Spans (.word "invokevirtual" ||| .word "invokestatic" ||| .word "invokespecial")
        before middle := by
      rcases hkind with rfl | rfl | rfl
      all_goals exact hword.among (by decide)
    have hopen := (hwords.seq hparen).seq (element_spans htarget)
    exact ((((methodName_spans hkind hopen hname).seq hargs).seq hclose).seq hret).rule (by decide)
  cases kind with
  | virtual => exact named (.inl rfl)
  | static => exact named (.inr (.inl rfl))
  | special => exact named (.inr (.inr rfl))
  | new =>
    obtain rfl := methodName_eq (.inl rfl) hname
    have hopen := (hword.seq hparen).seq (element_spans htarget)
    exact (((hopen.seq hargs).seq hclose).seq hret).rule (by decide)
  | arrayLength =>
    obtain rfl := methodName_eq (.inr rfl) hname
    have hopen := (hword.seq hparen).seq (element_spans htarget)
    -- The loop over the arguments is that of the other calls, so there may be more than the array.
    rcases hargs.many_cases with hnone | hsome
    · rw [hnone] at hopen
      exact ((hopen.seq hclose).seq hret).rule (by decide)
    · exact (((hopen.seq hsome).seq hclose).seq hret).rule (by decide)

theorem call_spans {found : Statement} (h : call cursor = (some found, after)) :
    Spans (.rule .call) cursor.tokens after.tokens := by
  simp only [call, bind_some] at h
  obtain ⟨⟨word, span⟩, c1, hword, _, c2, hparen, h⟩ := h
  have hword := name_spans hword
  have hparen := mark_spans hparen
  cases hkind : Invocation.ofText? word with
  | some kind =>
    simp only [hkind] at h
    have htext : kind.text = word := by simpa using List.find?_some hkind
    exact invocation_spans (htext ▸ hword) hparen h
  | none =>
    simp only [hkind] at h
    split at h
    · next hget =>
      obtain rfl : word = "getfield" := hget
      exact getField_spans (hword.seq hparen) h
    · split at h
      · next hput =>
        obtain rfl : word = "putfield" := hput
        exact putField_spans (hword.seq hparen) h
      · cases h

theorem afterOperand_spans {left : Element} {found : Statement} {before : List Token}
    (hleft : Spans (.rule .element) before cursor.tokens)
    (h : afterOperand left cursor = (some found, after)) : Spans (.rule .rhs) before after.tokens := by
  simp only [afterOperand, bind_some] at h
  obtain ⟨op?, c1, hop, h⟩ := h
  rcases operator_spans hop with ⟨rfl, rfl⟩ | ⟨hsome, hspans⟩
  · cases h
    exact (hleft.seq (.skip (.rule .op ++ .rule .typed ++ .rule .element) _)).rule (by decide)
  · cases op? with
    | none => exact absurd rfl hsome
    | some op =>
      simp only [bind_some] at h
      obtain ⟨ty, c2, hty, right, c3, hright, h⟩ := h
      cases h
      have hmore := (hspans.seq (typed_spans hty)).seq (element_spans hright)
      exact (hleft.seq hmore.take).rule (by decide)

theorem rhs_spans {found : Statement} (h : rhs cursor = (some found, after)) :
    Spans (.rule .rhs) cursor.tokens after.tokens := by
  simp only [rhs, bind_some] at h
  obtain ⟨negated, c1, haccept, h⟩ := h
  cases negated with
  | true =>
    obtain ⟨hbang, rfl⟩ := accept_true haccept
    simp only [if_true, bind_some] at h
    obtain ⟨ty, c2, hty, operand, c3, hoperand, h⟩ := h
    cases h
    exact (((peek_mark hbang).seq (typed_spans hty)).seq (element_spans hoperand)).rule (by decide)
  | false =>
    obtain rfl := accept_false haccept
    simp only [Bool.false_eq_true, if_false, bind_some] at h
    obtain ⟨looked, c2, hlook, h⟩ := h
    cases hlook
    split at h
    · exact (call_spans h).rule (by decide)
    · simp only [bind_some] at h
      obtain ⟨left, c3, hleft, h⟩ := h
      exact afterOperand_spans (element_spans hleft) h

theorem condition_spans {found : Condition} (h : condition cursor = (some found, after)) :
    Spans (.rule .rhs) cursor.tokens after.tokens := by
  simp only [condition, bind_some] at h
  obtain ⟨looked, c1, hlook, value, c2, hvalue, h⟩ := h
  cases hlook
  have hspans := rhs_spans hvalue
  cases value with
  | element e =>
    cases h
    exact hspans
  | unary u =>
    cases h
    exact hspans
  | binary b =>
    cases h
    exact hspans
  | _ => cases h

/-- A statement is a line once its semicolon is there. -/
theorem statement_spans {found : Statement} {last : List Token}
    (h : statement cursor = (some found, after))
    (hend : Spans (.mark .semicolon) after.tokens last) :
    Spans (.rule .stmt) cursor.tokens last := by
  simp only [statement, bind_some] at h
  obtain ⟨looked, c1, hlook, h⟩ := h
  cases hlook
  split at h
  · next hgoto =>
    simp only [jump, bind_some] at h
    obtain ⟨_, c2, hadvance, label, c3, hlabel, h⟩ := h
    cases hadvance
    cases h
    have hword := peek_word (Bool.and_eq_true_iff.mp hgoto).1
    exact ((hword.seq (labelUse_spans hlabel)).seq hend).rule (by decide)
  · split at h
    · next hif =>
      simp only [branch, bind_some] at h
      obtain ⟨_, c2, hadvance, _, c3, hadvance', value, c4, hvalue, _, c5, hclose, _, c6, hgoto,
        label, c7, hlabel, h⟩ := h
      cases hadvance
      cases hadvance'
      cases h
      obtain ⟨hif, hparen⟩ := Bool.and_eq_true_iff.mp hif
      rw [← peek_advance] at hparen
      have hopen := ((peek_word hif).seq (peek_mark hparen)).seq (condition_spans hvalue)
      have hjump := (hopen.seq (mark_spans hclose)).seq (keyword_spans hgoto)
      exact ((hjump.seq (labelUse_spans hlabel)).seq hend).rule (by decide)
    · split at h
      · next hret =>
        simp only [ret, bind_some] at h
        obtain ⟨_, c2, hadvance, ty, c3, hty, looked, c4, hlook, h⟩ := h
        cases hadvance
        cases hlook
        have hopen := (peek_word (Bool.and_eq_true_iff.mp hret).1).seq (typed_spans hty)
        split at h
        · cases h
          exact ((hopen.seq (.skip (.rule .element) _)).seq hend).rule (by decide)
        · simp only [bind_some] at h
          obtain ⟨value, c5, hvalue, h⟩ := h
          cases h
          exact ((hopen.seq (element_spans hvalue).take).seq hend).rule (by decide)
      · split at h
        · exact ((call_spans h).seq hend).rule (by decide)
        · simp only [assignment, bind_some] at h
          obtain ⟨looked, c2, hlook, dest, c3, hdest, h⟩ := h
          cases hlook
          cases hname : dest.name? with
          | none =>
            simp only [hname] at h
            cases h
          | some target =>
            simp only [hname, bind_some] at h
            obtain ⟨_, c4, hassign, ty, c5, hty, value, c6, hvalue, h⟩ := h
            cases h
            have hopen := ((element_spans hdest).seq (mark_spans hassign)).seq (typed_spans hty)
            exact ((hopen.seq (rhs_spans hvalue)).seq hend).rule (by decide)

theorem line_spans {found : Line} (h : line cursor = (some found, after)) :
    Spans (.rule .stmt) cursor.tokens after.tokens := by
  simp only [line, bind_some] at h
  obtain ⟨looked, c1, hlook, h⟩ := h
  cases hlook
  split at h
  · next hlabel =>
    simp only [labelDefinition, bind_some] at h
    obtain ⟨label, c2, ⟨⟨name, span⟩, c3, hname, _, c4, hadvance, _, c5, hmodify, hlast⟩, h⟩ := h
    cases hadvance
    cases hmodify
    cases hlast
    cases h
    have hcolon := (Bool.and_eq_true_iff.mp hlabel).2
    rw [← peek_advance, ← name_some hname] at hcolon
    exact ((name_spans hname).name.seq (peek_mark hcolon)).rule (by decide)
  · simp only [bind_some] at h
    obtain ⟨found, c2, hstatement, _, c3, hend, h⟩ := h
    cases h
    exact statement_spans hstatement (mark_spans hend)

end Written

end ThreeAddress
