import Mathlib.Data.List.Forall2
import ThreeAddress.Proofs.LongestMatch
import ThreeAddress.Proofs.Reported

/-!
# Every byte of a text is accounted for

The spans of the tokens are pieces of the text in bytes (`textBetween?`), one behind the other. A token
says what stands in its span (`Token.Spells`), and between the spans there are blanks and comments only
(`IsGap`). The induction is over the cut of the text by longest match, from the back: what holds of the
lexemes behind some place (`AccountedFrom`) is kept when one more lexeme comes before them.
`lex_accounted` is the main statement.
-/

namespace ThreeAddress

open Lexeme

-- ---------------------------------------------------------------------------
-- Bytes
-- ---------------------------------------------------------------------------

/-- The text in the bytes of a source from `start` up to and without `stop`, if these make up whole
characters. -/
def textBetween? (source : String) (start stop : Nat) : Option String :=
  String.fromUTF8? (source.toByteArray.extract start stop)

variable {source : String}

theorem textBetween?_eq_some {start stop : Nat} {text : String} :
    textBetween? source start stop = some text ↔
      source.toByteArray.extract start stop = text.toByteArray := by
  unfold textBetween? String.fromUTF8?
  split
  · rw [Option.some_inj, ← String.toByteArray_inj]
    rfl
  · next hinvalid =>
    refine iff_of_false nofun fun heq => hinvalid ?_
    rw [heq]
    exact text.isValidUTF8

theorem textBetween?_append (before text after : String) :
    textBetween? (before ++ text ++ after) before.utf8ByteSize (before.utf8ByteSize + text.utf8ByteSize)
      = some text := by
  have hsize : before.utf8ByteSize + text.utf8ByteSize = (before ++ text).toByteArray.size := by
    rw [String.size_toByteArray, String.utf8ByteSize_append]
  rw [textBetween?_eq_some, String.toByteArray_append, hsize, ByteArray.extract_append_size_left,
    String.toByteArray_append]
  exact ByteArray.extract_append_eq_right rfl ByteArray.size_append

theorem textBetween?_join {start middle stop : Nat} {text rest : String} (hstart : start ≤ middle)
    (hstop : middle ≤ stop) (htext : textBetween? source start middle = some text)
    (hrest : textBetween? source middle stop = some rest) :
    textBetween? source start stop = some (text ++ rest) := by
  rw [textBetween?_eq_some] at *
  rw [ByteArray.extract_eq_extract_append_extract middle hstart hstop, htext, hrest,
    String.toByteArray_append]

theorem textBetween?_empty (source : String) (place : Nat) : textBetween? source place place = some "" := by
  rw [textBetween?_eq_some, ByteArray.extract_same]
  rfl

theorem utf8ByteSize_ofList (chars : List Char) :
    (String.ofList chars).utf8ByteSize = byteLength chars := by
  induction chars with
  | nil => rfl
  | cons c rest ih =>
    rw [String.ofList_cons, String.utf8ByteSize_append, String.utf8ByteSize_singleton, ih]
    rfl

theorem byteLength_append (chars more : List Char) :
    byteLength (chars ++ more) = byteLength chars + byteLength more := by
  rw [← utf8ByteSize_ofList, String.ofList_append, String.utf8ByteSize_append, utf8ByteSize_ofList,
    utf8ByteSize_ofList]

theorem utf8ByteSize_eq (source : String) : source.utf8ByteSize = byteLength source.toList := by
  rw [← utf8ByteSize_ofList, String.ofList_toList]

theorem textBetween?_of_toList {before chars after : List Char}
    (h : source.toList = before ++ chars ++ after) :
    textBetween? source (byteLength before) (byteLength (before ++ chars)) = some (String.ofList chars) := by
  have hsource : source = String.ofList before ++ String.ofList chars ++ String.ofList after := by
    rw [← String.ofList_append, ← String.ofList_append, ← h, String.ofList_toList]
  rw [hsource, byteLength_append, ← utf8ByteSize_ofList, ← utf8ByteSize_ofList]
  exact textBetween?_append _ _ _

/-- What is left behind some characters of the source. -/
theorem textBetween?_rest {before rest : List Char} (h : source.toList = before ++ rest) :
    textBetween? source (byteLength before) source.utf8ByteSize = some (String.ofList rest) := by
  rw [utf8ByteSize_eq, h]
  exact textBetween?_of_toList (h.trans (List.append_nil _).symm)

theorem byteLength_le {before rest : List Char} (h : source.toList = before ++ rest) :
    byteLength before ≤ source.utf8ByteSize := by
  rw [utf8ByteSize_eq, h, byteLength_append]
  exact Nat.le_add_right _ _

-- ---------------------------------------------------------------------------
-- What stands in spans and between them
-- ---------------------------------------------------------------------------

/-- What a token says about the text in its span. A number that is too large makes no token, and neither
does a text without a pattern. -/
def Token.Spells : Token → String → Prop
  | .mark m, text => text = m.text
  | .name word, text => text = word ∧ Lexeme.Class.name.Matches text.toList
  | .param index, text => ∃ digits, text = "$" ++ digits ∧ Lexeme.Class.number.Matches digits.toList ∧
    index = Nat.ofDigitChars 10 digits.toList 0 ∧ index < Nat.pow 2 64
  | .number value, text => Lexeme.Class.number.Matches text.toList ∧
    value = Nat.ofDigitChars 10 text.toList 0 ∧ value < Nat.pow 2 64
  | .str contents, text => text = "\"" ++ contents ++ "\"" ∧ ∀ c ∈ contents.toList, isStrChar c = true
  | .invalid, text => (∀ kind : Lexeme.Class, ¬ kind.Matches text.toList) ∨
    ∃ digits, (text = digits ∨ text = "$" ++ digits) ∧ Lexeme.Class.number.Matches digits.toList ∧
      Nat.pow 2 64 ≤ Nat.ofDigitChars 10 digits.toList 0

/-- The characters are blanks and comments. A comment goes on to the end of its line; `after` is what
comes behind the characters. -/
inductive Skipped (after : List Char) : List Char → Prop
  | nil : Skipped after []
  | blank {piece rest : List Char} : Lexeme.Class.blank.Matches piece → Skipped after rest →
    Skipped after (piece ++ rest)
  | comment {piece rest : List Char} : Lexeme.Class.comment.Matches piece →
    (∀ c ∈ (rest ++ after).head?, isLineEnd c = true) → Skipped after rest → Skipped after (piece ++ rest)

/-- From one byte of the source up to another there are blanks and comments only. -/
def IsGap (source : String) (start stop : Nat) : Prop :=
  start ≤ stop ∧ stop ≤ source.utf8ByteSize ∧ ∃ text after, textBetween? source start stop = some text ∧
    textBetween? source stop source.utf8ByteSize = some after ∧ Skipped after.toList text.toList

/-- What tokens leave open between two bytes: before the first of them, between them and after the
last. -/
def gaps (start finish : Nat) : List Placed → List (Nat × Nat)
  | [] => [(start, finish)]
  | (_, span) :: rest => (start, span.start) :: gaps span.stop finish rest

/-- The tokens and the reports account for all bytes of the source from the given one on. -/
structure AccountedFrom (file : Nat) (source : String) (start : Nat) (tokens : List Placed)
    (reports : List Diagnostic) : Prop where
  file_eq : ∀ placed ∈ tokens, placed.2.file = file
  start_le : ∀ placed ∈ tokens, start ≤ placed.2.start
  nonempty : ∀ placed ∈ tokens, placed.2.start < placed.2.stop
  stop_le : ∀ placed ∈ tokens, placed.2.stop ≤ source.utf8ByteSize
  ascending : tokens.Pairwise fun placed later => placed.2.stop ≤ later.2.start
  isGap : ∀ gap ∈ gaps start source.utf8ByteSize tokens, IsGap source gap.1 gap.2
  spells : ∀ placed ∈ tokens, ∃ text, textBetween? source placed.2.start placed.2.stop = some text ∧
    placed.1.Spells text
  reported : List.Forall₂ (fun placed report => report.isError = true ∧ report.span? = some placed.2)
    (tokens.filter fun placed => placed.1.isInvalid) reports

-- ---------------------------------------------------------------------------
-- One lexeme more
-- ---------------------------------------------------------------------------

theorem isGap_empty {place : Nat} {after : String} (hplace : place ≤ source.utf8ByteSize)
    (hafter : textBetween? source place source.utf8ByteSize = some after) : IsGap source place place :=
  ⟨Nat.le_refl _, hplace, "", after, textBetween?_empty source place, hafter, .nil⟩

/-- A gap begins earlier if what comes before it is skipped, too. -/
theorem IsGap.extend {start middle stop : Nat} {piece rest : String} (hstart : start ≤ middle)
    (hpiece : textBetween? source start middle = some piece)
    (hrest : textBetween? source middle source.utf8ByteSize = some rest)
    (hskip : ∀ {after text : List Char}, rest.toList = text ++ after → Skipped after text →
      Skipped after (piece.toList ++ text)) (h : IsGap source middle stop) : IsGap source start stop := by
  obtain ⟨hle, hstop, text, after, htext, hafter, hskipped⟩ := h
  refine ⟨Nat.le_trans hstart hle, hstop, piece ++ text, after,
    textBetween?_join hstart hle hpiece htext, hafter, ?_⟩
  have hall : some rest = some (text ++ after) := hrest.symm.trans (textBetween?_join hle hstop htext hafter)
  rw [String.toList_append]
  refine hskip ?_ hskipped
  rw [Option.some.inj hall, String.toList_append]

/-- Only the first gap depends on where the tokens begin. -/
theorem forall_gaps {p : Nat × Nat → Prop} {start middle finish : Nat} {tokens : List Placed}
    (hfirst : ∀ stop, p (middle, stop) → p (start, stop))
    (h : ∀ gap ∈ gaps middle finish tokens, p gap) : ∀ gap ∈ gaps start finish tokens, p gap := by
  cases tokens with
  | nil => exact List.forall_mem_singleton.mpr (hfirst finish (h _ (List.mem_singleton_self _)))
  | cons placed rest =>
    obtain ⟨hgap, hrest⟩ := List.forall_mem_cons.mp h
    exact List.forall_mem_cons.mpr ⟨hfirst _ hgap, hrest⟩

namespace AccountedFrom

variable {file start middle : Nat} {tokens : List Placed} {reports : List Diagnostic}

theorem skip (h : AccountedFrom file source middle tokens reports) (hstart : start ≤ middle)
    (hgap : ∀ stop, IsGap source middle stop → IsGap source start stop) :
    AccountedFrom file source start tokens reports :=
  { h with
    start_le := fun placed hplaced => Nat.le_trans hstart (h.start_le placed hplaced)
    isGap := forall_gaps (p := fun gap => IsGap source gap.1 gap.2) hgap h.isGap }

theorem cons {token : Token} {cause? : Option Diagnostic.Cause} {text : String}
    (h : AccountedFrom file source middle tokens reports) (hlt : start < middle)
    (hle : middle ≤ source.utf8ByteSize) (htext : textBetween? source start middle = some text)
    (hgap : IsGap source start start) (hspells : token.Spells text)
    (hcause : token.isInvalid = cause?.isSome ∧ ∀ cause ∈ cause?, cause.severity = .error) :
    let span : Span := { file, start, stop := middle }
    AccountedFrom file source start ((token, span) :: tokens)
      ((cause?.map (Diagnostic.pointing span)).toList ++ reports) where
  file_eq := List.forall_mem_cons.mpr ⟨rfl, h.file_eq⟩
  start_le := List.forall_mem_cons.mpr ⟨Nat.le_refl _, fun placed hplaced =>
    Nat.le_trans (Nat.le_of_lt hlt) (h.start_le placed hplaced)⟩
  nonempty := List.forall_mem_cons.mpr ⟨hlt, h.nonempty⟩
  stop_le := List.forall_mem_cons.mpr ⟨hle, h.stop_le⟩
  ascending := List.pairwise_cons.mpr ⟨h.start_le, h.ascending⟩
  isGap := List.forall_mem_cons.mpr ⟨hgap, h.isGap⟩
  spells := List.forall_mem_cons.mpr ⟨⟨text, htext, hspells⟩, h.spells⟩
  reported := by
    obtain ⟨hinvalid, herror⟩ := hcause
    cases cause? with
    | none =>
      rw [List.filter_cons_of_neg (by simp [hinvalid])]
      exact h.reported
    | some cause =>
      rw [List.filter_cons_of_pos (by simp [hinvalid])]
      exact .cons ⟨by simp [Diagnostic.isError, Diagnostic.pointing, herror cause rfl], rfl⟩ h.reported

end AccountedFrom

-- ---------------------------------------------------------------------------
-- What a lexeme stands for
-- ---------------------------------------------------------------------------

namespace Lexeme

variable {text rest : List Char} {lexeme : Lexeme}

theorem Munch.text_eq (h : Munch text lexeme rest) : text = lexeme.chars ++ rest := by
  cases h with
  | longest htext => exact htext
  | unclosed htext => exact htext
  | single htext => exact htext

theorem Munch.chars_ne_nil (h : Munch text lexeme rest) : lexeme.chars ≠ [] := by
  cases h with
  | longest _ hmatches => exact hmatches.ne_nil
  | unclosed => exact List.cons_ne_nil _ _
  | single => exact List.cons_ne_nil _ _

theorem Munch.kind_eq_or (h : Munch text lexeme rest) :
    lexeme.kind.Matches lexeme.chars ∨ lexeme.kind = .stray ∧ Unmatched text := by
  cases h with
  | longest _ hmatches => exact .inl hmatches
  | unclosed _ _ _ hstray => exact .inr ⟨rfl, hstray⟩
  | single _ _ hstray => exact .inr ⟨rfl, hstray⟩

/-- A comment that could go on does so. -/
theorem Munch.comment_ends (h : Munch text lexeme rest) (hkind : lexeme.kind = .comment) :
    ∀ c ∈ rest.head?, isLineEnd c = true := by
  cases h with
  | longest htext hmatches hlongest =>
    intro c hc
    rw [hkind] at hmatches
    obtain ⟨body, hchars, hbody⟩ := hmatches
    by_contra hnot
    have hstarts : lexeme.chars ++ [c] <+: text := by
      obtain ⟨rest', rfl⟩ := List.head?_eq_some_iff.mp hc
      exact ⟨rest', by simp [htext]⟩
    have hmore : ∀ d ∈ body ++ [c], isLineEnd d = false := by
      intro d hd
      rcases List.mem_append.mp hd with hd | hd
      · exact hbody d hd
      · rw [List.mem_singleton.mp hd]
        exact Bool.eq_false_iff.mpr hnot
    have hlonger := hlongest .comment _ hstarts ⟨body ++ [c], by rw [hchars]; rfl, hmore⟩
    rw [List.length_append] at hlonger
    exact Nat.not_succ_le_self _ hlonger
  | unclosed => cases hkind
  | single => cases hkind

theorem Munch.skipped (h : Munch text lexeme rest) (htoken : lexeme.token? = none)
    {skipped after : List Char} (hrest : rest = skipped ++ after) (hskipped : Skipped after skipped) :
    Skipped after (lexeme.chars ++ skipped) := by
  have hkinds : lexeme.kind = .blank ∨ lexeme.kind = .comment := by
    unfold token? at htoken
    split at htoken
    · next hkind => exact .inl hkind
    · next hkind => exact .inr hkind
    all_goals cases htoken
  rcases h.kind_eq_or with hmatches | ⟨hkind, -⟩
  · rcases hkinds with hkind | hkind
    · exact .blank (hkind ▸ hmatches) hskipped
    · exact .comment (hkind ▸ hmatches) (hrest ▸ h.comment_ends hkind) hskipped
  · rcases hkinds with hother | hother <;> cases hkind.symm.trans hother

/-- Digits make the number that they write if it fits, and nothing else. -/
theorem spells_bounded {chars digits : List Char} {make : Nat → Token} {token : Token}
    {cause? : Option Diagnostic.Cause} {text : String}
    (h : some (bounded chars digits make) = some (token, cause?))
    (hdigits : Lexeme.Class.number.Matches digits)
    (htext : text = String.ofList digits ∨ text = "$" ++ String.ofList digits)
    (hmake : Nat.ofDigitChars 10 digits 0 < Nat.pow 2 64 →
      (make (Nat.ofDigitChars 10 digits 0)).Spells text) : token.Spells text := by
  by_cases hfits : Nat.ofDigitChars 10 digits 0 < Nat.pow 2 64
  · have hbounded : bounded chars digits make = (make (Nat.ofDigitChars 10 digits 0), none) := if_pos hfits
    cases hbounded.symm.trans (Option.some.inj h)
    exact hmake hfits
  · have hbounded : bounded chars digits make = (.invalid, some (.literalRange (String.ofList chars))) :=
      if_neg hfits
    cases hbounded.symm.trans (Option.some.inj h)
    exact .inr ⟨String.ofList digits, htext, by rwa [String.toList_ofList],
      by rw [String.toList_ofList]; exact Nat.le_of_not_lt hfits⟩

theorem Munch.spells (h : Munch text lexeme rest) {token : Token} {cause? : Option Diagnostic.Cause}
    (htoken : lexeme.token? = some (token, cause?)) : token.Spells (String.ofList lexeme.chars) := by
  have htext := h.text_eq
  rcases h.kind_eq_or with hmatches | ⟨hkind, hstray⟩
  · obtain ⟨kind, chars⟩ := lexeme
    cases kind with
    | blank => cases htoken
    | comment => cases htoken
    | stray => exact hmatches.elim
    | mark m =>
      cases htoken
      exact (congrArg String.ofList hmatches).trans String.ofList_toList
    | name =>
      cases htoken
      exact ⟨rfl, by rwa [String.toList_ofList]⟩
    | param =>
      obtain ⟨digits, rfl, hdigits⟩ := hmatches
      have hdollar : String.ofList ('$' :: digits) = "$" ++ String.ofList digits := String.ofList_cons
      have hvalue : Nat.ofDigitChars 10 digits 0 = Nat.ofDigitChars 10 (String.ofList digits).toList 0 := by
        rw [String.toList_ofList]
      refine spells_bounded htoken hdigits (.inr hdollar) fun hfits => ?_
      exact ⟨String.ofList digits, hdollar, by rwa [String.toList_ofList], hvalue, hfits⟩
    | number =>
      refine spells_bounded htoken hmatches (.inl rfl) fun hfits => ?_
      exact ⟨by rwa [String.toList_ofList], by rw [String.toList_ofList], hfits⟩
    | str =>
      obtain ⟨contents, rfl, hcontents⟩ := hmatches
      cases htoken
      rw [List.tail_cons, List.dropLast_concat]
      refine ⟨?_, by rwa [String.toList_ofList]⟩
      rw [String.ofList_cons, String.ofList_append, ← String.append_assoc]
      rfl
  · obtain ⟨kind, chars⟩ := lexeme
    obtain rfl : kind = .stray := hkind
    cases htoken
    refine .inl fun kind => ?_
    rw [String.toList_ofList]
    exact hstray kind chars ⟨rest, htext.symm⟩

end Lexeme

theorem byteLength_pos {chars : List Char} (h : chars ≠ []) : 0 < byteLength chars := by
  cases chars with
  | nil => exact absurd rfl h
  | cons c rest => exact Nat.add_pos_left c.utf8Size_pos _

-- By induction on the cut. `before` is what was cut off already.
theorem accounted_of_munches {file : Nat} {before text : List Char} {pieces : List Lexeme}
    (hsource : source.toList = before ++ text) (h : Munches text pieces) :
    AccountedFrom file source (byteLength before) (tokensFrom file (byteLength before) pieces).1
      (tokensFrom file (byteLength before) pieces).2 := by
  induction h generalizing before with
  | nil =>
    refine ⟨nofun, nofun, nofun, nofun, .nil, List.forall_mem_singleton.mpr ?_, nofun, .nil⟩
    show IsGap source (byteLength before) source.utf8ByteSize
    rw [utf8ByteSize_eq, hsource, List.append_nil]
    exact isGap_empty (byteLength_le hsource) (textBetween?_rest hsource)
  | @cons text rest lexeme pieces hmunch _ ih =>
    obtain rfl := hmunch.text_eq
    have hbehind : source.toList = before ++ lexeme.chars ++ rest := by rw [hsource, List.append_assoc]
    have hpiece := textBetween?_of_toList hbehind
    have hlt : byteLength before < byteLength (before ++ lexeme.chars) := by
      rw [byteLength_append]
      exact Nat.lt_add_of_pos_right (byteLength_pos hmunch.chars_ne_nil)
    have hafter := ih hbehind
    simp only [tokensFrom, ← byteLength_append]
    cases htoken : lexeme.token? with
    | none =>
      refine hafter.skip (Nat.le_of_lt hlt) fun stop hgap =>
        hgap.extend (Nat.le_of_lt hlt) hpiece (textBetween?_rest hbehind) ?_
      intro after skipped hrest hskipped
      rw [String.toList_ofList] at hrest ⊢
      exact hmunch.skipped htoken hrest hskipped
    | some pair =>
      obtain ⟨token, cause?⟩ := pair
      exact hafter.cons hlt (byteLength_le hbehind) hpiece
        (isGap_empty (byteLength_le hsource) (textBetween?_rest hsource)) (hmunch.spells htoken)
        (token?_cause htoken)

/-- There is one cut of the text by longest match, and the tokens and reports are those of its lexemes.
The spans of the tokens are not empty, ascend without overlap and stay within the text. Between them
there are blanks and comments only. The text in a span fixes the token. The reports are one error for
each invalid token, in order and at its span. -/
theorem lex_accounted (file : Nat) (source : String) :
    (∃ pieces, (∀ other, Munches source.toList other ↔ other = pieces) ∧
      lex file source = tokensFrom file 0 pieces) ∧
      AccountedFrom file source 0 (lex file source).1 (lex file source).2 :=
  ⟨⟨lexemes source.toList, fun _ => munches_iff, rfl⟩,
    @accounted_of_munches source file [] _ _ rfl (munches_lexemes source.toList)⟩

end ThreeAddress
