import Mathlib.Data.List.TakeWhile
import ThreeAddress.Proofs.Spelling

/-!
# The longest match

Each class of lexemes but the stray ones has a pattern (`Class.Matches`). A text is cut by longest match
if each lexeme is the longest piece at the front of what is left that has a pattern; where no piece has
one, a string that its line does not close is taken up to the end of the line, and any other character by
itself (`Munch`). `lexemes` cuts a text in this way, and there is no other (`munches_iff`).
-/

namespace ThreeAddress

namespace Lexeme

/-- The patterns of the classes. Stray characters have none. -/
def Class.Matches : Class → List Char → Prop
  | .blank, chars => chars ≠ [] ∧ ∀ c ∈ chars, isBlank c = true
  | .comment, chars => ∃ body, chars = '/' :: '/' :: body ∧ ∀ c ∈ body, isLineEnd c = false
  | .mark m, chars => chars = m.text.toList
  | .name, chars => ∃ c rest, chars = c :: rest ∧ isNameStart c = true ∧ ∀ d ∈ rest, isNameChar d = true
  | .param, chars => ∃ digits, chars = '$' :: digits ∧ digits ≠ [] ∧ ∀ d ∈ digits, d.isDigit = true
  | .number, chars => chars ≠ [] ∧ ∀ d ∈ chars, d.isDigit = true
  | .str, chars => ∃ contents, chars = '"' :: (contents ++ ['"']) ∧ ∀ c ∈ contents, isStrChar c = true
  | .stray, _ => False

/-- No piece at the front of the text has a pattern. -/
def Unmatched (text : List Char) : Prop :=
  ∀ (kind : Class) (chars : List Char), chars <+: text → ¬ kind.Matches chars

/-- The lexeme is cut from the front of a text by longest match. The last argument is what is left. -/
inductive Munch (text : List Char) : Lexeme → List Char → Prop
  | longest {lexeme : Lexeme} {rest : List Char} : text = lexeme.chars ++ rest →
    lexeme.kind.Matches lexeme.chars →
    (∀ (kind : Class) (chars : List Char), chars <+: text → kind.Matches chars →
      chars.length ≤ lexeme.chars.length) →
    Munch text lexeme rest
  | unclosed {body rest : List Char} : text = '"' :: (body ++ rest) → (∀ c ∈ body, isStrChar c = true) →
    (∀ c ∈ rest.head?, isLineEnd c = true) → Unmatched text → Munch text ⟨.stray, '"' :: body⟩ rest
  | single {c : Char} {rest : List Char} : text = c :: rest → c ≠ '"' → Unmatched text →
    Munch text ⟨.stray, [c]⟩ rest

/-- The text is cut into the lexemes by longest match. -/
inductive Munches : List Char → List Lexeme → Prop
  | nil : Munches [] []
  | cons {text rest : List Char} {lexeme : Lexeme} {lexemes : List Lexeme} : Munch text lexeme rest →
    Munches rest lexemes → Munches text (lexeme :: lexemes)

variable {c : Char} {rest : List Char}

-- ---------------------------------------------------------------------------
-- What `first` takes
-- ---------------------------------------------------------------------------

theorem first_blank (h : isBlank c = true) :
    first c rest = (⟨.blank, c :: rest.takeWhile isBlank⟩, rest.dropWhile isBlank) := by
  simp only [first, h, if_true]

theorem first_name (h : isNameStart c = true) :
    first c rest = (⟨.name, c :: rest.takeWhile isNameChar⟩, rest.dropWhile isNameChar) := by
  have hblank := not_isBlank_of_isNameChar (isNameChar_of_isNameStart h)
  simp only [first, hblank, h, Bool.false_eq_true, if_false, if_true]

theorem first_number (h : c.isDigit = true) :
    first c rest = (⟨.number, c :: rest.takeWhile Char.isDigit⟩, rest.dropWhile Char.isDigit) := by
  have hblank := not_isBlank_of_isNameChar (isNameChar_of_isDigit h)
  have hname := not_isNameStart_of_isDigit h
  simp only [first, hblank, hname, h, Bool.false_eq_true, if_false, if_true]

/-- A mark of one character is written as that character. -/
theorem text_of_charMark? {m : Mark} (h : charMark? c = some m) : m.text.toList = [c] := by
  unfold charMark? at h
  split at h <;> cases h <;> rfl

theorem text_of_pairMark? {second : Char} {m : Mark} (h : pairMark? c second = some m) :
    m.text.toList = [c, second] := by
  unfold pairMark? at h
  split at h <;> cases h <;> rfl

theorem single_cases (c : Char) :
    (single c).kind.Matches (single c).chars ∨ single c = ⟨.stray, [c]⟩ := by
  unfold single
  split
  · next m hmark => exact .inl (text_of_charMark? hmark).symm
  · exact .inr rfl

theorem forall_mem_takeWhile {p : Char → Bool} (h : p c = true) :
    ∀ d ∈ c :: rest.takeWhile p, p d = true :=
  List.forall_mem_cons.mpr ⟨h, fun _ hd => List.mem_takeWhile_imp hd⟩

/-- Unless it has the pattern of its class, what is taken is a single character or the rest of a line
behind a quote. -/
theorem first_cases (c : Char) (rest : List Char) :
    (first c rest).1.kind.Matches (first c rest).1.chars ∨
      (c ≠ '"' ∧ first c rest = (⟨.stray, [c]⟩, rest)) ∨
      ∃ body rest', c :: rest = '"' :: (body ++ rest') ∧ (∀ d ∈ body, isStrChar d = true) ∧
        (∀ d ∈ rest'.head?, isLineEnd d = true) ∧ first c rest = (⟨.stray, '"' :: body⟩, rest') := by
  generalize hfirst : first c rest = outcome
  unfold first at hfirst
  split at hfirst
  · next hblank =>
    subst hfirst
    exact .inl ⟨List.cons_ne_nil _ _, forall_mem_takeWhile hblank⟩
  split at hfirst
  · next hname =>
    subst hfirst
    exact .inl ⟨c, _, rfl, hname, fun _ hd => List.mem_takeWhile_imp hd⟩
  split at hfirst
  · next hdigit =>
    subst hfirst
    exact .inl ⟨List.cons_ne_nil _ _, forall_mem_takeWhile hdigit⟩
  split at hfirst
  · next hdollar =>
    subst hdollar
    split at hfirst
    · exact .inr (.inl ⟨by decide, hfirst.symm⟩)
    · next digit digits hdigits =>
      subst hfirst
      refine .inl ⟨digit :: digits, rfl, List.cons_ne_nil _ _, fun d hd => ?_⟩
      exact List.mem_takeWhile_imp (hdigits ▸ hd)
  split at hfirst
  · next hquote =>
    subst hquote
    have hbody : ∀ d ∈ rest.takeWhile isStrChar, isStrChar d = true :=
      fun _ hd => List.mem_takeWhile_imp hd
    split at hfirst
    · subst hfirst
      exact .inl ⟨_, rfl, hbody⟩
    · next hopen =>
      refine .inr (.inr ⟨_, _, ?_, hbody, ?_, hfirst.symm⟩)
      · rw [List.takeWhile_append_dropWhile]
      · intro d hd
        -- The first character that cannot stand in a string is no quote here, so the line ends.
        have hnot := List.head?_dropWhile_not isStrChar rest
        rw [Option.mem_def.mp hd] at hnot
        cases hrest : rest.dropWhile isStrChar with
        | nil => simp [hrest] at hd
        | cons e rest' =>
          have hde : e = d := by simpa [hrest] using hd
          subst hde
          have hne : e ≠ '"' := fun heq => hopen rest' (heq ▸ hrest)
          simpa [isStrChar, hne] using hnot
  · next hquote =>
    have hsingle : ((single c).kind.Matches (single c).chars) ∨
        (c ≠ '"' ∧ (single c, rest) = (⟨.stray, [c]⟩, rest)) :=
      (single_cases c).imp_right fun hstray => ⟨hquote, by rw [hstray]⟩
    split at hfirst
    · subst hfirst
      exact hsingle.imp_right .inl
    · next second rest' =>
      split at hfirst
      · next hslashes =>
        obtain ⟨rfl, rfl⟩ := hslashes
        subst hfirst
        refine .inl ⟨_, rfl, fun d hd => ?_⟩
        simpa using List.mem_takeWhile_imp hd
      · split at hfirst
        · next m hpair =>
          subst hfirst
          exact .inl (text_of_pairMark? hpair).symm
        · subst hfirst
          exact hsingle.imp_right .inl

-- ---------------------------------------------------------------------------
-- Nothing longer could have been taken
-- ---------------------------------------------------------------------------

/-- The lexeme is at least as long as a piece of the given class, and of that class if no longer. -/
structure Reaches (lexeme : Lexeme) (kind : Class) (chars : List Char) : Prop where
  kind_ne : lexeme.kind ≠ .stray
  length_le : chars.length ≤ lexeme.chars.length
  kind_eq : chars.length = lexeme.chars.length → lexeme.kind = kind

theorem Reaches.of_length_le {kind : Class} {chars taken : List Char} (hkind : kind ≠ .stray)
    (h : chars.length ≤ taken.length) : Reaches ⟨kind, taken⟩ kind chars :=
  ⟨hkind, h, fun _ => rfl⟩

theorem Reaches.of_length_lt {kind other : Class} {chars taken : List Char} (hkind : other ≠ .stray)
    (h : chars.length < taken.length) : Reaches ⟨other, taken⟩ kind chars :=
  ⟨hkind, Nat.le_of_lt h, fun heq => absurd heq (Nat.ne_of_lt h)⟩

theorem length_le_takeWhile {p : Char → Bool} {more : List Char} (hstarts : more <+: rest)
    (hall : ∀ d ∈ more, p d = true) : more.length ≤ (rest.takeWhile p).length := by
  obtain ⟨tail, rfl⟩ := hstarts
  rw [List.takeWhile_append_of_pos hall, List.length_append]
  exact Nat.le_add_right _ _

/-- A character that is a mark by itself belongs to none of the other classes. -/
theorem plain_of_charMark? {m : Mark} (h : charMark? c = some m) :
    isBlank c = false ∧ isNameStart c = false ∧ c.isDigit = false ∧ c ≠ '$' ∧ c ≠ '"' := by
  unfold charMark? at h
  split at h
  case h_19 => cases h
  all_goals decide

theorem first_charMark {m : Mark} (h : charMark? c = some m) :
    (first c rest).1.Reaches (.mark m) [c] := by
  obtain ⟨hblank, hname, hdigit, hdollar, hquote⟩ := plain_of_charMark? h
  have hsingle : (single c).Reaches (.mark m) [c] := by
    simp only [single, h]
    exact .of_length_le (by rintro ⟨⟩) (Nat.le_refl _)
  simp only [first, hblank, hname, hdigit, hdollar, hquote, Bool.false_eq_true, if_false]
  split
  · exact hsingle
  · split
    · exact .of_length_lt (by rintro ⟨⟩) (by simp)
    · split
      · exact .of_length_lt (by rintro ⟨⟩) (by simp)
      · exact hsingle

theorem first_pairMark {second : Char} {m : Mark} (h : pairMark? c second = some m) :
    first c (second :: rest) = (⟨.mark m, [c, second]⟩, rest) := by
  unfold pairMark? at h
  split at h
  case h_8 => cases h
  all_goals
    cases h
    rfl

theorem charMark?_or_pairMark? (m : Mark) :
    (∃ c, m.text.toList = [c] ∧ charMark? c = some m) ∨
      ∃ c second, m.text.toList = [c, second] ∧ pairMark? c second = some m := by
  cases m with
  | colonEqual | andAnd | orOr | lessEqual | greaterEqual | equalEqual | bangEqual =>
    exact .inr ⟨_, _, rfl, rfl⟩
  | _ => exact .inl ⟨_, rfl, rfl⟩

theorem first_mark {m : Mark} (hstarts : m.text.toList <+: c :: rest) :
    (first c rest).1.Reaches (.mark m) m.text.toList := by
  rcases charMark?_or_pairMark? m with ⟨d, htext, hmark⟩ | ⟨d, second, htext, hmark⟩
  · rw [htext] at hstarts ⊢
    obtain ⟨rfl, -⟩ := List.cons_prefix_cons.mp hstarts
    exact first_charMark hmark
  · rw [htext] at hstarts ⊢
    obtain ⟨rfl, tail, rfl⟩ := List.cons_prefix_cons.mp hstarts
    rw [List.cons_append, first_pairMark hmark]
    exact .of_length_le (by rintro ⟨⟩) (Nat.le_refl _)

theorem first_comment {body : List Char} (hbody : ∀ d ∈ body, isLineEnd d = false) (tail : List Char) :
    (first '/' ('/' :: (body ++ tail))).1.Reaches .comment ('/' :: '/' :: body) := by
  have hfirst : (first '/' ('/' :: (body ++ tail))).1
      = ⟨.comment, '/' :: '/' :: (body ++ tail).takeWhile (!isLineEnd ·)⟩ := rfl
  rw [hfirst]
  refine .of_length_le (by rintro ⟨⟩) (Nat.add_le_add_right (Nat.add_le_add_right ?_ 1) 1)
  exact length_le_takeWhile (List.prefix_append body tail) fun d hd => by simp [hbody d hd]

theorem first_param {digits : List Char} (hne : digits ≠ []) (hdigits : ∀ d ∈ digits, d.isDigit = true)
    (tail : List Char) : (first '$' (digits ++ tail)).1.Reaches .param ('$' :: digits) := by
  have hlength := length_le_takeWhile (List.prefix_append digits tail) hdigits
  cases htaken : (digits ++ tail).takeWhile Char.isDigit with
  | nil =>
    rw [htaken] at hlength
    exact absurd (List.eq_nil_of_length_eq_zero (Nat.le_zero.mp hlength)) hne
  | cons digit more =>
    have hfirst : (first '$' (digits ++ tail)).1 = ⟨.param, '$' :: digit :: more⟩ := by
      unfold first
      rw [if_neg (by decide), if_neg (by decide), if_neg (by decide), if_pos rfl, htaken]
    rw [htaken] at hlength
    rw [hfirst]
    exact .of_length_le (by rintro ⟨⟩) (Nat.succ_le_succ hlength)

theorem first_reaches {kind : Class} {chars : List Char} (hmatches : kind.Matches chars)
    (hstarts : chars <+: c :: rest) : (first c rest).1.Reaches kind chars := by
  cases kind with
  | blank =>
    obtain ⟨hne, hall⟩ := hmatches
    rcases List.prefix_cons_iff.mp hstarts with rfl | ⟨more, rfl, hmore⟩
    · exact absurd rfl hne
    · obtain ⟨hc, hall⟩ := List.forall_mem_cons.mp hall
      rw [first_blank hc]
      exact .of_length_le (by rintro ⟨⟩) (Nat.succ_le_succ (length_le_takeWhile hmore hall))
  | comment =>
    obtain ⟨body, rfl, hbody⟩ := hmatches
    obtain ⟨rfl, tail, rfl⟩ := List.cons_prefix_cons.mp hstarts
    exact first_comment hbody tail
  | mark m =>
    obtain rfl : chars = m.text.toList := hmatches
    exact first_mark hstarts
  | name =>
    obtain ⟨d, more, rfl, hd, hall⟩ := hmatches
    obtain ⟨rfl, hmore⟩ := List.cons_prefix_cons.mp hstarts
    rw [first_name hd]
    exact .of_length_le (by rintro ⟨⟩) (Nat.succ_le_succ (length_le_takeWhile hmore hall))
  | param =>
    obtain ⟨digits, rfl, hne, hdigits⟩ := hmatches
    obtain ⟨rfl, tail, rfl⟩ := List.cons_prefix_cons.mp hstarts
    exact first_param hne hdigits tail
  | number =>
    obtain ⟨hne, hall⟩ := hmatches
    rcases List.prefix_cons_iff.mp hstarts with rfl | ⟨more, rfl, hmore⟩
    · exact absurd rfl hne
    · obtain ⟨hc, hall⟩ := List.forall_mem_cons.mp hall
      rw [first_number hc]
      exact .of_length_le (by rintro ⟨⟩) (Nat.succ_le_succ (length_le_takeWhile hmore hall))
  | str =>
    obtain ⟨contents, rfl, hcontents⟩ := hmatches
    obtain ⟨rfl, tail, rfl⟩ := List.cons_prefix_cons.mp hstarts
    rw [List.append_assoc, List.singleton_append, first_str hcontents]
    exact .of_length_le (by rintro ⟨⟩) (Nat.le_refl _)
  | stray => exact hmatches.elim

-- ---------------------------------------------------------------------------
-- The cut
-- ---------------------------------------------------------------------------

theorem chars_first_starts (c : Char) (rest : List Char) : (first c rest).1.chars <+: c :: rest :=
  ⟨_, chars_first c rest⟩

theorem unmatched_of_stray (h : (first c rest).1.kind = .stray) : Unmatched (c :: rest) :=
  fun _ _ hstarts hmatches => (first_reaches hmatches hstarts).kind_ne h

theorem munch_first (c : Char) (rest : List Char) :
    Munch (c :: rest) (first c rest).1 (first c rest).2 := by
  rcases first_cases c rest with hmatches | ⟨hquote, hfirst⟩ | ⟨body, rest', htext, hbody, hend, hfirst⟩
  · exact .longest (chars_first c rest).symm hmatches
      fun _ _ hstarts hkind => (first_reaches hkind hstarts).length_le
  · have hstray := unmatched_of_stray (congrArg (fun outcome => outcome.1.kind) hfirst)
    rw [hfirst]
    exact .single rfl hquote hstray
  · have hstray := unmatched_of_stray (congrArg (fun outcome => outcome.1.kind) hfirst)
    rw [hfirst]
    exact .unclosed htext hbody hend hstray

theorem matches_first_of_kind_ne (h : (first c rest).1.kind ≠ .stray) :
    (first c rest).1.kind.Matches (first c rest).1.chars := by
  rcases first_cases c rest with hmatches | ⟨-, hfirst⟩ | ⟨_, _, -, -, -, hfirst⟩
  · exact hmatches
  · exact absurd (congrArg (fun outcome => outcome.1.kind) hfirst) h
  · exact absurd (congrArg (fun outcome => outcome.1.kind) hfirst) h

/-- What comes behind the characters of a lexeme is the same if the characters are. -/
theorem eq_of_chars {lexeme : Lexeme} {rest' : List Char} (htext : c :: rest = lexeme.chars ++ rest')
    (hchars : (first c rest).1.chars = lexeme.chars) (hkind : (first c rest).1.kind = lexeme.kind) :
    first c rest = (lexeme, rest') := by
  have hall := chars_first c rest
  rw [htext, hchars] at hall
  refine Prod.ext ?_ (List.append_cancel_left hall)
  show (first c rest).1 = lexeme
  cases hfirst : (first c rest).1
  rw [hfirst] at hchars hkind
  cases hchars
  cases hkind
  rfl

/-- A string that its line does not close ends where the line does. -/
theorem takeWhile_unclosed {body rest' : List Char} (hbody : ∀ d ∈ body, isStrChar d = true)
    (hend : ∀ d ∈ rest'.head?, isLineEnd d = true) : (body ++ rest').takeWhile isStrChar = body := by
  rw [List.takeWhile_append_of_pos hbody]
  cases rest' with
  | nil => exact List.append_nil body
  | cons d rest' =>
    have hd : isStrChar d = false := by simp [isStrChar, hend d rfl]
    simp [hd]

/-- Nothing else can be cut from the front of a text. -/
theorem Munch.first_eq {lexeme : Lexeme} {rest' : List Char} (h : Munch (c :: rest) lexeme rest') :
    first c rest = (lexeme, rest') := by
  cases h with
  | longest htext hmatches hlongest =>
    have hstarts : lexeme.chars <+: c :: rest := ⟨rest', htext.symm⟩
    have hreaches := first_reaches hmatches hstarts
    -- Each of the two pieces is the longest, so they are as long.
    have hlength : lexeme.chars.length = (first c rest).1.chars.length := by
      have hfirst := matches_first_of_kind_ne hreaches.kind_ne
      exact Nat.le_antisymm hreaches.length_le (hlongest _ _ (chars_first_starts c rest) hfirst)
    have hsame := List.prefix_of_prefix_length_le hstarts (chars_first_starts c rest) hreaches.length_le
    exact eq_of_chars htext (hsame.eq_of_length hlength).symm (hreaches.kind_eq hlength)
  | unclosed htext hbody hend hstray =>
    rcases first_cases c rest with hmatches | ⟨hquote, -⟩ | ⟨body', rest'', htext', hbody', hend', hfirst⟩
    · exact absurd hmatches (hstray _ _ (chars_first_starts c rest))
    · exact absurd (List.cons.inj htext).1 hquote
    · have happend := (List.cons.inj (htext.symm.trans htext')).2
      have hsame := congrArg (List.takeWhile isStrChar) happend
      rw [takeWhile_unclosed hbody hend, takeWhile_unclosed hbody' hend'] at hsame
      subst hsame
      rw [hfirst, List.append_cancel_left happend]
  | single htext hquote hstray =>
    obtain ⟨rfl, rfl⟩ := List.cons.inj htext
    rcases first_cases c rest with hmatches | ⟨-, hfirst⟩ | ⟨_, _, htext', -, -, -⟩
    · exact absurd hmatches (hstray _ _ (chars_first_starts c rest))
    · exact hfirst
    · exact absurd (List.cons.inj htext').1 hquote

theorem Class.Matches.ne_nil {kind : Class} {chars : List Char} (h : kind.Matches chars) :
    chars ≠ [] := by
  rintro rfl
  cases kind with
  | mark m => cases m <;> cases h
  | blank | number => exact h.1 rfl
  | comment | param | str =>
    obtain ⟨_, hnil, -⟩ := h
    cases hnil
  | name =>
    obtain ⟨_, _, hnil, -⟩ := h
    cases hnil
  | stray => exact h

theorem not_munch_nil {lexeme : Lexeme} {rest' : List Char} : ¬ Munch [] lexeme rest' := by
  intro h
  cases h with
  | longest htext hmatches _ =>
    exact hmatches.ne_nil (List.append_eq_nil_iff.mp htext.symm).1
  | unclosed htext => cases htext
  | single htext => cases htext

end Lexeme

open Lexeme

theorem munches_lexemes (text : List Char) : Munches text (lexemes text) := by
  fun_induction lexemes text with
  | case1 => exact .nil
  | case2 c rest ih => exact .cons (munch_first c rest) ih

/-- The lexemes of a text are its cut by longest match, and there is only one. -/
theorem munches_iff {text : List Char} {pieces : List Lexeme} :
    Munches text pieces ↔ pieces = lexemes text := by
  constructor
  · intro h
    induction h with
    | nil => rw [lexemes]
    | @cons text rest lexeme pieces hmunch _ ih =>
      cases text with
      | nil => exact absurd hmunch not_munch_nil
      | cons c text => rw [lexemes, hmunch.first_eq, ih]
  · rintro rfl
    exact munches_lexemes text

end ThreeAddress
