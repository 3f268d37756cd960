import ThreeAddress.Proofs.Linked
import ThreeAddress.Written.Program

/-!
# Classes with built methods

Every method of a class that was read from a text was built from a draft (`ClassUnit.built_of_read`), so
what holds of built methods holds of all that the reader accepts.
-/

namespace ThreeAddress

/-- Every method of the class was built from a draft. -/
def ClassUnit.Built (unit : ClassUnit) : Prop :=
  ∀ method ∈ unit.methods, ∃ draft : Draft, draft.build = .ok method

theorem ClassUnit.Built.linked {unit : ClassUnit} (h : unit.Built) :
    ∀ method ∈ unit.methods, method.Linked := by
  intro method hmethod
  obtain ⟨draft, hbuild⟩ := h method hmethod
  exact Draft.linked_of_build hbuild

namespace Written

open Parse

theorem Parse.bind_some {α β : Type} {p : Parse α} {f : α → Parse β} {b : β}
    {cursor cursor' : Cursor} : (p >>= f) cursor = (some b, cursor') ↔
      ∃ a middle, p cursor = (some a, middle) ∧ f a middle = (some b, cursor') := by
  rw [bind_apply]
  obtain ⟨outcome, middle⟩ := p cursor
  cases outcome with
  | none => simp
  | some a =>
    constructor
    · exact fun h => ⟨a, middle, rfl, h⟩
    · rintro ⟨a', middle', heq, h⟩
      cases heq
      exact h

theorem Parse.attempt_some {α : Type} {p : Parse α} {outcome : Option α} {cursor cursor' : Cursor} :
    attempt p cursor = (some outcome, cursor') ↔ p cursor = (outcome, cursor') := by
  simp [attempt, Prod.ext_iff]

variable {cursor cursor' : Cursor}

theorem accept_true {test : Token → Bool} (h : accept test cursor = (some true, cursor')) :
    cursor.peek test = true ∧ cursor' = cursor.advance := by
  unfold accept at h
  split at h
  · next hpeek =>
    cases h
    exact ⟨hpeek, rfl⟩
  · cases h

theorem accept_false {test : Token → Bool} (h : accept test cursor = (some false, cursor')) :
    cursor' = cursor := by
  unfold accept at h
  split at h
  · cases h
  · cases h
    rfl

theorem expect_some {test : Token → Bool} {expected : String} {span : Span}
    (h : expect test expected cursor = (some span, cursor')) :
    cursor.peek test = true ∧ cursor' = cursor.advance := by
  unfold expect at h
  split at h
  · next hpeek =>
    cases h
    exact ⟨hpeek, rfl⟩
  · cases h

theorem build_built {draft : Draft} {header : Span} {found : Method}
    (h : build draft header cursor = (some found, cursor')) : draft.build = .ok found := by
  simp only [build, Parse.bind_some] at h
  obtain ⟨_, _, -, h⟩ := h
  cases hbuilt : draft.build with
  | error fault =>
    rw [hbuilt] at h
    cases h
  | ok built =>
    rw [hbuilt] at h
    cases h
    rfl

theorem method_built {isConstructor : Bool} {start : Span} {found : Method}
    (h : method isConstructor start cursor = (some found, cursor')) :
    ∃ draft : Draft, draft.build = .ok found := by
  simp only [method, Parse.bind_some] at h
  obtain ⟨⟨header, nameSpan⟩, _, -, _, _, -, draft, _, -, _, _, -, hbuild⟩ := h
  exact ⟨draft, build_built hbuild⟩

theorem addField_methods {members members' : Members}
    (h : addField members cursor = (some members', cursor')) : members'.methods = members.methods := by
  simp only [addField, Parse.bind_some] at h
  obtain ⟨field?, _, -, h⟩ := h
  cases field? with
  | some field =>
    cases h
    rfl
  | none =>
    simp only [Parse.bind_some] at h
    obtain ⟨_, _, -, h⟩ := h
    cases h
    rfl

theorem addMethod_methods {before : Cursor} {members members' : Members} {isConstructor : Bool}
    {start : Span} (hsuffix : cursor.rest <:+ before.rest)
    (h : addMethod members isConstructor start cursor = (some members', cursor')) :
    members'.methods = members.methods ∨ ∃ isConstructor start middle found,
      middle.rest <:+ before.rest ∧ method isConstructor start middle = (some found, cursor') ∧
      members'.methods = members.methods ++ [found] := by
  simp only [addMethod, Parse.bind_some, Parse.attempt_some] at h
  obtain ⟨found?, _, hfound, h⟩ := h
  cases found? with
  | none =>
    cases h
    exact .inl rfl
  | some found =>
    cases h
    exact .inr ⟨isConstructor, start, cursor, found, hsuffix, hfound, rfl⟩

/-- A member adds a method, which is read from some place on, or none. -/
theorem member_methods {members members' : Members}
    (h : member members cursor = (some members', cursor')) :
    members'.methods = members.methods ∨ ∃ isConstructor start middle found,
      middle.rest <:+ cursor.rest ∧ method isConstructor start middle = (some found, cursor') ∧
      members'.methods = members.methods ++ [found] := by
  simp only [member, Parse.bind_some] at h
  obtain ⟨start?, _, hstart, h⟩ := h
  cases start? with
  | none =>
    simp only [Parse.bind_some] at h
    obtain ⟨_, _, -, h⟩ := h
    cases h
    exact .inl rfl
  | some start =>
    obtain ⟨-, rfl⟩ := expect_some (Parse.attempt_some.mp hstart)
    have suffix : cursor.advance.advance.rest <:+ cursor.rest :=
      (List.tail_suffix _).trans (List.tail_suffix _)
    simp only [Parse.bind_some] at h
    obtain ⟨isField, _, hfield, h⟩ := h
    cases isField with
    | true => exact .inl (addField_methods h)
    | false =>
      obtain rfl := accept_false hfield
      simp only [Bool.false_eq_true, if_false, Parse.bind_some] at h
      obtain ⟨isMethod, _, haccept, h⟩ := h
      cases isMethod with
      | true =>
        obtain ⟨-, rfl⟩ := accept_true haccept
        exact addMethod_methods suffix h
      | false =>
        obtain rfl := accept_false haccept
        simp only [Bool.false_eq_true, if_false, Parse.bind_some] at h
        obtain ⟨isConstructor, _, haccept, h⟩ := h
        cases isConstructor with
        | true =>
          obtain ⟨-, rfl⟩ := accept_true haccept
          exact addMethod_methods suffix h
        | false =>
          simp only [Bool.false_eq_true, if_false, Parse.bind_some] at h
          obtain ⟨_, _, -, _, _, -, h⟩ := h
          cases h
          exact .inl rfl

/-- Every method read so far was built from a draft. -/
def Members.Built (members : Members) : Prop :=
  ∀ method ∈ members.methods, ∃ draft : Draft, draft.build = .ok method

theorem member_built {members members' : Members} (built : members.Built)
    (h : member members cursor = (some members', cursor')) : members'.Built := by
  unfold Members.Built
  rcases member_methods h with hsame | ⟨_, _, _, found, -, hfound, hmethods⟩
  · rw [hsame]
    exact built
  · rw [hmethods]
    intro method hmethod
    rcases List.mem_append.mp hmethod with hmethod | hmethod
    · exact built method hmethod
    · obtain rfl := List.mem_singleton.mp hmethod
      exact method_built hfound

theorem membersWithin_built {fuel : Nat} {members members' : Members} (built : members.Built)
    (h : membersWithin fuel members cursor = (some members', cursor')) : members'.Built := by
  induction fuel generalizing members cursor with
  | zero =>
    cases h
    exact built
  | succ fuel ih =>
    simp only [membersWithin, Parse.bind_some] at h
    obtain ⟨looked, _, -, h⟩ := h
    split at h
    · cases h
      exact built
    · simp only [Parse.bind_some] at h
      obtain ⟨next, _, hnext, h⟩ := h
      exact ih (member_built built hnext) h

theorem program_built {unit : ClassUnit} (h : program cursor = (some unit, cursor')) : unit.Built := by
  simp only [program, Parse.bind_some] at h
  obtain ⟨imports, _, -, found, _, hunit, _, _, -, h⟩ := h
  cases h
  simp only [classUnit, Parse.bind_some] at hunit
  obtain ⟨_, _, -, ⟨name, _⟩, _, -, _, _, -, _, _, -, members, _, hmembers, _, _, -, hunit⟩ := hunit
  cases hunit
  have none_yet : Members.Built {} := fun _ hmethod => absurd hmethod List.not_mem_nil
  exact membersWithin_built none_yet hmembers

end Written

theorem ClassUnit.built_of_read {file : Nat} {source : String} {unit : ClassUnit}
    (h : (read file source).1 = some unit) : unit.Built := by
  unfold read parse at h
  simp only at h
  split at h
  · cases h
  · exact Written.program_built (Prod.ext h rfl)

end ThreeAddress
