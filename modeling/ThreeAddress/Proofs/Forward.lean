import ThreeAddress.Proofs.Spans

/-!
# What readers move past

A parse never goes back, and whether it yields a value or not, it moves only past tokens of a certain sort
(`Parse.Takes`). One lemma for each function of the reader says which. Up to a statement without its `;`
the sort is that of the tokens that neither end a statement nor close a block (`Token.Inner`), also if
invalid tokens are among them; from there on it is only said that the parse never goes back (`Onward`).
-/

namespace ThreeAddress

/-- The token neither ends a statement nor closes a block. -/
def Token.Inner (token : Token) : Prop := token ≠ .mark .semicolon ∧ token ≠ .mark .rightBrace

instance (token : Token) : Decidable token.Inner := inferInstanceAs (Decidable (_ ∧ _))

namespace Written

/-- No token closes a block, and none but the last ends a statement. -/
def WithinStatement (taken : List Placed) : Prop :=
  (∀ placed ∈ taken, placed.1 ≠ .mark .rightBrace) ∧
    ∀ placed ∈ taken.dropLast, placed.1 ≠ .mark .semicolon

theorem WithinStatement.append {inner last : List Placed} (hinner : ∀ placed ∈ inner, placed.1.Inner)
    (hlast : WithinStatement last) : WithinStatement (inner ++ last) := by
  refine ⟨List.forall_mem_append.mpr ⟨fun placed hplaced => (hinner placed hplaced).2, hlast.1⟩, ?_⟩
  by_cases hnil : last = []
  · rw [hnil, List.append_nil]
    exact fun placed hplaced => (hinner placed ((List.dropLast_sublist _).subset hplaced)).1
  · rw [List.dropLast_append_of_ne_nil hnil]
    exact List.forall_mem_append.mpr ⟨fun placed hplaced => (hinner placed hplaced).1, hlast.2⟩

namespace Parse

variable {α β : Type} {sort : Token → Prop} {cursor after : Cursor}

/-- The outcome is further on than the cursor by tokens of the given sort. -/
def Took (sort : Token → Prop) (cursor : Cursor) (outcome : Option α × Cursor) : Prop :=
  ∃ taken, cursor.rest = taken ++ outcome.2.rest ∧ ∀ placed ∈ taken, sort placed.1

/-- Wherever it starts, and also if it fails, the parse moves past tokens of the given sort only. -/
def Takes (sort : Token → Prop) (p : Parse α) : Prop := ∀ cursor, Took sort cursor (p cursor)

theorem Took.trans {value? : Option α} {outcome : Option β × Cursor} (h : Took sort cursor (value?, after))
    (h' : Took sort after outcome) : Took sort cursor outcome := by
  obtain ⟨taken, htaken, hsort⟩ := h
  obtain ⟨more, hmore, hsort'⟩ := h'
  refine ⟨taken ++ more, ?_, List.forall_mem_append.mpr ⟨hsort, hsort'⟩⟩
  rw [htaken, List.append_assoc]
  exact congrArg (taken ++ ·) hmore

theorem Took.mono {wider : Token → Prop} (hwider : ∀ token, sort token → wider token)
    {outcome : Option α × Cursor} (h : Took sort cursor outcome) : Took wider cursor outcome := by
  obtain ⟨taken, htaken, hsort⟩ := h
  exact ⟨taken, htaken, fun placed hplaced => hwider _ (hsort placed hplaced)⟩

theorem Took.bind {p : Parse α} {f : α → Parse β} (hp : Took sort cursor (p cursor))
    (hf : ∀ a middle, p cursor = (some a, middle) → Took sort middle (f a middle)) :
    Took sort cursor ((p >>= f) cursor) := by
  rw [bind_apply]
  generalize p cursor = outcome at hp hf
  obtain ⟨_ | a, middle⟩ := outcome
  · exact hp
  · exact hp.trans (hf a middle rfl)

theorem Took.ite {p q : Parse α} {c : Prop} [Decidable c] (hp : c → Took sort cursor (p cursor))
    (hq : ¬ c → Took sort cursor (q cursor)) : Took sort cursor ((if c then p else q) cursor) := by
  split
  · next h => exact hp h
  · next h => exact hq h

theorem Takes.bind {p : Parse α} {f : α → Parse β} (hp : p.Takes sort) (hf : ∀ a, (f a).Takes sort) :
    (p >>= f).Takes sort :=
  fun cursor => (hp cursor).bind fun a middle _ => hf a middle

theorem Takes.ite {p q : Parse α} {c : Prop} [Decidable c] (hp : p.Takes sort) (hq : q.Takes sort) :
    (if c then p else q).Takes sort :=
  fun cursor => .ite (fun _ => hp cursor) fun _ => hq cursor

theorem Takes.attempt {p : Parse α} (h : p.Takes sort) : (attempt p).Takes sort := h

theorem Takes.withinRest {p : Nat → Parse α} (h : ∀ fuel, (p fuel).Takes sort) :
    (withinRest p).Takes sort :=
  fun cursor => h _ cursor

theorem Took.length_le {outcome : Option α × Cursor} (h : Took sort cursor outcome) :
    outcome.2.rest.length ≤ cursor.rest.length := by
  obtain ⟨taken, htaken, -⟩ := h
  rw [htaken, List.length_append]
  exact Nat.le_add_left _ _

/-- The parse never goes back, whatever it moves past. -/
abbrev Onward (p : Parse α) : Prop := p.Takes fun _ => True

theorem Takes.onward {p : Parse α} (h : p.Takes sort) : p.Onward :=
  fun cursor => (h cursor).mono fun _ _ => trivial

theorem onward_of_suffix {outcome : Option α × Cursor} (h : outcome.2.rest <:+ cursor.rest) :
    Took (fun _ => True) cursor outcome := by
  obtain ⟨taken, htaken⟩ := h
  exact ⟨taken, htaken.symm, fun _ _ => trivial⟩

theorem pastBraces_suffix (depth : Nat) (rest : List Placed) :
    Cursor.pastBraces depth rest <:+ rest := by
  fun_induction Cursor.pastBraces depth rest with
  | case1 => exact List.suffix_rfl
  | case2 _ _ _ _ _ ih => exact ih.trans (List.suffix_cons _ _)
  | case3 => exact List.suffix_cons _ _
  | case4 _ _ _ _ _ _ ih => exact ih.trans (List.suffix_cons _ _)
  | case5 _ _ _ _ _ _ ih => exact ih.trans (List.suffix_cons _ _)

theorem pastBlock_suffix (rest : List Placed) : Cursor.pastBlock rest <:+ rest := by
  fun_induction Cursor.pastBlock rest with
  | case1 => exact List.suffix_rfl
  | case2 => exact (pastBraces_suffix _ _).trans (List.suffix_cons _ _)
  | case3 => exact List.suffix_rfl
  | case4 _ _ _ _ _ ih => exact ih.trans (List.suffix_cons _ _)

theorem Takes.orSkipBlock {p : Parse α} (h : p.Onward) : (orSkipBlock p).Onward := by
  intro cursor
  have htook := h cursor
  unfold Parse.orSkipBlock
  generalize p cursor = outcome at htook
  obtain ⟨_ | a, after⟩ := outcome
  · exact htook.trans (onward_of_suffix (pastBlock_suffix _))
  · exact htook

end Parse

open Parse

variable {cursor after : Cursor}

-- ---------------------------------------------------------------------------
-- Single tokens
-- ---------------------------------------------------------------------------

end Written

end ThreeAddress
