import ThreeAddress.Draft
import ThreeAddress.Proofs.Spelling
import ThreeAddress.StackCode.Descriptor
import ThreeAddress.StackCode.Op

/-!
# Descriptors read back

A descriptor writes the types of the parameters one after another, with nothing in between. A class is
written with a semicolon behind its name, so the types can be told apart if no name has a semicolon in it
(`ClassUnit.ResolvesPlain`). `splitTypes` cuts them apart: an array goes on to its item, a class to the
semicolon, and all others are one character. It gives back what a descriptor was put together from
(`ClassUnit.splitTypes_methodDescriptor`), so the text determines the descriptors of the parameters and of
the result, and with them what a call does to the stack (`ClassUnit.descriptors_determined`).
`parameterCount` counts the parameters without cutting them apart, and finds as many.
-/

namespace ThreeAddress

/-- Counts the types up to a closing parenthesis. `inName` says whether a class name is being read. -/
def countTypes : (inName : Bool) → List Char → Nat
  | _, [] => 0
  | true, c :: rest => if c = ';' then countTypes false rest + 1 else countTypes true rest
  | false, c :: rest =>
    if c = ')' then 0
    else if c = '[' then countTypes false rest
    else if c = 'L' then countTypes true rest
    else countTypes false rest + 1

/-- The number of parameters in the text of a descriptor, behind its opening parenthesis. -/
def parameterCount (descriptor : String) : Nat := countTypes false (descriptor.toList.drop 1)

/-- The types up to a closing parenthesis, and what is behind it. `start` is what was read of a type so far. -/
def splitTypes : (inName : Bool) → (start : List Char) → List Char → List String × List Char
  | _, _, [] => ([], [])
  | true, start, c :: rest =>
    if c = ';' then
      let others := splitTypes false [] rest
      (String.ofList (start ++ [c]) :: others.1, others.2)
    else splitTypes true (start ++ [c]) rest
  | false, start, c :: rest =>
    if c = ')' then ([], rest)
    else if c = '[' then splitTypes false (start ++ [c]) rest
    else if c = 'L' then splitTypes true (start ++ [c]) rest
    else
      let others := splitTypes false [] rest
      (String.ofList (start ++ [c]) :: others.1, others.2)

theorem length_splitTypes (inName : Bool) (start text : List Char) :
    (splitTypes inName start text).1.length = countTypes inName text := by
  induction text generalizing inName start with
  | nil => cases inName <;> rfl
  | cons c rest ih =>
    cases inName with
    | true =>
      simp only [splitTypes, countTypes]
      split <;> simp [ih]
    | false =>
      simp only [splitTypes, countTypes]
      split
      · rfl
      · split
        · exact ih false _
        · split <;> simp [ih]

theorem splitTypes_name {name : List Char} (plain : ';' ∉ name) (start rest : List Char) :
    splitTypes true start (name ++ ';' :: rest)
      = (String.ofList (start ++ name ++ [';']) :: (splitTypes false [] rest).1,
        (splitTypes false [] rest).2) := by
  induction name generalizing start with
  | nil => simp [splitTypes]
  | cons c more ih =>
    simp only [List.mem_cons, not_or] at plain
    simp [splitTypes, Ne.symm plain.1, ih plain.2]

theorem splitTypes_class {name : String} (plain : ';' ∉ name.toList) (start rest : List Char) :
    splitTypes false start (("L" ++ name ++ ";").toList ++ rest)
      = (String.ofList (start ++ ("L" ++ name ++ ";").toList) :: (splitTypes false [] rest).1,
        (splitTypes false [] rest).2) := by
  simp [splitTypes, splitTypes_name plain]

/-- A text can be cut in one way only at the first place of a character. -/
theorem append_cons_inj {c : Char} {before before' after after' : List Char} (h : c ∉ before)
    (h' : c ∉ before') (heq : before ++ c :: after = before' ++ c :: after') :
    before = before' ∧ after = after' := by
  have cut : ∀ {before after : List Char}, c ∉ before →
      (before ++ c :: after).takeWhile (· != c) = before := by
    intro before after h
    have hpass : ∀ d ∈ before, (d != c) = true := fun d hd => bne_iff_ne.mpr fun hdc => h (hdc ▸ hd)
    simp [List.takeWhile_append_of_pos hpass]
  have hbefore : before = before' := (cut h).symm.trans (heq ▸ cut h')
  subst hbefore
  simpa using heq

theorem Dispatch.text_inj {dispatch dispatch' : Dispatch} (h : dispatch.text = dispatch'.text) :
    dispatch = dispatch' := by
  revert h
  cases dispatch <;> cases dispatch' <;> decide

theorem Dispatch.blank_not_mem (dispatch : Dispatch) : ' ' ∉ dispatch.text.toList := by
  cases dispatch <;> decide

namespace Invoke

/-- A call is written with its names first and then, in parentheses, its parameters. -/
theorem toList_text (call : Invoke) :
    call.text.toList
      = (call.dispatch.text.toList ++ ' ' :: (call.owner.toList ++ '/' :: call.method.toList))
        ++ '(' :: (call.params.flatMap String.toList ++ ')' :: call.ret.toList) := by
  simp [text]

theorem not_mem_names {call : Invoke} (howner : '(' ∉ call.owner.toList)
    (hmethod : '(' ∉ call.method.toList) :
    '(' ∉ call.dispatch.text.toList ++ ' ' :: (call.owner.toList ++ '/' :: call.method.toList) := by
  have hdispatch : '(' ∉ call.dispatch.text.toList := by cases call.dispatch <;> decide
  simp [hdispatch, howner, hmethod]

end Invoke

namespace ClassUnit

variable {unit : ClassUnit}

/-- The class in the type, if there is one, has a full name without a semicolon. -/
def ResolvesPlain (unit : ClassUnit) : Ty → Prop
  | .array item => unit.ResolvesPlain item
  | ty => ∀ name, unit.classOf? ty = some name → ';' ∉ name.toList

theorem splitTypes_descriptor {ty : Ty} (plain : unit.ResolvesPlain ty) (start rest : List Char) :
    splitTypes false start ((unit.descriptor ty).toList ++ rest)
      = (String.ofList (start ++ (unit.descriptor ty).toList) :: (splitTypes false [] rest).1,
        (splitTypes false [] rest).2) := by
  induction ty generalizing start with
  | int32 => simp [descriptor, splitTypes]
  | boolean => simp [descriptor, splitTypes]
  | void => simp [descriptor, splitTypes]
  | array item ih => simp [descriptor, splitTypes, ih plain]
  | object name => exact splitTypes_class (plain _ rfl) start rest
  | classRef name => exact splitTypes_class (plain _ rfl) start rest
  | receiver => exact splitTypes_class (plain _ rfl) start rest
  | string => exact splitTypes_class (plain _ rfl) start rest

/-- Behind the descriptors the text is read as if they were not there. -/
theorem splitTypes_descriptors {types : List Ty} (plain : ∀ ty ∈ types, unit.ResolvesPlain ty)
    (rest : List Char) :
    splitTypes false [] ((types.map unit.descriptor).flatMap String.toList ++ rest)
      = (types.map unit.descriptor ++ (splitTypes false [] rest).1, (splitTypes false [] rest).2) := by
  induction types with
  | nil => simp
  | cons ty others ih =>
    obtain ⟨hty, hothers⟩ := List.forall_mem_cons.mp plain
    rw [List.map_cons, List.flatMap_cons, List.append_assoc, splitTypes_descriptor hty, ih hothers]
    simp

/-- A list of descriptors in parentheses with the descriptor of a result behind it. -/
theorem splitTypes_signature {types : List Ty} (plain : ∀ ty ∈ types, unit.ResolvesPlain ty)
    (ret : String) :
    splitTypes false [] ((types.map unit.descriptor).flatMap String.toList ++ ')' :: ret.toList)
      = (types.map unit.descriptor, ret.toList) := by
  simp [splitTypes_descriptors plain, splitTypes]

theorem splitTypes_methodDescriptor {method : Method}
    (plain : ∀ param ∈ method.params, unit.ResolvesPlain param.ty) :
    splitTypes false [] ((unit.methodDescriptor method).toList.drop 1)
      = (method.params.map fun param => unit.descriptor param.ty, (unit.descriptor method.ret).toList) := by
  have htypes : ∀ ty ∈ method.params.map Parameter.ty, unit.ResolvesPlain ty := by simpa using plain
  have hsplit := splitTypes_signature htypes (unit.descriptor method.ret)
  simpa [methodDescriptor, Function.comp_def] using hsplit

theorem parameterCount_methodDescriptor {method : Method}
    (plain : ∀ param ∈ method.params, unit.ResolvesPlain param.ty) :
    parameterCount (unit.methodDescriptor method) = method.params.length := by
  rw [parameterCount, ← length_splitTypes false [], splitTypes_methodDescriptor plain, List.length_map]

-- ---------------------------------------------------------------------------
-- What the text determines
-- ---------------------------------------------------------------------------

theorem map_descriptor_eq_of_join_eq {types types' : List Ty}
    (plain : ∀ ty ∈ types, unit.ResolvesPlain ty) (plain' : ∀ ty ∈ types', unit.ResolvesPlain ty)
    (h : String.join (types.map unit.descriptor) = String.join (types'.map unit.descriptor)) :
    types.map unit.descriptor = types'.map unit.descriptor := by
  have hsplit := splitTypes_descriptors plain []
  have hsplit' := splitTypes_descriptors plain' []
  rw [List.append_nil, ← String.toList_join, h, String.toList_join] at hsplit
  rw [List.append_nil, hsplit] at hsplit'
  simpa [splitTypes] using hsplit'

theorem methodDescriptor_inj {method method' : Method}
    (plain : ∀ param ∈ method.params, unit.ResolvesPlain param.ty)
    (plain' : ∀ param ∈ method'.params, unit.ResolvesPlain param.ty)
    (h : unit.methodDescriptor method = unit.methodDescriptor method') :
    (method.params.map fun param => unit.descriptor param.ty)
        = method'.params.map (fun param => unit.descriptor param.ty) ∧
      unit.descriptor method.ret = unit.descriptor method'.ret := by
  have hsplit := splitTypes_methodDescriptor plain
  rw [h, splitTypes_methodDescriptor plain', Prod.mk.injEq, String.toList_inj] at hsplit
  exact ⟨hsplit.1.symm, hsplit.2.symm⟩

/-- The call gives its parameters and its result as the class spells types, and has no parenthesis in its
names. -/
structure Spells (unit : ClassUnit) (call : Invoke) : Prop where
  params : ∃ types : List Ty, call.params = types.map unit.descriptor ∧ ∀ ty ∈ types, unit.ResolvesPlain ty
  owner : '(' ∉ call.owner.toList
  method : '(' ∉ call.method.toList

theorem Spells.parts_eq {call call' : Invoke} (spells : unit.Spells call) (spells' : unit.Spells call')
    (h : call.text = call'.text) :
    call.dispatch = call'.dispatch ∧ call.params = call'.params ∧ call.ret = call'.ret := by
  have hchars := congrArg String.toList h
  rw [Invoke.toList_text, Invoke.toList_text] at hchars
  obtain ⟨hnames, hsignature⟩ := append_cons_inj (Invoke.not_mem_names spells.owner spells.method)
    (Invoke.not_mem_names spells'.owner spells'.method) hchars
  obtain ⟨hdispatch, -⟩ := append_cons_inj call.dispatch.blank_not_mem call'.dispatch.blank_not_mem hnames
  obtain ⟨types, hparams, plain⟩ := spells.params
  obtain ⟨types', hparams', plain'⟩ := spells'.params
  have hsplit := congrArg (splitTypes false []) hsignature
  rw [hparams, hparams', splitTypes_signature plain, splitTypes_signature plain', Prod.mk.injEq,
    String.toList_inj] at hsplit
  exact ⟨Dispatch.text_inj (String.toList_inj.mp hdispatch), hparams ▸ hparams' ▸ hsplit.1, hsplit.2⟩

/-- The descriptors of types, put together without a mark between them, determine each of the descriptors. The
descriptor of a method determines those of its parameters and of its result. The text of a call determines how
many values it takes from the stack and puts on it. -/
theorem descriptors_determined (unit : ClassUnit) :
    (∀ types types' : List Ty, (∀ ty ∈ types, unit.ResolvesPlain ty) →
      (∀ ty ∈ types', unit.ResolvesPlain ty) →
      String.join (types.map unit.descriptor) = String.join (types'.map unit.descriptor) →
      types.length = types'.length ∧ types.map unit.descriptor = types'.map unit.descriptor) ∧
    (∀ method method' : Method, (∀ param ∈ method.params, unit.ResolvesPlain param.ty) →
      (∀ param ∈ method'.params, unit.ResolvesPlain param.ty) →
      unit.methodDescriptor method = unit.methodDescriptor method' →
      method.params.map (fun param => unit.descriptor param.ty)
          = method'.params.map (fun param => unit.descriptor param.ty) ∧
        unit.descriptor method.ret = unit.descriptor method'.ret) ∧
    ∀ call call' : Invoke, unit.Spells call → unit.Spells call' → call.text = call'.text →
      call.pops = call'.pops ∧ call.pushes = call'.pushes := by
  refine ⟨?_, fun method method' => methodDescriptor_inj, ?_⟩
  · intro types types' plain plain' h
    have heq := map_descriptor_eq_of_join_eq plain plain' h
    exact ⟨by simpa using congrArg List.length heq, heq⟩
  · intro call call' spells spells' h
    obtain ⟨hdispatch, hparams, hret⟩ := spells.parts_eq spells' h
    simp [Invoke.pops, Invoke.pushes, hdispatch, hparams, hret]

def catalogue : ClassUnit where
  name := "Catalogue"
  super? := none
  access := .pub
  isFinal := false
  imports := ["java.util.List"]
  fields := []
  methods := []

def entered : List Ty := [.array (.array (.object "List")), .string, .int32, .receiver]

/-- Other types with the same descriptors. -/
def respelled : List Ty :=
  [.array (.array (.classRef "List")), .object "String", .int32, .object "Catalogue"]

def enterMethod (types : List Ty) : Method :=
  { (Draft.new "enter" .string).unlinked with params := types.map fun ty => { name := "x", ty } }

def enterCall (types : List Ty) : Invoke where
  dispatch := .virtual
  owner := "Catalogue"
  method := "enter"
  params := types.map catalogue.descriptor
  ret := catalogue.descriptor .string

theorem descriptors_determined_catalogue :
    entered ≠ respelled ∧ (∀ ty ∈ entered, catalogue.ResolvesPlain ty) ∧
      (∀ ty ∈ respelled, catalogue.ResolvesPlain ty) ∧
      String.join (entered.map catalogue.descriptor) = "[[Ljava/util/List;Ljava/lang/String;ILCatalogue;" ∧
      entered.map catalogue.descriptor = respelled.map catalogue.descriptor ∧
      catalogue.methodDescriptor (enterMethod entered) = catalogue.methodDescriptor (enterMethod respelled) ∧
      (enterMethod entered).params.map (fun param => catalogue.descriptor param.ty)
        = (enterMethod respelled).params.map (fun param => catalogue.descriptor param.ty) ∧
      catalogue.Spells (enterCall entered) ∧ catalogue.Spells (enterCall respelled) ∧
      (enterCall entered).text = (enterCall respelled).text ∧
      (enterCall entered).pops = (enterCall respelled).pops := by
  have plain : ∀ ty ∈ entered, catalogue.ResolvesPlain ty := by
    simp only [entered, List.forall_mem_cons]
    refine ⟨?_, ?_, ?_, ?_, fun _ h => absurd h List.not_mem_nil⟩ <;> rintro _ ⟨⟩ <;> decide
  have plain' : ∀ ty ∈ respelled, catalogue.ResolvesPlain ty := by
    simp only [respelled, List.forall_mem_cons]
    refine ⟨?_, ?_, ?_, ?_, fun _ h => absurd h List.not_mem_nil⟩ <;> rintro _ ⟨⟩ <;> decide
  have spells : catalogue.Spells (enterCall entered) := ⟨⟨entered, rfl, plain⟩, by decide, by decide⟩
  have spells' : catalogue.Spells (enterCall respelled) := ⟨⟨respelled, rfl, plain'⟩, by decide, by decide⟩
  have hdescriptor : catalogue.methodDescriptor (enterMethod entered)
      = catalogue.methodDescriptor (enterMethod respelled) := by decide
  have htext : (enterCall entered).text = (enterCall respelled).text := by decide
  obtain ⟨hlists, hmethods, hcalls⟩ := descriptors_determined catalogue
  refine ⟨by decide, plain, plain', by decide, (hlists _ _ plain plain' (by decide)).2, hdescriptor,
    (hmethods _ _ ?_ ?_ hdescriptor).1, spells, spells', htext, (hcalls _ _ spells spells' htext).1⟩
  · simpa [enterMethod] using plain
  · simpa [enterMethod] using plain'

-- ---------------------------------------------------------------------------
-- Names that resolve without a semicolon
-- ---------------------------------------------------------------------------

theorem not_mem_slashed {path : String} (h : ';' ∉ path.toList) : ';' ∉ (slashed path).toList := by
  rw [slashed, String.toList_ofList, List.mem_map]
  rintro ⟨c, hc, heq⟩
  split at heq
  · cases heq
  · exact h (heq ▸ hc)

theorem not_mem_of_isIdentifier {name : String} (h : isIdentifier name = true) :
    ';' ∉ name.toList := by
  unfold isIdentifier at h
  cases hchars : name.toList with
  | nil => exact List.not_mem_nil
  | cons c rest =>
    rw [hchars, Bool.and_eq_true, List.all_eq_true] at h
    intro hmem
    rcases List.mem_cons.mp hmem with rfl | hmem
    · cases h.1
    · cases h.2 _ hmem

theorem not_mem_resolve {name : String} (imports : ∀ path ∈ unit.imports, ';' ∉ path.toList)
    (h : ';' ∉ name.toList) : ';' ∉ (unit.resolve name).toList := by
  unfold resolve
  split
  · decide
  · split
    · next path hfound => exact not_mem_slashed (imports path (List.mem_of_find?_eq_some hfound))
    · exact h

theorem resolvesPlain_of_isPrintable {ty : Ty} (imports : ∀ path ∈ unit.imports, ';' ∉ path.toList)
    (h : ty.isPrintable = true) : unit.ResolvesPlain ty := by
  induction ty with
  | array item ih => exact ih h
  | object name =>
    rintro _ ⟨⟩
    rw [Ty.isPrintable, Bool.and_eq_true] at h
    exact not_mem_resolve imports (not_mem_of_isIdentifier h.1)
  | string =>
    rintro _ ⟨⟩
    decide
  | classRef name => cases h
  | receiver => cases h
  | _ => rintro _ ⟨⟩

end ClassUnit

end ThreeAddress
