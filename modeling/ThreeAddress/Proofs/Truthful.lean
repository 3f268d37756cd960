import ThreeAddress.Command.Run
import ThreeAddress.Proofs.Reported

/-!
# What a command tells and what it writes

A command writes a picture, if one is wanted, and then its listing. `Files.recorded` keeps a log of the
writes that go through. `Records` says that a program does with the log what it does without it, and what
it adds to the log; it is carried through the steps of a command like the steps themselves.

`Command.run_truthful` is the main statement. A command that runs to its end is a success exactly if it
reports no error, and it writes a listing exactly if it is a success and the listing is wanted.
-/

namespace ThreeAddress

namespace ClassUnit

variable {unit : ClassUnit}

-- The only thing that allocation has to tell is that a budget is too small.
theorem isError_allocate {budget : Budget} {stages : List Stage} {diagnostic : Diagnostic}
    (h : diagnostic ∈ (unit.allocate budget stages).warnings) : diagnostic.isError = false := by
  unfold allocate at h
  split at h
  · cases h
  · simp only [List.mem_flatMap, List.mem_map] at h
    obtain ⟨_, ⟨method, -, rfl⟩, h⟩ := h
    unfold Method.allocateFor at h
    split at h
    · cases h
    · split at h
      · cases h
      · rw [List.mem_singleton.mp h]
        rfl

theorem name_allocate (unit : ClassUnit) (budget : Budget) (stages : List Stage) :
    (unit.allocate budget stages).unit.name = unit.name := by
  unfold allocate
  split <;> rfl

theorem failures_ne_nil {failure : LoweringFailure} (h : unit.lower = .error failure) :
    failure.failures ≠ [] := by
  unfold lower at h
  dsimp only at h
  split at h
  · cases h
  · next hne =>
    cases h
    exact hne

/-- There is a listing and nothing to tell, or there is none and an error tells why. -/
theorem generate_cases (unit : ClassUnit) :
    (∃ listing, unit.emit = .ok listing ∧ unit.generate = (some listing, [])) ∨
      ∃ failure faults, unit.emit = .error failure ∧ unit.generate = (none, faults) ∧
        faults.any Diagnostic.isError = true := by
  cases hlower : unit.lower with
  | ok listing =>
    exact .inl ⟨listing.text, by simp only [emit, hlower], by simp only [generate, emit, hlower]⟩
  | error failure =>
    refine .inr ⟨failure, _, by simp only [emit, hlower], by simp only [generate, emit, hlower]; rfl, ?_⟩
    obtain ⟨fault, hfault⟩ := List.exists_mem_of_ne_nil _ (failures_ne_nil hlower)
    exact List.any_eq_true.mpr ⟨_, List.mem_map_of_mem hfault, rfl⟩

end ClassUnit

/-- Paths and the texts that were written to them, the first first. -/
abbrev WriteLog := List (String × String)

section

variable {σ α β : Type}

/-- The files, with a log of the writes that go through. -/
def Files.recorded (files : Files (StateM σ)) : Files (StateM (σ × WriteLog)) where
  read path := fun (state, log) =>
    let (contents, after) := files.read path state
    (contents, after, log)
  write path text := fun (state, log) =>
    match files.write path text state with
    | (.ok (), after) => (.ok (), after, log ++ [(path, text)])
    | (.error fault, after) => (.error fault, after, log)

/-- From the given state, the program with a log does what the plain one does, and it adds to the log. -/
def Records (state : σ) (added : WriteLog) (logging : StateM (σ × WriteLog) α) (plain : StateM σ α) :
    Prop :=
  ∀ log, logging (state, log) = ((plain state).1, (plain state).2, log ++ added)

variable {state : σ} {added more : WriteLog}

theorem records_pure (a : α) : Records state [] (pure a) (pure a) := fun log => by
  rw [List.append_nil]
  rfl

theorem stateM_bind_apply (p : StateM σ α) (f : α → StateM σ β) (state : σ) :
    (p >>= f) state = f (p state).1 (p state).2 := rfl

theorem Records.bind {p : StateM (σ × WriteLog) α} {q : StateM σ α} {f : α → StateM (σ × WriteLog) β}
    {g : α → StateM σ β} (h : Records state added p q)
    (h' : Records (q state).2 more (f (q state).1) (g (q state).1)) :
    Records state (added ++ more) (p >>= f) (q >>= g) := by
  intro log
  rw [stateM_bind_apply, h log, h' (log ++ added), List.append_assoc]
  rfl

theorem Records.ite {c : Prop} [Decidable c] {p p' : StateM (σ × WriteLog) α} {q q' : StateM σ α}
    (h : Records state added p q) (h' : Records state added p' q') :
    Records state added (if c then p else p') (if c then q else q') := by
  split
  · exact h
  · exact h'

variable (files : Files (StateM σ))

theorem records_write_ok {path text : String} (h : (files.write path text state).1 = .ok ()) :
    Records state [(path, text)] (files.recorded.write path text) (files.write path text) := by
  intro log
  simp only [Files.recorded]
  generalize files.write path text state = outcome at h
  obtain ⟨written, after⟩ := outcome
  cases h
  rfl

theorem records_write_error {path text : String} {fault : FileFault}
    (h : (files.write path text state).1 = .error fault) :
    Records state [] (files.recorded.write path text) (files.write path text) := by
  intro log
  simp only [Files.recorded, List.append_nil]
  generalize files.write path text state = outcome at h
  obtain ⟨written, after⟩ := outcome
  cases h
  rfl

end

namespace Command

theorem Report.exists_of_succeeded? {report : Report} {success : Bool}
    (h : report.succeeded? = .ok success) :
    ∃ status, report.ending = .ok status ∧
      ((∀ what, status ≠ .failed what) → success = !report.hasErrors) := by
  unfold succeeded? at h
  split at h
  · next what hending => exact ⟨_, hending, fun hne => absurd rfl (hne what)⟩
  · next status _ hending => exact ⟨status, hending, fun _ => (Except.ok.inj h).symm⟩
  · cases h

variable {σ : Type} (files : Files (StateM σ)) (arguments : Arguments) (state : σ)

/-- The writes are for the picture of the class. A device that is full may take none. -/
def Pictured (options : Options) (unit : ClassUnit) (writes : WriteLog) : Prop :=
  List.Sublist writes (options.picture?.toList.map fun path => (path, (Picture.ofClass unit).text))

theorem writePicture_records (options : Options) (unit : ClassUnit) :
    ∃ pictured, Pictured options unit pictured ∧
      Records state pictured (writePicture files.recorded options unit)
        (writePicture files options unit) := by
  unfold writePicture Pictured
  cases options.picture? with
  | none => exact ⟨[], .slnil, records_pure _⟩
  | some path =>
    cases hwritten : (files.write path (Picture.ofClass unit).text state).1 with
    | ok _ =>
      exact ⟨[_] ++ [], List.Sublist.refl _,
        (records_write_ok files hwritten).bind (.ite (records_pure _) (records_pure _))⟩
    | error fault =>
      exact ⟨[] ++ [], List.nil_sublist _,
        (records_write_error files hwritten).bind (.ite (records_pure _) (records_pure _))⟩

/-- The writes for the listing of a class. -/
def listed (name listing : String) : WriteLog :=
  if arguments.build then [(arguments.options.listingPath name, listing)] else []

theorem finish_records (unit : ClassUnit) (listing : String) :
    ∃ writes, Records state writes (finish files.recorded arguments unit listing)
        (finish files arguments unit listing) ∧
      ∀ status, (finish files arguments unit listing state).1 = .ok status →
        (∀ what, status ≠ .failed what) ∧ writes = listed arguments unit.name listing := by
  unfold finish listed
  split
  · generalize arguments.options.listingPath unit.name = path
    cases hwritten : (files.write path listing state).1 with
    | ok _ =>
      refine ⟨[(path, listing)] ++ [], (records_write_ok files hwritten).bind ?_, ?_⟩
      · rw [hwritten]
        exact records_pure _
      · simp only [stateM_bind_apply, hwritten]
        rintro _ ⟨⟩
        exact ⟨fun _ => nofun, rfl⟩
    | error fault =>
      refine ⟨[] ++ [], (records_write_error files hwritten).bind ?_, ?_⟩
      · rw [hwritten]
        exact records_pure _
      · simp only [stateM_bind_apply, hwritten]
        rintro _ ⟨⟩
  · refine ⟨[], records_pure _, ?_⟩
    rintro _ ⟨⟩
    exact ⟨fun _ => nofun, rfl⟩

/-- The allocation that the arguments ask for. -/
abbrev allocation (unit : ClassUnit) : Allocation :=
  unit.allocate arguments.options.registers arguments.options.dumps

/-- The text is that of the class, which can be lowered to the listing after its allocation. -/
def Compiled (source : String) (unit : ClassUnit) (listing : String) : Prop :=
  (read 0 source).1 = some unit ∧ (allocation arguments unit).unit.emit = .ok listing

/-- How a command ends on a text: whether it is a success, and what it writes besides a picture. -/
inductive Ends (source : String) (report : Report) : Bool → WriteLog → Prop
  | failed (none : ∀ unit listing, ¬ Compiled arguments source unit listing)
      (told : report.hasErrors = true) : Ends source report false []
  | done {unit : ClassUnit} {listing : String} (compiled : Compiled arguments source unit listing)
      (silent : report.hasErrors = false) :
      Ends source report true (listed arguments unit.name listing)

variable {arguments} {source : String} {unit : ClassUnit} {report : Report} {success : Bool}

theorem ends_of_unread (hread : (read 0 source).1 = none)
    (hdiagnostics : report.diagnostics = (read 0 source).2) : Ends arguments source report false [] := by
  refine .failed (fun unit listing h => nomatch hread.symm.trans h.1) ?_
  unfold Report.hasErrors
  rw [hdiagnostics, ← isNone_read, hread]
  rfl

theorem ends_of_unlowered {failure : LoweringFailure} {faults : List Diagnostic}
    (hread : (read 0 source).1 = some unit)
    (hemit : (allocation arguments unit).unit.emit = .error failure)
    (hfaults : faults.any Diagnostic.isError = true) (hmem : ∀ fault ∈ faults, fault ∈ report.diagnostics) :
    Ends arguments source report false [] := by
  refine .failed (fun other listing h => ?_) ?_
  · obtain rfl := Option.some.inj (hread.symm.trans h.1)
    cases hemit.symm.trans h.2
  · obtain ⟨fault, hfault, herror⟩ := List.any_eq_true.mp hfaults
    exact List.any_eq_true.mpr ⟨fault, hmem fault hfault, herror⟩

theorem ends_of_compiled {listing : String} (compiled : Compiled arguments source unit listing)
    (hdiagnostics : report.diagnostics = (read 0 source).2 ++ (allocation arguments unit).warnings)
    (hending : ∀ status, report.ending = .ok status → ∀ what, status ≠ .failed what)
    (h : report.succeeded? = .ok success) :
    Ends arguments source report success (listed arguments unit.name listing) := by
  have silent : report.hasErrors = false := by
    unfold Report.hasErrors
    rw [hdiagnostics, List.any_append, ← isNone_read, compiled.1, Option.isNone_some, Bool.false_or]
    exact List.any_eq_false.mpr fun _ h => Bool.eq_false_iff.mp (ClassUnit.isError_allocate h)
  obtain ⟨status, hstatus, hsuccess⟩ := Report.exists_of_succeeded? h
  rw [hsuccess (hending status hstatus), silent]
  exact .done compiled silent

theorem compile_records (hread : (read 0 source).1 = some unit) :
    let plain := compile files arguments unit (read 0 source).2
    ∃ pictured writes, Pictured arguments.options (allocation arguments unit).unit pictured ∧
      Records state (pictured ++ writes) (compile files.recorded arguments unit (read 0 source).2) plain ∧
      ∀ success, (plain state).1.succeeded? = .ok success →
        Ends arguments source (plain state).1 success writes := by
  unfold compile
  simp only [stateM_bind_apply]
  obtain ⟨pictured, hpictured, hpicture⟩ :=
    writePicture_records files state arguments.options (allocation arguments unit).unit
  generalize hafter :
    (writePicture files arguments.options (allocation arguments unit).unit state).2 = after at hpicture ⊢
  cases hwritten : (writePicture files arguments.options (allocation arguments unit).unit state).1 with
  | error fault =>
    refine ⟨pictured, [], hpictured, hpicture.bind ?_, fun success h => by cases h⟩
    rw [hwritten]
    exact records_pure _
  | ok _ =>
    rcases (allocation arguments unit).unit.generate_cases with
      ⟨listing, hemit, hgenerate⟩ | ⟨failure, faults, hemit, hgenerate, hfaults⟩
    · obtain ⟨writes, hfinish, hends⟩ :=
        finish_records files arguments after (allocation arguments unit).unit listing
      refine ⟨pictured, writes ++ [], hpictured, hpicture.bind ?_, fun success h => ?_⟩
      · rw [hwritten, hgenerate, hafter]
        exact hfinish.bind (records_pure _)
      · rw [hgenerate] at h ⊢
        obtain ⟨status, hending, -⟩ := Report.exists_of_succeeded? h
        obtain ⟨-, rfl⟩ := hends status hending
        rw [List.append_nil, ClassUnit.name_allocate]
        exact ends_of_compiled ⟨hread, hemit⟩ (List.append_nil _)
          (fun status hstatus => (hends status hstatus).1) h
    · refine ⟨pictured, [], hpictured, hpicture.bind ?_, fun success h => ?_⟩
      · rw [hwritten, hgenerate]
        exact records_pure _
      · rw [hgenerate] at h ⊢
        cases h
        exact ends_of_unlowered hread hemit hfaults fun fault => List.mem_append_right _

theorem exists_text_of_run (h : (run files arguments state).1.succeeded? = .ok success) :
    ∃ bytes source, (files.read arguments.options.path state).1 = .ok bytes ∧
      String.fromUTF8? bytes = some source := by
  unfold run at h
  rw [stateM_bind_apply] at h
  cases hbytes : (files.read arguments.options.path state).1 with
  | error fault =>
    rw [hbytes] at h
    cases h
  | ok bytes =>
    cases hsource : String.fromUTF8? bytes with
    | none =>
      simp only [hbytes, hsource] at h
      cases h
    | some source => exact ⟨bytes, source, rfl, hsource⟩

theorem run_of_text {bytes : ByteArray}
    (hbytes : (files.read arguments.options.path state).1 = .ok bytes)
    (hsource : String.fromUTF8? bytes = some source) :
    run files arguments state =
      (match (read 0 source).1 with
        | none => pure { diagnostics := (read 0 source).2, ending := .ok (.failed arguments.options.path) }
        | some unit => compile files arguments unit (read 0 source).2 : StateM σ Report)
        (files.read arguments.options.path state).2 := by
  unfold run
  rw [stateM_bind_apply, hbytes]
  simp only [hsource]
  generalize read 0 source = outcome
  obtain ⟨_ | unit, complaints⟩ := outcome
  · rfl
  · rfl

theorem run_records (h : (run files arguments state).1.succeeded? = .ok success) :
    ∃ bytes source pictured writes,
      (files.read arguments.options.path state).1 = .ok bytes ∧ String.fromUTF8? bytes = some source ∧
      (pictured = [] ∨ ∃ unit, (read 0 source).1 = some unit ∧
        Pictured arguments.options (allocation arguments unit).unit pictured) ∧
      Records state (pictured ++ writes) (run files.recorded arguments) (run files arguments) ∧
      Ends arguments source (run files arguments state).1 success writes := by
  obtain ⟨bytes, source, hbytes, hsource⟩ := exists_text_of_run files state h
  have hplain := run_of_text files state hbytes hsource
  have hlogging := fun log : WriteLog => run_of_text files.recorded (state, log) hbytes hsource
  cases hread : (read 0 source).1 with
  | none =>
    simp only [hread] at hplain hlogging
    rw [hplain] at h ⊢
    cases h
    refine ⟨bytes, source, [], [], hbytes, hsource, .inl rfl, fun log => ?_, ends_of_unread hread rfl⟩
    rw [hlogging, hplain]
    exact records_pure _ log
  | some unit =>
    simp only [hread] at hplain hlogging
    rw [hplain] at h ⊢
    obtain ⟨pictured, writes, hpictured, hcompile, hends⟩ := compile_records files _ hread
    refine ⟨bytes, source, pictured, writes, hbytes, hsource, .inr ⟨unit, hread, hpictured⟩, fun log => ?_,
      hends success h⟩
    rw [hlogging, hplain]
    exact hcompile log

/-- A command that runs to its end has read a text. It is a success exactly if it reported no error, and
exactly if the text has a listing. What it writes is a picture, if one is wanted, and then the listing,
if there is one and it is wanted. -/
theorem run_truthful (h : (run files arguments state).1.succeeded? = .ok success) :
    let report := (run files arguments state).1
    ∃ bytes source pictured writes,
      (files.read arguments.options.path state).1 = .ok bytes ∧ String.fromUTF8? bytes = some source ∧
      run files.recorded arguments (state, [])
        = (report, (run files arguments state).2, pictured ++ writes) ∧
      (pictured = [] ∨ ∃ unit, (read 0 source).1 = some unit ∧
        Pictured arguments.options (allocation arguments unit).unit pictured) ∧
      (success = true ↔ ∀ diagnostic ∈ report.diagnostics, diagnostic.isError = false) ∧
      (success = true ↔ ∃ unit listing, Compiled arguments source unit listing) ∧
      (success = false → writes = []) ∧
      ∀ unit listing, Compiled arguments source unit listing →
        writes = if arguments.build then [(arguments.options.listingPath unit.name, listing)] else [] := by
  intro report
  obtain ⟨bytes, source, pictured, writes, hbytes, hsource, hpictured, hrecords, hends⟩ :=
    run_records files state h
  refine ⟨bytes, source, pictured, writes, hbytes, hsource, hrecords [], hpictured, ?_⟩
  cases hends with
  | failed none told =>
    refine ⟨iff_of_false nofun fun hsilent => ?_, iff_of_false nofun ?_, fun _ => rfl, ?_⟩
    · obtain ⟨diagnostic, hmem, herror⟩ := List.any_eq_true.mp told
      exact absurd herror (Bool.eq_false_iff.mp (hsilent diagnostic hmem))
    · rintro ⟨unit, listing, compiled⟩
      exact none unit listing compiled
    · exact fun unit listing compiled => absurd compiled (none unit listing)
  | @done unit listing compiled silent =>
    refine ⟨iff_of_true rfl fun diagnostic hmem => ?_, iff_of_true rfl ⟨unit, listing, compiled⟩, nofun, ?_⟩
    · exact Bool.eq_false_iff.mpr (List.any_eq_false.mp silent diagnostic hmem)
    · intro other otherListing hother
      obtain rfl := Option.some.inj (compiled.1.symm.trans hother.1)
      obtain rfl := Except.ok.inj (compiled.2.symm.trans hother.2)
      rfl

def sumText : String :=
  "Sum \x7b
.method public static of(a.i32, b.i32).i32 \x7b
c.i32 :=.i32 a.i32 +.i32 b.i32;
ret.i32 c.i32;
\x7d
\x7d"

def sumTree : FileTree := FileTree.add ⟨.empty⟩ "in/sum.txt" sumText.toUTF8

/-- One register is too few for the two parameters, so there is a warning. -/
def sumArguments : Arguments where
  build := true
  options := {
    registers := .limited 1, output? := some "sum.j", dumps := [], picture? := some "sum.dot"
    path := "in/sum.txt" }

theorem run_truthful_sum :
    (run FileTree.access sumArguments sumTree).1.succeeded? = .ok true ∧
      (run FileTree.access sumArguments sumTree).1.diagnostics ≠ [] ∧
      ∃ source unit listing pictured, Compiled sumArguments source unit listing ∧
        (run FileTree.access.recorded sumArguments (sumTree, [])).2.2
          = pictured ++ [("sum.j", listing)] := by
  have hdone : (run FileTree.access sumArguments sumTree).1.succeeded?.toOption = some true := by
    decide +kernel
  have hsuccess : (run FileTree.access sumArguments sumTree).1.succeeded? = .ok true := by
    generalize (run FileTree.access sumArguments sumTree).1.succeeded? = success? at hdone ⊢
    cases success? with
    | error abort => cases hdone
    | ok success => rw [Option.some.inj hdone]
  refine ⟨hsuccess, by decide +kernel, ?_⟩
  obtain ⟨_, source, pictured, writes, -, -, hrun, -, -, hcompiled, -, hwrites⟩ :=
    run_truthful FileTree.access sumTree hsuccess
  obtain ⟨unit, listing, compiled⟩ := hcompiled.mp rfl
  obtain rfl := hwrites unit listing compiled
  exact ⟨source, unit, listing, pictured, compiled, by rw [hrun]; rfl⟩

end Command

end ThreeAddress
