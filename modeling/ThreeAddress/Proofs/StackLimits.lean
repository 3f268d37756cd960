import ThreeAddress.Lowering
import ThreeAddress.Proofs.Rested
import ThreeAddress.Proofs.Separation

/-!
# The limits of a listing

A listing tells how deep the stack of each method gets and how many registers it has.
`ClassUnit.lower_limits_safe` is the main statement: no path of control through a body takes a value
that is not there, gets deeper than the limit, comes to one item with two depths, runs out of the body,
or names a register from the limit on.
-/

namespace ThreeAddress

/-- No path through the body goes wrong, and the limits hold on all of them. -/
structure MethodListing.Safe (listing : MethodListing) : Prop where
  enough : ∀ index depth op, Reaches listing.body index depth →
    listing.body[index]? = some (.op op) → op.pops ≤ depth
  within_maxStack : ∀ index depth, Reaches listing.body index depth → depth ≤ listing.maxStack
  depth_unique : ∀ index depth depth', Reaches listing.body index depth →
    Reaches listing.body index depth' → depth = depth'
  inside : ∀ index depth, Reaches listing.body index depth → index < listing.body.length
  lands : ∀ op label, .op op ∈ listing.body → op.target? = some label → .label label ∈ listing.body
  within_maxLocals : ∀ op register, .op op ∈ listing.body → op.register? = some register →
    register < listing.maxLocals

namespace Site

open ThreeAddress.Frame (Passes EndsClosed)

variable {site : Site} {n n' : Nat}

theorem endsClosed_of_close {items body : List Item} (h : site.close items = .ok body) :
    EndsClosed body := by
  rcases close_ok h with ⟨hcloses, rfl⟩ | ⟨-, rfl⟩
  · unfold fallsThrough at hcloses
    split at hcloses
    · next op hlast => exact ⟨op, hlast, by simpa using hcloses⟩
    · cases hcloses
  · exact ⟨.ret, List.getLast?_append, rfl⟩

theorem not_ownLabel_of_chunks (apart : site.method.LabelsApart) {label : String}
    (h : label ∈ (Chunk.ofInstructions site.method.instructions).flatMap Chunk.labels) :
    ¬ OwnLabel label := by
  rw [Chunk.flatMap_labels] at h
  obtain ⟨inst, hinst, hlabel⟩ := List.mem_flatMap.mp h
  exact apart inst hinst label hlabel

/-- The scan goes through a body whose chunks all have a shape. -/
theorem Coded.body_passes (apart : site.method.LabelsApart) (linked : site.method.Linked)
    {items body : List Item}
    (h : site.Coded n (Chunk.ofInstructions site.method.instructions) items n')
    (hclose : site.close items = .ok body) :
    ∃ depthOf after, Passes depthOf Frame.start body after := by
  obtain ⟨heights, hpasses⟩ := h.passes apart linked fun _ => not_ownLabel_of_chunks apart
  obtain ⟨after, hitems, rested⟩ :=
    hpasses heights (fun _ _ _ => rfl) Frame.start (Frame.rested_start _)
  rcases close_ok hclose with ⟨-, rfl⟩ | ⟨-, rfl⟩
  · exact ⟨_, after, hitems⟩
  · have hret : ∀ label, StackOp.ret.target? = some label → labelDepth heights label = 0 :=
      fun _ h => nomatch h
    have hdepth : after.found.depth = StackOp.ret.pops := rested.depth_eq
    obtain ⟨last, hlast, -⟩ := Frame.passes_last rested.knows hdepth rfl hret
    exact ⟨_, last, hitems.append hlast⟩

/-- The scan would have found a store without a value. -/
theorem Emitted.coded (apart : site.method.LabelsApart) (linked : site.method.Linked)
    (fit : site.method.CallsFit) {items body : List Item} {limit : Nat}
    (h : site.Emitted n (Chunk.ofInstructions site.method.instructions) items n')
    (hclose : site.close items = .ok body) (hlimit : maxStack body = .ok limit) :
    site.Coded n (Chunk.ofInstructions site.method.instructions) items n' := by
  refine (h.coded_or_short linked fit fun _ hchunk => hchunk).resolve_right ?_
  rintro ⟨first, inst, rest, before, code, behind, k, hchunks, -, hcoded, hshort, rfl⟩
  have hown : ∀ label ∈ first.flatMap Chunk.labels ++ inst.labels, ¬ OwnLabel label := by
    intro label hlabel
    refine not_ownLabel_of_chunks apart ?_
    rw [hchunks, List.flatMap_append, List.flatMap_cons]
    rcases List.mem_append.mp hlabel with hlabel | hlabel
    · exact List.mem_append_left _ hlabel
    · exact List.mem_append_right _ (List.mem_append_left _ hlabel)
  obtain ⟨heights, hpasses⟩ := hcoded.passes apart linked fun label hlabel =>
    hown label (List.mem_append_left _ hlabel)
  obtain ⟨middle, hbefore, rested⟩ :=
    hpasses heights (fun _ _ _ => rfl) Frame.start (Frame.rested_start _)
  obtain ⟨after, hlabels, rested'⟩ := Frame.passes_labels
    (fun label hlabel => labelDepth_of_not_ownLabel (hown label (List.mem_append_right _ hlabel))) rested
  obtain ⟨tail, htail⟩ : ∃ tail, body = before ++ (inst.labels.map .label) ++ (code ++ tail) := by
    rcases close_ok hclose with ⟨-, rfl⟩ | ⟨-, rfl⟩
    · exact ⟨behind, by simp only [List.append_assoc]⟩
    · exact ⟨behind ++ ops [.ret], by simp only [List.append_assoc]⟩
  obtain ⟨fault, hfault⟩ := hshort.fails tail rested'
  rw [maxStack, htail, Frame.applyAll_append (hbefore.append hlabels).applyAll, hfault] at hlimit
  cases hlimit

theorem listing_safe (apart : site.method.LabelsApart) (linked : site.method.Linked)
    (fit : site.method.CallsFit) {listing : MethodListing}
    (h : site.listing n = (.ok listing, n')) : listing.Safe := by
  obtain ⟨hbody, hlimit, hlocals⟩ := listing_ok h
  obtain ⟨items, hemitted, hclose⟩ := body_ok.mp hbody
  have hcoded := hemitted.coded apart linked fit hclose hlimit
  have closed := endsClosed_of_close hclose
  obtain ⟨depthOf, after, hpasses⟩ := hcoded.body_passes apart linked hclose
  have hmax : after.max = listing.maxStack := by
    rw [maxStack, hpasses.applyAll] at hlimit
    exact Except.ok.inj hlimit
  -- What holds of the items and of the return that may follow them holds of the body.
  have hitem : ∀ item ∈ listing.body, item ∈ items ∨ item = .op .ret := by
    intro item hmem
    rcases close_ok hclose with ⟨-, heq⟩ | ⟨-, heq⟩
    · exact .inl (heq ▸ hmem)
    · rw [heq] at hmem
      exact (List.mem_append.mp hmem).imp_right fun hlast => by simpa [ops] using hlast
  have hkeep : ∀ item ∈ items, item ∈ listing.body := by
    intro item hmem
    rcases close_ok hclose with ⟨-, heq⟩ | ⟨-, heq⟩
    · exact heq ▸ hmem
    · exact heq ▸ List.mem_append_left _ hmem
  refine ⟨?_, ?_, ?_, ?_, ?_, ?_⟩
  · intro index depth op hreaches hop
    exact (hpasses.reaches_op closed hreaches hop).1
  · intro index depth hreaches
    exact hmax ▸ (hpasses.reaches closed hreaches).2
  · intro index depth depth' hreaches hreaches'
    exact (hpasses.reaches closed hreaches).1.unique (hpasses.reaches closed hreaches').1
  · intro index depth hreaches
    obtain ⟨before, item, rest, _, heq, rfl, -⟩ := (hpasses.reaches closed hreaches).1
    rw [heq, List.length_append, List.length_cons]
    exact Nat.lt_add_of_pos_right (Nat.succ_pos _)
  · intro op label hop htarget
    rcases hitem _ hop with hop | heq
    · rcases hcoded.target hop htarget with ⟨id, hid⟩ | hlabel
      · obtain ⟨inst, hinst, hlabel⟩ := (linked.label?_iff label id).mp hid
        refine hkeep _ (mem_labelsOf.mp (hcoded.label_mem ?_))
        rw [Chunk.flatMap_labels]
        exact List.mem_flatMap.mpr ⟨inst, Method.mem_of_instruction? hinst, hlabel⟩
      · exact hkeep _ (mem_labelsOf.mp hlabel)
    · cases heq
      cases htarget
  · intro op register hop hregister
    rw [hlocals]
    rcases hitem _ hop with hop | heq
    · exact hcoded.within hop register hregister
    · cases heq
      cases hregister

end Site

namespace ClassUnit

variable {unit : ClassUnit} {n : Nat}

/-- The listings of a row of methods, where `n` is the first number for labels. -/
inductive Listed (unit : ClassUnit) : Nat → List Method → List MethodListing → Prop
  | nil (n : Nat) : Listed unit n [] []
  | cons {n k : Nat} {method : Method} {rest : List Method} {lowered : MethodListing}
    {others : List MethodListing} :
    Site.listing { unit, method } n = (.ok lowered, k) → Listed unit k rest others →
    Listed unit n (method :: rest) (lowered :: others)

theorem listed_of_methodListings {methods : List Method}
    (h : (unit.methodListings methods n).filterMap failed? = []) :
    unit.Listed n methods ((unit.methodListings methods n).filterMap lowered?) := by
  induction methods generalizing n with
  | nil => exact .nil n
  | cons method rest ih =>
    rw [methodListings] at h ⊢
    rcases hlisting : Site.listing { unit, method } n with ⟨outcome, k⟩
    rw [hlisting] at h
    cases outcome with
    | error fault => cases h
    | ok lowered => exact .cons hlisting (ih h)

theorem listed_of_lower {listing : Listing} (h : unit.lower = .ok listing) :
    unit.Listed 0 unit.methods listing.methods := by
  simp only [lower] at h
  split at h
  · next hnone =>
    cases h
    exact listed_of_methodListings hnone
  · cases h

theorem Listed.exists_of_mem {methods : List Method} {listings : List MethodListing}
    (h : unit.Listed n methods listings) {lowered : MethodListing} (hlowered : lowered ∈ listings) :
    ∃ method ∈ methods, ∃ k k', Site.listing { unit, method } k = (.ok lowered, k') := by
  induction h with
  | nil n => cases hlowered
  | cons hlisting _ ih =>
    rcases List.mem_cons.mp hlowered with rfl | hlowered
    · exact ⟨_, List.mem_cons_self, _, _, hlisting⟩
    · obtain ⟨method, hmethod, hfound⟩ := ih hlowered
      exact ⟨method, List.mem_cons_of_mem _ hmethod, hfound⟩

theorem lower_ok {listing : Listing} (h : unit.lower = .ok listing) {lowered : MethodListing}
    (hlowered : lowered ∈ listing.methods) :
    ∃ method ∈ unit.methods, ∃ n n', Site.listing { unit, method } n = (.ok lowered, n') :=
  (listed_of_lower h).exists_of_mem hlowered

theorem lower_limits_safe {listing : Listing} (prepared : ∀ method ∈ unit.methods, method.Prepared)
    (apart : ∀ method ∈ unit.methods, method.LabelsApart)
    (fit : ∀ method ∈ unit.methods, method.CallsFit) (h : unit.lower = .ok listing) :
    ∀ method ∈ listing.methods, method.Safe := by
  intro lowered hlowered
  obtain ⟨method, hmethod, n, n', hlisting⟩ := lower_ok h hlowered
  exact Site.listing_safe (apart method hmethod) (prepared method hmethod).linked
    (fit method hmethod) hlisting

end ClassUnit

/-- Stores outcomes of comparisons in an array from a place downwards, and then makes an object. -/
def marking : Draft :=
  let place : Element := .operand "place" .int32
  let board : Element := .operand "board" (.object "Board")
  let start := ((Draft.new "mark" .void).addParam "marks" (.array .boolean)).addParam "place" .int32
  let loop := ((start.label "again").push (.assign (.slot "marks" place .boolean) .boolean
      (.binary { op := .lt, left := place, right := .literal (.int 5) .int32 }))).push
    (.assign place .int32 (.binary { op := .sub, left := place, right := .literal (.int 1) .int32 }))
  let back := loop.push
    (.branch (.binary { op := .le, left := .literal (.int 0) .int32, right := place }) "again")
  (back.push (.assign board (.object "Board") (.call {
      invocation := .new, target := .ofClass "Board", method? := none, args := [],
      ret := .object "Board" }))).push
    (.call {
      invocation := .special, target := board, method? := some Draft.constructorName, args := [],
      ret := .void })

def markingMethod : Method :=
  match marking.build with
  | .ok method => method
  | .error _ => marking.unlinked

-- `board` conflicts with no other variable, so it has no color and keeps its register.
def markingColoring : Coloring := ⟨[("marks", 1), ("place", 2)], by decide⟩

def board : ClassUnit where
  name := "Board"
  super? := none
  access := .pub
  isFinal := false
  imports := []
  fields := []
  methods := [markingMethod, markingMethod.recolor markingColoring]

/-- The deepest point is in the comparison, with an array and a place below it. -/
theorem lower_limits_safe_board :
    marking.build = .ok markingMethod ∧
      markingMethod.allocate 0 = .ok (markingColoring, markingMethod.recolor markingColoring) ∧
      ∃ listing, board.lower = .ok listing ∧ listing.methods.map MethodListing.maxStack = [4, 4] ∧
        ∀ method ∈ listing.methods, method.Safe := by
  have built : marking.build = .ok markingMethod := rfl
  have allocated : markingMethod.allocate 0
      = .ok (markingColoring, markingMethod.recolor markingColoring) := by decide +kernel
  have prepared : ∀ method ∈ board.methods, method.Prepared := by
    intro method hmethod
    simp only [board, List.mem_cons, List.not_mem_nil, or_false] at hmethod
    rcases hmethod with rfl | rfl
    · exact .built built
    · exact .allocated (.built built) allocated
  have begin : ∀ method ∈ board.methods, ∀ inst ∈ method.instructions, ∀ label ∈ inst.labels,
      label.toList.take 3 ≠ "cmp".toList := by decide +kernel
  have apart : ∀ method ∈ board.methods, method.LabelsApart :=
    fun method hmethod => Method.labelsApart_of_take (begin method hmethod)
  have fit : ∀ method ∈ board.methods, ∀ inst ∈ method.instructions, inst.statement.CallFits := by
    decide +kernel
  have limits : board.lower.toOption.map (fun listing => listing.methods.map MethodListing.maxStack)
      = some [4, 4] := by decide +kernel
  refine ⟨built, allocated, ?_⟩
  cases hlower : board.lower with
  | error failure =>
    rw [hlower] at limits
    cases limits
  | ok listing =>
    rw [hlower] at limits
    exact ⟨listing, rfl, Option.some.inj limits,
      ClassUnit.lower_limits_safe prepared apart fit hlower⟩

end ThreeAddress
