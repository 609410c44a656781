import GoblinCore.Foundation.Refusable
import GoblinCore.Lists.AdaptivePmaRuns

/-!
# Insertions that are refused memory

`allocate_slots` and `promote_references` ask for memory before they change the array, and nothing
else of an insertion asks.  What a refused insertion leaves is the same sequence, except in an
array without slots that is given them and is then refused the promotion: it has slots and no
element, and every later insertion looks for its first element behind the last word.
-/

namespace GoblinCore.AdaptivePma.Pma

open WordBits List Nat Bitmap Refusable

/-! ## Requests for memory -/

inductive Exception where
  | maxMemoryExceeded
  | fault (fault : Fault)
deriving DecidableEq

/-- The capacities of the vectors, which `clear` keeps. -/
structure Reserved where
  offsets : ℕ := 0
  lengths : ℕ := 0
  blocks : ℕ := 0
  occupied : ℕ := 0
  fenwick : ℕ := 0

/-- One of the vectors is too small for a number of slots. -/
def Reserved.Lacks (reserved : Reserved) (wide : Bool) (slots : ℕ) : Prop :=
  reserved.offsets < slots ∨ reserved.lengths < slots ∨ wide ∧ reserved.blocks < slots ∨
    reserved.occupied < wordCount slots ∨ reserved.fenwick < wordCount slots + 1

instance (reserved : Reserved) (wide : Bool) (slots : ℕ) : Decidable (reserved.Lacks wide slots) :=
  inferInstanceAs (Decidable (_ ∨ _))

/-- A call on an array that may be refused memory. -/
abbrev Asking := Comp Exception Pma Unit

section Model

open Comp

variable (settings : Settings) (reserved : Reserved)

/-- References are kept in one word, and one of the batch does not fit. -/
def needsWide (pma : Pma) (values : List ListValueRef) : Bool :=
  !pma.wideReferences && values.any fun value ↦ !fitsNarrow settings value

/-- `promote_references`, where the batch needs it. -/
def promoteAsking (inserted : List ListValueRef) : Asking := do
  let pma ← get
  when (pma.needsWide settings inserted) do
    when (reserved.blocks < pma.capacity) (request .maxMemoryExceeded)
    modify fun pma ↦ pma.promoteReferences settings

def allocateAsking (slots : ℕ) : Asking := do
  let pma ← get
  when (reserved.Lacks pma.wideReferences slots) (request .maxMemoryExceeded)
  modify fun pma ↦ pma.allocateSlots slots

def prepareAsking (rank : ℕ) (inserted : List ListValueRef) (endpoint : EndpointBias) : Asking := do
  let pma ← get
  when (pma.capacity ≠ 0) (promoteAsking settings reserved inserted)
  modify fun pma ↦ pma.noteInsert rank inserted.length endpoint

/-- The first insertion into an array without slots. -/
def firstAsking (slots : ℕ) (inserted : List ListValueRef) (size : ℕ) : Asking := do
  allocateAsking reserved slots
  promoteAsking settings reserved inserted
  modify fun allocated ↦
    { allocated.redistribute settings 0 allocated.capacity inserted with size := size }

/-- `rebuild_with_insert_many` over the grown capacity. -/
def growAsking (rank : ℕ) (inserted : List ListValueRef) : Asking := do
  let pma ← get
  match grownCapacity settings pma.capacity (pma.size + inserted.length) with
  | .error fault => throw (.fault fault)
  | .ok slots =>
    when (reserved.Lacks pma.wideReferences slots) (request .maxMemoryExceeded)
    Comp.set (pma.rebuildWithInsertMany settings slots rank inserted)

def spreadingAsking (rank : ℕ) (inserted : List ListValueRef) : Asking := do
  let pma ← get
  if maxOccupancy settings pma.capacity < pma.size + inserted.length then
    growAsking settings reserved rank inserted
  else
    match pma.redistributeForInsertMany settings rank inserted with
    | some spread => Comp.set spread
    | none => growAsking settings reserved rank inserted

def nearbyAsking (rank : ℕ) (value : ListValueRef) : Asking := do
  let pma ← get
  if pma.leftDistance rank ≤ pma.rightDistance rank ∧ pma.leftGap rank ≠ pma.capacity then
    Comp.set ((pma.shiftDown (pma.leftGap rank) (pma.leftSlot rank)).putSlot settings
      (pma.leftSlot rank) value)
  else if pma.rightGap rank ≠ pma.capacity then
    Comp.set ((pma.shiftUp (pma.rightGap rank) (pma.rightSlot rank)).putSlot settings
      (pma.rightSlot rank) value)
  else spreadingAsking settings reserved rank [value]

/-- `insert`, with its requests for memory. -/
def insertAsking (rank : ℕ) (value : ListValueRef) : Asking := do
  let pma ← get
  if pma.size < rank then throw (.fault (.outOfRange "PMA insert rank"))
  else if pma.size = limit then throw (.fault elementsExhausted)
  else
    prepareAsking settings reserved rank [value] .byRank
    let noted ← get
    if noted.capacity = 0 then firstAsking settings reserved initialCapacity [value] 1
    else if rank = 0 ∧ noted.selectSlot 0 ≠ 0 then
      Comp.set (noted.putSlot settings (noted.selectSlot 0 - 1) value)
    else if rank = noted.size ∧ noted.selectSlot (noted.size - 1) + 1 < noted.capacity then
      Comp.set (noted.putSlot settings (noted.selectSlot (noted.size - 1) + 1) value)
    else nearbyAsking settings reserved rank value

/-- `insert_many`, with its requests for memory. -/
def insertManyAsking (rank : ℕ) (values : List ListValueRef) (endpoint : EndpointBias) :
    Asking := do
  let pma ← get
  if pma.size < rank then throw (.fault (.outOfRange "PMA insert rank"))
  else if values = [] then pure ()
  else if limit - pma.size < values.length then throw (.fault elementsExhausted)
  else
    prepareAsking settings reserved rank values endpoint
    let noted ← get
    if noted.capacity = 0 then
      match minimumCapacity settings (noted.size + values.length) with
      | .error fault => throw (.fault fault)
      | .ok slots => firstAsking settings reserved slots values (noted.size + values.length)
    else if rank = 0 ∧ values.length ≤ noted.selectSlot 0 then
      Comp.set (noted.putRun settings (noted.selectSlot 0 - values.length) values)
    else if rank = noted.size ∧
        values.length ≤ noted.capacity - noted.selectSlot (noted.size - 1) - 1 then
      Comp.set (noted.putRun settings (noted.selectSlot (noted.size - 1) + 1) values)
    else spreadingAsking settings reserved rank values

inductive Insertion where
  | one (rank : ℕ) (value : ListValueRef)
  | many (rank : ℕ) (values : List ListValueRef) (endpoint : EndpointBias)

namespace Insertion

def asking : Insertion → Asking
  | one rank value => insertAsking settings reserved rank value
  | many rank values endpoint => insertManyAsking settings reserved rank values endpoint

/-- The insertion without a memory limit. -/
def result (pma : Pma) : Insertion → Pma × Except Fault Unit
  | one rank value => pma.insert settings rank value
  | many rank values endpoint => pma.insertMany settings rank values endpoint

def call : Insertion → Call
  | one rank value => .insert rank value
  | many rank values endpoint => .insertMany rank values endpoint

def rank : Insertion → ℕ
  | one rank _ | many rank _ _ => rank

def inserted : Insertion → List ListValueRef
  | one _ value => [value]
  | many _ values _ => values

/-- The slots that an array without slots gets. -/
def firstSlots : Insertion → Except Fault ℕ
  | one _ _ => .ok initialCapacity
  | many _ values _ => minimumCapacity settings values.length

end Insertion

/-- What the insertion leaves when one of its requests is refused. -/
def Refused (insertion : Insertion) (pma left : Pma) : Prop :=
  ∃ script rest, insertion.asking settings reserved pma script
    = ⟨.error .maxMemoryExceeded, left, rest⟩

end Model

/-! ## Requests that are granted -/

variable {settings : Settings} {reserved : Reserved} {pma left : Pma}
  {values inserted : List ListValueRef} {value : ListValueRef} {rank count : ℕ}
  {endpoint : EndpointBias} {script : Script}

theorem promoteForMany_eq : pma.promoteForMany settings inserted
    = if pma.needsWide settings inserted then pma.promoteReferences settings else pma := by
  simp [promoteForMany, needsWide]

theorem promoteForMany_singleton :
    pma.promoteForMany settings [value] = pma.promoteFor settings value := by
  simp [promoteForMany, promoteFor]

open Comp in
theorem when_request_granted {condition : Prop} [Decidable condition] :
    when condition (request .maxMemoryExceeded : Asking) pma [] = ⟨.ok (), pma, []⟩ := by
  unfold Comp.when
  split <;> rfl

theorem promoteAsking_granted : promoteAsking settings reserved inserted pma []
    = ⟨.ok (), pma.promoteForMany settings inserted, []⟩ := by
  rw [promoteForMany_eq]
  unfold promoteAsking
  rw [Comp.get_bind]
  unfold Comp.when
  split
  · exact Comp.bind_ok when_request_granted
  · rfl

theorem allocateAsking_granted : allocateAsking reserved count pma []
    = ⟨.ok (), pma.allocateSlots count, []⟩ := by
  unfold allocateAsking
  rw [Comp.get_bind, Comp.bind_ok when_request_granted]
  rfl

theorem prepareAsking_granted : prepareAsking settings reserved rank inserted endpoint pma []
    = ⟨.ok (), pma.prepareInsert settings rank inserted endpoint, []⟩ := by
  unfold prepareAsking prepareInsert
  rw [Comp.get_bind]
  unfold Comp.when
  split
  · rw [Comp.bind_ok promoteAsking_granted]
    rfl
  · rfl

theorem firstAsking_granted {size : ℕ} : firstAsking settings reserved count inserted size pma []
    = ⟨.ok (), { ((pma.allocateSlots count).promoteForMany settings inserted).redistribute
      settings 0
        ((pma.allocateSlots count).promoteForMany settings inserted).capacity inserted with
      size := size }, []⟩ := by
  unfold firstAsking
  rw [Comp.bind_ok allocateAsking_granted, Comp.bind_ok promoteAsking_granted]
  rfl

/-- How a call ends that is granted its requests. -/
def granted (result : Pma × Except Fault Unit) : Outcome Exception Pma Unit :=
  ⟨result.2.mapError .fault, result.1, []⟩

theorem spreadingAsking_granted : spreadingAsking settings reserved rank inserted pma []
    = granted (pma.insertSpreading settings rank inserted) := by
  have hgrow : growAsking settings reserved rank inserted pma []
      = granted (match grownCapacity settings pma.capacity (pma.size + inserted.length) with
        | .error fault => (pma, .error fault)
        | .ok slots => (pma.rebuildWithInsertMany settings slots rank inserted, .ok ())) := by
    unfold growAsking
    rw [Comp.get_bind]
    cases grownCapacity settings pma.capacity (pma.size + inserted.length) with
    | error fault => rfl
    | ok slots =>
      dsimp only
      rw [Comp.bind_ok when_request_granted]
      rfl
  unfold spreadingAsking insertSpreading
  rw [Comp.get_bind]
  dsimp only
  split
  · exact hgrow
  · cases pma.redistributeForInsertMany settings rank inserted with
    | none => exact hgrow
    | some spread => rfl

theorem insertAsking_granted : insertAsking settings reserved rank value pma []
    = granted (pma.insert settings rank value) := by
  unfold insertAsking Pma.insert
  rw [Comp.get_bind]
  split
  · rfl
  split
  · rfl
  rw [Comp.bind_ok prepareAsking_granted, Comp.get_bind]
  dsimp only
  split
  · rw [firstAsking_granted, insertFirst, promoteForMany_singleton]
    rfl
  split
  · rfl
  split
  · rfl
  unfold nearbyAsking insertNearby
  rw [Comp.get_bind]
  split
  · rfl
  split
  · rfl
  exact spreadingAsking_granted

theorem insertManyAsking_granted : insertManyAsking settings reserved rank values endpoint pma []
    = granted (pma.insertMany settings rank values endpoint) := by
  unfold insertManyAsking Pma.insertMany
  rw [Comp.get_bind]
  split
  · rfl
  split
  · rfl
  split
  · rfl
  rw [Comp.bind_ok prepareAsking_granted, Comp.get_bind]
  dsimp only
  split
  · unfold insertFirstMany
    cases minimumCapacity settings
        ((pma.prepareInsert settings rank values endpoint).size + values.length) with
    | error fault => rfl
    | ok slots =>
      dsimp only
      rw [firstAsking_granted]
      rfl
  split
  · rfl
  split
  · rfl
  exact spreadingAsking_granted

/-- An insertion that is refused nothing is the one without a memory limit. -/
theorem Insertion.asking_granted (insertion : Insertion) :
    insertion.asking settings reserved pma [] = granted (insertion.result settings pma) := by
  cases insertion with
  | one rank value => exact insertAsking_granted
  | many rank values endpoint => exact insertManyAsking_granted

/-! ## Requests that are refused -/

/-- Slots without an element. -/
structure Stranded (pma : Pma) : Prop where
  sound : pma.Sound
  capacity : 0 < pma.capacity
  occupied : pma.occupied = zeros pma.capacity
  size : pma.size = 0

/-- An array without slots is given them for references that do not fit in one word, and the vector
of the blocks has to grow. -/
def Strands (settings : Settings) (reserved : Reserved) (pma : Pma)
    (insertion : Insertion) : Prop :=
  pma.capacity = 0 ∧ insertion.rank ≤ pma.size ∧ HasSlots settings pma insertion.call ∧
    pma.needsWide settings insertion.inserted = true ∧
    ∃ slots, insertion.firstSlots settings = .ok slots ∧ reserved.blocks < slots

section Ends

open Comp

theorem ends_when_request {condition : Prop} [Decidable condition] :
    Ends (when condition (request .maxMemoryExceeded) : Asking) pma script (fun _ next ↦ next = pma)
      (fun _ left ↦ left = pma ∧ condition) :=
  ends_when (fun hcondition ↦ ends_request rfl fun _ ↦ ⟨rfl, hcondition⟩) fun _ ↦ rfl

theorem promoteAsking_ends : Ends (promoteAsking settings reserved inserted) pma script
    (fun _ next ↦ next = pma.promoteForMany settings inserted)
    (fun _ left ↦ left = pma ∧ pma.needsWide settings inserted = true ∧
      reserved.blocks < pma.capacity) := by
  rw [promoteForMany_eq]
  refine ends_get_bind (ends_when (fun hwide ↦ ?_) fun hnarrow ↦ (if_neg hnarrow).symm)
  rw [if_pos hwide]
  refine (ends_when_request.mono_throw fun _ left hleft ↦ ⟨hleft.1, hwide, hleft.2⟩).bind ?_
  rintro - _ rest - rfl
  exact ends_modify rfl

theorem prepareAsking_ends : Ends
    (prepareAsking settings reserved rank inserted endpoint) pma script
    (fun _ next ↦ next = pma.prepareInsert settings rank inserted endpoint)
    (fun _ left ↦ left = pma) := by
  have hpromoted : Ends (when (pma.capacity ≠ 0) (promoteAsking settings reserved inserted)) pma
      script (fun _ next ↦ next
        = if pma.capacity ≠ 0 then pma.promoteForMany settings inserted else pma)
      (fun _ left ↦ left = pma) := by
    refine ends_when (fun hslots ↦ ?_) fun hnone ↦ (if_neg hnone).symm
    rw [if_pos hslots]
    exact promoteAsking_ends.mono_throw fun _ _ hleft ↦ hleft.1
  refine ends_get_bind (hpromoted.bind ?_)
  rintro - _ rest - rfl
  exact ends_modify rfl

theorem needsWide_allocateSlots (hpos : 0 < count) :
    (pma.allocateSlots count).needsWide settings inserted = pma.needsWide settings inserted := by
  unfold needsWide wideReferences allocateSlots wideReferences
  cases pma.blocks with
  | nil => rfl
  | cons block blocks => simp [hpos.ne']

theorem firstAsking_ends {size : ℕ} (hpos : 0 < count) :
    Ends (firstAsking settings reserved count inserted size) pma script (fun _ _ ↦ True)
      (fun _ left ↦ left = pma ∨ left = pma.allocateSlots count ∧
        pma.needsWide settings inserted = true ∧ reserved.blocks < count) := by
  have hcapacity : (pma.allocateSlots count).capacity = count := (sound_allocateSlots pma).2.1
  have hallocated : Ends (allocateAsking reserved count) pma script
      (fun _ next ↦ next = pma.allocateSlots count) (fun _ left ↦ left = pma) := by
    refine ends_get_bind ((ends_when_request.mono_throw fun _ _ hleft ↦ hleft.1).bind ?_)
    rintro - _ rest - rfl
    exact ends_modify rfl
  refine (hallocated.mono_throw fun _ _ ↦ .inl).bind ?_
  rintro - _ rest - rfl
  refine (promoteAsking_ends.mono_throw ?_).bind fun _ _ _ _ _ ↦ ends_modify trivial
  rintro - _ ⟨rfl, hneeds, hblocks⟩
  exact .inr ⟨rfl, needsWide_allocateSlots hpos ▸ hneeds, hcapacity ▸ hblocks⟩

theorem spreadingAsking_ends : Ends (spreadingAsking settings reserved rank inserted) pma script
    (fun _ _ ↦ True) (fun _ left ↦ left = pma) := by
  have hgrow : Ends (growAsking settings reserved rank inserted) pma script
      (fun _ _ ↦ True) (fun _ left ↦ left = pma) := by
    refine ends_get_bind ?_
    cases grownCapacity settings pma.capacity (pma.size + inserted.length) with
    | error fault => exact ends_throw rfl
    | ok slots =>
      exact (ends_when_request.mono_throw fun _ _ hleft ↦ hleft.1).bind
        fun _ _ _ _ _ ↦ ends_set trivial
  refine ends_get_bind ?_
  split
  · exact hgrow
  · cases pma.redistributeForInsertMany settings rank inserted with
    | none => exact hgrow
    | some spread => exact ends_set trivial

/-- What a call that throws leaves: the same array, or slots without an element. -/
def Leaves (settings : Settings) (reserved : Reserved) (pma : Pma) (insertion : Insertion)
    (left : Pma) : Prop :=
  Same settings pma left ∨ Strands settings reserved pma insertion ∧ left.Stranded

variable {insertion : Insertion}

theorem stranded_allocateSlots (hpos : 0 < count) (hsize : pma.size = 0) :
    (pma.allocateSlots count).Stranded := by
  have hcapacity : (pma.allocateSlots count).capacity = count := (sound_allocateSlots pma).2.1
  refine ⟨(sound_allocateSlots pma).1, by rwa [hcapacity], ?_, hsize⟩
  rw [hcapacity]
  rfl

variable (insertion) in
/-- The first insertion, once the biases are noted. -/
theorem firstAsking_leaves {noted : Pma} {size : ℕ} (hsame : Same settings pma noted)
    (hnone : pma.capacity = 0) (hempty : pma.size = 0) (hrank : insertion.rank ≤ pma.size)
    (hslots : HasSlots settings pma insertion.call)
    (hfirst : insertion.firstSlots settings = .ok count) (hpos : 0 < count)
    (hwide : noted.wideReferences = pma.wideReferences) :
    Ends (firstAsking settings reserved count insertion.inserted size) noted script
      (fun _ _ ↦ True) (fun _ ↦ Leaves settings reserved pma insertion) := by
  refine (firstAsking_ends hpos).mono_throw ?_
  rintro - _ (rfl | ⟨rfl, hneeds, hblocks⟩)
  · exact .inl hsame
  · unfold needsWide at hneeds
    rw [hwide] at hneeds
    exact .inr ⟨⟨hnone, hrank, hslots, hneeds, count, hfirst, hblocks⟩,
      stranded_allocateSlots hpos (hsame.size.trans hempty)⟩

theorem prepareInsert_wide (hnone : pma.capacity = 0) :
    (pma.prepareInsert settings rank inserted endpoint).wideReferences = pma.wideReferences := by
  unfold prepareInsert noteInsert
  rw [if_neg (not_not.mpr hnone)]
  split
  · rfl
  · split
    · rfl
    · rfl

theorem insertAsking_ends (h : pma.Sound) (hempty : pma.capacity = 0 → pma.size = 0) :
    Ends (insertAsking settings reserved rank value) pma script (fun _ _ ↦ True)
      (fun _ ↦ Leaves settings reserved pma (.one rank value)) := by
  have hsame : Same settings pma (pma.prepareInsert settings rank [value] .byRank) :=
    same_prepareInsert h _
  refine ends_get_bind ?_
  split
  · exact ends_throw (.inl (.refl h))
  rename_i hrank
  split
  · exact ends_throw (.inl (.refl h))
  rename_i hlimit
  refine (prepareAsking_ends.mono_throw ?_).bind ?_
  · rintro - _ rfl
    exact .inl (.refl h)
  rintro - _ rest - rfl
  refine ends_get_bind ?_
  split
  · rename_i hnone
    have hnone := hsame.within.capacity.symm.trans hnone
    have hsize := hempty hnone
    have hslots : HasSlots settings pma (Insertion.one rank value).call :=
      ⟨by omega, fun hslots ↦ absurd hnone hslots⟩
    exact firstAsking_leaves (.one rank value) hsame hnone hsize
      (Nat.le_of_not_lt hrank) hslots rfl (by decide) (prepareInsert_wide hnone)
  split
  · exact ends_set trivial
  split
  · exact ends_set trivial
  refine ends_get_bind ?_
  split
  · exact ends_set trivial
  split
  · exact ends_set trivial
  refine spreadingAsking_ends.mono_throw ?_
  rintro - _ rfl
  exact .inl hsame

theorem insertManyAsking_ends (h : pma.Sound) (hempty : pma.capacity = 0 → pma.size = 0) :
    Ends (insertManyAsking settings reserved rank values endpoint) pma script (fun _ _ ↦ True)
      (fun _ ↦ Leaves settings reserved pma (.many rank values endpoint)) := by
  have hsame : Same settings pma (pma.prepareInsert settings rank values endpoint) :=
    same_prepareInsert h _
  refine ends_get_bind ?_
  split
  · exact ends_throw (.inl (.refl h))
  rename_i hrank
  split
  · exact ends_pure trivial
  rename_i hsome
  split
  · exact ends_throw (.inl (.refl h))
  rename_i hlimit
  refine (prepareAsking_ends.mono_throw ?_).bind ?_
  · rintro - _ rfl
    exact .inl (.refl h)
  rintro - _ rest - rfl
  refine ends_get_bind ?_
  split
  · rename_i hnone
    have hnone := hsame.within.capacity.symm.trans hnone
    have hsize := hempty hnone
    have hlen : values.length ≤ limit := by omega
    rw [hsame.size, hsize, Nat.zero_add]
    cases hslots : minimumCapacity settings values.length with
    | error fault => exact ends_throw (.inl hsame)
    | ok slots =>
      have hpos := (minimumCapacity_spec (length_pos_of_ne_nil hsome) hlen hslots).2.1
      have htakes : HasSlots settings pma (Insertion.many rank values endpoint).call := by
        intro _
        rw [hsize, Nat.zero_add]
        exact ⟨⟨hlen, fun hslots ↦ absurd hnone hslots⟩, fun _ ↦ minimumCapacity_ok hslots⟩
      exact firstAsking_leaves (.many rank values endpoint) hsame hnone hsize
        (Nat.le_of_not_lt hrank) htakes hslots hpos (prepareInsert_wide hnone)
  split
  · exact ends_set trivial
  split
  · exact ends_set trivial
  refine spreadingAsking_ends.mono_throw ?_
  rintro - _ rfl
  exact .inl hsame

theorem Refused.leaves (h : Refused settings reserved insertion pma left) (hsound : pma.Sound)
    (hempty : pma.capacity = 0 → pma.size = 0) : Leaves settings reserved pma insertion left := by
  obtain ⟨script, rest, hrun⟩ := h
  cases insertion with
  | one rank value => exact (insertAsking_ends hsound hempty).of_error hrun
  | many rank values endpoint => exact (insertManyAsking_ends hsound hempty).of_error hrun

end Ends

/-! ## Insertions after a refusal -/

/-- The array reads as the list, and a further insertion that is granted memory does to it what it
does to the list, unless there are no slots for what it inserts. -/
def Recovers (settings : Settings) (values : List ListValueRef) (left : Pma) : Prop :=
  Refines settings left values ∧
    ∀ reserved (next : Insertion), InBounds settings left next.call →
      (next.asking settings reserved left []).result = .ok () ∧
          Refines settings (next.asking settings reserved left []).state (next.call.apply values) ∨
        (∃ fault, (next.asking settings reserved left []).result = .error (.fault fault)) ∧
          Refines settings (next.asking settings reserved left []).state values ∧
          ¬HasSlots settings left next.call

theorem Represents.insertion (hshift : settings.chunkShift < 32)
    (h : Represents settings pma values)
    {insertion : Insertion} (hbounds : InBounds settings pma insertion.call) :
    Performs settings values (insertion.call.apply values) (¬HasSlots settings pma insertion.call)
      (insertion.result settings pma) := by
  have hsize := h.size_eq
  cases insertion with
  | one rank value => exact h.insert hshift hbounds.2 (hsize ▸ hbounds.1)
  | many rank values endpoint =>
    exact h.insertMany hshift hbounds.2 (hsize ▸ hbounds.1) endpoint

theorem Represents.recovers (hshift : settings.chunkShift < 32)
    (h : Represents settings left values) : Recovers settings values left := by
  refine ⟨h.refines, fun reserved next hbounds ↦ ?_⟩
  rw [next.asking_granted]
  rcases h.insertion hshift hbounds with ⟨hdone, hnext⟩ | ⟨⟨fault, hrefused⟩, hnext, hfull⟩
  · exact .inl ⟨congrArg (Except.mapError _) hdone, hnext.refines⟩
  · exact .inr ⟨⟨fault, congrArg (Except.mapError _) hrefused⟩, hnext.refines, hfull⟩

theorem words_set_behind {bitmap : Bitmap} {slot : ℕ} {occupied : Bool}
    (hslot : bitmap.words.length ≤ slot / 64) :
    (bitmap.set slot occupied).words = bitmap.words := by
  rw [Bitmap.set]
  split
  · rfl
  · split
    · exact set_eq_of_length_le hslot
    · exact set_eq_of_length_le hslot

theorem Stranded.same (h : pma.Stranded) (hsame : Same settings pma left) : left.Stranded := by
  refine ⟨hsame.within.sound, ?_, ?_, hsame.size.trans h.size⟩
  · rw [hsame.within.capacity]
    exact h.capacity
  · rw [hsame.occupied, hsame.within.capacity, h.occupied]

/-- The first element of an array with slots and no element is looked for behind the last word, so
that an insertion there is lost. -/
theorem Stranded.insert_lost (h : left.Stranded) :
    (left.insert settings 0 {}).2 = .ok () ∧
      (left.insert settings 0 {}).1.occupied.words = (zeros left.capacity).words := by
  have hsame : Same settings left (left.prepareInsert settings 0 [{}] .byRank) :=
    same_prepareInsert h.sound _
  have hselect : (left.prepareInsert settings 0 [{}] .byRank).selectSlot 0 =
      64 * wordCount left.capacity + 64 := by
    rw [selectSlot, hsame.occupied, h.occupied, select_zeros]
  have hrun : left.insert settings 0 {} = (putSlot settings
      (left.prepareInsert settings 0 [{}] .byRank)
      ((left.prepareInsert settings 0 [{}] .byRank).selectSlot 0 - 1) {}, .ok ()) := by
    rw [Pma.insert, if_neg (by omega), if_neg (by rw [h.size]; decide),
      if_neg (by rw [hsame.within.capacity]; exact h.capacity.ne'), if_pos ⟨rfl, by omega⟩]
  rw [hrun]
  refine ⟨rfl, ?_⟩
  generalize left.prepareInsert settings 0 [{}] .byRank = noted at *
  have hslot : (zeros left.capacity).words.length ≤ (noted.selectSlot 0 - 1) / 64 := by
    rw [zeros, length_replicate]
    omega
  rw [putSlot, setOccupied, writeSlot, storeSlot_occupied,
    (same_promoteFor hsame.within.sound).occupied, hsame.occupied, h.occupied]
  exact words_set_behind hslot

theorem Stranded.not_recovers (h : left.Stranded) : ¬Recovers settings [] left := by
  rintro ⟨-, hnext⟩
  obtain ⟨hreply, hlost⟩ := h.insert_lost
  have hanswers := hnext {} (.one 0 {}) ⟨zero_le _, by simp [Readable]⟩
  rw [Insertion.asking_granted] at hanswers
  rcases hanswers with ⟨-, hrefines⟩ | ⟨⟨fault, hrefused⟩, -⟩
  · have hcheck : (left.insert settings 0 {}).1.checkInvariants = true := hrefines.checkInvariants
    rw [checkInvariants, hlost, show (left.insert settings 0 {}).1.size = 1 from hrefines.size]
      at hcheck
    split at hcheck
    · simp at hcheck
    · obtain ⟨-, -, -, -, hsum, -⟩ := of_decide_eq_true hcheck
      rw [sum_popcounts_zeros] at hsum
      cases hsum
  · rw [granted, Insertion.result, hreply] at hrefused
    cases hrefused

/-! ## The slots are granted and the promotion is refused -/

theorem prepareAsking_without_slots (hnone : pma.capacity = 0) :
    prepareAsking settings reserved rank inserted endpoint pma script
      = ⟨.ok (), pma.prepareInsert settings rank inserted endpoint, script⟩ := by
  unfold prepareAsking prepareInsert
  rw [Comp.get_bind, Comp.when_neg (not_not.mpr hnone), if_neg (not_not.mpr hnone)]
  rfl

theorem firstAsking_refused {size : ℕ} (hpos : 0 < count)
    (hwide : pma.needsWide settings inserted = true) (hblocks : reserved.blocks < count) :
    ∃ script, firstAsking settings reserved count inserted size pma script
      = ⟨.error .maxMemoryExceeded, pma.allocateSlots count, []⟩ := by
  have hcapacity : (pma.allocateSlots count).capacity = count := (sound_allocateSlots pma).2.1
  have hallocated : ∃ script, allocateAsking reserved count pma script
      = ⟨.ok (), pma.allocateSlots count, [true]⟩ := by
    unfold allocateAsking
    by_cases hlacks : reserved.Lacks pma.wideReferences count
    · refine ⟨[false, true], ?_⟩
      rw [Comp.get_bind, Comp.when_pos hlacks]
      rfl
    · refine ⟨[true], ?_⟩
      rw [Comp.get_bind, Comp.when_neg hlacks]
      rfl
  obtain ⟨script, hscript⟩ := hallocated
  refine ⟨script, ?_⟩
  unfold firstAsking
  rw [Comp.bind_ok hscript]
  refine Comp.bind_error ?_
  unfold promoteAsking
  rw [Comp.get_bind, Comp.when_pos (by rw [needsWide_allocateSlots hpos, hwide]),
    Comp.when_pos (by rw [hcapacity]; exact hblocks)]
  rfl

theorem Strands.refused {insertion : Insertion} (h : Strands settings reserved pma insertion)
    (hsound : pma.Sound) (hsize : pma.size = 0) :
    ∃ left, Refused settings reserved insertion pma left ∧ left.Stranded := by
  obtain ⟨hnone, hrank, hslots, hwide, count, hfirst, hblocks⟩ := h
  have hsame (endpoint : EndpointBias) : Same settings pma
      (pma.prepareInsert settings insertion.rank insertion.inserted endpoint) :=
    same_prepareInsert hsound endpoint
  have hneeds (endpoint : EndpointBias) : needsWide settings (pma.prepareInsert settings
      insertion.rank insertion.inserted endpoint) insertion.inserted = true := by
    unfold needsWide at hwide ⊢
    rwa [prepareInsert_wide hnone]
  cases insertion with
  | one rank value =>
    dsimp only [Insertion.rank, Insertion.inserted] at hrank hsame hneeds
    cases hfirst
    have hpos : 0 < initialCapacity := by decide
    obtain ⟨script, hrun⟩ := firstAsking_refused hpos (hneeds .byRank) hblocks
    refine ⟨_, ⟨script, [], ?_⟩, stranded_allocateSlots hpos ((hsame .byRank).size.trans hsize)⟩
    change insertAsking settings reserved rank value pma script = _
    unfold insertAsking
    rw [Comp.get_bind, if_neg (Nat.not_lt.mpr hrank), if_neg (by rw [hsize]; decide),
      Comp.bind_ok (prepareAsking_without_slots hnone), Comp.get_bind,
      if_pos ((hsame .byRank).within.capacity.trans hnone)]
    exact hrun
  | many rank values endpoint =>
    dsimp only [Insertion.rank, Insertion.inserted] at hrank hsame hneeds hwide
    have hsome : values ≠ [] := by
      rintro rfl
      simp [needsWide] at hwide
    have hlen := (hslots hsome).1.1
    rw [hsize, Nat.zero_add] at hlen
    have hpos := (minimumCapacity_spec (length_pos_of_ne_nil hsome) hlen hfirst).2.1
    have hnoted : (pma.prepareInsert settings rank values endpoint).size = 0 :=
      (hsame endpoint).size.trans hsize
    obtain ⟨script, hrun⟩ := firstAsking_refused hpos (hneeds endpoint) hblocks
    refine ⟨_, ⟨script, [], ?_⟩, stranded_allocateSlots hpos hnoted⟩
    change insertManyAsking settings reserved rank values endpoint pma script = _
    unfold insertManyAsking
    rw [Comp.get_bind, if_neg (Nat.not_lt.mpr hrank), if_neg hsome, if_neg (by omega),
      Comp.bind_ok (prepareAsking_without_slots hnone), Comp.get_bind,
      if_pos ((hsame endpoint).within.capacity.trans hnone), hnoted, Nat.zero_add,
      show minimumCapacity settings values.length = .ok count from hfirst]
    exact hrun

/-! ## Refused insertions -/

theorem Represents.size_eq_zero (h : Represents settings pma values) (hnone : pma.capacity = 0) :
    values = [] ∧ pma.size = 0 := by
  rcases h with ⟨rfl, hcleared⟩ | ⟨-, hholds⟩
  · exact ⟨rfl, hcleared.size⟩
  · exact absurd hnone hholds.capacity_pos.ne'

/-- A reference that does not fit in one word. -/
def farRef : ListValueRef := { block := 4096, length := 3 }

/-- Eight elements fill the slots of an array. -/
def filledPma : Pma := (run defaultSettings (insertions 8) {}).1

end GoblinCore.AdaptivePma.Pma
