import GoblinCore.Foundation.Refusable

/-!
# The memory ceiling

`ensure_memory_growth` throws `MaxMemoryExceeded` when a store allocation would cross the limit.
The ceiling is a script of decisions, so a result for every script is a result for every limit and
every footprint.  A vector asks only when it is full; its capacity is part of the model.
-/

namespace GoblinCore

open Refusable Comp

/-- The exceptions the store layer throws.  `MaxMemoryExceeded` is the only one that the command
dispatcher catches.  A run that does what the language leaves undefined ends with
`undefinedBehavior`. -/
inductive Thrown where
  | maxMemoryExceeded
  | undefinedBehavior
  | lengthError (what : String)
  | logicError (what : String)
  deriving DecidableEq, Repr

abbrev StoreComp (σ α : Type) := Comp Thrown σ α

namespace MemoryLimit

variable {σ : Type}

/-- `ensure_memory_growth` for a non-zero number of bytes. -/
def ensureMemoryGrowth : StoreComp σ Unit := request .maxMemoryExceeded

/-- `memory_growth_allowed`; growth by zero bytes is always allowed. -/
def memoryGrowthAllowed (growth : ℕ) : StoreComp σ Bool :=
  if growth = 0 then pure true else allowed

/-- The capacity `reserve_memory_vector_for_push` asks for. -/
def pushCapacity (capacity initialCapacity : ℕ) : ℕ :=
  if capacity = 0 then max 1 initialCapacity else capacity * 2

/-- `reserve_memory_vector_for_push` on a vector that is part of the state. -/
def reserveForPush (length capacity : σ → ℕ) (setCapacity : σ → ℕ → σ) (initialCapacity : ℕ) :
    StoreComp σ Unit := do
  let s ← get
  if length s < capacity s then
    pure ()
  else
    ensureMemoryGrowth
    set (setCapacity s (pushCapacity (capacity s) initialCapacity))

variable {s : σ} {script : Script} {E : Thrown → σ → Prop}

theorem ensureMemoryGrowth_ends (hrefused : true ∈ script → E .maxMemoryExceeded s) :
    Comp.Ends ensureMemoryGrowth s script (fun _ s' ↦ s' = s) E :=
  ends_request rfl hrefused

theorem ensureMemoryGrowth_bind_ends {β : Type} {next : Unit → StoreComp σ β} {R : β → σ → Prop}
    (hrefused : true ∈ script → E .maxMemoryExceeded s)
    (hnext : ∀ rest, rest <:+ script → Comp.Ends (next ()) s rest R E) :
    Comp.Ends (ensureMemoryGrowth >>= next) s script R E := by
  apply (ensureMemoryGrowth_ends hrefused).bind
  intro _ s' rest hsuf hsame
  subst s'
  exact hnext rest hsuf

theorem memoryGrowthAllowed_ends (growth : ℕ) :
    Comp.Ends (memoryGrowthAllowed growth) s script (fun _ s' ↦ s' = s) E := by
  unfold memoryGrowthAllowed
  split
  · exact ends_pure rfl
  · exact ends_allowed fun _ ↦ rfl

/-- Reserving changes nothing but the capacity, whether it is granted or not. -/
theorem reserveForPush_ends {length capacity : σ → ℕ} {setCapacity : σ → ℕ → σ}
    {initialCapacity : ℕ} {Q : Unit → σ → Prop} (hroom : Q () s)
    (hgrown : ∀ n, Q () (setCapacity s n)) (hrefused : true ∈ script → E .maxMemoryExceeded s) :
    Comp.Ends (reserveForPush length capacity setCapacity initialCapacity) s script Q E := by
  apply ends_get_bind
  by_cases hfree : length s < capacity s
  · rw [if_pos hfree]
    exact ends_pure hroom
  · rw [if_neg hfree]
    apply (ensureMemoryGrowth_ends hrefused).bind
    intro _ s' rest _ _
    exact ends_set (hgrown _)

end MemoryLimit

end GoblinCore
