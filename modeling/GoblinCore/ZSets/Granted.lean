import GoblinCore.ZSets.SortedSetLaws

/-!
# Computations that return when no memory is refused

The steps on the score index and on a listpack end with an error only where a request for memory is
refused.  A new member of a full sorted set may also be too long, or one too many, and that is found
out before anything is changed.
-/

namespace GoblinCore

open Refusable MemoryLimit Comp

/-! ## Computations that return -/

theorem catchBadAlloc_returns {σ : Type} {body : StoreComp σ Unit} (h : Returns body) :
    Returns (ChunkedSortedList.catchBadAlloc body) := h.tryCatch

theorem memoryGrowthAllowed_returns {σ : Type} (growth : ℕ) :
    Returns (memoryGrowthAllowed growth : StoreComp σ Bool) := by
  unfold memoryGrowthAllowed
  split
  · exact returns_pure
  · exact returns_allowed

namespace ScoreIndex

variable {α σ : Type} {options : IndexOptions}

variable {position : ℕ}

theorem splitBlock_returns :
    Returns (splitBlock options position : StoreComp (ChunkedSortedList α) Unit) :=
  returns_request.bind fun _ ↦ returns_request.bind fun _ ↦ returns_modify

theorem reserveBlock_returns {required : ℕ} :
    Returns (reserveBlock options position required : StoreComp (ChunkedSortedList α) Unit) :=
  returns_get.bind fun _ ↦
    (returns_request.bind fun _ ↦ returns_set).when

theorem mergeWithNext_returns :
    Returns (mergeWithNext options position : StoreComp (ChunkedSortedList α) Unit) := by
  refine returns_get.bind fun index ↦ ?_
  split
  · refine Returns.when ((memoryGrowthAllowed_returns _).bind fun granted ↦ Returns.when ?_)
    exact returns_modify.bind fun _ ↦ (catchBadAlloc_returns splitBlock_returns).when
  · exact returns_pure

theorem eraseAt_returns {policy : EraseRebalancePolicy} {location : ℕ × ℕ} :
    Returns (eraseAt options policy location : StoreComp (ChunkedSortedList α) Unit) :=
  returns_get.bind fun _ ↦ returns_set.bind fun _ ↦
    (returns_get.bind fun _ ↦
      (returns_get.bind fun _ ↦ mergeWithNext_returns).when).when

theorem insert_returns {test : α → Bool} {value : α} :
    Returns (insert options test value : StoreComp (ChunkedSortedList α) Unit) := by
  refine returns_request.bind fun _ ↦ returns_get.bind fun index ↦ ?_
  split
  · exact returns_request.bind fun _ ↦ returns_modify.bind fun _ ↦
      returns_request.bind fun _ ↦ returns_modify
  · refine splitBlock_returns.when.bind fun _ ↦ returns_get.bind fun _ ↦ ?_
    exact reserveBlock_returns.bind fun _ ↦ returns_modify.bind fun _ ↦
      (catchBadAlloc_returns splitBlock_returns).when

theorem transferInto_returns {source target : ℕ × ℕ} {value : α} :
    Returns (transferInto options source target value : StoreComp (ChunkedSortedList α) Unit) := by
  refine returns_get.bind fun _ ↦ reserveBlock_returns.bind fun _ ↦
    returns_modify.bind fun _ ↦ eraseAt_returns.bind fun _ ↦ Returns.when ?_
  exact returns_get.bind fun _ ↦ (catchBadAlloc_returns mergeWithNext_returns).when

theorem rescore_returns [Score σ] {view : ℕ → Bytes} {old new : ScoreEntry σ} :
    Returns (rescore options view old new) := by
  refine returns_request.bind fun _ ↦ returns_get.bind fun index ↦ ?_
  split
  · exact returns_pure
  dsimp only
  split
  · exact returns_modify.bind fun _ ↦ returns_pure
  · refine Returns.bind (returns_get.bind fun _ ↦ ?_) fun _ ↦ returns_pure
    split
    · exact splitBlock_returns.bind fun _ ↦ transferInto_returns
    · exact transferInto_returns

end ScoreIndex

namespace SortedSet

open Ordered Ranking ScoreIndex
open CompactListpack (maxMemberLen maxBlobBytes)

variable {σ : Type} [Score σ] {member : Bytes} {score : σ}

namespace Listpack

theorem widenFor_returns : Returns (widenFor score) :=
  returns_get.bind fun _ ↦ (returns_request.bind fun _ ↦ returns_set).when

omit [Score σ] in
theorem eraseAt_returns : Returns (eraseAt member : StoreComp (Listpack σ) Unit) :=
  returns_request.bind fun _ ↦ returns_modify

theorem insertSorted_returns : Returns (insertSorted score member) :=
  returns_request.bind fun _ ↦ returns_modify

theorem add_returns {maxEntries : ℕ} : Returns (add maxEntries score member) := by
  refine returns_get.bind fun lp ↦ ?_
  split
  · exact returns_pure
  split
  · split
    · exact returns_pure
    refine Returns.bind (returns_get.bind fun _ ↦ ?_) fun _ ↦ returns_pure
    split
    · exact widenFor_returns.bind fun _ ↦ returns_modify
    · exact (widenFor_returns.bind fun _ ↦ eraseAt_returns).bind fun _ ↦ insertSorted_returns
  · exact widenFor_returns.bind fun _ ↦ insertSorted_returns.bind fun _ ↦ returns_pure

omit [Score σ] in
theorem remove_returns : Returns (remove member : StoreComp (Listpack σ) Bool) := by
  refine returns_get.bind fun lp ↦ ?_
  split
  · exact returns_pure
  · exact eraseAt_returns.bind fun _ ↦ returns_pure

theorem optimize_returns : Returns (optimize : StoreComp (Listpack σ) Unit) :=
  returns_get.bind fun _ ↦ (returns_request.bind fun _ ↦ returns_set).when

end Listpack

/-- Why a new member is not taken. -/
def refusal (size : ℕ) (member : Bytes) : Option Thrown :=
  if 2 ^ 32 - 1 ≤ size then some (.lengthError "zset member id space exhausted")
  else if 65535 < member.length then some (.lengthError "zset member too large")
  else none

end SortedSet

end GoblinCore
