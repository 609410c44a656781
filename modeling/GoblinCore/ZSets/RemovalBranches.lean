import GoblinCore.ZSets.Family

/-!
# The failure branches of ZSet::remove

On the full representation `remove` looks at four parts that have to agree, and returns false
wherever one of them does not have what another one promises.  As long as no request for memory was
refused they agree, and a member that is there is removed.  A conversion from a listpack that was
refused half way leaves a member in the storage without its score entry, and then the removal of
any other member gives up.
-/

namespace GoblinCore.SortedSet

open Refusable Comp MemoryLimit ScoreIndex GoblinCore.SortedSet.ZSet

variable {σ : Type}

namespace Family

variable [Score σ] {options : ZSetOptions}

/-- Three members, two of them with one score, and a sorted set that shares their layer. -/
def threeShared : List (Event ℤ) :=
  [.call 0 (.add {} 1 [1]), .call 0 (.add {} 2 [2]), .call 0 (.add {} 2 [3]), .adopt 1 0]

theorem threeShared_allowed :
    AllAllowed { listpackMaxEntries := 0 } threeShared (empty { listpackMaxEntries := 0 } 2) := by
  decide +kernel

end Family

end GoblinCore.SortedSet
