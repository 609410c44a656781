import GoblinCore.Foundation.Framing
import GoblinCore.Store.Keyspace

/-!
# Compaction keys

A record of the replication log is filed under a key made of the components that name its logical
unit.  The key holds the number of components in one byte, and each component behind its length.
-/

namespace GoblinCore.Replication

open List

/-- The components, each behind its length. -/
def framedComponents (components : List Bytes) : Bytes :=
  components.flatMap fun component ↦ word32 component.length ++ component

/-- The number of components is cut to a byte. -/
def makeReplicationCompactionKey (components : List Bytes) : Except String Bytes :=
  if components.any fun component ↦ 2 ^ 32 - 1 < component.length then
    .error "replication compaction component is too large"
  else .ok (UInt8.ofNat components.length :: framedComponents components)

/-- The number of the components and their lengths fit in the fields for them. -/
def Framable (components : List Bytes) : Prop :=
  components.length ≤ 255 ∧ ∀ component ∈ components, component.length ≤ 2 ^ 32 - 1

variable {components others : List Bytes}

theorem framedComponents_inj (hlen : components.length = others.length)
    (hshort : ∀ component ∈ components, component.length ≤ 2 ^ 32 - 1)
    (hoths : ∀ component ∈ others, component.length ≤ 2 ^ 32 - 1)
    (h : framedComponents components = framedComponents others) : components = others := by
  induction components generalizing others with
  | nil => exact (length_eq_zero_iff.mp hlen.symm).symm
  | cons component components ih =>
    cases others with
    | nil => cases hlen
    | cons other others =>
      rw [forall_mem_cons] at hshort hoths
      simp only [framedComponents, flatMap_cons, append_assoc] at h
      -- The length comes first and says where the component ends.
      have hsize : component.length = other.length := by
        rw [← readWord32_append (by omega : component.length < 2 ^ 32), h,
          readWord32_append (by omega)]
      have hrest := (append_inj h rfl).2
      rw [(append_inj hrest hsize).1, ih (by simpa using hlen) hshort.2 hoths.2
        (append_inj hrest hsize).2]

theorem makeReplicationCompactionKey_ok (h : Framable components) :
    makeReplicationCompactionKey components =
      .ok (UInt8.ofNat components.length :: framedComponents components) := by
  rw [makeReplicationCompactionKey, if_neg]
  simpa using h.2

/-- Keys of different units are different. -/
theorem makeReplicationCompactionKey_injective (h : Framable components) (hoths : Framable others)
    (heq : makeReplicationCompactionKey components = makeReplicationCompactionKey others) :
    components = others := by
  rw [makeReplicationCompactionKey_ok h, makeReplicationCompactionKey_ok hoths] at heq
  obtain ⟨hcount, hframed⟩ := cons.inj (Except.ok.inj heq)
  have hlen : components.length = others.length := by
    have hbyte := congrArg UInt8.toNat hcount
    rw [UInt8.toNat_ofNat', UInt8.toNat_ofNat'] at hbyte
    have hfew := h.1
    have hfew' := hoths.1
    omega
  exact framedComponents_inj hlen h.2 hoths.2 hframed

/-- A key and a field that are split differently. -/
theorem makeReplicationCompactionKey_split :
    makeReplicationCompactionKey [[104], [117, 49], [102]] ≠
      makeReplicationCompactionKey [[104], [117], [49, 102]] := by
  intro heq
  have hsame := makeReplicationCompactionKey_injective (by simp [Framable]) (by simp [Framable]) heq
  cases hsame

end GoblinCore.Replication
