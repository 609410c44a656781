import Mathlib.Algebra.BigOperators.Group.List.Basic
import Mathlib.Algebra.Order.Ring.Nat
import Mathlib.Data.List.NodupEquivFin
import Mathlib.Data.List.Range

/-!
# The inbox of a libfabric peer

Messages of a peer carry sequence numbers from 1 on and may arrive in any order and more than once.
The next one expected is delivered at once, together with those that waited for it; one that is
ahead waits, as long as it stays within a window of numbers and of bytes.

Sequence numbers are 64-bit words in the source.  The one expected grows by one with each message
delivered, so that it does not wrap, and they are natural numbers here.
-/

namespace GoblinCore.Transport

open List

structure Pending (M : Type) where
  sequence : ℕ
  bytes : ℕ
  message : M

structure OrderedInbox (M : Type) where
  nextExpected : ℕ := 1
  pending : List (Pending M) := []
  pendingBytes : ℕ := 0
  maxMessages : ℕ
  maxBytes : ℕ

inductive OrderResult where
  | delivered
  | sequestered
  | duplicate
  | overflow
deriving DecidableEq

/-- The last element is moved to an index and taken off the end. -/
def swapRemove {α : Type} (list : List α) (index : ℕ) : List α :=
  match list.getLast? with
  | none => []
  | some last => (list.set index last).dropLast

variable {index : ℕ}

theorem swapRemove_perm {α : Type} {list : List α} (h : index < list.length) :
    swapRemove list index ~ list.eraseIdx index := by
  have hne : list ≠ [] := ne_nil_of_length_pos (Nat.zero_lt_of_lt h)
  have hset : list.set index (list.getLast hne) ≠ [] := by simpa using hne
  have hlast : (list.set index (list.getLast hne)).getLast hset = list.getLast hne := by
    rw [getLast_eq_getElem, getElem_set]
    split
    · rfl
    · simp [getLast_eq_getElem]
  have hperm := set_perm_cons_eraseIdx h (list.getLast hne)
  rw [← dropLast_append_getLast hset, hlast] at hperm
  rw [swapRemove, getLast?_eq_some_getLast hne]
  exact (perm_append_singleton _ _).symm.trans hperm |>.cons_inv

theorem length_swapRemove {α : Type} {list : List α} (h : index < list.length) :
    (swapRemove list index).length + 1 = list.length := by
  rw [(swapRemove_perm h).length_eq, length_eraseIdx_of_lt h]
  omega

namespace OrderedInbox

variable {M : Type}

/-- The loop of `drain`: the inbox it leaves and what it delivers. -/
def drain (inbox : OrderedInbox M) : OrderedInbox M × List (ℕ × M) :=
  match inbox.pending.findFinIdx? fun item ↦ item.sequence = inbox.nextExpected with
  | none => (inbox, [])
  | some found =>
    let ready := inbox.pending.get found
    let rest := drain { inbox with
      pendingBytes := inbox.pendingBytes - ready.bytes
      pending := swapRemove inbox.pending found
      nextExpected := inbox.nextExpected + 1 }
    (rest.1, (ready.sequence, ready.message) :: rest.2)
termination_by inbox.pending.length
decreasing_by
  have hlen := length_swapRemove found.isLt
  omega

/-- The answer to a message, the inbox after it and what it delivers. -/
def push (inbox : OrderedInbox M) (sequence : ℕ) (message : M) (messageBytes : ℕ) :
    OrderResult × OrderedInbox M × List (ℕ × M) :=
  if sequence < inbox.nextExpected then (.duplicate, inbox, [])
  else if sequence = inbox.nextExpected then
    let drained := drain { inbox with nextExpected := inbox.nextExpected + 1 }
    (.delivered, drained.1, (sequence, message) :: drained.2)
  else if inbox.maxMessages ≤ sequence - inbox.nextExpected ∨
      inbox.maxMessages ≤ inbox.pending.length ∨
      inbox.maxBytes - inbox.pendingBytes < messageBytes then (.overflow, inbox, [])
  else if inbox.pending.any fun item ↦ item.sequence = sequence then (.duplicate, inbox, [])
  else
    (.sequestered, { inbox with
      pendingBytes := inbox.pendingBytes + messageBytes
      pending := inbox.pending ++ [⟨sequence, messageBytes, message⟩] }, [])

theorem push_unchanged {inbox : OrderedInbox M} {sequence bytes : ℕ} {message : M}
    (hresult : (inbox.push sequence message bytes).1 = .duplicate ∨
      (inbox.push sequence message bytes).1 = .overflow) :
    (inbox.push sequence message bytes).2 = (inbox, []) := by
  unfold push at hresult ⊢
  split_ifs at hresult ⊢ <;> simp_all

end OrderedInbox

/-- A message as it arrives. -/
structure Arrival (M : Type) where
  sequence : ℕ
  message : M
  bytes : ℕ

/-- An inbox with what it has delivered and what it has accepted, each in order. -/
structure History (M : Type) where
  inbox : OrderedInbox M
  delivered : List (ℕ × M) := []
  accepted : List (ℕ × M) := []

namespace History

variable {M : Type}

def push (history : History M) (arrival : Arrival M) : History M :=
  let pushed := history.inbox.push arrival.sequence arrival.message arrival.bytes
  { inbox := pushed.2.1
    delivered := history.delivered ++ pushed.2.2
    accepted := history.accepted ++
      if pushed.1 = .delivered ∨ pushed.1 = .sequestered then
        [(arrival.sequence, arrival.message)]
      else [] }

/-- The messages of a run, from an inbox that has a window and nothing else. -/
def run (maxMessages maxBytes : ℕ) (arrivals : List (Arrival M)) : History M :=
  arrivals.foldl push { inbox := { maxMessages, maxBytes } }

/-- What is delivered and what waits are the messages accepted; those delivered are numbered from 1
on, and those that wait have different numbers within the window. -/
structure Ordered (maxMessages maxBytes : ℕ) (history : History M) : Prop where
  window : history.inbox.maxMessages = maxMessages ∧ history.inbox.maxBytes = maxBytes
  numbers : history.delivered.map Prod.fst = range' 1 history.delivered.length
  expected : history.inbox.nextExpected = history.delivered.length + 1
  accepted : history.accepted ~
    history.delivered ++ history.inbox.pending.map fun item ↦ (item.sequence, item.message)
  distinct : (history.inbox.pending.map Pending.sequence).Nodup
  ahead : ∀ item ∈ history.inbox.pending, history.inbox.nextExpected ≤ item.sequence ∧
    item.sequence < history.inbox.nextExpected + maxMessages
  bytes : history.inbox.pendingBytes = (history.inbox.pending.map Pending.bytes).sum
  within : history.inbox.pendingBytes ≤ maxBytes

/-- Between two messages none waits that could be delivered. -/
structure Settled (maxMessages maxBytes : ℕ) (history : History M) : Prop
    extends Ordered maxMessages maxBytes history where
  apart : ∀ item ∈ history.inbox.pending, item.sequence ≠ history.inbox.nextExpected

variable {maxMessages maxBytes : ℕ} {inbox : OrderedInbox M} {delivered accepted : List (ℕ × M)}

theorem map_fst_append_next (h : delivered.map Prod.fst = range' 1 delivered.length) (message : M) :
    (delivered ++ [(delivered.length + 1, message)]).map Prod.fst
      = range' 1 (delivered ++ [(delivered.length + 1, message)]).length := by
  rw [map_append, h, length_append, length_singleton, range'_concat, one_mul, add_comm 1]
  rfl

/-- One round of `drain` delivers a message that waited. -/
theorem Ordered.deliver (h : Ordered maxMessages maxBytes ⟨inbox, delivered, accepted⟩)
    {found : Fin inbox.pending.length}
    (hfound : (inbox.pending.get found).sequence = inbox.nextExpected) :
    Ordered maxMessages maxBytes ⟨{ inbox with
      pendingBytes := inbox.pendingBytes - (inbox.pending.get found).bytes
      pending := swapRemove inbox.pending found
      nextExpected := inbox.nextExpected + 1 },
      delivered ++ [((inbox.pending.get found).sequence, (inbox.pending.get found).message)],
      accepted⟩ := by
  have hperm : inbox.pending.get found :: swapRemove inbox.pending found ~ inbox.pending :=
    ((swapRemove_perm found.isLt).cons _).trans (getElem_cons_eraseIdx_perm found.isLt)
  generalize inbox.pending.get found = ready at hfound hperm
  generalize swapRemove inbox.pending found = rest at hperm
  have hexpected : inbox.nextExpected = delivered.length + 1 := h.expected
  have hdistinct := nodup_cons.mp ((hperm.map Pending.sequence).nodup_iff.mpr h.distinct)
  have hsum := (hperm.map Pending.bytes).sum_eq.trans h.bytes.symm
  rw [map_cons, sum_cons] at hsum
  rw [hfound, hexpected]
  refine ⟨h.window, map_fst_append_next h.numbers _, by simp, ?_, hdistinct.2, ?_, ?_,
    (Nat.sub_le _ _).trans h.within⟩
  · refine h.accepted.trans ?_
    rw [append_assoc, ← hexpected, ← hfound]
    exact (hperm.symm.map _).append_left _
  · intro item hitem
    have hahead := h.ahead item (hperm.mem_iff.mp (mem_cons_of_mem _ hitem))
    have hne : item.sequence ≠ ready.sequence := fun heq ↦
      hdistinct.1 (heq ▸ mem_map_of_mem hitem)
    dsimp only at hahead ⊢
    omega
  · exact Nat.sub_eq_of_eq_add' hsum.symm

theorem Ordered.drain (h : Ordered maxMessages maxBytes ⟨inbox, delivered, accepted⟩) :
    Settled maxMessages maxBytes ⟨inbox.drain.1, delivered ++ inbox.drain.2, accepted⟩ := by
  fun_induction OrderedInbox.drain inbox generalizing delivered with
  | case1 inbox hnone =>
    rw [findFinIdx?_eq_none_iff] at hnone
    refine ⟨by simpa using h, fun item hitem ↦ by simpa using hnone item hitem⟩
  | case2 inbox found hfound =>
    rename_i ih
    have hready := of_decide_eq_true (findFinIdx?_eq_some_iff.mp hfound).1
    have hrest := ih (h.deliver hready)
    rwa [append_assoc] at hrest

/-- A message that is sequestered. -/
theorem Settled.sequester (h : Settled maxMessages maxBytes ⟨inbox, delivered, accepted⟩)
    {sequence bytes : ℕ} (message : M) (hahead : inbox.nextExpected < sequence)
    (hwindow : sequence < inbox.nextExpected + maxMessages)
    (hfits : inbox.pendingBytes + bytes ≤ maxBytes)
    (hnew : ∀ item ∈ inbox.pending, item.sequence ≠ sequence) :
    Settled maxMessages maxBytes ⟨{ inbox with
      pendingBytes := inbox.pendingBytes + bytes
      pending := inbox.pending ++ [⟨sequence, bytes, message⟩] },
      delivered, accepted ++ [(sequence, message)]⟩ where
  window := h.window
  numbers := h.numbers
  expected := h.expected
  accepted := by
    rw [map_append, ← append_assoc]
    exact h.accepted.append_right _
  distinct := by
    rw [map_append]
    exact nodup_append.mpr ⟨h.distinct, by simp, by simpa using hnew⟩
  ahead := by
    rw [forall_mem_append]
    exact ⟨h.ahead, by simp [hahead.le, hwindow]⟩
  bytes := by simpa using h.bytes
  within := hfits
  apart := by
    rw [forall_mem_append]
    exact ⟨h.apart, by simp [hahead.ne']⟩

/-- The message that is expected is delivered, with those that waited for it. -/
theorem Settled.expect (h : Settled maxMessages maxBytes ⟨inbox, delivered, accepted⟩)
    (message : M) :
    Ordered maxMessages maxBytes ⟨{ inbox with nextExpected := inbox.nextExpected + 1 },
      delivered ++ [(inbox.nextExpected, message)],
      accepted ++ [(inbox.nextExpected, message)]⟩ where
  window := h.window
  numbers := by
    rw [show inbox.nextExpected = delivered.length + 1 from h.expected]
    exact map_fst_append_next h.numbers message
  expected := by simp [show inbox.nextExpected = delivered.length + 1 from h.expected]
  accepted := by
    rw [append_assoc]
    refine (h.accepted.append_right _).trans ?_
    rw [append_assoc]
    exact perm_append_comm.append_left _
  distinct := h.distinct
  ahead item hitem := by
    have hahead := h.ahead item hitem
    have hapart := h.apart item hitem
    dsimp only at hahead hapart ⊢
    omega
  bytes := h.bytes
  within := h.within

variable {history : History M}

theorem Settled.push (h : Settled maxMessages maxBytes history) (arrival : Arrival M) :
    Settled maxMessages maxBytes (history.push arrival) := by
  obtain ⟨inbox, delivered, accepted⟩ := history
  have hsame : Settled maxMessages maxBytes ⟨inbox, delivered ++ [], accepted ++ []⟩ := by
    simpa using h
  unfold History.push OrderedInbox.push
  dsimp only
  split
  · exact hsame
  split
  · rename_i hnext
    have hdrained := (h.expect arrival.message).drain
    rw [append_assoc] at hdrained
    rwa [hnext]
  split
  · exact hsame
  rename_i hless hne hfits
  split
  · exact hsame
  rename_i hnew
  have hwindow : inbox.maxMessages = maxMessages ∧ inbox.maxBytes = maxBytes := h.window
  have hwithin : inbox.pendingBytes ≤ maxBytes := h.within
  rw [append_nil]
  exact h.sequester arrival.message (by omega) (by omega) (by omega) (by simpa using hnew)

theorem run_settled (maxMessages maxBytes : ℕ) (arrivals : List (Arrival M)) :
    Settled maxMessages maxBytes (run maxMessages maxBytes arrivals) := by
  have hstart : Settled maxMessages maxBytes ({ inbox := { maxMessages, maxBytes } } : History M) :=
    ⟨by constructor <;> simp, by simp⟩
  unfold run
  generalize ({ inbox := { maxMessages, maxBytes } } : History M) = history at hstart
  induction arrivals generalizing history with
  | nil => exact hstart
  | cons arrival rest ih => exact ih _ (hstart.push arrival)

/-! ## What a peer is promised -/

/-- The messages 1 to `count` are delivered in order, each being the first one accepted under its
number, and the next one was not accepted; what waits is counted and within the window. -/
structure InOrder (maxBytes : ℕ) (history : History M) (count : ℕ) : Prop where
  numbers : history.delivered.map Prod.fst = range' 1 count
  first : ∀ entry ∈ history.delivered,
    history.accepted.find? (fun other ↦ other.1 = entry.1) = some entry
  accepted : ∀ number, 1 ≤ number → number ≤ count → number ∈ history.accepted.map Prod.fst
  missing : count + 1 ∉ history.accepted.map Prod.fst
  bytes : history.inbox.pendingBytes = (history.inbox.pending.map Pending.bytes).sum
  within : history.inbox.pendingBytes ≤ maxBytes

theorem find?_fst_of_nodup {entries : List (ℕ × M)} {entry : ℕ × M}
    (hnodup : (entries.map Prod.fst).Nodup) (hmem : entry ∈ entries) :
    entries.find? (fun other ↦ other.1 = entry.1) = some entry := by
  obtain ⟨found, hfound⟩ : ∃ found, entries.find? (fun other ↦ other.1 = entry.1) = some found :=
    Option.isSome_iff_exists.mp (find?_isSome.mpr ⟨entry, hmem, decide_eq_true rfl⟩)
  have hkey : found.1 = entry.1 := by simpa using find?_some hfound
  rw [hfound, inj_on_of_nodup_map hnodup (mem_of_find?_eq_some hfound) hmem hkey]

theorem Settled.inOrder (h : Settled maxMessages maxBytes history) :
    InOrder maxBytes history history.delivered.length := by
  have hperm : history.accepted.map Prod.fst ~ range' 1 history.delivered.length ++
      history.inbox.pending.map Pending.sequence := by
    have hmap := h.accepted.map Prod.fst
    rwa [map_append, h.numbers, map_map] at hmap
  have hahead : ∀ number ∈ history.inbox.pending.map Pending.sequence,
      history.delivered.length + 1 < number := by
    rw [forall_mem_map]
    intro item hitem
    have hle := (h.ahead item hitem).1
    have hne := h.apart item hitem
    have hexpected := h.expected
    omega
  have hnodup : (history.accepted.map Prod.fst).Nodup := by
    refine hperm.nodup_iff.mpr (nodup_append.mpr ⟨nodup_range', h.distinct, ?_⟩)
    intro number hnumber other hother
    have hlt := hahead other hother
    rw [mem_range'_1] at hnumber
    omega
  refine ⟨h.numbers, fun entry hentry ↦ find?_fst_of_nodup hnodup ?_, fun number hpos hle ↦ ?_, ?_,
    h.bytes, h.within⟩
  · exact h.accepted.mem_iff.mpr (mem_append_left _ hentry)
  · rw [hperm.mem_iff, mem_append, mem_range'_1]
    exact .inl (by omega)
  · rw [hperm.mem_iff, mem_append, mem_range'_1]
    rintro (hin | hin)
    · omega
    · exact (hahead _ hin).false

/-- No more messages wait than the window has numbers after the one expected. -/
theorem Settled.length_pending (h : Settled maxMessages maxBytes history) :
    history.inbox.pending.length ≤ maxMessages - 1 := by
  have hsubset : history.inbox.pending.map Pending.sequence ⊆
      range' (history.inbox.nextExpected + 1) (maxMessages - 1) := by
    intro number hnumber
    obtain ⟨item, hitem, rfl⟩ := mem_map.mp hnumber
    have hahead := h.ahead item hitem
    have hapart := h.apart item hitem
    rw [mem_range'_1]
    omega
  simpa using (subperm_of_subset h.distinct hsubset).length_le

/-- An overflow is ahead of the window or does not fit its bytes. -/
theorem Settled.overflow (h : Settled maxMessages maxBytes history) {sequence bytes : ℕ}
    {message : M} (hresult : (history.inbox.push sequence message bytes).1 = .overflow) :
    history.delivered.length + 1 + maxMessages ≤ sequence ∨
      maxBytes < history.inbox.pendingBytes + bytes := by
  have hlen := h.length_pending
  have hexpected := h.expected
  obtain ⟨hmessages, hbytes⟩ := h.window
  unfold OrderedInbox.push at hresult
  split_ifs at hresult with hless hnext hover hdup
  omega

/-- A duplicate has the number of a message that was delivered or that waits. -/
theorem Settled.duplicate (h : Settled maxMessages maxBytes history) {sequence bytes : ℕ}
    {message : M} (hresult : (history.inbox.push sequence message bytes).1 = .duplicate) :
    sequence ≤ history.delivered.length ∨
      sequence ∈ history.inbox.pending.map Pending.sequence := by
  have hexpected := h.expected
  unfold OrderedInbox.push at hresult
  split_ifs at hresult with hless hnext hover hdup
  · exact .inl (by omega)
  · exact .inr (by simpa using hdup)

/-- In every run the messages delivered so far are those of the numbers 1 to some `count`, as
`InOrder` says; a message answered as a duplicate or as an overflow changes nothing.  One answered
as a duplicate has a number that was delivered or that waits, and one answered as an overflow is
ahead of the window or does not fit its bytes. -/
theorem run_delivers_in_order (maxMessages maxBytes : ℕ) (arrivals : List (Arrival M)) :
    ∃ count, InOrder maxBytes (run maxMessages maxBytes arrivals) count ∧
      ∀ sequence message bytes,
        let inbox := (run maxMessages maxBytes arrivals).inbox
        let pushed := inbox.push sequence message bytes
        (pushed.1 = .duplicate ∨ pushed.1 = .overflow → pushed.2 = (inbox, [])) ∧
        (pushed.1 = .duplicate →
          sequence ≤ count ∨ sequence ∈ inbox.pending.map Pending.sequence) ∧
        (pushed.1 = .overflow →
          count + 1 + maxMessages ≤ sequence ∨ maxBytes < inbox.pendingBytes + bytes) := by
  have h := run_settled maxMessages maxBytes arrivals
  refine ⟨_, h.inOrder, fun sequence message bytes ↦ ⟨?_, h.duplicate, h.overflow⟩⟩
  exact OrderedInbox.push_unchanged

/-! ## What has arrived -/

def answer (history : History M) (arrival : Arrival M) : OrderResult :=
  (history.inbox.push arrival.sequence arrival.message arrival.bytes).1

/-- Some message was answered as an overflow. -/
def Overflowed (maxMessages maxBytes : ℕ) (arrivals : List (Arrival M)) : Prop :=
  ∃ before arrival after, arrivals = before ++ arrival :: after ∧
    (run maxMessages maxBytes before).answer arrival = .overflow

/-- The first message that arrived under a number. -/
def firstArrival (arrivals : List (Arrival M)) (number : ℕ) : Option (ℕ × M) :=
  (arrivals.find? fun arrival ↦ arrival.sequence = number).map fun arrival ↦
    (arrival.sequence, arrival.message)

variable {arrival : Arrival M} {number : ℕ}

/-- A duplicate was accepted before, unless it has no number. -/
theorem Settled.duplicate_accepted (h : Settled maxMessages maxBytes history)
    (hresult : history.answer arrival = .duplicate) (hpos : 1 ≤ arrival.sequence) :
    arrival.sequence ∈ history.accepted.map Prod.fst := by
  rcases h.duplicate hresult with hle | hwaits
  · exact h.inOrder.accepted _ hpos hle
  · rw [(h.accepted.map Prod.fst).mem_iff, map_append, mem_append, map_map]
    exact .inr hwaits

theorem Settled.find?_push (h : Settled maxMessages maxBytes history)
    (hkept : history.answer arrival ≠ .overflow) (hpos : 1 ≤ number) :
    (history.push arrival).accepted.find? (fun other ↦ other.1 = number) =
      (history.accepted.find? fun other ↦ other.1 = number).or (firstArrival [arrival] number) := by
  rw [History.push, ← answer]
  dsimp only
  rw [find?_append]
  by_cases hnumber : arrival.sequence = number
  · subst hnumber
    cases hresult : history.answer arrival with
    | overflow => exact absurd hresult hkept
    | duplicate =>
      -- One was accepted under this number before, and it stays the first.
      have hsome : (history.accepted.find? fun other ↦ other.1 = arrival.sequence).isSome := by
        simpa using h.duplicate_accepted hresult hpos
      rw [Option.or_of_isSome hsome, Option.or_of_isSome hsome]
    | delivered => simp [firstArrival]
    | sequestered => simp [firstArrival]
  · split <;> simp [firstArrival, hnumber]

theorem find?_accepted {arrivals : List (Arrival M)}
    (h : ¬Overflowed maxMessages maxBytes arrivals) (hpos : 1 ≤ number) :
    (run maxMessages maxBytes arrivals).accepted.find? (fun other ↦ other.1 = number)
      = firstArrival arrivals number := by
  -- The last arrival is pushed into what the run over those before it leaves.
  induction arrivals using reverseRecOn with
  | nil => rfl
  | append_singleton before arrival ih =>
    have hbefore := ih fun ⟨first, other, rest, heq, hover⟩ ↦
      h ⟨first, other, rest ++ [arrival], by rw [heq, append_assoc]; rfl, hover⟩
    rw [run, foldl_append, ← run, foldl_cons, foldl_nil, (run_settled _ _ _).find?_push
      (fun hover ↦ h ⟨before, arrival, [], rfl, hover⟩) hpos, hbefore]
    simp only [firstArrival, find?_append, Option.map_or]

/-- What is delivered depends on what has arrived alone: it is the first message under each of the
numbers from 1 on, up to the first number that is missing. -/
theorem run_delivers_arrived (maxMessages maxBytes : ℕ) (arrivals : List (Arrival M)) :
    let delivered := (run maxMessages maxBytes arrivals).delivered
    Overflowed maxMessages maxBytes arrivals ∨
      delivered = (range' 1 delivered.length).filterMap (firstArrival arrivals) ∧
        firstArrival arrivals (delivered.length + 1) = none := by
  intro delivered
  refine or_iff_not_imp_left.mpr fun h ↦ ?_
  have horder := (run_settled maxMessages maxBytes arrivals).inOrder
  constructor
  · calc
      delivered = delivered.filterMap some := filterMap_some.symm
      _ = delivered.filterMap (firstArrival arrivals ∘ Prod.fst) := by
        refine filterMap_congr fun entry hentry ↦ ?_
        have hpos := (mem_range'_1.mp (horder.numbers ▸ mem_map_of_mem hentry)).1
        rw [Function.comp, ← find?_accepted h hpos, horder.first entry hentry]
      _ = (range' 1 delivered.length).filterMap (firstArrival arrivals) := by
        rw [← filterMap_map, horder.numbers]
  · rw [← find?_accepted h (Nat.le_add_left 1 _), find?_eq_none]
    exact fun entry hentry heq ↦ horder.missing (of_decide_eq_true heq ▸ mem_map_of_mem hentry)

end History

end GoblinCore.Transport
