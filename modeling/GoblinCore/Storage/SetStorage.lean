import GoblinCore.Storage.PageArena

/-!
# The member storage of sets

Encoded members in a byte arena, found through an offset of 32 bits and a length of 16.  Ids are
dense: a member is removed by copying the last reference over its own and dropping the last one.
-/

namespace GoblinCore

open ChunkedRuns PageArena List
open StringEncoding (ByteString)

structure SetStorage where
  offsets : List ℕ := []
  lengths : List ℕ := []
  arena : Arena := {}
  usedBytes : ℕ := 0
  deadBytes : ℕ := 0

namespace SetStorage

def maxEncodedBytes : ℕ := 65535

/-- The sizes of the blocks of a storage made with the given options. -/
def configured (chunkBytes pageShift : ℕ) (grown : ℕ → ℕ) : Policy :=
  ⟨Policy.configureChunkBytes (2 ^ 16) chunkBytes, pageShift, grown⟩

section

variable (policy : Policy) (storage : SetStorage)

def size : ℕ := storage.offsets.length

def appendEncoded (encoded : ByteString) : ℕ × SetStorage :=
  let appended := append policy storage.arena encoded
  (appended.1,
    { storage with arena := appended.2, usedBytes := storage.usedBytes + encoded.length })

/-- The result, or the text of the `length_error`, and the storage afterwards. -/
def pushBackEncoded (encoded : ByteString) : Except String ℕ × SetStorage :=
  if 2 ^ 32 - 1 ≤ storage.offsets.length then
    (.error "set member id space exhausted", storage)
  else if maxEncodedBytes < encoded.length then (.error "set member too large", storage)
  else
    let appended := storage.appendEncoded policy encoded
    (.ok storage.offsets.length,
      { appended.2 with
        offsets := storage.offsets ++ [appended.1]
        lengths := storage.lengths ++ [encoded.length % 2 ^ 16] })

def view (memberId : ℕ) : ByteString :=
  let length := storage.lengths.getD memberId 0
  if length = 0 then []
  else readRun policy.chunkBytes storage.arena.contents (storage.offsets.getD memberId 0) length

def orphan (memberId : ℕ) : SetStorage :=
  { storage with deadBytes := storage.deadBytes + storage.lengths.getD memberId 0 }

def copyRef (dst src : ℕ) : SetStorage :=
  { storage with
    offsets := storage.offsets.set dst (storage.offsets.getD src 0)
    lengths := storage.lengths.set dst (storage.lengths.getD src 0) }

def popBack : SetStorage :=
  { storage with offsets := storage.offsets.dropLast, lengths := storage.lengths.dropLast }

/-- The members in the order of their ids. -/
def members : List ByteString := (List.range storage.size).map (storage.view policy)

/-- `allowed` is `arena_compaction_allowed()`. -/
def compact (allowed : Bool) : SetStorage :=
  if !allowed || storage.deadBytes = 0 then storage
  else
    let fresh := repack policy 0 {} ((storage.members policy).map some)
    { storage with
      offsets := fresh.1
      arena := fresh.2
      usedBytes := (storage.members policy).flatten.length
      deadBytes := 0 }

def shrinkToFit : SetStorage := { storage with arena := shrinkTail policy storage.arena }

end

/-- An operation on a storage. -/
inductive Call where
  | pushBack (encoded : ByteString)
  | orphan (memberId : ℕ)
  | copyRef (dst src : ℕ)
  | popBack
  | compact (allowed : Bool)
  | shrinkToFit

section

variable (policy : Policy)

/-- What a call returns, with the id where it returns one, and the storage afterwards. -/
def step (storage : SetStorage) : Call → Except String (Option ℕ) × SetStorage
  | .pushBack encoded =>
    let pushed := storage.pushBackEncoded policy encoded
    (pushed.1.map some, pushed.2)
  | .orphan memberId => (.ok none, storage.orphan memberId)
  | .copyRef dst src => (.ok none, storage.copyRef dst src)
  | .popBack => (.ok none, storage.popBack)
  | .compact allowed => (.ok none, storage.compact policy allowed)
  | .shrinkToFit => (.ok none, storage.shrinkToFit policy)

variable (members : List ByteString)

/-- The bytes last stored under each id, in the order of the ids. -/
def Call.apply : Call → List ByteString
  | .pushBack encoded => members ++ [encoded]
  | .copyRef dst src => members.set dst (members.getD src [])
  | .popBack => members.dropLast
  | _ => members

/-- The calls that throw `length_error`: a member when the ids are used up, or one too long. -/
def Call.refuses : Call → Bool
  | .pushBack encoded => 2 ^ 32 - 1 ≤ members.length || maxEncodedBytes < encoded.length
  | _ => false

/-- The bytes stored after a call that may throw. -/
def Call.result (call : Call) : List ByteString :=
  if call.refuses members then members else call.apply members

/-- A call that is refused throws; a new member gets a new id. -/
def Call.Answered (call : Call) (returned : Except String (Option ℕ)) : Prop :=
  if call.refuses members then ∃ message, returned = .error message
  else returned = .ok (match call with
    | .pushBack _ => some members.length
    | _ => none)

/-- What the assertions of the storage ask of a call: the ids it names exist. -/
def Call.Permitted : Call → Prop
  | .orphan memberId => memberId < members.length
  | .copyRef dst src => dst < members.length ∧ src < members.length
  | .popBack => members ≠ []
  | _ => True

/-- A position whose low 32 bits are the position itself; an empty run needs none. -/
def Addressable (position : ℕ) (data : ByteString) : Prop := data ≠ [] → position < 2 ^ 32

/-- The call stores no byte at or beyond position 2^32 of the arena, counting the bytes skipped at
the ends of the blocks. -/
def Call.Fits (storage : SetStorage) : Call → Prop
  | .pushBack encoded =>
    Addressable (place policy.chunkBytes storage.arena.nextOffset encoded.length) encoded
  | .compact allowed =>
    allowed = true → storage.deadBytes ≠ 0 →
      Placed Addressable policy.chunkBytes 0 ((storage.members policy).map some)
  | _ => True

/-! ## What the storage holds -/

/-- The storage holds the members under their ids. -/
structure Represents (storage : SetStorage) (members : List ByteString) : Prop where
  sound : Sound policy storage.arena
  lengths : storage.lengths = members.map List.length
  short : ∀ member ∈ members, member.length ≤ maxEncodedBytes
  kept : List.Forall₂ (fun offset member ↦ storage.arena.Keeps policy offset member)
    storage.offsets members

variable {policy} {storage : SetStorage} {members : List ByteString}

theorem represents_empty : Represents policy {} [] :=
  ⟨sound_empty, rfl, by simp, List.Forall₂.nil⟩

section

variable (h : Represents policy storage members)
include h

theorem Represents.view_eq {memberId : ℕ} {member : ByteString}
    (hmember : members[memberId]? = some member) : storage.view policy memberId = member := by
  obtain ⟨hlt, hget⟩ := List.getElem?_eq_some_iff.mp hmember
  have hoffs := h.kept.length_eq
  have hkept := (forall₂_iff_get.mp h.kept).2 memberId (by omega) hlt
  have hlen : storage.lengths.getD memberId 0 = member.length := by
    rw [h.lengths, getD_eq_getElem?_getD, getElem?_map, hmember]
    rfl
  unfold view
  dsimp only
  rw [hlen]
  split
  · rename_i hzero
    exact (length_eq_zero_iff.mp hzero).symm
  · rw [getD_eq_getElem _ _ (by omega)]
    simp only [get_eq_getElem, hget] at hkept
    exact hkept.1

theorem Represents.members_eq : storage.members policy = members := by
  apply ext_getElem?
  intro memberId
  have hoffs : storage.size = members.length := h.kept.length_eq
  rw [SetStorage.members, getElem?_map, hoffs]
  by_cases hlt : memberId < members.length
  · rw [getElem?_range hlt, getElem?_eq_getElem hlt]
    exact congrArg some (h.view_eq (getElem?_eq_getElem hlt))
  · rw [getElem?_eq_none (by simpa using hlt), getElem?_eq_none (by omega)]
    rfl

theorem Represents.pushBack (hchunk : 2 ^ 16 ≤ policy.chunkBytes) {encoded : ByteString}
    (hfits : (Call.pushBack encoded).Fits policy storage)
    (hshort : encoded.length ≤ maxEncodedBytes) :
    Represents policy
      { (storage.appendEncoded policy encoded).2 with
        offsets := storage.offsets ++ [(storage.appendEncoded policy encoded).1]
        lengths := storage.lengths ++ [encoded.length % 2 ^ 16] } (members ++ [encoded]) := by
  unfold maxEncodedBytes at hshort
  obtain ⟨hoff, happ⟩ := append_appended h.sound (show encoded.length ≤ policy.chunkBytes by omega)
  refine ⟨happ.sound, ?_, ?_, ?_⟩
  · simp only [h.lengths, map_append, map_cons, map_nil]
    rw [Nat.mod_eq_of_lt (by omega)]
  · intro member hmember
    rcases mem_append.mp hmember with hold | hnew
    · exact h.short member hold
    · rw [mem_singleton.mp hnew]
      exact hshort
  · refine rel_append (h.kept.imp fun _ _ ↦ happ.keeps) (List.Forall₂.cons ?_ .nil)
    show Arena.Keeps policy (append policy storage.arena encoded).2
      (append policy storage.arena encoded).1 encoded
    by_cases hne : encoded = []
    · subst hne
      exact keeps_nil
    · rw [hoff, Nat.mod_eq_of_lt (hfits hne)]
      exact happ.stored

theorem Represents.compact (hchunk : 2 ^ 16 ≤ policy.chunkBytes) {allowed : Bool}
    (hfits : (Call.compact allowed).Fits policy storage) :
    Represents policy (storage.compact policy allowed) members := by
  unfold SetStorage.compact
  split
  · exact h
  rename_i hgo
  rw [Bool.or_eq_true, Bool.not_eq_true', decide_eq_true_eq, not_or, Bool.not_eq_false] at hgo
  have hplaced := hfits hgo.1 hgo.2
  rw [h.members_eq] at hplaced ⊢
  have hsize : ∀ data, some data ∈ members.map some → data.length ≤ policy.chunkBytes := by
    intro data hdata
    have hshort := h.short data (by simpa using hdata)
    unfold maxEncodedBytes at hshort
    omega
  obtain ⟨hsound, hruns, -⟩ := repack_readdressed sound_empty hsize hplaced
  refine ⟨hsound, h.lengths, h.short, ?_⟩
  rw [forall₂_map_left_iff] at hruns
  refine hruns.flip.imp ?_
  rintro offset member ⟨position, haddr, hoff, hkeep⟩
  by_cases hne : member = []
  · subst hne
    exact keeps_nil
  · rw [hoff, Nat.mod_eq_of_lt (haddr hne)]
    exact hkeep

theorem Represents.copyRef {dst src : ℕ} (hsrc : src < members.length) :
    Represents policy (storage.copyRef dst src) (members.set dst (members.getD src [])) := by
  have hoffs := h.kept.length_eq
  have hsource : storage.lengths.getD src 0 = (members.getD src []).length := by
    rw [h.lengths, getD_eq_getElem _ _ (by simpa using hsrc), getD_eq_getElem _ _ hsrc, getElem_map]
  refine ⟨h.sound, ?_, ?_, ?_⟩
  · show storage.lengths.set dst (storage.lengths.getD src 0) = _
    rw [hsource, h.lengths, map_set]
  · intro member hmember
    rcases mem_or_eq_of_mem_set hmember with hold | rfl
    · exact h.short member hold
    · rw [getD_eq_getElem _ _ hsrc]
      exact h.short _ (getElem_mem hsrc)
  · have hkept := (forall₂_iff_get.mp h.kept).2 src (by omega) hsrc
    show List.Forall₂ _ (storage.offsets.set dst (storage.offsets.getD src 0)) _
    rw [getD_eq_getElem _ _ (by omega), getD_eq_getElem _ _ hsrc]
    exact forall₂_set h.kept hkept dst

theorem Represents.popBack : Represents policy storage.popBack members.dropLast := by
  refine ⟨h.sound, ?_, fun member hmember ↦ h.short member (dropLast_subset _ hmember), ?_⟩
  · show storage.lengths.dropLast = _
    rw [h.lengths, map_dropLast]
  · show List.Forall₂ _ storage.offsets.dropLast _
    rw [dropLast_eq_take, dropLast_eq_take, h.kept.length_eq]
    exact forall₂_take _ h.kept

theorem Represents.shrinkToFit : Represents policy (storage.shrinkToFit policy) members := by
  obtain ⟨hsound, hkeeps⟩ := shrinkTail_keeps h.sound
  exact ⟨hsound, h.lengths, h.short, h.kept.imp fun _ _ ↦ hkeeps⟩

theorem step_represents (hchunk : 2 ^ 16 ≤ policy.chunkBytes) {call : Call}
    (hper : call.Permitted members) (hfits : call.Fits policy storage) :
    Represents policy (step policy storage call).2 (call.result members) ∧
      call.Answered members (step policy storage call).1 := by
  have hsize := h.kept.length_eq
  cases call with
  | pushBack encoded =>
    unfold step Call.result Call.Answered pushBackEncoded
    simp only [Call.refuses, hsize, Bool.or_eq_true, decide_eq_true_eq]
    by_cases hids : 2 ^ 32 - 1 ≤ members.length
    · rw [if_pos hids, if_pos (.inl hids), if_pos (.inl hids)]
      exact ⟨h, "set member id space exhausted", rfl⟩
    rw [if_neg hids]
    by_cases hlong : maxEncodedBytes < encoded.length
    · rw [if_pos hlong, if_pos (.inr hlong), if_pos (.inr hlong)]
      exact ⟨h, "set member too large", rfl⟩
    · rw [if_neg hlong, if_neg (not_or.mpr ⟨hids, hlong⟩), if_neg (not_or.mpr ⟨hids, hlong⟩)]
      exact ⟨h.pushBack hchunk hfits (by omega), rfl⟩
  | orphan memberId => exact ⟨⟨h.sound, h.lengths, h.short, h.kept⟩, rfl⟩
  | copyRef dst src => exact ⟨h.copyRef hper.2, rfl⟩
  | popBack => exact ⟨h.popBack, rfl⟩
  | compact allowed => exact ⟨h.compact hchunk hfits, rfl⟩
  | shrinkToFit => exact ⟨h.shrinkToFit, rfl⟩

end

/-- The states of a storage, each with the bytes last stored under its ids, that calls which store
nothing beyond 2^32 lead to. -/
inductive Reachable (policy : Policy) : SetStorage → List ByteString → Prop where
  | new : Reachable policy {} []
  | call {storage : SetStorage} {members : List ByteString} (call : Call) :
    Reachable policy storage members → call.Permitted members → call.Fits policy storage →
      Reachable policy (step policy storage call).2 (call.result members)

theorem Reachable.represents (h : Reachable policy storage members)
    (hchunk : 2 ^ 16 ≤ policy.chunkBytes) : Represents policy storage members := by
  induction h with
  | new => exact represents_empty
  | call call _ hper hfits ih => exact (step_represents ih hchunk hper hfits).1

/-- Every live id reads back the bytes last stored under it. -/
def ReadsBack (policy : Policy) (storage : SetStorage) (members : List ByteString) : Prop :=
  storage.size = members.length ∧
    ∀ memberId member, members[memberId]? = some member → storage.view policy memberId = member

theorem Represents.readsBack (h : Represents policy storage members) :
    ReadsBack policy storage members :=
  ⟨h.kept.length_eq, fun _ _ ↦ h.view_eq⟩

/-- From every state reached, a call does what it should. -/
theorem Reachable.reads_back (h : Reachable policy storage members)
    (hchunk : 2 ^ 16 ≤ policy.chunkBytes) :
    ReadsBack policy storage members ∧
      ∀ call : Call, call.Permitted members → call.Fits policy storage →
        call.Answered members (step policy storage call).1 ∧
          ReadsBack policy (step policy storage call).2 (call.result members) := by
  have hrep := h.represents hchunk
  refine ⟨hrep.readsBack, fun call hper hfits ↦ ?_⟩
  obtain ⟨haft, hanswer⟩ := step_represents hrep hchunk hper hfits
  exact ⟨hanswer, haft.readsBack⟩

theorem le_configured (chunkBytes pageShift : ℕ) (grown : ℕ → ℕ) :
    2 ^ 16 ≤ (configured chunkBytes pageShift grown).chunkBytes :=
  Policy.le_configureChunkBytes (by decide)

/-! ## Beyond 2^32 bytes -/

/-- Make calls one after another. -/
def run (policy : Policy) (storage : SetStorage) (calls : List Call) : SetStorage :=
  calls.foldl (fun storage call ↦ (step policy storage call).2) storage

/-- The longest member of one byte value. -/
@[irreducible]
def longest (byte : UInt8) : ByteString := List.replicate maxEncodedBytes byte

@[simp] theorem length_longest (byte : UInt8) : (longest byte).length = 65535 := by
  rw [longest, length_replicate, maxEncodedBytes]

variable {byte : UInt8} {count : ℕ}

theorem longest_le (hchunk : policy.chunkBytes = 2 ^ 16) :
    (longest byte).length ≤ policy.chunkBytes := by
  rw [length_longest, hchunk]
  omega

/-- So many of the longest members of zeros, one in each block of 64 KiB. -/
structure Crowded (policy : Policy) (count : ℕ) (storage : SetStorage) : Prop where
  sound : Sound policy storage.arena
  cursor : storage.arena.nextOffset + 1 = count * 2 ^ 16
  first : storage.arena.Keeps policy 0 (longest 0)
  offsets : storage.offsets.length = count
  lengths : storage.lengths.length = count

theorem place_longest {cursor : ℕ} (hcursor : cursor + 1 = count * 2 ^ 16) :
    place (2 ^ 16) cursor (longest byte).length = count * 2 ^ 16 := by
  rw [length_longest, place]
  split <;> omega

theorem pushBack_longest (hids : storage.offsets.length < 2 ^ 32 - 1) :
    step policy storage (.pushBack (longest byte)) = (.ok (some storage.offsets.length),
      { storage with
        arena := (append policy storage.arena (longest byte)).2
        usedBytes := storage.usedBytes + 65535
        offsets := storage.offsets ++ [(append policy storage.arena (longest byte)).1]
        lengths := storage.lengths ++ [65535] }) := by
  have hpush : storage.pushBackEncoded policy (longest byte)
      = (.ok storage.offsets.length,
        { storage with
          arena := (append policy storage.arena (longest byte)).2
          usedBytes := storage.usedBytes + 65535
          offsets := storage.offsets ++ [(append policy storage.arena (longest byte)).1]
          lengths := storage.lengths ++ [65535] }) := by
    rw [pushBackEncoded, if_neg (Nat.not_le_of_lt hids), length_longest, maxEncodedBytes,
      if_neg (lt_irrefl _), appendEncoded, length_longest,
      Nat.mod_eq_of_lt (show 65535 < 2 ^ 16 by decide)]
  simp only [step, hpush]
  rfl

theorem Crowded.push (h : Crowded policy count storage) (hchunk : policy.chunkBytes = 2 ^ 16)
    (hcnt : count < 2 ^ 32 - 1) :
    Crowded policy (count + 1) (step policy storage (.pushBack (longest 0))).2 := by
  obtain ⟨-, happ⟩ := append_appended h.sound (longest_le hchunk)
  have hcursor := happ.cursor
  rw [hchunk, place_longest h.cursor, length_longest] at hcursor
  rw [pushBack_longest (h.offsets ▸ hcnt)]
  refine ⟨happ.sound, ?_, happ.keeps h.first, by simp [h.offsets], by simp [h.lengths]⟩
  simp only [hcursor]
  omega

section

variable (hchunk : policy.chunkBytes = 2 ^ 16)
include hchunk

theorem crowded_one : Crowded policy 1 (step policy {} (.pushBack (longest 0))).2 := by
  have hplace : place policy.chunkBytes (Arena.nextOffset {}) (longest 0).length = 0 := by
    rw [length_longest, hchunk]
    decide
  obtain ⟨-, happ⟩ := append_appended (sound_empty : Sound policy {}) (longest_le hchunk)
  have hstored := happ.stored
  have hcursor := happ.cursor
  rw [hplace] at hstored hcursor
  rw [length_longest] at hcursor
  rw [pushBack_longest (by decide)]
  refine ⟨happ.sound, ?_, hstored, rfl, rfl⟩
  simp only [hcursor]
  decide

variable {count : ℕ}

theorem crowded_run (hpos : 0 < count) (hcnt : count ≤ 2 ^ 16) :
    Crowded policy count (run policy {} (List.replicate count (.pushBack (longest 0)))) := by
  induction count with
  | zero => omega
  | succ count ih =>
    rw [replicate_succ', run, foldl_append]
    rcases Nat.eq_zero_or_pos count with rfl | hbef
    · exact crowded_one hchunk
    · exact (ih hbef (by omega)).push hchunk (by omega)

/-- The member of ones that follows is accepted and reads back as the member of zeros that was
stored first. -/
theorem view_beyond (hcnt : count = 2 ^ 16)
    (hsto : run policy {} (List.replicate count (.pushBack (longest 0))) = storage) :
    (step policy storage (.pushBack (longest 1))).1 = .ok (some count) ∧
      (step policy storage (.pushBack (longest 1))).2.view policy count = longest 0 := by
  have h := crowded_run hchunk (show 0 < count by omega) hcnt.le
  rw [hsto] at h
  obtain ⟨hoff, happ⟩ := append_appended h.sound (longest_le hchunk)
  rw [hchunk, place_longest h.cursor] at hoff
  have hwrapped : count * 2 ^ 16 % 2 ^ 32 = 0 := by omega
  have hlens : (storage.lengths ++ [65535]).getD count 0 = 65535 := by
    rw [← h.lengths, getD_append_right _ _ _ _ le_rfl, Nat.sub_self]
    rfl
  have hoffs : (storage.offsets ++ [(append policy storage.arena (longest 1)).1]).getD count 0
      = 0 := by
    rw [hoff, hwrapped, ← h.offsets, getD_append_right _ _ _ _ le_rfl, Nat.sub_self]
    rfl
  have hfst := (happ.keeps h.first).1
  rw [Stored, length_longest] at hfst
  rw [pushBack_longest (by rw [h.offsets]; omega), h.offsets]
  refine ⟨rfl, ?_⟩
  rw [view]
  simp only [hlens, hoffs]
  exact hfst

end

theorem longest_ne : longest 0 ≠ longest 1 := by
  intro hsame
  have hhead := congrArg (fun bytes ↦ bytes.getD 0 0) hsame
  simp only [longest, maxEncodedBytes] at hhead
  exact absurd hhead (by decide)

/-- In a set of 64 KiB chunks the 65537th of the longest members is stored over 2^32, which is
position 0 in 32 bits: it reads back as the first member. -/
theorem member_beyond_misread :
    ∃ storage : SetStorage,
      storage = run (configured (2 ^ 16) 12 id) {}
        (List.replicate (2 ^ 16) (.pushBack (longest 0))) ∧
      (step (configured (2 ^ 16) 12 id) storage (.pushBack (longest 1))).1 = .ok (some (2 ^ 16)) ∧
      (step (configured (2 ^ 16) 12 id) storage (.pushBack (longest 1))).2.view
        (configured (2 ^ 16) 12 id) (2 ^ 16) = longest 0 ∧ longest 0 ≠ longest 1 := by
  have hchunk : (configured (2 ^ 16) 12 id).chunkBytes = 2 ^ 16 := by decide
  obtain ⟨hreturned, hview⟩ := view_beyond hchunk rfl rfl
  exact ⟨_, rfl, hreturned, hview, longest_ne⟩

end

end SetStorage

end GoblinCore
