import GoblinCore.Tables.SwissTable

/-!
# Room in a SwissTable

What `reserve` and `reserve_additional` promise, and how large a table gets.  A capacity is rounded
down to whole groups after it was chosen, and deleted slots count as used until the next rebuild, so
neither holds without a condition.
-/

namespace GoblinCore.SwissTable

open GroupProbe Rounding List Nat
open Option hiding map_map

variable {K V : Type} [DecidableEq K]

/-! ## Reserved room -/

section Definitions

variable (config : Config K)

/-- The entries go in one after the other and the table is not rebuilt. -/
def Undisturbed : SwissTable K V → List (K × V) → Prop
  | _, [] => True
  | table, (key, value) :: rest => config.insertTarget table = none ∧
      ∃ next added, tryEmplace config table key value = .ok (next, added) ∧ Undisturbed next rest

/-- How many slots that were never used the entries take, as long as the table is not rebuilt.
Whether a key gets a deleted slot instead depends on the groups that its probe visits, so that the
count follows the probe; without deleted slots it is the number of new keys (`filled_eq`). -/
def filled : SwissTable K V → List (K × V) → ℕ
  | _, [] => 0
  | table, entry :: rest =>
    match findIndex config table entry.1, table.findInsertIndex config.scheme true entry.1 with
    | some _, _ => filled table rest
    | none, none => filled table rest + 1
    | none, some index => filled (table.put config.scheme Prod.fst index entry) rest +
        if table.control[index]? = some .deleted then 0 else 1

/-- The last of the entries still has room beside the slots that are used up then. -/
def HasRoom (table : SwissTable K V) (entries : List (K × V)) : Prop :=
  entries ≠ [] → table.size + table.tombstones + filled config table entries.dropLast + 1
    ≤ maxUsable table.capacity

/-- The same at another capacity, where nothing is deleted and only new keys take slots. -/
def HasRoomAt (table : SwissTable K V) (entries : List (K × V)) (capacity : ℕ) : Prop :=
  table.size ≤ capacity ∧ (entries ≠ [] → table.size +
    entries.dropLast.countP (fun entry ↦ (find config table entry.1).isNone) + 1
      ≤ maxUsable capacity)

instance (table : SwissTable K V) (entries : List (K × V)) :
    Decidable (HasRoom config table entries) := inferInstanceAs (Decidable (_ → _))

instance (table : SwissTable K V) (entries : List (K × V)) (capacity : ℕ) :
    Decidable (HasRoomAt config table entries capacity) := inferInstanceAs (Decidable (_ ∧ _))

end Definitions

section Reserving

variable {config : Config K} {table next : SwissTable K V} {map : K → Option V} {key : K}
  {value : V} {entries : List (K × V)}

omit [DecidableEq K] in
theorem insertTarget_eq_none_iff : config.insertTarget table = none ↔
    table.size + table.tombstones + 1 ≤ maxUsable table.capacity := by
  have hle := maxUsable_le table.capacity
  unfold Config.insertTarget
  split_ifs with hzero hfull
  · simp only [false_iff]
    omega
  · simp only [false_iff]
    omega
  · simpa using hfull

theorem filled_le (table : SwissTable K V) (entries : List (K × V)) :
    filled config table entries ≤ entries.length := by
  induction entries generalizing table with
  | nil => exact le_rfl
  | cons entry rest ih =>
    rw [filled, length_cons]
    split
    · exact (ih _).trans (le_succ _)
    · exact Nat.succ_le_succ (ih _)
    · refine Nat.add_le_add (ih _) ?_
      split <;> decide

/-- Without deleted slots every new key takes a slot that was never used. -/
theorem Represents.filled_eq (h : Represents config table map) (hnone : table.tombstones = 0)
    (hnd : (entries.map Prod.fst).Nodup) :
    filled config table entries = entries.countP fun entry ↦ (map entry.1).isNone := by
  induction entries generalizing table map with
  | nil => rfl
  | cons entry rest ih =>
    obtain ⟨hkey, hnd⟩ := nodup_cons.mp hnd
    rw [filled, countP_cons]
    cases hmap : map entry.1 with
    | some value =>
      have hsome : (map entry.1).isSome = true := by rw [hmap]; rfl
      obtain ⟨index, hidx⟩ := h.findIndex_eq_some hsome
      rw [hidx]
      exact ih h hnone hnd
    | none =>
      rw [h.findIndex_eq_none hmap]
      cases hidx : table.findInsertIndex config.scheme true entry.1 with
      | none => rw [← ih h hnone hnd]; rfl
      | some index =>
        have hput : Represents config (table.put config.scheme Prod.fst index entry) _ :=
          h.put hmap hidx
        have hlt := h.sound.lt_capacity (h.sound.findInsertIndex_some hidx).1
        have hdeleted := h.sound.not_deleted hnone hlt
        have hrest := ih hput (by simp [Table.put, hdeleted, hnone]) hnd
        dsimp only
        rw [hrest, if_neg hdeleted]
        congr 1
        refine countP_congr fun other hoth ↦ ?_
        have hne : other.1 ≠ entry.1 := fun heq ↦ hkey (heq ▸ mem_map_of_mem hoth)
        rw [Function.update_of_ne hne]

theorem tryEmplace_eq (hres : resize config table (config.insertTarget table) = .ok next) :
    tryEmplace config table key value =
      match findIndex config next key with
      | some _ => .ok (next, false)
      | none => (construct config next (next.findInsertIndex config.scheme true key) key value).bind
          fun next ↦ .ok (next, true) := by
  rw [tryEmplace, emplaceWith, ensureCapacityForInsert, hres]
  rfl

section

variable (h : Represents config table map)
include h

/-- An insertion that does not rebuild the table fills the first of the slots. -/
theorem Represents.tryEmplace_filled
    (htarget : config.insertTarget table = none) (key : K) (value : V) : ∃ next added map,
      tryEmplace config table key value = .ok (next, added) ∧ Represents config next map ∧
      next.capacity = table.capacity ∧ ∀ rest, table.size + table.tombstones
        + filled config table ((key, value) :: rest)
          = next.size + next.tombstones + filled config next rest := by
  rw [tryEmplace_eq (by rw [htarget]; rfl)]
  cases hmap : map key with
  | some found =>
    have hsome : (map key).isSome = true := by rw [hmap]; rfl
    obtain ⟨index, hidx⟩ := h.findIndex_eq_some hsome
    rw [hidx]
    exact ⟨table, false, map, rfl, h, rfl, fun rest ↦ by rw [filled, hidx]⟩
  | none =>
    have hroom := insertTarget_none htarget
    rw [h.sound.size_eq] at hroom
    obtain ⟨index, hidx⟩ : ∃ index, table.findInsertIndex config.scheme true key = some index :=
      isSome_iff_exists.mp (h.sound.findInsertIndex_isSome_of_room hroom (.inl rfl))
    have hlt := h.sound.lt_capacity (h.sound.findInsertIndex_some hidx).1
    rw [h.findIndex_eq_none hmap, hidx]
    refine ⟨_, true, _, rfl, h.put hmap hidx, rfl, fun rest ↦ ?_⟩
    rw [filled, h.findIndex_eq_none hmap, hidx]
    dsimp only [Table.put]
    split
    · have hpos : table.tombstones ≠ 0 := fun hnone ↦ h.sound.not_deleted hnone hlt ‹_›
      omega
    · omega

/-- Only the last insertion has to be looked at, since used slots do not become fewer. -/
theorem Represents.undisturbed_iff :
    Undisturbed config table entries ↔ HasRoom config table entries := by
  induction entries generalizing table map with
  | nil => simp [Undisturbed, HasRoom]
  | cons entry rest ih =>
    by_cases htarget : config.insertTarget table = none
    · obtain ⟨next, added, map, hok, hnext, hcap, hfilled⟩ :=
        h.tryEmplace_filled htarget entry.1 entry.2
      have hrest : Undisturbed config table (entry :: rest) ↔ Undisturbed config next rest := by
        simp [Undisturbed, htarget, hok]
      rw [hrest, ih hnext, HasRoom, HasRoom, hcap]
      cases rest with
      | nil => simpa [filled] using insertTarget_eq_none_iff.mp htarget
      | cons second rest => simp [← hfilled]
    · have hfull := insertTarget_eq_none_iff.not.mp htarget
      refine iff_of_false (fun hund ↦ htarget hund.1) fun hroom ↦ ?_
      have hle := hroom (cons_ne_nil _ _)
      omega

/-- A table that was rebuilt has no deleted slots. -/
theorem Represents.rehash_undisturbed_iff {requested : ℕ} (hnd : (entries.map Prod.fst).Nodup) :
    (∃ next, rehash config table requested = .ok next ∧ Undisturbed config next entries) ↔
      HasRoomAt config table entries (config.normalized requested) := by
  have hroom : ∀ next, rehash config table requested = .ok next →
      (Undisturbed config next entries ↔ (entries ≠ [] → table.size +
        entries.dropLast.countP (fun entry ↦ (find config table entry.1).isNone) + 1
          ≤ maxUsable (config.normalized requested))) := by
    intro next hok
    obtain ⟨hnext, hsize, hcap, hnone⟩ := rehash_ok h hok
    have hdrop : (entries.dropLast.map Prod.fst).Nodup :=
      hnd.sublist ((dropLast_sublist _).map _)
    rw [hnext.undisturbed_iff, HasRoom, hnext.filled_eq hnone hdrop, hsize, hcap, hnone]
    simp only [h.find_eq, add_zero]
  rw [HasRoomAt, ← rehash_ok_iff h]
  constructor
  · rintro ⟨next, hok, hund⟩
    exact ⟨⟨next, hok⟩, (hroom next hok).mp hund⟩
  · rintro ⟨⟨next, hok⟩, hle⟩
    exact ⟨next, hok, (hroom next hok).mpr hle⟩

theorem Represents.reserve_iff (hnd : (entries.map Prod.fst).Nodup) (expectedSize : ℕ) :
    (∃ next, reserve config table expectedSize = .ok next ∧ Undisturbed config next entries) ↔
      if expectedSize ≤ maxUsable table.capacity then HasRoom config table entries
      else HasRoomAt config table entries
        (config.normalized (config.capacityForSize expectedSize)) := by
  unfold reserve Config.reserveTarget
  split_ifs with hfits
  · simpa [resize] using h.undisturbed_iff
  · exact h.rehash_undisturbed_iff hnd

theorem Represents.reserveAdditional_iff (hnd : (entries.map Prod.fst).Nodup) :
    (reserveAdditional config table entries.length = .error .lengthError ∨
      ∃ next, reserveAdditional config table entries.length = .ok next ∧
        Undisturbed config next entries) ↔
      ∀ requested ∈ config.reserveAdditionalTarget table entries.length,
        HasRoomAt config table entries (config.normalized requested) := by
  unfold reserveAdditional
  by_cases hover : 2 ^ 64 - 1 - table.size < entries.length
  · rw [if_pos hover, reserveAdditionalTarget_overflow hover]
    simp
  · rw [if_neg hover]
    cases htarget : config.reserveAdditionalTarget table entries.length with
    | none =>
      have hund : Undisturbed config table entries := by
        refine h.undisturbed_iff.mpr fun hsome ↦ ?_
        have hfilled : filled config table _ ≤ _ := filled_le table entries.dropLast
        have hpos := length_pos_iff.mpr hsome
        rw [length_dropLast] at hfilled
        unfold Config.reserveAdditionalTarget at htarget
        rw [if_neg (by omega)] at htarget
        dsimp only at htarget
        split_ifs at htarget with hfits
        omega
      simpa [resize] using hund
    | some requested =>
      simp only [resize, mem_def, some.injEq, forall_eq', ← h.rehash_undisturbed_iff hnd]
      refine or_iff_right fun herr ↦ ?_
      cases (placed_eq_error.mp herr).2

end

end Reserving

def channels (count : ℕ) : List (ℕ × ℕ) := (range count).map fun channel ↦ (channel, channel)

theorem channels_nodup (count : ℕ) : ((channels count).map Prod.fst).Nodup := by
  rw [channels, map_map]
  exact (map_id _).symm ▸ nodup_range

/-- Four channels, two of which were closed again. -/
def busyChannels : List (Call ℕ ℕ) :=
  [.tryEmplace 0 0, .tryEmplace 1 1, .tryEmplace 2 2, .tryEmplace 3 3, .erase 1, .erase 2]

def busy : SwissTable ℕ ℕ := (run subscriptionTable {} busyChannels).get (by decide +kernel)

theorem busy_represents : ∃ map, Represents subscriptionTable busy map := by
  have hnew : Represents subscriptionTable ({} : SwissTable ℕ ℕ) fun _ ↦ none := represents_new
  have hrun : run subscriptionTable {} busyChannels = some busy := (some_get _).symm
  have hboth := run_represents hnew busyChannels
  by_cases hroom : RoomyRun subscriptionTable {} busyChannels
  · obtain ⟨table, htable, hrepresents⟩ := hboth.1 hroom
    obtain rfl := some.inj (hrun.symm.trans htable)
    exact ⟨_, hrepresents⟩
  · cases (hboth.2 hroom).symm.trans hrun

theorem le_maxUsable (capacity : ℕ) : capacity ≤ 2 * maxUsable capacity + 2 := by
  have hdouble := le_toDouble capacity
  have hfloor : toDouble capacity * 8286623314361713 / 2 ^ 53 ≤ maxUsable capacity
      + toDouble capacity * 8286623314361713 / 2 ^ 53 / 2 ^ 52 := le_floorQuotient _ _
  omega

theorem grown_le (capacity : ℕ) : grown capacity ≤ 2 * capacity + 1 := by
  have hdouble := toDouble_le capacity
  have hfloor : grown capacity ≤ toDouble capacity * 5662976725363273 / 2 ^ 52 + 1
      + toDouble capacity * 5662976725363273 / 2 ^ 52 / 2 ^ 52 := floorQuotient_le (by positivity)
  omega

section Growth

/-- `try_emplace`, `insert_or_assign` and `erase`. -/
def Call.Churns : Call K V → Prop
  | .tryEmplace _ _ => True
  | .insertOrAssign _ _ => True
  | .erase _ => True
  | _ => False

instance : (call : Call K V) → Decidable call.Churns
  | .tryEmplace _ _ | .insertOrAssign _ _ | .erase _ => .isTrue trivial
  | .emplaceSlot _ _ | .eraseSlot _ | .eraseIf _ | .reserve _ | .reserveAdditional _ | .copy =>
    .isFalse id

variable (config : Config K)

/-- A run of these calls in which the table never has more than so many entries. -/
def LiveRun (live : ℕ) : SwissTable K V → List (Call K V) → Prop
  | table, [] => table.size ≤ live
  | table, call :: calls => table.size ≤ live ∧ call.Churns ∧
    match step config table call with
    | .ok next => LiveRun live next calls
    | .error _ => LiveRun live table calls

/-- No call of the run rebuilds a table in which deleted slots outnumber the entries. -/
def CompactRun : SwissTable K V → List (Call K V) → Prop
  | _, [] => True
  | table, call :: calls => (table.capacity ≠ 0 → rebuildTarget config table call ≠ none →
      table.tombstones ≤ table.size) ∧
    match step config table call with
    | .ok next => CompactRun next calls
    | .error _ => CompactRun table calls

instance decidableLiveRun (live : ℕ) : (table : SwissTable K V) → (calls : List (Call K V)) →
    Decidable (LiveRun config live table calls)
  | _, [] => inferInstanceAs (Decidable (_ ≤ _))
  | table, call :: calls =>
    have : Decidable (match step config table call with
        | .ok next => LiveRun config live next calls
        | .error _ => LiveRun config live table calls) :=
      match step config table call with
      | .ok next => decidableLiveRun live next calls
      | .error _ => decidableLiveRun live table calls
    inferInstanceAs (Decidable (_ ∧ _ ∧ _))

instance decidableCompactRun : (table : SwissTable K V) → (calls : List (Call K V)) →
    Decidable (CompactRun config table calls)
  | _, [] => .isTrue trivial
  | table, call :: calls =>
    have : Decidable (match step config table call with
        | .ok next => CompactRun config next calls
        | .error _ => CompactRun config table calls) :=
      match step config table call with
      | .ok next => decidableCompactRun next calls
      | .error _ => decidableCompactRun table calls
    inferInstanceAs (Decidable ((_ → _) ∧ _))

def capacityBound (live : ℕ) : ℕ := 8 * live + 2 * config.pageBytes + 2 * config.groupWidth + 5

variable {config} {table next : SwissTable K V} {map : K → Option V} {call : Call K V} {live : ℕ}

omit [DecidableEq K] in
theorem pages_le (bytes : ℕ) : (bytes + config.pageBytes - 1) % 2 ^ 64 / config.pageBytes *
    config.pageBytes ≤ bytes + config.pageBytes :=
  (div_mul_le_self _ _).trans ((mod_le _ _).trans (sub_le _ _))

omit [DecidableEq K] in
theorem pageAlignedCapacity_le {target minPages slots : ℕ} (htarget : target ≤ slots)
    (hmin : minPages * config.pageBytes ≤ slots * config.slotBytes + 2 * config.pageBytes) :
    config.pageAlignedCapacity target minPages ≤
      slots + 2 * config.pageBytes + config.groupWidth := by
  have hpages : _ ≤ target * config.slotBytes + config.pageBytes :=
    pages_le (target * config.slotBytes)
  have htarget : target * config.slotBytes ≤ slots * config.slotBytes :=
    mul_le_mul_right _ htarget
  unfold Config.pageAlignedCapacity
  dsimp only
  set pages := (target * config.slotBytes + config.pageBytes - 1) % 2 ^ 64 / config.pageBytes
  have hbytes : max pages minPages * config.pageBytes
      ≤ slots * config.slotBytes + 2 * config.pageBytes := by
    rcases max_choice pages minPages with heq | heq <;> rw [heq] <;> omega
  have hslots : max pages minPages * config.pageBytes % 2 ^ 64 / config.slotBytes
      ≤ slots + 2 * config.pageBytes := by
    rcases Nat.eq_zero_or_pos config.slotBytes with hzero | hpos
    · simp [hzero]
    · refine Nat.div_le_of_le_mul ((Nat.mod_le _ _).trans (hbytes.trans ?_))
      have hle := Nat.le_mul_of_pos_left (2 * config.pageBytes) hpos
      rw [mul_add, mul_comm slots]
      omega
  omega

omit [DecidableEq K] in
theorem insertTarget_le (hlive : table.size ≤ live)
    (hcompact : table.capacity ≠ 0 → table.tombstones ≤ table.size) :
    ∀ requested ∈ config.insertTarget table,
      config.normalized requested ≤ capacityBound config live := by
  intro requested htarget
  have hnormal : config.normalized requested ≤ max requested config.groupWidth := sub_le _ _
  suffices hle : requested ≤ capacityBound config live by
    unfold capacityBound at *
    omega
  unfold Config.insertTarget at htarget
  split_ifs at htarget with hzero hfull
  · obtain rfl := some.inj htarget
    have hle : config.pageAlignedCapacity config.groupWidth 1 ≤ _ :=
      pageAlignedCapacity_le le_rfl (by omega)
    unfold capacityBound
    omega
  · obtain rfl := some.inj htarget
    have hpages : config.currentPages table.capacity * _ ≤ _ :=
      pages_le (table.capacity * config.slotBytes)
    have hslots : table.capacity * config.slotBytes ≤ (2 * table.capacity + 1) * config.slotBytes :=
      mul_le_mul_right _ (by omega)
    have hle : config.pageAlignedCapacity (grown table.capacity)
        (config.currentPages table.capacity + 1) ≤ _ :=
      pageAlignedCapacity_le (grown_le table.capacity) (by rw [add_mul]; omega)
    have husable := le_maxUsable table.capacity
    have hdeleted := hcompact hzero
    unfold capacityBound
    omega
  · cases htarget

section

variable (h : Represents config table map)
include h

theorem emplaceWith_capacity {onExisting : SwissTable K V → ℕ → SwissTable K V} {key : K}
    {value : V} (hok : Prod.fst <$> emplaceWith config table onExisting key value = .ok next)
    (hkeep : ∀ table index, (onExisting table index).capacity = table.capacity) :
    next.capacity = table.capacity ∨
      ∃ requested ∈ config.insertTarget table, next.capacity = config.normalized requested := by
  rw [emplaceWith, ensureCapacityForInsert] at hok
  cases hres : resize config table (config.insertTarget table) with
  | error fault =>
    rw [hres] at hok
    cases hok
  | ok mid =>
    have hnext : next.capacity = mid.capacity := by
      rw [hres] at hok
      change Prod.fst <$> (match findIndex config mid key with | some _ => _ | none => _) = _ at hok
      cases hidx : findIndex config mid key with
      | some index =>
        rw [hidx] at hok
        exact Except.ok.inj hok ▸ hkeep mid index
      | none =>
        rw [hidx] at hok
        cases hslot : mid.findInsertIndex config.scheme true key with
        | none =>
          rw [hslot] at hok
          cases hok
        | some index =>
          rw [hslot] at hok
          exact Except.ok.inj hok ▸ rfl
    rw [hnext]
    cases htarget : config.insertTarget table with
    | none =>
      rw [htarget] at hres
      exact .inl (Except.ok.inj hres ▸ rfl)
    | some requested =>
      rw [htarget] at hres
      exact .inr ⟨requested, rfl, (rehash_ok h hres).2.2.1⟩

theorem step_capacity (hcall : call.Churns) (hok : step config table call = .ok next) :
    next.capacity = table.capacity ∨
      ∃ requested ∈ config.insertTarget table, rebuildTarget config table call = some requested ∧
        next.capacity = config.normalized requested := by
  cases call with
  | tryEmplace key value =>
    exact (emplaceWith_capacity h hok fun _ _ ↦ rfl).imp_right
      fun ⟨requested, htarget, hcap⟩ ↦ ⟨requested, htarget, htarget, hcap⟩
  | insertOrAssign key value =>
    exact (emplaceWith_capacity h hok fun _ _ ↦ rfl).imp_right
      fun ⟨requested, htarget, hcap⟩ ↦ ⟨requested, htarget, htarget, hcap⟩
  | erase key =>
    obtain rfl := Except.ok.inj hok
    rw [erase]
    split <;> exact .inl rfl
  | _ => cases hcall

theorem step_represents
    (hok : step config table call = .ok next) : Represents config next (call.apply map) := by
  rcases step_outcome h call with hthrows | houtcome
  · rw [hthrows.1] at hok
    cases hok
  · by_cases hroom : Roomy config table call
    · obtain ⟨other, hother, hrepresents⟩ := houtcome.roomy hroom
      rw [hother] at hok
      exact Except.ok.inj hok ▸ hrepresents
    · rw [houtcome.crowded hroom] at hok
      cases hok

theorem run_capacity_le {calls : List (Call K V)}
    (hcap : table.capacity ≤ capacityBound config live) (hlive : LiveRun config live table calls)
    (hcompact : CompactRun config table calls) (hrun : run config table calls = some next) :
    next.capacity ≤ capacityBound config live := by
  induction calls generalizing table map with
  | nil =>
    obtain rfl := some.inj hrun
    exact hcap
  | cons call calls ih =>
    obtain ⟨hsize, hcall, hlive⟩ := hlive
    obtain ⟨hdeleted, hcompact⟩ := hcompact
    rw [run] at hrun
    cases hstep : step config table call with
    | error fault =>
      simp only [hstep] at hlive hcompact hrun
      cases fault with
      | undefined => cases hrun
      | lengthError => exact ih h hcap hlive hcompact hrun
    | ok mid =>
      simp only [hstep] at hlive hcompact hrun
      refine ih (step_represents h hstep) ?_ hlive hcompact hrun
      rcases step_capacity h hcall hstep with hkept | ⟨requested, hmem, htarget, hcap⟩
      · exact hkept.trans_le hcap
      · have hsparse : table.capacity ≠ 0 → table.tombstones ≤ table.size :=
          fun hzero ↦ hdeleted hzero (by simp [htarget])
        exact hcap.trans_le (insertTarget_le hsize hsparse requested hmem)

end

end Growth

/-- A capacity that a number of entries bounds, over every run in which no rebuild finds more
deleted slots than entries: the bound depends on the size of a page and of a group alone. -/
theorem run_capacity_le_bound (config : Config K) (live : ℕ) (calls : List (Call K V))
    (hlive : LiveRun config live {} calls) (hcompact : CompactRun config {} calls)
    (table : SwissTable K V) (hrun : run config {} calls = some table) :
    table.capacity ≤ 8 * live + 2 * config.pageBytes + 2 * config.groupWidth + 5 :=
  run_capacity_le represents_new (zero_le _) hlive hcompact hrun

/-- Numbers that are their own hashes, in slots of which a page has 16. -/
def wideTable : Config UInt64 where
  hash := id
  slotBytes := 256

/-- Fourteen numbers, of which two are erased, and two more, for which the table is rebuilt. -/
def turnover : List (Call UInt64 Unit) :=
  (range 14).map (fun number ↦ .tryEmplace (.ofNat number) ()) ++
    [.erase 3, .erase 7, .tryEmplace 20 (), .tryEmplace 21 ()]

theorem run_capacity_turnover :
    (run wideTable {} (turnover.take 16)).map (fun table ↦ (table.capacity, table.tombstones)) =
        some (16, 2) ∧
      ∃ table, run wideTable {} turnover = some table ∧
        table.capacity ≤ 8 * 14 + 2 * 4096 + 2 * 16 + 5 := by
  have hlive : LiveRun wideTable 14 {} turnover := by decide +kernel
  have hcompact : CompactRun wideTable {} turnover := by decide +kernel
  obtain ⟨table, htable⟩ : ∃ table, run wideTable {} turnover = some table :=
    isSome_iff_exists.mp (by decide +kernel)
  exact ⟨by decide +kernel, table, htable,
    run_capacity_le_bound wideTable 14 turnover hlive hcompact table htable⟩

/-- A table of numbers that are their own hashes. -/
def numberTable : Config UInt64 where
  hash := id
  slotBytes := 16

/-- Every entry was erased again, and the slots that were used are the first ones. -/
structure Churned (capacity used : ℕ) (table : SwissTable UInt64 Unit) : Prop where
  represents : Represents numberTable table fun _ ↦ none
  capacity_eq : table.capacity = capacity
  size_eq : table.size = 0
  tombstones_eq : table.tombstones = used
  fresh : ∀ index, used ≤ index → index < capacity → table.control[index]? = some .empty

section Churn

variable {capacity used : ℕ} {table next : SwissTable UInt64 Unit} {key : UInt64}

theorem exists_home (hlt : used < capacity) (hcap : capacity < 2 ^ 50) :
    ∃ key, numberTable.scheme.home capacity key = used := by
  have hdiv := div_add_mod (used * 2 ^ 64 + capacity - 1) capacity
  have hmod := mod_lt (used * 2 ^ 64 + capacity - 1) (by omega : 0 < capacity)
  set quotient := (used * 2 ^ 64 + capacity - 1) / capacity
  have hquotient : quotient < 2 ^ 64 := Nat.div_lt_of_lt_mul (by omega)
  refine ⟨UInt64.ofNat quotient, ?_⟩
  change (UInt64.ofNat quotient).toNat * capacity / 2 ^ 64 = used
  rw [UInt64.toNat_ofNat_of_lt' hquotient, mul_comm]
  omega

section

variable (h : Churned capacity used table)
include h

theorem Churned.findInsertIndex_eq (hroom : used + 16 ≤ capacity)
    (hkey : numberTable.scheme.home capacity key = used) :
    table.findInsertIndex numberTable.scheme true key = some used := by
  have hfresh : ∀ offset ∈ range 16, table.control[used + offset]? = some .empty := by
    intro offset hoff
    have hlt := mem_range.mp hoff
    exact h.fresh _ (le_add_right _ _) (by omega)
  have hdeleted : offsets 16 table.control used .deleted = [] :=
    filter_eq_nil_iff.mpr fun offset hoff ↦ by simp [hfresh offset hoff]
  have hempty : offsets 16 table.control used .empty = range 16 :=
    filter_eq_self.mpr fun offset hoff ↦ by simp [hfresh offset hoff]
  obtain ⟨groups, hgroups⟩ : ∃ groups, capacity / 16 = groups + 1 := ⟨capacity / 16 - 1, by omega⟩
  rw [Table.findInsertIndex, h.capacity_eq, hkey]
  change insertLoop 16 capacity _ true (capacity / 16) used none = _
  rw [hgroups, insertLoop, hdeleted, hempty]
  exact congrArg some (if_neg (by rw [Nat.add_zero]; omega))

/-- A key that starts behind the deleted slots is inserted there and erased again. -/
theorem Churned.churn (hroom : used + 16 ≤ capacity) (hcap : capacity < 2 ^ 50) :
    ∃ key mid next, findIndex numberTable table key = none ∧
      construct numberTable table (table.findInsertIndex numberTable.scheme true key) key ()
        = .ok mid ∧
      mid.size = 1 ∧ erase numberTable mid key = (next, true) ∧
      Churned capacity (used + 1) next := by
  obtain ⟨key, hkey⟩ := exists_home (by omega : used < capacity) hcap
  have hidx := h.findInsertIndex_eq hroom hkey
  have hput : Represents numberTable (table.put numberTable.scheme Prod.fst used (key, ())) _ :=
    h.represents.put rfl hidx
  have hlen := h.represents.sound.slots_length
  have hfind : findIndex numberTable (table.put numberTable.scheme Prod.fst used (key, ())) key
      = some used := by
    refine hput.sound.findIndex_eq_some_iff.mpr ⟨(key, ()), getElem?_set_self ?_, rfl⟩
    rw [hlen, h.capacity_eq]
    omega
  have hfree := hput.free hfind
  rw [Function.update_idem, Function.update_eq_self_iff.mpr rfl] at hfree
  have hle := h.represents.sound.capacity_le
  have hempty := h.fresh used le_rfl (by omega)
  refine ⟨key, _, _, h.represents.findIndex_eq_none rfl, by rw [hidx]; rfl, ?_,
    by rw [erase, hfind], hfree, h.capacity_eq, ?_, ?_, fun index hindex hlt ↦ ?_⟩
  · simp [Table.put, h.size_eq]
  · simp [Table.put, Table.free, h.size_eq]
  · simp [Table.put, Table.free, hempty, h.tombstones_eq]
  · simp only [Table.put, Table.free]
    rw [h.capacity_eq] at hle ⊢
    rw [getElem?_setControl (by simpa using hle) hlt, if_neg (by omega),
      getElem?_setControl hle hlt, if_neg (by omega)]
    exact h.fresh index (by omega) hlt

theorem Churned.rehash (requested : ℕ) :
    ∃ mid, SwissTable.rehash numberTable table requested = .ok mid ∧
      Churned (numberTable.normalized requested) 0 mid := by
  have hents : table.entries = [] := by
    rw [← length_eq_zero_iff, ← h.represents.sound.size_eq, h.size_eq]
  have hok : SwissTable.rehash numberTable table requested
      = .ok (Table.allocate numberTable.scheme (numberTable.normalized requested)) := by
    rw [SwissTable.rehash, h.represents.sound.fullEntries_eq, hents]
    rfl
  refine ⟨_, hok, (rehash_ok h.represents hok).1, rfl, rfl, rfl, fun index _ hlt ↦ ?_⟩
  exact getElem?_replicate_of_lt (by omega)

end

theorem Churned.resize (h : Churned capacity used table) (hcap : capacity = 0 ∨ 256 ≤ capacity)
    (hlt : capacity < 2 ^ 48) : ∃ mid capacity' used',
      SwissTable.resize numberTable table (numberTable.insertTarget table) = .ok mid ∧
      Churned capacity' used' mid ∧ used' + 16 ≤ capacity' ∧ 256 ≤ capacity' ∧ capacity' < 2 ^ 50 ∧
      (capacity < capacity' ∨ capacity' = capacity ∧ used' = used ∧ used < maxUsable capacity) := by
  cases htarget : numberTable.insertTarget table with
  | none =>
    have hfits := insertTarget_eq_none_iff.mp htarget
    rw [h.size_eq, h.tombstones_eq, h.capacity_eq, zero_add] at hfits
    have hle := maxUsable_le capacity
    have hfloor : maxUsable capacity ≤ toDouble capacity * 8286623314361713 / 2 ^ 53 + 1
        + toDouble capacity * 8286623314361713 / 2 ^ 53 / 2 ^ 52 := floorQuotient_le (by positivity)
    rw [toDouble_of_lt (by omega)] at hfloor
    exact ⟨table, capacity, used, rfl, h, by omega, by omega, by omega, .inr ⟨rfl, rfl, hfits⟩⟩
  | some requested =>
    obtain ⟨mid, hok, hmid⟩ := h.rehash requested
    have hgrowth : capacity < numberTable.normalized requested ∧
        256 ≤ numberTable.normalized requested ∧ numberTable.normalized requested < 2 ^ 50 := by
      unfold Config.insertTarget at htarget
      rw [h.capacity_eq] at htarget
      split_ifs at htarget with hzero
      · obtain rfl := some.inj htarget
        subst hzero
        decide
      · obtain rfl := some.inj htarget
        have hgrown := grown_le capacity
        generalize grown capacity = target at hgrown ⊢
        unfold Config.normalized Config.pageAlignedCapacity Config.currentPages
        dsimp only [numberTable]
        omega
    exact ⟨mid, _, 0, hok, hmid, by omega, hgrowth.2.1, hgrowth.2.2, .inl hgrowth.1⟩

theorem Churned.grows {bound capacity used : ℕ} {table : SwissTable UInt64 Unit}
    (h : Churned capacity used table) (hcap : capacity = 0 ∨ 256 ≤ capacity)
    (hbound : bound < 2 ^ 48) : ∃ calls final, LiveRun numberTable 1 table calls ∧
      run numberTable table calls = some final ∧ bound < final.capacity := by
  by_cases hdone : bound < capacity
  · exact ⟨[], table, h.size_eq.trans_le (zero_le 1), rfl, h.capacity_eq ▸ hdone⟩
  · obtain ⟨mid, capacity', used', hres, hmid, hroom, hcap', hlt, hprogress⟩ :=
      h.resize hcap (by omega)
    obtain ⟨key, filled, next, hidx, hput, hsize, herase, hnext⟩ := hmid.churn hroom hlt
    have hfirst : step numberTable table (.tryEmplace key ()) = .ok filled := by
      rw [step, tryEmplace_eq hres, hidx, hput]
      rfl
    have hsecond : step numberTable filled (.erase key) = .ok next := by
      rw [step, herase]
    obtain ⟨calls, final, hlive, hrun, hgrown⟩ := hnext.grows (.inr hcap') hbound
    refine ⟨.tryEmplace key () :: .erase key :: calls, final, ?_, ?_, hgrown⟩
    · simp [LiveRun, hfirst, hsecond, h.size_eq, hsize, Call.Churns, hlive]
    · simp only [run, hfirst, hsecond, hrun]
termination_by (bound + 1 - capacity, maxUsable capacity - used)
decreasing_by
  rcases hprogress with hmore | ⟨rfl, rfl, hless⟩
  · exact Prod.Lex.left _ _ (by omega)
  · exact Prod.Lex.right _ (by omega)

end Churn

/-- Inserting a number and erasing it again, over and over, with at most one entry at a time, makes
the table larger than any bound below the size of the address space: a table full of deleted slots
is not cleaned up but enlarged. -/
theorem churn_outgrows_bound : ¬∃ bound : ℕ → ℕ, bound 1 < 2 ^ 48 ∧
    ∀ calls table, LiveRun numberTable 1 ({} : SwissTable UInt64 Unit) calls →
      run numberTable {} calls = some table → table.capacity ≤ bound 1 := by
  rintro ⟨bound, hbound, hall⟩
  have hnew : Churned 0 0 {} := ⟨represents_new, rfl, rfl, rfl, by omega⟩
  obtain ⟨calls, table, hlive, hrun, hgrown⟩ := hnew.grows (.inl rfl) hbound
  exact absurd (hall calls table hlive hrun) (by omega)

end GoblinCore.SwissTable
