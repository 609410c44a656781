import GoblinCore.Ttl.ChunkedSortedList
import Mathlib.Data.List.AList
import Mathlib.Data.Prod.Lex
import Mathlib.Order.Fin.Basic

/-!
# The expiry set

The expiries of a store: a list of entries in expiry order and an index from key id to expiry.
Ids and expiries are packed into 48 bits.  The index is a Swiss table and is modelled as a finite
map; its insertion asks for memory once, and a refusal stands for a rehash that was needed and not
granted.
-/

namespace GoblinCore

open Refusable MemoryLimit Function Comp ChunkedSortedList List

abbrev PackedU48 := Fin (2 ^ 48)

instance packedNeZero : NeZero (2 ^ 48) := ⟨by decide⟩

def PackedU48.make (value : ℕ) : PackedU48 := Fin.ofNat (2 ^ 48) value

/-- Entries are ordered by expiry, then by key id. -/
abbrev TtlEntry := PackedU48 ×ₗ PackedU48

def TtlEntry.make (expiry key : PackedU48) : TtlEntry := toLex (expiry, key)

def TtlEntry.expiryMs (entry : TtlEntry) : PackedU48 := (ofLex entry).1

def TtlEntry.key (entry : TtlEntry) : PackedU48 := (ofLex entry).2

structure TtlSet where
  order : ChunkedSortedList TtlEntry := {}
  index : AList (fun _ : PackedU48 ↦ PackedU48) := ∅

namespace TtlSet

/-- The `Load` of the ordered list. -/
def load : ℕ := 256

def empty (ttl : TtlSet) : Bool := ttl.index.keys.isEmpty

def onOrder {β : Type} (body : StoreComp (ChunkedSortedList TtlEntry) β) : StoreComp TtlSet β :=
  zoom order (fun ttl list ↦ { ttl with order := list }) body

def insertOrder (entry : TtlEntry) : StoreComp TtlSet Unit :=
  onOrder (insert load entry)

/-- `(void)order_.erase_one(entry)`. -/
def eraseOrder (entry : TtlEntry) : StoreComp TtlSet Unit := do
  let _ ← onOrder (ChunkedSortedList.eraseOne load entry)
  pure ()

def assignIndex (key expiry : PackedU48) (ttl : TtlSet) : TtlSet :=
  { ttl with index := ttl.index.insert key expiry }

def eraseIndex (key : PackedU48) (ttl : TtlSet) : TtlSet :=
  { ttl with index := ttl.index.erase key }

/-- `index_.insert_or_assign`, which may have to rehash. -/
def insertOrAssign (key expiry : PackedU48) : StoreComp TtlSet Unit := do
  ensureMemoryGrowth
  modify (assignIndex key expiry)

def expiry (ttl : TtlSet) (keyId : ℕ) : Option PackedU48 := ttl.index.lookup (.make keyId)

def set (keyId expiryMs : ℕ) : StoreComp TtlSet Unit := do
  let ttl ← get
  let key := PackedU48.make keyId
  let newEntry := TtlEntry.make (.make expiryMs) key
  match ttl.index.lookup key with
  | some existing =>
    insertOrder newEntry
    modify (assignIndex key (.make expiryMs))
    eraseOrder (TtlEntry.make existing key)
  | none =>
    ensureMemoryGrowth
    insertOrder newEntry
    tryCatch (insertOrAssign key (.make expiryMs)) fun thrown ↦ do
      eraseOrder newEntry
      throw thrown

def clear (keyId : ℕ) : StoreComp TtlSet Bool := do
  let ttl ← get
  match ttl.expiry keyId with
  | none => pure false
  | some existing =>
    eraseOrder (TtlEntry.make existing (.make keyId))
    modify (eraseIndex (.make keyId))
    pure true

/-- The keyspace slid the key at id `source` into `target`; move its entry to match. -/
def rekey (source target : ℕ) : StoreComp TtlSet Unit := do
  let ttl ← get
  match ttl.expiry source with
  | none => pure ()
  | some expiry =>
    insertOrder (TtlEntry.make expiry (.make target))
    eraseOrder (TtlEntry.make expiry (.make source))
    modify (eraseIndex (.make source))
    insertOrAssign (.make target) expiry

/-! ## Entries and expiries -/

/-- The expiry of each packed id, as the index has it. -/
def expiries (ttl : TtlSet) : PackedU48 → Option PackedU48 := fun key ↦ ttl.index.lookup key

/-- The entries are exactly the pairs of `expiries`, each once. -/
structure Describes (entries : List TtlEntry) (expiries : PackedU48 → Option PackedU48) : Prop where
  nodup : entries.Nodup
  mem_iff : ∀ key expiry, TtlEntry.make expiry key ∈ entries ↔ expiries key = some expiry

/-- The invariant of the expiry set: the order describes the index.  The order is valid, or it has
the empty block that a refused first insertion leaves. -/
structure Valid (ttl : TtlSet) : Prop where
  order : ttl.order.Valid ∨ ttl.order.Begun
  describes : Describes ttl.order.toList ttl.expiries

/-- A set with an entry has a valid order. -/
theorem Valid.order_of_mem {ttl : TtlSet} {entry : TtlEntry} (h : ttl.Valid)
    (hmem : entry ∈ ttl.order.toList) : ttl.order.Valid := by
  refine h.order.resolve_right fun hbegun ↦ ?_
  obtain ⟨capacity, hblks⟩ := hbegun.blocks
  simp [toList, hblks] at hmem

theorem Valid.order_of_expiry {ttl : TtlSet} {key expiry : PackedU48} (h : ttl.Valid)
    (hexp : ttl.expiries key = some expiry) : ttl.order.Valid :=
  h.order_of_mem ((h.describes.mem_iff key expiry).mpr hexp)

/-- A set without blocks and without index entries is valid, whatever it has reserved. -/
theorem valid_of_empty {ttl : TtlSet} (hblks : ttl.order.blocks = []) (hsize : ttl.order.size = 0)
    (hidx : ttl.index = ∅) : ttl.Valid := by
  have hlist : ttl.order.toList = [] := by rw [toList, hblks]; rfl
  refine ⟨.inl ⟨?_, ?_, ?_⟩, ?_, ?_⟩
  · simp [ChunkedSortedList.AllNonempty, hblks]
  · simp [hlist]
  · simp [hlist, hsize]
  · simp [hlist]
  · simp [hlist, expiries, hidx]

section Entries

variable {entries entries' : List TtlEntry} {expiries : PackedU48 → Option PackedU48}
  {key key' expiry expiry' : PackedU48}

theorem make_inj :
    TtlEntry.make expiry key = TtlEntry.make expiry' key' ↔ expiry = expiry' ∧ key = key' := by
  simp [TtlEntry.make]

theorem Describes.perm (h : Describes entries expiries) (hperm : entries'.Perm entries) :
    Describes entries' expiries :=
  ⟨hperm.nodup_iff.mpr h.nodup, fun key expiry ↦ hperm.mem_iff.trans (h.mem_iff key expiry)⟩

/-- A pair with a new id joins the entries. -/
theorem Describes.cons (h : Describes entries expiries) (hnone : expiries key = none)
    (expiry : PackedU48) :
    Describes (TtlEntry.make expiry key :: entries) (update expiries key (some expiry)) := by
  have hnot : TtlEntry.make expiry key ∉ entries := by
    intro hmem
    rw [h.mem_iff, hnone] at hmem
    exact Option.some_ne_none expiry hmem.symm
  refine ⟨nodup_cons.mpr ⟨hnot, h.nodup⟩, ?_⟩
  intro other otherExpiry
  rw [mem_cons, make_inj, h.mem_iff]
  by_cases hkey : other = key
  · subst other
    simp [hnone, eq_comm]
  · simp [hkey]

/-- The only entry of an id leaves the entries. -/
theorem Describes.tail (h : Describes (TtlEntry.make expiry key :: entries) expiries) :
    Describes entries (update expiries key none) := by
  have hnd := nodup_cons.mp h.nodup
  have hkey := (h.mem_iff key expiry).mp mem_cons_self
  refine ⟨hnd.2, ?_⟩
  intro other otherExpiry
  have hoth := h.mem_iff other otherExpiry
  rw [mem_cons, make_inj] at hoth
  by_cases hsame : other = key
  · subst other
    simp only [update_self, reduceCtorEq, iff_false]
    intro hmem
    have heq : otherExpiry = expiry := by
      have hsome := hoth.mp (.inr hmem)
      rw [hkey] at hsome
      exact (Option.some.inj hsome).symm
    exact hnd.1 (heq ▸ hmem)
  · simpa [hsame] using hoth

end Entries

@[simp] theorem expiries_assignIndex {ttl : TtlSet} {key expiry : PackedU48} :
    (ttl.assignIndex key expiry).expiries = update ttl.expiries key (some expiry) := by
  funext other
  by_cases hkey : other = key
  · subst other
    simp [expiries, assignIndex]
  · simp [expiries, assignIndex, hkey]

@[simp] theorem expiries_eraseIndex (ttl : TtlSet) (key : PackedU48) :
    (ttl.eraseIndex key).expiries = update ttl.expiries key none := by
  funext other
  by_cases hkey : other = key
  · subst other
    simp [expiries, eraseIndex]
  · simp [expiries, eraseIndex, hkey]

theorem expiry_eq (ttl : TtlSet) (keyId : ℕ) : ttl.expiry keyId = ttl.expiries (.make keyId) := rfl

/-! ## The operations -/

variable {ttl : TtlSet} {script : Script}

/-- A refused operation leaves the index alone and the entries the same up to order. -/
structure Denied (script : Script) (ttl : TtlSet) (thrown : Thrown) (ttl' : TtlSet) : Prop where
  thrown_eq : thrown = .maxMemoryExceeded
  refused : true ∈ script
  expiries : ttl'.expiries = ttl.expiries
  order : ttl'.order.toList.Perm ttl.order.toList
  intact : ttl'.order.Valid ∨ ttl'.order.Begun

theorem denied_of_order {list : ChunkedSortedList TtlEntry} {thrown : Thrown}
    (h : ChunkedSortedList.Denied script ttl.order thrown list) :
    Denied script ttl thrown { ttl with order := list } :=
  ⟨h.thrown_eq, h.refused, rfl, .of_eq h.toList, h.intact⟩

theorem insertOrder_ends (entry : TtlEntry) (h : ttl.order.Valid) (script : Script) :
    Ends (insertOrder entry) ttl script
      (fun _ ttl' ↦ ttl'.expiries = ttl.expiries ∧ ttl'.order.Valid ∧
        ttl'.order.toList.Perm (entry :: ttl.order.toList)) (Denied script ttl) := by
  unfold insertOrder onOrder
  apply (insert_ends load (by decide) h script).zoom
  · exact fun _ _ hins ↦ ⟨rfl, hins⟩
  · exact fun _ _ hdenied ↦ denied_of_order hdenied

variable {E : Thrown → TtlSet → Prop}

/-- Erasing an entry that is there removes it; nothing is thrown. -/
theorem eraseOrder_ends {entry : TtlEntry} (h : ttl.order.Valid) (hmem : entry ∈ ttl.order.toList) :
    Ends (eraseOrder entry) ttl script
      (fun _ ttl' ↦ ttl'.expiries = ttl.expiries ∧ ttl'.order.Valid ∧
        ttl.order.toList.Perm (entry :: ttl'.order.toList)) E := by
  apply Ends.discard
  apply (eraseOne_ends load (by decide) h script).zoom
  · intro erased list hend
    cases erased with
    | false => exact absurd hmem (hend.2.2 rfl).1
    | true => exact ⟨rfl, hend.1, hend.2.1 rfl⟩
  · exact fun _ _ hfalse ↦ hfalse

/-- After a refused first insertion the next one is refused as well, or it is undefined. -/
theorem insertOrder_ends_of_begun (entry : TtlEntry) (h : ttl.order.Begun) (script : Script) :
    Ends (insertOrder entry) ttl script (fun _ _ ↦ False)
      (fun thrown ttl' ↦ thrown = .undefinedBehavior ∨ Denied script ttl thrown ttl') := by
  unfold insertOrder onOrder
  apply (h.insert_ends load script).zoom
  · exact fun _ _ hfalse ↦ hfalse
  · exact fun _ _ hthrown ↦ hthrown.imp_right denied_of_order

/-- Setting an expiry changes that id only; a refusal changes nothing. -/
theorem set_ends_of_valid (keyId expiryMs : ℕ) (h : ttl.Valid) (horder : ttl.order.Valid)
    (script : Script) :
    Ends (set keyId expiryMs) ttl script
      (fun _ ttl' ↦ ttl'.Valid ∧ ttl'.expiries =
        update ttl.expiries (.make keyId) (some (.make expiryMs)))
      (Denied script ttl) := by
  apply ends_get_bind
  generalize hkey : PackedU48.make keyId = key
  generalize hnew : PackedU48.make expiryMs = new
  dsimp only
  cases hlkp : ttl.index.lookup key with
  | some existing =>
    have hold : ttl.expiries key = some existing := hlkp
    have hentry := (h.describes.mem_iff key existing).mpr hold
    apply (insertOrder_ends (TtlEntry.make new key) horder script).bind
    intro _ ttl₁ rest _ hins
    apply ends_modify_bind
    have hmem := hins.2.2.mem_iff.mpr (mem_cons_of_mem _ hentry)
    have hvalid : (ttl₁.assignIndex key new).order.Valid := hins.2.1
    apply (eraseOrder_ends hvalid hmem).mono_ok
    intro _ ttl₂ herased
    -- One copy of the old entry goes, so what is left is the new entry and the others.
    obtain ⟨others, hoths⟩ :
        ∃ others, ttl.order.toList.Perm (TtlEntry.make existing key :: others) :=
      ⟨_, perm_cons_erase hentry⟩
    have hleft : ttl₂.order.toList.Perm (TtlEntry.make new key :: others) := by
      apply List.Perm.cons_inv (a := TtlEntry.make existing key)
      calc TtlEntry.make existing key :: ttl₂.order.toList
          |>.Perm ttl₁.order.toList := herased.2.2.symm
        _ |>.Perm (TtlEntry.make new key :: ttl.order.toList) := hins.2.2
        _ |>.Perm (TtlEntry.make new key :: TtlEntry.make existing key :: others) := hoths.cons _
        _ |>.Perm (TtlEntry.make existing key :: TtlEntry.make new key :: others) :=
          List.Perm.swap _ _ _
    have hexps : ttl₂.expiries = update ttl.expiries key (some new) := by
      rw [herased.1, expiries_assignIndex, hins.1]
    have hcleared := (h.describes.perm hoths.symm).tail
    have hdescribes := (hcleared.cons (update_self _ _ _) new).perm hleft
    rw [update_idem] at hdescribes
    exact ⟨⟨.inl herased.2.1, hexps ▸ hdescribes⟩, hexps⟩
  | none =>
    have hfresh : ttl.expiries key = none := hlkp
    have hrefuse (hrefused : true ∈ script) : Denied script ttl .maxMemoryExceeded ttl :=
      ⟨rfl, hrefused, rfl, List.Perm.refl _, h.order⟩
    apply (ensureMemoryGrowth_ends hrefuse).bind
    intro _ ttl₀ rest hsuf hsame
    subst ttl₀
    have hinsert := insertOrder_ends (TtlEntry.make new key) horder rest
    apply (hinsert.mono_throw fun _ _ hdenied ↦
      { hdenied with refused := hsuf.mem hdenied.refused }).bind
    · intro _ ttl₁ rest' hsuf' hins
      have hassign : Ends (insertOrAssign key new) ttl₁ rest'
          (fun _ ttl' ↦ ttl' = ttl₁.assignIndex key new)
          (fun thrown ttl' ↦ thrown = .maxMemoryExceeded ∧ true ∈ rest' ∧ ttl' = ttl₁) := by
        apply (ensureMemoryGrowth_ends fun hrefused ↦ ⟨rfl, hrefused, rfl⟩).bind
        intro _ ttl' _ _ hsame
        subst ttl'
        exact ends_modify rfl
      apply (hassign.mono_ok _).tryCatch
      · rintro thrown ttl₂ rest'' hsuf'' ⟨hthr, hrefused, rfl⟩
        have hmem := hins.2.2.mem_iff.mpr mem_cons_self
        apply (eraseOrder_ends hins.2.1 hmem).bind
        intro _ ttl₃ _ _ herased
        apply ends_throw
        refine ⟨hthr, (hsuf'.trans hsuf).mem hrefused, ?_, ?_, .inl herased.2.1⟩
        · rw [herased.1, hins.1]
        · exact List.Perm.cons_inv (herased.2.2.symm.trans hins.2.2)
      · intro _ ttl' hassigned
        have hexps : ttl'.expiries = update ttl.expiries key (some new) := by
          rw [hassigned, expiries_assignIndex, hins.1]
        have hdescribes := (h.describes.cons hfresh new).perm hins.2.2
        rw [← hexps] at hdescribes
        subst ttl'
        exact ⟨⟨.inl hins.2.1, hdescribes⟩, hexps⟩

/-- The same for every expiry set, but for what is undefined after a refused first insertion. -/
theorem set_ends (keyId expiryMs : ℕ) (h : ttl.Valid) (script : Script) :
    Ends (set keyId expiryMs) ttl script
      (fun _ ttl' ↦ ttl'.Valid ∧ ttl'.expiries =
        update ttl.expiries (.make keyId) (some (.make expiryMs)))
      (fun thrown ttl' ↦ thrown = .undefinedBehavior ∨ Denied script ttl thrown ttl') := by
  rcases h.order with horder | hbegun
  · exact (set_ends_of_valid keyId expiryMs h horder script).mono_throw fun _ _ ↦ .inr
  have hfresh : ttl.index.lookup (.make keyId) = none := by
    refine Option.eq_none_iff_forall_ne_some.mpr fun expiry hexp ↦ ?_
    obtain ⟨capacity, hblks⟩ := hbegun.blocks
    have hmem := (h.describes.mem_iff _ _).mpr hexp
    simp [toList, hblks] at hmem
  apply ends_get_bind
  dsimp only
  rw [hfresh]
  have hrefuse (hrefused : true ∈ script) : Denied script ttl .maxMemoryExceeded ttl :=
    ⟨rfl, hrefused, rfl, List.Perm.refl _, h.order⟩
  apply (ensureMemoryGrowth_ends fun hrefused ↦ .inr (hrefuse hrefused)).bind
  rintro - _ rest hsuf rfl
  apply ((insertOrder_ends_of_begun _ hbegun rest).mono_throw fun _ _ hthrown ↦
    hthrown.imp_right fun hdenied ↦ { hdenied with refused := hsuf.mem hdenied.refused }).bind
  exact fun _ _ _ _ hfalse ↦ hfalse.elim

-- The first expiry is refused the items of its block; the next one finds no entry in `maxes_`.
example : (set 0 1000 (set 0 1000 {} [false, false, false, true]).state []).result =
    .error .undefinedBehavior := by rfl

/-- Clearing an expiry never throws and changes that id only. -/
theorem clear_ends (keyId : ℕ) (h : ttl.Valid) :
    Ends (clear keyId) ttl script
      (fun removed ttl' ↦ ttl'.Valid ∧ removed = (ttl.expiry keyId).isSome ∧
        ttl'.expiries = update ttl.expiries (.make keyId) none) E := by
  apply ends_get_bind
  cases hexp : ttl.expiry keyId with
  | none =>
    refine ends_pure ⟨h, rfl, ?_⟩
    rw [expiry_eq] at hexp
    rw [← hexp, update_eq_self]
  | some existing =>
    have hmem := (h.describes.mem_iff _ _).mpr hexp
    apply (eraseOrder_ends (h.order_of_mem hmem) hmem).bind
    intro _ ttl₁ rest _ herased
    apply ends_modify_bind
    have hexps : (ttl₁.eraseIndex (.make keyId)).expiries =
        update ttl.expiries (.make keyId) none := by
      rw [expiries_eraseIndex, herased.1]
    have hdescribes := (h.describes.perm herased.2.2.symm).tail
    rw [← hexps] at hdescribes
    exact ends_pure ⟨⟨.inl herased.2.1, hdescribes⟩, rfl, hexps⟩

/-- What a refused rekeying leaves behind: the new id has no expiry, and either the old id keeps
it or the order holds an entry that the index lacks. -/
structure RekeyLost (script : Script) (ttl : TtlSet) (source target : ℕ) (thrown : Thrown)
    (ttl' : TtlSet) : Prop where
  thrown_eq : thrown = .maxMemoryExceeded
  refused : true ∈ script
  had_expiry : ttl.expiry source ≠ none
  lost : ttl'.expiry target = none
  stranded : ttl'.expiry source = ttl.expiry source ∨
    ∃ expiry, TtlEntry.make expiry (.make target) ∈ ttl'.order.toList

/-- A granted rekeying moves the expiry of `source` to `target`. -/
theorem rekey_ends (source target : ℕ) (h : ttl.Valid)
    (hne : PackedU48.make source ≠ PackedU48.make target) (htgt : ttl.expiry target = none)
    (script : Script) :
    Ends (rekey source target) ttl script
      (fun _ ttl' ↦ ttl'.Valid ∧ ttl'.expiries = update
        (update ttl.expiries (.make source) none) (.make target) (ttl.expiry source))
      (RekeyLost script ttl source target) := by
  apply ends_get_bind
  rw [expiry_eq] at htgt
  cases hexp : ttl.expiry source with
  | none =>
    refine ends_pure ⟨h, ?_⟩
    rw [expiry_eq] at hexp
    rw [← hexp, update_eq_self, hexp, ← htgt, update_eq_self]
  | some moved =>
    have hsrc : ttl.expiries (.make source) = some moved := hexp
    have hinsert := insertOrder_ends (TtlEntry.make moved (.make target)) (h.order_of_expiry hsrc)
      script
    apply (hinsert.mono_throw _).bind
    · intro _ ttl₁ rest hsuf hins
      have hmem :=
        hins.2.2.mem_iff.mpr (mem_cons_of_mem _ ((h.describes.mem_iff _ _).mpr hsrc))
      apply (eraseOrder_ends hins.2.1 hmem).bind
      intro _ ttl₂ rest' hsuf' herased
      apply ends_modify_bind
      have hexps₂ : (ttl₂.eraseIndex (.make source)).expiries =
          update ttl.expiries (.make source) none := by
        rw [expiries_eraseIndex, herased.1, hins.1]
      have hdescribes := (h.describes.cons htgt moved).perm (herased.2.2.symm.trans hins.2.2)
      have hcleared := hdescribes.tail
      rw [update_comm hne.symm] at hcleared
      have hrefuse (hrefused : true ∈ rest') : RekeyLost script ttl source target
          .maxMemoryExceeded (ttl₂.eraseIndex (.make source)) := by
        refine ⟨rfl, (hsuf'.trans hsuf).mem hrefused, by simp [hexp], ?_,
          .inr ⟨moved, ?_⟩⟩
        · rw [expiry_eq, hexps₂, update_of_ne hne.symm, htgt]
        · have htgt₂ := (hdescribes.mem_iff (.make target) moved).mpr (update_self _ _ _)
          exact (mem_cons.mp htgt₂).resolve_left fun heq ↦ hne (make_inj.mp heq).2.symm
      apply (ensureMemoryGrowth_ends hrefuse).bind
      intro _ ttl₃ _ _ hsame
      subst ttl₃
      apply ends_modify
      have hexps : ((ttl₂.eraseIndex (.make source)).assignIndex (.make target) moved).expiries =
          update (update ttl.expiries (.make source) none) (.make target) (some moved) := by
        rw [expiries_assignIndex, hexps₂]
      rw [← hexps] at hcleared
      exact ⟨⟨.inl herased.2.1, hcleared⟩, hexps⟩
    · intro thrown ttl' hdenied
      refine ⟨hdenied.thrown_eq, hdenied.refused, by simp [hexp], ?_, .inl ?_⟩
      · rw [expiry_eq, hdenied.expiries, htgt]
      · rw [expiry_eq, hdenied.expiries, ← expiry_eq]

/-- A full block refuses the entry of the new id, and the rekeying stops before it began. -/
theorem rekey_refused_of_full {block : Block TtlEntry} {source : ℕ} {moved : PackedU48}
    (hsrc : ttl.expiry source = some moved) (hblks : ttl.order.blocks = [block])
    (hfull : block.items.length = block.capacity) (hload : block.capacity ≤ load * 2) (target : ℕ)
    (rest : Script) :
    rekey source target ttl (true :: rest) = ⟨.error .maxMemoryExceeded, ttl, rest⟩ := by
  have hinsert : insertOrder (TtlEntry.make moved (.make target)) ttl (true :: rest) =
      ⟨.error .maxMemoryExceeded, ttl, rest⟩ := by
    unfold insertOrder onOrder
    rw [zoom_eq (insert_refused_of_full hblks hfull hload)]
  simp only [rekey, get_bind, hsrc]
  exact bind_error hinsert

end TtlSet

end GoblinCore
