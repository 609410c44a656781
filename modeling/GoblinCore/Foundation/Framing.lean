import GoblinCore.Foundation.Positional
import Mathlib.Data.List.Basic

/-!
# Records packed one after another

A buffer of records that each tell their own size.  A record is reached by adding up the sizes of
those before it.  What a walk from the start of the buffer reads is the list of the records, and
cutting the buffer where a record starts cuts that list.
-/

namespace GoblinCore

open List Positional

/-- How a record is written, and how one is read at the front of a buffer. -/
structure Framing (Item Byte : Type) where
  write : Item → List Byte
  read : List Byte → Item
  size : List Byte → ℕ
  read_write : ∀ item rest, read (write item ++ rest) = item
  size_write : ∀ item rest, size (write item ++ rest) = (write item).length

namespace Framing

variable {Item Byte : Type} (framing : Framing Item Byte)

/-- The buffer of a list of records. -/
def concat (items : List Item) : List Byte := items.flatMap framing.write

/-- Where the record of an index starts. -/
def offsetOf (buffer : List Byte) : ℕ → ℕ
  | 0 => 0
  | index + 1 =>
    offsetOf buffer index + framing.size (buffer.drop (offsetOf buffer index))

/-- So many records from an offset on. -/
def itemsFrom (buffer : List Byte) : ℕ → ℕ → List Item
  | _, 0 => []
  | offset, count + 1 =>
    framing.read (buffer.drop offset)
      :: itemsFrom buffer (offset + framing.size (buffer.drop offset)) count

variable {framing}

@[simp] theorem concat_nil : framing.concat [] = [] := rfl

@[simp] theorem concat_cons (item : Item) (items : List Item) :
    framing.concat (item :: items) = framing.write item ++ framing.concat items := rfl

@[simp] theorem concat_append (items others : List Item) :
    framing.concat (items ++ others) = framing.concat items ++ framing.concat others :=
  flatMap_append

theorem concat_take_append_drop (items : List Item) (index : ℕ) :
    framing.concat (items.take index) ++ framing.concat (items.drop index)
      = framing.concat items := by
  rw [← concat_append, take_append_drop]

variable {items : List Item} {index : ℕ}

/-- An index starts where the records before it end. -/
theorem offsetOf_concat (h : index ≤ items.length) :
    framing.offsetOf (framing.concat items) index = (framing.concat (items.take index)).length := by
  induction index with
  | zero => rfl
  | succ index ih =>
    have hdrop : (framing.concat items).drop (framing.concat (items.take index)).length
        = framing.concat (items.drop index) := by
      rw [← concat_take_append_drop items index, drop_left]
    rw [offsetOf, ih (by omega), hdrop, drop_eq_getElem_cons (by omega : index < items.length),
      concat_cons, framing.size_write, take_succ_eq_append_getElem (by omega), concat_append,
      length_append]
    simp [concat]

theorem drop_offsetOf (h : index ≤ items.length) :
    (framing.concat items).drop (framing.offsetOf (framing.concat items) index)
      = framing.concat (items.drop index) := by
  rw [offsetOf_concat h]
  conv_lhs => rw [← concat_take_append_drop items index]
  exact drop_left

theorem take_offsetOf (h : index ≤ items.length) :
    (framing.concat items).take (framing.offsetOf (framing.concat items) index)
      = framing.concat (items.take index) := by
  rw [offsetOf_concat h]
  conv_lhs => rw [← concat_take_append_drop items index]
  exact take_left

theorem read_drop_offsetOf (h : index < items.length) :
    framing.read ((framing.concat items).drop (framing.offsetOf (framing.concat items) index))
      = items[index] := by
  rw [drop_offsetOf (Nat.le_of_lt h), drop_eq_getElem_cons h, concat_cons, framing.read_write]

/-- A walk reads the records. -/
theorem itemsFrom_offsetOf {count : ℕ} (h : index + count ≤ items.length) :
    framing.itemsFrom (framing.concat items) (framing.offsetOf (framing.concat items) index) count
      = (items.drop index).take count := by
  induction count generalizing index with
  | zero => simp [itemsFrom]
  | succ count ih =>
    have hlt : index < items.length := by omega
    have hnext := ih (by omega : index + 1 + count ≤ items.length)
    rw [offsetOf] at hnext
    rw [itemsFrom, read_drop_offsetOf hlt, hnext, drop_eq_getElem_cons hlt, take_succ_cons]

end Framing

/-! ## Words of bytes -/

/-- The bytes of a number, from the lowest on. -/
def toBytes (width value : ℕ) : List UInt8 :=
  ((toDigits 256 width value).map UInt8.ofNat).reverse

def ofBytes (bytes : List UInt8) : ℕ := ofDigits 256 (bytes.reverse.map UInt8.toNat)

variable {width value : ℕ}

@[simp] theorem length_toBytes : (toBytes width value).length = width := by
  simp [toBytes]

theorem ofBytes_toBytes (h : value < 256 ^ width) : ofBytes (toBytes width value) = value := by
  have hdigits : ((toDigits 256 width value).map UInt8.ofNat).map UInt8.toNat =
      toDigits 256 width value := by
    rw [map_map]
    refine (map_congr_left fun digit hdigit ↦ ?_).trans (map_id _)
    have hlt := toDigits_lt (by decide : 0 < 256) digit hdigit
    exact UInt8.toNat_ofNat'.trans (Nat.mod_eq_of_lt hlt)
  rw [ofBytes, toBytes, reverse_reverse, hdigits, ofDigits_toDigits h]

theorem toNat_lt_of_mem (bytes : List UInt8) :
    ∀ digit ∈ bytes.reverse.map UInt8.toNat, digit < 256 := by
  simp only [mem_map, forall_exists_index, and_imp]
  rintro digit byte - rfl
  exact byte.toNat_lt

theorem ofBytes_lt (bytes : List UInt8) : ofBytes bytes < 256 ^ bytes.length := by
  have hlt := ofDigits_lt (toNat_lt_of_mem bytes)
  rwa [length_map, length_reverse] at hlt

theorem toBytes_ofBytes (bytes : List UInt8) : toBytes bytes.length (ofBytes bytes) = bytes := by
  have hdigits := toDigits_ofDigits (toNat_lt_of_mem bytes)
  rw [length_map, length_reverse] at hdigits
  rw [toBytes, ofBytes, hdigits, map_map, map_reverse, reverse_reverse]
  exact (map_congr_left fun byte _ ↦ UInt8.ofNat_toNat).trans (map_id _)

/-- A length in four bytes. -/
def word32 (value : ℕ) : List UInt8 := toBytes 4 value

/-- The length in the first four bytes. -/
def readWord32 (bytes : List UInt8) : ℕ := ofBytes (bytes.take 4)

@[simp] theorem length_word32 (value : ℕ) : (word32 value).length = 4 := length_toBytes

theorem readWord32_append (h : value < 2 ^ 32) (rest : List UInt8) :
    readWord32 (word32 value ++ rest) = value := by
  rw [readWord32, take_left' (length_word32 value)]
  exact ofBytes_toBytes h

end GoblinCore
