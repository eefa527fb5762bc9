import Librdpma.Lib.FreeList
import Librdpma.Octopus.Bitmap

/-!
# The item table of Octopus (`include/table.hpp`)

`Table<T>` keeps which items are live twice: in a bitmap, and in a linked
list of `FreeBit` nodes from which `create` takes the next index. The list is
modelled by the positions its nodes hold, head first. The mutex is left out.

The constructor builds the list with `int` loop variables. Their arithmetic
is modelled in 32-bit two's complement, which decides for which item counts
the list is right (`allocates_iff`).
-/

namespace Librdpma.Octopus

open Lib

/-- What the table knows about its item type: its size in bytes and how an
item is read out of raw bytes. -/
structure Layout (T : Type) where
  sizeof : ℕ
  load : (ℕ → BitVec 8) → T

structure Table (T : Type) where
  bitmapItems : Bitmap
  items : ℕ → T
  headFreeBit : List ℕ

namespace Table

variable {T : Type}

/-! ## The constructor -/

/-- `int index = count / 8 - 1`: a 64-bit difference converted to `int`. -/
def startIndex (count : ℕ) : ℤ :=
  Int.bmod (((count / 8 + (2 ^ 64 - 1)) % 2 ^ 64 : ℕ) : ℤ) (2 ^ 32)

/-- `position = index * 8 + offset`: an `int` widened to `uint64_t`. -/
def position (index offset : ℕ) : ℕ :=
  (Int.bmod ((index * 8 + offset : ℕ) : ℤ) (2 ^ 32) % 2 ^ 64).toNat

/-- The inner loop over `offset`, from 7 down to 0. -/
def scanByte (buffer : ℕ → BitVec 8) (index : ℕ) (chain : List ℕ) : List ℕ :=
  [7, 6, 5, 4, 3, 2, 1, 0].foldl (fun chain offset =>
    if (buffer index &&& bitMask offset) = 0#8 then
      position index offset :: chain
    else chain) chain

/-- The outer loop, over the indices below its argument in descending order. -/
def scanBytes (buffer : ℕ → BitVec 8) : ℕ → List ℕ → List ℕ
  | 0, chain => chain
  | index + 1, chain => scanBytes buffer index (scanByte buffer index chain)

/-- `Table<T>::Table`. The items stand at the start of the buffer, the bitmap
behind them; the scan reads the bytes at the start of the buffer. -/
def construct (lay : Layout T) (count : ℕ) (buffer : ℕ → BitVec 8) :
    Outcome (Table T) :=
  if count % 8 = 0 then do
    let bitmapItems ← Bitmap.construct count (fun i => buffer (count * lay.sizeof + i))
    return {
      bitmapItems
      items := fun i => lay.load (fun j => buffer (i * lay.sizeof + j))
      headFreeBit := scanBytes buffer (startIndex count + 1).toNat [] }
  else .exit

/-! ## The operations -/

/-- Both overloads of `create`: take the head of the free chain, occupy its
bit, and let `assign` store the item if there is one. -/
def createWith (assign : (ℕ → T) → ℕ → ℕ → T) (t : Table T) :
    Option ℕ × Table T :=
  match t.headFreeBit with
  | [] => (none, t)
  | index :: nextFreeBit =>
      match t.bitmapItems.set index with
      | (false, bitmapItems) =>
          (none, { t with bitmapItems, headFreeBit := nextFreeBit })
      | (true, bitmapItems) =>
          (some index,
            { bitmapItems, headFreeBit := nextFreeBit,
              items := assign t.items index })

/-- `create(index)`: no item is assigned. -/
def create (t : Table T) : Option ℕ × Table T :=
  createWith (fun items _ => items) t

/-- `create(index, item)`. -/
def createItem (item : T) (t : Table T) : Option ℕ × Table T :=
  createWith (fun items index => Function.update items index item) t

def get (t : Table T) (index : ℕ) : Option T :=
  match t.bitmapItems.get index with
  | none => none
  | some false => none
  | some true => some (t.items index)

def put (t : Table T) (index : ℕ) (item : T) : Bool × Table T :=
  match t.bitmapItems.get index with
  | none => (false, t)
  | some false => (false, t)
  | some true => (true, { t with items := Function.update t.items index item })

/-- `put(index, item, address)`: only the address of the item is returned
(here relative to the buffer); the item is not written. -/
def putAddress (lay : Layout T) (t : Table T) (index : ℕ) : Option ℕ :=
  match t.bitmapItems.get index with
  | none => none
  | some false => none
  | some true => some (index * lay.sizeof)

def remove (t : Table T) (index : ℕ) : Bool × Table T :=
  match t.bitmapItems.get index with
  | none => (false, t)
  | some false => (false, t)
  | some true =>
      match t.bitmapItems.clear index with
      | (false, bitmapItems) => (false, { t with bitmapItems })
      | (true, bitmapItems) =>
          (true, { t with bitmapItems, headFreeBit := index :: t.headFreeBit })

end Table

end Librdpma.Octopus
