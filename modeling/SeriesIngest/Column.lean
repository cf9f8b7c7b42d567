import SeriesIngest.Point
import SeriesIngest.Text.Utf8
import SeriesIngest.Wire
/-! One packed column: the bytes of the present rows, a presence bit per row with the first
row in the lowest bit, and for text the offset at which each row starts. -/
namespace SeriesIngest

structure Column where
  values : List UInt8 := []
  offsets : List Int32 := []
  bitmap : List UInt8 := []
  bitmapOffset : Nat := 0
  rows : Nat := 0
  nulls : Nat := 0
deriving DecidableEq

namespace Column

/-- The counts as a record states them, in words. They are the counts below 2³¹ rows. -/
def len (c : Column) : Int32 := Int32.ofNat c.rows

def nullCount (c : Column) : Int32 := Int32.ofNat c.nulls

def bit (row : Nat) : UInt8 := 1 <<< (row % 8).toUInt8

def pushRow (c : Column) (present : Bool) : Column :=
  let grown := if c.rows % 8 = 0 then c.bitmap ++ [0] else c.bitmap
  { c with
    bitmap := if present then grown.modify (c.rows / 8) (· ||| bit c.rows) else grown
    rows := c.rows + 1
    nulls := if present then c.nulls else c.nulls + 1 }

def intBytes (v : Int64) : List UInt8 := BigEndian.encode 8 v.toUInt64.toNat

def floatBytes (v : Binary64) : List UInt8 := BigEndian.encode 8 v.bits.toNat

def boolBytes (v : Bool) : List UInt8 := [if v then 1 else 0]

def pushBytes (c : Column) (bytes : List UInt8) : Column :=
  { c with values := c.values ++ bytes }.pushRow true

def pushInt (c : Column) (v : Int64) : Column := c.pushBytes (intBytes v)

def pushFloat (c : Column) (v : Binary64) : Column := c.pushBytes (floatBytes v)

def pushBool (c : Column) (v : Bool) : Column := c.pushBytes (boolBytes v)

def pushOffset (c : Column) : Column :=
  { c with offsets := c.offsets ++ [Int32.ofNat c.values.length] }

def pushText (c : Column) (v : String) : Column := c.pushOffset.pushBytes (Utf8.encode v)

def pushNull (c : Column) : Column := c.pushRow false

def pushTextNull (c : Column) : Column := c.pushOffset.pushRow false

/-- A row outside the bitmap counts as missing. -/
def isNull (c : Column) (row : Nat) : Bool :=
  match c.bitmap[(row + c.bitmapOffset) / 8]? with
  | some byte => byte &&& bit (row + c.bitmapOffset) == 0
  | none => true

def presence (c : Column) : List Bool := (List.range c.rows).map (!c.isNull ·)

def takeRows (width : Nat) (read : List UInt8 → α) : List Bool → List UInt8 → List (Option α)
  | [], _ => []
  | false :: rest, bytes => none :: takeRows width read rest bytes
  | true :: rest, bytes =>
    if bytes.length < width then none :: takeRows width read rest bytes
    else some (read (bytes.take width)) :: takeRows width read rest (bytes.drop width)

def readInt (bytes : List UInt8) : Int64 := (BigEndian.decode bytes).toUInt64.toInt64

def readFloat (bytes : List UInt8) : Binary64 := ⟨(BigEndian.decode bytes).toUInt64⟩

/-- Any byte but zero is true. -/
def readBool (bytes : List UInt8) : Bool := BigEndian.decode bytes != 0

def ints (c : Column) : List (Option Int64) := takeRows 8 readInt c.presence c.values

def floats (c : Column) : List (Option Binary64) := takeRows 8 readFloat c.presence c.values

def bools (c : Column) : List (Option Bool) := takeRows 1 readBool c.presence c.values

def position? (offset : Int32) : Option Nat :=
  if offset < 0 then none else some offset.toInt.toNat

/-- A row of text ends where the next one starts, the last one at the end of the values. -/
def text? (c : Column) (row : Nat) : Option String := do
  if c.isNull row then none
  let start ← position? (← c.offsets[row]?)
  let stop ← match c.offsets[row + 1]? with
    | some next => position? next
    | none => some c.values.length
  if start ≤ stop ∧ stop ≤ c.values.length then
    (Utf8.decode ((c.values.drop start).take (stop - start))).toOption
  else none

def texts (c : Column) : List (Option String) := (List.range c.rows).map c.text?

end Column
end SeriesIngest
