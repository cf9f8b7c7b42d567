import SeriesIngest.Record
import SeriesIngest.Wire
/-! The wire form of a record. Counts, offsets and header fields are words of four bytes,
times of eight, most significant byte first; a type is a varint:

  entry count, entries (name length, name, type), column count,
  columns (length, values; count, offsets; length, bitmap; bitmap offset; rows; nulls),
  least time, greatest time.

The measurement travels outside. -/
namespace SeriesIngest.Record

def lengthBytes (n : Nat) : Except RecordDefect (List UInt8) :=
  if n < 0x80000000 then .ok (BigEndian.encode 4 n) else .error (.oversize n)

def blockBytes (bytes : List UInt8) : Except RecordDefect (List UInt8) :=
  (lengthBytes bytes.length).map (· ++ bytes)

def wordBytes (w : Int32) : List UInt8 := BigEndian.encode 4 w.toUInt32.toNat

def entryBytes (e : SchemaEntry) : Except RecordDefect (List UInt8) := do
  let name ← blockBytes (Utf8.encode e.name)
  return name ++ ZigZag.encode e.type.id

def columnBytes (c : Column) : Except RecordDefect (List UInt8) := do
  let values ← blockBytes c.values
  let offsetCount ← lengthBytes c.offsets.length
  let bitmap ← blockBytes c.bitmap
  return values ++ offsetCount ++ c.offsets.flatMap wordBytes ++ bitmap ++
    wordBytes (Int32.ofNat c.bitmapOffset) ++ wordBytes c.len ++ wordBytes c.nullCount

def toBytes (r : Record) : Except RecordDefect (List UInt8) := do
  let entryCount ← lengthBytes r.schema.length
  let entries ← r.schema.mapM entryBytes
  let columnCount ← lengthBytes r.columns.length
  let columns ← r.columns.mapM columnBytes
  return entryCount ++ entries.flatten ++ columnCount ++ columns.flatten ++
    Column.intBytes r.minTime ++ Column.intBytes r.maxTime

abbrev Reader := StateT (List UInt8) (Except RecordDefect)

def take (n : Nat) : Reader (List UInt8) := fun input =>
  if n ≤ input.length then .ok (input.take n, input.drop n) else .error .truncated

def readWord : Reader Int32 := do return (BigEndian.decode (← take 4)).toUInt32.toInt32

def readTime : Reader Int64 := do return Column.readInt (← take 8)

/-- A count of things of `unit` bytes or more each: more than the input can hold are refused
before any is read. -/
def readLength (unit : Nat) : Reader Nat := do
  let n ← readWord
  if n < 0 then throw (.negativeLength n.toInt)
  else if (← get).length < n.toInt.toNat * unit then throw .truncated
  else return n.toInt.toNat

def readBlock : Reader (List UInt8) := do take (← readLength 1)

def readMany (read : Reader α) : Nat → Reader (List α)
  | 0 => pure []
  | n + 1 => do
    let item ← read
    let rest ← readMany read n
    return item :: rest

def readEntry : Reader SchemaEntry := do
  let bytes ← readBlock
  match Utf8.decode bytes with
  | .error fault => throw (.nameNotUtf8 fault)
  | .ok name =>
    let id ← ZigZag.read
    match ColumnType.ofId? id with
    | none => throw (.unknownType id name)
    | some type => return ⟨name, type⟩

def bitmapBytes (rows bitmapOffset : Nat) : Nat := (rows + bitmapOffset + 7) / 8

def readColumn : Reader Column := do
  let values ← readBlock
  let offsets ← readMany readWord (← readLength 4)
  let bitmap ← readBlock
  let bitmapOffset ← readWord
  let rows ← readWord
  let nulls ← readWord
  if rows < 0 ∨ nulls < 0 ∨ rows < nulls ∨ bitmapOffset < 0 then
    throw (.columnHeader rows.toInt nulls.toInt bitmapOffset.toInt)
  else if bitmap.length < bitmapBytes rows.toInt.toNat bitmapOffset.toInt.toNat then
    throw (.shortBitmap bitmap.length rows.toInt.toNat)
  else return {
    values, offsets, bitmap
    bitmapOffset := bitmapOffset.toInt.toNat
    rows := rows.toInt.toNat
    nulls := nulls.toInt.toNat }

def read (measurement : String) : Reader Record := do
  let entryCount ← readLength 1
  let schema ← readMany readEntry entryCount
  let columnCount ← readLength 1
  if columnCount ≠ entryCount then throw (.columnCount columnCount entryCount)
  else
    let columns ← readMany readColumn columnCount
    let minTime ← readTime
    let maxTime ← readTime
    return { measurement, schema, columns, minTime, maxTime }

/-- Bytes after the record are refused. -/
def ofBytes (measurement : String) (bytes : List UInt8) : Except RecordDefect Record :=
  match (read measurement).run bytes with
  | .error defect => .error defect
  | .ok (record, []) => .ok record
  | .ok (_, rest) => .error (.trailing rest.length)

end SeriesIngest.Record
