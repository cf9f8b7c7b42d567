import SeriesIngest.Compression.Deflate.Encode
import SeriesIngest.Compression.Deflate.Inflate
/-! A gzip member: a header, a deflate stream, and the check sum and length of the data. -/
namespace SeriesIngest.Compression.Gzip

/-! The cyclic redundancy check of 32 bits, over the reflected polynomial. -/

def crcBit (crc : UInt32) : UInt32 :=
  if crc &&& 1 = 1 then (crc >>> 1) ^^^ 0xedb88320 else crc >>> 1

def crcByte (crc : UInt32) (b : UInt8) : UInt32 :=
  (List.range 8).foldl (fun crc _ => crcBit crc) (crc ^^^ b.toUInt32)

def crc32 (bytes : List UInt8) : UInt32 := bytes.foldl crcByte 0xffffffff ^^^ 0xffffffff

def littleEndian : Nat → Nat → List UInt8
  | 0, _ => []
  | width + 1, n => (n % 256).toUInt8 :: littleEndian width (n / 256)

def ofLittleEndian (bytes : List UInt8) : Nat := bytes.foldr (fun b n => b.toNat + 256 * n) 0

def header (level : Nat) : List UInt8 :=
  let effort : UInt8 := if 9 ≤ level then 2 else if level ≤ 1 then 4 else 0
  [0x1f, 0x8b, 8, 0, 0, 0, 0, 0, effort, 255]

def trailer (data : List UInt8) : List UInt8 :=
  littleEndian 4 (crc32 data).toNat ++ littleEndian 4 (data.length % UInt32.size)

def encode (level : Nat) (data : List UInt8) : List UInt8 :=
  header level ++ Deflate.deflate level data ++ trailer data

def afterZero? : List UInt8 → Option (List UInt8)
  | [] => none
  | b :: rest => if b = 0 then some rest else afterZero? rest

def afterBytes? (n : Nat) (bytes : List UInt8) : Option (List UInt8) :=
  if n ≤ bytes.length then some (bytes.drop n) else none

/-- What follows the header, whose optional fields are announced by a flag byte: extra data,
a name, a comment, and a check of the header itself. -/
def afterHeader? (bytes : List UInt8) : Option (List UInt8) :=
  match bytes with
  | 0x1f :: 0x8b :: 8 :: flags :: rest => do
    let has (flag : UInt8) : Bool := flags &&& flag != 0
    if has 0xe0 then none
    let rest ← afterBytes? 6 rest
    let rest ← if has 4 then do
        let body ← afterBytes? 2 rest
        afterBytes? (ofLittleEndian (rest.take 2)) body
      else some rest
    let rest ← if has 8 then afterZero? rest else some rest
    let rest ← if has 16 then afterZero? rest else some rest
    if has 2 then
      let body ← afterBytes? 2 rest
      let header := bytes.take (bytes.length - rest.length)
      if ofLittleEndian (rest.take 2) = (crc32 header).toNat % UInt16.size then some body else none
    else some rest
  | _ => none

def decode? (bytes : List UInt8) : Option (List UInt8) := do
  let body ← afterHeader? bytes
  let (data, rest) ← Deflate.inflate? body
  if (trailer data).isPrefixOf rest then some data else none

end SeriesIngest.Compression.Gzip
