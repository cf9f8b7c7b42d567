import SeriesIngest.Compression.Factor
import SeriesIngest.Compression.Gzip
/-! An LZ4 block after its size in four bytes. A sequence is a token with two short lengths,
literal bytes, and a copy by distance; the last sequence has no copy. -/
namespace SeriesIngest.Compression.Lz4

/-- The last five bytes are literals, and no copy starts among the last twelve. -/
def limits : CopyLimits :=
  { least := 4, most := 65535, reach := 65535, lastStart := 12, lastBytes := 5 }

def longLength : Nat → Nat → List UInt8
  | 0, _ => []
  | fuel + 1, n => if n < 255 then [n.toUInt8] else 255 :: longLength fuel (n - 255)

def lengthTail (n : Nat) : List UInt8 := if n < 15 then [] else longLength (n + 1) (n - 15)

def token (literals copied : Nat) : UInt8 := (16 * min literals 15 + min copied 15).toUInt8

def sequence (literals : List UInt8) (length distance : Nat) : List UInt8 :=
  token literals.length (length - 4) :: (lengthTail literals.length ++ literals ++
    [(distance % 256).toUInt8, (distance / 256).toUInt8] ++ lengthTail (length - 4))

def lastSequence (literals : List UInt8) : List UInt8 :=
  token literals.length 0 :: (lengthTail literals.length ++ literals)

def blockOf : List UInt8 → List Piece → List UInt8
  | literals, [] => lastSequence literals
  | literals, .literals bytes :: rest => blockOf (literals ++ bytes) rest
  | literals, .copy length distance :: rest => sequence literals length distance ++ blockOf [] rest

def encode (data : List UInt8) : List UInt8 :=
  Gzip.littleEndian 4 data.length ++ blockOf [] (factor limits data)

def readLength : Nat → List UInt8 → Option (Nat × List UInt8)
  | _, [] => none
  | n, b :: rest => if b = 255 then readLength (n + 255) rest else some (n + b.toNat, rest)

def tokenLength (short : Nat) (input : List UInt8) : Option (Nat × List UInt8) :=
  if short = 15 then readLength 15 input else some (short, input)

def copy? (output : Array UInt8) (distance length : Nat) : Option (Array UInt8) :=
  if distance = 0 ∨ output.size < distance then none else some (copyBack output distance length)

/-- Sequences up to the end of the input, which must come after the literals of one. The
output may not outgrow its announced size. -/
def sequences? (size : Nat) : Nat → List UInt8 → Array UInt8 → Option (Array UInt8)
  | 0, _, _ => none
  | _, [], _ => none
  | fuel + 1, t :: input, output =>
    match tokenLength (t.toNat / 16) input with
    | none => none
    | some (literals, input) =>
      if input.length < literals ∨ size < output.size + literals then none else
      let output := output ++ (input.take literals).toArray
      match input.drop literals with
      | [] => some output
      | [_] => none
      | low :: high :: input =>
        match tokenLength (t.toNat % 16) input with
        | none => none
        | some (length, input) =>
          if size < output.size + (length + 4) then none else
          match copy? output (low.toNat + 256 * high.toNat) (length + 4) with
          | none => none
          | some output => sequences? size fuel input output

def decode? (bytes : List UInt8) : Option (List UInt8) :=
  if bytes.length < 4 then none
  else
    (sequences? (Gzip.ofLittleEndian (bytes.take 4)) (bytes.length + 1) (bytes.drop 4) #[]).map
      (·.toList)

end SeriesIngest.Compression.Lz4
