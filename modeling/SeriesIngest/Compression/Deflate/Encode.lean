import SeriesIngest.Compression.Deflate.Alphabet
import SeriesIngest.Compression.Factor
/-! Writing a deflate stream: stored blocks, or one block under the fixed code. -/
namespace SeriesIngest.Compression.Deflate

def limits : CopyLimits := { least := 3, most := 258, reach := 32768, lastStart := 0, lastBytes := 0 }

/-- Numbers go out lowest bit first, code words as they are. -/
def numberBits (width n : Nat) : List Bool := (Huffman.bitsOf width n).reverse

def pushBits (output : Array Bool) (bits : List Bool) : Array Bool := bits.foldl Array.push output

def pushPiece (codes distances : Array (List Bool)) (output : Array Bool) : Piece → Array Bool
  | .literals bytes =>
    bytes.foldl (fun output b => pushBits output (codes.getD b.toNat [])) output
  | .copy length distance =>
    let (symbol, extra, place) := rangeOf lengthRanges length
    let output := pushBits (pushBits output (codes.getD (257 + symbol) [])) (numberBits extra place)
    let (symbol, extra, place) := rangeOf distanceRanges distance
    pushBits (pushBits output (distances.getD symbol [])) (numberBits extra place)

def packBits : Nat → List Bool → List UInt8
  | 0, _ => []
  | fuel + 1, bits =>
    if bits.isEmpty then [] else
      ((bits.take 8).foldr (fun (b : Bool) n => 2 * n + b.toNat) 0).toUInt8 :: packBits fuel (bits.drop 8)

def coded (data : List UInt8) : List UInt8 :=
  let codes := (Huffman.words fixedLengths).toArray
  let distances := (Huffman.words fixedDistances).toArray
  let start := pushBits #[] (true :: numberBits 2 1)
  let body := (factor limits data).foldl (pushPiece codes distances) start
  let bits := pushBits body (codes.getD endOfBlock [])
  packBits bits.size bits.toList

def stored : Nat → List UInt8 → List UInt8
  | 0, _ => []
  | fuel + 1, data =>
    let block := data.take 65535
    let rest := data.drop 65535
    let word (n : Nat) : List UInt8 := [(n % 256).toUInt8, (n / 256).toUInt8]
    (if rest.isEmpty then 1 else 0) :: (word block.length ++ word (65535 - block.length) ++ block) ++
      if rest.isEmpty then [] else stored fuel rest

def deflate (level : Nat) (data : List UInt8) : List UInt8 :=
  if level = 0 then stored (data.length + 1) data else coded data

end SeriesIngest.Compression.Deflate
