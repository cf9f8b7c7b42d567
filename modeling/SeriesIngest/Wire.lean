import SeriesIngest.Fault
/-! Numbers on the wire: naturals as a fixed number of bytes, most significant first, and signed
words as varints. -/
namespace SeriesIngest.BigEndian

def encode : Nat → Nat → List UInt8
  | 0, _ => []
  | width + 1, n => encode width (n / 256) ++ [n.toUInt8]

def decode (bytes : List UInt8) : Nat := bytes.foldl (fun n b => 256 * n + b.toNat) 0

end SeriesIngest.BigEndian

/-! The sign goes to the lowest bit, so that small magnitudes are short, and the rest follows in
groups of seven bits, lowest first, each byte but the last with its high bit set. -/
namespace SeriesIngest.ZigZag

def fold (v : Int64) : Nat :=
  if v < 0 then 2 * v.toInt.natAbs - 1 else 2 * v.toInt.natAbs

def unfold (n : Nat) : Int64 :=
  if n % 2 = 0 then Int64.ofInt (n / 2 : Nat) else Int64.ofInt (-(n / 2 : Nat) - 1)

def groups (n : Nat) : List UInt8 :=
  if n < 128 then [n.toUInt8] else (n % 128 + 128).toUInt8 :: groups (n / 128)
termination_by n
decreasing_by omega

def encode (v : Int64) : List UInt8 := groups (fold v)

/-- The groups at the head of the input, at most `limit` of them, and what follows. -/
def readGroups : Nat → List UInt8 → Except RecordDefect (Nat × List UInt8)
  | 0, _ => .error .longVarint
  | _ + 1, [] => .error .truncated
  | limit + 1, b :: rest =>
    if b < 128 then .ok (b.toNat, rest)
    else match readGroups limit rest with
      | .ok (n, rest) => .ok (b.toNat - 128 + 128 * n, rest)
      | .error defect => .error defect

/-- Ten groups hold 70 bits: what exceeds a word is dropped. -/
def read (bytes : List UInt8) : Except RecordDefect (Int64 × List UInt8) :=
  (readGroups 10 bytes).map fun (n, rest) => (unfold (n % UInt64.size), rest)

end SeriesIngest.ZigZag
