import Std.Data.HashMap
/-! Data as runs of literal bytes and copies of what came before, which both compressed
formats are written in. -/
namespace SeriesIngest.Compression

inductive Piece where
  | literals (bytes : List UInt8)
  | copy (length distance : Nat)
deriving DecidableEq

def byteBack (output : Array UInt8) (distance : Nat) : UInt8 :=
  if distance ≤ output.size then output.getD (output.size - distance) 0 else 0

/-- Appends bytes from `distance` back, one by one, so that a copy may overlap itself. -/
def copyBack (output : Array UInt8) (distance : Nat) : Nat → Array UInt8
  | 0 => output
  | n + 1 => copyBack (output.push (byteBack output distance)) distance n

structure CopyLimits where
  least : Nat
  most : Nat
  reach : Nat
  /-- No copy starts among so many last bytes. -/
  lastStart : Nat
  /-- No copy touches so many last bytes. -/
  lastBytes : Nat

def agreement (data : Array UInt8) : Nat → Nat → Nat → Nat → Nat
  | _, _, count, 0 => count
  | i, j, count, limit + 1 =>
    if i < data.size ∧ data[i]? = data[j]? then agreement data (i + 1) (j + 1) (count + 1) limit
    else count

def window? (data : Array UInt8) (place width : Nat) : Option Nat :=
  if place + width ≤ data.size then
    some ((data.extract place (place + width)).foldl (fun n b => 256 * n + b.toNat) 0)
  else none

def literalRun (data : Array UInt8) (start stop : Nat) : List Piece :=
  if start < stop then [.literals (data.extract start stop).toList] else []

/-- Takes the latest place where the next bytes stood before, if it is near enough. -/
def factorFrom (limits : CopyLimits) (data : Array UInt8) :
    Nat → Nat → Nat → Std.HashMap Nat Nat → List Piece → List Piece
  | 0, _, start, _, pieces => (literalRun data start data.size ++ pieces).reverse
  | fuel + 1, place, start, seen, pieces =>
    if data.size ≤ place + limits.lastStart then
      (literalRun data start data.size ++ pieces).reverse
    else match window? data place limits.least with
    | none => (literalRun data start data.size ++ pieces).reverse
    | some key =>
      let length := match seen[key]? with
        | some before =>
          if place - before ≤ limits.reach then
            agreement data place before 0 (min limits.most (data.size - limits.lastBytes - place))
          else 0
        | none => 0
      let distance := place - seen.getD key place
      let seen := seen.insert key place
      if limits.least ≤ length then
        factorFrom limits data fuel (place + length) (place + length) seen
          (.copy length distance :: (literalRun data start place ++ pieces))
      else factorFrom limits data fuel (place + 1) start seen pieces

def factor (limits : CopyLimits) (data : List UInt8) : List Piece :=
  factorFrom limits data.toArray data.length 0 0 {} []

end SeriesIngest.Compression
