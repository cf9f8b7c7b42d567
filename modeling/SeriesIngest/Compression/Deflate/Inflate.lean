import SeriesIngest.Compression.Deflate.Alphabet
import SeriesIngest.Compression.Factor
/-! Reading a deflate stream: blocks of stored bytes, or of symbols under a fixed code or one
that the block brings along. Bits are taken from each byte lowest first. -/
namespace SeriesIngest.Compression.Deflate

open Huffman (Tree)

structure BitInput where
  bits : List Bool
  bytes : List UInt8

namespace BitInput

def byteBits (b : UInt8) : List Bool := (Huffman.bitsOf 8 b.toNat).reverse

def bit? (i : BitInput) : Option (Bool × BitInput) :=
  match i.bits, i.bytes with
  | b :: bits, bytes => some (b, ⟨bits, bytes⟩)
  | [], byte :: bytes =>
    match byteBits byte with
    | b :: bits => some (b, ⟨bits, bytes⟩)
    | [] => none
  | [], [] => none

def number? (i : BitInput) : Nat → Option (Nat × BitInput)
  | 0 => some (0, i)
  | width + 1 =>
    match i.bit? with
    | none => none
    | some (b, i) =>
      match i.number? width with
      | none => none
      | some (n, i) => some (2 * n + b.toNat, i)

def symbol? (i : BitInput) : Tree → Option (Nat × BitInput)
  | .empty => none
  | .leaf symbol => some (symbol, i)
  | .node zero one =>
    match i.bit? with
    | none => none
    | some (true, i) => i.symbol? one
    | some (false, i) => i.symbol? zero

end BitInput

def rangeValue? (ranges : List (Nat × Nat)) (index : Nat) (i : BitInput) :
    Option (Nat × BitInput) :=
  match ranges[index]? with
  | none => none
  | some (least, extra) => (i.number? extra).map fun (n, i) => (least + n, i)

/-- Symbols up to the end of the block; the fuel bounds their number. A copy may reach back
beyond the start, into a window that is still empty. -/
def symbols? (codes distances : Tree) :
    Nat → BitInput → Array UInt8 → Option (BitInput × Array UInt8)
  | 0, _, _ => none
  | fuel + 1, i, output =>
    match i.symbol? codes with
    | none => none
    | some (symbol, i) =>
      if symbol < endOfBlock then symbols? codes distances fuel i (output.push symbol.toUInt8)
      else if symbol = endOfBlock then some (i, output)
      else
        match rangeValue? lengthRanges (symbol - 257) i with
        | none => none
        | some (length, i) =>
          match i.symbol? distances with
          | none => none
          | some (symbol, i) =>
            match rangeValue? distanceRanges symbol i with
            | none => none
            | some (distance, i) =>
              symbols? codes distances fuel i (copyBack output distance length)

def stored? (i : BitInput) (output : Array UInt8) : Option (BitInput × Array UInt8) :=
  match i.bytes with
  | a :: b :: c :: d :: bytes =>
    let length := a.toNat + 256 * b.toNat
    if length + (c.toNat + 256 * d.toNat) = 65535 ∧ length ≤ bytes.length then
      some (⟨[], bytes.drop length⟩, output ++ (bytes.take length).toArray)
    else none
  | _ => none

def numbers? (i : BitInput) (width : Nat) : Nat → Option (List Nat × BitInput)
  | 0 => some ([], i)
  | count + 1 =>
    match i.number? width with
    | none => none
    | some (n, i) => (numbers? i width count).map fun (ns, i) => (n :: ns, i)

/-- Code lengths, themselves coded: sixteen repeats the last one, seventeen and eighteen
repeat zero. -/
def lengths? (code : Tree) (count : Nat) :
    Nat → BitInput → List Nat → Option (List Nat × BitInput)
  | 0, _, _ => none
  | fuel + 1, i, lengths =>
    if count ≤ lengths.length then
      if lengths.length = count then some (lengths.reverse, i) else none
    else
      match i.symbol? code with
      | none => none
      | some (symbol, i) =>
        if symbol < 16 then lengths? code count fuel i (symbol :: lengths)
        else
          let (extra, least) := if symbol = 16 then (2, 3) else if symbol = 17 then (3, 3) else (7, 11)
          match i.number? extra, (if symbol = 16 then lengths.head? else some 0) with
          | some (n, i), some repeated =>
            lengths? code count fuel i (List.replicate (least + n) repeated ++ lengths)
          | _, _ => none

def codes? (i : BitInput) : Option (Tree × Tree × BitInput) := do
  let (literals, i) ← i.number? 5
  let (distances, i) ← i.number? 5
  let (sent, i) ← i.number? 4
  if 286 < literals + 257 ∨ 30 < distances + 1 then none
  let (ordered, i) ← numbers? i 3 (sent + 4)
  let code ← Huffman.tree? ((List.range 19).map fun symbol =>
    ordered.getD (lengthOrder.idxOf symbol) 0)
  let count := literals + 257 + (distances + 1)
  let (lengths, i) ← lengths? code count (count + 1) i []
  let codes ← Huffman.tree? (lengths.take (literals + 257))
  let distances ← Huffman.tree? (lengths.drop (literals + 257))
  return (codes, distances, i)

def blocks? : Nat → BitInput → Array UInt8 → Option (BitInput × Array UInt8)
  | 0, _, _ => none
  | fuel + 1, i, output => do
    let (last, i) ← i.bit?
    let (kind, i) ← i.number? 2
    let (i, output) ← match kind with
      | 0 => stored? i output
      | 1 => do
        let codes ← Huffman.tree? fixedLengths
        let distances ← Huffman.tree? fixedDistances
        symbols? codes distances (8 * i.bytes.length + 8) i output
      | 2 => do
        let (codes, distances, i) ← codes? i
        symbols? codes distances (8 * i.bytes.length + 8) i output
      | _ => none
    if last then some (i, output) else blocks? fuel i output

/-- The data of a stream, and the bytes after the one in which it ends. -/
def inflate? (bytes : List UInt8) : Option (List UInt8 × List UInt8) :=
  (blocks? (8 * bytes.length) ⟨[], bytes⟩ #[]).map fun (i, output) => (output.toList, i.bytes)

end SeriesIngest.Compression.Deflate
