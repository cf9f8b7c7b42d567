/-! Canonical codes: among codes of one length the symbols stand in order, and a longer code
comes after every shorter one. A code is given by the length of each symbol's code word, zero
for a symbol that is not used. -/
namespace SeriesIngest.Compression.Huffman

def bitsOf : Nat → Nat → List Bool
  | 0, _ => []
  | width + 1, n => ((n >>> width) % 2 == 1) :: bitsOf width n

def firstCode (lengths : List Nat) : Nat → Nat
  | 0 => 0
  | length + 1 =>
    2 * (firstCode lengths length + if length = 0 then 0 else lengths.count length)

/-- The code words of all symbols in order, counting up from the next word of each length. -/
def wordsFrom (next : Array Nat) : List Nat → List (List Bool)
  | [] => []
  | length :: rest =>
    if length = 0 then [] :: wordsFrom next rest
    else
      bitsOf length (next.getD length 0) :: wordsFrom (next.modify length (· + 1)) rest

def words (lengths : List Nat) : List (List Bool) :=
  wordsFrom ((List.range 16).map (firstCode lengths)).toArray lengths

inductive Tree where
  | empty
  | leaf (symbol : Nat)
  | node (zero one : Tree)

namespace Tree

def insert (symbol : Nat) : List Bool → Tree → Tree
  | [], _ => leaf symbol
  | false :: word, node zero one => node (insert symbol word zero) one
  | true :: word, node zero one => node zero (insert symbol word one)
  | false :: word, _ => node (insert symbol word empty) empty
  | true :: word, _ => node empty (insert symbol word empty)

end Tree

/-- A code must leave no bit string without a meaning, unless it has no symbol at all, or a
single one whose word is one bit. -/
def isUsable (lengths : List Nat) : Bool :=
  let used := lengths.filter (· ≠ 0)
  let share (length : Nat) : Nat := 1 <<< (15 - length)
  used == [] || used == [1] || used.foldl (fun n length => n + share length) 0 == share 0

def tree? (lengths : List Nat) : Option Tree :=
  if isUsable lengths then
    some ((words lengths).zipIdx.foldl
      (fun tree (word, symbol) => if word = [] then tree else tree.insert symbol word) .empty)
  else none

end SeriesIngest.Compression.Huffman
