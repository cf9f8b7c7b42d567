import SeriesIngest.Compression.Deflate.Huffman
/-! The symbols of a deflate stream: bytes, the end of a block, and the lengths and distances
of copies in ranges, whose places within a range follow as plain bits. -/
namespace SeriesIngest.Compression.Deflate

def endOfBlock : Nat := 256

def lengthRanges : List (Nat × Nat) :=
  [(3, 0), (4, 0), (5, 0), (6, 0), (7, 0), (8, 0), (9, 0), (10, 0), (11, 1), (13, 1), (15, 1),
    (17, 1), (19, 2), (23, 2), (27, 2), (31, 2), (35, 3), (43, 3), (51, 3), (59, 3), (67, 4),
    (83, 4), (99, 4), (115, 4), (131, 5), (163, 5), (195, 5), (227, 5), (258, 0)]

def distanceRanges : List (Nat × Nat) :=
  [(1, 0), (2, 0), (3, 0), (4, 0), (5, 1), (7, 1), (9, 2), (13, 2), (17, 3), (25, 3), (33, 4),
    (49, 4), (65, 5), (97, 5), (129, 6), (193, 6), (257, 7), (385, 7), (513, 8), (769, 8),
    (1025, 9), (1537, 9), (2049, 10), (3073, 10), (4097, 11), (6145, 11), (8193, 12), (12289, 12),
    (16385, 13), (24577, 13)]

def lengthOrder : List Nat := [16, 17, 18, 0, 8, 7, 9, 6, 10, 5, 11, 4, 12, 3, 13, 2, 14, 1, 15]

def fixedLengths : List Nat :=
  List.replicate 144 8 ++ List.replicate 112 9 ++ List.replicate 24 7 ++ List.replicate 8 8

/-- The last two words of the fixed code for distances stand for nothing. -/
def fixedDistances : List Nat := List.replicate 32 5

/-- The last range that starts at or before a value: its symbol, and the value's place in it. -/
def rangeOf (ranges : List (Nat × Nat)) (value : Nat) : Nat × Nat × Nat :=
  let index := ranges.countP (·.1 ≤ value) - 1
  let (least, extra) := ranges.getD index (0, 0)
  (index, extra, value - least)

end SeriesIngest.Compression.Deflate
