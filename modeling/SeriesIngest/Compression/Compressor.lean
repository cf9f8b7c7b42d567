import SeriesIngest.Binary64
import SeriesIngest.Protocol
/-! A compressor of request bodies, with counters of what went through it. The formats themselves
are not its work: it is given what packs data and what unpacks them. -/
namespace SeriesIngest

structure Codecs where
  /-- At a level from zero to nine. -/
  gzip : Nat → List UInt8 → List UInt8
  gunzip? : List UInt8 → Option (List UInt8)
  lz4 : List UInt8 → List UInt8
  unlz4? : List UInt8 → Option (List UInt8)

structure Compressor where
  codecs : Codecs
  algorithm : Algorithm
  level : Nat := 6
  count : Nat := 0
  bytesIn : Nat := 0
  bytesOut : Nat := 0

namespace Compressor

def withLevel (codecs : Codecs) (algorithm : Algorithm) (level : Nat) : Compressor :=
  { codecs, algorithm, level := min level 9 }

def encode (c : Compressor) (data : List UInt8) : List UInt8 :=
  match c.algorithm with
  | .none => data
  | .gzip => c.codecs.gzip c.level data
  | .lz4 => c.codecs.lz4 data

def compress (c : Compressor) (data : List UInt8) : List UInt8 × Compressor :=
  let block := c.encode data
  if c.algorithm = .none then (block, c)
  else (block, { c with
    count := c.count + 1
    bytesIn := c.bytesIn + data.length
    bytesOut := c.bytesOut + block.length })

def decompress? (c : Compressor) (block : List UInt8) : Option (List UInt8) :=
  match c.algorithm with
  | .none => some block
  | .gzip => c.codecs.gunzip? block
  | .lz4 => c.codecs.unlz4? block

def ratio (bytesIn bytesOut : Nat) : Binary64 :=
  if bytesIn = 0 then .one else .ratio bytesOut bytesIn

end Compressor
end SeriesIngest
