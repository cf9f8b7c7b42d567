/-! A place in YAML text, with its line and column. Line feeds stand for all line ends but
the Unicode separators, so that a character is a step and a line end is one character. -/
namespace SeriesIngest.Yaml

def isBlank (c : Char) : Bool := c = ' ' || c = '\t'

def isBreak (c : Char) : Bool := c = '\n' || c = '\u2028' || c = '\u2029'

def isGap (c : Char) : Bool := isBlank c || isBreak c

def endsWord : Option Char → Bool
  | none => true
  | some c => isGap c

def isNameChar (c : Char) : Bool := c.isAlphanum || c = '-' || c = '_'

/-- Control characters may not stand in YAML text, nor may the last two code points of the
basic plane. -/
def isAllowed (c : Char) : Bool :=
  let n := c.toNat
  n = 0x9 || n = 0xa || n = 0xd || 0x20 ≤ n && n ≤ 0x7e || n = 0x85 || 0xa0 ≤ n && n ≤ 0xfffd ||
    0x10000 ≤ n

def unifyBreaks : List Char → List Char
  | '\r' :: '\n' :: rest => '\n' :: unifyBreaks rest
  | '\r' :: rest => '\n' :: unifyBreaks rest
  | '\u0085' :: rest => '\n' :: unifyBreaks rest
  | c :: rest => c :: unifyBreaks rest
  | [] => []

structure Cursor where
  rest : List Char
  line : Nat := 0
  column : Nat := 0
  /-- Bytes passed, with one for each unified line end. -/
  index : Nat := 0

namespace Cursor

def look (c : Cursor) (n : Nat) : Option Char := c.rest[n]?

def head? (c : Cursor) : Option Char := c.rest.head?

def advance (c : Cursor) : Cursor :=
  match c.rest with
  | [] => c
  | x :: rest =>
    let index := c.index + x.utf8Size
    if isBreak x then { rest, line := c.line + 1, column := 0, index }
    else { c with rest, column := c.column + 1, index }

def skip (c : Cursor) : Nat → Cursor
  | 0 => c
  | n + 1 => c.advance.skip n

def span (c : Cursor) (class_ : Char → Bool) : List Char × Cursor :=
  let run := c.rest.takeWhile class_
  (run, c.skip run.length)

def skipWhile (c : Cursor) (class_ : Char → Bool) : Cursor := (c.span class_).2

def atMark (c : Cursor) (mark : Char) : Bool :=
  c.column = 0 && c.rest.take 3 == [mark, mark, mark] && endsWord (c.look 3)

def atEdge (c : Cursor) : Bool := c.atMark '-' || c.atMark '.'

end Cursor
end SeriesIngest.Yaml
