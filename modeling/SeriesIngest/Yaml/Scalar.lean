import SeriesIngest.Yaml.Cursor
/-! The text of scalars: plain, quoted, and in blocks. Each reader gives the text and the
place after it, or nothing when the scalar is malformed. -/
namespace SeriesIngest.Yaml

inductive Style where
  | plain | literal | other
deriving DecidableEq

/-- What a gap inside a scalar stands for: blanks alone stay, a single line feed becomes a
blank, and further line ends stay without the first. -/
def foldGap (gap : List Char) : List Char :=
  match gap.filter isBreak with
  | [] => gap
  | [first] => if first = '\n' then [' '] else [first]
  | first :: more => if first = '\n' then more else first :: more

def tabIntrudes (indent : Int) : Cursor → Bool → List Char → Bool
  | _, _, [] => false
  | c, continued, x :: rest =>
    x = '\t' && continued && c.column < indent ||
      tabIntrudes indent c.advance (continued || isBreak x) rest

def isFlowMark (c : Char) : Bool := c = ',' || c = '[' || c = ']' || c = '{' || c = '}'

/-- A plain scalar from the cursor on. `gap` is the gap just passed and `text` what came
before it, backwards; the last component says whether the scalar ended after a line end. -/
def readPlain (inFlow : Bool) (indent : Int) :
    Nat → Cursor → List Char → List Char → Option (String × Cursor × Bool)
  | 0, _, _, _ => none
  | fuel + 1, c, text, gap =>
    let done := some (String.ofList text.reverse, c, gap.any isBreak)
    match c.rest with
    | [] => done
    | x :: _ =>
      if c.atEdge ∨ (x = '#' ∧ gap ≠ []) then done
      else if isGap x then
        let (gap, after) := c.span isGap
        if tabIntrudes indent c false gap then none
        else if !inFlow ∧ after.column < indent then
          some (String.ofList text.reverse, after, gap.any isBreak)
        else readPlain inFlow indent fuel after text gap
      else if inFlow ∧ x = ':' ∧ (c.look 1).any (fun y => isFlowMark y || y = '?') then none
      else if (x = ':' ∧ endsWord (c.look 1)) ∨ (inFlow ∧ isFlowMark x) then done
      else readPlain inFlow indent fuel c.advance (x :: ((foldGap gap).reverse ++ text)) []

def Cursor.plain (c : Cursor) (inFlow : Bool) (indent : Int) : Option (String × Cursor × Bool) :=
  readPlain inFlow indent (c.rest.length + 1) c [] []

def readSingle : Nat → Cursor → List Char → Option (String × Cursor)
  | 0, _, _ => none
  | fuel + 1, c, text =>
    if c.atEdge then none else
    match c.rest with
    | [] => none
    | '\'' :: '\'' :: _ => readSingle fuel (c.skip 2) ('\'' :: text)
    | '\'' :: _ => some (String.ofList text.reverse, c.advance)
    | x :: _ =>
      if isGap x then
        let (gap, after) := c.span isGap
        readSingle fuel after ((foldGap gap).reverse ++ text)
      else readSingle fuel c.advance (x :: text)

def hexDigit? (c : Char) : Option Nat :=
  if c.isDigit then some (c.toNat - 48)
  else if 'a' ≤ c ∧ c ≤ 'f' then some (c.toNat - 87)
  else if 'A' ≤ c ∧ c ≤ 'F' then some (c.toNat - 55)
  else none

def hexNumber? (digits : List Char) : Option Nat :=
  digits.foldlM (fun n c => (hexDigit? c).map (16 * n + ·)) 0

def codePoint? (n : Nat) : Option Char :=
  if h : n.isValidChar then some (Char.ofNatAux n h) else none

inductive Escape where
  | char (c : Char)
  | code (digits : Nat)

def escape? : Char → Option Escape
  | '0' => some (.char '\x00')
  | 'a' => some (.char '\x07')
  | 'b' => some (.char '\x08')
  | 't' => some (.char '\t')
  | '\t' => some (.char '\t')
  | 'n' => some (.char '\n')
  | 'v' => some (.char '\x0b')
  | 'f' => some (.char '\x0c')
  | 'r' => some (.char '\r')
  | 'e' => some (.char '\x1b')
  | ' ' => some (.char ' ')
  | '"' => some (.char '"')
  | '/' => some (.char '/')
  | '\\' => some (.char '\\')
  | 'N' => some (.char '\u0085')
  | '_' => some (.char '\u00a0')
  | 'L' => some (.char '\u2028')
  | 'P' => some (.char '\u2029')
  | 'x' => some (.code 2)
  | 'u' => some (.code 4)
  | 'U' => some (.code 8)
  | _ => none

/-- A double-quoted scalar after its opening quote. An escaped line end joins the lines, and
of the gap after it only further line ends stay. -/
def readDouble : Nat → Cursor → List Char → Option (String × Cursor)
  | 0, _, _ => none
  | fuel + 1, c, text =>
    if c.atEdge then none else
    match c.rest with
    | [] => none
    | '"' :: _ => some (String.ofList text.reverse, c.advance)
    | '\\' :: x :: _ =>
      if isBreak x then
        let (gap, after) := (c.skip 2).span isGap
        readDouble fuel after ((gap.filter isBreak).reverse ++ text)
      else match escape? x with
        | none => none
        | some (.char y) => readDouble fuel (c.skip 2) (y :: text)
        | some (.code n) =>
          let digits := (c.skip 2).rest.take n
          if digits.length < n then none else
          match (hexNumber? digits).bind codePoint? with
          | none => none
          | some y => readDouble fuel (c.skip (2 + n)) (y :: text)
    | x :: _ =>
      if isGap x then
        let (gap, after) := c.span isGap
        readDouble fuel after ((foldGap gap).reverse ++ text)
      else readDouble fuel c.advance (x :: text)

def Cursor.single (c : Cursor) : Option (String × Cursor) :=
  readSingle (c.rest.length + 1) c.advance []

def Cursor.double (c : Cursor) : Option (String × Cursor) :=
  readDouble (c.rest.length + 1) c.advance []

/-- What happens to the line ends at the end of a block: all go, one stays, all stay. -/
inductive Chomp where
  | strip | clip | keep
deriving DecidableEq

def chomp? : Option Char → Option Chomp
  | some '-' => some .strip
  | some '+' => some .keep
  | _ => none

def indicator? (c : Option Char) : Option Nat :=
  match c with
  | some d => if d.isDigit then some (d.toNat - 48) else none
  | none => none

def blockHeader (c : Cursor) : Option (Chomp × Nat × Cursor) :=
  let checked (chomp : Chomp) (digit : Option Nat) (after : Cursor) :=
    match digit with
    | none => some (chomp, 0, after)
    | some 0 => none
    | some n => some (chomp, n, after)
  match chomp? c.head?, indicator? c.head? with
  | some chomp, _ =>
    match indicator? (c.look 1) with
    | none => some (chomp, 0, c.advance)
    | some n => checked chomp (some n) (c.skip 2)
  | none, some n =>
    match chomp? (c.look 1) with
    | none => checked .clip (some n) c.advance
    | some chomp => checked chomp (some n) (c.skip 2)
  | none, none => some (.clip, 0, c)

/-- Skips indentation and empty lines, and collects their line ends. With no indentation
known yet (zero), all leading blanks count and the greatest column seen is reported. -/
def blockGap (indent : Nat) : Nat → Cursor → Nat → List Char → Option (List Char × Nat × Cursor)
  | 0, _, _, _ => none
  | fuel + 1, c, widest, breaks =>
    let blanks := (c.rest.takeWhile (· = ' ')).length
    let c := c.skip (if indent = 0 then blanks else min blanks (indent - c.column))
    let widest := max widest c.column
    match c.head? with
    | some x =>
      if x = '\t' ∧ (indent = 0 ∨ c.column < indent) then none
      else if isBreak x then blockGap indent fuel c.advance widest (breaks ++ [x])
      else some (breaks, widest, c)
    | none => some (breaks, widest, c)

/-- The lines of a block at its indentation. `lead` is the line end of the line before,
`breaks` those of the empty lines after it, and `wasBlank` says whether that line started
with a blank; such lines are never folded. -/
def blockLines (folded : Bool) (indent : Nat) :
    Nat → Cursor → List Char → List Char → List Char → Bool →
    Option (List Char × List Char × List Char × Cursor)
  | 0, _, _, _, _, _ => none
  | fuel + 1, c, text, lead, breaks, wasBlank =>
    if c.column ≠ indent ∨ c.rest = [] then some (text, lead, breaks, c) else
      let startsBlank := c.head?.any isBlank
      let joint :=
        if folded ∧ lead = ['\n'] ∧ !wasBlank ∧ !startsBlank then
          (if breaks = [] then [' '] else breaks)
        else lead ++ breaks
      let (line, after) := c.span (!isBreak ·)
      let lead := after.rest.take 1
      match blockGap indent fuel after.advance 0 [] with
      | none => none
      | some (breaks, _, next) =>
        blockLines folded indent fuel next (text ++ joint ++ line) lead breaks startsBlank

def Cursor.block (c : Cursor) (folded : Bool) (parent : Int) : Option (String × Cursor) := do
  let fuel := c.rest.length + 1
  let (chomp, digit, c) ← blockHeader c.advance
  let c := c.skipWhile isBlank
  let c := if c.head? = some '#' then c.skipWhile (!isBreak ·) else c
  if !(c.head?.all isBreak) then none
  let c := c.advance
  let known : Nat := if digit = 0 then 0 else (max parent 0).toNat + digit
  let (breaks, widest, c) ← blockGap known fuel c 0 []
  let indent := if known = 0 then max widest (max (parent + 1) 1).toNat else known
  let (text, lead, breaks, c) ← blockLines folded indent fuel c [] [] breaks false
  let tail := match chomp with
    | .strip => []
    | .clip => lead
    | .keep => lead ++ breaks
  return (String.ofList (text ++ tail), c)

end SeriesIngest.Yaml
