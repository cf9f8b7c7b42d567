import SeriesIngest.Yaml.Scalar
/-! The tokens of YAML text. Block collections are opened and closed by indentation. A text
that may turn out to be a key is remembered until a colon or a line end decides; the tokens
that make it a key are then put in front of it. -/
namespace SeriesIngest.Yaml

inductive Token where
  | streamEnd
  | version (major minor : String)
  | tagAlias (handle : String) (start : List UInt8)
  | documentStart | documentEnd
  | blockSequence | blockMapping | blockEnd
  | flowSequence | flowSequenceEnd | flowMapping | flowMappingEnd
  | entry | flowEntry | key | value
  | alias (name : String)
  | anchor (name : String)
  | tag (handle : String) (suffix : List UInt8)
  | scalar (text : String) (style : Style)
deriving DecidableEq

/-- A place that a colon later on the same line would make a key. -/
structure PossibleKey where
  required : Bool
  token : Nat
  line : Nat
  column : Nat
  index : Nat

structure Scanner where
  cursor : Cursor
  tokens : Array Token := #[]
  /-- How many flow collections are open. -/
  flow : Nat := 0
  /-- The column of the innermost block collection; none is open at minus one. -/
  indent : Int := -1
  outer : List Int := []
  keyAllowed : Bool := true
  /-- The possible key of each open flow collection and of the block around them. -/
  keys : List (Option PossibleKey) := [none]

namespace Scanner

def push (s : Scanner) (t : Token) : Scanner := { s with tokens := s.tokens.push t }

def moved (s : Scanner) (cursor : Cursor) : Scanner := { s with cursor }

/-- Passes blanks, comments and line ends. A tab counts as a blank only where no key can
start, or in a flow collection. -/
def passGaps (inFlow : Bool) : Nat → Cursor → Bool → Cursor × Bool
  | 0, c, keyAllowed => (c, keyAllowed)
  | fuel + 1, c, keyAllowed =>
    let c := if c.column = 0 ∧ c.head? = some '\ufeff' then c.advance else c
    let c := c.skipWhile fun x => x = ' ' || (inFlow || !keyAllowed) && x = '\t'
    let c := if c.head? = some '#' then c.skipWhile (!isBreak ·) else c
    if c.head?.any isBreak then passGaps inFlow fuel c.advance (!inFlow || keyAllowed)
    else (c, keyAllowed)

def toNext (s : Scanner) : Scanner :=
  let (cursor, keyAllowed) :=
    passGaps (s.flow ≠ 0) (s.cursor.rest.length + 1) s.cursor s.keyAllowed
  { s with cursor, keyAllowed }

def isStale (c : Cursor) (k : PossibleKey) : Bool :=
  k.line < c.line || k.index + 1024 < c.index

def dropStale (s : Scanner) : Option Scanner :=
  if s.keys.any (·.any fun k => isStale s.cursor k && k.required) then none
  else some { s with keys := s.keys.map (·.filter (!isStale s.cursor ·)) }

def possibleKey? (s : Scanner) : Option PossibleKey := s.keys.head?.join

def setKey (s : Scanner) (k : Option PossibleKey) : Scanner :=
  { s with keys := k :: s.keys.tail }

def dropKey (s : Scanner) : Option Scanner :=
  if s.possibleKey?.any (·.required) then none else some (s.setKey none)

def saveKey (s : Scanner) : Option Scanner :=
  if !s.keyAllowed then some s else
    let required := s.flow = 0 ∧ s.indent = s.cursor.column
    s.dropKey.map (·.setKey (some {
      required := decide required, token := s.tokens.size
      line := s.cursor.line, column := s.cursor.column, index := s.cursor.index }))

def openBlock (s : Scanner) (column place : Nat) (t : Token) : Scanner :=
  if s.flow = 0 ∧ s.indent < column then
    { s with
      outer := s.indent :: s.outer, indent := column
      tokens := s.tokens.insertIdxIfInBounds place t }
  else s

def closeTo (column : Int) (tokens : Array Token) (indent : Int) :
    List Int → Array Token × Int × List Int
  | [] => (tokens, indent, [])
  | parent :: outer =>
    if column < indent then closeTo column (tokens.push .blockEnd) parent outer
    else (tokens, indent, parent :: outer)

def closeBlocks (s : Scanner) (column : Int) : Scanner :=
  if s.flow = 0 then
    let (tokens, indent, outer) := closeTo column s.tokens s.indent s.outer
    { s with tokens, indent, outer }
  else s

def atTop (s : Scanner) : Option Scanner :=
  (s.closeBlocks (-1)).dropKey.map ({ · with keyAllowed := false })

def finish (s : Scanner) : Option Scanner := do return (← s.atTop).push .streamEnd

def versionNumber (c : Cursor) : Option (String × Cursor) :=
  let (digits, c) := c.span Char.isDigit
  if digits = [] ∨ 9 < digits.length then none else some (String.ofList digits, c)

def tagHandle (c : Cursor) (inDirective : Bool) : Option (String × Cursor) :=
  if c.head? ≠ some '!' then none else
    let (name, after) := c.advance.span isNameChar
    if after.head? = some '!' then some (String.ofList ('!' :: name ++ ['!']), after.advance)
    else if inDirective ∧ name ≠ [] then none
    else some (String.ofList ('!' :: name), after)

def isUriChar (inBrackets : Bool) (c : Char) : Bool :=
  isNameChar c || ";/?:@&=+$.!~*'()%".contains c || inBrackets && (c = ',' || c = '[' || c = ']')

/-- How many bytes follow an escaped lead byte. Only the shape of a sequence is looked at,
so that overlong forms pass. -/
def escapeTail? (lead : Nat) : Option Nat :=
  if lead < 0x80 then some 0
  else if lead < 0xc0 then none
  else if lead < 0xe0 then some 1
  else if lead < 0xf0 then some 2
  else if lead < 0xf8 then some 3
  else none

/-- The bytes of a tag, whose plain characters are all ASCII. While `pending` bytes of a
sequence are missing, only escapes may follow. -/
def unescapeUri : Nat → List Char → List UInt8 → Option (List UInt8)
  | 0, [], bytes => some bytes
  | pending, '%' :: a :: b :: rest, bytes => do
    let n ← hexNumber? [a, b]
    let pending ← match pending with
      | 0 => escapeTail? n
      | pending + 1 => if 0x80 ≤ n ∧ n < 0xc0 then some pending else none
    unescapeUri pending rest (bytes ++ [n.toUInt8])
  | 0, c :: rest, bytes =>
    if c = '%' then none else unescapeUri 0 rest (bytes ++ [c.toNat.toUInt8])
  | _, _, _ => none

def tagUri (c : Cursor) (inBrackets : Bool) : Option (List UInt8 × Cursor) :=
  let (raw, c) := c.span (isUriChar inBrackets)
  (unescapeUri 0 raw []).map (·, c)

def untilZero (bytes : List UInt8) : List UInt8 := bytes.takeWhile (· ≠ 0)

def lineRest (c : Cursor) : Option Cursor :=
  let c := c.skipWhile isBlank
  let c := if c.head? = some '#' then c.skipWhile (!isBreak ·) else c
  if c.head?.all isBreak then some c.advance else none

def directive (c : Cursor) : Option (Token × Cursor) := do
  let (name, c) := c.advance.span isNameChar
  if !endsWord c.head? then none
  let c := c.skipWhile isBlank
  match String.ofList name with
  | "YAML" =>
    let (major, c) ← versionNumber c
    if c.head? ≠ some '.' then none
    let (minor, c) ← versionNumber c.advance
    return (.version major minor, ← lineRest c)
  | "TAG" =>
    let (handle, c) ← tagHandle c true
    if !(c.head?.any isBlank) then none
    let (start, c) ← tagUri (c.skipWhile isBlank) true
    if start = [] ∨ !endsWord c.head? then none
    return (.tagAlias handle (untilZero start), ← lineRest c)
  | _ => none

def name (c : Cursor) : Option (String × Cursor) :=
  let (name, after) := c.advance.span isNameChar
  if name = [] ∨ !(endsWord after.head? || after.head?.any ("?:,]\x7d%@\x60".contains ·)) then none
  else some (String.ofList name, after)

/-- A tag in brackets stands as it is; another is a handle with a suffix, where a name that
no exclamation mark closes belongs to the suffix. -/
def tag (c : Cursor) (inFlow : Bool) : Option (Token × Cursor) := do
  let (token, c) ←
    if c.look 1 = some '<' then do
      let (uri, c) ← tagUri (c.skip 2) true
      if uri = [] ∨ c.head? ≠ some '>' then none
      pure (Token.tag "" (untilZero uri), c.advance)
    else do
      let (handle, c) ← tagHandle c false
      let (suffix, c) ← tagUri c false
      if 1 < handle.length ∧ handle.toList.getLast? = some '!' then
        if suffix = [] then none
        pure (Token.tag handle (untilZero suffix), c)
      else
        let name := (handle.toList.drop 1).map (·.toNat.toUInt8)
        pure (Token.tag "!" (untilZero (name ++ suffix)), c)
  if endsWord c.head? || inFlow && c.head? = some ',' then return (token, c) else none

def mark (s : Scanner) (keyAllowed : Bool) (t : Token) : Scanner :=
  { s with cursor := s.cursor.advance, keyAllowed }.push t

def openFlow (s : Scanner) (t : Token) : Option Scanner := do
  let s ← s.saveKey
  return { s.mark true t with flow := s.flow + 1, keys := none :: s.keys }

def closeFlow (s : Scanner) (t : Token) : Option Scanner := do
  let s ← s.dropKey
  let s := s.mark false t
  return if s.flow = 0 then s else { s with flow := s.flow - 1, keys := s.keys.tail }

def blockMark (s : Scanner) (collection t : Token) (keyAllowed : Bool) : Option Scanner := do
  if s.flow = 0 ∧ !s.keyAllowed then none
  let s := s.openBlock s.cursor.column s.tokens.size collection
  return (← s.dropKey).mark keyAllowed t

def colon (s : Scanner) : Option Scanner :=
  match s.possibleKey? with
  | some k =>
    let s := { s with tokens := s.tokens.insertIdxIfInBounds k.token .key }
    let s := (s.openBlock k.column k.token .blockMapping).setKey none
    some (s.mark false .value)
  | none =>
    if s.flow = 0 ∧ !s.keyAllowed then none
    else
      let s := s.openBlock s.cursor.column s.tokens.size .blockMapping
      some (s.mark (s.flow = 0) .value)

def keyed (s : Scanner) (t : Token) (after : Cursor) : Option Scanner := do
  return { ← s.saveKey with cursor := after, keyAllowed := false }.push t

def plain (s : Scanner) : Option Scanner := do
  let (text, after, broken) ← s.cursor.plain (s.flow ≠ 0) (s.indent + 1)
  let s ← s.keyed (.scalar text .plain) after
  return { s with keyAllowed := broken }

def block (s : Scanner) (folded : Bool) : Option Scanner := do
  let s ← s.dropKey
  let (text, after) ← s.cursor.block folded s.indent
  return { s with cursor := after, keyAllowed := true }.push
    (.scalar text (if folded then .other else .literal))

def isIndicator (c : Char) : Bool := "-?:,[]\x7b\x7d#&*!|>'\"%@\x60".contains c

def next (s : Scanner) : Option Scanner := do
  let s ← s.toNext.dropStale
  let s := s.closeBlocks s.cursor.column
  let c := s.cursor
  let inFlow := s.flow ≠ 0
  match c.head? with
  | none => s.finish
  | some x =>
    if c.column = 0 ∧ x = '%' then
      let s ← s.atTop
      let (t, after) ← directive c
      return (s.moved after).push t
    else if c.atMark '-' then return ((← s.atTop).moved (c.skip 3)).push .documentStart
    else if c.atMark '.' then return ((← s.atTop).moved (c.skip 3)).push .documentEnd
    else match x with
    | '[' => s.openFlow .flowSequence
    | '{' => s.openFlow .flowMapping
    | ']' => s.closeFlow .flowSequenceEnd
    | '}' => s.closeFlow .flowMappingEnd
    | ',' => return (← s.dropKey).mark true .flowEntry
    | '*' =>
      let (text, after) ← name c
      s.keyed (.alias text) after
    | '&' =>
      let (text, after) ← name c
      s.keyed (.anchor text) after
    | '!' =>
      let (t, after) ← tag c inFlow
      s.keyed t after
    | '\'' =>
      let (text, after) ← c.single
      s.keyed (.scalar text .other) after
    | '"' =>
      let (text, after) ← c.double
      s.keyed (.scalar text .other) after
    | _ =>
      let ends := endsWord (c.look 1)
      if x = '-' ∧ ends then s.blockMark .blockSequence .entry true
      else if x = '?' ∧ (inFlow ∨ ends) then s.blockMark .blockMapping .key (s.flow = 0)
      else if x = ':' ∧ (inFlow ∨ ends) then s.colon
      else if (x = '|' ∨ x = '>') ∧ !inFlow then s.block (x = '>')
      else if !(isGap x || isIndicator x) ∨ (x = '-' ∧ !(c.look 1).any isBlank) ∨
          (!inFlow ∧ (x = '?' ∨ x = ':')) then s.plain
      else none

def all : Nat → Scanner → Option (List Token)
  | 0, _ => none
  | fuel + 1, s =>
    match s.next with
    | none => none
    | some s => if s.tokens.back? = some .streamEnd then some s.tokens.toList else all fuel s

end Scanner

/-- The tokens of a text. Each step of the scanner reads a character or ends the text. -/
def tokens? (text : String) : Option (List Token) :=
  if text.toList.all isAllowed then
    let chars := unifyBreaks text.toList
    Scanner.all (chars.length + 2) { cursor := { rest := chars } }
  else none

end SeriesIngest.Yaml
