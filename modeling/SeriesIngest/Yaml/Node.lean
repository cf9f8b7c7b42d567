import SeriesIngest.Text.Utf8
import SeriesIngest.Yaml.Token
/-! YAML documents as trees. An alias stands for the node that its number points to once the
document is complete. -/
namespace SeriesIngest.Yaml

inductive Node where
  | scalar (text : String) (style : Style) (tag : Option (List UInt8))
  | sequence (items : List Node) (tag : Option (List UInt8))
  | mapping (pairs : List (Node × Node)) (tag : Option (List UInt8))
  | alias (number : Nat)

structure Document where
  root : Node
  /-- The nodes that anchors stand before, by number; a later one of a number counts. -/
  anchored : List (Nat × Node)

structure TreeState where
  tokens : List Token
  handles : List (String × List UInt8) := []
  numbers : List (String × Nat) := []
  anchored : List (Nat × Option Node) := []

abbrev TreeReader := StateT TreeState Option

namespace TreeReader

def head : TreeReader Token := do
  match (← get).tokens with
  | [] => failure
  | t :: _ => return t

def drop : TreeReader Unit := modify fun s => { s with tokens := s.tokens.tail }

def dropIf (t : Token) : TreeReader Bool := do
  if (← head) = t then
    drop
    return true
  else return false

def expect (t : Token) : TreeReader Unit := do
  if !(← dropIf t) then failure

def empty : Node := .scalar "" .plain none

/-- The number of a new anchor is that of the names known before it; a name that comes again
moves to its new number. -/
def enter (name : String) : TreeReader Nat := do
  let s ← get
  let number := s.numbers.length
  set { s with
    numbers := (name, number) :: s.numbers.filter (·.1 ≠ name)
    anchored := s.anchored ++ [(number, none)] }
  return s.anchored.length

def fill (place : Option Nat) (node : Node) : TreeReader Node := do
  if let some i := place then
    modify fun s => { s with anchored := s.anchored.modify i fun (n, _) => (n, some node) }
  return node

def resolve (handle : String) (suffix : List UInt8) : TreeReader (List UInt8) := do
  if handle = "" then return suffix
  match (← get).handles.lookup handle with
  | some start => return start ++ suffix
  | none => failure

structure Properties where
  place : Option Nat := none
  tag : Option (List UInt8) := none

def properties : TreeReader Properties := do
  match ← head with
  | .anchor name =>
    drop
    match ← head with
    | .tag handle suffix =>
      drop
      let tag ← resolve handle suffix
      return { place := some (← enter name), tag := some tag }
    | _ => return { place := some (← enter name) }
  | .tag handle suffix =>
    drop
    match ← head with
    | .anchor name =>
      drop
      let tag ← resolve handle suffix
      return { place := some (← enter name), tag := some tag }
    | _ => return { tag := some (← resolve handle suffix) }
  | _ => return {}

mutual

/-- A node; block collections may start only where `inBlock`, and entries without deeper
indentation only where `indentless`. -/
def node (inBlock indentless : Bool) : Nat → TreeReader Node
  | 0 => failure
  | fuel + 1 => do
    if let .alias name := ← head then
      drop
      match (← get).numbers.lookup name with
      | some number => return .alias number
      | none => failure
    let p ← properties
    match ← head with
    | .entry =>
      if indentless then fill p.place (.sequence (← plainEntries fuel) p.tag)
      else if p.place.isSome ∨ p.tag.isSome then fill p.place (.scalar "" .plain p.tag)
      else failure
    | .scalar text style =>
      drop
      fill p.place (.scalar text style p.tag)
    | .flowSequence =>
      drop
      fill p.place (.sequence (← flowItems true fuel) p.tag)
    | .flowMapping =>
      drop
      fill p.place (.mapping (← flowPairs true fuel) p.tag)
    | .blockSequence =>
      if inBlock then
        drop
        fill p.place (.sequence (← blockItems fuel) p.tag)
      else if p.place.isSome ∨ p.tag.isSome then fill p.place (.scalar "" .plain p.tag)
      else failure
    | .blockMapping =>
      if inBlock then
        drop
        fill p.place (.mapping (← blockPairs fuel) p.tag)
      else if p.place.isSome ∨ p.tag.isSome then fill p.place (.scalar "" .plain p.tag)
      else failure
    | _ =>
      if p.place.isSome ∨ p.tag.isSome then fill p.place (.scalar "" .plain p.tag) else failure

def nodeUnless (ends : List Token) (inBlock indentless : Bool) : Nat → TreeReader Node
  | 0 => failure
  | fuel + 1 => do
    if ends.contains (← head) then return empty else node inBlock indentless fuel

def blockItems : Nat → TreeReader (List Node)
  | 0 => failure
  | fuel + 1 => do
    if ← dropIf .entry then
      let item ← nodeUnless [.entry, .blockEnd] true false fuel
      return item :: (← blockItems fuel)
    else
      expect .blockEnd
      return []

def plainEntries : Nat → TreeReader (List Node)
  | 0 => failure
  | fuel + 1 => do
    if ← dropIf .entry then
      let item ← nodeUnless [.entry, .key, .value, .blockEnd] true false fuel
      return item :: (← plainEntries fuel)
    else return []

def blockPairs : Nat → TreeReader (List (Node × Node))
  | 0 => failure
  | fuel + 1 => do
    if ← dropIf .key then
      let key ← nodeUnless [.key, .value, .blockEnd] true true fuel
      let value ← if ← dropIf .value then nodeUnless [.key, .value, .blockEnd] true true fuel
        else pure empty
      return (key, value) :: (← blockPairs fuel)
    else
      expect .blockEnd
      return []

def flowItems (first : Bool) : Nat → TreeReader (List Node)
  | 0 => failure
  | fuel + 1 => do
    if ← dropIf .flowSequenceEnd then return []
    if !first then expect .flowEntry
    if ← dropIf .flowSequenceEnd then return []
    let item ←
      if ← dropIf .key then
        let key ← match ← head with
          | .value | .flowEntry | .flowSequenceEnd => do
            drop
            pure empty
          | _ => node false false fuel
        let value ← if ← dropIf .value then nodeUnless [.flowEntry, .flowSequenceEnd] false false fuel
          else pure empty
        pure (Node.mapping [(key, value)] none)
      else node false false fuel
    return item :: (← flowItems false fuel)

def flowPairs (first : Bool) : Nat → TreeReader (List (Node × Node))
  | 0 => failure
  | fuel + 1 => do
    if ← dropIf .flowMappingEnd then return []
    if !first then expect .flowEntry
    if ← dropIf .flowMappingEnd then return []
    if ← dropIf .key then
      let key ← nodeUnless [.value, .flowEntry, .flowMappingEnd] false false fuel
      let value ← if ← dropIf .value then nodeUnless [.flowEntry, .flowMappingEnd] false false fuel
        else pure empty
      return (key, value) :: (← flowPairs false fuel)
    else
      let key ← node false false fuel
      return (key, empty) :: (← flowPairs false fuel)

end

def directives (versioned : Bool) : Nat → TreeReader Unit
  | 0 => failure
  | fuel + 1 => do
    match ← head with
    | .version major minor =>
      if versioned ∨ major.toNat? ≠ some 1 ∨ (minor.toNat? ≠ some 1 ∧ minor.toNat? ≠ some 2) then
        failure
      drop
      directives true fuel
    | .tagAlias handle start =>
      if ((← get).handles.lookup handle).isSome then failure
      drop
      modify fun s => { s with handles := (handle, start) :: s.handles }
      directives versioned fuel
    | _ => return ()

def defaultHandles : List (String × List UInt8) :=
  [("!", Utf8.encode "!"), ("!!", Utf8.encode "tag:yaml.org,2002:")]

def document (fuel : Nat) : TreeReader Node := do
  let marked := match ← head with
    | .version .. | .tagAlias .. | .documentStart => true
    | _ => false
  if marked then
    directives false fuel
    expect .documentStart
  modify fun s => { s with handles := s.handles ++ defaultHandles }
  let root ← match marked, ← head with
    | true, .version .. | true, .tagAlias .. | true, .documentStart | true, .documentEnd
    | true, .streamEnd => pure empty
    | _, _ => node true false fuel
  modify fun s => { s with tokens := s.tokens.dropWhile (· = .documentEnd) }
  expect .streamEnd
  return root

end TreeReader

/-- The tree of a text that holds one document. The fuel is ample: each level of the tree
takes two steps and each step but one in two reads a token. -/
def document? (text : String) : Option Document := do
  let tokens ← tokens? text
  let (root, s) ← (TreeReader.document (4 * tokens.length + 8)).run { tokens }
  return { root, anchored := s.anchored.filterMap fun (n, node) => node.map (n, ·) }

namespace Document

def deref? (d : Document) : Node → Option Node
  | .alias number => d.anchored.reverse.lookup number
  | node => some node

end Document
end SeriesIngest.Yaml
