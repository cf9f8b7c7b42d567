import SeriesIngest.Entries
import SeriesIngest.Settings
import SeriesIngest.Yaml.Node
/-! Settings read from YAML text. Names take the text of any scalar; numbers and truth values
must be plain. Members that are not known are passed over whatever they hold, but a known one
may stand only once. -/
namespace SeriesIngest.Settings

open Yaml (Document Node)

def coreTag (kind : String) : List UInt8 := Utf8.encode ("tag:yaml.org,2002:" ++ kind)

def isNullWord (text : String) : Bool := ["~", "null", "Null", "NULL"].contains text

def text? (d : Document) (node : Node) : Option String :=
  match d.deref? node with
  | some (.scalar text _ _) => some text
  | _ => none

/-- The text of a scalar that is plain, or a literal block tagged as what it should be. -/
def plainText? (d : Document) (kind : String) (node : Node) : Option String :=
  match d.deref? node with
  | some (.scalar text .plain _) => some text
  | some (.scalar text .literal (some tag)) => if tag = coreTag kind then some text else none
  | _ => none

def digitsIn? (base : Nat) (digits : List Char) : Option Nat :=
  if digits = [] then none else do
    let n ← digits.foldlM (fun n c => do
      let d ← Yaml.hexDigit? c
      if d < base then some (base * n + d) else none) 0
    if n < UInt64.size then some n else none

/-- A number of 64 bits: decimal without leading zeros, or hexadecimal, octal or binary after
its mark. A plus sign may stand in front. -/
def number? (text : String) : Option Nat :=
  let digits := match text.toList with
    | '+' :: rest => rest
    | all => all
  match digits with
  | '0' :: 'x' :: rest => digitsIn? 16 rest
  | '0' :: 'o' :: rest => digitsIn? 8 rest
  | '0' :: 'b' :: rest => digitsIn? 2 rest
  | '0' :: _ :: _ => none
  | _ => digitsIn? 10 digits

def unsigned? (d : Document) (node : Node) : Option Nat :=
  (plainText? d "int" node).bind number?

def truth? (d : Document) (node : Node) : Option Bool := do
  let text ← plainText? d "bool" node
  if ["true", "True", "TRUE"].contains text then some true
  else if ["false", "False", "FALSE"].contains text then some false
  else none

def optional? (d : Document) (read : Document → Node → Option α) (node : Node) :
    Option (Option α) :=
  let some_ := (read d node).map some
  match d.deref? node with
  | some (.scalar text .plain none) => if text = "" || isNullWord text then some none else some_
  | some (.scalar text .plain (some tag)) =>
    if tag = coreTag "null" then (if isNullWord text then some none else none) else some_
  | _ => some_

def localName? : List UInt8 → Option String
  | 0x21 :: name => (Utf8.decode name).toOption
  | _ => none

/-- One of a list of names; it may also be given as a local tag of nothing. -/
def choice? (choices : List (String × α)) (d : Document) (node : Node) : Option α :=
  match d.deref? node with
  | some (.scalar text style tag) =>
    match tag.bind localName? with
    | some name =>
      if style = .plain ∧ (text = "" ∨ isNullWord text) then choices.lookup name else none
    | none => choices.lookup text
  | _ => none

def protocols : List (String × Protocol) := [Protocol.http, .grpc].map fun p => (p.name, p)

def algorithms : List (String × Algorithm) :=
  [Algorithm.none, .gzip, .lz4].map fun a => (a.name, a)

def items? (d : Document) (node : Node) : Option (List Node) :=
  match d.deref? node with
  | some (.sequence items _) => some items
  | some (.scalar "" .plain _) => some []
  | _ => none

def members? (d : Document) (known : List String) (node : Node) : Option (Entries Node) := do
  let pairs ← match d.deref? node with
    | some (.mapping pairs _) => some pairs
    | some (.scalar "" .plain _) => some []
    | _ => none
  let named ← pairs.mapM fun (key, value) => do return (← text? d key, value)
  let members := named.filter fun m => known.contains m.1
  if known.all fun k => members.countP (·.1 = k) ≤ 1 then some members else none

def member? (members : Entries Node) (name : String) (missing : α) (read : Node → Option α) :
    Option α :=
  match members.get? name with
  | some node => read node
  | none => some missing

def batch? (d : Document) (node : Node) : Option BatchSettings := do
  let m ← members? d
    ["actions", "flush_interval_ms", "jitter_ms", "buffer_limit", "drop_on_exhaustion"] node
  let number (name : String) := member? m name none (optional? d unsigned?)
  return {
    actions := ← number "actions"
    interval := ← number "flush_interval_ms"
    jitter := ← number "jitter_ms"
    bufferLimit := ← number "buffer_limit"
    dropWhenFull := ← member? m "drop_on_exhaustion" false (truth? d) }

def ofDocument? (d : Document) : Option Settings := do
  let m ← members? d ["endpoints", "protocol", "compression", "batch"] d.root
  return {
    endpoints := ← (← items? d (← m.get? "endpoints")).mapM (text? d)
    protocol := ← member? m "protocol" .http (choice? protocols d)
    algorithm := ← member? m "compression" .none (choice? algorithms d)
    batch := ← member? m "batch" none (optional? d batch?) }

def ofYaml (text : String) : Except SettingsFault Settings := do
  match (Yaml.document? text).bind ofDocument? with
  | none => throw .unreadableText
  | some s =>
    s.validate
    return s

def ofFile (bytes : Option (List UInt8)) : Except SettingsFault Settings :=
  match bytes.map Utf8.decode with
  | some (.ok text) => ofYaml text
  | _ => .error .unreadableFile

end SeriesIngest.Settings
