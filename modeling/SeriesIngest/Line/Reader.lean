import SeriesIngest.Decimal.Digits
import SeriesIngest.Line.Escape
import SeriesIngest.Point
/-! Lines read back. A line feed ends a line unless it stands between quotes. A backslash is an
escape only directly before a character that is special where it stands; anywhere else it is
a character like others. -/
namespace SeriesIngest.Line

/-- Takes a value off the front of a text. What it leaves is never longer than what it got, so
that a reader can be used again and again. -/
structure Reader (α : Type) where
  read : List Char → Option (α × List Char)
  shrinks : ∀ {input a rest}, read input = some (a, rest) → rest.length ≤ input.length

namespace Reader

instance : Monad Reader where
  pure a := ⟨fun input => some (a, input), by rintro _ _ _ ⟨⟩; exact Nat.le_refl _⟩
  bind r f :=
    { read := fun input => (r.read input).bind fun (a, rest) => (f a).read rest
      shrinks := by
        intro input b rest h
        obtain ⟨⟨a, middle⟩, ha, hb⟩ := Option.bind_eq_some_iff.1 h
        exact Nat.le_trans ((f a).shrinks hb) (r.shrinks ha) }

def ofOption : Option α → Reader α
  | some a => pure a
  | none => ⟨fun _ => none, nofun⟩

def guard (condition : Bool) : Reader Unit := ofOption (if condition then some () else none)

def skip? (c : Char) : Reader Bool where
  read
    | [] => some (false, [])
    | d :: rest => if d = c then some (true, rest) else some (false, d :: rest)
  shrinks := by
    intro input a rest h
    cases input with
    | nil => cases h; exact Nat.le_refl _
    | cons d input =>
      dsimp only at h
      split at h <;> cases h
      · exact Nat.le_succ _
      · exact Nat.le_refl _

def skip (c : Char) : Reader Unit := do guard (← skip? c)

def stops (ends : Char → Bool) : Reader Bool where
  read input := some (input.head?.all ends, input)
  shrinks := by rintro _ _ _ ⟨⟩; exact Nat.le_refl _

/-- What stands before the first character that ends the text and is not escaped. -/
def cut (special ends : Char → Bool) : List Char → List Char × List Char
  | [] => ([], [])
  | [c] => if ends c then ([], [c]) else ([c], [])
  | c :: d :: rest =>
    if c = '\\' ∧ special d then
      let (text, rest) := cut special ends rest
      (d :: text, rest)
    else if ends c then ([], c :: d :: rest)
    else
      let (text, rest) := cut special ends (d :: rest)
      (c :: text, rest)

theorem length_cut (special ends : Char → Bool) (input : List Char) :
    (cut special ends input).2.length ≤ input.length := by
  fun_induction cut special ends input <;> simp_all <;> omega

def text (special ends : Char → Bool) : Reader String where
  read input := some (String.ofList (cut special ends input).1, (cut special ends input).2)
  shrinks := by rintro input _ _ ⟨⟩; exact length_cut special ends input

def eachFrom (mark : Char) (item : Reader α) (input : List Char) : Option (List α × List Char) :=
  match input with
  | [] => some ([], [])
  | c :: input =>
    if c = mark then
      match _h : item.read input with
      | none => none
      | some (a, rest) =>
        match eachFrom mark item rest with
        | none => none
        | some (items, rest) => some (a :: items, rest)
    else some ([], c :: input)
termination_by input.length
decreasing_by
  have := item.shrinks _h
  simp only [List.length_cons]
  omega

theorem length_eachFrom {mark : Char} {item : Reader α} {input rest : List Char} {items : List α}
    (h : eachFrom mark item input = some (items, rest)) : rest.length ≤ input.length := by
  fun_induction eachFrom mark item input generalizing items rest with
  | case1 => cases h; exact Nat.le_refl _
  | case2 => cases h
  | case3 => cases h
  | case4 input a middle hitem more last hmore ih =>
    cases h
    have hfirst := item.shrinks hitem
    have hrest := ih hmore
    simp only [List.length_cons]
    omega
  | case5 => cases h; exact Nat.le_refl _

def each (mark : Char) (item : Reader α) : Reader (List α) where
  read := eachFrom mark item
  shrinks := length_eachFrom

def separated (mark : Char) (item : Reader α) : Reader (List α) := do
  return (← item) :: (← each mark item)

end Reader

/-- A field value as it is written. A float stays decimal text. -/
inductive Literal where
  | int (v : Int64)
  | float (text : String)
  | bool (v : Bool)
  | text (v : String)
deriving DecidableEq

structure Sample where
  measurement : String
  tags : Entries String
  fields : Entries Literal
  nanos : Option Int64
deriving DecidableEq

def unsigned : List Char → List Char
  | '-' :: digits => digits
  | digits => digits

def int? (word : List Char) : Option Int64 :=
  let magnitude := Decimal.ofDigits (unsigned word)
  let n : Int := if word.head? = some '-' then -magnitude else magnitude
  if (unsigned word).isEmpty || !(unsigned word).all Char.isDigit then none
  else if Int64.minValue.toInt ≤ n ∧ n ≤ Int64.maxValue.toInt then some (.ofInt n)
  else none

def isDecimal (word : List Char) : Bool :=
  !((unsigned word).takeWhile Char.isDigit).isEmpty &&
    match (unsigned word).dropWhile Char.isDigit with
    | [] => true
    | c :: places => c = '.' && !places.isEmpty && places.all Char.isDigit

def Literal.ofWord? (word : List Char) : Option Literal :=
  if isDecimal word then some (.float (String.ofList word))
  else if word = ['t', 'r', 'u', 'e'] then some (.bool true)
  else if word = ['f', 'a', 'l', 's', 'e'] then some (.bool false)
  else if word.getLast? = some 'i' then (int? word.dropLast).map .int
  else none

def wordEnds (c : Char) : Bool := c = ',' || c = ' ' || c = '\n'

def fieldsEnds (c : Char) : Bool := c = ' ' || c = '\n'

namespace Reader

def name (special : Char → Bool) : Reader String := text special fun c => special c || c = '\n'

def word : Reader String := text (fun _ => false) wordEnds

def quoted : Reader String := do
  let content ← text quotedSpecial (· = '"')
  skip '"'
  return content

def literal : Reader Literal := do
  if ← skip? '"' then return .text (← quoted) else ofOption (Literal.ofWord? (← word).toList)

def tag : Reader (String × String) := do
  let key ← name keySpecial
  skip '='
  return (key, ← name keySpecial)

def field : Reader (String × Literal) := do
  let key ← name keySpecial
  skip '='
  return (key, ← literal)

/-- The fields may be missing: then the blank before the time comes next, or the line is over. -/
def fields : Reader (Entries Literal) := do
  if ← stops fieldsEnds then return [] else separated ',' field

def time : Reader (Option Int64) := do
  if ← skip? ' ' then return some (← ofOption (int? (← word).toList)) else return none

def sample : Reader Sample := do
  let measurement ← name measurementSpecial
  guard (measurement ≠ "")
  let tags ← each ',' tag
  skip ' '
  let fields ← fields
  return { measurement, tags, fields, nanos := ← time }

end Reader

def readAll (body : String) : Option (List Sample) :=
  if body = "" then some [] else
    match (Reader.separated '\n' Reader.sample).read body.toList with
    | some (samples, []) => some samples
    | _ => none

end SeriesIngest.Line
