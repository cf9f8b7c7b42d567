/-! Escapes of the line format: a backslash goes before every character that is special
where the text stands, and before no other. A backslash itself is not special in names. -/
namespace SeriesIngest.Line

def escapeChars (special : Char → Bool) (text : List Char) : List Char :=
  text.flatMap fun c => if special c then ['\\', c] else [c]

def escape (special : Char → Bool) (text : String) : String :=
  String.ofList (escapeChars special text.toList)

def measurementSpecial (c : Char) : Bool := c = ',' || c = ' '

def keySpecial (c : Char) : Bool := c = ',' || c = '=' || c = ' '

def quotedSpecial (c : Char) : Bool := c = '\\' || c = '"'

def escapeMeasurement (text : String) : String := escape measurementSpecial text

def escapeKey (text : String) : String := escape keySpecial text

@[simp] theorem escapeChars_nil (special : Char → Bool) : escapeChars special [] = [] := rfl

theorem escapeChars_cons (special : Char → Bool) (c : Char) (rest : List Char) :
    escapeChars special (c :: rest) =
      (if special c then ['\\', c] else [c]) ++ escapeChars special rest := by
  simp [escapeChars]

theorem toList_escape (special : Char → Bool) (text : String) :
    (escape special text).toList = escapeChars special text.toList := by
  simp [escape]

end SeriesIngest.Line
