import SeriesIngest.Decimal.Digits
/-! The form of an endpoint: scheme://host, then a port after a colon and a path after a
slash where they are given. A host in brackets holds colons of its own. -/
namespace SeriesIngest.Address

def cutScheme? : List Char → Option (List Char × List Char)
  | ':' :: '/' :: '/' :: rest => some ([], rest)
  | c :: rest => (cutScheme? rest).map fun (scheme, rest) => (c :: scheme, rest)
  | [] => none

def isSchemeChar (c : Char) : Bool := c.isAlphanum || c = '+' || c = '-' || c = '.'

/-- Host and port: the last colon parts them, unless what follows it ends a bracket. -/
def cutPort (authority : List Char) : List Char × Option (List Char) :=
  match authority.reverse.span (· ≠ ':') with
  | (_, []) => (authority, none)
  | (port, _ :: host) =>
    if port.head? = some ']' then (authority, none) else (host.reverse, some port.reverse)

/-- A number of 16 bits in decimal; a plus sign and zeros may stand in front. -/
def isPort (text : List Char) : Bool :=
  let digits := match text with
    | '+' :: rest => rest
    | _ => text
  !digits.isEmpty && digits.all Char.isDigit && Decimal.ofDigits digits < UInt16.size

/-- First and last character of each run with the Unicode property White_Space. -/
def blankRuns : List (Nat × Nat) :=
  [(0x9, 0xd), (0x20, 0x20), (0x85, 0x85), (0xa0, 0xa0), (0x1680, 0x1680), (0x2000, 0x200a),
    (0x2028, 0x2029), (0x202f, 0x202f), (0x205f, 0x205f), (0x3000, 0x3000)]

def isBlank (c : Char) : Bool :=
  blankRuns.any fun (first, last) => first ≤ c.toNat && c.toNat ≤ last

def isHost (host : List Char) : Bool := !host.isEmpty && !host.any isBlank

def isValid (url : String) : Bool :=
  match cutScheme? url.toList with
  | none => false
  | some (scheme, rest) =>
    let (host, port) := cutPort (rest.takeWhile (· ≠ '/'))
    !scheme.isEmpty && scheme.all isSchemeChar && isHost host && port.all isPort

end SeriesIngest.Address
