/-! Bytes as UTF-8 text. Decoding accepts exactly the well-formed encodings, and a
refusal says where the well-formed part ends and how long the faulty sequence is. -/
namespace SeriesIngest.Utf8

def encode (text : String) : List UInt8 := text.toUTF8.data.toList

/-- Where text stops being well formed. A fault at the end of the input, inside a sequence
that could still have been completed, is `incomplete`. -/
inductive Fault where
  | invalid (index length : Nat)
  | incomplete (index : Nat)
deriving DecidableEq

def Fault.message : Fault → String
  | invalid index length => s!"invalid utf-8 sequence of {length} bytes from index {index}"
  | incomplete index => s!"incomplete utf-8 byte sequence from index {index}"

def isContinuation (b : UInt8) : Bool := 0x80 ≤ b && b ≤ 0xbf

/-- The number of bytes that the lead announces, with the range that its second byte must
be in: the ranges leave out overlong forms, surrogates and values past the last character. -/
def leadShape? (b : UInt8) : Option (Nat × UInt8 × UInt8) :=
  if b < 0x80 then some (1, 0, 0)
  else if 0xc2 ≤ b && b ≤ 0xdf then some (2, 0x80, 0xbf)
  else if b = 0xe0 then some (3, 0xa0, 0xbf)
  else if b = 0xed then some (3, 0x80, 0x9f)
  else if 0xe1 ≤ b && b ≤ 0xef then some (3, 0x80, 0xbf)
  else if b = 0xf0 then some (4, 0x90, 0xbf)
  else if 0xf1 ≤ b && b ≤ 0xf3 then some (4, 0x80, 0xbf)
  else if b = 0xf4 then some (4, 0x80, 0x8f)
  else none

/-- The verdict on the sequence at the head of the input: its length when it is well formed,
else the fault, for a head at `index`. -/
def headLength (index : Nat) (lead : UInt8) (tail : List UInt8) : Except Fault Nat :=
  match leadShape? lead with
  | none => .error (.invalid index 1)
  | some (size, low, high) =>
    if size = 1 then .ok 1 else
    match tail with
    | [] => .error (.incomplete index)
    | second :: tail =>
      if !(low ≤ second && second ≤ high) then .error (.invalid index 1)
      else if size = 2 then .ok 2 else
      match tail with
      | [] => .error (.incomplete index)
      | third :: tail =>
        if !isContinuation third then .error (.invalid index 2)
        else if size = 3 then .ok 3 else
        match tail with
        | [] => .error (.incomplete index)
        | fourth :: _ => if isContinuation fourth then .ok 4 else .error (.invalid index 3)

/-- The first fault at or after the head, which stands at `index`; `skip` bytes of it belong
to a sequence already checked. -/
def faultFrom? (index skip : Nat) : List UInt8 → Option Fault
  | [] => none
  | b :: rest =>
    match skip with
    | skip + 1 => faultFrom? (index + 1) skip rest
    | 0 =>
      match headLength index b rest with
      | .ok length => faultFrom? (index + 1) (length - 1) rest
      | .error fault => some fault

def fault? (bytes : List UInt8) : Option Fault := faultFrom? 0 0 bytes

def decode (bytes : List UInt8) : Except Fault String :=
  match String.fromUTF8? ⟨bytes.toArray⟩ with
  | some text => .ok text
  | none => .error ((fault? bytes).getD (.incomplete bytes.length))

theorem decode_encode (text : String) : decode (encode text) = .ok text := by
  have h : String.fromUTF8? text.toByteArray = some text := by
    rw [String.fromUTF8?, dif_pos text.isValidUTF8]
    rfl
  simp [decode, encode, String.toUTF8, h]

theorem encode_of_decode {bytes : List UInt8} {text : String} (h : decode bytes = .ok text) :
    encode text = bytes := by
  unfold decode at h
  split at h
  · rename_i t ht
    cases h
    unfold String.fromUTF8? at ht
    split at ht
    · cases ht
      simp [encode, String.toUTF8, String.fromUTF8]
    · cases ht
  · cases h

end SeriesIngest.Utf8
