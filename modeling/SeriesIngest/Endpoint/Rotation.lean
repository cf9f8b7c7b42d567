import SeriesIngest.Notice
/-! Endpoints in turn. A counter of 64 bits, which wraps, gives the slot whose turn it is; a
slot that is flagged down passes its turn on to the next that is up. With every slot down the
turn stays where it is, so that a request still goes somewhere. -/
namespace SeriesIngest

structure Slot where
  url : String
  down : Bool := false
deriving DecidableEq

structure Rotation where
  slots : List Slot
  nonempty : slots ≠ []
  counter : UInt64 := 0
deriving DecidableEq

namespace Rotation

def ofUrls : List String → Except SettingsFault Rotation
  | [] => .error .noEndpoints
  | url :: urls => .ok { slots := ⟨url, false⟩ :: urls.map fun u => { url := u }, nonempty := by simp }

def size (r : Rotation) : Nat := r.slots.length

def urls (r : Rotation) : List String := r.slots.map (·.url)

theorem size_pos (r : Rotation) : 0 < r.size := List.length_pos_iff.2 r.nonempty

def turn (r : Rotation) (i : Nat) : Fin r.size :=
  ⟨(r.counter + i.toUInt64).toNat % r.size, Nat.mod_lt _ r.size_pos⟩

def isUp (r : Rotation) (slot : Fin r.size) : Bool := !(r.slots.get slot).down

def pick (r : Rotation) : Fin r.size :=
  (((List.range r.size).map r.turn).find? r.isUp).getD (r.turn 0)

def advance (r : Rotation) : Rotation := { r with counter := r.counter + 1 }

def next (r : Rotation) : String × Rotation := ((r.slots.get r.pick).url, r.advance)

/-- Sets the flag of the first slot with that URL. -/
def flag (url : String) (down : Bool) : List Slot → List Slot
  | [] => []
  | s :: rest => if s.url = url then { s with down } :: rest else s :: flag url down rest

theorem length_flag (url : String) (down : Bool) (slots : List Slot) :
    (flag url down slots).length = slots.length := by
  induction slots with
  | nil => rfl
  | cons s rest ih => by_cases h : s.url = url <;> simp [flag, h, ih]

def setDown (r : Rotation) (url : String) (down : Bool) : Rotation :=
  { r with
    slots := flag url down r.slots
    nonempty := by
      rw [← List.length_pos_iff, length_flag]
      exact r.size_pos }

def knows (r : Rotation) (url : String) : Bool := r.slots.any (·.url = url)

/-- A URL that stands in several slots is down when the first of them is. -/
def isDown (r : Rotation) (url : String) : Bool :=
  match r.slots.find? (·.url = url) with
  | some slot => slot.down
  | none => false

def flagNotices (r : Rotation) (url : String) (down : Bool) : List Notice :=
  if r.knows url ∧ r.isDown url ≠ down then [if down then .markedDown url else .markedUp url]
  else []

/-! Rotations in use: a pick takes a turn, and news of an endpoint set its flag. -/

inductive Step where
  | next
  | markDown (url : String)
  | markUp (url : String)
deriving DecidableEq

def perform (r : Rotation) : Step → Rotation
  | .next => r.advance
  | .markDown url => r.setDown url true
  | .markUp url => r.setDown url false

def run (r : Rotation) (steps : List Step) : Rotation := steps.foldl perform r

end Rotation
end SeriesIngest
