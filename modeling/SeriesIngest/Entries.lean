/-! Named values in the order in which their names first came. Putting a name
again replaces its value where it stands, so no operation moves an entry. -/
namespace SeriesIngest

abbrev Entries (α : Type) := List (String × α)

namespace Entries

def get? (entries : Entries α) (name : String) : Option α :=
  match entries with
  | [] => none
  | (n, v) :: rest => if n = name then some v else get? rest name

def put (entries : Entries α) (name : String) (value : α) : Entries α :=
  match entries with
  | [] => [(name, value)]
  | (n, v) :: rest => if n = name then (n, value) :: rest else (n, v) :: put rest name value

def names (entries : Entries α) : List String := entries.map (·.1)

theorem find?_name (entries : Entries α) (name : String) :
    entries.find? (·.1 = name) = (entries.get? name).map (name, ·) := by
  induction entries with
  | nil => rfl
  | cons e rest ih =>
    obtain ⟨n, v⟩ := e
    by_cases h : n = name <;> simp [get?, h, ih]

@[simp] theorem get?_put_self (entries : Entries α) (name : String) (value : α) :
    (entries.put name value).get? name = some value := by
  induction entries with
  | nil => simp [put, get?]
  | cons e rest ih => by_cases h : e.1 = name <;> simp [put, get?, h, ih]

theorem get?_put_of_ne (entries : Entries α) {name other : String} (value : α)
    (h : other ≠ name) : (entries.put name value).get? other = entries.get? other := by
  induction entries with
  | nil => simp [put, get?, Ne.symm h]
  | cons e rest ih =>
    by_cases hn : e.1 = name
    · have : e.1 ≠ other := fun he => h (he ▸ hn)
      simp [put, get?, hn, Ne.symm h]
    · simp [put, get?, hn, ih]

theorem names_put (entries : Entries α) (name : String) (value : α) :
    (entries.put name value).names =
      if name ∈ entries.names then entries.names else entries.names ++ [name] := by
  induction entries with
  | nil => simp [put, names]
  | cons e rest ih =>
    by_cases h : e.1 = name
    · simp [put, names, h]
    · have h' : name ≠ e.1 := Ne.symm h
      simp only [names] at ih
      by_cases hm : name ∈ rest.map (·.1) <;> simp_all [put, names]

end Entries
end SeriesIngest
