import SeriesIngest.Endpoint.Rotation
import Mathlib.Data.List.Nodup

/-! Flags are set and read through the first slot of a URL, so what was set last is what is read.
The other slots of the URL keep their flags. -/
namespace SeriesIngest.Rotation

theorem find?_flag (url : String) (down : Bool) (slots : List Slot) (other : String) :
    (flag url down slots).find? (·.url = other) =
      if other = url then (slots.find? (·.url = other)).map ({ · with down })
      else slots.find? (·.url = other) := by
  induction slots with
  | nil => simp [flag]
  | cons s rest ih =>
    by_cases hs : s.url = url
    · by_cases ho : s.url = other
      · simp [flag, hs, ← ho]
      · have hne : other ≠ url := fun heq => ho (hs.trans heq.symm)
        simp [flag, hs, hne, Ne.symm hne]
    · by_cases ho : s.url = other
      · have hne : other ≠ url := fun heq => hs (ho.trans heq)
        simp [flag, ho, hne]
      · simpa [flag, hs, ho] using ih

theorem map_url_flag (url : String) (down : Bool) (slots : List Slot) :
    (flag url down slots).map (·.url) = slots.map (·.url) := by
  induction slots with
  | nil => rfl
  | cons s rest ih => by_cases h : s.url = url <;> simp [flag, h, ih]

variable (r : Rotation)

@[simp] theorem urls_advance : r.advance.urls = r.urls := rfl

@[simp] theorem urls_setDown (url : String) (down : Bool) : (r.setDown url down).urls = r.urls :=
  map_url_flag url down r.slots

@[simp] theorem counter_setDown (url : String) (down : Bool) :
    (r.setDown url down).counter = r.counter := rfl

theorem find?_isSome_iff (url : String) : (r.slots.find? (·.url = url)).isSome ↔ url ∈ r.urls := by
  simp [urls, List.find?_isSome]

theorem isDown_setDown {url : String} (h : url ∈ r.urls) (asked : String) (down : Bool) :
    (r.setDown asked down).isDown url = if asked = url then down else r.isDown url := by
  unfold isDown setDown
  rw [find?_flag]
  by_cases hurl : url = asked
  · subst hurl
    obtain ⟨slot, hslot⟩ := Option.isSome_iff_exists.1 ((r.find?_isSome_iff url).2 h)
    simp [hslot]
  · simp [hurl, Ne.symm hurl]

/-- Without repeated URLs a lookup reaches every slot. -/
theorem isDown_get (h : r.urls.Nodup) (slot : Fin r.size) :
    r.isDown (r.slots.get slot).url = (r.slots.get slot).down := by
  have hmem := List.get_mem r.slots slot
  unfold isDown
  cases hfind : r.slots.find? (·.url = (r.slots.get slot).url) with
  | none => simpa using List.find?_eq_none.1 hfind _ hmem
  | some found =>
    have hurl : found.url = (r.slots.get slot).url := by simpa using List.find?_some hfind
    rw [List.inj_on_of_nodup_map h (List.mem_of_find?_eq_some hfind) hmem hurl]

/-- A slot whose URL has come before keeps its flag. -/
theorem getElem?_flag_of_earlier {url : String} (down : Bool) {slots : List Slot} {i j : Nat}
    (hij : i < j) (h : (slots[i]?).map (·.url) = some url) : (flag url down slots)[j]? = slots[j]? := by
  induction slots generalizing i j with
  | nil => rfl
  | cons s rest ih =>
    obtain ⟨j, rfl⟩ := Nat.exists_eq_succ_of_ne_zero (Nat.ne_of_gt (Nat.zero_lt_of_lt hij))
    by_cases hs : s.url = url
    · simp [flag, hs]
    · cases i with
      | zero => simp [hs] at h
      | succ i => simpa [flag, hs] using ih (Nat.lt_of_succ_lt_succ hij) (by simpa using h)

theorem ofUrls_ok {urls : List String} (h : ofUrls urls = .ok r) :
    r.slots = urls.map (Slot.mk · false) ∧ r.counter = 0 := by
  cases urls with
  | nil => cases h
  | cons url urls => cases h; exact ⟨rfl, rfl⟩

theorem urls_of_ofUrls {urls : List String} (h : ofUrls urls = .ok r) : r.urls = urls := by
  rw [Rotation.urls, (ofUrls_ok r h).1, List.map_map]
  exact List.map_id urls

theorem isDown_ofUrls {urls : List String} (h : ofUrls urls = .ok r) (url : String) :
    r.isDown url = false := by
  unfold isDown
  split
  · rename_i slot hfind
    have hmem := List.mem_of_find?_eq_some hfind
    rw [(ofUrls_ok r h).1] at hmem
    obtain ⟨u, -, rfl⟩ := List.mem_map.1 hmem
    rfl
  · rfl

theorem run_cons (step : Step) (steps : List Step) :
    r.run (step :: steps) = (r.perform step).run steps := rfl

theorem urls_run (steps : List Step) : (r.run steps).urls = r.urls := by
  induction steps generalizing r with
  | nil => rfl
  | cons step steps ih =>
    rw [run_cons, ih]
    cases step <;> simp [perform]

theorem counter_run (steps : List Step) :
    (r.run steps).counter = r.counter + (steps.count .next).toUInt64 := by
  induction steps generalizing r with
  | nil => simp [run]
  | cons step steps ih =>
    rw [run_cons, ih]
    cases step with
    | next =>
      rw [List.count_cons_self, Nat.toUInt64_eq, Nat.toUInt64_eq, UInt64.ofNat_add, perform, advance]
      rw [UInt64.add_assoc, UInt64.add_comm 1]
      rfl
    | markDown url => simp [perform]
    | markUp url => simp [perform]

end SeriesIngest.Rotation
