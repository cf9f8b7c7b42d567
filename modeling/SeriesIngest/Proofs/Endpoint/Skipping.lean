import SeriesIngest.Proofs.Endpoint.Turns
import SeriesIngest.Settings
import Mathlib.Data.List.NodupEquivFin

/-! When an endpoint that is down is passed over. A pick goes by slots and a flag by URLs, and the
two agree as long as no URL stands in two slots. -/
namespace SeriesIngest.Rotation

/-- No URL that is down is picked while another is up. Fewer than `2 ^ 63` steps keep the counter
from running over. -/
def SkipsDown (urls : List String) : Prop :=
  ∀ r, ofUrls urls = .ok r → ∀ steps : List Step, steps.length < 2 ^ 63 →
    (r.run steps).isDown (r.run steps).next.1 → ∀ url ∈ urls, (r.run steps).isDown url

variable {r : Rotation} {urls : List String}

theorem size_eq (r : Rotation) : r.size = r.urls.length := (List.length_map _).symm

theorem room_of_run (h : ofUrls urls = .ok r) (hlength : urls.length < 2 ^ 63) {steps : List Step}
    (hsteps : steps.length < 2 ^ 63) :
    (r.run steps).counter.toNat + (r.run steps).size ≤ 2 ^ 64 := by
  have hcount : steps.count .next ≤ steps.length := List.count_le_length
  have hcounter : (r.run steps).counter.toNat = steps.count .next := by
    rw [counter_run, (ofUrls_ok r h).2, UInt64.zero_add]
    simp [Nat.toUInt64]
    omega
  rw [hcounter, size_eq, urls_run, urls_of_ofUrls r h]
  omega

theorem next_of_up {slot : Slot} (hslot : r.slots[r.counter.toNat]? = some slot)
    (hup : slot.down = false) : r.next.1 = slot.url := by
  obtain ⟨hlt, hget⟩ := List.getElem?_eq_some_iff.1 hslot
  have hturn : r.turn 0 = ⟨r.counter.toNat, hlt⟩ :=
    (r.turn_eq (UInt64.toNat_lt _)).trans (r.slotAt_val ⟨_, hlt⟩)
  have hturned : r.slots.get (r.turn 0) = slot := by
    rw [hturn]
    exact hget
  have hisUp : r.isUp (r.turn 0) := by
    rw [isUp, hturned, hup]
    rfl
  rw [next, pick_of_isUp r hisUp, hturned]

theorem isDown_of_all_down (h : ∀ slot, r.isUp slot = false) {url : String} (hurl : url ∈ r.urls) :
    r.isDown url := by
  unfold isDown
  cases hfind : r.slots.find? (·.url = url) with
  | none => simpa [hfind] using (r.find?_isSome_iff url).2 hurl
  | some found =>
    obtain ⟨slot, hslot⟩ := List.mem_iff_get.1 (List.mem_of_find?_eq_some hfind)
    have hdown : (!(r.slots.get slot).down) = false := h slot
    rw [hslot] at hdown
    simpa using hdown

theorem skipsDown_of_nodup (hlength : urls.length < 2 ^ 63) (hurls : urls.Nodup) :
    SkipsDown urls := by
  intro r hr steps hsteps hdown url hurl
  have hnow : (r.run steps).urls = urls := (urls_run r steps).trans (urls_of_ofUrls r hr)
  have hroom := room_of_run hr hlength hsteps
  generalize r.run steps = now at hdown hnow hroom
  subst hnow
  have hpick : now.isUp now.pick = false := by
    rw [next, isDown_get now hurls] at hdown
    simp [isUp, hdown]
  exact isDown_of_all_down (isUp_of_pick_down now hroom hpick) hurl

theorem run_nexts (r : Rotation) (n : Nat) :
    (r.run (List.replicate n .next)).slots = r.slots := by
  induction n generalizing r with
  | zero => rfl
  | succ n ih =>
    rw [List.replicate_succ, run_cons, ih]
    rfl

def lateTurn (url : String) (turns : Nat) : List Step := .markDown url :: List.replicate turns .next

theorem slots_lateTurn (r : Rotation) (url : String) (turns : Nat) :
    (r.run (lateTurn url turns)).slots = flag url true r.slots := run_nexts _ _

theorem isDown_lateTurn (h : ofUrls urls = .ok r) (url : String) (turns : Nat) {other : String}
    (hother : other ∈ urls) :
    (r.run (lateTurn url turns)).isDown other = if url = other then true else false := by
  have hset := isDown_setDown r (urls_of_ofUrls r h ▸ hother) url true
  rw [isDown_ofUrls r h] at hset
  rw [← hset, isDown, isDown, slots_lateTurn]
  rfl

theorem next_lateTurn (h : ofUrls urls = .ok r) (hlength : urls.length < 2 ^ 63) {url : String}
    {i j : Nat} (hij : i < j) (hi : urls[i]? = some url) (hj : urls[j]? = some url) :
    (r.run (lateTurn url j)).next.1 = url := by
  obtain ⟨hslots, hcounter⟩ := ofUrls_ok r h
  have hlt : j < urls.length := (List.getElem?_eq_some_iff.1 hj).1
  have hturn : (r.run (lateTurn url j)).counter.toNat = j := by
    rw [counter_run, hcounter, UInt64.zero_add]
    simp [lateTurn, Nat.toUInt64]
    omega
  have hfirst : (r.slots[i]?).map (·.url) = some url := by
    rw [hslots, List.getElem?_map, hi]
    rfl
  have hslot : (r.run (lateTurn url j)).slots[(r.run (lateTurn url j)).counter.toNat]? =
      some ⟨url, false⟩ := by
    rw [slots_lateTurn, hturn, getElem?_flag_of_earlier true hij hfirst, hslots, List.getElem?_map,
      hj]
    rfl
  exact next_of_up hslot rfl

/-- A URL that stands in two slots is picked while it is down, and another URL may be up: a flag
keeps only the first of the two from being picked. -/
theorem not_skipsDown_of_duplicate (hlength : urls.length < 2 ^ 63) {url other : String}
    (hurl : List.Duplicate url urls) (hother : other ∈ urls) (hne : other ≠ url) :
    ¬ SkipsDown urls := by
  obtain ⟨⟨i, hi⟩, ⟨j, hj⟩, hij, hfirst, hsecond⟩ := List.duplicate_iff_exists_distinct_get.1 hurl
  intro hskips
  obtain ⟨r, hr⟩ : ∃ r, ofUrls urls = .ok r := by
    cases urls with
    | nil => cases hother
    | cons u us => exact ⟨_, rfl⟩
  have hpicked := next_lateTurn hr hlength hij (List.getElem?_eq_some_iff.2 ⟨hi, hfirst.symm⟩)
    (List.getElem?_eq_some_iff.2 ⟨hj, hsecond.symm⟩)
  have hsteps : (lateTurn url j).length < 2 ^ 63 := by
    simp [lateTurn]
    omega
  have hlast := hskips r hr (lateTurn url j) hsteps
    (by rw [hpicked, isDown_lateTurn hr url j hurl.mem, if_pos rfl]) other hother
  rw [isDown_lateTurn hr url j hother, if_neg hne.symm] at hlast
  cases hlast

/-- **What is down is passed over** while another URL is up exactly when no URL is repeated, or
when there is only one. -/
theorem skipsDown_iff (hlength : urls.length < 2 ^ 63) :
    SkipsDown urls ↔ urls.Nodup ∨ ∀ u ∈ urls, ∀ v ∈ urls, u = v := by
  constructor
  · intro hskips
    by_contra hneither
    rw [not_or] at hneither
    obtain ⟨hnodup, hsame⟩ := hneither
    obtain ⟨url, hurl⟩ := List.exists_duplicate_iff_not_nodup.2 hnodup
    have hother : ∃ other ∈ urls, other ≠ url := by
      by_contra hnone
      push Not at hnone
      exact hsame fun u hu v hv => (hnone u hu).trans (hnone v hv).symm
    obtain ⟨other, hother, hne⟩ := hother
    exact not_skipsDown_of_duplicate hlength hurl hother hne hskips
  · rintro (hnodup | hsame)
    · exact skipsDown_of_nodup hlength hnodup
    · intro r hr steps _ hdown url hurl
      have hnow : (r.run steps).urls = urls := (urls_run r steps).trans (urls_of_ofUrls r hr)
      have hpicked : (r.run steps).next.1 ∈ urls := by
        rw [← hnow]
        exact List.mem_map_of_mem (List.get_mem _ _)
      rwa [hsame url hurl _ hpicked]

/-- One URL in two slots, and another: the first is down, the second slot is picked. -/
theorem skipsDown_iff_two_slots :
    let urls := ["http://a", "http://b", "http://a"]
    urls.length < 2 ^ 63 ∧ (SkipsDown urls ↔ urls.Nodup ∨ ∀ u ∈ urls, ∀ v ∈ urls, u = v) ∧
      ¬ SkipsDown urls := by
  intro urls
  have hlength : urls.length < 2 ^ 63 := by decide
  have hiff := skipsDown_iff hlength
  exact ⟨hlength, hiff, fun hskips => absurd (hiff.1 hskips) (by decide)⟩

/-- Settings do not refuse a repeated URL, and one flag does not keep it from being picked. -/
theorem repeated_url_picked_while_down :
    let urls := ["http://a", "http://a", "http://b"]
    Settings.validate { endpoints := urls } = .ok () ∧
      (∃ r, ofUrls urls = .ok r ∧ (r.run [.markDown "http://a"]).next.1 = "http://a" ∧
        (r.run [.markDown "http://a"]).isDown "http://a" ∧
        (r.run [.markDown "http://a"]).isDown "http://b" = false) ∧
      ¬ SkipsDown urls := by
  intro urls
  let r : Rotation := { slots := urls.map (Slot.mk · false), nonempty := by decide }
  have hr : ofUrls urls = .ok r := rfl
  have hpicked : (r.run [.markDown "http://a"]).next.1 = "http://a" := by decide +kernel
  have hdown : (r.run [.markDown "http://a"]).isDown "http://a" := by decide +kernel
  have hup : (r.run [.markDown "http://a"]).isDown "http://b" = false := by decide +kernel
  refine ⟨by decide +kernel, ⟨r, hr, hpicked, hdown, hup⟩, fun hskips => ?_⟩
  have hlast := hskips r hr [.markDown "http://a"] (by decide) (by rw [hpicked, hdown]) "http://b"
    (by decide)
  rw [hup] at hlast
  cases hlast

end SeriesIngest.Rotation
