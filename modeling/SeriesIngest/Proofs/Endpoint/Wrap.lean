import SeriesIngest.Proofs.Endpoint.Skipping
import Mathlib.Data.Fintype.EquivFin

/-! What becomes of the turns when the counter runs over. It goes back to zero after `2 ^ 64`
turns, wherever in the list of slots that is: unless the size divides `2 ^ 64`, the turns jump,
and a round of turns in which they do reaches some slot twice and another one never. -/
namespace SeriesIngest.Rotation

section

variable (r : Rotation)

def jump : Nat := 2 ^ 64 % r.size

/-- After the jump the turns come to a slot again that they came to before it. -/
theorem turn_add_jump {i : Nat} (hbefore : r.counter.toNat + i < 2 ^ 64)
    (hafter : 2 ^ 64 ≤ r.counter.toNat + (i + r.jump)) (hi : i + r.jump < 2 ^ 64) :
    r.turn (i + r.jump) = r.turn i := by
  have hover : (r.counter.toNat + (i + r.jump)) % 2 ^ 64 =
      r.counter.toNat + (i + r.jump) - 2 ^ 64 := by
    rw [Nat.mod_eq_sub_mod hafter, Nat.mod_eq_of_lt (by omega)]
  have hback : r.counter.toNat + i =
      r.counter.toNat + (i + r.jump) - 2 ^ 64 + r.size * (2 ^ 64 / r.size) := by
    have hdiv : r.size * (2 ^ 64 / r.size) + r.jump = 2 ^ 64 := Nat.div_add_mod _ _
    omega
  refine Fin.ext ?_
  rw [r.turn_val hi, r.turn_val (by omega), hover, Nat.mod_eq_of_lt hbefore]
  conv_rhs => rw [hback, Nat.add_mul_mod_self_left]

theorem turn_eq_of_dvd (h : r.size ∣ 2 ^ 64) {i : Nat} (hi : i < 2 ^ 64) :
    r.turn i = r.slotAt (r.counter.toNat + i) :=
  Fin.ext ((r.turn_val hi).trans (Nat.mod_mod_of_dvd _ h))

/-- A round of turns reaches every slot just if there is no jump in it. -/
theorem turns_reach_iff (hsize : r.size < 2 ^ 64) :
    (∀ slot, ∃ i < r.size, r.turn i = slot) ↔
      r.counter.toNat + r.size ≤ 2 ^ 64 ∨ r.size ∣ 2 ^ 64 := by
  have hcounter : r.counter.toNat < 2 ^ 64 := UInt64.toNat_lt _
  constructor
  · intro hreach
    by_contra hneither
    rw [not_or] at hneither
    obtain ⟨hover, hdvd⟩ := hneither
    have hjump : 0 < r.jump := Nat.pos_of_ne_zero fun hzero => hdvd (Nat.dvd_of_mod_eq_zero hzero)
    have hless : r.jump < r.size := Nat.mod_lt _ r.size_pos
    have honto : Function.Surjective fun i : Fin r.size => r.turn i := fun slot =>
      let ⟨i, hi, hturn⟩ := hreach slot
      ⟨⟨i, hi⟩, hturn⟩
    -- the last turn but so many before the counter runs over, or the first one of the round
    let i := 2 ^ 64 - r.counter.toNat - r.jump
    have hsame : r.turn (i + r.jump) = r.turn i :=
      r.turn_add_jump (by omega) (by omega) (by omega)
    have heq := Finite.injective_iff_surjective.2 honto
      (show r.turn (⟨i + r.jump, by omega⟩ : Fin r.size) = r.turn (⟨i, by omega⟩ : Fin r.size)
        from hsame)
    have hval : i + r.jump = i := congrArg Fin.val heq
    omega
  · intro hroom slot
    obtain ⟨i, hi, rfl⟩ := r.exists_slotAt r.counter.toNat slot
    refine ⟨i, hi, ?_⟩
    rcases hroom with hroom | hdvd
    · exact r.turn_eq (by omega)
    · exact r.turn_eq_of_dvd hdvd (by omega)

def only (slot : Nat) : Rotation :=
  { r with
    slots := r.slots.mapIdx fun i s => { s with down := i ≠ slot }
    nonempty := by simpa using r.nonempty }

@[simp] theorem size_only (slot : Nat) : (r.only slot).size = r.size := List.length_mapIdx

@[simp] theorem urls_only (slot : Nat) : (r.only slot).urls = r.urls :=
  List.ext_getElem (by simp [urls, only]) (by simp [urls, only])

theorem isUp_only (slot : Nat) (i : Fin (r.only slot).size) :
    (r.only slot).isUp i = decide (i.val = slot) := by
  have hdown : ((r.only slot).slots.get i).down = decide (i.val ≠ slot) :=
    congrArg Slot.down List.getElem_mapIdx
  rw [isUp, hdown]
  simp

end

/-- However the slots are flagged at that value of the counter, a pick finds one that is up when
there is any. -/
def FindsUp (urls : List String) (counter : UInt64) : Prop :=
  ∀ r : Rotation, r.urls = urls → r.counter = counter → (∃ slot, r.isUp slot) → r.isUp r.pick

variable {urls : List String}

theorem FindsUp.reach {r : Rotation} (h : FindsUp r.urls r.counter) (slot : Fin r.size) :
    ∃ i < r.size, r.turn i = slot := by
  let alone := r.only slot
  have hup : alone.isUp ⟨slot, by rw [size_only]; exact slot.isLt⟩ := by simp [alone, isUp_only]
  have hpick := h alone (r.urls_only slot) rfl ⟨_, hup⟩
  obtain ⟨i, hi, hturn⟩ := alone.exists_turn_eq_pick
  rw [← hturn, isUp_only, decide_eq_true_iff] at hpick
  rw [size_only] at hi
  have hval : (alone.turn i).val = (r.turn i).val :=
    congrArg ((r.counter + i.toUInt64).toNat % ·) (r.size_only slot)
  exact ⟨i, hi, Fin.ext (hval.symm.trans hpick)⟩

/-- **Around the end of the counter** an endpoint that is up is found, whatever flags there are,
exactly when the counter does not run over in that round or the size divides `2 ^ 64`. -/
theorem findsUp_iff (hne : urls ≠ []) (hlength : urls.length < 2 ^ 64) (counter : UInt64) :
    FindsUp urls counter ↔
      counter.toNat + urls.length ≤ 2 ^ 64 ∨ urls.length ∣ 2 ^ 64 := by
  constructor
  · intro hfinds
    let r : Rotation :=
      { slots := urls.map (Slot.mk · false), nonempty := by simpa using hne, counter }
    have hurls : r.urls = urls := by
      rw [Rotation.urls, List.map_map]
      exact List.map_id urls
    rw [← hurls, ← size_eq] at hlength ⊢
    rw [← hurls] at hfinds
    exact (r.turns_reach_iff hlength).1 fun slot => hfinds.reach slot
  · rintro hroom r rfl rfl ⟨slot, hslot⟩
    rw [← size_eq] at hroom hlength
    obtain ⟨i, hi, rfl⟩ := (r.turns_reach_iff hlength).2 hroom slot
    by_contra hdown
    rw [r.turn_down_of_pick_down (by simpa using hdown) hi] at hslot
    cases hslot

/-- Three slots: the last round in which the counter does not run over, and the next one. -/
theorem findsUp_iff_three_slots :
    let urls := ["http://a", "http://b", "http://c"]
    let last : UInt64 := 18446744073709551613
    urls ≠ [] ∧ urls.length < 2 ^ 64 ∧
      (FindsUp urls last ↔ last.toNat + urls.length ≤ 2 ^ 64 ∨ urls.length ∣ 2 ^ 64) ∧
      FindsUp urls last ∧ ¬ FindsUp urls (last + 1) := by
  intro urls last
  have hne : urls ≠ [] := by decide
  have hlength : urls.length < 2 ^ 64 := by decide
  have hlast := findsUp_iff hne hlength last
  have hnext := findsUp_iff hne hlength (last + 1)
  exact ⟨hne, hlength, hlast, hlast.2 (by decide), fun hfinds => absurd (hnext.1 hfinds) (by decide)⟩

def longRun (picks : Nat) : List Step :=
  .markDown "http://a" :: .markDown "http://b" :: List.replicate picks .next

theorem run_longRun (r : Rotation) (picks : Nat) :
    (r.run (longRun picks)).slots = flag "http://b" true (flag "http://a" true r.slots) ∧
      (r.run (longRun picks)).counter = r.counter + picks.toUInt64 := by
  refine ⟨run_nexts _ picks, ?_⟩
  rw [counter_run]
  simp [longRun]

theorem eq_of_slots {r r' : Rotation} (hslots : r.slots = r'.slots)
    (hcounter : r.counter = r'.counter) : r = r' := by
  cases r
  cases r'
  cases hslots
  cases hcounter
  rfl

/-- After `2 ^ 64 - 1` picks it is the turn of the first slot, then of the first slot again and
then of the second. The third one, which is up, has no turn. -/
theorem late_pick_is_down :
    let urls := ["http://a", "http://b", "http://c"]
    let steps := longRun (2 ^ 64 - 1)
    Settings.validate { endpoints := urls } = .ok () ∧
      (∃ r, ofUrls urls = .ok r ∧ (r.run steps).next.1 = "http://a" ∧
        (r.run steps).isDown "http://a" ∧ (r.run steps).isDown "http://c" = false) ∧
      ¬ FindsUp urls 18446744073709551615 := by
  intro urls steps
  let r : Rotation := { slots := urls.map (Slot.mk · false), nonempty := by decide }
  let late : Rotation :=
    { slots := [⟨"http://a", true⟩, ⟨"http://b", true⟩, ⟨"http://c", false⟩]
      nonempty := by decide
      counter := 18446744073709551615 }
  have hlate : r.run steps = late := by
    obtain ⟨hslots, hcounter⟩ := run_longRun r (2 ^ 64 - 1)
    exact eq_of_slots (hslots.trans (by decide +kernel)) (hcounter.trans (by decide +kernel))
  have hpick : late.isUp late.pick = false := by decide +kernel
  refine ⟨by decide +kernel, ⟨r, rfl, ?_⟩, fun hfinds => ?_⟩
  · rw [hlate]
    decide +kernel
  · have hup : late.isUp late.pick := hfinds late rfl rfl ⟨⟨2, by decide⟩, by decide⟩
    rw [hpick] at hup
    cases hup

end SeriesIngest.Rotation
