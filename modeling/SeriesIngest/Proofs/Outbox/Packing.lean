import SeriesIngest.Outbox.Parcel
import SeriesIngest.Proofs.Grouping
import Mathlib.Data.List.Forall2

/-! How entries are packed. Their parcels are a stable partition of them by destination, which
the recorded order undoes. -/
namespace SeriesIngest

theorem Parcel.unpack_pack (entries : List Entry) :
    Parcel.unpack (Entry.pack entries).1 (Entry.pack entries).2 = entries.map (·.point) := by
  unfold Parcel.unpack Entry.pack
  rw [Groups.merge_ofList, List.map_map]
  rfl

def Entry.pointsTo (entries : List Entry) (destination : Destination) : List Point :=
  (entries.filter (·.destination = destination)).map (·.point)

theorem Entry.pack_parcels (entries : List Entry) :
    (Entry.pack entries).1 =
      (entries.map (·.destination)).eraseDups.map fun d => (d, Entry.pointsTo entries d) := by
  unfold Entry.pack
  rw [Groups.ofList_groups, List.map_map]
  apply List.map_congr_left
  intro d _
  simp [Groups.itemsOf, Entry.pointsTo, List.filter_map, Function.comp_def]

theorem Entry.pack_destinations (entries : List Entry) :
    (Entry.pack entries).1.map (·.1) = (entries.map (·.destination)).eraseDups := by
  unfold Entry.pack
  rw [Groups.ofList_keys, List.map_map]
  rfl

theorem Entry.pointsTo_ne_nil {entries : List Entry} {e : Entry} (h : e ∈ entries) :
    Entry.pointsTo entries e.destination ≠ [] := by
  have hpoint : e.point ∈ Entry.pointsTo entries e.destination := by
    simp only [Entry.pointsTo, List.mem_map, List.mem_filter, decide_eq_true_eq]
    exact ⟨e, ⟨h, rfl⟩, rfl⟩
  exact List.ne_nil_of_mem hpoint

theorem Entry.pack_nonempty (entries : List Entry) :
    ∀ parcel ∈ (Entry.pack entries).1, parcel.2 ≠ [] := by
  intro parcel hparcel
  rw [Entry.pack_parcels, List.mem_map] at hparcel
  obtain ⟨destination, hdestination, rfl⟩ := hparcel
  obtain ⟨e, he, rfl⟩ := List.mem_map.1 (List.mem_eraseDups.1 hdestination)
  exact Entry.pointsTo_ne_nil he

theorem Entry.pack_order (entries : List Entry) :
    List.Forall₂ (fun e i => (Entry.pack entries).1[i]?.map (·.1) = some e.destination)
      entries (Entry.pack entries).2 := by
  have horder : (Entry.pack entries).2 =
      entries.map fun e => (entries.map (·.destination)).eraseDups.idxOf e.destination := by
    unfold Entry.pack
    rw [Groups.ofList_order, List.map_map, List.map_map]
    rfl
  rw [horder, List.forall₂_map_right_iff, List.forall₂_same]
  intro e he
  rw [← List.getElem?_map, Entry.pack_destinations]
  exact List.getElem?_idxOf (List.mem_eraseDups.2 (List.mem_map_of_mem he))

/-- Parcels that are the entries parted by their destinations, and an order that undoes it. -/
structure Parcel.Partition (entries : List Entry) (parcels : List Parcel) (order : List Nat) :
    Prop where
  distinct : (parcels.map (·.1)).Nodup
  firstCome : parcels.map (·.1) = (entries.map (·.destination)).eraseDups
  nonempty : ∀ parcel ∈ parcels, parcel.2 ≠ []
  stable : ∀ parcel ∈ parcels, parcel.2 = Entry.pointsTo entries parcel.1
  numbered : List.Forall₂ (fun e i => parcels[i]?.map (·.1) = some e.destination) entries order
  undone : Parcel.unpack parcels order = entries.map (·.point)

/-- **Packing parts by destination and can be undone.** Different parcels go to different
destinations, which stand in the order in which they first came. None is empty, and each has
the samples of its destination in their order. For each entry there is one number, that of the
parcel to its own destination; along these numbers all samples come back as they arrived. -/
theorem Entry.pack_partition (entries : List Entry) :
    Parcel.Partition entries (Entry.pack entries).1 (Entry.pack entries).2 where
  distinct := by
    rw [Entry.pack_destinations]
    exact Groups.nodup_eraseDups _
  firstCome := Entry.pack_destinations entries
  nonempty := Entry.pack_nonempty entries
  stable := by
    intro parcel hparcel
    rw [Entry.pack_parcels, List.mem_map] at hparcel
    obtain ⟨destination, -, rfl⟩ := hparcel
    rfl
  numbered := Entry.pack_order entries
  undone := Parcel.unpack_pack entries

/-- Two destinations that share a text are kept apart. -/
example :
    let first : Destination := ⟨"a/b", "c"⟩
    let second : Destination := ⟨"a", "b/c"⟩
    first.text = second.text ∧
      Entry.pack [⟨{ measurement := "m" }, first⟩, ⟨{ measurement := "n" }, second⟩] =
        ([(first, [{ measurement := "m" }]), (second, [{ measurement := "n" }])], [0, 1]) := by
  decide +kernel

end SeriesIngest
