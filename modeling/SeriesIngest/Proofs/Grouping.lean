import SeriesIngest.Grouping
import Mathlib.Data.List.Basic
import Mathlib.Data.List.Induction
import Mathlib.Tactic.ByContra

/-! What grouping keeps. Groups are the stable partition of the items by their keys, and the
group numbers lead back to the items in the order in which they came. -/
namespace SeriesIngest.Groups

variable [DecidableEq κ]

theorem ofList_concat (entries : List (κ × α)) (key : κ) (item : α) :
    ofList (entries ++ [(key, item)]) =
      ((place key item (ofList entries).1).1,
        (ofList entries).2 ++ [(place key item (ofList entries).1).2]) := by
  simp [ofList]

def itemsOf (entries : List (κ × α)) (key : κ) : List α :=
  (entries.filter (·.1 = key)).map (·.2)

theorem itemsOf_concat (entries : List (κ × α)) (key k : κ) (item : α) :
    itemsOf (entries ++ [(key, item)]) k =
      itemsOf entries k ++ if key = k then [item] else [] := by
  by_cases h : key = k <;> simp [itemsOf, List.filter_append, h]

theorem place_map (keys : List κ) (items : κ → List α) (key : κ) (item : α)
    (hnodup : keys.Nodup) :
    (place key item (keys.map fun k => (k, items k))).1 =
      if key ∈ keys then keys.map fun k => (k, items k ++ if key = k then [item] else [])
      else keys.map (fun k => (k, items k)) ++ [(key, [item])] := by
  induction keys with
  | nil => rfl
  | cons k rest ih =>
    obtain ⟨hk, hrest⟩ := List.nodup_cons.1 hnodup
    by_cases h : k = key
    · subst h
      have hmap : rest.map (fun j => (j, items j ++ if k = j then [item] else [])) =
          rest.map fun j => (j, items j) := by
        apply List.map_congr_left
        intro j hj
        have hne : k ≠ j := fun he => hk (he ▸ hj)
        simp [hne]
      simp [place, hmap]
    · have h' : key ≠ k := Ne.symm h
      simp only [List.map_cons, place, h, if_false, ih hrest]
      by_cases hm : key ∈ rest <;> simp [hm, h']

theorem nodup_eraseDups (keys : List κ) : keys.eraseDups.Nodup := by
  cases keys with
  | nil => simp
  | cons key rest =>
    rw [List.eraseDups_cons, List.nodup_cons]
    exact ⟨by simp, nodup_eraseDups _⟩
termination_by keys.length
decreasing_by
  have h := List.length_filter_le (fun k => !k == key) rest
  simp only [List.length_cons]
  omega

theorem eraseDups_concat (keys : List κ) (key : κ) :
    (keys ++ [key]).eraseDups =
      if key ∈ keys then keys.eraseDups else keys.eraseDups ++ [key] := by
  rw [List.eraseDups_append]
  by_cases h : key ∈ keys <;> simp [List.removeAll, List.eraseDups_cons, h]

/-- Groups stand in the order of the first appearance of their keys, each with the items
of its key in the order in which they came. -/
theorem ofList_groups (entries : List (κ × α)) :
    (ofList entries).1 =
      (entries.map (·.1)).eraseDups.map fun k => (k, itemsOf entries k) := by
  induction entries using List.reverseRecOn with
  | nil => rfl
  | append_singleton entries e ih =>
    obtain ⟨key, item⟩ := e
    rw [ofList_concat, ih, place_map _ _ _ _ (nodup_eraseDups _), List.map_append,
      List.map_singleton, eraseDups_concat]
    simp only [List.mem_eraseDups, itemsOf_concat]
    by_cases hm : key ∈ entries.map (·.1)
    · simp only [hm, if_true]
    · simp only [hm, if_false, List.map_append, List.map_singleton, if_true]
      congr 1
      · apply List.map_congr_left
        intro k hk
        have hne : key ≠ k := fun he => hm (he ▸ List.mem_eraseDups.1 hk)
        simp [hne]
      · have hnone : itemsOf entries key = [] := by
          simp only [itemsOf, List.map_eq_nil_iff, List.filter_eq_nil_iff]
          intro x hx he
          exact hm (of_decide_eq_true he ▸ List.mem_map_of_mem hx)
        simp [hnone]

theorem place_number (groups : Groups κ α) (key : κ) (item : α) :
    (place key item groups).2 = (groups.map (·.1)).idxOf key := by
  induction groups with
  | nil => rfl
  | cons group rest ih =>
    by_cases h : group.1 = key <;> simp [place, h, ih]

theorem idxOf_eraseDups_concat (keys : List κ) {key k : κ} (h : k ∈ keys ∨ k = key) :
    (keys ++ [key]).eraseDups.idxOf k = keys.eraseDups.idxOf k := by
  rw [eraseDups_concat]
  split
  · rfl
  · next hnew =>
    by_cases hk : k ∈ keys
    · exact List.idxOf_append_of_mem (List.mem_eraseDups.2 hk)
    · obtain rfl : k = key := h.resolve_left hk
      have hout : k ∉ keys.eraseDups := fun hin => hk (List.mem_eraseDups.1 hin)
      rw [List.idxOf_append_of_notMem hout, List.idxOf_of_notMem hout]
      simp

theorem ofList_keys (entries : List (κ × α)) :
    (ofList entries).1.map (·.1) = (entries.map (·.1)).eraseDups := by
  rw [ofList_groups, List.map_map]
  exact List.map_id _

/-- The number of an item's group is the place of its key among the groups. -/
theorem ofList_order (entries : List (κ × α)) :
    (ofList entries).2 = entries.map fun e => (entries.map (·.1)).eraseDups.idxOf e.1 := by
  induction entries using List.reverseRecOn with
  | nil => rfl
  | append_singleton entries e ih =>
    obtain ⟨key, item⟩ := e
    rw [ofList_concat, ih, place_number, ofList_keys, List.map_append, List.map_append]
    simp only [List.map_cons, List.map_nil]
    rw [idxOf_eraseDups_concat _ (.inr rfl)]
    congr 1
    apply List.map_congr_left
    intro e he
    exact (idxOf_eraseDups_concat _ (.inl (List.mem_map_of_mem he))).symm

def itemsAt (groups : List (List α)) (i : Nat) : List α := groups[i]?.getD []

def Balanced (groups : List (List α)) (order : List Nat) : Prop :=
  ∀ i, order.count i = (itemsAt groups i).length

def Grown (groups grown : List (List α)) (i : Nat) (item : α) : Prop :=
  ∀ j, itemsAt grown j = itemsAt groups j ++ if j = i then [item] else []

theorem place_grown (groups : Groups κ α) (key : κ) (item : α) :
    Grown (groups.map (·.2)) ((place key item groups).1.map (·.2)) (place key item groups).2
      item := by
  induction groups with
  | nil => intro j; cases j <;> simp [place, itemsAt]
  | cons group rest ih =>
    intro j
    by_cases h : group.1 = key
    · cases j <;> simp [place, itemsAt, h]
    · cases j with
      | zero => simp [place, itemsAt, h]
      | succ j => simpa [place, itemsAt, h] using ih j

theorem Balanced.grow {groups grown : List (List α)} {order : List Nat} {i : Nat} {item : α}
    (h : Balanced groups order) (hg : Grown groups grown i item) :
    Balanced grown (order ++ [i]) := by
  intro j
  rw [List.count_append, h j, hg j, List.length_append]
  by_cases hj : j = i
  · simp [hj]
  · simp [hj, Ne.symm hj]

theorem itemsAt_set {groups : List (List α)} {i : Nat} {item : α} {rest : List α}
    (h : itemsAt groups i = item :: rest) (j : Nat) :
    itemsAt (groups.set i rest) j = if j = i then rest else itemsAt groups j := by
  have hlt : i < groups.length := by
    by_contra hge
    simp [itemsAt, List.getElem?_eq_none (Nat.le_of_not_lt hge)] at h
  by_cases hj : j = i
  · simp [itemsAt, hj, hlt]
  · simp [itemsAt, hj, List.getElem?_set_ne (Ne.symm hj)]

theorem merge_cons {groups : List (List α)} {i : Nat} {item : α} {rest : List α}
    (h : itemsAt groups i = item :: rest) (order : List Nat) :
    merge groups (i :: order) = item :: merge (groups.set i rest) order := by
  cases hi : groups[i]? with
  | none => simp [itemsAt, hi] at h
  | some items =>
    have hitems : items = item :: rest := by simpa [itemsAt, hi] using h
    simp [merge, hi, hitems]

theorem merge_grown {groups grown : List (List α)} {order : List Nat} {i : Nat} {item : α}
    (hb : Balanced groups order) (hg : Grown groups grown i item) :
    merge grown (order ++ [i]) = merge groups order ++ [item] := by
  induction order generalizing groups grown with
  | nil =>
    have hnone : itemsAt groups i = [] := List.length_eq_zero_iff.1 (by rw [← hb i]; rfl)
    have hlast : itemsAt grown i = [item] := by simp [hg i, hnone]
    rw [List.nil_append, merge_cons hlast]
    rfl
  | cons k order ih =>
    have hpos : 0 < (itemsAt groups k).length := by rw [← hb k]; simp
    obtain ⟨first, rest, hk⟩ := List.exists_cons_of_length_pos hpos
    have hk' : itemsAt grown k = first :: (rest ++ if k = i then [item] else []) := by
      simp [hg k, hk]
    rw [List.cons_append, merge_cons hk', merge_cons hk, List.cons_append]
    congr 1
    -- the group that the first number names has one item less on both sides
    apply ih
    · intro j
      have hj := hb j
      rw [itemsAt_set hk]
      by_cases he : j = k
      · subst he
        simp only [List.count_cons_self, hk, List.length_cons] at hj
        simp only [if_true]
        omega
      · rw [List.count_cons_of_ne (Ne.symm he)] at hj
        simp only [he, if_false, hj]
    · intro j
      rw [itemsAt_set hk', itemsAt_set hk, hg j]
      by_cases he : j = k <;> simp [he]

/-- The group numbers undo the grouping. -/
theorem merge_ofList (entries : List (κ × α)) :
    merge ((ofList entries).1.map (·.2)) (ofList entries).2 = entries.map (·.2) := by
  suffices h : Balanced ((ofList entries).1.map (·.2)) (ofList entries).2 ∧
      merge ((ofList entries).1.map (·.2)) (ofList entries).2 = entries.map (·.2) from h.2
  induction entries using List.reverseRecOn with
  | nil => exact ⟨fun i => by simp [ofList, itemsAt], rfl⟩
  | append_singleton entries e ih =>
    obtain ⟨key, item⟩ := e
    obtain ⟨hb, hm⟩ := ih
    have hg := place_grown (ofList entries).1 key item
    rw [ofList_concat]
    exact ⟨hb.grow hg, by rw [merge_grown hb hg, hm]; simp⟩

end SeriesIngest.Groups
