import SeriesIngest.Proofs.Record.Built
import Mathlib.Algebra.BigOperators.Group.List.Lemmas

/-! Records of mixed samples are an ordered partition of those that have a row. A sample that is
skipped leaves no trace in any record, but it counts for the order of the measurements. -/
namespace SeriesIngest.Record

variable {now : Int64} {points : List Point} {m : String}

def kept (points : List Point) (m : String) : List Point :=
  points.filter fun p => p.measurement = m && p.nanos?.isOk

/-- The measurements with a record, in the order in which they first came, which a sample that is
skipped may have set. -/
def recorded (points : List Point) : List String :=
  (points.map (·.measurement)).eraseDups.filter fun m => m ≠ "" && kept points m ≠ []

theorem isSome_toOption_timeOf (now : Int64) (p : Point) :
    (timeOf now p).toOption.isSome = p.nanos?.isOk := by
  unfold timeOf
  cases p.nanos? <;> rfl

theorem timed_filter_isOk (now : Int64) (points : List Point) :
    timed now (points.filter (·.nanos?.isOk)) = timed now points := by
  unfold timed
  rw [List.filterMap_filter]
  apply List.filterMap_congr
  intro p _
  have hsome := isSome_toOption_timeOf now p
  cases htime : (timeOf now p).toOption with
  | none => simp
  | some t =>
    rw [htime] at hsome
    rw [← hsome]
    rfl

theorem timed_of_isOk (h : ∀ p ∈ points, p.nanos?.isOk) (now : Int64) :
    (timed now points).map (·.1) = points ∧
      points.mapM (timeOf now) = .ok ((timed now points).map (·.2)) := by
  induction points with
  | nil => exact ⟨rfl, rfl⟩
  | cons p points ih =>
    obtain ⟨hpoints, htimes⟩ := ih fun q hq => h q (List.mem_cons_of_mem p hq)
    have hok := h p List.mem_cons_self
    rw [← isSome_toOption_timeOf now] at hok
    cases htime : timeOf now p with
    | error fault => simp [htime, Except.toOption] at hok
    | ok t =>
      have hrow : timed now (p :: points) = (p, t) :: timed now points := by
        simp [timed, htime, Except.toOption]
      rw [hrow, List.map_cons, List.map_cons, hpoints, List.mapM_cons, htime, htimes]
      exact ⟨rfl, rfl⟩

theorem kept_eq_filter (points : List Point) (m : String) :
    kept points m = (points.filter (·.measurement = m)).filter (·.nanos?.isOk) := by
  rw [List.filter_filter]
  apply List.filter_congr
  intro p _
  rw [Bool.and_comm]

theorem timed_kept (now : Int64) (points : List Point) (m : String) :
    timed now (kept points m) = timed now (points.filter (·.measurement = m)) := by
  rw [kept_eq_filter, timed_filter_isOk]

theorem mem_kept {p : Point} :
    p ∈ kept points m ↔ p ∈ points ∧ p.measurement = m ∧ p.nanos?.isOk := by
  simp [kept]

theorem mem_recorded : m ∈ recorded points ↔ m ≠ "" ∧ kept points m ≠ [] := by
  simp only [recorded, List.mem_filter, List.mem_eraseDups, Bool.and_eq_true, decide_eq_true_eq]
  refine ⟨fun h => h.2, fun h => ⟨?_, h⟩⟩
  obtain ⟨p, hp⟩ := List.exists_mem_of_ne_nil _ h.2
  exact List.mem_map.2 ⟨p, (mem_kept.1 hp).1, (mem_kept.1 hp).2.1⟩

theorem timed_kept_rows (now : Int64) (points : List Point) (m : String) :
    (timed now (kept points m)).map (·.1) = kept points m ∧
      (kept points m).mapM (timeOf now) = .ok ((timed now (kept points m)).map (·.2)) :=
  timed_of_isOk (fun _ hp => (mem_kept.1 hp).2.2) now

theorem length_timed_kept (now : Int64) (points : List Point) (m : String) :
    (timed now (kept points m)).length = (kept points m).length := by
  rw [← List.length_map (·.1), (timed_kept_rows now points m).1]

theorem timed_kept_ne_nil (h : kept points m ≠ []) (now : Int64) :
    timed now (kept points m) ≠ [] := by
  rw [← List.length_pos_iff] at h ⊢
  rwa [length_timed_kept]

theorem ofPoints_of_timed (hm : m ≠ "") (h : ∀ p ∈ points, p.measurement = m)
    (hrows : timed now points ≠ []) :
    ofPoints now points = .ok (ofRows m (timed now points)) := by
  cases points with
  | nil => exact absurd rfl hrows
  | cons first rest =>
    obtain rfl := h first List.mem_cons_self
    rw [ofPoints, if_neg hm]
    split
    · rename_i hnone _
      exact absurd hnone hrows
    · rfl

theorem ofPoints_kept (h : m ∈ recorded points) (now : Int64) :
    ofPoints now (kept points m) = .ok (ofRows m (timed now (kept points m))) := by
  obtain ⟨hname, hkept⟩ := mem_recorded.1 h
  exact ofPoints_of_timed hname (fun _ hp => (mem_kept.1 hp).2.1) (timed_kept_ne_nil hkept now)

theorem toOption_ofPoints_filter (points : List Point) (m : String) (now : Int64) :
    (ofPoints now (points.filter (·.measurement = m))).toOption =
      if m ≠ "" && kept points m ≠ [] then some (ofRows m (timed now (kept points m)))
      else none := by
  have hgroup : ∀ p ∈ points.filter (·.measurement = m), p.measurement = m := by simp
  have hrows := timed_kept now points m
  by_cases hrecord : m ≠ "" ∧ kept points m ≠ []
  · have hne := timed_kept_ne_nil hrecord.2 now
    rw [hrows] at hne
    rw [ofPoints_of_timed hrecord.1 hgroup hne, ← hrows, if_pos (by simpa using hrecord)]
    rfl
  · rw [if_neg (by simpa using hrecord)]
    cases hpoints : ofPoints now (points.filter (·.measurement = m)) with
    | error fault => rfl
    | ok r =>
      obtain ⟨first, rest, heq, hname, hne, -⟩ := ofPoints_ok hpoints
      have hfirst := hgroup first (heq ▸ List.mem_cons_self)
      refine absurd ⟨hfirst ▸ hname, ?_⟩ hrecord
      intro hnone
      rw [← hrows, hnone] at hne
      exact hne rfl

theorem all_eq (now : Int64) (points : List Point) :
    all now points = (recorded points).map fun m => ofRows m (timed now (kept points m)) := by
  have hmap (names : List String) : (names.map fun m => ofRows m (timed now (kept points m))) =
      names.filterMap fun m => some (ofRows m (timed now (kept points m))) :=
    (congrFun List.filterMap_eq_map names).symm
  unfold all recorded
  rw [byMeasurement_eq, List.filterMap_map, hmap, List.filterMap_filter]
  exact List.filterMap_congr fun m _ => toOption_ofPoints_filter points m now

theorem all_of_checked {protocol : Protocol} (h : ∀ p ∈ points, protocol.fault? p = none)
    (now : Int64) :
    all now points = (points.map (·.measurement)).eraseDups.map fun m =>
      ofRows m (rowsOf now points m) := by
  have hkept (m : String) : kept points m = points.filter (·.measurement = m) := by
    apply List.filter_congr
    intro p hp
    obtain ⟨-, time, htime⟩ := of_checked (h p hp)
    simp [htime, Except.isOk, Except.toBool]
  have hrecorded : recorded points = (points.map (·.measurement)).eraseDups := by
    rw [recorded, List.filter_eq_self]
    intro m hm
    obtain ⟨p, hp, rfl⟩ := List.mem_map.1 (List.mem_eraseDups.1 hm)
    have hgroup : p ∈ kept points p.measurement := by simp [hkept, hp]
    simp [(of_checked (h p hp)).1, List.ne_nil_of_mem hgroup]
  rw [all_eq, hrecorded]
  apply List.map_congr_left
  intro m _
  rw [hkept, rowsOf, timed_of_checked fun p hp => h p (List.mem_filter.1 hp).1]

/-- An order in which one of two different items beats the other. -/
structure Ranks (beats : α → α → Prop) : Prop where
  asymm : ∀ {a b}, beats a b → ¬ beats b a
  trans : ∀ {a b c}, ¬ beats a b → ¬ beats b c → ¬ beats a c
  total : ∀ {a b}, ¬ beats a b → ¬ beats b a → a = b

theorem ranks_lt : Ranks fun a b : Int64 => a < b where
  asymm h := Int64.lt_asymm h
  trans hab hbc := Int64.not_lt.2 (Int64.le_trans (Int64.not_lt.1 hbc) (Int64.not_lt.1 hab))
  total hab hba := Int64.le_antisymm (Int64.not_lt.1 hba) (Int64.not_lt.1 hab)

theorem Ranks.flip {beats : α → α → Prop} (h : Ranks beats) : Ranks fun a b => beats b a where
  asymm := h.asymm
  trans hab hbc := h.trans hbc hab
  total hab hba := h.total hba hab

theorem Ranks.foldl {beats : α → α → Prop} [DecidableRel beats] (h : Ranks beats)
    (items : List α) (start : α) :
    let best := items.foldl (fun a t => if beats t a then t else a) start
    best ∈ start :: items ∧ ∀ t ∈ start :: items, ¬ beats t best := by
  induction items generalizing start with
  | nil => simpa using fun hself => h.asymm hself hself
  | cons a items ih =>
    obtain ⟨hmem, hbest⟩ := ih (if beats a start then a else start)
    rw [List.foldl_cons]
    dsimp only at hmem hbest ⊢
    have hkept := hbest _ List.mem_cons_self
    have hrest := fun t ht => hbest t (List.mem_cons_of_mem _ ht)
    generalize items.foldl _ _ = best at hmem hkept hrest ⊢
    by_cases hbeats : beats a start
    · rw [if_pos hbeats] at hmem hkept
      have hstart := h.trans (h.asymm hbeats) hkept
      exact ⟨List.mem_cons_of_mem _ hmem,
        List.forall_mem_cons.2 ⟨hstart, List.forall_mem_cons.2 ⟨hkept, hrest⟩⟩⟩
    · rw [if_neg hbeats] at hmem hkept
      have ha := h.trans hbeats hkept
      refine ⟨?_, List.forall_mem_cons.2 ⟨hkept, List.forall_mem_cons.2 ⟨ha, hrest⟩⟩⟩
      rcases List.mem_cons.1 hmem with hmem | hmem
      · exact hmem ▸ List.mem_cons_self
      · exact List.mem_cons_of_mem _ (List.mem_cons_of_mem _ hmem)

theorem Ranks.foldl_of_ne_nil {beats : α → α → Prop} [DecidableRel beats] (h : Ranks beats)
    {items : List α} (hne : items ≠ []) {start : α} (hstart : ∀ t, ¬ beats start t) :
    let best := items.foldl (fun a t => if beats t a then t else a) start
    best ∈ items ∧ ∀ t ∈ items, ¬ beats t best := by
  obtain ⟨hmem, hbest⟩ := h.foldl items start
  dsimp only at hmem hbest ⊢
  generalize items.foldl _ start = best at hmem hbest ⊢
  have hitems := fun t ht => hbest t (List.mem_cons_of_mem _ ht)
  refine ⟨?_, hitems⟩
  rcases List.mem_cons.1 hmem with rfl | hmem
  · obtain ⟨t, ht⟩ := List.exists_mem_of_ne_nil items hne
    exact h.total (hstart t) (hitems t ht) ▸ ht
  · exact hmem

theorem minTime_ofRows (m : String) {rows : List (Point × Int64)} (h : rows ≠ []) :
    (ofRows m rows).minTime ∈ rows.map (·.2) ∧
      ∀ t ∈ rows.map (·.2), (ofRows m rows).minTime ≤ t := by
  have hne : rows.map (·.2) ≠ [] := by simpa using h
  obtain ⟨hmem, hbest⟩ := ranks_lt.foldl_of_ne_nil hne fun t => Int64.not_lt.2 t.le_maxValue
  exact ⟨hmem, fun t ht => Int64.not_lt.1 (hbest t ht)⟩

theorem maxTime_ofRows (m : String) {rows : List (Point × Int64)} (h : rows ≠ []) :
    (ofRows m rows).maxTime ∈ rows.map (·.2) ∧
      ∀ t ∈ rows.map (·.2), t ≤ (ofRows m rows).maxTime := by
  have hne : rows.map (·.2) ≠ [] := by simpa using h
  obtain ⟨hmem, hbest⟩ := ranks_lt.flip.foldl_of_ne_nil hne fun t => Int64.not_lt.2 t.minValue_le
  exact ⟨hmem, fun t ht => Int64.not_lt.1 (hbest t ht)⟩

/-- What a record owes to the samples that it is made of, given their times. -/
structure MadeOf (now : Int64) (points : List Point) (times : List Int64) (r : Record) : Prop where
  built : ofPoints now points = .ok r
  scaled : points.mapM (timeOf now) = .ok times
  entry : r.schema.getLast? = some timeEntry
  column : ∃ c, r.columns.getLast? = some c ∧ c.ints = times.map some ∧ c.nulls = 0
  least : r.minTime ∈ times ∧ ∀ t ∈ times, r.minTime ≤ t
  greatest : r.maxTime ∈ times ∧ ∀ t ∈ times, t ≤ r.maxTime

theorem madeOf_kept (h : m ∈ recorded points) (now : Int64) :
    MadeOf now (kept points m) ((timed now (kept points m)).map (·.2))
      (ofRows m (timed now (kept points m))) := by
  have hne := timed_kept_ne_nil (mem_recorded.1 h).2 now
  refine ⟨ofPoints_kept h now, (timed_kept_rows now points m).2, by simp [ofRows], ?_,
    minTime_ofRows m hne, maxTime_ofRows m hne⟩
  generalize timed now (kept points m) = rows
  rw [columns_ofRows, List.getLast?_concat]
  refine ⟨_, rfl, ?_, ?_⟩
  · have htimes : (rows.map fun row => Column.Push.int row.2) =
        ((rows.map (·.2)).map some).map Column.intPush := by
      simp only [List.map_map]
      rfl
    rw [htimes, Column.ints_ofPushes]
  · rw [(Column.represents_ofPushes _).nulls, List.count_eq_zero]
    simp [Column.Push.isPresent]

theorem rowCount_ofRows (m : String) (rows : List (Point × Int64)) :
    (ofRows m rows).rowCount = rows.length := by
  rw [rowCount, columns_ofRows, List.getLast?_concat, Option.map_some, Option.getD_some,
    (Column.represents_ofPushes _).rows, List.length_map, List.length_map]

def rowNames (points : List Point) : List String :=
  (points.filter fun p => p.measurement ≠ "" && p.nanos?.isOk).map (·.measurement)

theorem sum_length_kept (points : List Point) :
    ((recorded points).map fun m => (kept points m).length).sum =
      points.countP fun p => p.measurement ≠ "" && p.nanos?.isOk := by
  have hperm : (recorded points).Perm (rowNames points).dedup := by
    have hnodup : (recorded points).Nodup := (Groups.nodup_eraseDups _).filter _
    rw [List.perm_ext_iff_of_nodup hnodup (List.nodup_dedup _)]
    intro m
    rw [mem_recorded, List.mem_dedup, rowNames, List.mem_map]
    constructor
    · rintro ⟨hm, hkept⟩
      obtain ⟨p, hrow⟩ := List.exists_mem_of_ne_nil _ hkept
      obtain ⟨hp, rfl, htime⟩ := mem_kept.1 hrow
      exact ⟨p, List.mem_filter.2 ⟨hp, by simp [hm, htime]⟩, rfl⟩
    · rintro ⟨p, hp, rfl⟩
      obtain ⟨hp, hrow⟩ := List.mem_filter.1 hp
      simp only [Bool.and_eq_true, decide_eq_true_eq] at hrow
      exact ⟨hrow.1, List.ne_nil_of_mem (mem_kept.2 ⟨hp, rfl, hrow.2⟩)⟩
  have hcount : ∀ m ∈ recorded points, (kept points m).length = (rowNames points).count m := by
    intro m hm
    have hname := (mem_recorded.1 hm).1
    rw [kept, rowNames, List.count_eq_countP, List.countP_map, List.countP_filter,
      ← List.countP_eq_length_filter]
    apply List.countP_congr
    intro p _
    by_cases hp : p.measurement = m <;> simp [hp, hname]
  -- the names of the rows, each counted as often as it comes
  calc ((recorded points).map fun m => (kept points m).length).sum
      = ((recorded points).map (rowNames points).count).sum := by rw [List.map_congr_left hcount]
    _ = ((rowNames points).dedup.map (rowNames points).count).sum := (hperm.map _).sum_eq
    _ = (rowNames points).length := List.sum_map_count_dedup_eq_length _
    _ = _ := by rw [rowNames, List.length_map, List.countP_eq_length_filter]

theorem sum_rowCount_all (now : Int64) (points : List Point) :
    ((all now points).map rowCount).sum =
      points.countP fun p => p.measurement ≠ "" && p.nanos?.isOk := by
  rw [all_eq, List.map_map, ← sum_length_kept]
  congr 2
  funext m
  rw [Function.comp_apply, rowCount_ofRows, length_timed_kept]

/-- **Ordered partition.** Each measurement with a name and a sample whose time does not overflow
has one record, in the order in which the measurements came. It is the record of exactly those
samples: the others might as well not have been there. No row is lost. -/
theorem all_partition (now : Int64) (points : List Point) :
    List.Forall₂ (fun m r => r.measurement = m ∧ ∃ times, MadeOf now (kept points m) times r)
        (recorded points) (all now points) ∧
      ((all now points).map rowCount).sum =
        points.countP fun p => p.measurement ≠ "" && p.nanos?.isOk := by
  refine ⟨?_, sum_rowCount_all now points⟩
  rw [all_eq, List.forall₂_map_right_iff]
  exact List.forall₂_same.2 fun m hm => ⟨rfl, _, madeOf_kept hm now⟩

end SeriesIngest.Record
