import SeriesIngest.Proofs.Schema.Inference

/-! Schemas under more samples. What comes later adds the entries of new names at the end and leaves
all others where they are. Each name space has one entry for a name that is used in it: a tag's is a
tag, and a field's has the type of the first value under that name. -/
namespace SeriesIngest

/-- Whether a sample uses the name of an entry, as a tag or as a field like the entry itself. -/
def Point.mentions (p : Point) (e : SchemaEntry) : Bool :=
  if e.type = .tag then p.tags.names.contains e.name else p.fields.names.contains e.name

namespace Schema

theorem firstOfEach_congr {seen known : Schema}
    (h : ∀ e, seen.any (·.sameName e) = known.any (·.sameName e)) (entries : List SchemaEntry) :
    firstOfEach seen entries = firstOfEach known entries := by
  induction entries generalizing seen known with
  | nil => rfl
  | cons f rest ih =>
    unfold firstOfEach
    rw [h f, ih h]
    congr 2
    apply ih
    intro e
    rw [List.any_cons, List.any_cons, h e]

theorem firstOfEach_middle (before seen : Schema) (f : SchemaEntry) (entries : List SchemaEntry) :
    firstOfEach (before ++ f :: seen) entries = firstOfEach (f :: (before ++ seen)) entries := by
  apply firstOfEach_congr
  intro e
  simp only [List.any_append, List.any_cons]
  exact Bool.or_left_comm _ _ _

theorem firstOfEach_cons_seen {seen : Schema} {f : SchemaEntry} (h : seen.any (·.sameName f))
    (entries : List SchemaEntry) : firstOfEach (f :: seen) entries = firstOfEach seen entries := by
  apply firstOfEach_congr
  intro e
  rw [List.any_cons, Bool.or_eq_right_iff_imp]
  intro hsame
  obtain ⟨g, hg, hgf⟩ := List.any_eq_true.1 h
  exact List.any_eq_true.2 ⟨g, hg, by rw [SchemaEntry.sameName_congr hgf, hsame]⟩

theorem firstOfEach_append (seen : Schema) (entries more : List SchemaEntry) :
    firstOfEach seen (entries ++ more) =
      firstOfEach seen entries ++ firstOfEach (entries ++ seen) more := by
  induction entries generalizing seen with
  | nil => rfl
  | cons f rest ih =>
    rw [List.cons_append, firstOfEach, firstOfEach, List.cons_append]
    by_cases hf : seen.any (·.sameName f)
    · have hlater : (rest ++ seen).any (·.sameName f) := by
        rw [List.any_append, hf, Bool.or_true]
      rw [if_pos hf, if_pos hf, ih, firstOfEach_cons_seen hlater]
    · rw [if_neg hf, if_neg hf, ih, firstOfEach_middle, List.cons_append]

theorem firstOfEach_filter (before seen : Schema) (entries : List SchemaEntry) :
    firstOfEach (before ++ seen) entries =
      (firstOfEach seen entries).filter fun e => !before.any (·.sameName e) := by
  induction entries generalizing seen with
  | nil => rfl
  | cons f rest ih =>
    rw [firstOfEach, firstOfEach, List.any_append]
    by_cases hseen : seen.any (·.sameName f)
    · rw [hseen, Bool.or_true, if_pos rfl, if_pos rfl, ih]
    · rw [if_neg hseen]
      by_cases hbefore : before.any (·.sameName f)
      · -- the entry is new to the list alone, so the filter is what drops it
        have hboth : (before ++ seen).any (·.sameName f) := by
          rw [List.any_append, hbefore, Bool.true_or]
        rw [hbefore, Bool.true_or, if_pos rfl, List.filter_cons_of_neg (by simp [hbefore]), ← ih,
          firstOfEach_middle, firstOfEach_cons_seen hboth]
      · have hneither : ¬ (before.any (·.sameName f) || seen.any (·.sameName f)) := by
          simp [hbefore, hseen]
        rw [if_neg hneither, List.filter_cons_of_pos (by simpa using hbefore), ← ih,
          firstOfEach_middle]

theorem any_entriesOf (p : Point) (e : SchemaEntry) :
    (entriesOf p).any (·.sameName e) = p.mentions e := by
  rw [Bool.eq_iff_iff, entriesOf, List.any_append, List.any_map, List.any_map, Point.mentions]
  by_cases htag : e.type = .tag <;> simp [SchemaEntry.sameName, Entries.names, htag, ofValue_ne_tag]

theorem any_flatMap_entriesOf (points : List Point) (e : SchemaEntry) :
    (points.flatMap entriesOf).any (·.sameName e) = points.any (·.mentions e) := by
  rw [List.any_flatMap]
  simp only [any_entriesOf]

theorem infer_append (xs ys : List Point) :
    infer (xs ++ ys) = infer xs ++ (infer ys).filter fun e => !xs.any (·.mentions e) := by
  rw [infer, List.flatMap_append, firstOfEach_append, firstOfEach_filter]
  simp only [any_flatMap_entriesOf]
  rfl

theorem filter_infer (points : List Point) (e : SchemaEntry) :
    (infer points).filter (·.sameName e) = ((infer points).find? (·.sameName e)).toList := by
  have hcount := countP_infer points e
  rw [List.countP_eq_length_filter] at hcount
  rw [← List.head?_filter]
  cases hentries : (infer points).filter (·.sameName e) with
  | nil => rfl
  | cons f rest =>
    cases rest with
    | nil => rfl
    | cons g rest =>
      rw [hentries] at hcount
      simp only [List.length_cons] at hcount
      split at hcount <;> omega

theorem filter_isTag_infer (points : List Point) (name : String) :
    (infer points).filter (·.isTag name) =
      if points.any (·.mentions ⟨name, .tag⟩) then [⟨name, .tag⟩] else [] := by
  have hcount := countP_infer points ⟨name, .tag⟩
  rw [any_flatMap_entriesOf, List.countP_eq_length_filter] at hcount
  have hmem : ∀ e ∈ (infer points).filter (·.sameName ⟨name, .tag⟩), e = ⟨name, .tag⟩ := by
    rintro ⟨other, type⟩ he
    obtain ⟨hname, htype⟩ := (SchemaEntry.sameName_iff _ _).1 (List.mem_filter.1 he).2
    rw [SchemaEntry.mk.injEq]
    exact ⟨hname, htype.2 rfl⟩
  simp only [SchemaEntry.isTag_eq_sameName]
  rw [List.eq_replicate_of_mem hmem, hcount]
  split <;> rfl

theorem filter_isField_infer (points : List Point) (name : String) :
    (infer points).filter (·.isField name) = ((firstType? points name).map (⟨name, ·⟩)).toList := by
  have hfield : (fun e : SchemaEntry => e.isField name) = (·.sameName ⟨name, .int64⟩) := by
    funext e
    exact e.isField_eq_sameName name (by decide)
  rw [← find?_isField_infer, hfield, filter_infer]

/-- Entries that come with more samples stand behind those of the samples before, one for each name
that is new to its name space. In this, a name of a tag has one entry of that type, and a name of a
field has one, of the type of its first value. -/
theorem infer_grows (xs ys : List Point) :
    infer (xs ++ ys) = infer xs ++ (infer ys).filter (fun e => !xs.any (·.mentions e)) ∧
      (∀ name, (infer xs).filter (·.isTag name) =
        if xs.any (·.mentions ⟨name, .tag⟩) then [⟨name, .tag⟩] else []) ∧
      ∀ name, (infer xs).filter (·.isField name) =
        ((firstType? xs name).map (⟨name, ·⟩)).toList :=
  ⟨infer_append xs ys, filter_isTag_infer xs, filter_isField_infer xs⟩

end Schema
end SeriesIngest
