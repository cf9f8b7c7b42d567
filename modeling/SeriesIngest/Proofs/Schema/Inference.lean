import SeriesIngest.Schema
import Mathlib.Data.List.Nodup

/-! Inferred schemas. Among the names that samples use, tags and fields apart, each has one
entry, and the first use of a name gives the entry its type. -/
namespace SeriesIngest

def Point.use? (p : Point) (name : String) : Option SchemaEntry :=
  ((p.tag? name).map fun _ => ⟨name, .tag⟩).or ((p.field? name).map fun v => ⟨name, .ofValue v⟩)

theorem Point.use?_field {p : Point} {name : String} {e : SchemaEntry} (h : p.use? name = some e)
    (htype : e.type ≠ .tag) :
    p.tag? name = none ∧ ∃ v, p.field? name = some v ∧ e = ⟨name, .ofValue v⟩ := by
  unfold use? at h
  cases htag : p.tag? name with
  | some text =>
    rw [htag] at h
    cases h
    exact absurd rfl htype
  | none =>
    rw [htag, Option.map_none, Option.none_or] at h
    obtain ⟨v, hv, rfl⟩ := Option.map_eq_some_iff.1 h
    exact ⟨rfl, v, hv, rfl⟩

namespace SchemaEntry

def isTag (e : SchemaEntry) (name : String) : Bool := e.name = name && e.type = .tag

def isField (e : SchemaEntry) (name : String) : Bool := e.name = name && e.type ≠ .tag

theorem sameName_iff (e f : SchemaEntry) :
    e.sameName f = true ↔ e.name = f.name ∧ (e.type = .tag ↔ f.type = .tag) := by
  simp [sameName]

theorem sameName_comm (e f : SchemaEntry) : e.sameName f = f.sameName e := by
  rw [Bool.eq_iff_iff, sameName_iff, sameName_iff, eq_comm, iff_comm (a := e.type = .tag)]

theorem sameName_congr {e f : SchemaEntry} (h : e.sameName f) (g : SchemaEntry) :
    e.sameName g = f.sameName g := by
  obtain ⟨hname, htag⟩ := (sameName_iff e f).1 h
  rw [Bool.eq_iff_iff, sameName_iff, sameName_iff, hname, htag]

theorem isTag_eq_sameName (e : SchemaEntry) (name : String) :
    e.isTag name = e.sameName ⟨name, .tag⟩ := by
  rw [Bool.eq_iff_iff, sameName_iff]
  simp [isTag]

theorem isField_eq_sameName (e : SchemaEntry) (name : String) {type : ColumnType}
    (h : type ≠ .tag) : e.isField name = e.sameName ⟨name, type⟩ := by
  rw [Bool.eq_iff_iff, sameName_iff]
  simp [isField, h]

end SchemaEntry

namespace Schema

/-- A name that came before is dropped, and every other has one entry. -/
theorem countP_firstOfEach (seen : Schema) (entries : List SchemaEntry) (e : SchemaEntry) :
    (firstOfEach seen entries).countP (·.sameName e) =
      if seen.any (·.sameName e) then 0 else if entries.any (·.sameName e) then 1 else 0 := by
  induction entries generalizing seen with
  | nil => simp [firstOfEach]
  | cons f rest ih =>
    unfold firstOfEach
    by_cases hf : seen.any (·.sameName f)
    · rw [if_pos hf, ih]
      by_cases he : f.sameName e
      · have hseen : seen.any (·.sameName e) := by
          obtain ⟨g, hg, hgf⟩ := List.any_eq_true.1 hf
          exact List.any_eq_true.2 ⟨g, hg, by rw [SchemaEntry.sameName_congr hgf, he]⟩
        simp [hseen]
      · simp [he]
    · rw [if_neg hf, List.countP_cons, ih, List.any_cons]
      by_cases he : f.sameName e
      · have hseen : seen.any (·.sameName e) = false := by
          have hsame : (fun g : SchemaEntry => g.sameName e) = (·.sameName f) := by
            funext g
            rw [g.sameName_comm e, ← SchemaEntry.sameName_congr he, f.sameName_comm]
          rw [hsame]
          simpa using hf
        simp [he, hseen]
      · simp [he]

theorem find?_firstOfEach (seen : Schema) (entries : List SchemaEntry) {wanted : SchemaEntry → Bool}
    (hwanted : ∀ e f, e.sameName f → wanted e = wanted f) (h : seen.any wanted = false) :
    (firstOfEach seen entries).find? wanted = entries.find? wanted := by
  induction entries generalizing seen with
  | nil => rfl
  | cons f rest ih =>
    unfold firstOfEach
    by_cases hf : seen.any (·.sameName f)
    · have he : wanted f = false := by
        obtain ⟨g, hg, hgf⟩ := List.any_eq_true.1 hf
        rw [← hwanted g f hgf]
        simpa using List.any_eq_false.1 h g hg
      rw [if_pos hf, ih seen h, List.find?_cons, he]
    · rw [if_neg hf, List.find?_cons, List.find?_cons]
      cases he : wanted f with
      | true => rfl
      | false => exact ih (f :: seen) (by rw [List.any_cons, he, h]; rfl)

theorem find?_of_mem {seen : Schema} {entries : List SchemaEntry} {e : SchemaEntry}
    (h : e ∈ firstOfEach seen entries) :
    seen.any (·.sameName e) = false ∧
      (firstOfEach seen entries).find? (·.sameName e) = some e := by
  induction entries generalizing seen with
  | nil => simp [firstOfEach] at h
  | cons f rest ih =>
    unfold firstOfEach at h ⊢
    by_cases hf : seen.any (·.sameName f)
    · rw [if_pos hf] at h ⊢
      exact ih h
    · rw [if_neg hf] at h ⊢
      rcases List.mem_cons.1 h with rfl | hrest
      · have hself : e.sameName e := (SchemaEntry.sameName_iff e e).2 ⟨rfl, Iff.rfl⟩
        exact ⟨by simpa using hf, by rw [List.find?_cons, hself]⟩
      · obtain ⟨hseen, hfind⟩ := ih hrest
        rw [List.any_cons, Bool.or_eq_false_iff] at hseen
        exact ⟨hseen.2, by rw [List.find?_cons, hseen.1, hfind]⟩

/-- The first use of a name among some samples, be it as a tag or as a field. -/
def firstUse? (points : List Point) (name : String) : Option SchemaEntry :=
  points.findSome? (·.use? name)

def firstType? (points : List Point) (name : String) : Option ColumnType :=
  ((points.flatMap (·.fields)).find? (·.1 = name)).map (.ofValue ·.2)

theorem ofValue_ne_tag (v : Value) : ColumnType.ofValue v ≠ .tag := by
  cases v <;> simp [ColumnType.ofValue]

theorem find?_entriesOf (p : Point) (name : String) :
    (entriesOf p).find? (·.isField name) =
      (p.fields.find? (·.1 = name)).map fun f => ⟨f.1, .ofValue f.2⟩ := by
  have htags : (p.tags.map fun t => (⟨t.1, .tag⟩ : SchemaEntry)).find? (·.isField name) = none := by
    simp [List.find?_eq_none, SchemaEntry.isField]
  have hfields : (fun e : SchemaEntry => e.isField name) ∘
      (fun f : String × Value => ⟨f.1, .ofValue f.2⟩) = fun f => decide (f.1 = name) := by
    funext f
    simp [SchemaEntry.isField, ofValue_ne_tag]
  rw [entriesOf, List.find?_append, htags, Option.none_or, List.find?_map, hfields]

theorem find?_flatMap_entriesOf (points : List Point) (name : String) :
    (points.flatMap entriesOf).find? (·.isField name) =
      ((points.flatMap (·.fields)).find? (·.1 = name)).map fun f => ⟨f.1, .ofValue f.2⟩ := by
  rw [List.find?_flatMap, List.find?_flatMap, List.map_findSome?]
  simp only [find?_entriesOf]
  rfl

theorem find?_name_map (entries : Entries α) (name : String) (type : α → ColumnType) :
    (entries.map fun e => (⟨e.1, type e.2⟩ : SchemaEntry)).find? (·.name = name) =
      (entries.get? name).map fun v => ⟨name, type v⟩ := by
  have hname : (fun e : SchemaEntry => decide (e.name = name)) ∘
      (fun e : String × α => ⟨e.1, type e.2⟩) = fun e => decide (e.1 = name) := rfl
  rw [List.find?_map, hname, Entries.find?_name, Option.map_map]
  rfl

theorem find?_name_entriesOf (p : Point) (name : String) :
    (entriesOf p).find? (·.name = name) = p.use? name := by
  have htags := find?_name_map p.tags name fun _ => .tag
  have hfields := find?_name_map p.fields name .ofValue
  rw [entriesOf, List.find?_append, htags, hfields]
  rfl

theorem countP_infer (points : List Point) (e : SchemaEntry) :
    (infer points).countP (·.sameName e) =
      if (points.flatMap entriesOf).any (·.sameName e) then 1 else 0 := by
  unfold infer
  rw [countP_firstOfEach]
  simp

theorem find?_infer (points : List Point) {wanted : SchemaEntry → Bool}
    (hwanted : ∀ e f, e.sameName f → wanted e = wanted f) :
    (infer points).find? wanted = (points.flatMap entriesOf).find? wanted :=
  find?_firstOfEach [] _ hwanted rfl

theorem find?_name_infer (points : List Point) (name : String) :
    (infer points).find? (·.name = name) = firstUse? points name := by
  have hwanted (e f : SchemaEntry) (h : e.sameName f) :
      decide (e.name = name) = decide (f.name = name) := by
    rw [((SchemaEntry.sameName_iff e f).1 h).1]
  rw [find?_infer points hwanted, List.find?_flatMap, firstUse?]
  simp only [find?_name_entriesOf]

theorem mem_infer_of_firstUse? {points : List Point} {name : String} {e : SchemaEntry}
    (h : firstUse? points name = some e) : e ∈ infer points := by
  rw [← find?_name_infer] at h
  exact List.mem_of_find?_eq_some h

theorem nodup_infer (points : List Point) : (infer points).Nodup := by
  rw [List.nodup_iff_count_le_one]
  intro e
  have hcount : (infer points).count e ≤ (infer points).countP (·.sameName e) := by
    rw [List.count_eq_countP]
    apply List.countP_mono_left
    intro f _ hf
    obtain rfl := eq_of_beq hf
    exact (SchemaEntry.sameName_iff f f).2 ⟨rfl, Iff.rfl⟩
  rw [countP_infer] at hcount
  split at hcount <;> omega

theorem countP_isTag {points : List Point} {p : Point} {t : String × String} (hp : p ∈ points)
    (ht : t ∈ p.tags) : (infer points).countP (·.isTag t.1) = 1 := by
  simp only [SchemaEntry.isTag_eq_sameName]
  rw [countP_infer, if_pos]
  have hmem : (⟨t.1, .tag⟩ : SchemaEntry) ∈ points.flatMap entriesOf :=
    List.mem_flatMap.2 ⟨p, hp, List.mem_append_left _ (List.mem_map_of_mem ht)⟩
  exact List.any_eq_true.2 ⟨_, hmem, (SchemaEntry.sameName_iff _ _).2 ⟨rfl, Iff.rfl⟩⟩

theorem mem_infer_of_tag {points : List Point} {p : Point} (hp : p ∈ points) {name text : String}
    (h : p.tag? name = some text) : (⟨name, .tag⟩ : SchemaEntry) ∈ infer points := by
  have hfind := Entries.find?_name p.tags name
  rw [← Point.tag?, h, Option.map_some] at hfind
  have hcount := countP_isTag hp (List.mem_of_find?_eq_some hfind)
  obtain ⟨⟨_, _⟩, he, htag⟩ := List.countP_pos_iff.1 (Nat.lt_of_lt_of_eq Nat.one_pos hcount.symm)
  simp only [SchemaEntry.isTag, Bool.and_eq_true, decide_eq_true_eq] at htag
  rw [← htag.1, ← htag.2]
  exact he

theorem exists_firstUse? {points : List Point} {p : Point} (hp : p ∈ points) {name text : String}
    (h : p.tag? name = some text) : ∃ type, firstUse? points name = some ⟨name, type⟩ := by
  have hmem := mem_infer_of_tag hp h
  rw [← find?_name_infer]
  cases hfind : (infer points).find? (·.name = name) with
  | none => exact absurd (List.find?_eq_none.1 hfind _ hmem) (by simp)
  | some e =>
    have hname : e.name = name := by simpa using List.find?_some hfind
    exact ⟨e.type, by rw [← hname]⟩

theorem find?_isField_infer (points : List Point) (name : String) :
    (infer points).find? (·.isField name) = (firstType? points name).map (⟨name, ·⟩) := by
  have hwanted (e f : SchemaEntry) (h : e.sameName f) : e.isField name = f.isField name := by
    obtain ⟨hname, htag⟩ := (SchemaEntry.sameName_iff e f).1 h
    simp [SchemaEntry.isField, hname, htag]
  have hfind := Entries.find?_name (points.flatMap (·.fields)) name
  rw [find?_infer points hwanted, find?_flatMap_entriesOf, firstType?, hfind]
  simp only [Option.map_map]
  rfl

theorem mem_infer_iff {points : List Point} {e : SchemaEntry} (htype : e.type ≠ .tag) :
    e ∈ infer points ↔ firstType? points e.name = some e.type := by
  have hfind := find?_isField_infer points e.name
  constructor
  · intro he
    have hfield : (fun f : SchemaEntry => f.isField e.name) = (·.sameName e) :=
      funext fun f => f.isField_eq_sameName e.name htype
    rw [hfield, infer, (find?_of_mem he).2] at hfind
    obtain ⟨type, htype, heq⟩ := Option.map_eq_some_iff.1 hfind.symm
    rw [htype, ← heq]
  · intro hfirst
    rw [hfirst] at hfind
    exact List.mem_of_find?_eq_some hfind

end Schema
end SeriesIngest
