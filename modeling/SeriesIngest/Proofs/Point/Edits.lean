import SeriesIngest.Point.Edits
import SeriesIngest.Line.Writer
import SeriesIngest.Proofs.Grouping

/-! What edits come to. A key stands where it came first and has the value that came last, and of the
three kinds of edits none shows in what the others leave. So samples are the same, and their lines
are, when their keys come first in the same order and last with the same values. -/
namespace SeriesIngest

namespace Entries

def lastOf (puts : List (String × α)) (name : String) : Option α :=
  ((puts.filter (·.1 = name)).getLast?).map (·.2)

def firstNames (puts : List (String × α)) : List String := (puts.map (·.1)).eraseDups

def ofPuts (puts : List (String × α)) : Entries α :=
  puts.foldl (fun entries e => entries.put e.1 e.2) []

theorem ofPuts_concat (puts : List (String × α)) (e : String × α) :
    ofPuts (puts ++ [e]) = (ofPuts puts).put e.1 e.2 := by
  simp [ofPuts]

theorem names_ofPuts (puts : List (String × α)) : (ofPuts puts).names = firstNames puts := by
  induction puts using List.reverseRecOn with
  | nil => rfl
  | append_singleton puts e ih =>
    rw [ofPuts_concat, names_put, ih, firstNames, firstNames, List.map_append, List.map_singleton,
      Groups.eraseDups_concat]
    simp only [List.mem_eraseDups]

theorem nodup_names_ofPuts (puts : List (String × α)) : (ofPuts puts).names.Nodup := by
  rw [names_ofPuts]
  exact Groups.nodup_eraseDups _

theorem get?_ofPuts (puts : List (String × α)) (name : String) :
    (ofPuts puts).get? name = lastOf puts name := by
  induction puts using List.reverseRecOn with
  | nil => rfl
  | append_singleton puts e ih =>
    rw [ofPuts_concat, lastOf, List.filter_append]
    by_cases h : e.1 = name
    · subst h
      simp
    · rw [get?_put_of_ne _ _ (Ne.symm h), ih, lastOf]
      simp [h]

theorem get?_of_notMem {entries : Entries α} {name : String} (h : name ∉ entries.names) :
    entries.get? name = none := by
  induction entries with
  | nil => rfl
  | cons e rest ih =>
    rw [names, List.map_cons, List.mem_cons, not_or] at h
    rw [get?, if_neg (Ne.symm h.1)]
    exact ih h.2

theorem eq_of_get? {entries others : Entries α} (hnodup : entries.names.Nodup)
    (hnames : entries.names = others.names) (hget : ∀ name, entries.get? name = others.get? name) :
    entries = others := by
  induction entries generalizing others with
  | nil =>
    symm
    exact List.map_eq_nil_iff.1 hnames.symm
  | cons e rest ih =>
    cases others with
    | nil => cases hnames
    | cons f others =>
      obtain ⟨name, v⟩ := e
      obtain ⟨other, w⟩ := f
      obtain ⟨hname, hrest⟩ := List.cons.inj hnames
      dsimp only at hname
      subst hname
      obtain ⟨hnew, hnodup⟩ := List.nodup_cons.1 hnodup
      have hvalue := hget name
      rw [get?, get?, if_pos rfl, if_pos rfl] at hvalue
      cases hvalue
      congr 1
      apply ih hnodup hrest
      intro asked
      by_cases h : name = asked
      · subst h
        have hnew' : name ∉ names others := by rwa [names, ← hrest]
        rw [get?_of_notMem hnew, get?_of_notMem hnew']
      · have hasked := hget asked
        rwa [get?, get?, if_neg h, if_neg h] at hasked

theorem ofPuts_congr {puts others : List (String × α)} (hfirst : firstNames puts = firstNames others)
    (hlast : ∀ name, lastOf puts name = lastOf others name) : ofPuts puts = ofPuts others := by
  apply eq_of_get? (nodup_names_ofPuts puts)
  · rw [names_ofPuts, names_ofPuts, hfirst]
  · intro name
    rw [get?_ofPuts, get?_ofPuts, hlast]

end Entries

namespace Edit

def tags (edits : List Edit) : List (String × String) := edits.filterMap tag?

def fields (edits : List Edit) : List (String × Value) := edits.filterMap field?

def times (edits : List Edit) : List (Int64 × Precision) := edits.filterMap time?

/-- The same keys in the order in which they first came, each with the same last value, and the same
last time. -/
structure SameEffect (edits others : List Edit) : Prop where
  tagKeys : Entries.firstNames (tags edits) = Entries.firstNames (tags others)
  tag : ∀ key, Entries.lastOf (tags edits) key = Entries.lastOf (tags others) key
  fieldKeys : Entries.firstNames (fields edits) = Entries.firstNames (fields others)
  field : ∀ key, Entries.lastOf (fields edits) key = Entries.lastOf (fields others) key
  time : (times edits).getLast? = (times others).getLast?

theorem filterMap_concat (kind : Edit → Option α) (edits : List Edit) (e : Edit) :
    (edits ++ [e]).filterMap kind = edits.filterMap kind ++ (kind e).toList := by
  rw [List.filterMap_append]
  cases h : kind e <;> simp [h]

theorem filterMap_filter_isSome (kind : Edit → Option α) (edits : List Edit) :
    (edits.filter fun e => (kind e).isSome).filterMap kind = edits.filterMap kind := by
  rw [List.filterMap_filter]
  congr 1
  funext e
  cases kind e <;> rfl

end Edit

namespace Point

theorem make_eq (measurement : String) (edits : List Edit) :
    make measurement edits =
      { measurement
        tags := .ofPuts (Edit.tags edits)
        fields := .ofPuts (Edit.fields edits)
        time := ((Edit.times edits).getLast?.getD (0, .nanosecond)).1
        precision := ((Edit.times edits).getLast?.getD (0, .nanosecond)).2 } := by
  induction edits using List.reverseRecOn with
  | nil => rfl
  | append_singleton edits e ih =>
    have hstep : make measurement (edits ++ [e]) = (make measurement edits).edit e := by
      simp [make]
    rw [hstep, ih]
    simp only [Edit.tags, Edit.fields, Edit.times, Edit.filterMap_concat]
    cases e with
    | tag key value => simp [edit, putTag, Edit.tag?, Edit.field?, Edit.time?, Entries.ofPuts_concat]
    | field key value =>
      simp [edit, putField, Edit.tag?, Edit.field?, Edit.time?, Entries.ofPuts_concat]
    | time t unit => simp [edit, setTime, Edit.tag?, Edit.field?, Edit.time?]

structure MadeBy (edits : List Edit) (p : Point) : Prop where
  tagKeys : p.tags.names = Entries.firstNames (Edit.tags edits)
  tagKeys_nodup : p.tags.names.Nodup
  tag : ∀ key, p.tag? key = Entries.lastOf (Edit.tags edits) key
  fieldKeys : p.fields.names = Entries.firstNames (Edit.fields edits)
  fieldKeys_nodup : p.fields.names.Nodup
  field : ∀ key, p.field? key = Entries.lastOf (Edit.fields edits) key
  time : (p.time, p.precision) = (Edit.times edits).getLast?.getD (0, .nanosecond)

theorem madeBy_make (measurement : String) (edits : List Edit) :
    (make measurement edits).MadeBy edits := by
  rw [make_eq]
  exact
    { tagKeys := Entries.names_ofPuts _
      tagKeys_nodup := Entries.nodup_names_ofPuts _
      tag := Entries.get?_ofPuts _
      fieldKeys := Entries.names_ofPuts _
      fieldKeys_nodup := Entries.nodup_names_ofPuts _
      field := Entries.get?_ofPuts _
      time := rfl }

theorem make_congr (measurement : String) {edits others : List Edit}
    (h : Edit.SameEffect edits others) : make measurement edits = make measurement others := by
  rw [make_eq, make_eq, Entries.ofPuts_congr h.tagKeys h.tag,
    Entries.ofPuts_congr h.fieldKeys h.field, h.time]

/-- A sample is its edits, read as three maps that keep the order of their keys: one of tags, one of
fields, and one place for the time. Each comes of the edits of its own kind, and edits of the same
effect make the same sample and the same line. -/
theorem make_exact (measurement : String) (edits : List Edit) :
    let p := make measurement edits
    p.measurement = measurement ∧ p.MadeBy edits ∧
      p.tags = (make measurement (edits.filter (·.tag?.isSome))).tags ∧
      p.fields = (make measurement (edits.filter (·.field?.isSome))).fields ∧
      p.time = (make measurement (edits.filter (·.time?.isSome))).time ∧
      p.precision = (make measurement (edits.filter (·.time?.isSome))).precision ∧
      ∀ others, Edit.SameEffect edits others →
        p = make measurement others ∧ Line.write p = Line.write (make measurement others) := by
  intro p
  refine ⟨?_, madeBy_make measurement edits, ?_, ?_, ?_, ?_, ?_⟩
  · simp only [p, make_eq]
  · simp only [p, make_eq, Edit.tags, Edit.filterMap_filter_isSome]
  · simp only [p, make_eq, Edit.fields, Edit.filterMap_filter_isSome]
  · simp only [p, make_eq, Edit.times, Edit.filterMap_filter_isSome]
  · simp only [p, make_eq, Edit.times, Edit.filterMap_filter_isSome]
  · intro others h
    have hsame := make_congr measurement h
    exact ⟨hsame, congrArg Line.write hsame⟩

/-- A tag and the time are set again, and a field takes another type. -/
def mixedEdits : List Edit :=
  [.tag "a" "1", .field "v" (.int 1), .time 5 .second, .tag "b" "2", .field "v" (.bool true),
    .tag "a" "3", .time 7 .minute]

def shortEdits : List Edit :=
  [.time 7 .minute, .field "v" (.bool true), .tag "a" "3", .tag "b" "2"]

theorem make_exact_mixed :
    Edit.SameEffect mixedEdits shortEdits ∧
      (make "m" mixedEdits).tags.names = ["a", "b"] ∧
      (make "m" mixedEdits).field? "v" = some (.bool true) ∧
      make "m" mixedEdits = make "m" shortEdits ∧
      Line.write (make "m" mixedEdits) = .ok "m,a=3,b=2 v=true 420000000000" := by
  have htags : Edit.tags mixedEdits = [("a", "1"), ("b", "2"), ("a", "3")] := rfl
  have htags' : Edit.tags shortEdits = [("a", "3"), ("b", "2")] := rfl
  have hfields : Edit.fields mixedEdits = [("v", .int 1), ("v", .bool true)] := rfl
  have hfields' : Edit.fields shortEdits = [("v", .bool true)] := rfl
  have hsame : Edit.SameEffect mixedEdits shortEdits :=
    { tagKeys := by decide +kernel
      tag := by
        intro key
        rw [htags, htags']
        by_cases ha : "a" = key
        · subst ha
          rfl
        · by_cases hb : "b" = key <;> simp [Entries.lastOf, ha, hb]
      fieldKeys := by decide +kernel
      field := by
        intro key
        rw [hfields, hfields']
        by_cases hv : "v" = key <;> simp [Entries.lastOf, hv]
      time := by decide +kernel }
  obtain ⟨-, hmade, -, -, -, -, heffect⟩ := make_exact "m" mixedEdits
  obtain ⟨hpoint, hline⟩ := heffect shortEdits hsame
  exact ⟨hsame, hmade.tagKeys.trans (by decide +kernel), (hmade.field "v").trans (by decide +kernel),
    hpoint, hline.trans (by decide +kernel)⟩

end Point
end SeriesIngest
