import SeriesIngest.Proofs.Line.RoundTrip
import Mathlib.Algebra.Order.Ring.Nat

/-! The line feeds of a body. One stands between two samples, and those of quoted texts stay inside
the quotes. A name is written with its line feeds as they are, so each of them breaks a line. -/
namespace SeriesIngest.Line

def lineFeeds (text : String) : Nat := text.toList.count '\n'

def feeds (texts : List String) : Nat := (texts.map lineFeeds).sum

def quoted (fields : Entries Value) : List String :=
  fields.filterMap fun
    | (_, .text text) => some text
    | _ => none

/-- The texts that a line holds without quotes: measurement, tags with their values, field keys. -/
def names (p : Point) : List String :=
  p.measurement :: (p.tags.flatMap fun tag => [tag.1, tag.2]) ++ p.fields.map Prod.fst

@[simp] theorem feeds_nil : feeds [] = 0 := rfl

@[simp] theorem feeds_cons (text : String) (texts : List String) :
    feeds (text :: texts) = lineFeeds text + feeds texts := by
  simp [feeds]

@[simp] theorem feeds_append (texts more : List String) :
    feeds (texts ++ more) = feeds texts + feeds more := by
  simp [feeds]

theorem feeds_eq_zero_iff (texts : List String) :
    feeds texts = 0 ↔ ∀ text ∈ texts, '\n' ∉ text.toList := by
  induction texts with
  | nil => simp
  | cons text texts ih => simp [ih, lineFeeds, List.count_eq_zero]

theorem feeds_quoted_cons (field : String × Value) (fields : Entries Value) :
    feeds (quoted (field :: fields)) = feeds (quoted [field]) + feeds (quoted fields) := by
  rw [← feeds_append]
  exact congrArg feeds (List.filterMap_append (l := [field]))

theorem count_escapeChars {special : Char → Bool} {c : Char} (hc : special c = false)
    (hbackslash : c ≠ '\\') (text : List Char) :
    (escapeChars special text).count c = text.count c := by
  induction text with
  | nil => rfl
  | cons d text ih =>
    rw [escapeChars_cons, List.count_append, ih, List.count_cons]
    cases hd : special d with
    | false => simp [List.count_singleton, Nat.add_comm]
    | true =>
      have hne : d ≠ c := by
        rintro rfl
        rw [hc] at hd
        cases hd
      simp [hbackslash.symm, hne]

/-! Where the line feeds of a line come from, part by part. -/

theorem feeds_escape {special : Char → Bool} (h : special '\n' = false) (text : String) :
    (escapeChars special text.toList).count '\n' = lineFeeds text :=
  count_escapeChars h (by decide) text.toList

theorem feeds_word {word : List Char} (h : ∀ c ∈ word, isWordChar c) : word.count '\n' = 0 := by
  refine List.count_eq_zero.2 fun hmem => ?_
  have hword := h '\n' hmem
  revert hword
  decide

theorem feeds_literal {field : String × Value} (h : field.2.fault? field.1 = none) :
    (Literal.ofValue field.2).chars.count '\n' = feeds (quoted [field]) := by
  obtain ⟨key, value⟩ := field
  by_cases htext : ∃ text, value = .text text
  · obtain ⟨text, rfl⟩ := htext
    have hquoted : (escapeChars quotedSpecial text.toList).count '\n' = lineFeeds text :=
      feeds_escape rfl text
    simp [Literal.ofValue, Literal.chars, quoted, hquoted]
  · have hno : ∀ text, value ≠ .text text := fun text heq => htext ⟨text, heq⟩
    rw [feeds_word (isWordChar_chars h hno)]
    cases value with
    | text text => exact absurd rfl (hno text)
    | int v => rfl
    | float v => rfl
    | bool v => rfl

theorem feeds_field {field : String × Value} (h : field.2.fault? field.1 = none) :
    (fieldChars field).count '\n' = feeds (quoted [field]) + lineFeeds field.1 := by
  rw [fieldChars, List.count_append, List.count_append, feeds_literal h, feeds_escape rfl]
  simp [Nat.add_comm]

theorem feeds_fields {fields : Entries Value}
    (h : fields.findSome? (fun (key, v) => v.fault? key) = none) :
    (fieldsChars fields).count '\n' = feeds (quoted fields) + feeds (fields.map Prod.fst) := by
  have hall := List.findSome?_eq_none_iff.1 h
  have hmore (rest : Entries Value) (hrest : ∀ field ∈ rest, field.2.fault? field.1 = none) :
      (rest.flatMap fun field => ',' :: fieldChars field).count '\n' =
        feeds (quoted rest) + feeds (rest.map Prod.fst) := by
    induction rest with
    | nil => rfl
    | cons field rest ih =>
      obtain ⟨hfield, hrest⟩ := List.forall_mem_cons.1 hrest
      rw [List.flatMap_cons, List.count_append, ih hrest, List.count_cons, feeds_field hfield,
        feeds_quoted_cons field rest, List.map_cons, feeds_cons]
      simp
      omega
  cases fields with
  | nil => rfl
  | cons field rest =>
    obtain ⟨hfield, hrest⟩ := List.forall_mem_cons.1 hall
    rw [fieldsChars, List.count_append, feeds_field hfield, hmore rest hrest,
      feeds_quoted_cons field rest, List.map_cons, feeds_cons]
    omega

theorem feeds_tags (tags : Entries String) :
    (tags.flatMap fun tag => ',' :: tagChars tag).count '\n' =
      feeds (tags.flatMap fun tag => [tag.1, tag.2]) := by
  induction tags with
  | nil => rfl
  | cons tag tags ih =>
    have htag : (tagChars tag).count '\n' = lineFeeds tag.1 + lineFeeds tag.2 := by
      rw [tagChars, List.count_append, List.count_append, feeds_escape rfl, feeds_escape rfl]
      simp
    simp [ih, htag, Nat.add_assoc]

theorem feeds_time (nanos : Option Int64) : (timeChars nanos).count '\n' = 0 := by
  cases nanos with
  | none => rfl
  | some t =>
    have hdigits : (Decimal.intDigits t.toInt).count '\n' = 0 :=
      feeds_word fun _ => isWordChar_intDigits
    simp [timeChars, hdigits]

theorem lineFeeds_write {p : Point} {line : String} (h : write p = .ok line) :
    lineFeeds line = feeds (quoted p.fields) + feeds (names p) := by
  obtain ⟨-, hvalues, nanos, -, hline⟩ := toList_line h
  rw [lineFeeds, hline, List.count_append, List.count_append, List.count_append, List.count_append,
    feeds_escape rfl, feeds_tags, feeds_fields hvalues, feeds_time, names, feeds_append, feeds_cons]
  have hblank : [' '].count '\n' = 0 := by decide
  omega

theorem lineFeeds_intercalate (line : String) (lines : List String) :
    lineFeeds ("\n".intercalate (line :: lines)) = lines.length + feeds (line :: lines) := by
  rw [lineFeeds, toList_intercalate_cons, List.count_append, feeds_cons, lineFeeds]
  have hrest : (lines.flatMap fun line => '\n' :: line.toList).count '\n' =
      lines.length + feeds lines := by
    induction lines with
    | nil => rfl
    | cons next lines ih =>
      simp [ih, lineFeeds]
      omega
  rw [hrest]
  omega

/-- **One line per sample.** A body holds one line feed less than samples, those of the quoted
texts, and those of the names. So each sample has a line of its own exactly when no name has a line
feed, which no check asks for. -/
theorem lineFeeds_writeAll {points : List Point} {body : String} (hne : points ≠ [])
    (h : writeAll points = .ok body) :
    let inside := feeds (points.flatMap fun p => quoted p.fields)
    lineFeeds body = (points.length - 1) + inside + feeds (points.flatMap names) ∧
      (lineFeeds body = (points.length - 1) + inside ↔
        ∀ p ∈ points, ∀ name ∈ names p, '\n' ∉ name.toList) := by
  intro inside
  obtain ⟨lines, hlines, rfl⟩ := (writeAll_iff points body).1 h
  have hsum : feeds lines = inside + feeds (points.flatMap names) := by
    clear hne h
    induction hlines with
    | nil => rfl
    | cons hline _ ih =>
      simp only [inside, List.flatMap_cons, feeds_append, feeds_cons, lineFeeds_write hline] at ih ⊢
      omega
  have hlength : lines.length = points.length := hlines.length_eq.symm
  have hbody : lineFeeds ("\n".intercalate lines) =
      (points.length - 1) + inside + feeds (points.flatMap names) := by
    cases lines with
    | nil => exact absurd (List.length_eq_zero_iff.1 hlength.symm) hne
    | cons line lines =>
      rw [lineFeeds_intercalate, hsum, ← hlength, List.length_cons]
      omega
  refine ⟨hbody, ?_⟩
  have hnames : feeds (points.flatMap names) = 0 ↔
      ∀ p ∈ points, ∀ name ∈ names p, '\n' ∉ name.toList := by
    rw [feeds_eq_zero_iff]
    simp only [List.mem_flatMap]
    exact ⟨fun h p hp name hname => h name ⟨p, hp, hname⟩,
      fun h name ⟨p, hp, hname⟩ => h p hp name hname⟩
  rw [← hnames, hbody]
  omega

/-- Two samples: a text and a tag key have a line feed each. -/
theorem lineFeeds_writeAll_tag_key :
    let points : List Point :=
      [{ measurement := "a", fields := [("t", .text "x\ny"), ("v", .int 1)] },
        { measurement := "b", tags := [("k\n", "w")], fields := [("v", .bool true)] }]
    let body := "a t=\"x\ny\",v=1i\nb,k\n=w v=true"
    points ≠ [] ∧ writeAll points = .ok body ∧
      lineFeeds body = (points.length - 1) + feeds (points.flatMap fun p => quoted p.fields) +
        feeds (points.flatMap names) ∧ lineFeeds body = 3 := by
  intro points body
  have hne : points ≠ [] := List.cons_ne_nil _ _
  have hbody : writeAll points = .ok body := by decide +kernel
  exact ⟨hne, hbody, (lineFeeds_writeAll hne hbody).1, by decide +kernel⟩

/-- A measurement with a line feed passes the check and takes two lines. -/
theorem name_breaks_line :
    let p : Point := { measurement := "a\nb", fields := [("v", .int 1)] }
    Protocol.http.fault? p = none ∧ writeAll [p] = .ok "a\nb v=1i" ∧
      lineFeeds "a\nb v=1i" ≠ ([p].length - 1) + feeds ([p].flatMap fun p => quoted p.fields) := by
  decide +kernel

end SeriesIngest.Line
