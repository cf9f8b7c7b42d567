import SeriesIngest.Proofs.Line.Number
import SeriesIngest.Proofs.Line.Writer

/-! A body is read back as the samples it was written from. Names must be plain: a backslash at
the end of a name would escape what follows it, and a line feed in a name would end the line.
What stands between quotes may hold anything. -/
namespace SeriesIngest.Line

/-- A name that does not end with a backslash and stays on its line. -/
def IsPlain (name : String) : Prop :=
  name.toList.getLast? ≠ some '\\' ∧ '\n' ∉ name.toList

instance (name : String) : Decidable (IsPlain name) :=
  inferInstanceAs (Decidable (name.toList.getLast? ≠ some '\\' ∧ '\n' ∉ name.toList))

structure PlainNames (p : Point) : Prop where
  measurement : IsPlain p.measurement
  tags : ∀ tag ∈ p.tags, IsPlain tag.1 ∧ IsPlain tag.2
  fields : ∀ field ∈ p.fields, IsPlain field.1

instance (p : Point) : Decidable (PlainNames p) :=
  decidable_of_iff (IsPlain p.measurement ∧ (∀ tag ∈ p.tags, IsPlain tag.1 ∧ IsPlain tag.2) ∧
    ∀ field ∈ p.fields, IsPlain field.1)
    ⟨fun ⟨hm, ht, hf⟩ => ⟨hm, ht, hf⟩, fun h => ⟨h.measurement, h.tags, h.fields⟩⟩

def Literal.ofValue : Value → Literal
  | .int v => .int v
  | .float v => .float (String.ofList (Decimal.floatText v))
  | .bool v => .bool v
  | .text v => .text v

/-- What was read is the sample, its time on the nanosecond scale. -/
structure Describes (s : Sample) (p : Point) : Prop where
  measurement : s.measurement = p.measurement
  tags : s.tags = p.tags
  fields : s.fields = p.fields.map fun (key, v) => (key, Literal.ofValue v)
  nanos : p.nanos? = .ok s.nanos

/-! The characters of what is written. -/

def Literal.chars : Literal → List Char
  | .int v => Decimal.intDigits v.toInt ++ ['i']
  | .float decimal => decimal.toList
  | .bool v => if v then ['t', 'r', 'u', 'e'] else ['f', 'a', 'l', 's', 'e']
  | .text v => ['"'] ++ (escapeChars quotedSpecial v.toList ++ ['"'])

def tagChars (tag : String × String) : List Char :=
  escapeChars keySpecial tag.1.toList ++ (['='] ++ escapeChars keySpecial tag.2.toList)

def fieldChars (field : String × Value) : List Char :=
  escapeChars keySpecial field.1.toList ++ (['='] ++ (Literal.ofValue field.2).chars)

def fieldsChars : Entries Value → List Char
  | [] => []
  | field :: rest => fieldChars field ++ rest.flatMap fun field => ',' :: fieldChars field

def timeChars : Option Int64 → List Char
  | none => []
  | some t => [' '] ++ Decimal.intDigits t.toInt

theorem toList_literal {key : String} {value : Value} {text : String}
    (h : literal key value = .ok text) : text.toList = (Literal.ofValue value).chars := by
  cases value with
  | int v => cases h; simp [Literal.ofValue, Literal.chars]
  | float v =>
    rw [literal] at h
    split at h <;> cases h
    simp [Literal.ofValue, Literal.chars]
  | bool v => cases h; cases v <;> simp [Literal.ofValue, Literal.chars]
  | text v =>
    cases h
    simp [Literal.ofValue, Literal.chars, toList_escape]

theorem toList_appendTags (tags : Entries String) :
    (appendTags "" tags).toList = tags.flatMap fun tag => ',' :: tagChars tag := by
  induction tags with
  | nil => rfl
  | cons tag rest ih =>
    rw [appendTags, appendTags_eq, String.toList_append, ih, List.flatMap_cons]
    simp [escapeKey, toList_escape, tagChars]

theorem toList_appendFields_cons {separator : String} {field : String × Value}
    {rest : Entries Value} {text : String}
    (h : appendFields "" separator (field :: rest) = (text, none)) :
    ∃ more, appendFields "" "," rest = (more, none) ∧
      text.toList = separator.toList ++ (fieldChars field ++ more.toList) := by
  rw [appendFields] at h
  cases hliteral : literal field.1 field.2 with
  | error fault => simp [hliteral] at h
  | ok value =>
    simp only [hliteral] at h
    rw [appendFields_eq, Prod.mk.injEq] at h
    refine ⟨_, Prod.ext rfl h.2, ?_⟩
    rw [← h.1]
    simp [fieldChars, escapeKey, toList_escape, toList_literal hliteral]

theorem toList_appendFields_comma {fields : Entries Value} {text : String}
    (h : appendFields "" "," fields = (text, none)) :
    text.toList = fields.flatMap fun field => ',' :: fieldChars field := by
  induction fields generalizing text with
  | nil => cases h; rfl
  | cons field rest ih =>
    obtain ⟨more, hmore, htext⟩ := toList_appendFields_cons h
    rw [htext, ih hmore, List.flatMap_cons]
    rfl

theorem toList_appendFields {fields : Entries Value} {text : String}
    (h : appendFields "" "" fields = (text, none)) : text.toList = fieldsChars fields := by
  cases fields with
  | nil => cases h; rfl
  | cons field rest =>
    obtain ⟨more, hmore, htext⟩ := toList_appendFields_cons h
    rw [htext, toList_appendFields_comma hmore]
    rfl

theorem toList_timeText (nanos : Option Int64) : (timeText nanos).toList = timeChars nanos := by
  cases nanos <;> simp [timeText, timeChars]

theorem toList_line {p : Point} {line : String} (h : write p = .ok line) :
    p.measurement ≠ "" ∧ p.fields.findSome? (fun (key, v) => v.fault? key) = none ∧
      ∃ nanos, p.nanos? = .ok nanos ∧
        line.toList = escapeChars measurementSpecial p.measurement.toList ++
          ((p.tags.flatMap fun tag => ',' :: tagChars tag) ++
            ([' '] ++ (fieldsChars p.fields ++ timeChars nanos))) := by
  obtain ⟨hname, fields, nanos, hfields, hnanos, rfl⟩ := write_ok h
  refine ⟨hname, check_of_appendFields (congrArg Prod.snd hfields), nanos, hnanos, ?_⟩
  simp [escapeMeasurement, toList_escape, toList_appendTags, toList_appendFields hfields,
    toList_timeText]

/-! The readers of the parts. -/

def sampleEnds (c : Char) : Bool := c = '\n'

theorem reads_name {special : Char → Bool} (hbackslash : special '\\' = false) {name : String}
    (hname : IsPlain name) {rest : List Char}
    (hrest : Stops (fun c => special c || c = '\n') rest) :
    Reads (.name special) (escapeChars special name.toList) name rest := by
  refine reads_text (by simp [hbackslash]) ⟨fun c hc hends => ?_, .inr hname.1⟩ hrest
  have hline : c ≠ '\n' := fun heq => hname.2 (heq ▸ hc)
  simpa [hline] using hends

theorem escapeChars_none (text : List Char) : escapeChars (fun _ => false) text = text := by
  simp [escapeChars]

theorem reads_word {chars : List Char} (h : ∀ c ∈ chars, isWordChar c) {rest : List Char}
    (hrest : Stops wordEnds rest) : Reads .word chars (String.ofList chars) rest := by
  have hsurvives : Survives (fun _ => false) wordEnds (String.ofList chars).toList := by
    rw [String.toList_ofList]
    refine ⟨fun c hc hends => ?_, .inr fun hlast => ?_⟩
    · have hword := h c hc
      unfold wordEnds at hends
      simp only [Bool.or_eq_true, decide_eq_true_eq] at hends
      rcases hends with (rfl | rfl) | rfl <;> revert hword <;> decide
    · have hword := h _ (List.mem_of_getLast? hlast)
      revert hword
      decide
  have hreads := reads_text (by decide) hsurvives hrest
  rwa [escapeChars_none, String.toList_ofList] at hreads

theorem reads_quoted (text : String) (rest : List Char) :
    Reads .quoted (escapeChars quotedSpecial text.toList ++ ['"']) text rest := by
  have hsurvives : Survives quotedSpecial (fun c => c = '"') text.toList := by
    refine ⟨fun c _ hends => ?_, .inl (by decide)⟩
    simp [quotedSpecial, of_decide_eq_true hends]
  have htext : Reads (.text quotedSpecial fun c => c = '"') (escapeChars quotedSpecial text.toList)
      text ('"' :: rest) := reads_text (by decide) hsurvives rfl
  exact htext.bind ((reads_skip '"' rest).finish (.pure text rest))

theorem isWordChar_chars {key : String} {value : Value} (h : value.fault? key = none)
    (htext : ∀ text, value ≠ .text text) :
    ∀ c ∈ (Literal.ofValue value).chars, isWordChar c := by
  cases value with
  | int v =>
    intro c hc
    rcases List.mem_append.1 hc with hc | hc
    · exact isWordChar_intDigits hc
    · rw [List.mem_singleton.1 hc]
      rfl
  | float v =>
    have hfinite : v.isFinite := by simpa [Value.fault?] using h
    intro c hc
    rw [Literal.ofValue, Literal.chars, String.toList_ofList] at hc
    exact (magnitude_floatText hfinite).isWordChar hc
  | bool v =>
    have hall : (Literal.ofValue (.bool v)).chars.all isWordChar := by cases v <;> rfl
    exact List.all_eq_true.1 hall
  | text v => exact absurd rfl (htext v)

theorem ofWord?_chars {key : String} {value : Value} (h : value.fault? key = none)
    (htext : ∀ text, value ≠ .text text) :
    Literal.ofWord? (Literal.ofValue value).chars = some (Literal.ofValue value) := by
  cases value with
  | int v =>
    have hlast : (Decimal.intDigits v.toInt ++ ['i']).getLast? = some 'i' := by simp
    have hne : ∀ {word : List Char}, word.getLast? = some 'e' →
        Decimal.intDigits v.toInt ++ ['i'] ≠ word := by
      rintro _ hword rfl
      rw [hlast] at hword
      revert hword
      decide
    rw [Literal.ofValue, Literal.chars, Literal.ofWord?, isDecimal_intDigits,
      if_neg Bool.false_ne_true, if_neg (hne rfl), if_neg (hne rfl), if_pos hlast,
      List.dropLast_concat, int?_intDigits]
    rfl
  | float v =>
    have hfinite : v.isFinite := by simpa [Value.fault?] using h
    rw [Literal.ofValue, Literal.chars, String.toList_ofList, Literal.ofWord?,
      if_pos (magnitude_floatText hfinite).isDecimal]
  | bool v => cases v <;> rfl
  | text v => exact absurd rfl (htext v)

theorem reads_literal {key : String} {value : Value} (h : value.fault? key = none)
    {rest : List Char} (hrest : Stops wordEnds rest) :
    Reads .literal (Literal.ofValue value).chars (Literal.ofValue value) rest := by
  by_cases htext : ∃ text, value = .text text
  · obtain ⟨text, rfl⟩ := htext
    exact (reads_skip? '"' _).bind ((reads_quoted text rest).finish (.pure _ rest))
  · have hno : ∀ text, value ≠ .text text := fun text heq => htext ⟨text, heq⟩
    have hchars := isWordChar_chars h hno
    have hquote : ((Literal.ofValue value).chars ++ rest).head? ≠ some '"' := by
      cases hword : (Literal.ofValue value).chars with
      | nil => exact hrest.ne (by decide)
      | cons c chars =>
        rintro ⟨⟩
        have hc := hchars '"' (by simp [hword])
        revert hc
        decide
    refine (reads_skip?_of_ne hquote).after ((reads_word hchars hrest).finish ?_)
    rw [String.toList_ofList]
    exact reads_ofOption (ofWord?_chars h hno) rest

def nameEnds (c : Char) : Bool := keySpecial c || c = '\n'

theorem reads_key {key : String} (h : IsPlain key) (rest : List Char) :
    Reads (.name keySpecial) (escapeChars keySpecial key.toList) key ('=' :: rest) :=
  reads_name (by decide) h rfl

theorem reads_tag {tag : String × String} (h : IsPlain tag.1 ∧ IsPlain tag.2) {rest : List Char}
    (hrest : Stops nameEnds rest) : Reads .tag (tagChars tag) tag rest := by
  refine (reads_key h.1 _).bind ((reads_skip '=' _).bind ?_)
  exact (reads_name (by decide) h.2 hrest).finish (.pure tag rest)

theorem reads_tags {tags : Entries String} (h : ∀ tag ∈ tags, IsPlain tag.1 ∧ IsPlain tag.2)
    (rest : List Char) :
    Reads (.each ',' .tag) (tags.flatMap fun tag => ',' :: tagChars tag) tags (' ' :: rest) := by
  have hmark : nameEnds ',' := rfl
  have heach : Reads (.each ',' .tag) (tags.flatMap fun tag => ',' :: tagChars tag) (tags.map id)
      (' ' :: rest) := reads_each hmark (fun tag ht _ => reads_tag (h tag ht)) rfl (by simp)
  rwa [List.map_id] at heach

theorem reads_field {field : String × Value} (hkey : IsPlain field.1)
    (hvalue : field.2.fault? field.1 = none) {rest : List Char} (hrest : Stops wordEnds rest) :
    Reads .field (fieldChars field) (field.1, Literal.ofValue field.2) rest := by
  refine (reads_key hkey _).bind ((reads_skip '=' _).bind ?_)
  exact (reads_literal hvalue hrest).finish (.pure (field.1, Literal.ofValue field.2) rest)

/-- A field does not begin like the end of a line, even when its key is empty. -/
theorem not_stops_field {field : String × Value} (hkey : IsPlain field.1) (rest : List Char) :
    (fieldChars field ++ rest).head?.all fieldsEnds = false := by
  unfold fieldChars
  cases hname : field.1.toList with
  | nil => rfl
  | cons c name =>
    rw [escapeChars_cons]
    cases hc : keySpecial c with
    | true => rfl
    | false =>
      have hline : c ≠ '\n' := fun heq => hkey.2 (by simp [hname, heq])
      have hblank : c ≠ ' ' := by
        rintro rfl
        revert hc
        decide
      simp [hline, hblank, fieldsEnds]

theorem reads_fields {fields : Entries Value} (hkeys : ∀ field ∈ fields, IsPlain field.1)
    (hvalues : fields.findSome? (fun (key, v) => v.fault? key) = none) {rest : List Char}
    (hrest : Stops fieldsEnds rest) :
    Reads .fields (fieldsChars fields) (fields.map fun (key, v) => (key, Literal.ofValue v))
      rest := by
  have hends : ∀ c, fieldsEnds c → wordEnds c := by
    intro c hc
    simp only [fieldsEnds, Bool.or_eq_true, decide_eq_true_eq] at hc
    rcases hc with rfl | rfl <;> rfl
  cases fields with
  | nil =>
    refine (reads_stops fieldsEnds rest).after ?_
    have hstops : rest.head?.all fieldsEnds := hrest
    rw [if_pos hstops]
    exact .pure [] rest
  | cons field fields =>
    -- what follows must not pass for the end of a line without fields
    have hnot := not_stops_field (hkeys field List.mem_cons_self)
      ((fields.flatMap fun field => ',' :: fieldChars field) ++ rest)
    rw [← List.append_assoc] at hnot
    refine (reads_stops fieldsEnds _).after ?_
    rw [fieldsChars, hnot, if_neg Bool.false_ne_true]
    have hmark : wordEnds ',' := rfl
    refine reads_separated hmark ?_ (hrest.mono hends) (hrest.ne (by decide))
    intro f hf rest hrest
    exact reads_field (hkeys f hf) (List.findSome?_eq_none_iff.1 hvalues f hf) hrest

theorem reads_time (nanos : Option Int64) {rest : List Char}
    (hrest : Stops sampleEnds rest) : Reads .time (timeChars nanos) nanos rest := by
  cases nanos with
  | none =>
    exact (reads_skip?_of_ne (hrest.ne (by decide))).after (.pure none rest)
  | some t =>
    have hends : ∀ c, sampleEnds c → wordEnds c := by
      intro c hc
      rw [of_decide_eq_true hc]
      rfl
    have hdigits : ∀ c ∈ Decimal.intDigits t.toInt, isWordChar c := fun _ => isWordChar_intDigits
    have hword := reads_word hdigits (hrest.mono hends)
    refine (reads_skip? ' ' _).bind (hword.finish ?_)
    rw [String.toList_ofList]
    exact (reads_ofOption (int?_intDigits t) rest).after (.pure (some t) rest)

/-- A line that was written is read back, whatever lines come after it. -/
theorem reads_sample {p : Point} {line : String} (hplain : PlainNames p)
    (h : write p = .ok line) :
    ∃ s, Describes s p ∧
      ∀ rest, Stops sampleEnds rest → Reads .sample line.toList s rest := by
  obtain ⟨hname, hvalues, nanos, hnanos, hline⟩ := toList_line h
  refine ⟨⟨p.measurement, p.tags, p.fields.map fun (key, v) => (key, Literal.ofValue v), nanos⟩,
    ⟨rfl, rfl, rfl, hnanos⟩, fun rest hrest => ?_⟩
  rw [hline]
  have hmeasurement : Reads (.name measurementSpecial)
      (escapeChars measurementSpecial p.measurement.toList) p.measurement
      (((p.tags.flatMap fun tag => ',' :: tagChars tag) ++
        ([' '] ++ (fieldsChars p.fields ++ timeChars nanos))) ++ rest) :=
    reads_name (by decide) hplain.measurement (by cases p.tags <;> rfl)
  refine hmeasurement.bind ((reads_guard (by simpa using hname) _).after ?_)
  refine (reads_tags hplain.tags _).bind ((reads_skip ' ' _).bind ?_)
  have htime : Stops fieldsEnds (timeChars nanos ++ rest) := by
    cases nanos with
    | none => exact hrest.mono fun c hc => by rw [of_decide_eq_true hc]; rfl
    | some t => rfl
  refine (reads_fields hplain.fields hvalues htime).bind ?_
  exact (reads_time nanos hrest).finish (.pure _ rest)

theorem reads_samples {points : List Point} {lines : List String}
    (hplain : ∀ p ∈ points, PlainNames p)
    (h : List.Forall₂ (fun p line => write p = .ok line) points lines) :
    ∃ items : List (List Char × Sample), items.map Prod.fst = lines.map String.toList ∧
      List.Forall₂ Describes (items.map Prod.snd) points ∧
      ∀ item ∈ items, ∀ rest, Stops sampleEnds rest →
        Reads .sample item.1 item.2 rest := by
  induction h with
  | nil => exact ⟨[], rfl, .nil, fun _ h => nomatch h⟩
  | @cons p line points lines hline _ ih =>
    obtain ⟨s, hs, hreads⟩ := reads_sample (hplain p List.mem_cons_self) hline
    obtain ⟨items, hlines, hdescribes, hitems⟩ :=
      ih fun q hq => hplain q (List.mem_cons_of_mem p hq)
    exact ⟨(line.toList, s) :: items, congrArg (line.toList :: ·) hlines, .cons hs hdescribes,
      List.forall_mem_cons.2 ⟨hreads, hitems⟩⟩

theorem toList_intercalate_cons (first : String) (lines : List String) :
    ("\n".intercalate (first :: lines)).toList =
      first.toList ++ lines.flatMap fun line => '\n' :: line.toList := by
  induction lines generalizing first with
  | nil => simp
  | cons next lines ih =>
    rw [String.intercalate_cons_cons, String.toList_append, String.toList_append, ih]
    simp

/-- What was written is read back: for each point, in order, its measurement, its tags and its
fields in order with their types, and its time where it has one. -/
theorem readAll_writeAll {points : List Point} {body : String} (h : writeAll points = .ok body)
    (hplain : ∀ p ∈ points, PlainNames p) :
    ∃ samples, readAll body = some samples ∧ List.Forall₂ Describes samples points := by
  obtain ⟨lines, hlines, rfl⟩ := (writeAll_iff points body).1 h
  obtain ⟨items, hwritten, hdescribes, hitems⟩ := reads_samples hplain hlines
  refine ⟨items.map Prod.snd, ?_, hdescribes⟩
  cases lines with
  | nil =>
    obtain rfl : items = [] := List.map_eq_nil_iff.1 hwritten
    rw [String.intercalate_nil]
    rfl
  | cons line lines =>
    obtain ⟨item, items, rfl, hfirst, hrest⟩ := List.map_eq_cons_iff.1 hwritten
    have hfollows : Stops sampleEnds [] := rfl
    have hmark : sampleEnds '\n' := rfl
    have hread := reads_separated hmark hitems hfollows (by simp)
    have hbody : item.1 ++ items.flatMap (fun item => '\n' :: item.1) =
        ("\n".intercalate (line :: lines)).toList := by
      have hlines : (items.map Prod.fst).flatMap (List.cons '\n') =
          (lines.map String.toList).flatMap (List.cons '\n') := by rw [hrest]
      rw [List.flatMap_map, List.flatMap_map] at hlines
      rw [toList_intercalate_cons, hfirst, hlines]
    rw [Reads, List.append_nil, hbody] at hread
    have hne : "\n".intercalate (line :: lines) ≠ "" := by
      intro hempty
      -- no sample can be read from an empty text
      rw [hempty] at hread
      cases hread
    rw [readAll, if_neg hne, hread]

/-- Marks of the format in every place, two empty names, and a line without fields. -/
def tricky : List Point :=
  [{ measurement := "a\\b,c d", tags := [("", "v\"w"), ("k=\\\\x", "")],
     fields := [("f", .text "say \"hi\"\n\\ ,="), ("", .bool false), ("n", .int (-7)),
       ("x", .float .one)],
     time := 3, precision := .second },
    { measurement := "m", time := 5 }]

def trickyBody : String :=
  "a\\b\\,c\\ d,=v\"w,k\\=\\\\x= f=\"say \\\"hi\\\"\n" ++
    "\\\\ ,=\",=false,n=-7i,x=1 3000000000\n" ++ "m  5"

theorem readAll_writeAll_tricky :
    writeAll tricky = .ok trickyBody ∧
      ∃ samples, readAll trickyBody = some samples ∧ List.Forall₂ Describes samples tricky := by
  have hwritten : writeAll tricky = .ok trickyBody := by decide +kernel
  have hplain : ∀ p ∈ tricky, PlainNames p := by decide +kernel
  exact ⟨hwritten, readAll_writeAll hwritten hplain⟩

end SeriesIngest.Line
