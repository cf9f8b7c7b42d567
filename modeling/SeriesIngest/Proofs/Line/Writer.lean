import SeriesIngest.Line.Writer
import Mathlib.Data.List.Forall2

/-! Lines do not hang on what stands before them, so a body is its lines in a row; and a sample
that passes the check of the text protocol has a line. -/
namespace SeriesIngest.Line

theorem appendTags_eq (buffer : String) (tags : Entries String) :
    appendTags buffer tags = buffer ++ appendTags "" tags := by
  induction tags generalizing buffer with
  | nil => simp [appendTags]
  | cons tag rest ih =>
    rw [appendTags, ih, appendTags, ih ("" ++ "," ++ escapeKey tag.1 ++ "=" ++ escapeKey tag.2)]
    simp only [String.empty_append, String.append_assoc]

theorem appendFields_eq (buffer separator : String) (fields : Entries Value) :
    appendFields buffer separator fields =
      (buffer ++ (appendFields "" separator fields).1, (appendFields "" separator fields).2) := by
  induction fields generalizing buffer separator with
  | nil => simp [appendFields]
  | cons field rest ih =>
    obtain ⟨key, value⟩ := field
    simp only [appendFields]
    cases literal key value with
    | ok text =>
      dsimp only
      rw [ih, ih ("" ++ separator ++ escapeKey key ++ "=" ++ text)]
      simp only [String.empty_append, String.append_assoc]
    | error fault => simp only [String.empty_append, String.append_assoc]

/-- What a sample appends, and whether it fails, is the same after any content. -/
theorem append_eq (buffer : String) (p : Point) :
    append buffer p = (buffer ++ (append "" p).1, (append "" p).2) := by
  unfold append
  by_cases hname : p.measurement = ""
  · simp [hname]
  · rw [if_neg hname, if_neg hname]
    dsimp only
    rw [appendTags_eq, appendTags_eq ("" ++ escapeMeasurement p.measurement), appendFields_eq,
      appendFields_eq ("" ++ escapeMeasurement p.measurement ++ appendTags "" p.tags ++ " ")]
    cases (appendFields "" "" p.fields).2 with
    | some fault => simp only [String.empty_append, String.append_assoc]
    | none =>
      cases p.nanos? with
      | error fault => simp only [String.empty_append, String.append_assoc]
      | ok time => cases time <;> simp only [String.empty_append, String.append_assoc]

theorem append_of_write {p : Point} {line : String} (h : write p = .ok line) (buffer : String) :
    append buffer p = (buffer ++ line, none) := by
  rw [append_eq]
  unfold write at h
  split at h
  · rename_i text heq
    cases h
    rw [heq]
  · cases h

theorem appendAll_of_lines {p : Point} {line : String} {points : List Point} {lines : List String}
    (hline : write p = .ok line)
    (h : List.Forall₂ (fun p line => write p = .ok line) points lines) (buffer separator : String) :
    appendAll buffer separator (p :: points) =
      .ok (buffer ++ separator ++ "\n".intercalate (line :: lines)) := by
  induction h generalizing p line buffer separator with
  | nil =>
    rw [appendAll, append_of_write hline, String.intercalate_singleton]
    rfl
  | cons hnext _ ih =>
    rw [appendAll, append_of_write hline, String.intercalate_cons_cons]
    simp only [ih hnext, String.append_assoc]

theorem writeAll_of_lines {points : List Point} {lines : List String}
    (h : List.Forall₂ (fun p line => write p = .ok line) points lines) :
    writeAll points = .ok ("\n".intercalate lines) := by
  cases h with
  | nil => rw [writeAll, appendAll, String.intercalate_nil]
  | cons hline hrest =>
    rw [writeAll, appendAll_of_lines hline hrest]
    simp only [String.empty_append]

theorem exists_literal_iff (key : String) (value : Value) :
    (∃ text, literal key value = .ok text) ↔ value.fault? key = none := by
  cases value with
  | float v => by_cases hfinite : v.isFinite <;> simp [literal, Value.fault?, hfinite]
  | int v => simp [literal, Value.fault?]
  | bool v => simp [literal, Value.fault?]
  | text v => simp [literal, Value.fault?]

theorem appendFields_of_check {fields : Entries Value}
    (h : fields.findSome? (fun (key, v) => v.fault? key) = none) (buffer separator : String) :
    (appendFields buffer separator fields).2 = none := by
  induction fields generalizing buffer separator with
  | nil => rfl
  | cons field rest ih =>
    obtain ⟨key, value⟩ := field
    rw [List.findSome?_cons] at h
    cases hfault : value.fault? key with
    | some fault => simp [hfault] at h
    | none =>
      obtain ⟨text, htext⟩ := (exists_literal_iff key value).2 hfault
      simp only [hfault] at h
      simp only [appendFields, htext]
      exact ih h _ _

theorem exists_line {p : Point} (h : Protocol.http.fault? p = none) :
    ∃ line, write p = .ok line := by
  unfold Protocol.fault? at h
  by_cases hname : p.measurement = ""
  · simp [hname] at h
  · rw [if_neg hname] at h
    cases htime : p.nanos? with
    | error fault => simp [htime] at h
    | ok time =>
      rw [htime] at h
      have hfields := appendFields_of_check h
        (appendTags ("" ++ escapeMeasurement p.measurement) p.tags ++ " ") ""
      unfold write append
      rw [if_neg hname]
      dsimp only
      generalize appendFields _ _ _ = written at hfields
      obtain ⟨buffer, fault⟩ := written
      dsimp only at hfields
      rw [hfields, htime]
      cases time with
      | none => exact ⟨_, rfl⟩
      | some t => exact ⟨_, rfl⟩

theorem exists_lines {points : List Point} (h : ∀ p ∈ points, Protocol.http.fault? p = none) :
    ∃ lines, List.Forall₂ (fun p line => write p = .ok line) points lines := by
  induction points with
  | nil => exact ⟨[], .nil⟩
  | cons p points ih =>
    obtain ⟨line, hline⟩ := exists_line (h p List.mem_cons_self)
    obtain ⟨lines, hlines⟩ := ih fun q hq => h q (List.mem_cons_of_mem p hq)
    exact ⟨line :: lines, .cons hline hlines⟩

def timeText : Option Int64 → String
  | none => ""
  | some t => " " ++ String.ofList (Decimal.intDigits t.toInt)

theorem write_ok {p : Point} {line : String} (h : write p = .ok line) :
    p.measurement ≠ "" ∧ ∃ fields nanos, appendFields "" "" p.fields = (fields, none) ∧
      p.nanos? = .ok nanos ∧
      line = escapeMeasurement p.measurement ++ appendTags "" p.tags ++ " " ++ fields ++
        timeText nanos := by
  unfold write append at h
  by_cases hname : p.measurement = ""
  · simp [hname] at h
  · rw [if_neg hname] at h
    dsimp only at h
    rw [appendTags_eq, appendFields_eq] at h
    refine ⟨hname, ?_⟩
    cases hfields : appendFields "" "" p.fields with
    | mk fields fault =>
      cases fault with
      | some fault => simp [hfields] at h
      | none =>
        cases htime : p.nanos? with
        | error fault => simp [hfields, htime] at h
        | ok nanos =>
          refine ⟨fields, nanos, rfl, rfl, ?_⟩
          cases nanos <;>
            simpa [hfields, htime, timeText, String.append_assoc, eq_comm] using h

theorem check_of_appendFields {fields : Entries Value} {buffer separator : String}
    (h : (appendFields buffer separator fields).2 = none) :
    fields.findSome? (fun (key, v) => v.fault? key) = none := by
  induction fields generalizing buffer separator with
  | nil => rfl
  | cons field rest ih =>
    obtain ⟨key, value⟩ := field
    rw [appendFields] at h
    cases hliteral : literal key value with
    | error fault => simp [hliteral] at h
    | ok text =>
      simp only [hliteral] at h
      have hfault := (exists_literal_iff key value).1 ⟨text, hliteral⟩
      rw [List.findSome?_cons]
      simp only [hfault]
      exact ih h

theorem http_fault?_eq_none (p : Point) :
    Protocol.http.fault? p = none ↔ ∃ line, write p = .ok line := by
  refine ⟨exists_line, ?_⟩
  rintro ⟨line, hline⟩
  obtain ⟨hname, fields, nanos, hfields, htime, -⟩ := write_ok hline
  have hcheck := check_of_appendFields (congrArg Prod.snd hfields)
  simp [Protocol.fault?, hname, htime, hcheck]

theorem exists_lines_iff (points : List Point) :
    (∃ lines, List.Forall₂ (fun p line => write p = .ok line) points lines) ↔
      ∀ p ∈ points, Protocol.http.fault? p = none := by
  refine ⟨?_, exists_lines⟩
  rintro ⟨lines, hlines⟩
  induction hlines with
  | nil => exact fun _ h => nomatch h
  | cons hline _ ih =>
    exact List.forall_mem_cons.2 ⟨(http_fault?_eq_none _).2 ⟨_, hline⟩, ih⟩

theorem lines_of_appendAll {points : List Point} {buffer separator body : String}
    (h : appendAll buffer separator points = .ok body) :
    ∃ lines, List.Forall₂ (fun p line => write p = .ok line) points lines := by
  induction points generalizing buffer separator with
  | nil => exact ⟨[], .nil⟩
  | cons p points ih =>
    rw [appendAll, append_eq] at h
    cases hp : append "" p with
    | mk line fault =>
      cases fault with
      | some fault => simp [hp] at h
      | none =>
        simp only [hp] at h
        obtain ⟨lines, hlines⟩ := ih h
        exact ⟨line :: lines, .cons (by rw [write, hp]) hlines⟩

/-- A body is the lines of its samples, joined by line feeds. -/
theorem writeAll_iff (points : List Point) (body : String) :
    writeAll points = .ok body ↔
      ∃ lines, List.Forall₂ (fun p line => write p = .ok line) points lines ∧
        body = "\n".intercalate lines := by
  constructor
  · intro h
    obtain ⟨lines, hlines⟩ := lines_of_appendAll h
    exact ⟨lines, hlines, Except.ok.inj (h.symm.trans (writeAll_of_lines hlines))⟩
  · rintro ⟨lines, hlines, rfl⟩
    exact writeAll_of_lines hlines

theorem exists_write_iff (p : Point) : (∃ line, write p = .ok line) ↔ (append "" p).2 = none := by
  unfold write
  split
  next line h => simp [h]
  next line fault h => simp [h]

theorem write_error_iff (p : Point) (fault : EncodingFault) :
    write p = .error fault ↔ (append "" p).2 = some fault := by
  unfold write
  split
  next line h => simp [h]
  next line other h => simp [h]

theorem appendAll_error_iff (buffer separator : String) (points : List Point)
    (fault : EncodingFault) :
    appendAll buffer separator points = .error fault ↔
      points.findSome? (fun p => (append "" p).2) = some fault := by
  induction points generalizing buffer separator with
  | nil => simp [appendAll]
  | cons p rest ih =>
    rw [appendAll, append_eq, List.findSome?_cons]
    cases (append "" p).2 with
    | none => exact ih _ _
    | some first => simp

theorem writeAll_error_iff (points : List Point) (fault : EncodingFault) :
    writeAll points = .error fault ↔
      ∃ before p rest, points = before ++ p :: rest ∧ write p = .error fault ∧
        ∀ q ∈ before, ∃ line, write q = .ok line := by
  rw [writeAll, appendAll_error_iff, List.findSome?_eq_some_iff]
  simp only [write_error_iff, exists_write_iff]

/-- A sample appends the same to every buffer, up to the fault that stops it if there is one. A body
is the lines of its samples joined by line feeds, or else the fault of the first sample without a
line. -/
theorem append_and_join :
    (∀ buffer p, append buffer p = (buffer ++ (append "" p).1, (append "" p).2)) ∧
      ∀ points,
        (∀ body, writeAll points = .ok body ↔
          ∃ lines, List.Forall₂ (fun p line => write p = .ok line) points lines ∧
            body = "\n".intercalate lines) ∧
        ∀ fault, writeAll points = .error fault ↔
          ∃ before p rest, points = before ++ p :: rest ∧ write p = .error fault ∧
            ∀ q ∈ before, ∃ line, write q = .ok line :=
  ⟨append_eq, fun points => ⟨writeAll_iff points, writeAll_error_iff points⟩⟩

end SeriesIngest.Line
