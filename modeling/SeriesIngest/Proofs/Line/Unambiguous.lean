import SeriesIngest.Proofs.Decimal.Text
import SeriesIngest.Proofs.Line.RoundTrip
import Mathlib.Data.List.Induction

/-! Two samples with the same line are the same, as long as nothing in front of the fields ends with
a backslash. Measurement and tags are told apart from the left: a name without such an end stops at
the first mark that is not escaped. Fields and time are told apart from the right, where the mark
before a key follows a value, and a value never ends with a backslash. -/
namespace SeriesIngest.Line

/-- Measurement, tag keys and tag values do not end with a backslash. -/
structure SealedHead (p : Point) : Prop where
  measurement : p.measurement.toList.getLast? ≠ some '\\'
  tags : ∀ tag ∈ p.tags, tag.1.toList.getLast? ≠ some '\\' ∧ tag.2.toList.getLast? ≠ some '\\'

instance (p : Point) : Decidable (SealedHead p) :=
  decidable_of_iff (p.measurement.toList.getLast? ≠ some '\\' ∧
    ∀ tag ∈ p.tags, tag.1.toList.getLast? ≠ some '\\' ∧ tag.2.toList.getLast? ≠ some '\\')
    ⟨fun ⟨hm, ht⟩ => ⟨hm, ht⟩, fun h => ⟨h.measurement, h.tags⟩⟩

/-! Escaped texts. -/

section

variable {special : Char → Bool} {name name' before before' rest rest' : List Char} {c c' : Char}

theorem special_head (hbackslash : special '\\' = false)
    (h : escapeChars special name = c :: rest) : special c = false := by
  cases name with
  | nil => cases h
  | cons d name =>
    rw [escapeChars_cons] at h
    cases hd : special d with
    | true =>
      rw [hd, if_pos rfl] at h
      cases h
      exact hbackslash
    | false =>
      rw [hd, if_neg Bool.false_ne_true] at h
      cases h
      exact hd

theorem escapeChars_injective : Function.Injective (escapeChars special) := by
  intro name name' h
  induction name generalizing name' with
  | nil =>
    cases name' with
    | nil => rfl
    | cons d name' =>
      rw [escapeChars_cons] at h
      split at h <;> cases h
  | cons c name ih =>
    cases name' with
    | nil =>
      rw [escapeChars_cons] at h
      split at h <;> cases h
    | cons d name' =>
      rw [escapeChars_cons, escapeChars_cons] at h
      cases hc : special c <;> cases hd : special d <;> simp [hc, hd] at h
      · rw [h.1, ih h.2]
      · obtain ⟨rfl, hrest⟩ := h
        rw [special_head hc hrest] at hd
        cases hd
      · obtain ⟨rfl, hrest⟩ := h
        rw [special_head hd hrest.symm] at hc
        cases hc
      · rw [h.1, ih h.2]

/-- Inside an escaped text a backslash stands before every special character. -/
theorem getLast?_before_special (h : escapeChars special name = before ++ c :: rest)
    (hc : special c) (hne : c ≠ '\\') : before.getLast? = some '\\' := by
  have hcons (b : Char) {before : List Char} (hlast : before.getLast? = some '\\') :
      (b :: before).getLast? = some '\\' := by
    rw [List.getLast?_cons, hlast]
    rfl
  induction name generalizing before with
  | nil => simp at h
  | cons d name ih =>
    rw [escapeChars_cons] at h
    cases hd : special d with
    | false =>
      rw [hd, if_neg Bool.false_ne_true] at h
      cases before with
      | nil =>
        cases h
        rw [hd] at hc
        cases hc
      | cons b before => exact hcons b (ih (List.cons.inj h).2)
    | true =>
      rw [hd, if_pos rfl] at h
      match before with
      | [] => exact absurd (List.cons.inj h).1.symm hne
      | [b] => exact congrArg some (List.cons.inj h).1.symm
      | b :: b' :: before => exact hcons b (hcons b' (ih (List.cons.inj (List.cons.inj h).2).2))

theorem name_append_injective (hbackslash : special '\\' = false)
    (hname : name.getLast? ≠ some '\\') (hname' : name'.getLast? ≠ some '\\')
    (hrest : Stops special rest) (hrest' : Stops special rest')
    (h : escapeChars special name ++ rest = escapeChars special name' ++ rest') :
    name = name' ∧ rest = rest' := by
  have hcut := cut_escapeChars hbackslash ⟨fun _ _ hc => hc, .inr hname⟩ hrest
  rw [h, cut_escapeChars hbackslash ⟨fun _ _ hc => hc, .inr hname'⟩ hrest', Prod.mk.injEq] at hcut
  exact ⟨hcut.1.symm, hcut.2.symm⟩

theorem same_mark (h : before ++ c :: rest = before' ++ c' :: rest')
    (hno : ∀ more, before' = before ++ c :: more → rest ≠ more ++ c' :: rest')
    (hno' : ∀ more, before = before' ++ c' :: more → rest' ≠ more ++ c :: rest) :
    before = before' ∧ c = c' ∧ rest = rest' := by
  rcases List.append_eq_append_iff.1 h with ⟨more, hbefore, hrest⟩ | ⟨more, hbefore, hrest⟩
  · cases more with
    | nil => exact ⟨by simp [hbefore], List.cons.inj hrest⟩
    | cons d more =>
      obtain ⟨rfl, hmore⟩ := List.cons.inj hrest
      exact absurd hmore (hno more hbefore)
  · cases more with
    | nil =>
      obtain ⟨hmark, hafter⟩ := List.cons.inj hrest
      exact ⟨by simp [hbefore], hmark.symm, hafter.symm⟩
    | cons d more =>
      obtain ⟨rfl, hmore⟩ := List.cons.inj hrest
      exact absurd hmore (hno' more hbefore)

/-- A mark that is not escaped is not inside an escaped name. -/
theorem name_ne (hc' : special c') (hne : c' ≠ '\\') (hbefore' : before'.getLast? ≠ some '\\')
    {more : List Char} (hsplit : before' = before ++ c :: more) :
    escapeChars special name ≠ more ++ c' :: rest' := by
  intro hname
  have hlast := getLast?_before_special hname hc' hne
  rw [hsplit, List.getLast?_append, List.getLast?_cons, hlast] at hbefore'
  exact hbefore' rfl

theorem append_name_injective (hbackslash : special '\\' = false) (hc : special c)
    (hc' : special c') (hbefore : before.getLast? ≠ some '\\')
    (hbefore' : before'.getLast? ≠ some '\\')
    (h : before ++ c :: escapeChars special name = before' ++ c' :: escapeChars special name') :
    before = before' ∧ c = c' ∧ name = name' := by
  have hne {d : Char} (hd : special d) : d ≠ '\\' := by
    rintro rfl
    rw [hbackslash] at hd
    cases hd
  obtain ⟨hsame, hmark, hname⟩ := same_mark h (fun _ => name_ne hc' (hne hc') hbefore')
    (fun _ => name_ne hc (hne hc) hbefore)
  exact ⟨hsame, hmark, escapeChars_injective hname⟩

end

/-! Values, from the right. -/

section

variable {key key' : String} {v v' : Value}

theorem chars_text (text : String) : (Literal.ofValue (.text text)).chars =
    '"' :: escapeChars quotedSpecial text.toList ++ ['"'] := rfl

theorem chars_ne (h : v.fault? key = none) {c : Char} (hc : isWordChar c = false)
    {more rest : List Char} (hrest : '"' ∉ c :: rest) :
    (Literal.ofValue v).chars ≠ more ++ c :: rest := by
  intro heq
  by_cases htext : ∃ text, v = .text text
  · obtain ⟨text, rfl⟩ := htext
    have hlast : (Literal.ofValue (.text text)).chars.getLast? = some '"' := by
      rw [chars_text, List.getLast?_concat]
    rw [heq, List.getLast?_append_cons] at hlast
    exact hrest (List.mem_of_getLast? hlast)
  · have hmem : c ∈ (Literal.ofValue v).chars := by simp [heq]
    have hword := isWordChar_chars h (fun text heq => htext ⟨text, heq⟩) c hmem
    rw [hc] at hword
    cases hword

theorem quote_notMem_chars (h : v.fault? key = none) (hno : ∀ text, v ≠ .text text) :
    '"' ∉ (Literal.ofValue v).chars := by
  intro hmem
  have hword := isWordChar_chars h hno '"' hmem
  revert hword
  decide

/-- No value has an assignment at its end: a quote after the mark would be escaped, but what stands
before that quote is the mark. -/
theorem chars_ne_assignment (h : v.fault? key = none) (h' : v'.fault? key' = none)
    (more : List Char) : (Literal.ofValue v).chars ≠ more ++ '=' :: (Literal.ofValue v').chars := by
  intro heq
  by_cases htext' : ∃ text, v' = .text text
  · obtain ⟨text', rfl⟩ := htext'
    by_cases htext : ∃ text, v = .text text
    · obtain ⟨text, rfl⟩ := htext
      have hbody : '"' :: escapeChars quotedSpecial text.toList =
          more ++ '=' :: '"' :: escapeChars quotedSpecial text'.toList := by
        refine (List.append_left_inj ['"']).1 ?_
        simpa [chars_text] using heq
      cases more with
      | nil => exact absurd (List.cons.inj hbody).1 (by decide)
      | cons c more =>
        have hescaped : escapeChars quotedSpecial text.toList =
            (more ++ ['=']) ++ '"' :: escapeChars quotedSpecial text'.toList := by
          simpa using (List.cons.inj hbody).2
        have hlast := getLast?_before_special hescaped rfl (by decide)
        rw [List.getLast?_concat] at hlast
        revert hlast
        decide
    · have hword := isWordChar_chars h (fun text heq => htext ⟨text, heq⟩) '=' (by simp [heq])
      revert hword
      decide
  · refine chars_ne h (by decide) ?_ heq
    rw [List.mem_cons, not_or]
    exact ⟨by decide, quote_notMem_chars h' fun text heq => htext' ⟨text, heq⟩⟩

theorem chars_injective (h : v.fault? key = none) (h' : v'.fault? key' = none)
    (heq : (Literal.ofValue v).chars = (Literal.ofValue v').chars) : v = v' := by
  by_cases htext : ∃ text, v = .text text
  · obtain ⟨text, rfl⟩ := htext
    by_cases htext' : ∃ text, v' = .text text
    · obtain ⟨text', rfl⟩ := htext'
      rw [chars_text, chars_text, List.append_left_inj] at heq
      rw [String.toList_inj.1 (escapeChars_injective (List.cons.inj heq).2)]
    · exact absurd (heq ▸ List.mem_cons_self)
        (quote_notMem_chars h' fun text heq => htext' ⟨text, heq⟩)
  · have hno : ∀ text, v ≠ .text text := fun text heq => htext ⟨text, heq⟩
    have hno' : ∀ text, v' ≠ .text text := by
      rintro text rfl
      exact quote_notMem_chars h hno (heq ▸ List.mem_cons_self)
    have hread := ofWord?_chars h hno
    rw [heq, ofWord?_chars h' hno', Option.some.injEq] at hread
    cases v <;> cases v' <;> simp [Literal.ofValue] at hread
    · rw [hread]
    · rename_i x y
      have hfinite : x.isFinite := by simpa [Value.fault?] using h
      have hfinite' : y.isFinite := by simpa [Value.fault?] using h'
      rw [Decimal.floatText_injective hfinite' hfinite (String.ofList_injective hread)]
    · rw [hread]
    · exact absurd rfl (hno _)

theorem append_value_injective {before before' : List Char} (h : v.fault? key = none)
    (h' : v'.fault? key' = none) (heq : before ++ '=' :: (Literal.ofValue v).chars =
      before' ++ '=' :: (Literal.ofValue v').chars) : before = before' ∧ v = v' := by
  obtain ⟨hbefore, -, hchars⟩ := same_mark heq (fun more _ => chars_ne_assignment h h' more)
    (fun more _ => chars_ne_assignment h' h more)
  exact ⟨hbefore, chars_injective h h' hchars⟩

theorem getLast?_append_value (h : v.fault? key = none) (before : List Char) :
    (before ++ '=' :: (Literal.ofValue v).chars).getLast? ≠ some '\\' := by
  intro hlast
  rw [List.getLast?_append_cons, List.getLast?_cons] at hlast
  cases hchars : (Literal.ofValue v).chars.getLast? with
  | none => simp [hchars] at hlast
  | some c =>
    obtain ⟨more, hmore⟩ := List.getLast?_eq_some_iff.1 hchars
    obtain rfl : c = '\\' := by simpa [hchars] using hlast
    exact chars_ne h (by decide) (by decide) hmore

end

/-! Fields and time, from the right. -/

def lead : Entries Value → List Char
  | [] => []
  | field :: fields => ' ' :: fieldsChars (field :: fields)

def leadMark : Entries Value → Char
  | [] => ' '
  | _ :: _ => ','

theorem fieldsChars_concat (fields : Entries Value) (field : String × Value) :
    ' ' :: fieldsChars (fields ++ [field]) = lead fields ++ leadMark fields :: fieldChars field := by
  cases fields with
  | nil => simp [fieldsChars, lead, leadMark]
  | cons first fields => simp [fieldsChars, lead, leadMark]

variable {fields fields' : Entries Value}

theorem fieldsChars_concat_value (fields : Entries Value) (field : String × Value) :
    ' ' :: fieldsChars (fields ++ [field]) =
      (lead fields ++ leadMark fields :: escapeChars keySpecial field.1.toList) ++
        '=' :: (Literal.ofValue field.2).chars := by
  rw [fieldsChars_concat]
  simp [fieldChars]

theorem getLast?_lead (h : ∀ field ∈ fields, field.2.fault? field.1 = none) :
    (lead fields).getLast? ≠ some '\\' := by
  induction fields using List.reverseRecOn with
  | nil => simp [lead]
  | append_singleton fields field _ =>
    have hlead : lead (fields ++ [field]) = ' ' :: fieldsChars (fields ++ [field]) := by
      cases fields <;> rfl
    rw [hlead, fieldsChars_concat_value]
    exact getLast?_append_value (h field (by simp)) _

theorem fieldsChars_eq_nil_iff (fields : Entries Value) : fieldsChars fields = [] ↔ fields = [] := by
  cases fields with
  | nil => simp [fieldsChars]
  | cons field fields => simp [fieldsChars, fieldChars]

theorem fieldsChars_injective (h : ∀ field ∈ fields, field.2.fault? field.1 = none)
    (h' : ∀ field ∈ fields', field.2.fault? field.1 = none)
    (heq : fieldsChars fields = fieldsChars fields') : fields = fields' := by
  -- from the last field on: a text may hold what looks like fields that come after it
  induction fields using List.reverseRecOn generalizing fields' with
  | nil => exact ((fieldsChars_eq_nil_iff fields').1 heq.symm).symm
  | append_singleton fields field ih =>
    cases fields' using List.reverseRecOn with
    | nil => exact (fieldsChars_eq_nil_iff _).1 heq
    | append_singleton fields' field' =>
      obtain ⟨hfields, hfield⟩ := List.forall_mem_append.1 h
      obtain ⟨hfields', hfield'⟩ := List.forall_mem_append.1 h'
      have hmarked := congrArg (List.cons ' ') heq
      rw [fieldsChars_concat_value, fieldsChars_concat_value] at hmarked
      obtain ⟨hkeyed, hvalue⟩ := append_value_injective (hfield field (by simp))
        (hfield' field' (by simp)) hmarked
      have hspecial (fields : Entries Value) : keySpecial (leadMark fields) := by
        cases fields <;> rfl
      obtain ⟨hlead, hmark, hkey⟩ := append_name_injective (by decide) (hspecial fields)
        (hspecial fields') (getLast?_lead hfields) (getLast?_lead hfields') hkeyed
      have hsame : field = field' := Prod.ext (String.toList_inj.1 hkey) hvalue
      have hbefore : fields = fields' := by
        cases fields with
        | nil =>
          cases fields' with
          | nil => rfl
          | cons first' fields' => cases hlead
        | cons first fields =>
          cases fields' with
          | nil => cases hlead
          | cons first' fields' => exact ih hfields hfields' (List.cons.inj hlead).2
      rw [hsame, hbefore]

theorem intDigits_injective {t t' : Int64}
    (h : Decimal.intDigits t.toInt = Decimal.intDigits t'.toInt) : t = t' := by
  have hread := int?_intDigits t
  rw [h, int?_intDigits, Option.some.injEq] at hread
  exact hread.symm

theorem notMem_intDigits {c : Char} (hc : isWordChar c = false) (i : Int) :
    c ∉ Decimal.intDigits i := by
  intro hmem
  rw [isWordChar_intDigits hmem] at hc
  cases hc

/-- A line with a time does not end like one without: no value ends with a blank and digits, and
digits do not hold a value. -/
theorem append_time_ne (h : ∀ field ∈ fields', field.2.fault? field.1 = none) (t : Int64) :
    ' ' :: fieldsChars fields ++ ' ' :: Decimal.intDigits t.toInt ≠ ' ' :: fieldsChars fields' := by
  intro heq
  cases fields' using List.reverseRecOn with
  | nil => simp [fieldsChars] at heq
  | append_singleton fields' field' =>
    rw [fieldsChars_concat_value] at heq
    have hassign : '=' ∉ Decimal.intDigits t.toInt := notMem_intDigits (by decide) _
    have hquote : '"' ∉ ' ' :: Decimal.intDigits t.toInt := by
      rw [List.mem_cons, not_or]
      exact ⟨by decide, notMem_intDigits (by decide) _⟩
    have hsame := same_mark heq (fun more _ hmore => hassign (by simp [hmore]))
      (fun more _ => chars_ne (h field' (by simp)) (by decide) hquote)
    exact absurd hsame.2.1 (by decide)

theorem append_digits_injective {before before' : List Char} {t t' : Int64}
    (h : before ++ ' ' :: Decimal.intDigits t.toInt =
      before' ++ ' ' :: Decimal.intDigits t'.toInt) : before = before' ∧ t = t' := by
  have hblank (t : Int64) : ' ' ∉ Decimal.intDigits t.toInt := notMem_intDigits (by decide) _
  obtain ⟨hbefore, -, hdigits⟩ := same_mark h (fun more _ hmore => hblank t (by simp [hmore]))
    (fun more _ hmore => hblank t' (by simp [hmore]))
  exact ⟨hbefore, intDigits_injective hdigits⟩

theorem append_time_injective (h : ∀ field ∈ fields, field.2.fault? field.1 = none)
    (h' : ∀ field ∈ fields', field.2.fault? field.1 = none) {nanos nanos' : Option Int64}
    (heq : ' ' :: fieldsChars fields ++ timeChars nanos =
      ' ' :: fieldsChars fields' ++ timeChars nanos') : fields = fields' ∧ nanos = nanos' := by
  cases nanos with
  | none =>
    cases nanos' with
    | none =>
      rw [timeChars, List.append_nil, List.append_nil] at heq
      exact ⟨fieldsChars_injective h h' (List.cons.inj heq).2, rfl⟩
    | some t' =>
      rw [timeChars, List.append_nil] at heq
      exact absurd heq.symm (append_time_ne h t')
  | some t =>
    cases nanos' with
    | none =>
      rw [timeChars, timeChars, List.append_nil] at heq
      exact absurd heq (append_time_ne h' t)
    | some t' =>
      obtain ⟨hfields, rfl⟩ := append_digits_injective heq
      exact ⟨fieldsChars_injective h h' (List.cons.inj hfields).2, rfl⟩

/-! Measurement and tags, from the left. -/

theorem tags_append_injective {tags tags' : Entries String}
    (h : ∀ tag ∈ tags, tag.1.toList.getLast? ≠ some '\\' ∧ tag.2.toList.getLast? ≠ some '\\')
    (h' : ∀ tag ∈ tags', tag.1.toList.getLast? ≠ some '\\' ∧ tag.2.toList.getLast? ≠ some '\\')
    {rest rest' : List Char}
    (heq : (tags.flatMap fun tag => ',' :: tagChars tag) ++ ' ' :: rest =
      (tags'.flatMap fun tag => ',' :: tagChars tag) ++ ' ' :: rest') :
    tags = tags' ∧ rest = rest' := by
  induction tags generalizing tags' with
  | nil =>
    cases tags' with
    | nil => exact ⟨rfl, (List.cons.inj heq).2⟩
    | cons tag' tags' => exact absurd (List.cons.inj heq).1 (by decide)
  | cons tag tags ih =>
    cases tags' with
    | nil => exact absurd (List.cons.inj heq).1 (by decide)
    | cons tag' tags' =>
      obtain ⟨htag, htags⟩ := List.forall_mem_cons.1 h
      obtain ⟨htag', htags'⟩ := List.forall_mem_cons.1 h'
      have hnext {tags : Entries String} {rest : List Char} : Stops keySpecial
          ((tags.flatMap fun tag => ',' :: tagChars tag) ++ ' ' :: rest) :=
        stops_each rfl tagChars tags rfl
      have hassign (rest : List Char) : Stops keySpecial (['='] ++ rest) := rfl
      rw [List.flatMap_cons, List.flatMap_cons, List.cons_append, List.cons_append,
        List.cons_append, List.cons_append, List.cons.injEq] at heq
      have hkeyed := heq.2
      simp only [tagChars, List.append_assoc] at hkeyed
      obtain ⟨hkey, hvalued⟩ := name_append_injective rfl htag.1 htag'.1
        (hassign _) (hassign _) hkeyed
      obtain ⟨hvalue, hrest⟩ := name_append_injective rfl htag.2 htag'.2 hnext hnext
        (List.cons.inj hvalued).2
      obtain ⟨rfl, rfl⟩ := ih htags htags' hrest
      rw [Prod.ext (String.toList_inj.1 hkey) (String.toList_inj.1 hvalue)]
      exact ⟨rfl, rfl⟩

/-- **One line, one sample.** When nothing in front of the fields ends with a backslash, two samples
with the same line have the same measurement, tags, fields with their types, and time. Field keys
and texts may hold anything. -/
theorem write_injective {p q : Point} {line : String} (hp : write p = .ok line)
    (hq : write q = .ok line) (hsealed : SealedHead p) (hsealed' : SealedHead q) :
    p.measurement = q.measurement ∧ p.tags = q.tags ∧ p.fields = q.fields ∧ p.nanos? = q.nanos? := by
  obtain ⟨-, hvalues, nanos, hnanos, hline⟩ := toList_line hp
  obtain ⟨-, hvalues', nanos', hnanos', hline'⟩ := toList_line hq
  rw [hline] at hline'
  have hstops {tags : Entries String} {rest : List Char} : Stops measurementSpecial
      ((tags.flatMap fun tag => ',' :: tagChars tag) ++ ([' '] ++ rest)) :=
    stops_each rfl tagChars tags rfl
  obtain ⟨hmeasurement, hrest⟩ :=
    name_append_injective rfl hsealed.measurement hsealed'.measurement hstops hstops hline'
  obtain ⟨htags, hends⟩ := tags_append_injective hsealed.tags hsealed'.tags hrest
  obtain ⟨hfields, rfl⟩ := append_time_injective (List.findSome?_eq_none_iff.1 hvalues)
    (List.findSome?_eq_none_iff.1 hvalues') (congrArg (List.cons ' ') hends)
  exact ⟨String.toList_inj.1 hmeasurement, htags, hfields, hnanos.trans hnanos'.symm⟩

/-- A field key that ends with a backslash, before a text that looks like a field, and one moment on
two scales. -/
theorem write_injective_two_scales :
    let p : Point :=
      { measurement := "a\\b", tags := [("k", "v w")],
        fields := [("f\\", .text "x=\"1\"\\"), ("g", .float .one)], time := 3, precision := .second }
    let q : Point := { p with time := 3000000000, precision := .nanosecond }
    let line := "a\\b,k=v\\ w f\\=\"x=\\\"1\\\"\\\\\",g=1 3000000000"
    write p = .ok line ∧ write q = .ok line ∧ SealedHead p ∧ SealedHead q ∧ p ≠ q ∧
      p.measurement = q.measurement ∧ p.tags = q.tags ∧ p.fields = q.fields ∧
      p.nanos? = q.nanos? := by
  intro p q line
  have hp : write p = .ok line := by decide +kernel
  have hq : write q = .ok line := by decide +kernel
  have hsealed : SealedHead p := by decide +kernel
  have hsealed' : SealedHead q := by decide +kernel
  exact ⟨hp, hq, hsealed, hsealed', by decide +kernel, write_injective hp hq hsealed hsealed'⟩

/-! Without the condition, the first tag may as well be part of the measurement. -/

theorem escapeChars_append (special : Char → Bool) (text more : List Char) :
    escapeChars special (text ++ more) = escapeChars special text ++ escapeChars special more :=
  List.flatMap_append

theorem escapeChars_assigned (text : List Char) :
    escapeChars measurementSpecial (escapeChars (fun c => c = '=') text) =
      escapeChars keySpecial text := by
  induction text with
  | nil => rfl
  | cons c text ih =>
    rw [escapeChars_cons, escapeChars_append, ih, escapeChars_cons keySpecial]
    by_cases hassign : c = '='
    · subst hassign
      rfl
    · simp [escapeChars, keySpecial, measurementSpecial, hassign]

/-- A sample with tags whose measurement ends with a backslash shares its line with one that has a
tag less. -/
theorem exists_twin {p : Point} {line : String} (h : write p = .ok line)
    (hlast : p.measurement.toList.getLast? = some '\\') (htags : p.tags ≠ []) :
    ∃ q, write q = .ok line ∧ q.tags.length + 1 = p.tags.length := by
  obtain ⟨start, hstart⟩ := List.getLast?_eq_some_iff.1 hlast
  obtain ⟨tag, tags, hcons⟩ := List.exists_cons_of_ne_nil htags
  let assigned (text : String) : List Char := escapeChars (fun c => c = '=') text.toList
  let joined : List Char := start ++ ',' :: (assigned tag.1 ++ '=' :: assigned tag.2)
  let q : Point := { p with measurement := String.ofList joined, tags }
  obtain ⟨hname, -, nanos, hnanos, hline⟩ := toList_line h
  have hcheck := (http_fault?_eq_none p).2 ⟨line, h⟩
  have hq : q.measurement ≠ "" := by
    intro hempty
    have hchars := congrArg String.toList hempty
    simp [q, joined] at hchars
  have hqcheck : Protocol.http.fault? q = none := by
    unfold Protocol.fault? at hcheck ⊢
    rw [if_neg hname] at hcheck
    rw [if_neg hq]
    exact hcheck
  obtain ⟨line', hline'⟩ := exists_line hqcheck
  obtain ⟨-, -, nanos', hnanos', hchars⟩ := toList_line hline'
  obtain rfl : nanos' = nanos := Except.ok.inj (hnanos'.symm.trans hnanos)
  have hjoined : escapeChars measurementSpecial q.measurement.toList =
      escapeChars measurementSpecial start ++
        '\\' :: ',' :: (escapeChars keySpecial tag.1.toList ++
          '=' :: escapeChars keySpecial tag.2.toList) := by
    rw [String.toList_ofList, escapeChars_append, escapeChars_cons, escapeChars_append,
      escapeChars_cons, escapeChars_assigned, escapeChars_assigned]
    rfl
  have hsame : line'.toList = line.toList := by
    rw [hchars, hline, hcons, hstart, hjoined, escapeChars_append]
    simp [q, tagChars, escapeChars, measurementSpecial]
  exact ⟨q, by rw [hline', String.toList_inj.1 hsame], by simp [q, hcons]⟩

/-- A backslash at the end of a measurement takes the tags into the measurement. -/
theorem backslash_joins_tag :
    let p : Point := { measurement := "m\\", tags := [("k", "v")], fields := [("f", .int 1)] }
    let q : Point := { measurement := "m,k=v", fields := [("f", .int 1)] }
    write p = .ok "m\\,k=v f=1i" ∧ write q = .ok "m\\,k=v f=1i" ∧
      p.measurement ≠ q.measurement ∧ p.tags ≠ q.tags := by
  decide +kernel

end SeriesIngest.Line
