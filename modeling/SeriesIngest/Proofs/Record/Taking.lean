import SeriesIngest.Proofs.Record.Reading
import Mathlib.Data.List.Forall2

/-! What a success of a reader says about its input. The reader has taken some bytes at the head
of it, would have taken them before any other rest, and finds every proper part of them
truncated. Such readers are put together like the bytes they take. -/
namespace SeriesIngest.Record

/-- The reader gives `a` for these bytes and no fewer. -/
structure Takes (read : Reader α) (used : List UInt8) (a : α) : Prop where
  reads : Reads read used a
  short : ∀ part more, used = part ++ more → more ≠ [] → read.run part = .error .truncated

/-- All that the reader ever takes are bytes `used` for an `a` with `Form used a`. -/
def Exact (read : Reader α) (Form : List UInt8 → α → Prop) : Prop :=
  ∀ input a rest, read.run input = .ok (a, rest) →
    ∃ used, input = used ++ rest ∧ Takes read used a ∧ Form used a

variable {read : Reader α} {next : α → Reader β} {used more : List UInt8} {a : α} {b : β}

theorem run_bind_ok {input rest : List UInt8} (h : (read >>= next).run input = .ok (b, rest)) :
    ∃ a middle, read.run input = .ok (a, middle) ∧ (next a).run middle = .ok (b, rest) := by
  rw [StateT.run_bind] at h
  cases hread : read.run input with
  | error defect =>
    rw [hread] at h
    cases h
  | ok result =>
    rw [hread] at h
    exact ⟨result.1, result.2, rfl, h⟩

theorem Takes.pure (a : α) : Takes (pure a) [] a where
  reads := .pure a
  short _ _ h hmore := absurd (List.append_eq_nil_iff.1 h.symm).2 hmore

theorem part_cases {head tail part missing : List UInt8} (h : head ++ tail = part ++ missing) :
    (∃ cut, head = part ++ cut ∧ cut ≠ []) ∨
      ∃ part', part = head ++ part' ∧ tail = part' ++ missing := by
  rcases List.append_eq_append_iff.1 h with ⟨part', hpart, htail⟩ | ⟨cut, hhead, htail⟩
  · exact .inr ⟨part', hpart, htail⟩
  · by_cases hcut : cut = []
    · -- the cut falls between the two pieces
      subst hcut
      exact .inr ⟨[], by simpa using hhead.symm, htail.symm⟩
    · exact .inl ⟨cut, hhead, hcut⟩

theorem Takes.bind (h : Takes read used a) (hnext : Takes (next a) more b) :
    Takes (read >>= next) (used ++ more) b where
  reads := h.reads.bind hnext.reads
  short part missing heq hmissing := by
    rcases part_cases heq with ⟨cut, hused, hcut⟩ | ⟨part', rfl, hmore⟩
    · rw [StateT.run_bind, h.short part cut hused hcut]
      rfl
    · rw [StateT.run_bind, h.reads part']
      exact hnext.short part' missing hmore hmissing

theorem Exact.mono {Form Form' : List UInt8 → α → Prop} (h : Exact read Form)
    (himp : ∀ used a, Form used a → Form' used a) : Exact read Form' := by
  intro input a rest hrun
  obtain ⟨used, hinput, htakes, hform⟩ := h input a rest hrun
  exact ⟨used, hinput, htakes, himp used a hform⟩

theorem Exact.pure (a : α) : Exact (pure a) fun used b => used = [] ∧ b = a := by
  intro input b rest hrun
  cases hrun
  exact ⟨[], rfl, .pure a, rfl, rfl⟩

theorem Exact.refused (defect : RecordDefect) (Form : List UInt8 → α → Prop) :
    Exact (throw defect) Form := by
  intro input b rest hrun
  cases hrun

theorem Exact.bind {Form : List UInt8 → α → Prop} {Next : α → List UInt8 → β → Prop}
    (h : Exact read Form) (hnext : ∀ a, Exact (next a) (Next a)) :
    Exact (read >>= next) fun used b =>
      ∃ a head tail, used = head ++ tail ∧ Form head a ∧ Next a tail b := by
  intro input b rest hrun
  obtain ⟨a, middle, hread, hrest⟩ := run_bind_ok hrun
  obtain ⟨head, rfl, htakes, hform⟩ := h input a middle hread
  obtain ⟨tail, rfl, htakes', hform'⟩ := hnext a middle b rest hrest
  exact ⟨head ++ tail, (List.append_assoc _ _ _).symm, htakes.bind htakes', a, head, tail, rfl,
    hform, hform'⟩

theorem exact_take (n : Nat) : Exact (take n) fun used bytes => used = bytes ∧ bytes.length = n := by
  intro input bytes rest hrun
  change (if n ≤ input.length then _ else _) = _ at hrun
  split at hrun
  next hroom =>
    cases hrun
    have hlength : (input.take n).length = n := List.length_take_of_le hroom
    refine ⟨input.take n, (List.take_append_drop n input).symm, ⟨?_, ?_⟩, rfl, hlength⟩
    · have hreads := reads_take (input.take n)
      rwa [hlength] at hreads
    · intro part more hpart hmore
      have hpos : 0 < more.length := List.length_pos_iff.2 hmore
      have hsum := congrArg List.length hpart
      rw [List.length_append, hlength] at hsum
      change (if n ≤ part.length then _ else _) = _
      rw [if_neg (by omega)]
  next => cases hrun

theorem wordBytes_of_decode {bytes : List UInt8} (h : bytes.length = 4) :
    wordBytes (BigEndian.decode bytes).toUInt32.toInt32 = bytes := by
  have hlt := BigEndian.decode_lt bytes
  have hword : (BigEndian.decode bytes).toUInt32.toInt32.toUInt32.toNat = BigEndian.decode bytes := by
    rw [UInt32.toUInt32_toInt32, Nat.toUInt32_eq, UInt32.toNat_ofNat', Nat.mod_eq_of_lt]
    rwa [h] at hlt
  rw [wordBytes, hword, ← h, BigEndian.encode_decode]

theorem intBytes_readInt {bytes : List UInt8} (h : bytes.length = 8) :
    Column.intBytes (Column.readInt bytes) = bytes := by
  have hlt := BigEndian.decode_lt bytes
  have hword : (Column.readInt bytes).toUInt64.toNat = BigEndian.decode bytes := by
    rw [Column.readInt, UInt64.toUInt64_toInt64, Nat.toUInt64_eq, UInt64.toNat_ofNat',
      Nat.mod_eq_of_lt]
    rwa [h] at hlt
  rw [Column.intBytes, hword, ← h, BigEndian.encode_decode]

theorem exact_word : Exact readWord fun used w => used = wordBytes w := by
  refine ((exact_take 4).bind fun bytes => Exact.pure _).mono ?_
  rintro used w ⟨bytes, head, tail, rfl, ⟨rfl, hlength⟩, rfl, rfl⟩
  rw [List.append_nil, wordBytes_of_decode hlength]

theorem exact_time : Exact readTime fun used t => used = Column.intBytes t := by
  refine ((exact_take 8).bind fun bytes => Exact.pure _).mono ?_
  rintro used t ⟨bytes, head, tail, rfl, ⟨rfl, hlength⟩, rfl, rfl⟩
  rw [List.append_nil, intBytes_readInt hlength]

theorem toNat_toInt_lt (w : Int32) : w.toInt.toNat < 2 ^ 31 := by
  have hhigh := w.toInt_lt
  omega

theorem wordBytes_of_not_neg {w : Int32} (h : ¬ w < 0) :
    wordBytes w = BigEndian.encode 4 w.toInt.toNat := by
  have hint : 0 ≤ w.toInt := by
    rw [Int32.lt_iff_toInt_lt] at h
    exact Int.not_lt.1 h
  have hword : Int32.ofNat w.toInt.toNat = w := by
    rw [← Int32.ofInt_eq_ofNat, Int.toNat_of_nonneg hint, Int32.ofInt_toInt]
  rw [encode_eq_wordBytes (toNat_toInt_lt w), hword]

theorem readLength_ok {input rest : List UInt8} {unit n : Nat}
    (h : (readLength unit).run input = .ok (n, rest)) :
    n < 2 ^ 31 ∧ input = BigEndian.encode 4 n ++ rest := by
  obtain ⟨w, middle, hword, hrest⟩ := run_bind_ok h
  obtain ⟨used, rfl, -, rfl⟩ := exact_word _ _ _ hword
  split at hrest
  next => cases hrest
  next hneg =>
    obtain ⟨input, middle', hget, hrest⟩ := run_bind_ok hrest
    cases hget
    split at hrest
    next => cases hrest
    next =>
      cases hrest
      exact ⟨toNat_toInt_lt w, by rw [wordBytes_of_not_neg hneg]⟩

theorem takes_word (w : Int32) : Takes readWord (wordBytes w) w := by
  have hrun := reads_word w []
  rw [List.append_nil] at hrun
  obtain ⟨used, -, htakes, rfl⟩ := exact_word _ _ _ hrun
  exact htakes

theorem Takes.length {next : Nat → Reader β} {unit n : Nat} (hlt : n < 2 ^ 31)
    (hroom : n * unit ≤ more.length) (h : Takes (next n) more b) :
    Takes (readLength unit >>= next) (BigEndian.encode 4 n ++ more) b where
  reads := h.reads.length hlt hroom
  short part missing heq hmissing := by
    rcases part_cases heq with ⟨cut, hword, hcut⟩ | ⟨part', rfl, hmore⟩
    · rw [encode_eq_wordBytes hlt] at hword
      rw [readLength, bind_assoc, StateT.run_bind, (takes_word _).short part cut hword hcut]
      rfl
    · rw [StateT.run_bind]
      by_cases hpart : part'.length < n * unit
      · rw [run_readLength_encode hlt, if_pos hpart]
        rfl
      · rw [run_readLength hlt (Nat.not_lt.1 hpart)]
        exact h.short part' missing hmore hmissing

theorem Exact.length {next : Nat → Reader β} {Next : Nat → List UInt8 → β → Prop} {unit : Nat}
    (h : ∀ n, Exact (next n) (Next n)) (hroom : ∀ n used b, Next n used b → n * unit ≤ used.length) :
    Exact (readLength unit >>= next) fun used b =>
      ∃ n tail, n < 2 ^ 31 ∧ used = BigEndian.encode 4 n ++ tail ∧ Next n tail b := by
  intro input b rest hrun
  obtain ⟨n, middle, hlength, hrest⟩ := run_bind_ok hrun
  obtain ⟨hlt, rfl⟩ := readLength_ok hlength
  obtain ⟨tail, rfl, htakes, hform⟩ := h n middle b rest hrest
  exact ⟨BigEndian.encode 4 n ++ tail, (List.append_assoc _ _ _).symm,
    htakes.length hlt (hroom n tail b hform), n, tail, hlt, rfl, hform⟩

theorem Exact.many {Form : List UInt8 → α → Prop} (h : Exact read Form) (n : Nat) :
    Exact (readMany read n) fun used items =>
      items.length = n ∧ ∃ pieces, List.Forall₂ Form pieces items ∧ used = pieces.flatten := by
  induction n with
  | zero =>
    refine (Exact.pure _).mono ?_
    rintro used items ⟨rfl, rfl⟩
    exact ⟨rfl, [], .nil, rfl⟩
  | succ n ih =>
    refine (h.bind fun a => ih.bind fun items => Exact.pure _).mono ?_
    rintro used items ⟨a, head, tail, rfl, hhead, items', body, last, rfl, ⟨hlength, pieces, hpieces,
      rfl⟩, rfl, rfl⟩
    exact ⟨by rw [List.length_cons, hlength], head :: pieces, .cons hhead hpieces, by simp⟩

theorem length_le_flatten {Form : List UInt8 → α → Prop} {least : Nat} {pieces : List (List UInt8)}
    {items : List α} (hpieces : List.Forall₂ Form pieces items)
    (hleast : ∀ used a, Form used a → least ≤ used.length) :
    items.length * least ≤ pieces.flatten.length := by
  induction hpieces with
  | nil => simp
  | cons hpiece _ ih =>
    have hhead := hleast _ _ hpiece
    rw [List.length_cons, List.flatten_cons, List.length_append, Nat.succ_mul]
    omega

theorem Exact.reads {Form : List UInt8 → α → Prop} (h : Exact read Form) :
    Exact read (Reads read) := by
  intro input a rest hrun
  obtain ⟨used, hinput, htakes, -⟩ := h input a rest hrun
  exact ⟨used, hinput, htakes, htakes.reads⟩

/-- A proper part of the groups that are read ends before the limit is reached. -/
theorem exact_groups (limit : Nat) : Exact (ZigZag.readGroups limit) fun _ _ => True := by
  induction limit with
  | zero =>
    intro input n rest hrun
    cases hrun
  | succ limit ih =>
    intro input n rest hrun
    change ZigZag.readGroups (limit + 1) input = _ at hrun
    cases input with
    | nil => cases hrun
    | cons byte input =>
      rw [ZigZag.readGroups] at hrun
      by_cases hlast : byte < 128
      · rw [if_pos hlast] at hrun
        cases hrun
        refine ⟨[byte], rfl, ⟨fun more => ?_, fun part more hpart hmore => ?_⟩, trivial⟩
        · change ZigZag.readGroups (limit + 1) (byte :: more) = _
          rw [ZigZag.readGroups, if_pos hlast]
        · rcases List.singleton_eq_append_iff.1 hpart with ⟨rfl, -⟩ | ⟨-, rfl⟩
          · rfl
          · exact absurd rfl hmore
      · rw [if_neg hlast] at hrun
        cases hrest : ZigZag.readGroups limit input with
        | error defect =>
          rw [hrest] at hrun
          cases hrun
        | ok result =>
          rw [hrest] at hrun
          cases hrun
          obtain ⟨used, rfl, htakes, -⟩ := ih _ _ _ hrest
          have hreads (more) : ZigZag.readGroups limit (used ++ more) = .ok (_, more) :=
            htakes.reads more
          refine ⟨byte :: used, rfl, ⟨fun more => ?_, fun part more hpart hmore => ?_⟩, trivial⟩
          · change ZigZag.readGroups (limit + 1) (byte :: (used ++ more)) = _
            rw [ZigZag.readGroups, if_neg hlast, hreads]
          · -- a proper part ends among the groups after the first one
            cases part with
            | nil => rfl
            | cons first part =>
              obtain ⟨rfl, htail⟩ := List.cons.inj hpart
              have hshort : ZigZag.readGroups limit part = .error .truncated :=
                htakes.short part more htail hmore
              change ZigZag.readGroups (limit + 1) (byte :: part) = _
              rw [ZigZag.readGroups, if_neg hlast, hshort]

theorem exact_zigzag : Exact ZigZag.read (Reads ZigZag.read) := by
  have hread : ZigZag.read = ((ZigZag.readGroups 10 : Reader Nat) >>= fun n =>
      Pure.pure (ZigZag.unfold (n % UInt64.size)) : Reader Int64) := by
    funext input
    change (ZigZag.readGroups 10 input).map _ = ZigZag.readGroups 10 input >>= _
    cases ZigZag.readGroups 10 input <;> rfl
  have hexact := (exact_groups 10).bind fun n => Exact.pure (ZigZag.unfold (n % UInt64.size))
  rw [hread]
  exact hexact.reads

end SeriesIngest.Record
