import SeriesIngest.Proofs.Record.RoundTrip
import SeriesIngest.Proofs.Record.Taking

/-! Which bytes are read as a record: those that are written for it, but for the varints of its
types, which may be longer than they need to be. -/
namespace SeriesIngest.Record

theorem exact_block : Exact readBlock fun used bytes =>
    bytes.length < 2 ^ 31 ∧ used = blockWire bytes := by
  refine (Exact.length exact_take ?_).mono ?_
  · rintro n used bytes ⟨rfl, rfl⟩
    rw [Nat.mul_one]
  · rintro used bytes ⟨n, tail, hlt, rfl, rfl, rfl⟩
    exact ⟨hlt, rfl⟩

def entryWith (varint : List UInt8) (e : SchemaEntry) : List UInt8 :=
  blockWire (Utf8.encode e.name) ++ varint

def TypeForm (varint : List UInt8) (e : SchemaEntry) : Prop :=
  Reads ZigZag.read varint e.type.id

theorem TypeForm.length_pos {varint : List UInt8} {e : SchemaEntry} (h : TypeForm varint e) :
    0 < varint.length := by
  cases varint with
  | nil => cases h []
  | cons byte varint => exact Nat.succ_pos _

def EntryForm (used : List UInt8) (e : SchemaEntry) : Prop :=
  (Utf8.encode e.name).length < 2 ^ 31 ∧ ∃ varint, TypeForm varint e ∧ used = entryWith varint e

theorem id_of_ofId? {id : Int64} {type : ColumnType} (h : ColumnType.ofId? id = some type) :
    type.id = id := by
  unfold ColumnType.ofId? at h
  simpa using List.find?_some h

theorem Exact.unless {read : Reader α} {Form : List UInt8 → α → Prop} (h : Exact read Form)
    (bad : Prop) [Decidable bad] (defect : RecordDefect) :
    Exact (if bad then throw defect else read) fun used a => ¬ bad ∧ Form used a := by
  by_cases hbad : bad
  · rw [if_pos hbad]
    exact .refused _ _
  · rw [if_neg hbad]
    exact h.mono fun _ _ hform => ⟨hbad, hform⟩

theorem exact_entry : Exact readEntry EntryForm := by
  refine (exact_block.bind (?_ : ∀ bytes, Exact _ fun used e =>
    Utf8.decode bytes = .ok e.name ∧ TypeForm used e)).mono ?_
  · intro bytes
    cases hname : Utf8.decode bytes with
    | error fault => exact .refused _ _
    | ok name =>
      refine (exact_zigzag.bind (?_ : ∀ id, Exact _ fun used e =>
        used = [] ∧ e.name = name ∧ e.type.id = id)).mono ?_
      · intro id
        cases htype : ColumnType.ofId? id with
        | none => exact .refused _ _
        | some type =>
          refine (Exact.pure _).mono ?_
          rintro used e ⟨rfl, rfl⟩
          exact ⟨rfl, rfl, id_of_ofId? htype⟩
      · rintro used e ⟨id, varint, last, rfl, hreads, rfl, rfl, rfl⟩
        rw [List.append_nil]
        exact ⟨rfl, hreads⟩
  · rintro used e ⟨bytes, head, varint, rfl, ⟨hlt, rfl⟩, hname, htype⟩
    obtain rfl := Utf8.encode_of_decode hname
    exact ⟨hlt, varint, htype, rfl⟩

theorem flatten_of_words {pieces : List (List UInt8)} {offsets : List Int32}
    (h : List.Forall₂ (fun used w => used = wordBytes w) pieces offsets) :
    pieces.flatten = offsets.flatMap wordBytes := by
  have heq : pieces = offsets.map wordBytes := by
    rw [← List.forall₂_eq_eq_eq, List.forall₂_map_right_iff]
    exact h
  rw [heq, List.flatMap_def]

def ColumnForm (used : List UInt8) (c : Column) : Prop :=
  c.Fits ∧ c.Consistent ∧ used = columnWire c

theorem exact_column : Exact readColumn ColumnForm := by
  have hheader (c : Column) (bad short : Prop) [Decidable bad] [Decidable short]
      (bad' short' : RecordDefect) := ((Exact.pure c).unless short short').unless bad bad'
  refine (exact_block.bind fun values => Exact.length (fun n => (exact_word.many n).bind
    fun offsets => exact_block.bind fun bitmap => exact_word.bind fun bitmapOffset =>
    exact_word.bind fun rows => exact_word.bind fun nulls => hheader _ _ _ _ _) ?_).mono ?_
  · rintro n used c ⟨offsets, head, tail, rfl, ⟨rfl, pieces, hpieces, rfl⟩, -⟩
    rw [flatten_of_words hpieces, List.length_append, length_flatMap_wordBytes]
    exact Nat.le_add_right _ _
  · rintro used c ⟨values, head, tail, rfl, ⟨hvalues, rfl⟩, n, tail, hn, rfl, offsets, head, tail, rfl,
      ⟨rfl, pieces, hpieces, rfl⟩, bitmap, head, tail, rfl, ⟨hbitmap, rfl⟩, bitmapOffset, head, tail,
      rfl, rfl, rows, head, tail, rfl, rfl, nulls, head, tail, rfl, rfl, hbad, hshort, rfl, rfl⟩
    simp only [not_or] at hbad
    obtain ⟨hrows, hnulls, hle, hbitmapOffset⟩ := hbad
    refine ⟨⟨hvalues, hn, hbitmap, toNat_toInt_lt _, toNat_toInt_lt _⟩, ⟨?_, Nat.not_lt.1 hshort⟩, ?_⟩
    · rw [Int32.lt_iff_toInt_lt] at hle
      exact Int.toNat_le_toNat (Int.not_lt.1 hle)
    · rw [flatten_of_words hpieces, wordBytes_of_not_neg hrows, wordBytes_of_not_neg hnulls,
        wordBytes_of_not_neg hbitmapOffset]
      simp only [columnWire, List.append_assoc, List.append_nil]

def wireWith (r : Record) (varints : List (List UInt8)) : List UInt8 :=
  BigEndian.encode 4 r.schema.length ++ (List.zipWith entryWith varints r.schema).flatten ++
    BigEndian.encode 4 r.columns.length ++ r.columns.flatMap columnWire ++
    Column.intBytes r.minTime ++ Column.intBytes r.maxTime

/-- Bytes that are those of the record, each type being spelled by one of the varints. -/
structure Spelled (r : Record) (varints : List (List UInt8)) (bytes : List UInt8) : Prop where
  types : List.Forall₂ TypeForm varints r.schema
  bytes_eq : bytes = r.wireWith varints

structure Sound (r : Record) : Prop where
  fits : r.Fits
  aligned : r.columns.length = r.schema.length
  consistent : ∀ c ∈ r.columns, c.Consistent

theorem entries_of_pieces {pieces : List (List UInt8)} {schema : List SchemaEntry}
    (h : List.Forall₂ EntryForm pieces schema) :
    (∀ e ∈ schema, (Utf8.encode e.name).length < 2 ^ 31) ∧
      ∃ varints, List.Forall₂ TypeForm varints schema ∧
        pieces = List.zipWith entryWith varints schema := by
  induction h with
  | nil => exact ⟨by simp, [], .nil, rfl⟩
  | cons hentry _ ih =>
    obtain ⟨hname, varint, htype, rfl⟩ := hentry
    obtain ⟨hnames, varints, htypes, rfl⟩ := ih
    exact ⟨List.forall_mem_cons.2 ⟨hname, hnames⟩, varint :: varints, .cons htype htypes, rfl⟩

theorem columns_of_pieces {pieces : List (List UInt8)} {columns : List Column}
    (h : List.Forall₂ ColumnForm pieces columns) :
    (∀ c ∈ columns, c.Fits) ∧ (∀ c ∈ columns, c.Consistent) ∧
      pieces.flatten = columns.flatMap columnWire := by
  induction h with
  | nil => simp
  | cons hcolumn _ ih =>
    obtain ⟨hfits, hconsistent, rfl⟩ := hcolumn
    obtain ⟨hfits', hconsistent', heq⟩ := ih
    exact ⟨List.forall_mem_cons.2 ⟨hfits, hfits'⟩, List.forall_mem_cons.2 ⟨hconsistent, hconsistent'⟩,
      by rw [List.flatten_cons, heq, List.flatMap_cons]⟩

theorem length_pos_of_entryForm {used : List UInt8} {e : SchemaEntry} (h : EntryForm used e) :
    1 ≤ used.length := by
  obtain ⟨-, varint, htype, rfl⟩ := h
  have hpos := htype.length_pos
  rw [entryWith, List.length_append]
  omega

theorem length_pos_of_columnForm {used : List UInt8} {c : Column} (h : ColumnForm used c) :
    1 ≤ used.length := by
  obtain ⟨-, -, rfl⟩ := h
  exact List.length_pos_iff.2 (columnWire_ne_nil c)

theorem exact_read (measurement : String) : Exact (read measurement) fun used r =>
    r.measurement = measurement ∧ r.Sound ∧ ∃ varints, r.Spelled varints used := by
  refine (Exact.length (fun entryCount => (exact_entry.many entryCount).bind fun schema =>
    Exact.length (fun columnCount => ((exact_column.many columnCount).bind fun columns =>
      exact_time.bind fun minTime => exact_time.bind fun maxTime => Exact.pure _).unless _ _) ?_)
    ?_).mono ?_
  · rintro n used r ⟨-, columns, head, tail, rfl, ⟨rfl, pieces, hpieces, rfl⟩, -⟩
    have hleast := length_le_flatten hpieces fun used c h => length_pos_of_columnForm h
    rw [List.length_append]
    omega
  · rintro n used r ⟨schema, head, tail, rfl, ⟨rfl, pieces, hpieces, rfl⟩, -⟩
    have hleast := length_le_flatten hpieces fun used e h => length_pos_of_entryForm h
    rw [List.length_append]
    omega
  · rintro used r ⟨n, tail, hn, rfl, schema, head, tail, rfl, ⟨rfl, entries, hentries, rfl⟩, m, tail,
      hm, rfl, haligned, columns, head, tail, rfl, ⟨rfl, pieces, hpieces, rfl⟩, minTime, head, tail,
      rfl, rfl, maxTime, head, tail, rfl, rfl, rfl, rfl⟩
    obtain ⟨hnames, varints, htypes, rfl⟩ := entries_of_pieces hentries
    obtain ⟨hfits, hconsistent, heq⟩ := columns_of_pieces hpieces
    refine ⟨rfl, ⟨⟨hn, hnames, hfits⟩, not_not.1 haligned, hconsistent⟩, varints, htypes, ?_⟩
    simp only [wireWith, heq, List.append_assoc, List.append_nil]

theorem length_encode_id (type : ColumnType) : (ZigZag.encode type.id).length = 1 := by
  have hfold : ZigZag.fold type.id < 128 := by cases type <;> decide
  rw [ZigZag.encode, ZigZag.groups_of_lt hfold, List.length_singleton]

theorem TypeForm.eq_encode {varint : List UInt8} {e : SchemaEntry} (h : TypeForm varint e)
    (hlength : varint.length = 1) : varint = ZigZag.encode e.type.id := by
  obtain ⟨byte, rfl⟩ := List.length_eq_one_iff.1 hlength
  exact ZigZag.singleton_of_read (h [])

theorem length_entries_le {varints : List (List UInt8)} {schema : List SchemaEntry}
    (h : List.Forall₂ TypeForm varints schema) :
    (schema.flatMap entryWire).length ≤ (List.zipWith entryWith varints schema).flatten.length := by
  induction h with
  | nil => exact Nat.le_refl _
  | @cons varint e _ _ htype _ ih =>
    have hpos := htype.length_pos
    have hone := length_encode_id e.type
    simp only [List.zipWith_cons_cons, List.flatten_cons, List.flatMap_cons, List.length_append,
      entryWire, entryWith]
    omega

theorem entries_eq_iff {varints : List (List UInt8)} {schema : List SchemaEntry}
    (h : List.Forall₂ TypeForm varints schema) :
    schema.flatMap entryWire = (List.zipWith entryWith varints schema).flatten ↔
      ∀ varint ∈ varints, varint.length = 1 := by
  induction h with
  | nil => simp
  | @cons varint e varints schema htype htypes ih =>
    have hpos := htype.length_pos
    have hone := length_encode_id e.type
    have hle := length_entries_le htypes
    rw [List.zipWith_cons_cons, List.flatten_cons, List.flatMap_cons, List.forall_mem_cons, ← ih]
    constructor
    · intro heq
      have hlength := congrArg List.length heq
      simp only [List.length_append, entryWire, entryWith] at hlength
      have hvarint : varint.length = 1 := by omega
      rw [entryWire, entryWith, ← htype.eq_encode hvarint] at heq
      exact ⟨hvarint, List.append_cancel_left heq⟩
    · rintro ⟨hvarint, heq⟩
      rw [heq, entryWire, entryWith, ← htype.eq_encode hvarint]

theorem takes_of_ofBytes {measurement : String} {bytes : List UInt8} {r : Record}
    (h : ofBytes measurement bytes = .ok r) :
    Takes (read measurement) bytes r ∧ r.measurement = measurement ∧ r.Sound ∧
      ∃ varints, r.Spelled varints bytes := by
  have hrun : (read measurement).run bytes = .ok (r, []) := by
    unfold ofBytes at h
    split at h
    next => cases h
    next hread =>
      cases h
      exact hread
    next => cases h
  obtain ⟨used, hused, htakes, hform⟩ := exact_read measurement bytes r [] hrun
  rw [List.append_nil] at hused
  subst hused
  exact ⟨htakes, hform⟩

theorem wire_eq_iff {r : Record} {varints : List (List UInt8)} {bytes : List UInt8}
    (h : r.Spelled varints bytes) : r.wire = bytes ↔ ∀ varint ∈ varints, varint.length = 1 := by
  rw [← entries_eq_iff h.types, h.bytes_eq, wire, wireWith]
  simp only [List.append_assoc, List.append_cancel_left_eq]
  exact List.append_left_inj _

theorem length_wire_le {r : Record} {varints : List (List UInt8)} {bytes : List UInt8}
    (h : r.Spelled varints bytes) : r.wire.length ≤ bytes.length := by
  have hentries := length_entries_le h.types
  rw [h.bytes_eq, wire, wireWith]
  simp only [List.length_append]
  omega

/-- A record that was read from some bytes can be written, in no more bytes, and is read from them
again. They are the same bytes exactly when these spell each type with a single byte. -/
theorem toBytes_of_ofBytes {measurement : String} {bytes : List UInt8} {r : Record}
    (h : ofBytes measurement bytes = .ok r) :
    (∃ again, r.toBytes = .ok again ∧ again.length ≤ bytes.length ∧
      ofBytes measurement again = .ok r) ∧
    (∃ varints, r.Spelled varints bytes) ∧
    ∀ varints, r.Spelled varints bytes →
      (r.toBytes = .ok bytes ↔ ∀ varint ∈ varints, varint.length = 1) := by
  obtain ⟨-, rfl, hsound, varints, hspelled⟩ := takes_of_ofBytes h
  have hwire : r.toBytes = .ok r.wire :=
    toBytes_of_fits hsound.fits hsound.aligned hsound.consistent
  have hread : ofBytes r.measurement r.wire = .ok r :=
    ofBytes_wire hsound.fits hsound.aligned hsound.consistent
  refine ⟨⟨r.wire, hwire, length_wire_le hspelled, hread⟩, ⟨varints, hspelled⟩, ?_⟩
  intro varints hspelled
  rw [hwire, Except.ok.injEq]
  exact wire_eq_iff hspelled

/-- One text column, its type spelled with three bytes, whose bitmap starts at its second bit and
has a byte too many. -/
def verbose : List UInt8 :=
  [0, 0, 0, 1, 0, 0, 0, 2, 0xc3, 0xa9, 0x88, 0x80, 0x00, 0, 0, 0, 1] ++
    [0, 0, 0, 2, 0x68, 0x69, 0, 0, 0, 1, 0xff, 0xff, 0xff, 0xff, 0, 0, 0, 2, 0x02, 0x55] ++
    [0, 0, 0, 1, 0, 0, 0, 3, 0, 0, 0, 2] ++ List.replicate 16 0

def ofVerbose : Record where
  measurement := "m"
  schema := [⟨"é", .text⟩]
  columns := [{ values := [0x68, 0x69], offsets := [-1], bitmap := [0x02, 0x55]
                bitmapOffset := 1, rows := 3, nulls := 2 }]
  minTime := 0
  maxTime := 0

theorem ofBytes_verbose : ofBytes "m" verbose = .ok ofVerbose := by decide +kernel

theorem toBytes_of_ofBytes_verbose :
    ofBytes "m" verbose = .ok ofVerbose ∧ ofVerbose.Spelled [[0x88, 0x80, 0x00]] verbose ∧
      ofVerbose.toBytes ≠ .ok verbose ∧
      ∃ again, ofVerbose.toBytes = .ok again ∧ again.length ≤ verbose.length ∧
        ofBytes "m" again = .ok ofVerbose := by
  have hid : ZigZag.read [0x88, 0x80, 0x00] = .ok (ColumnType.text.id, []) := by decide +kernel
  obtain ⟨varint, hvarint, htakes, -⟩ := exact_zigzag _ _ _ hid
  rw [List.append_nil] at hvarint
  have hspelled : ofVerbose.Spelled [[0x88, 0x80, 0x00]] verbose :=
    ⟨.cons (hvarint ▸ htakes.reads) .nil, rfl⟩
  obtain ⟨hagain, -, hsame⟩ := toBytes_of_ofBytes ofBytes_verbose
  refine ⟨ofBytes_verbose, hspelled, ?_, hagain⟩
  rw [Ne, hsame _ hspelled]
  decide

end SeriesIngest.Record
