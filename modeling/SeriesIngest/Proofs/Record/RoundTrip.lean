import SeriesIngest.Proofs.Record.Reading
import SeriesIngest.Proofs.Record.Built

/-! A record whose lengths fit their words is written, and reading its bytes gives it back. The
reader refuses headers and bitmaps that no column built row by row has. -/
namespace SeriesIngest

/-- What a column must keep for its reader to take it. -/
structure Column.Consistent (c : Column) : Prop where
  nulls : c.nulls ≤ c.rows
  bitmap : Record.bitmapBytes c.rows c.bitmapOffset ≤ c.bitmap.length

structure Column.Fits (c : Column) : Prop where
  values : c.values.length < 2 ^ 31
  offsets : c.offsets.length < 2 ^ 31
  bitmap : c.bitmap.length < 2 ^ 31
  bitmapOffset : c.bitmapOffset < 2 ^ 31
  rows : c.rows < 2 ^ 31

namespace Record

structure Fits (r : Record) : Prop where
  schema : r.schema.length < 2 ^ 31
  names : ∀ e ∈ r.schema, (Utf8.encode e.name).length < 2 ^ 31
  columns : ∀ c ∈ r.columns, c.Fits

def blockWire (bytes : List UInt8) : List UInt8 := BigEndian.encode 4 bytes.length ++ bytes

def entryWire (e : SchemaEntry) : List UInt8 :=
  blockWire (Utf8.encode e.name) ++ ZigZag.encode e.type.id

def columnWire (c : Column) : List UInt8 :=
  blockWire c.values ++ BigEndian.encode 4 c.offsets.length ++ c.offsets.flatMap wordBytes ++
    blockWire c.bitmap ++ BigEndian.encode 4 c.bitmapOffset ++ BigEndian.encode 4 c.rows ++
    BigEndian.encode 4 c.nulls

def wire (r : Record) : List UInt8 :=
  BigEndian.encode 4 r.schema.length ++ r.schema.flatMap entryWire ++
    BigEndian.encode 4 r.columns.length ++ r.columns.flatMap columnWire ++
    Column.intBytes r.minTime ++ Column.intBytes r.maxTime

theorem lengthBytes_of_lt {n : Nat} (h : n < 2 ^ 31) :
    lengthBytes n = .ok (BigEndian.encode 4 n) := by
  have hlt : n < 0x80000000 := h
  rw [lengthBytes, if_pos hlt]

theorem blockBytes_of_lt {bytes : List UInt8} (h : bytes.length < 2 ^ 31) :
    blockBytes bytes = .ok (blockWire bytes) := by
  rw [blockBytes, lengthBytes_of_lt h]
  rfl

theorem entryBytes_of_lt {e : SchemaEntry} (h : (Utf8.encode e.name).length < 2 ^ 31) :
    entryBytes e = .ok (entryWire e) := by
  rw [entryBytes, blockBytes_of_lt h]
  rfl

theorem columnBytes_of_fits {c : Column} (h : c.Fits) (hc : c.Consistent) :
    columnBytes c = .ok (columnWire c) := by
  rw [columnBytes, blockBytes_of_lt h.values, lengthBytes_of_lt h.offsets,
    blockBytes_of_lt h.bitmap, columnWire, encode_eq_wordBytes h.bitmapOffset,
    encode_eq_wordBytes h.rows, encode_eq_wordBytes (hc.nulls.trans_lt h.rows)]
  rfl

theorem mapM_ok {f : α → Except ε β} {g : α → β} {items : List α}
    (h : ∀ a ∈ items, f a = .ok (g a)) : items.mapM f = .ok (items.map g) := by
  induction items with
  | nil => rfl
  | cons a items ih =>
    rw [List.mapM_cons, h a List.mem_cons_self, ih fun b hb => h b (List.mem_cons_of_mem a hb)]
    rfl

theorem toBytes_of_fits {r : Record} (h : r.Fits) (hlength : r.columns.length = r.schema.length)
    (hcolumns : ∀ c ∈ r.columns, c.Consistent) : r.toBytes = .ok r.wire := by
  have hentries : r.schema.mapM entryBytes = .ok (r.schema.map entryWire) :=
    mapM_ok fun e he => entryBytes_of_lt (h.names e he)
  have hcolumnBytes : r.columns.mapM columnBytes = .ok (r.columns.map columnWire) :=
    mapM_ok fun c hc => columnBytes_of_fits (h.columns c hc) (hcolumns c hc)
  have hcount : r.columns.length < 2 ^ 31 := hlength ▸ h.schema
  rw [toBytes, lengthBytes_of_lt h.schema, hentries, lengthBytes_of_lt hcount, hcolumnBytes]
  simp only [wire, List.flatMap_def]
  rfl

theorem reads_block {bytes : List UInt8} (h : bytes.length < 2 ^ 31) :
    Reads readBlock (blockWire bytes) bytes := by
  have hroom : bytes.length * 1 ≤ bytes.length := Nat.le_of_eq (Nat.mul_one _)
  exact (reads_take bytes).length h hroom

theorem ofId?_id (type : ColumnType) : ColumnType.ofId? type.id = some type := by
  cases type <;> decide

theorem reads_zigzag (v : Int64) : Reads ZigZag.read (ZigZag.encode v) v := ZigZag.read_encode v

theorem reads_entry {e : SchemaEntry} (h : (Utf8.encode e.name).length < 2 ^ 31) :
    Reads readEntry (entryWire e) e := by
  refine (reads_block h).bind ?_
  rw [Utf8.decode_encode]
  refine (reads_zigzag _).finish ?_
  rw [ofId?_id]
  exact .pure e

theorem length_flatMap_wordBytes (offsets : List Int32) :
    (offsets.flatMap wordBytes).length = offsets.length * 4 := by
  induction offsets with
  | nil => rfl
  | cons w offsets ih =>
    rw [List.flatMap_cons, List.length_append, length_wordBytes, ih, List.length_cons]
    omega

theorem reads_column {c : Column} (h : c.Fits) (hc : c.Consistent) :
    Reads readColumn (columnWire c) c := by
  have hnulls := hc.nulls.trans_lt h.rows
  have hheader : ¬ (Int32.ofNat c.rows < 0 ∨ Int32.ofNat c.nulls < 0 ∨
      Int32.ofNat c.rows < Int32.ofNat c.nulls ∨ Int32.ofNat c.bitmapOffset < 0) := by
    simp only [not_or]
    refine ⟨not_neg_ofNat h.rows, not_neg_ofNat hnulls, ?_, not_neg_ofNat h.bitmapOffset⟩
    rw [Int32.lt_iff_toInt_lt, toInt_ofNat h.rows, toInt_ofNat hnulls]
    exact Int.not_lt.2 (Int.ofNat_le.2 hc.nulls)
  have hoffsets : Reads (readMany readWord c.offsets.length) (c.offsets.flatMap wordBytes)
      c.offsets := Reads.many fun w _ => reads_word w
  simp only [columnWire, List.append_assoc]
  rw [encode_eq_wordBytes h.bitmapOffset, encode_eq_wordBytes h.rows,
    encode_eq_wordBytes hnulls]
  refine (reads_block h.values).bind (.length h.offsets ?_ (hoffsets.bind ?_))
  · rw [List.length_append, length_flatMap_wordBytes]
    exact Nat.le_add_right _ _
  · refine (reads_block h.bitmap).bind ((reads_word _).bind ((reads_word _).bind
      ((reads_word _).finish ?_)))
    rw [if_neg hheader, toInt_ofNat h.bitmapOffset, toInt_ofNat h.rows, toInt_ofNat hnulls]
    simp only [Int.toNat_natCast]
    rw [if_neg (Nat.not_lt.2 hc.bitmap)]
    exact .pure c

theorem length_le_length_flatMap {write : α → List UInt8} (h : ∀ a, write a ≠ []) (items : List α) :
    items.length * 1 ≤ (items.flatMap write).length := by
  induction items with
  | nil => exact Nat.le_refl 0
  | cons a items ih =>
    have ha := List.length_pos_iff.2 (h a)
    rw [List.flatMap_cons, List.length_append, List.length_cons]
    omega

theorem entryWire_ne_nil (e : SchemaEntry) : entryWire e ≠ [] := by
  simp [entryWire, ZigZag.encode_ne_nil]

theorem blockWire_ne_nil (bytes : List UInt8) : blockWire bytes ≠ [] := by
  simp [blockWire, BigEndian.encode]

theorem columnWire_ne_nil (c : Column) : columnWire c ≠ [] := by
  simp [columnWire, blockWire_ne_nil]

theorem reads_wire {r : Record} (h : r.Fits) (hlength : r.columns.length = r.schema.length)
    (hcolumns : ∀ c ∈ r.columns, c.Consistent) : Reads (read r.measurement) r.wire r := by
  have hcount : r.columns.length < 2 ^ 31 := hlength ▸ h.schema
  have hschema : Reads (readMany readEntry r.schema.length) (r.schema.flatMap entryWire) r.schema :=
    Reads.many fun e he => reads_entry (h.names e he)
  have hread : Reads (readMany readColumn r.columns.length) (r.columns.flatMap columnWire)
      r.columns := Reads.many fun c hc => reads_column (h.columns c hc) (hcolumns c hc)
  simp only [wire, List.append_assoc]
  refine .length h.schema ?_ (hschema.bind (.length hcount ?_ ?_))
  · rw [List.length_append]
    exact (length_le_length_flatMap entryWire_ne_nil _).trans (Nat.le_add_right _ _)
  · rw [List.length_append]
    exact (length_le_length_flatMap columnWire_ne_nil _).trans (Nat.le_add_right _ _)
  · rw [if_neg (not_not.2 hlength)]
    exact hread.bind ((reads_time _).bind ((reads_time _).finish (.pure r)))

theorem ofBytes_wire {r : Record} (h : r.Fits) (hlength : r.columns.length = r.schema.length)
    (hcolumns : ∀ c ∈ r.columns, c.Consistent) : ofBytes r.measurement r.wire = .ok r := by
  have hread := reads_wire h hlength hcolumns []
  rw [List.append_nil] at hread
  rw [ofBytes, hread]

/-- Every length of a record fits the word that is to hold it. Those of the offsets and the
bitmaps are no greater than the number of rows. -/
structure Sized (r : Record) : Prop where
  schema : r.schema.length < 2 ^ 31
  names : ∀ e ∈ r.schema, (Utf8.encode e.name).length < 2 ^ 31
  values : ∀ c ∈ r.columns, c.values.length < 2 ^ 31
  rows : ∀ c ∈ r.columns, c.rows < 2 ^ 31

theorem consistent_ofPushes (pushes : List Column.Push) : (Column.ofPushes pushes).Consistent := by
  have h := Column.represents_ofPushes pushes
  constructor
  · rw [h.nulls, h.rows]
    exact List.count_le_length
  · rw [bitmapBytes, h.rows, h.bitmapOffset, h.bytes, Nat.add_zero]

theorem fits_ofPushes {pushes : List Column.Push}
    (hvalues : (Column.ofPushes pushes).values.length < 2 ^ 31)
    (hrows : (Column.ofPushes pushes).rows < 2 ^ 31) : (Column.ofPushes pushes).Fits := by
  have h := Column.represents_ofPushes pushes
  have hlength : pushes.length < 2 ^ 31 := by simpa [h.rows] using hrows
  refine ⟨hvalues, (Column.length_offsets_le pushes).trans_lt hlength, ?_, ?_, hrows⟩
  · rw [h.bytes, List.length_map]
    omega
  · rw [h.bitmapOffset]
    decide

theorem Sized.fits {measurement : String} {rows : List (Point × Int64)}
    (h : (ofRows measurement rows).Sized) : (ofRows measurement rows).Fits where
  schema := h.schema
  names := h.names
  columns c hc := by
    have hvalues := h.values c hc
    have hrows := h.rows c hc
    obtain ⟨pushes, rfl⟩ := exists_ofPushes hc
    exact fits_ofPushes hvalues hrows

theorem consistent_ofRows {measurement : String} {rows : List (Point × Int64)} {c : Column}
    (h : c ∈ (ofRows measurement rows).columns) : c.Consistent := by
  obtain ⟨pushes, rfl⟩ := exists_ofPushes h
  exact consistent_ofPushes pushes

theorem toBytes_ofRows {measurement : String} {rows : List (Point × Int64)}
    (h : (ofRows measurement rows).Sized) :
    (ofRows measurement rows).toBytes = .ok (ofRows measurement rows).wire :=
  toBytes_of_fits h.fits (length_columns_ofRows _ _) fun _ => consistent_ofRows

def Decides (fits : Prop) (written : Except RecordDefect α) : Prop :=
  fits ∧ written.isOk ∨ ¬ fits ∧ ∃ n, 2 ^ 31 ≤ n ∧ written = .error (.oversize n)

theorem Decides.congr {fits fits' : Prop} {written : Except RecordDefect α}
    (h : Decides fits written) (hiff : fits ↔ fits') : Decides fits' written := by
  unfold Decides at *
  rwa [← hiff]

theorem Decides.pure (a : α) : Decides True (Pure.pure a) := .inl ⟨trivial, rfl⟩

theorem decides_lengthBytes (n : Nat) : Decides (n < 2 ^ 31) (lengthBytes n) := by
  by_cases h : n < 2 ^ 31
  · rw [lengthBytes_of_lt h]
    exact .inl ⟨h, rfl⟩
  · refine .inr ⟨h, n, Nat.not_lt.1 h, ?_⟩
    rw [lengthBytes, if_neg (show ¬ n < 0x80000000 from h)]

theorem Decides.bind {fits next : Prop} {written : Except RecordDefect α}
    {write : α → Except RecordDefect β} (h : Decides fits written)
    (hnext : ∀ a, Decides next (write a)) : Decides (fits ∧ next) (written >>= write) := by
  rcases h with ⟨hfits, hok⟩ | ⟨hnot, n, hn, rfl⟩
  · cases written with
    | error defect => cases hok
    | ok a => exact (hnext a).congr (by simp [hfits])
  · exact .inr ⟨fun h => hnot h.1, n, hn, rfl⟩

theorem Decides.map {fits : Prop} {written : Except RecordDefect α} (h : Decides fits written)
    (f : α → β) : Decides fits (written.map f) := by
  rcases h with ⟨hfits, hok⟩ | ⟨hnot, n, hn, rfl⟩
  · cases written with
    | error defect => cases hok
    | ok a => exact .inl ⟨hfits, rfl⟩
  · exact .inr ⟨hnot, n, hn, rfl⟩

theorem Decides.mapM {fits : α → Prop} {write : α → Except RecordDefect β} {items : List α}
    (h : ∀ a ∈ items, Decides (fits a) (write a)) :
    Decides (∀ a ∈ items, fits a) (items.mapM write) := by
  induction items with
  | nil => exact (Decides.pure []).congr (by simp)
  | cons a items ih =>
    have hrest := ih fun b hb => h b (List.mem_cons_of_mem a hb)
    rw [List.mapM_cons]
    refine ((h a List.mem_cons_self).bind fun b => hrest.bind fun bs => .pure (b :: bs)).congr ?_
    simp

theorem decides_blockBytes (bytes : List UInt8) :
    Decides (bytes.length < 2 ^ 31) (blockBytes bytes) := (decides_lengthBytes _).map _

theorem decides_entryBytes (e : SchemaEntry) :
    Decides ((Utf8.encode e.name).length < 2 ^ 31) (entryBytes e) :=
  ((decides_blockBytes _).bind fun _ => .pure _).congr (by simp)

theorem decides_columnBytes (c : Column) :
    Decides (c.values.length < 2 ^ 31 ∧ c.offsets.length < 2 ^ 31 ∧ c.bitmap.length < 2 ^ 31)
      (columnBytes c) :=
  ((decides_blockBytes _).bind fun _ => (decides_lengthBytes _).bind fun _ =>
    (decides_blockBytes _).bind fun _ => .pure _).congr (by simp)

theorem decides_toBytes (r : Record) :
    Decides (r.schema.length < 2 ^ 31 ∧ (∀ e ∈ r.schema, (Utf8.encode e.name).length < 2 ^ 31) ∧
      r.columns.length < 2 ^ 31 ∧ ∀ c ∈ r.columns, c.values.length < 2 ^ 31 ∧
        c.offsets.length < 2 ^ 31 ∧ c.bitmap.length < 2 ^ 31) r.toBytes :=
  ((decides_lengthBytes _).bind fun _ => (Decides.mapM fun e _ => decides_entryBytes e).bind
    fun _ => (decides_lengthBytes _).bind fun _ =>
      (Decides.mapM fun c _ => decides_columnBytes c).bind fun _ => .pure _).congr (by simp)

theorem rows_ofRows {measurement : String} {rows : List (Point × Int64)} {c : Column}
    (h : c ∈ (ofRows measurement rows).columns) : c.rows = rows.length := by
  rw [columns_ofRows, List.mem_append, List.mem_singleton] at h
  rcases h with h | rfl
  · obtain ⟨e, -, rfl⟩ := List.mem_map.1 h
    simp [SchemaEntry.rows_column]
  · simp [(Column.represents_ofPushes _).rows]

theorem length_values_times (rows : List (Point × Int64)) :
    (Column.ofPushes (rows.map fun row => .int row.2)).values.length = 8 * rows.length := by
  rw [Column.values_ofPushes]
  induction rows with
  | nil => rfl
  | cons row rows ih =>
    rw [List.map_cons, List.flatMap_cons, List.length_append, ih, List.length_cons]
    simp only [Column.Push.bytes, Column.length_intBytes]
    omega

/-- A record built from samples has bytes exactly when it is sized: the times take eight bytes a row,
so rows without a count do not fit either. -/
theorem decides_ofRows (measurement : String) (rows : List (Point × Int64)) :
    Decides (ofRows measurement rows).Sized (ofRows measurement rows).toBytes := by
  refine (decides_toBytes _).congr ⟨?_, ?_⟩
  · rintro ⟨hschema, hnames, -, hcolumns⟩
    have htimes : Column.ofPushes (rows.map fun row => .int row.2) ∈
        (ofRows measurement rows).columns := by
      simp [columns_ofRows]
    have hlength := (hcolumns _ htimes).1
    rw [length_values_times] at hlength
    refine ⟨hschema, hnames, fun c hc => (hcolumns c hc).1, fun c hc => ?_⟩
    rw [rows_ofRows hc]
    omega
  · intro h
    have hfits := h.fits
    refine ⟨h.schema, h.names, ?_, fun c hc => ?_⟩
    · rw [length_columns_ofRows]
      exact h.schema
    · exact ⟨(hfits.columns c hc).values, (hfits.columns c hc).offsets,
        (hfits.columns c hc).bitmap⟩

structure Shows (r : Record) (rows : List (Point × Int64)) : Prop where
  schema : r.schema = Schema.infer (rows.map (·.1)) ++ [timeEntry]
  cells : List.Forall₂ (fun e c => List.Forall₂ (fun p cell => SchemaEntry.Cell p e cell)
    (rows.map (·.1)) (e.type.rows c)) (Schema.infer (rows.map (·.1))) r.columns.dropLast
  times : r.columns.getLast?.map Column.ints = some (rows.map fun row => some row.2)

theorem shows_ofRows {measurement : String} {rows : List (Point × Int64)}
    (h : (ofRows measurement rows).Sized) : (ofRows measurement rows).Shows rows where
  schema := rfl
  times := (hasRows_ofRows measurement rows).times
  cells := by
    rw [columns_ofRows, List.dropLast_concat, Schema.columns, List.forall₂_map_right_iff]
    refine List.forall₂_same.2 fun e he => ?_
    have hholds := e.holds_column (rows.map (·.1))
    have hcolumn : e.column (rows.map (·.1)) ∈ (ofRows measurement rows).columns := by
      rw [columns_ofRows]
      exact List.mem_append_left _ (List.mem_map_of_mem he)
    rw [hholds.read_all fun _ => h.values _ hcolumn]
    exact hholds.each

/-- A record built from samples comes back from its bytes as it was. -/
theorem ofBytes_toBytes {now : Int64} {points : List Point} {r : Record}
    (h : ofPoints now points = .ok r) (hsize : r.Sized) :
    ∃ bytes, r.toBytes = .ok bytes ∧ ofBytes r.measurement bytes = .ok r := by
  obtain ⟨first, rest, -, -, -, rfl⟩ := ofPoints_ok h
  have hread := ofBytes_wire hsize.fits (length_columns_ofRows _ _) fun _ => consistent_ofRows
  exact ⟨_, toBytes_ofRows hsize, hread⟩

/-- A tag and a field of one name, a value of another type, a NaN and a row that is skipped. -/
def mixed : List Point := [
  { measurement := "m", tags := [("host", "a")], time := 5
    fields := [("x", .float ⟨0x7FF8000000000000⟩), ("n", .int 7)] },
  { measurement := "m", fields := [("n", .bool true)]
    time := Int64.maxValue, precision := .second },
  { measurement := "m", tags := [("x", "é")]
    fields := [("x", .int 3), ("s", .text ""), ("n", .bool true)] }]

theorem ofBytes_toBytes_mixed :
    ∃ r bytes, ofPoints 9 mixed = .ok r ∧ r.rowCount = 2 ∧ r.Sized ∧ r.toBytes = .ok bytes ∧
      ofBytes r.measurement bytes = .ok r := by
  have hpoints : ofPoints 9 mixed = .ok (ofRows "m" (timed 9 mixed)) := by decide +kernel
  have hsize : (ofRows "m" (timed 9 mixed)).Sized := by constructor <;> decide +kernel
  obtain ⟨bytes, hbytes, hread⟩ := ofBytes_toBytes hpoints hsize
  exact ⟨_, bytes, hpoints, by decide +kernel, hsize, hbytes, hread⟩

end Record
end SeriesIngest
