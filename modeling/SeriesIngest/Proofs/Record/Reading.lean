import SeriesIngest.Record.Wire
import SeriesIngest.Proofs.Column.Rows
import SeriesIngest.Proofs.Wire.ZigZag

/-! What the readers of the wire form take. A reader that takes some bytes takes them whatever
follows, so readings are put together as the bytes are. -/
namespace SeriesIngest.Record

/-- The reader gives `a` for these bytes and leaves all that follows them. -/
def Reads (read : Reader α) (bytes : List UInt8) (a : α) : Prop :=
  ∀ rest, read.run (bytes ++ rest) = .ok (a, rest)

theorem Reads.pure (a : α) : Reads (pure a) [] a := fun _ => rfl

theorem Reads.bind {read : Reader α} {next : α → Reader β} {bytes more : List UInt8} {a : α}
    {b : β} (h : Reads read bytes a) (hnext : Reads (next a) more b) :
    Reads (read >>= next) (bytes ++ more) b := by
  intro rest
  rw [List.append_assoc, StateT.run_bind, h]
  exact hnext rest

theorem Reads.finish {read : Reader α} {next : α → Reader β} {bytes : List UInt8} {a : α} {b : β}
    (h : Reads read bytes a) (hnext : Reads (next a) [] b) : Reads (read >>= next) bytes b := by
  rw [← List.append_nil bytes]
  exact h.bind hnext

theorem reads_take (bytes : List UInt8) : Reads (take bytes.length) bytes bytes := by
  intro rest
  have hroom : bytes.length ≤ (bytes ++ rest).length := by
    rw [List.length_append]
    exact Nat.le_add_right _ _
  change (if bytes.length ≤ (bytes ++ rest).length then _ else _) = _
  rw [if_pos hroom, List.take_left, List.drop_left]

theorem length_wordBytes (w : Int32) : (wordBytes w).length = 4 := BigEndian.length_encode _ _

theorem reads_word (w : Int32) : Reads readWord (wordBytes w) w := by
  have hvalue : (BigEndian.decode (wordBytes w)).toUInt32.toInt32 = w := by
    unfold wordBytes
    rw [BigEndian.decode_encode_of_lt w.toUInt32.toNat_lt]
    simp
  have htake : Reads (take 4) (wordBytes w) (wordBytes w) := by
    rw [← length_wordBytes w]
    exact reads_take _
  refine htake.finish ?_
  rw [hvalue]
  exact .pure w

theorem reads_time (t : Int64) : Reads readTime (Column.intBytes t) t := by
  have htake : Reads (take 8) (Column.intBytes t) (Column.intBytes t) := by
    rw [← Column.length_intBytes t]
    exact reads_take _
  refine htake.finish ?_
  rw [Column.readInt_intBytes]
  exact .pure t

theorem encode_eq_wordBytes {n : Nat} (h : n < 2 ^ 31) :
    BigEndian.encode 4 n = wordBytes (Int32.ofNat n) := by
  have hword : (Int32.ofNat n).toUInt32.toNat = n := by
    rw [Int32.toUInt32_ofNat', UInt32.toNat_ofNat', Nat.mod_eq_of_lt (by omega)]
  rw [wordBytes, hword]

theorem toInt_ofNat {n : Nat} (h : n < 2 ^ 31) : (Int32.ofNat n).toInt = n :=
  Int32.toInt_ofNat_of_lt h

theorem not_neg_ofNat {n : Nat} (h : n < 2 ^ 31) : ¬ Int32.ofNat n < 0 := by
  rw [Int32.lt_iff_toInt_lt, toInt_ofNat h]
  simp

theorem run_readLength_encode {n : Nat} (hlt : n < 2 ^ 31) (unit : Nat) (rest : List UInt8) :
    (readLength unit).run (BigEndian.encode 4 n ++ rest) =
      if rest.length < n * unit then .error .truncated else .ok (n, rest) := by
  have hword := reads_word (Int32.ofNat n) rest
  unfold readLength
  rw [encode_eq_wordBytes hlt, StateT.run_bind, hword]
  change StateT.run (if Int32.ofNat n < 0 then _ else _) rest = _
  rw [if_neg (not_neg_ofNat hlt), toInt_ofNat hlt, Int.toNat_natCast, StateT.run_bind,
    StateT.run_get]
  change StateT.run (if rest.length < n * unit then _ else _) rest = _
  split <;> rfl

theorem run_readLength {n unit : Nat} {rest : List UInt8} (hlt : n < 2 ^ 31)
    (hroom : n * unit ≤ rest.length) :
    (readLength unit).run (BigEndian.encode 4 n ++ rest) = .ok (n, rest) := by
  rw [run_readLength_encode hlt, if_neg (Nat.not_lt.2 hroom)]

theorem Reads.length {next : Nat → Reader β} {n unit : Nat} {more : List UInt8} {b : β}
    (hlt : n < 2 ^ 31) (hroom : n * unit ≤ more.length) (h : Reads (next n) more b) :
    Reads (readLength unit >>= next) (BigEndian.encode 4 n ++ more) b := by
  intro rest
  have hroom' : n * unit ≤ (more ++ rest).length := by
    rw [List.length_append]
    exact hroom.trans (Nat.le_add_right _ _)
  rw [List.append_assoc, StateT.run_bind, run_readLength hlt hroom']
  exact h rest

theorem Reads.many {read : Reader α} {write : α → List UInt8} {items : List α}
    (h : ∀ a ∈ items, Reads read (write a) a) :
    Reads (readMany read items.length) (items.flatMap write) items := by
  induction items with
  | nil => exact .pure []
  | cons a items ih =>
    have hrest := ih fun b hb => h b (List.mem_cons_of_mem a hb)
    exact (h a List.mem_cons_self).bind (hrest.finish (.pure (a :: items)))

end SeriesIngest.Record
