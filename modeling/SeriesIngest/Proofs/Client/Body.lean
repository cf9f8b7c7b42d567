import SeriesIngest.Client
import SeriesIngest.Proofs.Line.Writer
import SeriesIngest.Proofs.Record.Partition
import SeriesIngest.Proofs.Record.RoundTrip

/-! The bodies of requests carry the samples they are made from, as lines or as rows. Samples
that passed the check have a body, unless a record is too large for its words. -/
namespace SeriesIngest

/-- The data can be read back from the block. Lz4 puts the length of the data before them, in four
bytes; gzip holds data of any length. -/
def Compressor.Unpacks (c : Compressor) (block data : List UInt8) : Prop :=
  (c.algorithm = .lz4 → data.length < 2 ^ 32) → c.decompress? block = some data

def Compressor.Lossless (c : Compressor) : Prop := ∀ data, c.Unpacks (c.encode data) data

structure Compressor.Like (c d : Compressor) : Prop where
  codecs : c.codecs = d.codecs
  algorithm : c.algorithm = d.algorithm
  level : c.level = d.level

structure Sender.Format where
  protocol : Protocol
  compressor : Compressor
  supported : protocol.supports compressor.algorithm
  lossless : compressor.Lossless

structure Sender.Follows (s : Sender) (format : Sender.Format) : Prop where
  protocol : s.protocol = format.protocol
  compressor : s.compressor.Like format.compressor

namespace Settings

def compressor (s : Settings) (codecs : Codecs) : Compressor := { codecs, algorithm := s.algorithm }

theorem supports_of_valid {s : Settings} (h : s.validate = .ok ()) :
    s.protocol.supports s.algorithm := by
  unfold validate at h
  split_ifs at h with hnone hrefused
  · split at h <;> cases h
  · simpa using hrefused

def format (s : Settings) (codecs : Codecs) (hvalid : s.validate = .ok ())
    (hlossless : (s.compressor codecs).Lossless) : Sender.Format :=
  ⟨s.protocol, s.compressor codecs, supports_of_valid hvalid, hlossless⟩

end Settings

/-- A body that carries some samples: each as a line of its text, or each as a row of the record
of its measurement. -/
inductive Body.Carries (format : Sender.Format) (points : List Point) : Body → Prop
  | lines {lines : List String} {block : List UInt8} (hprotocol : format.protocol = .http)
    (hlines : List.Forall₂ (fun p line => Line.write p = .ok line) points lines)
    (hblock : format.compressor.decompress? block =
      some (Utf8.encode ("\n".intercalate lines))) :
    Carries format points (.lines .nanosecond block)
  | records {now : Int64} {records : List Record} {blocks : List (List UInt8)}
    (hprotocol : format.protocol = .grpc)
    (hrecords : List.Forall₂
      (fun m r => r.measurement = m ∧ r.Shows (Record.rowsOf now points m))
      (points.map (·.measurement)).eraseDups records)
    (hblocks : List.Forall₂
      (fun r block => ∃ bytes, r.toBytes = .ok bytes ∧ format.compressor.Unpacks block bytes)
      records blocks) :
    Carries format points (.records records blocks)

/-- A request that brings the samples of a parcel to its destination. -/
structure Request.Brings (format : Sender.Format) (parcel : Parcel) (r : Request) : Prop where
  destination : r.destination = parcel.1
  algorithm : r.algorithm = format.compressor.algorithm
  body : r.body.Carries format parcel.2

namespace Compressor

theorem Like.refl (c : Compressor) : c.Like c := ⟨rfl, rfl, rfl⟩

theorem Like.trans {c d e : Compressor} (h : c.Like d) (h' : d.Like e) : c.Like e :=
  ⟨h.codecs.trans h'.codecs, h.algorithm.trans h'.algorithm, h.level.trans h'.level⟩

theorem Like.encode {c d : Compressor} (h : c.Like d) : c.encode = d.encode := by
  funext data
  unfold Compressor.encode
  rw [h.codecs, h.algorithm, h.level]

theorem compress_eq (c : Compressor) (data : List UInt8) :
    (c.compress data).1 = c.encode data ∧ (c.compress data).2.Like c := by
  unfold compress
  dsimp only
  split <;> exact ⟨rfl, rfl, rfl, rfl⟩

end Compressor

theorem Sender.Format.unpacks (format : Sender.Format) {c : Compressor}
    (h : c.Like format.compressor) (data : List UInt8) :
    format.compressor.Unpacks (c.encode data) data := by
  rw [h.encode]
  exact format.lossless data

theorem Sender.Format.ne_lz4 {format : Sender.Format} (h : format.protocol = .http) :
    format.compressor.algorithm ≠ .lz4 := by
  intro halgorithm
  have hsupported := format.supported
  rw [h, halgorithm] at hsupported
  cases hsupported

variable {format : Sender.Format} {s : Sender} {points : List Point}

theorem Sender.blocks_spec {c : Compressor} (hc : c.Like format.compressor)
    (records : List Record) :
    (Sender.blocks c records).2.Like format.compressor ∧
      ((∃ blocks, (Sender.blocks c records).1 = .ok blocks ∧
          List.Forall₂
            (fun r block => ∃ bytes, r.toBytes = .ok bytes ∧ format.compressor.Unpacks block bytes)
            records blocks) ∨
        ∃ r ∈ records, ∃ defect, r.toBytes = .error defect ∧
          (Sender.blocks c records).1 = .error (.malformed defect)) := by
  induction records generalizing c with
  | nil => exact ⟨hc, .inl ⟨[], rfl, .nil⟩⟩
  | cons r rest ih =>
    unfold Sender.blocks
    cases hbytes : r.toBytes with
    | error defect => exact ⟨hc, .inr ⟨r, List.mem_cons_self, defect, hbytes, rfl⟩⟩
    | ok bytes =>
      obtain ⟨hblock, hlike⟩ := c.compress_eq bytes
      obtain ⟨hlast, hrest⟩ := ih (hlike.trans hc)
      dsimp only
      refine ⟨hlast, ?_⟩
      rcases hrest with ⟨blocks, hblocks, heach⟩ | ⟨bad, hbad, defect, hdefect, hresult⟩
      · have hunpacks : format.compressor.Unpacks (c.compress bytes).1 bytes := by
          rw [hblock]
          exact format.unpacks hc bytes
        exact .inl ⟨_, by rw [hblocks]; rfl, .cons ⟨bytes, hbytes, hunpacks⟩ heach⟩
      · exact .inr ⟨bad, List.mem_cons_of_mem r hbad, defect, hdefect, by rw [hresult]; rfl⟩

theorem Record.sized_of_toBytes {measurement : String} {rows : List (Point × Int64)}
    {bytes : List UInt8} (h : (ofRows measurement rows).toBytes = .ok bytes) :
    (ofRows measurement rows).Sized := by
  rcases decides_ofRows measurement rows with ⟨hsized, -⟩ | ⟨-, n, -, herror⟩
  · exact hsized
  · rw [h] at herror
    cases herror

/-- Samples that pass the check have a body that carries them, except where one of their records
has a length beyond its word. -/
theorem Sender.body?_spec (hs : s.Follows format) (hne : points ≠ [])
    (hcheck : ∀ p ∈ points, format.protocol.fault? p = none) (now : Int64) :
    (s.body? now points).2.Follows format ∧
      ((∃ body, (s.body? now points).1 = .ok (some body) ∧ body.Carries format points) ∨
        format.protocol = .grpc ∧ ∃ r ∈ Record.all now points, ¬ r.Sized ∧
          ∃ n, 2 ^ 31 ≤ n ∧ (s.body? now points).1 = .error (.malformed (.oversize n))) := by
  unfold Sender.body?
  rw [hs.protocol]
  cases hprotocol : format.protocol with
  | http =>
    rw [hprotocol] at hcheck
    obtain ⟨lines, hlines⟩ := Line.exists_lines hcheck
    rw [Line.writeAll_of_lines hlines]
    obtain ⟨hblock, hlike⟩ := s.compressor.compress_eq (Utf8.encode ("\n".intercalate lines))
    dsimp only
    refine ⟨⟨hprotocol.symm, hlike.trans hs.compressor⟩, .inl ⟨_, rfl, ?_⟩⟩
    rw [hblock]
    have hlz4 := Sender.Format.ne_lz4 hprotocol
    exact .lines hprotocol hlines (format.unpacks hs.compressor _ fun h => absurd h hlz4)
  | grpc =>
    rw [hprotocol] at hcheck
    have hall := Record.all_of_checked hcheck now
    obtain ⟨hlike, hblocks⟩ := Sender.blocks_spec hs.compressor (Record.all now points)
    cases hsome : Record.all now points with
    | nil =>
      -- a sample has a measurement, and each measurement has its record
      rw [hsome] at hall
      obtain ⟨p, hp⟩ := List.exists_mem_of_ne_nil points hne
      have hname := List.mem_eraseDups.2 (List.mem_map_of_mem (f := (·.measurement)) hp)
      rw [List.map_eq_nil_iff.1 hall.symm] at hname
      cases hname
    | cons r rest =>
      dsimp only
      rw [← hsome]
      refine ⟨⟨hprotocol.symm, hlike⟩, ?_⟩
      rcases hblocks with ⟨blocks, hblocks, heach⟩ | ⟨bad, hbad, defect, hdefect, hresult⟩
      · have hrecords : List.Forall₂
            (fun m r => r.measurement = m ∧ r.Shows (Record.rowsOf now points m))
            (points.map (·.measurement)).eraseDups (Record.all now points) := by
          rw [hall, List.forall₂_map_right_iff]
          refine List.forall₂_same.2 fun m hm => ⟨rfl, Record.shows_ofRows ?_⟩
          have hwritten := ((List.forall₂_and_left
            (p := fun r => ∃ bytes, Record.toBytes r = .ok bytes) _ _).1
              (heach.imp fun _ _ ⟨bytes, hbytes, _⟩ => ⟨⟨bytes, hbytes⟩, trivial⟩)).1
          obtain ⟨bytes, hbytes⟩ := hwritten _ (hall ▸ List.mem_map_of_mem hm)
          exact Record.sized_of_toBytes hbytes
        exact .inl ⟨.records (Record.all now points) blocks, by rw [hblocks]; rfl,
          .records hprotocol hrecords heach⟩
      · rw [hall] at hbad
        obtain ⟨m, hm, rfl⟩ := List.mem_map.1 hbad
        rcases Record.decides_ofRows m (Record.rowsOf now points m) with
          ⟨hsized, hok⟩ | ⟨hnot, n, hn, herror⟩
        · rw [hdefect] at hok
          cases hok
        · obtain rfl := Except.error.inj (hdefect.symm.trans herror)
          refine .inr ⟨rfl, _, hall ▸ List.mem_map_of_mem hm, hnot, n, hn, ?_⟩
          rw [hresult]
          rfl

end SeriesIngest
