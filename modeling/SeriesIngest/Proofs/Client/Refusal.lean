import SeriesIngest.Client.History
import SeriesIngest.Compression.Codecs
import SeriesIngest.Proofs.Line.Writer
import SeriesIngest.Proofs.Record.Partition

/-! The check before a write and the encoders agree on every sample, so that a write is refused
exactly where a sample would be lost on the way; and a refused write leaves nothing behind. -/
namespace SeriesIngest

def Protocol.Encodes (protocol : Protocol) (p : Point) : Prop :=
  match protocol with
  | .http => ∃ line, Line.write p = .ok line
  | .grpc => ∀ now, ∃ r, Record.ofPoints now [p] = .ok r

theorem Protocol.grpc_fault?_eq_none (p : Point) :
    Protocol.grpc.fault? p = none ↔ p.measurement ≠ "" ∧ p.nanos?.isOk := by
  unfold Protocol.fault?
  by_cases hname : p.measurement = ""
  · simp [hname]
  · rw [if_neg hname]
    cases p.nanos? <;> simp [hname, Except.isOk, Except.toBool]

theorem Record.exists_ofPoints_singleton (now : Int64) (p : Point) :
    (∃ r, Record.ofPoints now [p] = .ok r) ↔ p.measurement ≠ "" ∧ p.nanos?.isOk := by
  have hrows := Record.timed_filter_isOk now [p]
  constructor
  · rintro ⟨r, hr⟩
    obtain ⟨first, rest, hpoints, hname, hne, -⟩ := Record.ofPoints_ok hr
    obtain ⟨rfl, rfl⟩ := List.cons.inj hpoints
    refine ⟨hname, ?_⟩
    by_contra htime
    have hnone : [p].filter (·.nanos?.isOk) = [] := by simp [htime]
    rw [hnone] at hrows
    exact hne hrows.symm
  · rintro ⟨hname, htime⟩
    have hall : ∀ q ∈ [p], q.nanos?.isOk := by simpa using htime
    have hkept := (Record.timed_of_isOk hall now).1
    refine ⟨_, Record.ofPoints_of_timed hname (by simp) fun hnone => ?_⟩
    rw [hnone] at hkept
    cases hkept

theorem Protocol.fault?_eq_none_iff_encodes (protocol : Protocol) (p : Point) :
    protocol.fault? p = none ↔ protocol.Encodes p := by
  cases protocol with
  | http => exact Line.http_fault?_eq_none p
  | grpc =>
    rw [Protocol.grpc_fault?_eq_none]
    exact ⟨fun h now => (Record.exists_ofPoints_singleton now p).2 h,
      fun h => (Record.exists_ofPoints_singleton 0 p).1 (h 0)⟩

theorem Line.exists_writeAll_iff (points : List Point) :
    (∃ body, Line.writeAll points = .ok body) ↔
      ∀ p ∈ points, Protocol.http.fault? p = none := by
  rw [← Line.exists_lines_iff]
  simp only [Line.writeAll_iff]
  exact ⟨fun ⟨_, lines, hlines, _⟩ => ⟨lines, hlines⟩,
    fun ⟨lines, hlines⟩ => ⟨_, lines, hlines, rfl⟩⟩

theorem Record.sum_rowCount_all_eq_length (now : Int64) (points : List Point) :
    ((Record.all now points).map Record.rowCount).sum = points.length ↔
      ∀ p ∈ points, Protocol.grpc.fault? p = none := by
  rw [Record.sum_rowCount_all, List.countP_eq_length]
  simp only [Protocol.grpc_fault?_eq_none, Bool.and_eq_true, decide_eq_true_eq]

namespace Client

theorem write_refused {c : Client} (hopen : c.closed = false) {points : List Point}
    {fault : EncodingFault} (h : points.findSome? c.sender.protocol.fault? = some fault)
    (out : Carrier τ) (destination : Destination) (t : τ) :
    c.write out destination points t = (.failed (.encoding fault), c, t) := by
  simp [write, hopen, h]

/-- **The check is exact and a refusal is atomic.** All samples pass the check of the text protocol
exactly when they have a body, and that of the record protocol exactly when their records have a
row for each. So a write that an open client refuses has a sample without a form: its answer is
the fault of the first of them, and neither the client nor what it talks to is touched. -/
theorem refusal_exact :
    (∀ points : List Point, (∀ p ∈ points, Protocol.http.fault? p = none) ↔
      ∃ body, Line.writeAll points = .ok body) ∧
    (∀ (now : Int64) (points : List Point), (∀ p ∈ points, Protocol.grpc.fault? p = none) ↔
      ((Record.all now points).map Record.rowCount).sum = points.length) ∧
    ∀ {τ : Type} (c : Client) (out : Carrier τ) (t : τ) (destination : Destination)
      (before : List Point) (p : Point) (after : List Point), c.closed = false →
      (∀ q ∈ before, c.sender.protocol.Encodes q) → ¬ c.sender.protocol.Encodes p →
      ∃ fault, c.sender.protocol.fault? p = some fault ∧
        c.write out destination (before ++ p :: after) t = (.failed (.encoding fault), c, t) := by
  refine ⟨fun points => (Line.exists_writeAll_iff points).symm,
    fun now points => (Record.sum_rowCount_all_eq_length now points).symm, ?_⟩
  intro τ c out t destination before p after hopen hbefore hp
  rw [← Protocol.fault?_eq_none_iff_encodes, ← ne_eq, Option.ne_none_iff_exists'] at hp
  obtain ⟨fault, hfault⟩ := hp
  have hnone : before.findSome? c.sender.protocol.fault? = none :=
    List.findSome?_eq_none_iff.2 fun q hq =>
      (Protocol.fault?_eq_none_iff_encodes _ q).2 (hbefore q hq)
  have hfirst : (before ++ p :: after).findSome? c.sender.protocol.fault? = some fault := by
    rw [List.findSome?_append, hnone, Option.none_or, List.findSome?_cons, hfault]
  exact ⟨fault, hfault, write_refused hopen hfirst out destination t⟩

/-- Both a time that overflows and a float that is not finite: the time is what the check names,
although the writer meets the float first. -/
def twiceBad : Point :=
  { measurement := "m", fields := [("v", .float ⟨0x7FF8000000000000⟩)]
    time := Int64.maxValue, precision := .second }

theorem refusal_exact_twiceBad :
    let good : Point := { measurement := "m", fields := [("v", .int 1)] }
    let c : Client :=
      { sender :=
          { protocol := .http
            rotation := { slots := [⟨"http://a", false⟩], nonempty := by simp }
            compressor := { codecs := Compression.codecs, algorithm := .gzip } }
        outbox := some
          { options := {}, valid := rfl, phase := .armed, queue := [⟨good, ⟨"x", "y"⟩⟩] } }
    let server : Server :=
      { post := fun _ _ _ => .done, ping := fun _ _ => none, now := fun _ => 0 }
    c.closed = false ∧ (∀ q ∈ [good], c.sender.protocol.Encodes q) ∧
      ¬ c.sender.protocol.Encodes twiceBad ∧
      c.write (recording server {}) ⟨"db", "rp"⟩ [good, twiceBad, good] [] =
        (.failed (.encoding (.timeOverflow Int64.maxValue)), c, []) := by
  intro good c server
  have hgood : ∀ q ∈ [good], c.sender.protocol.Encodes q := by
    intro q hq
    obtain rfl := List.mem_singleton.1 hq
    exact ⟨"m v=1i", by decide +kernel⟩
  have hbad : ¬ c.sender.protocol.Encodes twiceBad := by
    have hwrite : Line.write twiceBad = .error (.nonFinite "v" ⟨0x7FF8000000000000⟩) := by
      decide +kernel
    rintro ⟨line, hline⟩
    rw [hwrite] at hline
    cases hline
  obtain ⟨fault, hfault, hrefused⟩ := refusal_exact.2.2 c (recording server {}) [] ⟨"db", "rp"⟩
    [good] twiceBad [good] rfl hgood hbad
  have hcause : Protocol.http.fault? twiceBad = some (.timeOverflow Int64.maxValue) := by
    decide +kernel
  obtain rfl := Option.some.inj (hfault.symm.trans hcause)
  exact ⟨rfl, hgood, hbad, hrefused⟩

end Client
end SeriesIngest
