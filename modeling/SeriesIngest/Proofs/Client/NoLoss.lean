import SeriesIngest.Compression.Codecs
import SeriesIngest.Proofs.Client.Running
import SeriesIngest.Proofs.Client.Start

/-! A client with batches loses no sample in silence: what a successful write took is dropped on
a full queue, is brought to its destination, or is in the report of a failed flush. -/
namespace SeriesIngest

def overlongTag : Point := { measurement := "m", tags := [("k", Utf8.overlong)] }

theorem Record.toBytes_overlongTag (now : Int64) : ∃ r, Record.all now [overlongTag] = [r] ∧
    ∃ n, r.toBytes = .error (.oversize n) := by
  have hchecked : ∀ p ∈ [overlongTag], Protocol.grpc.fault? p = none := by
    intro p hp
    rw [List.mem_singleton.1 hp]
    rfl
  have hall := Record.all_of_checked hchecked now
  refine ⟨_, hall, ?_⟩
  rcases Record.decides_ofRows "m" (Record.rowsOf now [overlongTag] "m") with
    ⟨hsized, -⟩ | ⟨-, n, -, herror⟩
  · -- the column of the tag holds all bytes of its text
    have hholds := SchemaEntry.holds_column ⟨"k", .tag⟩ [overlongTag]
    have hcolumn : SchemaEntry.column ⟨"k", .tag⟩ [overlongTag] ∈
        (Record.ofRows "m" (Record.rowsOf now [overlongTag] "m")).columns := by
      rw [Record.columns_ofRows]
      exact List.mem_append_left _ List.mem_cons_self
    have hshort := hsized.values _ hcolumn
    have hlong : SchemaEntry.startAt [some (.text Utf8.overlong)] 1 = 2 ^ 31 := by
      simp [SchemaEntry.startAt, SchemaEntry.textLength, Utf8.length_overlong]
    rw [hholds.size rfl] at hshort
    exact absurd hshort (Nat.not_lt.2 hlong.ge)
  · exact ⟨n, herror⟩

theorem Sender.sendAll_malformed {s : Sender} (hgrpc : s.protocol = .grpc) (out : Carrier τ) (t : τ)
    (destination : Destination) {p : Point} {r : Record}
    (hall : Record.all (out.now t) [p] = [r]) {defect : RecordDefect}
    (hr : r.toBytes = .error defect) :
    s.sendAll out [(destination, [p])] t = (.failed (.encoding (.malformed defect)), s,
      noteAll out.toListener (s.notices (out.now t) [p]) t) := by
  obtain ⟨protocol, rotation, compressor⟩ := s
  obtain rfl : protocol = .grpc := hgrpc
  simp only [sendAll, send, List.cons_ne_nil, if_false, body?, hall, blocks, hr]
  rfl

namespace Client

variable (server : Server) {codecs : Codecs} {settings : Settings} {handlers : Handlers}
  {c : Client} {history : List Call}

theorem start_running
    (h : start codecs settings (recording server handlers) [] = .ok (c, history))
    (hbatch : settings.batch.isSome) (hlossless : (settings.compressor codecs).Lossless) :
    ∃ box options, settings.batchOptions = some options ∧
      Running (settings.format codecs (valid_of_start h) hlossless) options handlers [] [] c box
        history := by
  have hvalid := valid_of_start h
  cases start_ok h with
  | direct hnone =>
    rw [Settings.batchOptions, Option.map_eq_none_iff] at hnone
    simp [hnone] at hbatch
  | @batching rotation box hoptions hphase hqueue hcounts =>
    refine ⟨box, box.options, hoptions, rfl, rfl, hphase, fun _ => hqueue, by simp, ?_⟩
    intro _
    have hempty : Accounts (settings.format codecs hvalid hlossless) handlers [] [] [] box [] :=
      ⟨by rw [hqueue]; rfl, rfl, by simp, by cases handlers.dropped <;> rfl, by rw [hcounts]; rfl,
        by simp⟩
    have henabled := hempty.note server
      (.enabled box.options.actions box.options.bufferLimit) rfl
    exact ⟨⟨rfl, .refl _⟩, [], henabled.note server (.clientReady rotation.size _ _ true) rfl⟩

/-- **No silent loss.** Of a client with batches, through whatever happens until it is closed or
dropped and however each request is answered: every entry of the successful writes was put once and
either met a full queue, where it was dropped, counted and told to the handler of drops, or left in
exactly one flush. The history of requests and reports is that of the flushes, in their order. A
flush either has one answered request for each destination, which carries every sample that goes
there, or it failed and its samples are reported once to the handler of failures. The fault is that
of a request, or says that a record has no wire form, and the latter exactly where a flush comes to
such a record. No parcel was skipped as not encodable. -/
theorem no_silent_loss
    (hstart : start codecs settings (recording server handlers) [] = .ok (c, history))
    (hbatch : settings.batch.isSome)
    (hlossless : (settings.compressor codecs).Lossless)
    (events : List Event) {last : Event} (hlast : last = .step .close ∨ last = .drop) :
    let out := recording server handlers
    let fates := c.fates out history (events ++ [last])
    let final := c.live out history (events ++ [last])
    fates.map (·.1) = c.written out history (events ++ [last]) ∧
      (∀ x ∈ fates, x.2 = .taken ∨ x.2 = .discarded) ∧
      ∃ box flushes, final.1.outbox = some box ∧ box.queue = [] ∧
        Accounts (settings.format codecs (valid_of_start hstart) hlossless) handlers
          (Outbox.withFate .taken fates) (Outbox.withFate .discarded fates) flushes box final.2 := by
  intro out fates final
  obtain ⟨box, options, -, hrunning⟩ := start_running server hstart hbatch hlossless
  obtain ⟨⟨before, hbefore⟩, -⟩ := hrunning.run server events
  obtain ⟨⟨after, hafter⟩, hwritten, haccepted⟩ := hrunning.run server (events ++ [last])
  have hclosed : final.1.closed = true := by
    simp only [final, live_concat]
    rcases hlast with rfl | rfl
    · exact (hbefore.close server).1
    · exact (hbefore.drop server).1
  obtain ⟨-, flushes, haccounts⟩ := hafter.accounted hafter.checked
  refine ⟨hwritten, ?_, after, flushes, hafter.outbox, hafter.empty hclosed, haccounts⟩
  intro x hx
  have hnone := haccepted x hx
  cases hfate : x.2 with
  | taken => exact .inl rfl
  | discarded => exact .inr rfl
  | refused => exact absurd hfate hnone

/-- A sample that meets a full queue, and a flush whose only request breaks off. -/
theorem no_silent_loss_full_queue :
    let settings : Settings :=
      { endpoints := ["http://a"]
        batch := some { actions := some 2, bufferLimit := some 2, dropWhenFull := true } }
    let server : Server :=
      { post := fun _ _ request =>
          if request.destination.database = "y" then .panicked .other else .done
        ping := fun _ _ => none
        now := fun _ => 0 }
    let handlers : Handlers := { failed := some fun _ _ => none }
    let point : String → Point := fun name => { measurement := name, fields := [("v", .int 1)] }
    let events : List Event := [
      .writeAhead ⟨"x", "rp"⟩ [(0, point "a"), (0, point "b"), (0, point "c")], .step .flush,
      .step (.write ⟨"y", "rp"⟩ [point "d"])]
    ∃ c history, ∃ hvalid : settings.validate = .ok (),
      ∃ hlossless : (settings.compressor Compression.codecs).Lossless,
      start Compression.codecs settings (recording server handlers) [] = .ok (c, history) ∧
      let fates := c.fates (recording server handlers) history (events ++ [.drop])
      let final := c.live (recording server handlers) history (events ++ [.drop])
      fates.map (·.2) = [.taken, .taken, .discarded, .taken] ∧
        .heard (.failed (.panicked Panic.other.message) [point "d"]) ∈ final.2 ∧
        ∃ box flushes, final.1.outbox = some box ∧ box.queue = [] ∧
          Accounts (settings.format Compression.codecs hvalid hlossless) handlers
            (Outbox.withFate .taken fates) (Outbox.withFate .discarded fates) flushes box
            final.2 := by
  intro settings server handlers point events
  let c : Client :=
    { sender :=
        { protocol := .http
          rotation := { slots := [⟨"http://a", false⟩], nonempty := by simp }
          compressor := { codecs := Compression.codecs, algorithm := .none } }
      outbox := some
        { options := { actions := 2, bufferLimit := 2, dropWhenFull := true }
          valid := rfl
          phase := .armed } }
  let history : List Call :=
    [.heard (.noted (.enabled 2 2)), .heard (.noted (.clientReady 1 .http .none true))]
  have hvalid : settings.validate = .ok () := by decide +kernel
  have hstart : start Compression.codecs settings (recording server handlers) [] =
      .ok (c, history) := by
    unfold start ofSettings
    rw [hvalid]
    rfl
  have hlossless : (settings.compressor Compression.codecs).Lossless := fun _ _ => rfl
  obtain ⟨-, -, box, flushes, hbox, hqueue, haccounts⟩ :=
    no_silent_loss server hstart rfl hlossless events (.inr rfl)
  exact ⟨c, history, hvalid, hlossless, hstart, by decide +kernel, by decide +kernel, box,
    flushes, hbox, hqueue, haccounts⟩

theorem write_malformed {c : Client} {box : Outbox} (hopen : c.closed = false)
    (hgrpc : c.sender.protocol = .grpc) (houtbox : c.outbox = some box)
    (harmed : box.phase = .armed) (hempty : box.queue = []) (hdue : box.options.actions = 1)
    (server : Server) (handlers : Handlers) (hfailed : handlers.failed.isSome)
    (destination : Destination) {p : Point} (hp : c.sender.protocol.fault? p = none)
    (history : List Call) {r : Record} (hall : Record.all (server.now history) [p] = [r])
    {defect : RecordDefect} (hr : r.toBytes = .error defect) :
    let wrote := c.write (recording server handlers) destination [p] history
    wrote.1 = .done ∧ .heard (.failed (.encoding (.malformed defect)) [p]) ∈ wrote.2.2 := by
  let out := recording server handlers
  let noted := Sender.noteAll out.toListener (c.sender.notices (server.now history) [p]) history
  have hqueue : (box.accept ⟨p, destination⟩).queue = [⟨p, destination⟩] := by
    rw [Outbox.accept, hempty]
    rfl
  have hsent : (Sender.outside out).send
      (Entry.pack (box.accept ⟨p, destination⟩).queue).1 (c.sender, history) =
        (.failed (.encoding (.malformed defect)), c.sender, noted) := by
    rw [hqueue]
    exact Sender.sendAll_malformed hgrpc out history destination hall hr
  have hwrite := Outbox.write_of_fault hsent rfl
  obtain ⟨later, hreport, hlater⟩ := report_spec server handlers
    (.encoding (.malformed defect)) [p] c.sender noted
  -- one action is enough, so the put flushes at once
  have hput : box.put (Sender.outside out) ⟨p, destination⟩ .flush (c.sender, history) =
      (.ok (), (box.accept ⟨p, destination⟩).write (Sender.outside out) (c.sender, history)) := by
    have hlength : (box.accept ⟨p, destination⟩).queue.length = 1 := by rw [hqueue]; rfl
    have hdue' : (box.accept ⟨p, destination⟩).options.actions = 1 := hdue
    simp [Outbox.put, Outbox.append, harmed, Outbox.isFull_of_empty hempty, hlength, hdue']
  rw [if_pos hfailed] at hlater
  rw [hqueue, List.map_singleton, hreport] at hwrite
  intro wrote
  have hwrote : ∃ final, wrote = (.done, final, later) := by
    simp only [wrote, write, hopen, Bool.false_eq_true, if_false, List.findSome?_cons, hp,
      List.findSome?_nil, houtbox, List.map_cons, List.map_nil, Outbox.putAll]
    rw [hput, hwrite]
    exact ⟨_, rfl⟩
  obtain ⟨final, hwrote⟩ := hwrote
  rw [hwrote]
  exact ⟨rfl, hlater.mem (List.mem_singleton_self _)⟩

/-- A tag of 2^31 bytes passes the check of its write, and then its flush fails with an encoding
fault. -/
theorem overlong_tag_fails_flush :
    let settings : Settings :=
      { endpoints := ["http://a"], protocol := .grpc, batch := some { actions := some 1 } }
    let server : Server :=
      { post := fun _ _ _ => .done, ping := fun _ _ => none, now := fun _ => 0 }
    let handlers : Handlers := { failed := some fun _ _ => none }
    ∃ c history, start Compression.codecs settings (recording server handlers) [] =
        .ok (c, history) ∧
      let wrote := c.write (recording server handlers) ⟨"x", "rp"⟩ [overlongTag] history
      wrote.1 = .done ∧
        ∃ n, .heard (.failed (.encoding (.malformed (.oversize n))) [overlongTag]) ∈ wrote.2.2 := by
  intro settings server handlers
  let c : Client :=
    { sender :=
        { protocol := .grpc
          rotation := { slots := [⟨"http://a", false⟩], nonempty := by simp }
          compressor := { codecs := Compression.codecs, algorithm := .none } }
      outbox := some { options := { actions := 1 }, valid := rfl, phase := .armed } }
  let history : List Call :=
    [.heard (.noted (.enabled 1 10000)), .heard (.noted (.clientReady 1 .grpc .none true))]
  have hvalid : settings.validate = .ok () := by decide +kernel
  have hstart : start Compression.codecs settings (recording server handlers) [] =
      .ok (c, history) := by
    unfold start ofSettings
    rw [hvalid]
    rfl
  obtain ⟨r, hall, n, hr⟩ := Record.toBytes_overlongTag 0
  have hwrote := write_malformed (c := c) rfl rfl rfl rfl rfl rfl server handlers rfl ⟨"x", "rp"⟩
    (p := overlongTag) rfl history hall hr
  exact ⟨c, history, hstart, hwrote.1, n, hwrote.2⟩

end Client
end SeriesIngest
