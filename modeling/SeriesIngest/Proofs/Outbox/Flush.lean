import SeriesIngest.Proofs.Outbox.Moves
import SeriesIngest.Proofs.Outbox.Packing

/-! What one flush does, for any receiver and any listener. -/
namespace SeriesIngest.Outbox

variable {o : Outbox} {out : Outside σ} {s s' : σ}

theorem write_of_done (h : out.send (Entry.pack o.queue).1 s = (.done, s')) :
    o.write out s =
      ({ o with
          queue := []
          counts := { o.counts with
            flushes := o.counts.flushes + 1
            flushedPoints := o.counts.flushedPoints + o.queue.length } },
        if o.queue.length = 0 then s'
        else out.note (.flushed o.queue.length (Entry.pack o.queue).1.length) s') := by
  simp [write, h, Outcome.fault?]

theorem write_of_fault {outcome : Outcome WriteFault} {fault : WriteFault}
    (h : out.send (Entry.pack o.queue).1 s = (outcome, s')) (hf : outcome.fault? = some fault) :
    o.write out s =
      ({ o with
          queue := []
          counts := { o.counts with
            flushes := o.counts.flushes + 1
            failedFlushes := o.counts.failedFlushes + 1 } },
        report out fault (o.queue.map (·.point)) s') := by
  simp [write, h, hf, Parcel.unpack_pack]

theorem write_recording (o : Outbox) (answer : List Call → List Parcel → Outcome WriteFault)
    (handlers : Handlers) (history : List Call) :
    let out := recording answer handlers
    let outcome := answer history (Entry.pack o.queue).1
    let sent := history ++ [.sent (Entry.pack o.queue).1 outcome]
    let counts := { o.counts with flushes := o.counts.flushes + 1 }
    outcome = .done ∧
        o.write out history =
          ({ o with
              queue := []
              counts := { counts with flushedPoints := counts.flushedPoints + o.queue.length } },
            if o.queue.length = 0 then sent
            else out.note (.flushed o.queue.length (Entry.pack o.queue).1.length) sent) ∨
      ∃ fault, outcome.fault? = some fault ∧
        o.write out history =
          ({ o with
              queue := []
              counts := { counts with failedFlushes := counts.failedFlushes + 1 } },
            report out fault (o.queue.map (·.point)) sent) := by
  intro out outcome sent counts
  have hsend : out.send (Entry.pack o.queue).1 history = (outcome, sent) := rfl
  cases hfault : outcome.fault? with
  | none =>
    have hdone : outcome = .done := by
      cases houtcome : outcome <;> simp_all [Outcome.fault?]
    rw [hdone] at hsend
    exact .inl ⟨hdone, write_of_done hsend⟩
  | some fault => exact .inr ⟨fault, rfl, write_of_fault hsend hfault⟩

end SeriesIngest.Outbox
