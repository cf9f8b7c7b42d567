import SeriesIngest.Proofs.Outbox.Events
import SeriesIngest.Proofs.Outbox.Flush

/-! No entry is lost, sent twice or miscounted. In every state the entries that were taken are
those of the flushes so far, one flush after the other, and then those of the queue. -/
namespace SeriesIngest.Outbox

structure Flush where
  entries : List Entry
  outcome : Outcome WriteFault

namespace Flush

def calls (handlers : Handlers) (f : Flush) : List Call :=
  .sent (Entry.pack f.entries).1 f.outcome ::
    match f.outcome.fault?, handlers.failed with
    | some fault, some _ => [.heard (.failed fault (f.entries.map (·.point)))]
    | _, _ => []

end Flush

def Call.isOfFlush : Call → Bool
  | .sent .. => true
  | .heard (.failed ..) => true
  | _ => false

def Call.discarded? : Call → Option Entry
  | .heard (.dropped entry) => some entry
  | _ => none

def tally (taken discarded : List Entry) (flushes : List Flush) : Counts where
  enqueued := taken.length
  dropped := discarded.length
  flushedPoints := ((flushes.filter (·.outcome = .done)).flatMap (·.entries)).length
  flushes := flushes.length
  failedFlushes := flushes.countP (·.outcome ≠ .done)

/-- How the entries of a run, its flushes, its history and its counters agree. -/
structure Accounts (handlers : Handlers) (taken discarded : List Entry) (flushes : List Flush)
    (o : Outbox) (history : List Call) : Prop where
  conserved : taken = flushes.flatMap (·.entries) ++ o.queue
  delivered : history.filter Call.isOfFlush = flushes.flatMap (Flush.calls handlers)
  told : history.filterMap Call.discarded? = if handlers.dropped then discarded else []
  counted : o.counts = tally taken discarded flushes

def Accounted (handlers : Handlers) (taken discarded : List Entry)
    (state : Outbox × List Call) : Prop :=
  ∃ flushes, Accounts handlers taken discarded flushes state.1 state.2

variable {answer : List Call → List Parcel → Outcome WriteFault} {handlers : Handlers}
  {taken discarded : List Entry} {o : Outbox} {history : List Call}

theorem Accounts.note {flushes : List Flush} (notice : Notice)
    (h : Accounts handlers taken discarded flushes o history) :
    Accounts handlers taken discarded flushes o (history ++ [.heard (.noted notice)]) where
  conserved := h.conserved
  delivered := by simp [List.filter_append, h.delivered, Call.isOfFlush]
  told := by simp [List.filterMap_append, h.told, Call.discarded?]
  counted := h.counted

theorem Accounts.shut {flushes : List Flush}
    (h : Accounts handlers taken discarded flushes o history) :
    Accounts handlers taken discarded flushes o (history ++ [.closed]) where
  conserved := h.conserved
  delivered := by simp [List.filter_append, h.delivered, Call.isOfFlush]
  told := by simp [List.filterMap_append, h.told, Call.discarded?]
  counted := h.counted

theorem Accounts.enter {flushes : List Flush} (phase : Phase)
    (h : Accounts handlers taken discarded flushes o history) :
    Accounts handlers taken discarded flushes { o with phase } history :=
  ⟨h.conserved, h.delivered, h.told, h.counted⟩

theorem Accounts.take {flushes : List Flush} (entry : Entry)
    (h : Accounts handlers taken discarded flushes o history) :
    Accounts handlers (taken ++ [entry]) discarded flushes (o.accept entry) history where
  conserved := by simp [accept, h.conserved]
  delivered := h.delivered
  told := h.told
  counted := by simp [accept, h.counted, tally]

theorem Accounts.discard {flushes : List Flush} (entry : Entry)
    (h : Accounts handlers taken discarded flushes o history) :
    Accounts handlers taken (discarded ++ [entry]) flushes
      (o.discard (recording answer handlers) entry history).1
      (o.discard (recording answer handlers) entry history).2 where
  conserved := h.conserved
  delivered := by
    rw [← h.delivered]
    cases hd : handlers.dropped <;>
      simp [Outbox.discard, recording, Listener.recording, hd, Call.isOfFlush]
  told := by
    have ht := h.told
    cases hd : handlers.dropped <;>
      simp_all [Outbox.discard, recording, Listener.recording, List.filterMap_cons,
        Call.discarded?]
  counted := by simp [Outbox.discard, h.counted, tally]

theorem report_recording (fault : WriteFault) (points : List Point) (history : List Call) :
    (report (recording answer handlers) fault points history).filter Call.isOfFlush =
        history.filter Call.isOfFlush ++
          (handlers.failed.map fun _ => Call.heard (.failed fault points)).toList ∧
      (report (recording answer handlers) fault points history).filterMap Call.discarded? =
        history.filterMap Call.discarded? := by
  unfold report
  cases hf : handlers.failed with
  | none => simp [recording, Listener.recording, hf, Call.isOfFlush, Call.discarded?]
  | some reply =>
    cases hr : reply fault points <;>
      simp [recording, Listener.recording, hf, hr, List.filter_cons, List.filterMap_cons,
        Call.isOfFlush, Call.discarded?]

theorem Accounts.write {flushes : List Flush}
    (h : Accounts handlers taken discarded flushes o history) :
    Accounts handlers taken discarded
      (flushes ++ [⟨o.queue, answer history (Entry.pack o.queue).1⟩])
      (o.write (recording answer handlers) history).1
      (o.write (recording answer handlers) history).2 := by
  obtain ⟨conserved, delivered, told, counted⟩ := h
  obtain ⟨hdone, hwrite⟩ | ⟨fault, hfault, hwrite⟩ := write_recording o answer handlers history
  · rw [hwrite, hdone]
    refine ⟨by simp [conserved], ?_, ?_, by simp [counted, tally]⟩
    · rw [List.flatMap_append, ← delivered]
      by_cases hq : o.queue.length = 0 <;>
        simp [hq, recording, Listener.recording, Flush.calls, Outcome.fault?, List.filter_cons,
          Call.isOfFlush]
    · rw [← told]
      by_cases hq : o.queue.length = 0 <;>
        simp [hq, recording, Listener.recording, List.filterMap_cons, Call.discarded?]
  · have hfailed : answer history (Entry.pack o.queue).1 ≠ .done := by
      intro hdone
      simp [hdone, Outcome.fault?] at hfault
    rw [hwrite]
    refine ⟨by simp [conserved], ?_, ?_, by simp [counted, tally, hfailed]⟩
    · rw [(report_recording _ _ _).1, List.flatMap_append, ← delivered]
      cases hf : handlers.failed <;>
        simp [Flush.calls, hfault, hf, List.filter_cons, Call.isOfFlush]
    · rw [(report_recording _ _ _).2, ← told]
      simp [Call.discarded?]

theorem keeps_accounted (answer : List Call → List Parcel → Outcome WriteFault)
    (handlers : Handlers) : Keeps (recording answer handlers) (Accounted handlers) := by
  rintro taken discarded o history move ⟨flushes, h⟩
  cases move
  all_goals
    simp only [Move.taken?, Move.discarded?, Option.toList_none, Option.toList_some,
      List.append_nil]
  case arm => exact ⟨flushes, (h.note _).enter .armed⟩
  case take entry => exact ⟨flushes, h.take entry⟩
  case discard entry => exact ⟨flushes, h.discard entry⟩
  case write => exact ⟨_, h.write⟩
  case rest => exact ⟨flushes, (h.note _).enter .disabled⟩
  case shut => exact ⟨flushes, (h.shut.note _).enter .closed⟩
  case warn => exact ⟨flushes, h.note _⟩

/-- **Conservation.** From its start, through whatever happens to it and however each call to
the receiver ends, an outbox takes entries in the order of their puts and passes them on in
that order, each in exactly one flush: the entries taken so far are those of the flushes so
far, then those of the queue. Each flush is one call with the parcels of its entries, and one
call to the handler of failures, if there is one, when it failed. The counters agree. -/
theorem entries_conserved {options : Options} {o : Outbox} (h : ofOptions options = .ok o)
    (answer : List Call → List Parcel → Outcome WriteFault) (handlers : Handlers)
    (events : List Event) :
    let out := recording answer handlers
    let fates := o.fates out [] events
    ∃ flushes, Accounts handlers (withFate .taken fates) (withFate .discarded fates) flushes
      (o.live out [] events).1 (o.live out [] events).2 := by
  have hstart : Accounted handlers [] [] (o, []) := by
    obtain ⟨-, hqueue, hcounts⟩ := ofOptions_ok h
    exact ⟨[], by simp [hqueue], rfl, by simp, hcounts⟩
  exact (keeps_accounted answer handlers).live events hstart

/-- Two entries ahead of a flush that fails, a third that meets the full queue, a drop. -/
theorem entries_conserved_full_queue :
    let o : Outbox :=
      { options := { actions := 2, bufferLimit := 2, dropWhenFull := true }, valid := rfl }
    let entry : String → Entry := fun name => ⟨{ measurement := name }, ⟨"db", "rp"⟩⟩
    let events : List Event := [.step .enable, .putAhead (entry "a") .flush,
      .putAhead (entry "b") .flush, .step (.put (entry "c") .flush), .drop]
    let out := recording (fun _ _ => .failed (.delivery .timeout)) {}
    ofOptions o.options = .ok o ∧
      (∃ flushes, Accounts {} (withFate .taken (o.fates out [] events))
        (withFate .discarded (o.fates out [] events)) flushes (o.live out [] events).1
        (o.live out [] events).2) ∧
      withFate .taken (o.fates out [] events) = [entry "a", entry "b"] ∧
      withFate .discarded (o.fates out [] events) = [entry "c"] := by
  intro o entry events out
  have hstart : ofOptions o.options = .ok o := rfl
  exact ⟨hstart, entries_conserved hstart _ _ _, by decide +kernel, by decide +kernel⟩

end SeriesIngest.Outbox
