import SeriesIngest.Proofs.Outbox.Flush
import SeriesIngest.Proofs.Outbox.Staff

/-! How flushes end has no influence on what is flushed. Two runs with the same turns, whose
receivers and handlers of failures answer differently, show the same but for two counters and
what is said about the failures. -/
namespace SeriesIngest.Outbox

def Call.bare? : Call → Option Call
  | .sent parcels _ => some (.sent parcels .done)
  | .heard (.failed ..) => none
  | .heard (.noted _) => none
  | call => some call

def bareCalls (history : List Call) : List Call :=
  history.filterMap Call.bare?

def bare (o : Outbox) : Outbox :=
  { o with counts := { o.counts with flushedPoints := 0, failedFlushes := 0 } }

def Move.told (o : Outbox) (handlers : Handlers) : Move → List Call
  | .discard entry => if handlers.dropped then [.heard (.dropped entry)] else []
  | .write => [.sent (Entry.pack o.queue).1 .done]
  | .shut => [.closed]
  | _ => []

def quiet : Outside Unit where
  dropped _ _ := ()
  failed _ _ _ := (none, ())
  note _ _ := ()
  send _ _ := (.done, ())
  close _ := ()

variable {o : Outbox} {answer : List Call → List Parcel → Outcome WriteFault}
  {handlers : Handlers} {history : List Call}

theorem bare_write (out : Outside σ) (s : σ) :
    (o.write out s).1.bare =
      { o.bare with queue := [], counts := { o.bare.counts with flushes := o.counts.flushes + 1 } } := by
  unfold write
  dsimp only
  split <;> rfl

theorem bare_act (out : Outside σ) (s : σ) (move : Move) :
    (o.act out s move).1.bare = (o.bare.act quiet () move).1.bare := by
  cases move with
  | write => simp only [act, bare_write]; rfl
  | arm => rfl
  | take entry => rfl
  | discard entry => rfl
  | rest => rfl
  | shut => rfl
  | warn => rfl

theorem bareCalls_append (first second : List Call) :
    bareCalls (first ++ second) = bareCalls first ++ bareCalls second :=
  List.filterMap_append

theorem bareCalls_report (fault : WriteFault) (points : List Point) :
    bareCalls (report (recording answer handlers) fault points history) = bareCalls history := by
  unfold report
  cases hf : handlers.failed with
  | none => simp [recording, Listener.recording, hf, bareCalls, Call.bare?]
  | some reply =>
    cases hr : reply fault points <;>
      simp [recording, Listener.recording, hf, hr, bareCalls, List.filterMap_cons, Call.bare?]

theorem bareCalls_write :
    bareCalls (o.write (recording answer handlers) history).2 =
      bareCalls history ++ [.sent (Entry.pack o.queue).1 .done] := by
  obtain ⟨-, hwrite⟩ | ⟨fault, -, hwrite⟩ := write_recording o answer handlers history
  · rw [hwrite]
    by_cases hq : o.queue.length = 0 <;>
      simp [hq, recording, Listener.recording, bareCalls, List.filterMap_cons, Call.bare?]
  · rw [hwrite, bareCalls_report, bareCalls_append]
    rfl

theorem bareCalls_act (move : Move) :
    bareCalls (o.act (recording answer handlers) history move).2 =
      bareCalls history ++ move.told o handlers := by
  cases move with
  | write => exact bareCalls_write
  | discard entry =>
    cases hd : handlers.dropped <;>
      simp [act, discard, recording, Listener.recording, hd, bareCalls, List.filterMap_cons,
        Call.bare?, Move.told]
  | take entry => simp [act, Move.told]
  | _ =>
    simp [act, recording, Listener.recording, bareCalls, List.filterMap_cons, Call.bare?,
      Move.told]

namespace Staffed

def bare (o : Staffed) : Staffed :=
  { o with toOutbox := o.toOutbox.bare }

def Deed.told (o : Staffed) (handlers : Handlers) : Deed → List Call
  | .move m => m.told o.toOutbox handlers
  | .carry => Move.write.told o.toOutbox handlers
  | .ask => []

variable {o : Staffed}

theorem bare_follows (box : Outbox) : (o.follows box).bare = o.bare.follows box.bare := rfl

theorem bare_act (out : Outside σ) (s : σ) (deed : Deed) :
    (o.act out s deed).1.bare = (o.bare.act quiet () deed).1.bare := by
  cases deed with
  | move m =>
    simp only [act, bare_follows, Outbox.bare_act out s m]
    rfl
  | carry =>
    have hwrite := Outbox.bare_act (o := o.toOutbox) out s .write
    exact congrArg (fun box : Outbox =>
      ({ o with toOutbox := box, requested := false, orders := o.orders - 1 } : Staffed)) hwrite
  | ask =>
    dsimp only [act, ask, bare]
    split <;> rfl

theorem bareCalls_act (deed : Deed) :
    bareCalls (o.act (recording answer handlers) history deed).2 =
      bareCalls history ++ deed.told o handlers := by
  cases deed with
  | move m => exact Outbox.bareCalls_act m
  | carry => exact bareCalls_write
  | ask => exact (List.append_nil _).symm

theorem told_bare (handlers : Handlers) (deed : Deed) :
    deed.told o handlers = deed.told o.bare ⟨handlers.dropped, none⟩ := rfl

theorem deeds_bare (o : Staffed) (turn : Turn) : o.bare.deeds turn = o.deeds turn := rfl

theorem dropDeeds_bare (o : Staffed) : o.bare.dropDeeds = o.dropDeeds := rfl

theorem answer_bare (o : Staffed) (turn : Turn) : o.bare.answer turn = o.answer turn := rfl

/-- Two outsides that answer differently. They agree on who hears of discarded entries. -/
inductive Peers : Outside (List Call) → Outside (List Call) → Prop where
  | intro (answer₁ answer₂ : List Call → List Parcel → Outcome WriteFault) (dropped : Bool)
    (failed₁ failed₂ : Option (WriteFault → List Point → Option Panic)) :
    Peers (recording answer₁ ⟨dropped, failed₁⟩) (recording answer₂ ⟨dropped, failed₂⟩)

/-- Two states that show the same. -/
structure Alike (first second : Staffed × List Call) : Prop where
  outbox : first.1.bare = second.1.bare
  calls : bareCalls first.2 = bareCalls second.2

/-- What shows of an outbox after a turn: its result, the state without the two counters, and
the calls so far without their outcomes. -/
structure Sight where
  result : Except WriteFault Unit
  outbox : Staffed
  calls : List Call

def sights (o : Staffed) (out : Outside (List Call)) (history : List Call) :
    List Turn → List Sight
  | [] => [⟨.ok (), (o.drop out history).1.bare, bareCalls (o.drop out history).2⟩]
  | turn :: turns =>
    let (result, o, history) := o.happen out history turn
    ⟨result, o.bare, bareCalls history⟩ :: o.sights out history turns

section

variable {o₁ o₂ : Staffed} {history₁ history₂ : List Call} {out₁ out₂ : Outside (List Call)}

theorem Alike.act (hout : Peers out₁ out₂) (h : Alike (o₁, history₁) (o₂, history₂))
    (deed : Deed) : Alike (o₁.act out₁ history₁ deed) (o₂.act out₂ history₂ deed) := by
  have hbox : o₁.bare = o₂.bare := h.outbox
  have hcalls : bareCalls history₁ = bareCalls history₂ := h.calls
  refine ⟨?_, ?_⟩
  · calc
      _ = (o₁.bare.act quiet () deed).1.bare := bare_act _ _ deed
      _ = (o₂.bare.act quiet () deed).1.bare := by rw [hbox]
      _ = _ := (bare_act _ _ deed).symm
  · cases hout
    rw [bareCalls_act, bareCalls_act, hcalls, told_bare, hbox]
    rfl

theorem Alike.follow (hout : Peers out₁ out₂) (h : Alike (o₁, history₁) (o₂, history₂))
    (deeds : List Deed) :
    Alike (o₁.follow out₁ history₁ deeds) (o₂.follow out₂ history₂ deeds) := by
  induction deeds generalizing o₁ o₂ history₁ history₂ with
  | nil => exact h
  | cons deed deeds ih => exact ih (h.act hout deed)

/-- The deeds of a turn are the same on both sides, as nothing they hang on is hidden. -/
theorem Alike.happen (hout : Peers out₁ out₂) (h : Alike (o₁, history₁) (o₂, history₂))
    (h₁ : o₁.InStep) (h₂ : o₂.InStep) (turn : Turn) :
    (o₁.happen out₁ history₁ turn).1 = (o₂.happen out₂ history₂ turn).1 ∧
      Alike (o₁.happen out₁ history₁ turn).2 (o₂.happen out₂ history₂ turn).2 := by
  have hbox : o₁.bare = o₂.bare := h.outbox
  have hanswer : o₁.answer turn = o₂.answer turn := by rw [← answer_bare, hbox, answer_bare]
  have hdeeds : o₁.deeds turn = o₂.deeds turn := by rw [← deeds_bare, hbox, deeds_bare]
  rw [happen_eq_follow h₁, happen_eq_follow h₂, hdeeds]
  exact ⟨hanswer, h.follow hout _⟩

theorem Alike.drop (hout : Peers out₁ out₂) (h : Alike (o₁, history₁) (o₂, history₂))
    (h₁ : o₁.InStep) (h₂ : o₂.InStep) :
    Alike (o₁.drop out₁ history₁) (o₂.drop out₂ history₂) := by
  have hbox : o₁.bare = o₂.bare := h.outbox
  have hdeeds : o₁.dropDeeds = o₂.dropDeeds := by rw [← dropDeeds_bare, hbox, dropDeeds_bare]
  rw [drop_eq_follow h₁, drop_eq_follow h₂, hdeeds]
  exact h.follow hout _

theorem Alike.sights (hout : Peers out₁ out₂) (h : Alike (o₁, history₁) (o₂, history₂))
    (h₁ : o₁.InStep) (h₂ : o₂.InStep) (turns : List Turn) :
    o₁.sights out₁ history₁ turns = o₂.sights out₂ history₂ turns := by
  induction turns generalizing o₁ o₂ history₁ history₂ with
  | nil =>
    obtain ⟨hbox, hcalls⟩ := h.drop hout h₁ h₂
    simp only [Staffed.sights, hbox, hcalls]
  | cons turn turns ih =>
    obtain ⟨hresult, hnext⟩ := h.happen hout h₁ h₂ turn
    have hrest := ih hnext (h₁.happen turn) (h₂.happen turn)
    simp only [Staffed.sights, hresult, hnext.outbox, hnext.calls, hrest]

end

/-- **Failures do not interfere.** Two outboxes of the same options take the same turns and are
dropped in the end. However their receivers end each call, and whatever their handlers of
failures do, they show the same at every turn: results, phase, door, queue, orders, the entries
taken and discarded, the number of flushes, and the calls with their parcels. -/
theorem failures_do_not_interfere {options : Options} {o : Staffed}
    (h : ofOptions options = .ok o)
    (answer₁ answer₂ : List Call → List Parcel → Outcome WriteFault) (dropped : Bool)
    (failed₁ failed₂ : Option (WriteFault → List Point → Option Panic)) (turns : List Turn) :
    o.sights (recording answer₁ ⟨dropped, failed₁⟩) [] turns =
      o.sights (recording answer₂ ⟨dropped, failed₂⟩) [] turns :=
  Alike.sights ⟨answer₁, answer₂, dropped, failed₁, failed₂⟩ ⟨rfl, rfl⟩ (ofOptions_inStep h).1
    (ofOptions_inStep h).1 turns

/-- A receiver that panics at every flush, and a handler that panics on hearing of it. -/
theorem failures_do_not_interfere_panics :
    let o : Staffed := { options := { actions := 1 }, valid := rfl }
    let put : Turn := .call (.put ⟨{ measurement := "m" }, ⟨"db", "rp"⟩⟩ .flush)
    let turns : List Turn := [.call .enable, put, .work, put, .tick, .call .disable]
    let calm := recording (fun _ _ => .done) {}
    let rough := recording (fun _ _ => .panicked .other) { failed := some fun _ _ => some .other }
    ofOptions o.options = .ok o ∧
      o.sights calm [] turns = o.sights rough [] turns ∧
      (o.live calm [] turns).1.counts.failedFlushes = 0 ∧
      (o.live rough [] turns).1.counts.failedFlushes = 4 := by
  intro o put turns calm rough
  have hstart : ofOptions o.options = .ok o := rfl
  exact ⟨hstart, failures_do_not_interfere hstart _ _ _ _ _ turns, by decide +kernel,
    by decide +kernel⟩

end Staffed
end SeriesIngest.Outbox
