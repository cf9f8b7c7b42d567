import SeriesIngest.Proofs.Outbox.Events
import SeriesIngest.Proofs.Outbox.Staff

/-! When its worker is prompt, a staffed outbox is no more than an outbox. The flush that a put
asks for then comes right after it, which is where an outbox makes it itself. -/
namespace SeriesIngest.Outbox

theorem follow_append (o : Outbox) (out : Outside σ) (s : σ) (first second : List Move) :
    o.follow out s (first ++ second) =
      (o.follow out s first).1.follow out (o.follow out s first).2 second := by
  induction first generalizing o s with
  | nil => rfl
  | cons move first ih => exact ih _ _

namespace Staffed

def ofOutbox (box : Outbox) : Staffed where
  toOutbox := box
  isOpen := box.phase = .armed
  hasWorker := box.phase = .armed

def prompt (steps : List Step) : List Turn :=
  steps.flatMap fun step => [.call step, .work]

variable {box : Outbox} {out : Outside σ} {s : σ}

theorem follow_ofOutbox (moves : List Move) :
    (ofOutbox box).follow out s (moves.map .move) =
      (ofOutbox (box.follow out s moves).1, (box.follow out s moves).2) := by
  induction moves generalizing box s with
  | nil => rfl
  | cons move moves ih => exact ih

theorem work_ofOutbox : ((ofOutbox box).happen out s .work).2 = (ofOutbox box, s) := by
  simp [happen, ofOutbox]

theorem work_ask (hp : box.phase = .armed) :
    ((ofOutbox box).ask.happen out s .work).2 =
      (ofOutbox (box.write out s).1, (box.write out s).2) := by
  simp [happen, ofOutbox, ask, carryOut, write, hp]

theorem inStep_ofOutbox (hidle : box.phase ≠ .armed → box.queue = []) :
    (ofOutbox box).InStep :=
  ⟨rfl, rfl, hidle⟩

theorem answer_ofOutbox (step : Step) :
    (ofOutbox box).answer (.call step) = (box.perform out s step).1 := by
  cases step with
  | enable =>
    cases hp : box.phase <;> simp [answer, ofOutbox, Outbox.perform, Outbox.enable, hp]
  | put entry how =>
    simp only [answer, ofOutbox, Outbox.perform, Outbox.put, Outbox.isBlocked]
    by_cases hp : box.phase = .armed
    · by_cases hf : box.isFull
      · by_cases hd : box.options.dropWhenFull
        · simp [hp, hf, hd]
        · cases how <;>
            simp [hp, hf, hd, Outbox.release, Outbox.flush, Outbox.disable, Outbox.shutDown]
      · simp [hp, hf]
    · simp [hp]
  | _ => rfl

theorem offering_ofOutbox (entry : Entry) (how : Release) :
    (ofOutbox box).offering entry how = (box.admission entry how).map .move := by
  simp only [offering, admission, ofOutbox]
  by_cases hp : box.phase = .armed
  · by_cases hf : box.isFull
    · by_cases hd : box.options.dropWhenFull
      · simp [hp, hf, hd]
      · cases how <;> simp [hp, hf, hd, releasing, parting]
    · simp [hp, hf]
  · simp [hp]

theorem asking_ofOutbox (out : Outside σ) (s : σ) (entry : Entry) (how : Release) :
    (ofOutbox box).asking how = [] ∧ box.trigger how = [] ∨
      (ofOutbox box).asking how = [.ask] ∧ box.trigger how = [.write] ∧
        (box.follow out s (box.admission entry how)).1.phase = .armed := by
  simp only [asking, trigger, admission, ofOutbox]
  by_cases hp : box.phase = .armed
  · by_cases hf : box.isFull
    · by_cases hd : box.options.dropWhenFull
      · simp [hp, hf, hd]
      · cases how <;> by_cases ha : box.options.actions ≤ 1 <;>
          simp [hp, hf, hd, ha, Outbox.follow, Outbox.act, Outbox.accept]
    · by_cases ha : box.options.actions ≤ box.queue.length + 1 <;>
        simp [hp, hf, ha, Outbox.follow, Outbox.act, Outbox.accept]
  · simp [hp]

theorem deeds_ofOutbox {step : Step} (hput : ∀ entry how, step ≠ .put entry how) :
    (ofOutbox box).deeds (.call step) = (box.moves step).map .move := by
  cases step with
  | put entry how => exact absurd rfl (hput entry how)
  | enable => by_cases hp : box.phase = .disabled <;> simp [deeds, moves, ofOutbox, hp]
  | shutDown => cases hp : box.phase <;> simp [deeds, moves, ofOutbox, releasing, parting, hp]
  | _ => by_cases hp : box.phase = .armed <;> simp [deeds, moves, ofOutbox, releasing, parting, hp]

theorem result_ofOutbox (hidle : box.phase ≠ .armed → box.queue = []) (step : Step) :
    ((ofOutbox box).happen out s (.call step)).1 = (box.perform out s step).1 := by
  rw [happen_eq_follow (inStep_ofOutbox hidle)]
  exact answer_ofOutbox step

theorem live_step (out : Outside σ) (s : σ) (hidle : box.phase ≠ .armed → box.queue = [])
    (step : Step) :
    (ofOutbox box).live out s [.call step, .work] =
      (ofOutbox (box.perform out s step).2.1, (box.perform out s step).2.2) := by
  rw [live, happen_eq_follow (inStep_ofOutbox hidle), Outbox.perform_eq_follow]
  cases step with
  | put entry how =>
    simp only [deeds, moves, offering_ofOutbox, follow_append, follow_ofOutbox,
      Outbox.follow_append]
    rcases asking_ofOutbox out s entry how with ⟨hask, htrigger⟩ | ⟨hask, htrigger, hp⟩
    · rw [hask, htrigger]
      exact work_ofOutbox
    · rw [hask, htrigger]
      exact work_ask hp
  | _ =>
    rw [deeds_ofOutbox (by simp), follow_ofOutbox]
    exact work_ofOutbox

theorem live_append (o : Staffed) (out : Outside σ) (s : σ) (first second : List Turn) :
    o.live out s (first ++ second) =
      (o.live out s first).1.live out (o.live out s first).2 second := by
  induction first generalizing o s with
  | nil => rfl
  | cons turn first ih => exact ih _ _

theorem live_prompt (hidle : box.phase ≠ .armed → box.queue = []) (steps : List Step) :
    (ofOutbox box).live out s (prompt steps) =
      (ofOutbox (box.run out s steps).2.1, (box.run out s steps).2.2) := by
  induction steps generalizing box s with
  | nil => rfl
  | cons step steps ih =>
    have hstep : ((ofOutbox box).live out s [.call step, .work]).1.InStep :=
      (inStep_ofOutbox hidle).live _
    rw [live_step out s hidle] at hstep
    calc
      _ = (ofOutbox box).live out s ([.call step, .work] ++ prompt steps) := rfl
      _ = _ := by
        rw [live_append, live_step out s hidle]
        exact ih hstep.idle

/-- A staffed outbox whose worker is prompt lives the life of the plain one. -/
theorem run_prompt {options : Options} (h : Outbox.ofOptions options = .ok box)
    (out : Outside σ) (s : σ) (steps : List Step) :
    (ofOptions options).map (·.live out s (prompt steps)) =
      .ok (ofOutbox (box.run out s steps).2.1, (box.run out s steps).2.2) := by
  obtain ⟨hphase, hqueue, -⟩ := ofOptions_ok h
  have hstart : ofOptions options = .ok (ofOutbox box) := by
    simp [ofOptions, h, ofOutbox, hphase, Except.map]
  rw [hstart, Except.map, live_prompt fun _ => hqueue]

end Staffed
end SeriesIngest.Outbox
