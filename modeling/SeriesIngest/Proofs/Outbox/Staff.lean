import SeriesIngest.Outbox.Staffed
import SeriesIngest.Proofs.Outbox.Moves
import Mathlib.Tactic.SplitIfs

/-! What the turns of a staffed outbox consist of. Its door and its worker go by its phase; as
long as they do, a turn is a list of deeds, and the list hangs on the phase, the options, the
queue and the orders alone. -/
namespace SeriesIngest.Outbox

def Release.phase : Release → Phase
  | .flush => .armed
  | .disable => .disabled
  | .shutDown => .closed

namespace Staffed

inductive Deed where
  | move (move : Move)
  | carry
  | ask

/-- Takes on what became of the outbox. Door and worker follow the phase. -/
def follows (o : Staffed) (box : Outbox) : Staffed :=
  { o with toOutbox := box, isOpen := box.phase = .armed, hasWorker := box.phase = .armed }

def act (o : Staffed) (out : Outside σ) (s : σ) : Deed → Staffed × σ
  | .move move =>
    let (box, s) := o.toOutbox.act out s move
    ({ o with requested := o.requested && move ≠ Move.write }.follows box, s)
  | .carry => o.carryOut out s
  | .ask => (o.ask, s)

def follow (o : Staffed) (out : Outside σ) (s : σ) : List Deed → Staffed × σ
  | [] => (o, s)
  | deed :: deeds => (o.act out s deed).1.follow out (o.act out s deed).2 deeds

def parting : Release → List Deed
  | .flush => [.move .write]
  | .disable => [.move .write, .move .rest]
  | .shutDown => [.move .write, .move .shut]

def releasing (o : Staffed) (how : Release) : List Deed :=
  List.replicate o.orders .carry ++ parting how

def offering (o : Staffed) (entry : Entry) (how : Release) : List Deed :=
  if o.phase ≠ .armed then []
  else if !o.isFull then [.move (.take entry)]
  else if o.options.dropWhenFull then [.move (.discard entry)]
  else o.releasing how ++ if how = .flush then [.move (.take entry)] else []

def asking (o : Staffed) (how : Release) : List Deed :=
  if o.phase ≠ .armed then []
  else if !o.isFull then if o.options.actions ≤ o.queue.length + 1 then [.ask] else []
  else if o.options.dropWhenFull ∨ how ≠ .flush then []
  else if o.options.actions ≤ 1 then [.ask] else []

def deeds (o : Staffed) : Turn → List Deed
  | .call .enable => if o.phase = .disabled then [.move .arm] else []
  | .call .disable => if o.phase = .armed then o.releasing .disable else []
  | .call .flush => if o.phase = .armed then o.releasing .flush else []
  | .call .shutDown =>
    match o.phase with
    | .disabled => [.move .shut]
    | .armed => o.releasing .shutDown
    | .closed => []
  | .call (.put entry how) => o.offering entry how ++ o.asking how
  | .offer entry how => o.offering entry how
  | .ask => [.ask]
  | .work => if o.phase = .armed ∧ o.orders ≠ 0 then [.carry] else []
  | .tick => if o.phase = .armed then [.move .write] else []

def dropDeeds (o : Staffed) : List Deed :=
  if o.phase = .armed then .move .warn :: o.releasing .shutDown else []

def answer (o : Staffed) : Turn → Except WriteFault Unit
  | .call .enable => if o.phase = .closed then .error .closed else .ok ()
  | .call (.put _ how) | .offer _ how =>
    if o.phase ≠ .armed ∨ o.toOutbox.isBlocked ∧ how ≠ .flush then .error .closed else .ok ()
  | _ => .ok ()

/-- Door, worker and queue agree with the phase. -/
structure InStep (o : Staffed) : Prop where
  door : o.isOpen = decide (o.phase = .armed)
  staff : o.hasWorker = decide (o.phase = .armed)
  idle : o.phase ≠ .armed → o.queue = []

def Deed.fits (o : Outbox) : Deed → Prop
  | .move .arm => o.phase = .disabled
  | .move .rest => o.phase = .armed ∧ o.queue = []
  | .move .shut => o.phase ≠ .closed ∧ o.queue = []
  | .ask => True
  | _ => o.phase = .armed

def Fit (o : Staffed) (out : Outside σ) (s : σ) : List Deed → Prop
  | [] => True
  | deed :: deeds =>
    deed.fits o.toOutbox ∧ (o.act out s deed).1.Fit out (o.act out s deed).2 deeds

variable {o : Staffed} {out : Outside σ} {s : σ} {P : Staffed × σ → Prop}

@[simp] theorem toOutbox_ask : o.ask.toOutbox = o.toOutbox := by
  unfold ask
  split <;> rfl

theorem follow_append (first second : List Deed) :
    o.follow out s (first ++ second) =
      (o.follow out s first).1.follow out (o.follow out s first).2 second := by
  induction first generalizing o s with
  | nil => rfl
  | cons deed first ih => exact ih

theorem fit_append (first second : List Deed) :
    o.Fit out s (first ++ second) ↔ o.Fit out s first ∧
      (o.follow out s first).1.Fit out (o.follow out s first).2 second := by
  induction first generalizing o s with
  | nil => simp [Fit, follow]
  | cons deed first ih => simp only [List.cons_append, Fit, follow, ih, and_assoc]

def Kept (out : Outside σ) (P : Staffed × σ → Prop) : Prop :=
  ∀ o s deed, deed.fits o.toOutbox → P (o, s) → P (o.act out s deed)

theorem Kept.follow (h : Kept out P) {deeds : List Deed} (hfit : o.Fit out s deeds)
    (hP : P (o, s)) : P (o.follow out s deeds) := by
  induction deeds generalizing o s with
  | nil => exact hP
  | cons deed deeds ih => exact ih hfit.2 (h o s deed hfit.1 hP)

theorem kept_inStep (out : Outside σ) : Kept out fun state => state.1.InStep := by
  intro o s deed hfits h
  replace h : o.InStep := h
  cases deed with
  | move move =>
    have hidle := h.idle
    refine ⟨rfl, rfl, ?_⟩
    cases move <;> simp_all [Deed.fits, act, follows, Outbox.act, Outbox.discard, Outbox.accept]
  | carry =>
    exact ⟨by simp [act, carryOut, write, h.door], by simp [act, carryOut, write, h.staff],
      by simp [act, carryOut, write]⟩
  | ask =>
    dsimp only [act, ask]
    split
    · exact h
    · exact ⟨h.door, h.staff, h.idle⟩

/-- Orders leave an armed outbox as it is, but for what their flushes take along. -/
theorem fit_carry (out : Outside σ) (s : σ) (hp : o.phase = .armed) (n : Nat) :
    o.Fit out s (List.replicate n .carry) ∧
      (o.follow out s (List.replicate n .carry)).1.phase = .armed ∧
      (o.follow out s (List.replicate n .carry)).1.options = o.options := by
  induction n generalizing o s with
  | zero => exact ⟨trivial, hp, rfl⟩
  | succ n ih =>
    have hphase : (o.carryOut out s).1.phase = .armed := (phase_write _ out s).trans hp
    have hoptions : (o.carryOut out s).1.options = o.options := options_write _ out s
    obtain ⟨hfit, hlast, hsame⟩ := ih (o.carryOut out s).2 hphase
    exact ⟨⟨hp, hfit⟩, hlast, hsame.trans hoptions⟩

theorem fit_releasing (out : Outside σ) (s : σ) (hp : o.phase = .armed) (how : Release) :
    o.Fit out s (o.releasing how) ∧
      (o.follow out s (o.releasing how)).1.phase = how.phase ∧
      (o.follow out s (o.releasing how)).1.queue = [] ∧
      (o.follow out s (o.releasing how)).1.options = o.options := by
  obtain ⟨hfit, hphase, hoptions⟩ := fit_carry out s hp o.orders
  rw [releasing, fit_append, follow_append]
  cases how <;>
    simp [hfit, hphase, hoptions, parting, Fit, Deed.fits, follow, act, follows, Outbox.act,
      Release.phase]

theorem serve_eq_follow (n : Nat) :
    o.serve out s n = o.follow out s (List.replicate n .carry) := by
  induction n generalizing o s with
  | zero => rfl
  | succ n ih => exact ih

theorem finish_eq_follow (h : o.InStep) (hp : o.phase = .armed) :
    o.finish out s = o.follow out s (List.replicate o.orders .carry) := by
  rw [finish, h.staff, if_pos (decide_eq_true hp), serve_eq_follow]

theorem write_eq_act (h : o.InStep) : o.write out s = o.act out s (.move .write) := by
  simp [write, act, follows, Outbox.act, h.door, h.staff]

theorem flush_eq_follow (h : o.InStep) (hp : o.phase = .armed) :
    o.flush out s = o.follow out s (o.releasing .flush) := by
  have hafter := (kept_inStep out).follow (fit_carry out s hp o.orders).1 h
  rw [flush, if_pos hp, finish_eq_follow h hp, releasing, follow_append]
  exact write_eq_act hafter

theorem disable_eq_follow (h : o.InStep) (hp : o.phase = .armed) :
    o.disable out s = o.follow out s (o.releasing .disable) := by
  rw [disable, if_pos hp, stop, finish_eq_follow h hp, releasing, follow_append]
  simp [parting, follow, act, follows, write, Outbox.act]

theorem shutDown_eq_follow (h : o.InStep) (hp : o.phase = .armed) :
    o.shutDown out s = o.follow out s (o.releasing .shutDown) := by
  rw [shutDown, if_neg (by simp [hp]), if_pos hp, stop, finish_eq_follow h hp, releasing,
    follow_append]
  simp [parting, follow, act, follows, write, Outbox.act]

theorem release_eq_follow (h : o.InStep) (hp : o.phase = .armed) (how : Release) :
    o.release out how s = o.follow out s (o.releasing how) :=
  match how with
  | .flush => flush_eq_follow h hp
  | .disable => disable_eq_follow h hp
  | .shutDown => shutDown_eq_follow h hp

theorem act_of_phase (h : o.InStep) {move : Move} (hmove : move ≠ .write)
    (hphase : (o.toOutbox.act out s move).1.phase = o.phase) :
    o.act out s (.move move) =
      ({ o with toOutbox := (o.toOutbox.act out s move).1 }, (o.toOutbox.act out s move).2) := by
  simp [act, follows, hmove, hphase, h.door, h.staff]

theorem act_take (h : o.InStep) (entry : Entry) :
    o.act out s (.move (.take entry)) = (o.accept entry, s) :=
  act_of_phase h (by simp) rfl

theorem act_ask : o.act out s .ask = (o.ask, s) := rfl

theorem offer_eq_follow (h : o.InStep) (entry : Entry) (how : Release) :
    o.offer out entry how s =
      (if o.phase ≠ .armed ∨ o.toOutbox.isBlocked ∧ how ≠ .flush then .error .closed
        else .ok (!o.isFull || !o.options.dropWhenFull),
        o.follow out s (o.offering entry how)) := by
  unfold offer offering
  by_cases hp : o.phase = .armed
  · by_cases hf : o.isFull
    · by_cases hd : o.options.dropWhenFull
      · have hact : o.act out s (.move (.discard entry)) = _ := act_of_phase h (by simp) rfl
        simp [h.door, hp, hf, hd, follow, hact, Outbox.act, Outbox.isBlocked]
      · obtain ⟨hfit, hphase, -⟩ := fit_releasing out s hp how
        have hafter := (kept_inStep out).follow hfit h
        rw [release_eq_follow h hp]
        cases how <;>
          simp [h.door, hp, hf, hd, Outbox.isBlocked, hafter.door, hphase, Release.phase,
            follow_append, follow, act_take hafter]
    · simp [h.door, hp, hf, follow, act_take h, Outbox.isBlocked]
  · simp [h.door, hp, follow]

/-- The request comes last, and looks at the queue with the entry in it. -/
theorem put_eq_follow (h : o.InStep) (entry : Entry) (how : Release) :
    o.put out entry how s =
      (o.answer (.call (.put entry how)),
        o.follow out s (o.offering entry how ++ o.asking how)) := by
  unfold put
  rw [offer_eq_follow h, follow_append]
  unfold answer offering asking
  by_cases hp : o.phase = .armed
  · by_cases hf : o.isFull
    · by_cases hd : o.options.dropWhenFull
      · simp [hp, hf, hd, Outbox.isBlocked, follow]
      · obtain ⟨hfit, -, hqueue, hoptions⟩ := fit_releasing out s hp how
        have hafter := (kept_inStep out).follow hfit h
        cases how with
        | flush =>
          by_cases ha : o.options.actions ≤ 1 <;>
            simp [hp, hf, hd, follow_append, follow, act_take hafter, accept, Outbox.accept,
              hqueue, hoptions, ha, act_ask]
        | disable => simp [hp, hf, hd, Outbox.isBlocked, follow]
        | shutDown => simp [hp, hf, hd, Outbox.isBlocked, follow]
    · by_cases ha : o.options.actions ≤ o.queue.length + 1 <;>
        simp [hp, hf, Outbox.isBlocked, follow, act_take h, accept, Outbox.accept, ha, act_ask]
  · simp [hp, follow]

theorem happen_eq_follow (h : o.InStep) (turn : Turn) :
    o.happen out s turn = (o.answer turn, o.follow out s (o.deeds turn)) := by
  cases turn with
  | call step =>
    cases step with
    | enable =>
      simp only [happen, perform, enable, answer, deeds]
      cases hp : o.phase <;> simp [follow, act, follows, Outbox.act]
    | disable =>
      by_cases hp : o.phase = .armed
      · simp [happen, perform, answer, deeds, hp, disable_eq_follow h hp]
      · simp [happen, perform, answer, deeds, hp, disable, follow]
    | flush =>
      by_cases hp : o.phase = .armed
      · simp [happen, perform, answer, deeds, hp, flush_eq_follow h hp]
      · simp [happen, perform, answer, deeds, hp, flush, follow]
    | shutDown =>
      simp only [happen, perform, answer, deeds]
      cases hp : o.phase with
      | armed => simp [shutDown_eq_follow h hp]
      | disabled => simp [shutDown, hp, follow, act, follows, Outbox.act, h.door, h.staff]
      | closed => simp [shutDown, hp, follow]
    | put entry how => exact put_eq_follow h entry how
  | offer entry how =>
    simp only [happen, offer_eq_follow h, answer, deeds]
    split <;> rfl
  | ask => rfl
  | work =>
    simp only [happen, answer, deeds, h.staff]
    by_cases hp : o.phase = .armed ∧ o.orders ≠ 0
    · simp [hp, follow, act]
    · rw [if_neg hp, if_neg (by simpa using hp), follow]
  | tick =>
    simp only [happen, answer, deeds, h.staff]
    split <;> simp_all [follow, write_eq_act]

theorem drop_eq_follow (h : o.InStep) : o.drop out s = o.follow out s o.dropDeeds := by
  unfold drop dropDeeds
  split
  next hp =>
    have hact : o.act out s (.move .warn) = _ := act_of_phase h (by simp) rfl
    rw [shutDown_eq_follow h hp, follow, hact]
    rfl
  next => rfl

theorem fit_if {c : Prop} [Decidable c] {deeds : List Deed} (h : c → o.Fit out s deeds) :
    o.Fit out s (if c then deeds else []) := by
  split
  next hc => exact h hc
  next => trivial

theorem fit_offering (entry : Entry) (how : Release) : o.Fit out s (o.offering entry how) := by
  unfold offering
  by_cases hp : o.phase = .armed
  · by_cases hf : o.isFull
    · by_cases hd : o.options.dropWhenFull
      · simp [hp, hf, hd, Fit, Deed.fits]
      · obtain ⟨hfit, hphase, -⟩ := fit_releasing out s hp how
        simp only [hp, hf, hd, ne_eq, not_true, if_false, Bool.not_true, Bool.false_eq_true]
        rw [fit_append]
        exact ⟨hfit, fit_if fun hhow => ⟨hphase.trans (by rw [hhow]; rfl), trivial⟩⟩
    · simp [hp, hf, Fit, Deed.fits]
  · simp [hp, Fit]

theorem fit_deeds (h : o.InStep) (turn : Turn) : o.Fit out s (o.deeds turn) := by
  cases turn with
  | call step =>
    cases step with
    | enable => exact fit_if fun hp => ⟨hp, trivial⟩
    | disable => exact fit_if fun hp => (fit_releasing _ _ hp .disable).1
    | flush => exact fit_if fun hp => (fit_releasing _ _ hp .flush).1
    | shutDown =>
      unfold deeds
      cases hp : o.phase with
      | disabled => exact ⟨⟨by simp [hp], h.idle (by simp [hp])⟩, trivial⟩
      | armed => exact (fit_releasing _ _ hp .shutDown).1
      | closed => trivial
    | put entry how =>
      refine (fit_append _ _).mpr ⟨fit_offering entry how, ?_⟩
      unfold asking
      split_ifs <;> simp [Fit, Deed.fits]
  | offer entry how => exact fit_offering entry how
  | ask => exact ⟨trivial, trivial⟩
  | work => exact fit_if fun hp => ⟨hp.1, trivial⟩
  | tick => exact fit_if fun hp => ⟨hp, trivial⟩

theorem fit_dropDeeds (h : o.InStep) : o.Fit out s o.dropDeeds := by
  refine fit_if fun hp => ⟨hp, ?_⟩
  rw [act_of_phase h (by simp) rfl]
  exact (fit_releasing _ _ hp .shutDown).1

theorem Kept.happen (h : Kept out P) (hstep : o.InStep) (hP : P (o, s)) (turn : Turn) :
    P (o.happen out s turn).2 := by
  rw [happen_eq_follow hstep]
  exact h.follow (fit_deeds hstep turn) hP

theorem InStep.happen (h : o.InStep) (turn : Turn) : (o.happen out s turn).2.1.InStep :=
  (kept_inStep out).happen h h turn

theorem InStep.live (h : o.InStep) (turns : List Turn) : (o.live out s turns).1.InStep := by
  induction turns generalizing o s with
  | nil => exact h
  | cons turn turns ih => exact ih (h.happen turn)

theorem Kept.live (h : Kept out P) (hstep : o.InStep) (hP : P (o, s)) (turns : List Turn) :
    P (o.live out s turns) := by
  induction turns generalizing o s with
  | nil => exact hP
  | cons turn turns ih =>
    exact ih (hstep.happen turn) (h.happen hstep hP turn)

theorem ofOptions_inStep {options : Options} (h : ofOptions options = .ok o) :
    o.InStep ∧ o.phase = .disabled := by
  unfold ofOptions Outbox.ofOptions at h
  split at h
  · cases h
  · cases h
    exact ⟨⟨rfl, rfl, fun _ => rfl⟩, rfl⟩

end Staffed
end SeriesIngest.Outbox
