import SeriesIngest.Proofs.Outbox.Interference

/-! The life of an outbox: when it takes entries, what it leaves behind when it rests, and that
its receiver is closed once and for good. -/
namespace SeriesIngest.Outbox

def Call.parcels? : Call → Option (List Parcel)
  | .sent parcels _ => some parcels
  | _ => none

def sends (history : List Call) : List (List Parcel) :=
  history.filterMap Call.parcels?

theorem sends_bareCalls (history : List Call) : sends (bareCalls history) = sends history := by
  unfold sends bareCalls
  rw [List.filterMap_filterMap]
  congr 1
  funext call
  rcases call with ⟨_, _⟩ | _ | ⟨_ | _ | _⟩ <;> rfl

theorem closed_mem_bareCalls (history : List Call) :
    .closed ∈ bareCalls history ↔ .closed ∈ history := by
  unfold bareCalls
  rw [List.mem_filterMap]
  constructor
  · rintro ⟨call, hmem, hcall⟩
    rcases call with ⟨_, _⟩ | _ | ⟨_ | _ | _⟩
    all_goals first | exact hmem | simp [Call.bare?] at hcall
  · intro hmem
    exact ⟨.closed, hmem, rfl⟩

/-- The receiver was closed if `closed` holds and only then: once, and with nothing after it but
a notice. -/
structure ClosedIff (closed : Prop) (history : List Call) : Prop where
  never : ¬closed → .closed ∉ history
  last : closed →
    ∃ before, .closed ∉ before ∧ history = before ++ [.closed, .heard (.noted .shutDown)]

theorem ClosedIff.of_iff {p q : Prop} {history : List Call} (h : ClosedIff p history)
    (hpq : p ↔ q) : ClosedIff q history :=
  propext hpq ▸ h

namespace Staffed

/-- The entries that the worker still flushes on its orders. -/
def owed (queue : List Entry) : Nat → List (List Entry)
  | 0 => []
  | n + 1 => queue :: List.replicate n []

def left (queue : List Entry) : Nat → List Entry
  | 0 => queue
  | _ + 1 => []

def Turn.waits (o : Staffed) : Turn → Bool
  | .call (.put ..) => o.isBlocked
  | .offer .. => o.isBlocked
  | _ => false

def flows (o : Staffed) (out : Outside σ) (s : σ) : List Turn → Bool
  | [] => true
  | turn :: turns =>
    !turn.waits o &&
      (o.happen out s turn).2.1.flows out (o.happen out s turn).2.2 turns

theorem owed_nil (n : Nat) : owed [] n = List.replicate n [] := by
  cases n <;> rfl

theorem left_nil (n : Nat) : left [] n = [] := by
  cases n <;> rfl

section

variable (answer : List Call → List Parcel → Outcome WriteFault) (handlers : Handlers)
  (o : Staffed) (history : List Call)

theorem sends_act (deed : Deed) :
    sends (o.act (recording answer handlers) history deed).2 =
      sends history ++ sends (deed.told o handlers) := by
  rw [← sends_bareCalls, bareCalls_act, ← sends_bareCalls history]
  exact List.filterMap_append

theorem sends_carry (n : Nat) :
    let after := o.follow (recording answer handlers) history (List.replicate n .carry)
    sends after.2 = sends history ++ (owed o.queue n).map (fun queue => (Entry.pack queue).1) ∧
      after.1.queue = left o.queue n := by
  induction n generalizing o history with
  | zero => simp [follow, owed, left]
  | succ n ih =>
    have hqueue : (o.act (recording answer handlers) history .carry).1.queue = [] :=
      queue_write o.toOutbox (recording answer handlers) history
    have hsends : sends (o.act (recording answer handlers) history .carry).2 =
        sends history ++ [(Entry.pack o.queue).1] := sends_act ..
    obtain ⟨hrest, hlast⟩ := ih (o.act (recording answer handlers) history .carry).1
      (o.act (recording answer handlers) history .carry).2
    rw [hqueue, owed_nil, hsends] at hrest
    rw [hqueue, left_nil] at hlast
    exact ⟨hrest.trans (by simp [owed]), hlast⟩

/-- The worker sends what it owes, and then comes one more call with all that is left. -/
theorem sends_releasing (how : Release) :
    sends (o.follow (recording answer handlers) history (o.releasing how)).2 =
      sends history ++ (owed o.queue o.orders).map (fun queue => (Entry.pack queue).1) ++
        [(Entry.pack (left o.queue o.orders)).1] := by
  obtain ⟨hsends, hqueue⟩ := sends_carry answer handlers o history o.orders
  rw [releasing, follow_append, ← hsends, ← hqueue]
  cases how <;> simp only [parting, follow, sends_act]
  · rfl
  · exact List.append_nil _
  · exact List.append_nil _

end

variable {o : Staffed} {out : Outside σ} {s : σ}

theorem phase_act (deed : Deed) :
    (o.act out s deed).1.phase =
      match deed with
      | .move .arm => .armed
      | .move .rest => .disabled
      | .move .shut => .closed
      | _ => o.phase := by
  cases deed with
  | move m => cases m <;> simp [act, follows, Outbox.act, Outbox.discard, Outbox.accept]
  | carry => exact phase_write o.toOutbox out s
  | ask => simp [act]

theorem InStep.isBlocked (h : o.InStep) : o.isBlocked = o.toOutbox.isBlocked := by
  simp [Staffed.isBlocked, Outbox.isBlocked, h.door]

theorem phase_put (h : o.InStep) (hwaits : o.isBlocked = false) (entry : Entry) (how : Release) :
    (o.follow out s (o.offering entry how)).1.phase = o.phase ∧
      (o.follow out s (o.offering entry how ++ o.asking how)).1.phase = o.phase := by
  rw [h.isBlocked] at hwaits
  unfold offering asking
  by_cases hp : o.phase = .armed
  · by_cases hf : o.isFull
    · have hd : o.options.dropWhenFull := by simpa [Outbox.isBlocked, hp, hf] using hwaits
      simp [hp, hf, hd, follow, phase_act]
    · by_cases ha : o.options.actions ≤ o.queue.length + 1 <;> simp [hp, hf, ha, follow, phase_act]
  · simp [hp, follow]

theorem closed_happen (h : o.InStep) {turn : Turn} (hwaits : turn.waits o = false) :
    (o.happen out s turn).2.1.phase = .closed ↔ o.phase = .closed ∨ turn = .call .shutDown := by
  rw [happen_eq_follow h]
  dsimp only
  cases turn with
  | call step =>
    cases step with
    | enable =>
      by_cases hp : o.phase = .disabled <;> simp [deeds, hp, follow, phase_act]
    | disable =>
      by_cases hp : o.phase = .armed
      · simp [deeds, hp, (fit_releasing out s hp .disable).2.1, Release.phase]
      · simp [deeds, hp, follow]
    | flush =>
      by_cases hp : o.phase = .armed
      · simp [deeds, hp, (fit_releasing out s hp .flush).2.1, Release.phase]
      · simp [deeds, hp, follow]
    | shutDown =>
      cases hp : o.phase with
      | armed => simp [deeds, hp, (fit_releasing out s hp .shutDown).2.1, Release.phase]
      | disabled => simp [deeds, hp, follow, phase_act]
      | closed => simp [deeds, hp, follow]
    | put entry how => simp [deeds, (phase_put h hwaits entry how).2]
  | offer entry how => simp [deeds, (phase_put h hwaits entry how).1]
  | ask => simp [deeds, follow, phase_act]
  | work =>
    by_cases hp : o.phase = .armed ∧ o.orders ≠ 0 <;> simp [deeds, hp, follow, phase_act]
  | tick => by_cases hp : o.phase = .armed <;> simp [deeds, hp, follow, phase_act]

theorem closed_live (h : o.InStep) {turns : List Turn} (hflows : o.flows out s turns) :
    (o.live out s turns).1.phase = .closed ↔ o.phase = .closed ∨ .call .shutDown ∈ turns := by
  induction turns generalizing o s with
  | nil => simp [live]
  | cons turn turns ih =>
    simp only [flows, Bool.and_eq_true, Bool.not_eq_true'] at hflows
    have hrest := ih (h.happen turn) hflows.2
    refine hrest.trans ?_
    rw [closed_happen h hflows.1, List.mem_cons, or_assoc, eq_comm (a := turn)]

theorem live_closed (h : o.InStep) (hp : o.phase = .closed) (turns : List Turn) :
    (o.live out s turns).1.phase = .closed ∧ (o.live out s turns).2 = s := by
  induction turns generalizing o s with
  | nil => exact ⟨hp, rfl⟩
  | cons turn turns ih =>
    have hturn : (o.happen out s turn).2.1.phase = .closed ∧ (o.happen out s turn).2.2 = s := by
      rw [happen_eq_follow h]
      rcases turn with (_ | _ | _ | _ | _) | _ | _ | _ | _ <;>
        simp [deeds, offering, asking, hp, follow, act]
    obtain ⟨hclosed, hsame⟩ := ih (h.happen turn) hturn.1
    exact ⟨hclosed, hsame.trans hturn.2⟩

theorem closed_told {handlers : Handlers} {deed : Deed} (hshut : deed ≠ .move .shut) :
    .closed ∉ deed.told o handlers := by
  cases deed with
  | move m => cases m <;> simp_all [Deed.told, Move.told]
  | carry => simp [Deed.told, Move.told]
  | ask => simp [Deed.told]

theorem ClosedIff.act {answer : List Call → List Parcel → Outcome WriteFault}
    {handlers : Handlers} {history : List Call} (hp : o.phase ≠ .closed)
    (h : .closed ∉ history) (deed : Deed) :
    ClosedIff ((o.act (recording answer handlers) history deed).1.phase = .closed)
      (o.act (recording answer handlers) history deed).2 := by
  by_cases hshut : deed = .move .shut
  · subst hshut
    refine ⟨fun hphase => absurd (phase_act _) hphase, fun _ => ⟨history, h, ?_⟩⟩
    simp [Staffed.act, Outbox.act, recording, Listener.recording]
  · have hphase : (o.act (recording answer handlers) history deed).1.phase ≠ .closed := by
      rw [phase_act]
      split <;> simp_all
    refine ⟨fun _ => ?_, fun hclosed => absurd hclosed hphase⟩
    rw [← closed_mem_bareCalls, bareCalls_act, List.mem_append, closed_mem_bareCalls, not_or]
    exact ⟨h, closed_told hshut⟩

theorem kept_closedIff (answer : List Call → List Parcel → Outcome WriteFault)
    (handlers : Handlers) :
    Kept (recording answer handlers) fun state =>
      ClosedIff (state.1.phase = .closed) state.2 := by
  intro o history deed hfits h
  by_cases hp : o.phase = .closed
  · have hask : deed = .ask := by
      cases deed with
      | move m => cases m <;> simp_all [Deed.fits]
      | carry => simp_all [Deed.fits]
      | ask => rfl
    subst hask
    exact h.of_iff (by simp [act])
  · exact ClosedIff.act hp (h.never hp) deed

theorem put_ok_iff (h : o.InStep) (hwaits : o.isBlocked = false) (entry : Entry)
    (how : Release) : (o.put out entry how s).1 = .ok () ↔ o.phase = .armed := by
  rw [put_eq_follow h, answer, ← h.isBlocked, hwaits]
  by_cases hp : o.phase = .armed <;> simp [hp]

theorem put_refused (h : o.InStep) (hp : o.phase ≠ .armed) (entry : Entry) (how : Release) :
    o.put out entry how s = (.error .closed, o, s) := by
  simp [put, offer, h.door, hp]

theorem closed_drop : (o.drop out s).1.phase = .closed ↔ o.phase = .closed ∨ o.phase = .armed := by
  by_cases hp : o.phase = .armed <;> simp [drop, shutDown, hp]

/-- How an armed outbox comes to rest: its worker sends what it owes, and then one call takes
all that is left. With no order outstanding that is one call, with the whole queue. -/
structure Emptied (o : Staffed) (history : List Call) (after : Staffed × List Call) : Prop where
  queue : after.1.queue = []
  sends : sends after.2 =
    sends history ++ (owed o.queue o.orders).map (fun queue => (Entry.pack queue).1) ++
      [(Entry.pack (left o.queue o.orders)).1]

theorem emptied (h : o.InStep) (hp : o.phase = .armed)
    (answer : List Call → List Parcel → Outcome WriteFault) (handlers : Handlers)
    (history : List Call) :
    let out := recording answer handlers
    ∀ after ∈ [o.disable out history, o.shutDown out history, o.drop out history],
      o.Emptied history after := by
  intro out after hafter
  have hwarned : Outbox.sends (out.note .droppedWhileArmed history) = Outbox.sends history := by
    simp [out, recording, Listener.recording, Outbox.sends, Call.parcels?]
  simp only [drop, if_pos hp, shutDown_eq_follow h hp, disable_eq_follow h hp, List.mem_cons,
    List.not_mem_nil, or_false] at hafter
  have hqueue (how : Release) (before : List Call) :=
    (fit_releasing out before hp how).2.2.1
  rcases hafter with rfl | rfl | rfl
  · exact ⟨hqueue .disable history, sends_releasing ..⟩
  · exact ⟨hqueue .shutDown history, sends_releasing ..⟩
  · exact ⟨hqueue .shutDown _, by rw [sends_releasing, hwarned]⟩

/-- What holds of an outbox at any time, `turns` being all that happened to it so far. -/
structure Lifecycle (out : Outside (List Call)) (turns : List Turn) (o : Staffed)
    (history : List Call) : Prop where
  idle : o.phase ≠ .armed → o.isOpen = false ∧ o.queue = []
  put_ok : o.isBlocked = false →
    ∀ entry how, (o.put out entry how history).1 = .ok () ↔ o.phase = .armed
  put_refused : o.phase ≠ .armed →
    ∀ entry how, o.put out entry how history = (.error .closed, o, history)
  last_flush : o.phase = .armed →
    ∀ after ∈ [o.disable out history, o.shutDown out history, o.drop out history],
      o.Emptied history after
  close_so_far : ClosedIff (.call .shutDown ∈ turns) history
  close_in_the_end :
    ClosedIff (.call .shutDown ∈ turns ∨ o.phase = .armed) (o.drop out history).2
  stays_closed : o.phase = .closed →
    ∀ more, (o.live out history more).1.phase = .closed ∧ (o.live out history more).2 = history

/-- **Lifecycle.** Through any turns in which no put has to wait, and however its flushes end, an
outbox that is not armed has its door shut and nothing in its queue, and refuses entries without
a trace. Whatever ends the armed phase empties the queue. The receiver is closed once, by
shutting down or by dropping an armed outbox, and nothing reaches anyone afterwards. -/
theorem lifecycle {options : Options} {o : Staffed} (h : ofOptions options = .ok o)
    (answer : List Call → List Parcel → Outcome WriteFault) (handlers : Handlers)
    (turns : List Turn) (hflows : o.flows (recording answer handlers) [] turns) :
    let out := recording answer handlers
    Lifecycle out turns (o.live out [] turns).1 (o.live out [] turns).2 := by
  intro out
  obtain ⟨hstart, hphase⟩ := ofOptions_inStep h
  have hnone : ClosedIff (o.phase = .closed) [] := ⟨by simp, by simp [hphase]⟩
  have hstep : (o.live out [] turns).1.InStep := hstart.live turns
  have hkept := (kept_closedIff answer handlers).live hstart hnone turns
  have hclosed : (o.live out [] turns).1.phase = .closed ↔ .call .shutDown ∈ turns := by
    simpa [hphase] using closed_live hstart hflows
  generalize o.live out [] turns = state at hstep hkept hclosed
  obtain ⟨now, history⟩ := state
  constructor
  case idle => exact fun hp => ⟨by simpa [hp] using hstep.door, hstep.idle hp⟩
  case put_ok => exact put_ok_iff hstep
  case put_refused => exact put_refused hstep
  case last_flush => exact fun hp => emptied hstep hp answer handlers history
  case close_so_far => exact hkept.of_iff hclosed
  case close_in_the_end =>
    have hdrop := (kept_closedIff answer handlers).follow (fit_dropDeeds hstep) hkept
    rw [← drop_eq_follow hstep] at hdrop
    exact hdrop.of_iff (closed_drop.trans (or_congr_left hclosed))
  case stays_closed => exact live_closed hstep

/-- Two armed phases and three refused puts. All flushes fail. -/
theorem lifecycle_armed_twice :
    let o : Staffed := { options := { actions := 2 }, valid := rfl }
    let put : Turn := .call (.put ⟨{ measurement := "m" }, ⟨"db", "rp"⟩⟩ .flush)
    let turns : List Turn :=
      [put, .call .enable, put, put, .call .disable, put, .tick, put, .call .enable, put]
    let out := recording (fun _ _ => .failed (.delivery .timeout)) { dropped := true }
    let state := o.live out [] turns
    ofOptions o.options = .ok o ∧ o.flows out [] turns ∧ Lifecycle out turns state.1 state.2 ∧
      (sends (state.1.drop out state.2).2).map (·.map (·.2.length)) = [[2], [], [1]] := by
  intro o put turns out state
  have hstart : ofOptions o.options = .ok o := rfl
  have hflows : o.flows out [] turns := by decide +kernel
  exact ⟨hstart, hflows, lifecycle hstart _ _ turns hflows, by decide +kernel⟩

end Staffed
end SeriesIngest.Outbox
