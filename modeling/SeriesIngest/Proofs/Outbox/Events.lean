import SeriesIngest.Proofs.Outbox.Moves
import Mathlib.Tactic.SplitIfs

/-! What becomes of the entries put into an outbox over time, and how a property that each move
keeps is kept by a whole run. -/
namespace SeriesIngest.Outbox

theorem live_steps (o : Outbox) (out : Outside σ) (s : σ) (steps : List Step) :
    o.live out s (steps.map .step) = (o.run out s steps).2 := by
  induction steps generalizing o s with
  | nil => rfl
  | cons step steps ih => exact ih _ _

theorem withFate_append (fate : Fate) (fates more : List (Entry × Fate)) :
    withFate fate (fates ++ more) = withFate fate fates ++ withFate fate more := by
  rw [withFate, List.filter_append, List.map_append]
  rfl

def Move.taken? : Move → Option Entry
  | .take entry => some entry
  | _ => none

def Move.discarded? : Move → Option Entry
  | .discard entry => some entry
  | _ => none

/-- A property of a state and of the entries taken and discarded on the way to it, which holds
after a move if it held before. -/
def Keeps (out : Outside σ) (P : List Entry → List Entry → Outbox × σ → Prop) : Prop :=
  ∀ taken discarded o s move, P taken discarded (o, s) →
    P (taken ++ move.taken?.toList) (discarded ++ move.discarded?.toList) (o.act out s move)

variable {out : Outside σ} {P : List Entry → List Entry → Outbox × σ → Prop}
  {taken discarded : List Entry} {o : Outbox} {s : σ}

theorem Keeps.follow (h : Keeps out P) (moves : List Move) (hP : P taken discarded (o, s)) :
    P (taken ++ moves.filterMap Move.taken?) (discarded ++ moves.filterMap Move.discarded?)
      (o.follow out s moves) := by
  induction moves generalizing o s taken discarded with
  | nil => simpa [Outbox.follow] using hP
  | cons move moves ih =>
    have hmove := ih (h _ _ _ _ move hP)
    have split (f : Move → Option Entry) :
        (move :: moves).filterMap f = (f move).toList ++ moves.filterMap f := by
      cases hf : f move <;> simp [hf]
    rw [split, split, ← List.append_assoc, ← List.append_assoc]
    exact hmove

theorem admission_fate (out : Outside σ) (s : σ) (entry : Entry) (how : Release) :
    (o.admission entry how).filterMap Move.taken? =
        withFate .taken [(entry, o.fate (o.put out entry how s).1)] ∧
      (o.admission entry how).filterMap Move.discarded? =
        withFate .discarded [(entry, o.fate (o.put out entry how s).1)] := by
  unfold admission put
  by_cases hp : o.phase = .armed
  · by_cases hf : o.isFull
    · by_cases hd : o.options.dropWhenFull
      · simp [hp, hf, hd, fate, withFate, Move.taken?, Move.discarded?]
      · cases how with
        | flush =>
          simp [hp, hf, hd, fate, withFate, release, flush, List.filterMap_cons, Move.taken?,
            Move.discarded?]
        | disable =>
          simp [hp, hf, hd, fate, withFate, release, disable, List.filterMap_cons, Move.taken?,
            Move.discarded?]
        | shutDown =>
          simp [hp, hf, hd, fate, withFate, release, shutDown, List.filterMap_cons, Move.taken?,
            Move.discarded?]
    · simp [hp, hf, fate, withFate, Move.taken?, Move.discarded?]
  · simp [hp, fate, withFate]

theorem filterMap_trigger (how : Release) (f : Move → Option Entry) (h : f .write = none) :
    (o.trigger how).filterMap f = [] := by
  unfold trigger
  split_ifs <;> simp [h]

def Event.moves (o : Outbox) : Event → List Move
  | .step operation => o.moves operation
  | .putAhead entry how => o.admission entry how
  | .drop => o.dropMoves

theorem happen_eq_follow (out : Outside σ) (s : σ) (event : Event) :
    (o.happen out s event).2 = o.follow out s (event.moves o) := by
  cases event with
  | step step => exact o.perform_eq_follow out s step
  | putAhead entry how => rfl
  | drop => exact o.drop_eq_follow out s

@[simp] theorem options_happen (o : Outbox) (out : Outside σ) (s : σ) (event : Event) :
    (o.happen out s event).2.1.options = o.options := by
  rw [happen_eq_follow]
  exact o.options_follow out s _

theorem options_live (o : Outbox) (out : Outside σ) (s : σ) (events : List Event) :
    (o.live out s events).1.options = o.options := by
  induction events generalizing o s with
  | nil => rfl
  | cons event events ih => exact (ih _ _).trans (o.options_happen out s event)

theorem Event.moves_fate (out : Outside σ) (s : σ) (event : Event) :
    let fates := (event.entry?.map (·, o.fate (o.happen out s event).1)).toList
    (event.moves o).filterMap Move.taken? = withFate .taken fates ∧
      (event.moves o).filterMap Move.discarded? = withFate .discarded fates := by
  cases event with
  | putAhead entry how => exact admission_fate out s entry how
  | drop =>
    simp only [Event.moves, dropMoves]
    split_ifs <;> exact ⟨rfl, rfl⟩
  | step step =>
    cases step with
    | put entry how =>
      simp only [Event.moves, Outbox.moves, List.filterMap_append]
      rw [filterMap_trigger how _ rfl, filterMap_trigger how _ rfl, List.append_nil,
        List.append_nil]
      exact admission_fate out s entry how
    | enable =>
      simp only [Event.moves, Outbox.moves]
      split_ifs <;> exact ⟨rfl, rfl⟩
    | disable =>
      simp only [Event.moves, Outbox.moves]
      split_ifs <;> exact ⟨rfl, rfl⟩
    | flush =>
      simp only [Event.moves, Outbox.moves]
      split_ifs <;> exact ⟨rfl, rfl⟩
    | shutDown =>
      simp only [Event.moves, Outbox.moves]
      cases o.phase <;> exact ⟨rfl, rfl⟩

theorem Keeps.live (h : Keeps out P) (events : List Event) (hP : P taken discarded (o, s)) :
    P (taken ++ withFate .taken (o.fates out s events))
      (discarded ++ withFate .discarded (o.fates out s events)) (o.live out s events) := by
  induction events generalizing o s taken discarded with
  | nil => simpa [Outbox.live, fates, withFate] using hP
  | cons event events ih =>
    obtain ⟨ht, hd⟩ := event.moves_fate (o := o) out s
    have hevent := h.follow (event.moves o) hP
    rw [ht, hd, ← happen_eq_follow] at hevent
    have hrest := ih hevent
    rw [List.append_assoc, List.append_assoc, ← withFate_append, ← withFate_append] at hrest
    exact hrest

theorem ofOptions_ok {options : Options} (h : ofOptions options = .ok o) :
    o.phase = .disabled ∧ o.queue = [] ∧ o.counts = {} := by
  unfold ofOptions at h
  split at h
  · cases h
  · cases h
    exact ⟨rfl, rfl, rfl⟩

theorem options_ofOptions {options : Options} (h : ofOptions options = .ok o) :
    o.options = options := by
  unfold ofOptions at h
  split at h
  · cases h
  · cases h
    rfl

theorem actions_pos (o : Outbox) : 0 < o.options.actions := by
  have hvalid := o.valid
  unfold Options.validate at hvalid
  split at hvalid
  · cases hvalid
  · omega

theorem isFull_of_empty (h : o.queue = []) : o.isFull = false := by
  simp [isFull, h]

theorem isFull_of_short
    (hlimit : o.options.bufferLimit = 0 ∨ o.options.actions ≤ o.options.bufferLimit)
    (hshort : o.queue.length < o.options.actions) : o.isFull = false := by
  unfold isFull
  rcases hlimit with hlimit | hlimit
  · simp [hlimit]
  · have hless : ¬ o.options.bufferLimit ≤ o.queue.length := by omega
    simp [hless]

def Event.isOpen : Event → Bool
  | .step .flush => true
  | .step (.put _ .flush) => true
  | .putAhead _ .flush => true
  | _ => false

theorem put_open (h : o.phase = .armed) (out : Outside σ) (s : σ) (entry : Entry) :
    (o.put out entry .flush s).1 = .ok () ∧ (o.put out entry .flush s).2.1.phase = .armed := by
  have happend (box : Outbox) (s : σ) : (box.append out entry s).1.phase = box.phase := by
    unfold append
    dsimp only
    split
    · exact phase_write _ out s
    · rfl
  unfold put
  by_cases hf : o.isFull
  · by_cases hd : o.options.dropWhenFull
    · simp [h, hf, hd, discard]
    · simp [h, hf, hd, release, flush, happend]
  · simp [h, hf, happend]

theorem happen_open (h : o.phase = .armed) (out : Outside σ) (s : σ) {event : Event}
    (hevent : event.isOpen) :
    (o.happen out s event).1 = .ok () ∧ (o.happen out s event).2.1.phase = .armed := by
  cases event with
  | drop => cases hevent
  | putAhead entry how =>
    cases how with
    | flush =>
      refine ⟨(put_open h out s entry).1, ?_⟩
      simp only [happen, admission, h, ne_eq, not_true, if_false]
      split_ifs <;> simp [follow, act, accept, discard, h]
    | disable => cases hevent
    | shutDown => cases hevent
  | step step =>
    cases step with
    | flush => simp [happen, perform, flush, h]
    | put entry how =>
      cases how with
      | flush => exact put_open h out s entry
      | disable => cases hevent
      | shutDown => cases hevent
    | enable => cases hevent
    | disable => cases hevent
    | shutDown => cases hevent

theorem live_open (h : o.phase = .armed) (out : Outside σ) (s : σ) {events : List Event}
    (hevents : ∀ event ∈ events, event.isOpen) :
    (o.live out s events).1.phase = .armed ∧
      (o.fates out s events).map (·.1) = events.filterMap Event.entry? ∧
      ∀ x ∈ o.fates out s events, x.2 ≠ .refused := by
  induction events generalizing o s with
  | nil => exact ⟨h, rfl, by simp [fates]⟩
  | cons event events ih =>
    obtain ⟨hresult, hphase⟩ := happen_open h out s (hevents event List.mem_cons_self)
    obtain ⟨hlast, hentries, hnone⟩ := ih hphase (o.happen out s event).2.2
      fun e he => hevents e (List.mem_cons_of_mem event he)
    have hfate : o.fate (o.happen out s event).1 ≠ .refused := by
      rw [hresult, fate]
      split_ifs <;> simp
    refine ⟨hlast, ?_, ?_⟩
    · rw [fates, List.map_append, hentries]
      cases hentry : event.entry? <;> simp [hentry]
    · intro x hx
      rw [fates, List.mem_append] at hx
      rcases hx with hx | hx
      · cases hentry : event.entry? with
        | none => simp [hentry] at hx
        | some entry =>
          simp only [hentry, Option.map_some, Option.toList_some, List.mem_singleton] at hx
          subst hx
          exact hfate
      · exact hnone x hx

theorem putAll_eq_live (h : o.phase = .armed) (out : Outside σ) (s : σ) (entries : List Entry) :
    o.putAll out .flush entries s =
      (.ok (), o.live out s (entries.map fun entry => .step (.put entry .flush))) := by
  induction entries generalizing o s with
  | nil => rfl
  | cons entry entries ih =>
    obtain ⟨hresult, hphase⟩ := put_open h out s entry
    have hrest := ih hphase (o.put out entry .flush s).2.2
    unfold putAll
    generalize hput : o.put out entry .flush s = done at hresult hphase hrest
    obtain ⟨result, box, s'⟩ := done
    obtain rfl : result = .ok () := hresult
    dsimp only at hrest ⊢
    rw [hrest, List.map_cons, live]
    simp only [happen, perform, hput]

end SeriesIngest.Outbox
