import SeriesIngest.Proofs.Outbox.Conservation

/-! What the limit of a queue costs. A limit below the number of actions is reached before a
flush is set off, and what comes then is discarded; at any other limit the flush comes first. -/
namespace SeriesIngest.Outbox

/-- The flush that an entry sets off is over before anything else happens. -/
def Event.isPrompt : Event → Bool
  | .putAhead .. => false
  | _ => true

theorem Event.prompt_cases {event : Event} (h : event.isPrompt) :
    event.entry? = none ∨ ∃ entry how, event = .step (.put entry how) := by
  cases event with
  | putAhead => cases h
  | drop => exact .inl rfl
  | step step =>
    cases step with
    | put entry how => exact .inr ⟨entry, how, rfl⟩
    | _ => exact .inl rfl

/-- The two bounds of a queue whose flushes are prompt. -/
structure Bounded (o : Outbox) : Prop where
  short : o.queue.length < o.options.actions
  fits : o.options.bufferLimit ≠ 0 → o.queue.length ≤ o.options.bufferLimit

def lossCalls (handlers : Handlers) (limit : Nat) (e : Entry) : List Call :=
  .heard (.noted (.queueFull limit e.destination.text)) ::
    if handlers.dropped then [.heard (.dropped e)] else []

def room (o : Outbox) : Nat := o.options.bufferLimit - o.queue.length

variable {o : Outbox} {out : Outside σ} {s : σ} {e : Entry} {how : Release}
  {answer : List Call → List Parcel → Outcome WriteFault} {handlers : Handlers}

theorem Bounded.of_empty (h : o.queue = []) : Bounded o where
  short := by
    rw [h]
    exact o.actions_pos
  fits _ := by simp [h]

theorem Bounded.append (h : o.isFull = false) : Bounded (o.append out e s).1 := by
  unfold Outbox.append
  dsimp only
  split
  · exact .of_empty (queue_write _ out s)
  · next hwait =>
    refine ⟨Nat.lt_of_not_le hwait, fun hlimit => ?_⟩
    have hroom : o.queue.length < o.options.bufferLimit := by
      simpa [isFull, show o.options.bufferLimit ≠ 0 from hlimit] using h
    simpa [accept] using Nat.succ_le_of_lt hroom

theorem Bounded.put (h : Bounded o) : Bounded (o.put out e how s).2.1 := by
  unfold Outbox.put
  by_cases hp : o.phase = .armed
  · by_cases hf : o.isFull
    · by_cases hd : o.options.dropWhenFull
      · simp only [hp, hf, hd, ne_eq, not_true, if_false, Bool.not_true, if_true]
        exact ⟨h.short, h.fits⟩
      · have hempty := o.queue_release out s hp how
        simp only [hp, hf, hd, ne_eq, not_true, if_false, Bool.not_true, Bool.false_eq_true]
        generalize o.release out how s = released at hempty
        obtain ⟨box, s'⟩ := released
        dsimp only
        split
        · exact .of_empty hempty
        · exact .append (isFull_of_empty hempty)
    · simp only [hp, hf, ne_eq, not_true, if_false, Bool.not_false, if_true]
      exact .append (by simpa using hf)
  · simpa [hp] using h

theorem Bounded.act (h : Bounded o) {move : Move} (hmove : move.taken? = none) :
    Bounded (o.act out s move).1 := by
  cases move with
  | take entry => cases hmove
  | write => exact .of_empty (queue_write o out s)
  | _ => exact ⟨h.short, h.fits⟩

theorem Bounded.follow (h : Bounded o) {moves : List Move}
    (hmoves : moves.filterMap Move.taken? = []) : Bounded (o.follow out s moves).1 := by
  induction moves generalizing o s with
  | nil => exact h
  | cons move moves ih =>
    rw [List.filterMap_eq_nil_iff] at hmoves
    refine ih (h.act (hmoves move List.mem_cons_self)) ?_
    exact List.filterMap_eq_nil_iff.2 fun m hm => hmoves m (List.mem_cons_of_mem move hm)

theorem Bounded.happen (h : Bounded o) {event : Event} (hevent : event.isPrompt) :
    Bounded (o.happen out s event).2.1 := by
  rcases Event.prompt_cases hevent with hnone | ⟨entry, how, rfl⟩
  · rw [happen_eq_follow]
    exact h.follow (by simpa [hnone, withFate] using (event.moves_fate (o := o) out s).1)
  · exact h.put

theorem Bounded.live (h : Bounded o) {events : List Event}
    (hevents : ∀ event ∈ events, event.isPrompt) : Bounded (o.live out s events).1 := by
  induction events generalizing o s with
  | nil => exact h
  | cons event events ih =>
    exact ih (h.happen (hevents event List.mem_cons_self))
      fun e he => hevents e (List.mem_cons_of_mem event he)

theorem fate_ne_discarded (h : o.isFull = false ∨ o.options.dropWhenFull = false)
    (result : Except WriteFault Unit) : o.fate result ≠ .discarded := by
  cases result with
  | error fault => simp [fate]
  | ok => rcases h with h | h <;> simp [fate, h]

theorem discarded_cons {event : Event} {events : List Event}
    (h : event.entry? = none ∨ o.isFull = false ∨ o.options.dropWhenFull = false)
    (hrest : withFate .discarded
      ((o.happen out s event).2.1.fates out (o.happen out s event).2.2 events) = []) :
    withFate .discarded (o.fates out s (event :: events)) = [] := by
  rw [fates, withFate_append, hrest, List.append_nil]
  rcases h with hnone | h
  · rw [hnone]
    rfl
  · have hfate := fate_ne_discarded h (o.happen out s event).1
    cases event.entry? <;> simp [withFate, hfate]

/-- Where the flush comes before the limit no put meets a full queue. -/
theorem Bounded.none_discarded (h : Bounded o)
    (hroom : o.options.bufferLimit = 0 ∨ o.options.actions ≤ o.options.bufferLimit)
    {events : List Event} (hevents : ∀ event ∈ events, event.isPrompt) :
    withFate .discarded (o.fates out s events) = [] := by
  induction events generalizing o s with
  | nil => rfl
  | cons event events ih =>
    have hnext : Bounded (o.happen out s event).2.1 :=
      h.happen (hevents event List.mem_cons_self)
    exact discarded_cons (.inr (.inl (isFull_of_short hroom h.short)))
      (ih hnext (by simpa using hroom) fun e he => hevents e (List.mem_cons_of_mem event he))

theorem none_discarded_of_waiting
    (h : o.options.dropWhenFull = false ∨ o.options.bufferLimit = 0) (out : Outside σ) (s : σ)
    (events : List Event) :
    withFate .discarded (o.fates out s events) = [] := by
  induction events generalizing o s with
  | nil => rfl
  | cons event events ih =>
    refine discarded_cons (.inr ?_) (ih (by simpa using h) _)
    rcases h with hwait | hlimit
    · exact .inr hwait
    · exact .inl (by simp [isFull, hlimit])

theorem length_queue_follow (o : Outbox) (out : Outside σ) (s : σ) (moves : List Move) :
    (o.follow out s moves).1.queue.length ≤
      o.queue.length + (moves.filterMap Move.taken?).length := by
  induction moves generalizing o s with
  | nil => simp [follow]
  | cons move moves ih =>
    have hrest := ih (o.act out s move).1 (o.act out s move).2
    cases move with
    | take entry =>
      simp only [act, accept, List.length_append, List.length_singleton] at hrest
      simp only [follow, act, accept, Move.taken?, List.filterMap_cons, List.length_cons]
      omega
    | write =>
      simp only [act, queue_write, List.length_nil] at hrest
      simp only [follow, act, Move.taken?, List.filterMap_cons]
      omega
    | _ => exact hrest

theorem length_queue_happen (o : Outbox) (out : Outside σ) (s : σ) (event : Event) :
    (o.happen out s event).2.1.queue.length ≤
      o.queue.length + event.entry?.toList.length := by
  have hfollow := o.length_queue_follow out s (event.moves o)
  rw [(event.moves_fate (o := o) out s).1, ← happen_eq_follow] at hfollow
  refine Nat.le_trans hfollow (Nat.add_le_add_left ?_ _)
  cases event.entry? with
  | none => exact Nat.le_refl 0
  | some entry =>
    rw [withFate, List.length_map]
    exact List.length_filter_le _ _

theorem none_discarded_of_room {events : List Event}
    (h : o.queue.length + (events.filterMap Event.entry?).length ≤ o.options.bufferLimit) :
    withFate .discarded (o.fates out s events) = [] := by
  induction events generalizing o s with
  | nil => rfl
  | cons event events ih =>
    have hlength := o.length_queue_happen out s event
    cases hentry : event.entry? with
    | none =>
      rw [List.filterMap_cons_none hentry] at h
      rw [hentry] at hlength
      refine discarded_cons (.inl hentry) (ih ?_)
      rw [options_happen]
      exact Nat.le_trans (Nat.add_le_add_right hlength _) h
    | some entry =>
      rw [List.filterMap_cons_some hentry, List.length_cons] at h
      simp only [hentry, Option.toList_some, List.length_singleton] at hlength
      have hfull : o.isFull = false := by
        have hless : ¬ o.options.bufferLimit ≤ o.queue.length := by omega
        simp [isFull, hless]
      refine discarded_cons (.inr (.inl hfull)) (ih ?_)
      rw [options_happen]
      omega

theorem put_of_room (hp : o.phase = .armed) (hf : o.isFull = false)
    (hactions : o.queue.length + 1 < o.options.actions) :
    o.put out e how s = (.ok (), o.accept e, s) := by
  have hwait : ¬ o.options.actions ≤ o.queue.length + 1 := by omega
  simp [put, hp, hf, append, accept, hwait]

theorem put_of_full (hp : o.phase = .armed) (hf : o.isFull) (hd : o.options.dropWhenFull) :
    o.put out e how s = (.ok (), o.discard out e s) := by
  simp [put, hp, hf, hd]

theorem discard_recording (history : List Call) :
    o.discard (recording answer handlers) e history =
      ({ o with counts := { o.counts with dropped := o.counts.dropped + 1 } },
        history ++ lossCalls handlers o.options.bufferLimit e) := by
  cases hd : handlers.dropped <;> simp [discard, recording, Listener.recording, lossCalls, hd]

/-- Puts to an outbox that discards. The first fill the queue up to its limit, where no flush is
due yet, and the others are lost. -/
theorem run_puts (hp : o.phase = .armed) (hd : o.options.dropWhenFull)
    (hlimit : 0 < o.options.bufferLimit) (hactions : o.options.bufferLimit < o.options.actions)
    (entries : List Entry) (history : List Call) :
    o.run (recording answer handlers) history (entries.map (.put · how)) =
      (List.replicate entries.length (.ok ()),
        { o with
          queue := o.queue ++ entries.take o.room
          counts := { o.counts with
            enqueued := o.counts.enqueued + min entries.length o.room
            dropped := o.counts.dropped + (entries.length - o.room) } },
        history ++ (entries.drop o.room).flatMap (lossCalls handlers o.options.bufferLimit)) := by
  induction entries generalizing o history with
  | nil => simp [run]
  | cons entry entries ih =>
    rw [List.map_cons, run]
    by_cases hf : o.isFull
    · -- the queue stays full, so the others are lost as well
      have hroom : o.room = 0 := by
        simp only [isFull, Bool.and_eq_true, decide_eq_true_eq] at hf
        exact Nat.sub_eq_zero_of_le hf.2
      have hrest := ih (o := (o.discard (recording answer handlers) entry history).1) hp hd hlimit
        hactions (o.discard (recording answer handlers) entry history).2
      have hsame : (o.discard (recording answer handlers) entry history).1.room = 0 := hroom
      simp only [perform, put_of_full hp hf hd]
      rw [hrest, hsame, hroom, discard_recording]
      simp [List.replicate_succ, Nat.add_comm, Nat.add_left_comm]
    · have hless : o.queue.length < o.options.bufferLimit := by
        simpa [isFull, Nat.ne_of_gt hlimit] using hf
      have hroom : o.room = (o.accept entry).room + 1 := by
        simp only [room, accept, List.length_append, List.length_singleton]
        omega
      simp only [perform, put_of_room hp (by simpa using hf) (by omega : _ + 1 < _)]
      have hrest := ih (o := o.accept entry) hp hd hlimit hactions history
      rw [hrest, hroom]
      simp [accept, List.replicate_succ, Nat.add_assoc, Nat.add_comm 1]

/-- **Overflow is accounted for.** Take any state of an outbox whose flushes are prompt. Where
it is armed, discards and has a limit below its number of actions, entries that are put one
after the other are no fault: those for which there is room are queued in their order, and
exactly the others are lost, each heard of in its turn and counted once. With no limit, or one
that is not below the number of actions, no entry was ever lost and the queue is below that
number. -/
theorem overflow_accounted {options : Options} {o : Outbox} (h : ofOptions options = .ok o)
    (answer : List Call → List Parcel → Outcome WriteFault) (handlers : Handlers)
    (events : List Event) (hevents : ∀ event ∈ events, event.isPrompt) :
    let out := recording answer handlers
    let box := (o.live out [] events).1
    let history := (o.live out [] events).2
    let room := options.bufferLimit - box.queue.length
    (options.dropWhenFull → 0 < options.bufferLimit → options.bufferLimit < options.actions →
      box.phase = .armed →
        box.queue.length ≤ options.bufferLimit ∧
        ∀ (entries : List Entry) (how : Release),
          box.run out history (entries.map (.put · how)) =
            (List.replicate entries.length (.ok ()),
              { box with
                queue := box.queue ++ entries.take room
                counts := { box.counts with
                  enqueued := box.counts.enqueued + min entries.length room
                  dropped := box.counts.dropped + (entries.length - room) } },
              history ++
                (entries.drop room).flatMap (lossCalls handlers options.bufferLimit))) ∧
      (options.bufferLimit = 0 ∨ options.actions ≤ options.bufferLimit →
        box.queue.length < options.actions ∧
        withFate .discarded (o.fates out [] events) = [] ∧
        box.counts.dropped = 0 ∧
        history.filterMap Call.discarded? = []) := by
  intro out
  obtain ⟨-, hqueue, hcounts⟩ := ofOptions_ok h
  obtain rfl : o.options = options := options_ofOptions h
  have hbounded : Bounded o := .of_empty hqueue
  have hlast : Bounded (o.live out [] events).1 := hbounded.live hevents
  have hoptions := o.options_live out [] events
  have hstart : Accounted handlers [] [] (o, []) := ⟨[], by simp [hqueue], rfl, by simp, hcounts⟩
  obtain ⟨flushes, haccounts⟩ := (keeps_accounted answer handlers).live events hstart
  generalize (o.live out [] events).1 = box at hlast hoptions haccounts
  generalize (o.live out [] events).2 = history at haccounts
  dsimp only
  rw [← hoptions]
  constructor
  · intro hdrop hlimit hactions hphase
    refine ⟨hlast.fits (Nat.ne_of_gt hlimit), fun entries how => ?_⟩
    exact run_puts hphase hdrop hlimit hactions entries history
  · intro hroom
    have hnone : withFate .discarded (o.fates out [] events) = [] :=
      hbounded.none_discarded (by rwa [hoptions] at hroom) hevents
    refine ⟨hlast.short, hnone, ?_, ?_⟩
    · rw [haccounts.counted, hnone]
      rfl
    · rw [haccounts.told, hnone]
      exact ite_self []

/-- Three entries for one place under a limit of two, below five actions; and five in turn
where two actions are enough. -/
theorem overflow_accounted_limit_two :
    let below : Outbox :=
      { options := { actions := 5, bufferLimit := 2, dropWhenFull := true }, valid := rfl }
    let above : Outbox :=
      { options := { actions := 2, bufferLimit := 2, dropWhenFull := true }, valid := rfl }
    let entry : String → Entry := fun name => ⟨{ measurement := name }, ⟨"db", "rp"⟩⟩
    let put : String → Event := fun name => .step (.put (entry name) .flush)
    let handlers : Handlers := { dropped := true }
    let answer : List Call → List Parcel → Outcome WriteFault := fun _ _ => .done
    let first : List Event := [.step .enable, put "a"]
    let all : List Event := .step .enable :: ["a", "b", "c", "d", "e"].map put
    let box := (below.live (recording answer handlers) [] first).1
    let history := (below.live (recording answer handlers) [] first).2
    let after := box.run (recording answer handlers) history
      ([entry "b", entry "c", entry "d"].map (.put · .flush))
    ofOptions below.options = .ok below ∧ ofOptions above.options = .ok above ∧
      box.phase = .armed ∧ box.queue = [entry "a"] ∧
      after.1 = [.ok (), .ok (), .ok ()] ∧ after.2.1.queue = [entry "a", entry "b"] ∧
      after.2.1.counts = { enqueued := 2, dropped := 2 } ∧
      after.2.2 = history ++ [entry "c", entry "d"].flatMap (lossCalls handlers 2) ∧
      (above.live (recording answer handlers) [] all).1.queue.length < above.options.actions ∧
      (above.live (recording answer handlers) [] all).1.counts.dropped = 0 := by
  intro below above entry put handlers answer first all box history after
  have hbelow : ofOptions below.options = .ok below := rfl
  have habove : ofOptions above.options = .ok above := rfl
  have hphase : (below.live (recording answer handlers) [] first).1.phase = .armed := by
    decide +kernel
  have hqueue : (below.live (recording answer handlers) [] first).1.queue = [entry "a"] := by
    decide +kernel
  have hcounts : (below.live (recording answer handlers) [] first).1.counts =
      { enqueued := 1 } := by
    decide +kernel
  have hburst := (overflow_accounted hbelow answer handlers first
    (by decide +kernel)).1 rfl (by decide) (by decide) hphase
  have hcalm := (overflow_accounted habove answer handlers all
    (by decide +kernel)).2 (by decide)
  have hafter := hburst.2 [entry "b", entry "c", entry "d"] .flush
  rw [hqueue, hcounts] at hafter
  refine ⟨hbelow, habove, hphase, hqueue, ?_, ?_, ?_, ?_, hcalm.1, hcalm.2.2.1⟩
  · exact congrArg (·.1) hafter
  · exact congrArg (·.2.1.queue) hafter
  · exact congrArg (·.2.1.counts) hafter
  · exact congrArg (·.2.2) hafter

end SeriesIngest.Outbox
