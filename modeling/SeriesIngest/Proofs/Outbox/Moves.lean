import SeriesIngest.Outbox.Events

/-! What the operations of an outbox consist of. An operation is a list of moves, and the list
hangs on the phase, the options and the length of the queue alone: an invariant that every
move keeps is kept by every operation, and no outcome of a flush changes what comes next. -/
namespace SeriesIngest.Outbox

def trigger (o : Outbox) (how : Release) : List Move :=
  if o.phase ≠ .armed then []
  else if !o.isFull then if o.options.actions ≤ o.queue.length + 1 then [.write] else []
  else if o.options.dropWhenFull ∨ how ≠ .flush then []
  else if o.options.actions ≤ 1 then [.write] else []

def moves (o : Outbox) : Step → List Move
  | .enable => if o.phase = .disabled then [.arm] else []
  | .disable => if o.phase = .armed then [.write, .rest] else []
  | .flush => if o.phase = .armed then [.write] else []
  | .shutDown =>
    match o.phase with
    | .disabled => [.shut]
    | .armed => [.write, .shut]
    | .closed => []
  | .put entry how => o.admission entry how ++ o.trigger how

def dropMoves (o : Outbox) : List Move :=
  if o.phase = .armed then [.warn, .write, .shut] else []

variable (o : Outbox) (out : Outside σ) (s : σ)

@[simp] theorem options_write : (o.write out s).1.options = o.options := by
  unfold write
  dsimp only
  split <;> rfl

@[simp] theorem phase_write : (o.write out s).1.phase = o.phase := by
  unfold write
  dsimp only
  split <;> rfl

@[simp] theorem queue_write : (o.write out s).1.queue = [] := by
  unfold write
  dsimp only
  split <;> rfl

@[simp] theorem options_act (move : Move) : (o.act out s move).1.options = o.options := by
  cases move with
  | write => exact o.options_write out s
  | _ => rfl

@[simp] theorem options_follow (moves : List Move) :
    (o.follow out s moves).1.options = o.options := by
  induction moves generalizing o s with
  | nil => rfl
  | cons move moves ih => exact (ih _ _).trans (o.options_act out s move)

@[simp] theorem phase_flush : (o.flush out s).1.phase = o.phase := by
  unfold flush
  split
  · exact phase_write o out s
  · rfl

theorem append_eq_follow (entry : Entry) :
    o.append out entry s =
      o.follow out s (.take entry ::
        if o.options.actions ≤ o.queue.length + 1 then [.write] else []) := by
  unfold append
  by_cases h : o.options.actions ≤ o.queue.length + 1 <;> simp [follow, act, accept, h]

theorem flush_eq_follow : o.flush out s = o.follow out s (o.moves .flush) := by
  unfold flush moves
  split <;> rfl

theorem disable_eq_follow : o.disable out s = o.follow out s (o.moves .disable) := by
  unfold disable moves
  split <;> rfl

theorem shutDown_eq_follow : o.shutDown out s = o.follow out s (o.moves .shutDown) := by
  unfold shutDown moves
  cases h : o.phase with
  | disabled => simp [flush, h, follow, act]
  | armed =>
    rw [flush_eq_follow]
    simp [moves, h, follow, act]
  | closed => simp [follow]

@[simp] theorem phase_shutDown : (o.shutDown out s).1.phase = .closed := by
  rw [shutDown_eq_follow, moves]
  cases h : o.phase <;> simp [follow, act, h]

theorem queue_shutDown (h : o.phase = .armed) : (o.shutDown out s).1.queue = [] := by
  rw [shutDown_eq_follow, moves, h]
  simp [follow, act]

theorem queue_release (h : o.phase = .armed) (how : Release) :
    (o.release out how s).1.queue = [] := by
  cases how with
  | flush => simp [release, flush, h]
  | disable => simp [release, disable, h]
  | shutDown => exact o.queue_shutDown out s h

theorem drop_eq_follow : o.drop out s = o.follow out s o.dropMoves := by
  unfold drop dropMoves
  by_cases h : o.phase = .armed
  · rw [if_pos h, if_pos h, shutDown_eq_follow]
    simp only [moves, h]
    rfl
  · rw [if_neg h, if_neg h]
    rfl

theorem put_eq_follow (entry : Entry) (how : Release) :
    (o.put out entry how s).2 = o.follow out s (o.moves (.put entry how)) := by
  unfold put moves admission trigger
  by_cases hp : o.phase = .armed
  · by_cases hf : o.isFull
    · by_cases hd : o.options.dropWhenFull
      · simp [hp, hf, hd, follow, act]
      · cases how with
        | flush => simp [hp, hf, hd, release, flush, append_eq_follow, follow, act]
        | disable => simp [hp, hf, hd, release, disable, follow, act]
        | shutDown =>
          simp only [hp, hf, hd, release, shutDown_eq_follow, moves]
          simp [follow, act]
    · simp [hp, hf, append_eq_follow]
  · simp [hp, follow]

theorem perform_eq_follow (step : Step) :
    (o.perform out s step).2 = o.follow out s (o.moves step) := by
  cases step with
  | enable =>
    simp only [perform, enable, moves]
    cases h : o.phase <;> simp [follow, act]
  | disable => exact o.disable_eq_follow out s
  | flush => exact o.flush_eq_follow out s
  | shutDown => exact o.shutDown_eq_follow out s
  | put entry how => exact o.put_eq_follow out s entry how

end SeriesIngest.Outbox
