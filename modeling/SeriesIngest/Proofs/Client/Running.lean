import SeriesIngest.Client.Events
import SeriesIngest.Proofs.Client.Accounts

/-! A client with batches in use. Its events are events of its outbox, and through all of them
it keeps account of the entries that its writes took. -/
namespace SeriesIngest.Client

/-- Steps are events whose flushes are over at once. -/
theorem run_eq (c : Client) (out : Carrier τ) (t : τ) (steps : List Step) :
    c.run out t steps = (c.results out t (steps.map .step), c.live out t (steps.map .step)) := by
  induction steps generalizing c t with
  | nil => rfl
  | cons step steps ih =>
    unfold run
    dsimp only
    rw [ih]
    rfl

structure Running (format : Sender.Format) (options : Outbox.Options) (handlers : Handlers)
    (taken lost : List Entry) (c : Client) (box : Outbox) (history : List Call) :
    Prop where
  outbox : c.outbox = some box
  options : box.options = options
  phase : box.phase = if c.closed then .closed else .armed
  empty : c.closed → box.queue = []
  checked : ∀ e ∈ taken, format.protocol.fault? e.point = none
  accounted : Accounted format handlers taken lost (box, c.sender, history)

/-- What an event leads to: the client runs on, and each entry of a successful write, and no
other, was put and not refused. -/
structure Leads (format : Sender.Format) (options : Outbox.Options) (handlers : Handlers)
    (taken lost : List Entry) (fates : List (Entry × Outbox.Fate)) (event : Event)
    (r : Result × Client × List Call) : Prop where
  running : ∃ box, Running format options handlers (taken ++ Outbox.withFate .taken fates)
    (lost ++ Outbox.withFate .discarded fates) r.2.1 box r.2.2
  entries : fates.map (·.1) = if r.1 = .wrote .done then event.entries else []
  accepted : ∀ x ∈ fates, x.2 ≠ .refused

variable (server : Server) {format : Sender.Format} {options : Outbox.Options}
  {handlers : Handlers} {taken lost : List Entry} {c : Client} {box : Outbox} {history : List Call}

theorem Accounted.extend {sender sender' : Sender} {later : List Call}
    (h : Accounted format handlers taken lost (box, sender, history))
    (hfollows : sender.Follows format → sender'.Follows format)
    (hlater : Extends history later []) :
    Accounted format handlers taken lost (box, sender', later) := by
  intro hchecked
  obtain ⟨hs, flushes, haccounts⟩ := h hchecked
  exact ⟨hfollows hs, flushes, haccounts.extend hlater⟩

theorem Running.follows (h : Running format options handlers taken lost c box history) :
    c.sender.Follows format :=
  (h.accounted h.checked).1

theorem Running.armed (h : Running format options handlers taken lost c box history)
    (hopen : c.closed = false) : box.phase = .armed := by
  rw [h.phase, hopen]
  rfl

theorem Running.stays (h : Running format options handlers taken lost c box history) :
    ∃ box, Running format options handlers (taken ++ Outbox.withFate .taken [])
      (lost ++ Outbox.withFate .discarded []) c box history := by
  simp only [Outbox.withFate, List.filter_nil, List.map_nil, List.append_nil]
  exact ⟨box, h⟩

theorem Running.live (h : Running format options handlers taken lost c box history)
    (hopen : c.closed = false)
    {events : List Outbox.Event} (hevents : ∀ event ∈ events, event.isOpen)
    (hchecked : ∀ e ∈ events.filterMap Outbox.Event.entry?,
      format.protocol.fault? e.point = none) :
    let out := Sender.outside (recording server handlers)
    let r := box.live out (c.sender, history) events
    let fates := box.fates out (c.sender, history) events
    Running format options handlers (taken ++ Outbox.withFate .taken fates)
        (lost ++ Outbox.withFate .discarded fates)
        { c with sender := r.2.1, outbox := some r.1 } r.1 r.2.2 ∧
      fates.map (·.1) = events.filterMap Outbox.Event.entry? ∧ ∀ x ∈ fates, x.2 ≠ .refused := by
  intro out r fates
  obtain ⟨hlast, hentries, haccepted⟩ :=
    Outbox.live_open (h.armed hopen) out (c.sender, history) hevents
  refine ⟨⟨rfl, ?_, ?_, ?_, ?_, ?_⟩, hentries, haccepted⟩
  · exact (Outbox.options_live box out (c.sender, history) events).trans h.options
  · rw [hopen]
    exact hlast
  · simp [hopen]
  · intro e he
    rcases List.mem_append.1 he with he | he
    · exact h.checked e he
    · apply hchecked
      rw [← hentries]
      obtain ⟨x, hx, rfl⟩ := List.mem_map.1 he
      exact List.mem_map_of_mem (List.mem_filter.1 hx).1
  · exact (keeps_accounted server handlers format).live events h.accounted

theorem refusal?_none {points : List Point} (h : c.refusal? points = none) :
    c.closed = false ∧ ∀ p ∈ points, c.sender.protocol.fault? p = none := by
  unfold refusal? at h
  cases hclosed : c.closed with
  | true => simp [hclosed] at h
  | false => simpa [hclosed] using h

theorem Running.write_eq (h : Running format options handlers taken lost c box history)
    (destination : Destination) (points : List Point) :
    c.write (recording server handlers) destination points history =
      match c.refusal? points with
      | some fault => (.failed fault, c, history)
      | none =>
        let r := box.live (Sender.outside (recording server handlers)) (c.sender, history)
          (points.map fun point => .step (.put { point, destination } .flush))
        (.done, { c with sender := r.2.1, outbox := some r.1 }, r.2.2) := by
  unfold write refusal?
  cases hclosed : c.closed with
  | true => rfl
  | false =>
    have hphase := h.armed hclosed
    cases hfault : points.findSome? c.sender.protocol.fault? with
    | some fault => rfl
    | none =>
      simp only [Bool.false_eq_true, if_false, h.outbox, Outbox.putAll_eq_live hphase,
        List.map_map, Option.map_none]
      rfl

theorem Running.leads_writes (h : Running format options handlers taken lost c box history)
    {points : List Point}
    (haccepted : c.refusal? points = none) {events : List Outbox.Event}
    (hevents : ∀ event ∈ events, event.isOpen) {destination : Destination}
    (hentries : events.filterMap Outbox.Event.entry? =
      points.map fun point => { point, destination })
    {event : Event} (hevent : event.entries = points.map fun point => { point, destination }) :
    let out := Sender.outside (recording server handlers)
    let r := box.live out (c.sender, history) events
    Leads format options handlers taken lost (box.fates out (c.sender, history) events) event
      (.wrote .done, { c with sender := r.2.1, outbox := some r.1 }, r.2.2) := by
  intro out r
  obtain ⟨hopen, hpoints⟩ := refusal?_none haccepted
  have hchecked : ∀ e ∈ events.filterMap Outbox.Event.entry?,
      format.protocol.fault? e.point = none := by
    intro e he
    rw [hentries] at he
    obtain ⟨p, hp, rfl⟩ := List.mem_map.1 he
    rw [← h.follows.protocol]
    exact hpoints p hp
  obtain ⟨hrunning, hput, hnone⟩ := h.live server hopen hevents hchecked
  refine ⟨⟨_, hrunning⟩, ?_, hnone⟩
  rw [hput, hentries, hevent, if_pos rfl]

theorem Running.leads_none (h : Running format options handlers taken lost c box history)
    {event : Event} {result : Result} (hresult : result ≠ .wrote .done) :
    Leads format options handlers taken lost [] event (result, c, history) :=
  ⟨h.stays, by rw [if_neg hresult]; rfl, by simp⟩

theorem Running.leads_write (h : Running format options handlers taken lost c box history)
    (destination : Destination) (points : List Point) :
    let event : Event := .step (.write destination points)
    Leads format options handlers taken lost
      (box.fates (Sender.outside (recording server handlers)) (c.sender, history)
        (event.inOutbox c)) event
      (c.happen (recording server handlers) history event) := by
  intro event
  simp only [event, happen, perform, Event.inOutbox, h.write_eq server]
  cases haccepted : c.refusal? points with
  | some fault => exact h.leads_none (by simp)
  | none =>
    simp only [Option.isSome_none, Bool.false_eq_true, if_false]
    apply h.leads_writes server haccepted
    · intro e he
      obtain ⟨p, -, rfl⟩ := List.mem_map.1 he
      rfl
    · rw [List.filterMap_map]
      exact congrFun List.filterMap_eq_map _
    · rfl

theorem filterMap_putsAhead (destination : Destination) (puts : List (Nat × Point)) :
    (putsAhead destination puts).filterMap Outbox.Event.entry? =
      puts.map fun put => { point := put.2, destination } := by
  induction puts with
  | nil => rfl
  | cons put puts ih =>
    have hflushes : (List.replicate put.1 (.step .flush : Outbox.Event)).filterMap
        Outbox.Event.entry? = [] := by
      rw [List.filterMap_eq_nil_iff]
      intro e he
      rw [List.eq_of_mem_replicate he]
      rfl
    unfold putsAhead at ih ⊢
    rw [List.flatMap_cons, List.filterMap_append, List.filterMap_append, hflushes, ih]
    rfl

theorem isOpen_putsAhead (destination : Destination) (puts : List (Nat × Point)) :
    ∀ e ∈ putsAhead destination puts, e.isOpen := by
  intro e he
  obtain ⟨put, -, hput⟩ := List.mem_flatMap.1 he
  rcases List.mem_append.1 hput with hflush | hput
  · rw [List.eq_of_mem_replicate hflush]
    rfl
  · rw [List.mem_singleton.1 hput]
    rfl

theorem Running.none_refused (h : Running format options handlers taken lost c box history)
    (hopen : c.closed = false) {events : List Outbox.Event}
    (hevents : ∀ event ∈ events, event.isOpen) :
    (box.fates (Sender.outside (recording server handlers)) (c.sender, history) events).any
      (·.2 = .refused) = false := by
  obtain ⟨-, -, haccepted⟩ := Outbox.live_open (h.armed hopen)
    (Sender.outside (recording server handlers)) (c.sender, history) hevents
  rw [List.any_eq_false]
  intro x hx
  simpa using haccepted x hx

theorem Running.leads_writeAhead (h : Running format options handlers taken lost c box history)
    (destination : Destination)
    (puts : List (Nat × Point)) :
    let event : Event := .writeAhead destination puts
    Leads format options handlers taken lost
      (box.fates (Sender.outside (recording server handlers)) (c.sender, history)
        (event.inOutbox c)) event
      (c.happen (recording server handlers) history event) := by
  intro event
  simp only [event, happen, Event.inOutbox]
  cases haccepted : c.refusal? (puts.map (·.2)) with
  | some fault => exact h.leads_none (by simp)
  | none =>
    have hentries : (putsAhead destination puts).filterMap Outbox.Event.entry? =
        (puts.map (·.2)).map fun point => { point, destination } := by
      rw [filterMap_putsAhead, List.map_map]
      rfl
    have hevent : (Event.writeAhead destination puts).entries =
        (puts.map (·.2)).map fun point => { point, destination } := by
      rw [Event.entries, List.map_map]
      rfl
    have hnone := h.none_refused server (refusal?_none haccepted).1
      (isOpen_putsAhead destination puts)
    simp only [h.outbox, hnone, onOutbox]
    exact h.leads_writes server haccepted (isOpen_putsAhead destination puts) hentries hevent

theorem Accounted.perform {sender : Sender}
    (h : Accounted format handlers taken lost (box, sender, history))
    (step : Outbox.Step)
    (hstep : Outbox.Event.entry? (.step step) = none) :
    Accounted format handlers taken lost
      (box.perform (Sender.outside (recording server handlers)) (sender, history) step).2 := by
  have hlive := (keeps_accounted server handlers format).live [.step step] h
  simp only [Outbox.withFate, Outbox.fates, hstep, Option.map_none, Option.toList_none,
    List.append_nil, List.filter_nil, List.map_nil] at hlive
  exact hlive

theorem Running.flush (h : Running format options handlers taken lost c box history) :
    ∃ box, Running format options handlers taken lost
      (c.flush (recording server handlers) history).1 box
      (c.flush (recording server handlers) history).2 := by
  unfold Client.flush onOutbox
  rw [h.outbox]
  have haccounted := h.accounted.perform server .flush rfl
  refine ⟨_, rfl, ?_, ?_, ?_, h.checked, haccounted⟩
  · exact (Outbox.options_happen box _ _ (.step .flush)).trans h.options
  · rw [Outbox.phase_flush]
    exact h.phase
  · intro hclosed
    have hphase : box.phase = .closed := by rw [h.phase, if_pos hclosed]
    simp only [Outbox.flush, hphase, reduceCtorEq, if_false]
    exact h.empty hclosed

theorem Running.check (h : Running format options handlers taken lost c box history) :
    Running format options handlers taken lost (c.check (recording server handlers) history).2.1 box
      (c.check (recording server handlers) history).2.2 := by
  obtain ⟨hfollows, hlater⟩ :=
    check_spec server handlers h.follows c.sender.rotation.urls history
  exact ⟨h.outbox, h.options, h.phase, h.empty, h.checked,
    h.accounted.extend (fun _ => hfollows) hlater⟩

theorem Running.note (h : Running format options handlers taken lost c box history)
    (notice : Notice) (hquiet : isQuiet notice) :
    Running format options handlers taken lost c box
      ((recording server handlers).note notice history) :=
  ⟨h.outbox, h.options, h.phase, h.empty, h.checked,
    h.accounted.extend id (extends_note server handlers notice hquiet history)⟩

theorem Running.close (h : Running format options handlers taken lost c box history) :
    (c.close (recording server handlers) history).1.closed = true ∧
      ∃ box, Running format options handlers taken lost
        (c.close (recording server handlers) history).1 box
        (c.close (recording server handlers) history).2 := by
  unfold Client.close
  cases hclosed : c.closed with
  | true => exact ⟨hclosed, box, h⟩
  | false =>
    have hphase := h.armed hclosed
    have haccounted := (h.accounted.perform server .shutDown rfl).extend id
      (extends_note server handlers .clientClosed rfl _)
    simp only [Bool.false_eq_true, if_false, isBatching, h.outbox, Option.isSome_some, if_true,
      onOutbox]
    have hoptions := (Outbox.options_happen box (Sender.outside (recording server handlers))
      (c.sender, history) (.step .shutDown)).trans h.options
    exact ⟨trivial, _, rfl, hoptions, Outbox.phase_shutDown _ _ _,
      fun _ => Outbox.queue_shutDown _ _ _ hphase, h.checked, haccounted⟩

theorem Running.drop (h : Running format options handlers taken lost c box history) :
    (c.drop (recording server handlers) history).1.closed = true ∧
      ∃ box, Running format options handlers taken lost
        (c.drop (recording server handlers) history).1 box
        (c.drop (recording server handlers) history).2 := by
  unfold Client.drop
  cases hclosed : c.closed with
  | true => exact ⟨hclosed, box, h⟩
  | false => exact (h.note server .clientDropped rfl).close server

theorem Running.leads (h : Running format options handlers taken lost c box history)
    (event : Event) :
    Leads format options handlers taken lost
      (box.fates (Sender.outside (recording server handlers)) (c.sender, history)
        (event.inOutbox c)) event
      (c.happen (recording server handlers) history event) := by
  have hclosing (t : Sender × List Call) : box.fates (Sender.outside (recording server handlers)) t
      (if c.closed then [] else [.step .shutDown]) = [] := by
    split <;> rfl
  cases event with
  | writeAhead destination puts => exact h.leads_writeAhead server destination puts
  | drop =>
    obtain ⟨-, box', hrunning⟩ := h.drop server
    rw [Event.inOutbox, hclosing]
    exact hrunning.leads_none nofun
  | step step =>
    cases step with
    | write destination points => exact h.leads_write server destination points
    | flush =>
      obtain ⟨box', hrunning⟩ := h.flush server
      exact hrunning.leads_none nofun
    | check => exact (h.check server).leads_none nofun
    | close =>
      obtain ⟨-, box', hrunning⟩ := h.close server
      rw [Event.inOutbox, hclosing]
      exact hrunning.leads_none nofun

theorem Running.run (h : Running format options handlers taken lost c box history)
    (events : List Event) :
    let out := recording server handlers
    let fates := c.fates out history events
    (∃ box, Running format options handlers (taken ++ Outbox.withFate .taken fates)
        (lost ++ Outbox.withFate .discarded fates) (c.live out history events).1 box
        (c.live out history events).2) ∧
      fates.map (·.1) = c.written out history events ∧ ∀ x ∈ fates, x.2 ≠ .refused := by
  intro out fates
  induction events generalizing c box history taken lost with
  | nil => exact ⟨h.stays, rfl, by simp [fates, Client.fates]⟩
  | cons event events ih =>
    obtain ⟨⟨box', hrunning⟩, hentries, haccepted⟩ := h.leads server event
    obtain ⟨⟨last, hlast⟩, hwritten, hnone⟩ := ih hrunning
    have hfates : fates = box.fates (Sender.outside out) (c.sender, history) (event.inOutbox c) ++
        (c.happen out history event).2.1.fates out (c.happen out history event).2.2 events := by
      simp only [fates, Client.fates, h.outbox]
    rw [hfates]
    refine ⟨⟨last, ?_⟩, ?_, ?_⟩
    · rw [Outbox.withFate_append, Outbox.withFate_append, ← List.append_assoc,
        ← List.append_assoc]
      exact hlast
    · rw [List.map_append, hentries, hwritten]
      rfl
    · intro x hx
      rcases List.mem_append.1 hx with hx | hx
      · exact haccepted x hx
      · exact hnone x hx

theorem live_concat (c : Client) (out : Carrier τ) (t : τ) (events : List Event) (last : Event) :
    c.live out t (events ++ [last]) =
      ((c.live out t events).1.happen out (c.live out t events).2 last).2 := by
  induction events generalizing c t with
  | nil => rfl
  | cons event events ih => exact ih _ _

end SeriesIngest.Client
