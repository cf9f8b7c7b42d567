import SeriesIngest.Compression.Codecs
import SeriesIngest.Proofs.Client.NoLoss
import SeriesIngest.Proofs.Client.Obliged
import SeriesIngest.Proofs.Outbox.Overflow

/-! A client with batches beside one that sends at once. With servers that answer every request
they answer the same, and their requests carry the same samples, but for those that met a full
queue. -/
namespace SeriesIngest.Client

def answer (c : Client) : Event → Result
  | .step (.write _ points) => .wrote ((c.refusal? points).elim .done .failed)
  | .writeAhead _ puts => .wrote ((c.refusal? (puts.map (·.2))).elim .done .failed)
  | .step .check => .checked 0
  | _ => .done

def Event.isEnd : Event → Bool
  | .step .close | .drop => true
  | _ => false

/-- How many samples of a write a flush that lags may find in the queue beside those that set
it off. -/
def Event.ahead : Event → Nat
  | .writeAhead _ puts => puts.length - 1
  | _ => 0

/-- Three reasons why no sample is discarded. -/
inductive Spares (options : Outbox.Options) (timely : Bool) (events : List Event) : Prop
  | waits (h : options.dropWhenFull = false)
  | unlimited (h : options.bufferLimit = 0)
  | fits (htimely : timely)
    (hroom : ∀ event ∈ events, options.actions + event.ahead ≤ options.bufferLimit)

section

variable (server : Server) (handlers : Handlers) {format : Sender.Format}
  {options : Outbox.Options} {written taken lost : List Entry} {c c' : Client} {box : Outbox}
  {history history' later : List Call}

theorem refusal?_congr (hclosed : c.closed = c'.closed)
    (hprotocol : c.sender.protocol = c'.sender.protocol) : c.refusal? = c'.refusal? := by
  funext points
  rw [refusal?, refusal?, hclosed, hprotocol]

theorem answer_congr (h : c.refusal? = c'.refusal?) : c.answer = c'.answer := by
  funext event
  unfold answer
  rw [h]

/-! The client that sends at once. -/

theorem write_direct (hdirect : c.outbox = none) (out : Carrier τ) (destination : Destination)
    (points : List Point) (t : τ) :
    c.write out destination points t =
      match c.refusal? points with
      | some fault => (.failed fault, c, t)
      | none =>
        let r := c.sender.send out (destination, points) t
        (r.1, { c with sender := r.2.1 }, r.2.2) := by
  unfold write refusal?
  cases hclosed : c.closed with
  | true => rfl
  | false =>
    cases hfault : points.findSome? c.sender.protocol.fault? with
    | some fault => rfl
    | none =>
      rw [hdirect]
      rfl

/-- A client without an outbox in use: what its writes took is carried. -/
structure Direct (format : Sender.Format) (written : List Entry) (c : Client)
    (history : List Call) : Prop where
  outbox : c.outbox = none
  follows : c.sender.Follows format
  carried : Carried format written (history.filterMap Call.request?)

theorem Direct.extend (h : Direct format written c history) (hlater : Extends history later []) :
    Direct format written c later := by
  refine ⟨h.outbox, h.follows, ?_⟩
  rw [hlater.request?, List.filterMap_nil, List.append_nil]
  exact h.carried

theorem Direct.write (hhttp : format.protocol = .http) (h : Direct format written c history)
    (destination : Destination) (points : List Point) :
    let event : Event := .step (.write destination points)
    let r := c.happen (recording server handlers) history event
    Answered r.2.2 → r.1 = c.answer event ∧ r.2.1.closed = c.closed ∧
      Direct format (written ++ if r.1 = .wrote .done then event.entries else []) r.2.1 r.2.2 := by
  simp only [Client.happen, perform, write_direct h.outbox, answer]
  cases haccepted : c.refusal? points with
  | some fault =>
    intro _
    refine ⟨rfl, rfl, ?_⟩
    rw [if_neg (by simp), List.append_nil]
    exact h
  | none =>
    intro hanswered
    have hchecked : ∀ p ∈ points, format.protocol.fault? p = none := by
      rw [← h.follows.protocol]
      exact (refusal?_none haccepted).2
    obtain ⟨hdone, hfollows, hcarried⟩ :=
      send_carried hhttp h.follows destination hchecked h.carried hanswered
    refine ⟨congrArg Result.wrote hdone, rfl, h.outbox, hfollows, ?_⟩
    rw [if_pos (congrArg Result.wrote hdone)]
    exact hcarried

theorem Direct.close (h : Direct format written c history) :
    let r := c.close (recording server handlers) history
    r.1.closed = true ∧ Direct format written r.1 r.2 := by
  unfold Client.close
  cases hclosed : c.closed with
  | true => exact ⟨hclosed, h⟩
  | false =>
    have hended := extends_close server handlers history
    have hnoted := extends_note server handlers .clientClosed rfl
      ((recording server handlers).close history)
    have hlast := h.extend (hended.trans hnoted)
    simp only [Bool.false_eq_true, if_false, isBatching, h.outbox, Option.isSome_none]
    exact ⟨trivial, rfl, hlast.follows, hlast.carried⟩

theorem Direct.drop (h : Direct format written c history) :
    let r := c.drop (recording server handlers) history
    r.1.closed = true ∧ Direct format written r.1 r.2 := by
  unfold Client.drop
  cases hclosed : c.closed with
  | true => exact ⟨hclosed, h⟩
  | false =>
    exact (h.extend (extends_note server handlers .clientDropped rfl history)).close server handlers

theorem happen_ahead (hdirect : c.outbox = none) (out : Carrier τ) (t : τ)
    (destination : Destination) (puts : List (Nat × Point)) :
    c.happen out t (.writeAhead destination puts) =
      c.happen out t (.step (.write destination (puts.map (·.2)))) := by
  simp only [Client.happen, perform, write_direct hdirect, hdirect]
  cases c.refusal? (puts.map (·.2)) <;> rfl

theorem Direct.happen (hhttp : format.protocol = .http) (h : Direct format written c history)
    {event : Event} (hevent : event ≠ .step .check) :
    let r := c.happen (recording server handlers) history event
    Answered r.2.2 → r.1 = c.answer event ∧ r.2.1.closed = (c.closed || event.isEnd) ∧
      Direct format (written ++ if r.1 = .wrote .done then event.entries else []) r.2.1 r.2.2 := by
  intro r hanswered
  have hsilent (hresult : r.1 = .done) (hlast : Direct format written r.2.1 r.2.2) :
      Direct format (written ++ if r.1 = .wrote .done then event.entries else []) r.2.1 r.2.2 := by
    rw [hresult, if_neg nofun, List.append_nil]
    exact hlast
  cases event with
  | drop =>
    obtain ⟨hclosed, hlast⟩ := h.drop server handlers
    exact ⟨rfl, by simp [r, Client.happen, hclosed, Event.isEnd], hsilent rfl hlast⟩
  | writeAhead destination puts =>
    have hsame : r = c.happen (recording server handlers) history
        (.step (.write destination (puts.map (·.2)))) := happen_ahead h.outbox _ _ _ _
    have hentries : (Event.writeAhead destination puts).entries =
        (Event.step (.write destination (puts.map (·.2)))).entries := by
      rw [Event.entries, Event.entries, List.map_map]
      rfl
    rw [hsame] at hanswered ⊢
    obtain ⟨hresult, hclosed, hlast⟩ := h.write server handlers hhttp destination _ hanswered
    have hgoes : (Event.writeAhead destination puts).isEnd = false := rfl
    rw [hentries, hgoes, Bool.or_false]
    exact ⟨hresult, hclosed, hlast⟩
  | step step =>
    cases step with
    | check => exact absurd rfl hevent
    | write destination points =>
      obtain ⟨hresult, hclosed, hlast⟩ := h.write server handlers hhttp destination points hanswered
      have hgoes : (Event.step (.write destination points)).isEnd = false := rfl
      rw [hgoes, Bool.or_false]
      exact ⟨hresult, hclosed, hlast⟩
    | flush =>
      have hsame : r = (.done, c, history) := by
        simp only [r, Client.happen, perform, Client.flush, onOutbox, h.outbox]
      rw [hsame] at hsilent ⊢
      exact ⟨rfl, by simp [Event.isEnd], hsilent rfl h⟩
    | close =>
      obtain ⟨hclosed, hlast⟩ := h.close server handlers
      exact ⟨rfl, by simp [r, Client.happen, perform, hclosed, Event.isEnd], hsilent rfl hlast⟩

/-! The client with batches. -/

theorem Running.answer (h : Running format options handlers taken lost c box history)
    {event : Event} (hevent : event ≠ .step .check) :
    let r := c.happen (recording server handlers) history event
    r.1 = c.answer event ∧ r.2.1.closed = (c.closed || event.isEnd) := by
  cases event with
  | drop => exact ⟨rfl, by simp [Client.happen, (h.drop server).1, Event.isEnd]⟩
  | writeAhead destination puts =>
    simp only [Client.happen, Client.answer, h.outbox, onOutbox]
    cases haccepted : c.refusal? (puts.map (·.2)) with
    | some fault => exact ⟨rfl, (Bool.or_false _).symm⟩
    | none =>
      have hnone := h.none_refused server (refusal?_none haccepted).1
        (isOpen_putsAhead destination puts)
      simp only [hnone, Bool.false_eq_true, if_false]
      exact ⟨rfl, (Bool.or_false _).symm⟩
  | step step =>
    cases step with
    | check => exact absurd rfl hevent
    | write destination points =>
      simp only [Client.happen, perform, h.write_eq server, Client.answer]
      cases haccepted : c.refusal? points with
      | some fault => exact ⟨rfl, (Bool.or_false _).symm⟩
      | none => exact ⟨rfl, (Bool.or_false _).symm⟩
    | flush =>
      simp only [Client.happen, perform, Client.flush, onOutbox, h.outbox]
      exact ⟨rfl, (Bool.or_false _).symm⟩
    | close => exact ⟨rfl, by simp [Client.happen, perform, (h.close server).1, Event.isEnd]⟩

theorem isPrompt_inOutbox {event : Event}
    (hsteps : ∀ destination puts, event ≠ .writeAhead destination puts) :
    ∀ e ∈ event.inOutbox c, e.isPrompt := by
  have hshut : ∀ e ∈ if c.closed then [] else [Outbox.Event.step .shutDown], e.isPrompt := by
    intro e he
    split at he
    · cases he
    · rw [List.mem_singleton.1 he]
      rfl
  cases event with
  | writeAhead destination puts => exact absurd rfl (hsteps destination puts)
  | drop => exact hshut
  | step step =>
    cases step with
    | check => exact nofun
    | close => exact hshut
    | flush => exact fun e he => List.mem_singleton.1 he ▸ rfl
    | write destination points =>
      intro e he
      simp only [Event.inOutbox] at he
      split at he
      · cases he
      · obtain ⟨point, -, rfl⟩ := List.mem_map.1 he
        rfl

theorem Running.none_discarded (h : Running format options handlers taken lost c box history)
    {event : Event} (htimely : event.isFlush ∨ box.queue.length < options.actions)
    (hroom : options.actions + event.ahead ≤ options.bufferLimit) :
    Outbox.withFate .discarded (box.fates (Sender.outside (recording server handlers))
      (c.sender, history) (event.inOutbox c)) = [] := by
  rcases htimely with hflush | hshort
  · -- the queue may be full now, but nothing comes in
    obtain rfl : event = .step .flush := by
      unfold Event.isFlush at hflush
      split at hflush
      · rfl
      · cases hflush
    rfl
  have hprompt (hevents : ∀ e ∈ event.inOutbox c, e.isPrompt) : Outbox.withFate .discarded
      (box.fates (Sender.outside (recording server handlers)) (c.sender, history)
        (event.inOutbox c)) = [] := by
    have hbounded : Outbox.Bounded box := by
      rw [← h.options] at hshort hroom
      exact ⟨hshort, fun _ => by omega⟩
    refine hbounded.none_discarded (.inr ?_) hevents
    rw [h.options]
    omega
  cases event with
  | drop => exact hprompt (isPrompt_inOutbox nofun)
  | step step => exact hprompt (isPrompt_inOutbox nofun)
  | writeAhead destination puts =>
    simp only [Event.inOutbox]
    split
    · rfl
    · apply Outbox.none_discarded_of_room
      rw [filterMap_putsAhead, List.length_map, h.options]
      simp only [Event.ahead] at hroom
      omega

theorem Running.spared (h : Running format options handlers taken lost c box history)
    {events : List Event}
    (hspares : Spares options (c.isTimely (recording server handlers) history events) events) :
    Outbox.withFate .discarded (c.fates (recording server handlers) history events) = [] := by
  induction events generalizing c box history taken lost with
  | nil => rfl
  | cons event events ih =>
    obtain ⟨⟨box', hrunning⟩, -⟩ := h.leads server event
    have hwaiting (hwait : options.dropWhenFull = false ∨ options.bufferLimit = 0) :=
      Outbox.none_discarded_of_waiting (h.options ▸ hwait)
        (Sender.outside (recording server handlers)) (c.sender, history) (event.inOutbox c)
    rw [Client.fates, h.outbox, Outbox.withFate_append, List.append_eq_nil_iff]
    cases hspares with
    | waits hwait => exact ⟨hwaiting (.inl hwait), ih hrunning (.waits hwait)⟩
    | unlimited hlimit => exact ⟨hwaiting (.inr hlimit), ih hrunning (.unlimited hlimit)⟩
    | fits htimely hroom =>
      simp only [isTimely, h.outbox, Option.all_some, Bool.and_eq_true, Bool.or_eq_true,
        decide_eq_true_eq, h.options] at htimely
      exact ⟨h.none_discarded server handlers htimely.1 (hroom event List.mem_cons_self),
        ih hrunning (.fits htimely.2 fun e he => hroom e (List.mem_cons_of_mem event he))⟩

end

/-! Both side by side. -/

/-- The same has happened to both clients, and all requests were answered. -/
structure Abreast (format : Sender.Format) (options : Outbox.Options) (handlers' : Handlers)
    (written taken lost : List Entry) (c : Client) (history : List Call) (c' : Client)
    (history' : List Call) : Prop where
  closed : c.closed = c'.closed
  direct : Direct format written c history
  running : ∃ box, Running format options handlers' taken lost c' box history'
  answered : Answered history
  answered' : Answered history'

section

variable {server server' : Server} (handlers : Handlers) {handlers' : Handlers}
  {format : Sender.Format} {options : Outbox.Options} {written taken lost : List Entry} {c c' : Client}
  {history history' : List Call}

theorem Abreast.happen (hserver : server.Obliging) (hserver' : server'.Obliging)
    (hhttp : format.protocol = .http)
    (h : Abreast format options handlers' written taken lost c history c' history')
    {event : Event} (hevent : event ≠ .step .check) :
    let r := c.happen (recording server handlers) history event
    let r' := c'.happen (recording server' handlers') history' event
    r.1 = r'.1 ∧ ∃ fates,
      (∀ events, c'.fates (recording server' handlers') history' (event :: events) =
        fates ++ r'.2.1.fates (recording server' handlers') r'.2.2 events) ∧
      Abreast format options handlers' (written ++ fates.map (·.1))
        (taken ++ Outbox.withFate .taken fates) (lost ++ Outbox.withFate .discarded fates)
        r.2.1 r.2.2 r'.2.1 r'.2.2 := by
  intro r r'
  obtain ⟨hclosed, hdirect, ⟨box, hrunning⟩, hanswered, hanswered'⟩ := h
  have hlater : Answered r.2.2 := hanswered.happen hserver c event
  have hlater' : Answered r'.2.2 := hanswered'.happen hserver' c' event
  obtain ⟨hresult, hends, hnext⟩ := hdirect.happen server handlers hhttp hevent hlater
  obtain ⟨hresult', hends'⟩ := hrunning.answer server' handlers' hevent
  obtain ⟨hnext', hentries, -⟩ := hrunning.leads server' event
  have hprotocol : c.sender.protocol = c'.sender.protocol :=
    hdirect.follows.protocol.trans hrunning.follows.protocol.symm
  have hsame : r.1 = r'.1 := by
    rw [hresult, hresult', answer_congr (refusal?_congr hclosed hprotocol)]
  refine ⟨hsame, _, fun events => by rw [Client.fates, hrunning.outbox], ?_⟩
  refine ⟨by rw [hends, hends', hclosed], ?_, hnext', hlater, hlater'⟩
  rw [hentries, ← hsame]
  exact hnext

theorem Abreast.run (hserver : server.Obliging) (hserver' : server'.Obliging)
    (hhttp : format.protocol = .http)
    (h : Abreast format options handlers' written taken lost c history c' history')
    {events : List Event} (hevents : .step .check ∉ events) :
    let out := recording server handlers
    let out' := recording server' handlers'
    let fates := c'.fates out' history' events
    c.results out history events = c'.results out' history' events ∧
      Abreast format options handlers' (written ++ fates.map (·.1))
        (taken ++ Outbox.withFate .taken fates) (lost ++ Outbox.withFate .discarded fates)
        (c.live out history events).1 (c.live out history events).2
        (c'.live out' history' events).1 (c'.live out' history' events).2 := by
  intro out out' fates
  induction events generalizing c history c' history' written taken lost with
  | nil =>
    simp only [fates, Client.fates, Outbox.withFate, List.filter_nil, List.map_nil,
      List.append_nil]
    exact ⟨rfl, h⟩
  | cons event events ih =>
    have hevent : event ≠ .step .check := fun heq => hevents (heq ▸ List.mem_cons_self)
    obtain ⟨hsame, first, hfates, hnext⟩ := h.happen handlers hserver hserver' hhttp hevent
    obtain ⟨hresults, hlast⟩ := ih hnext fun hrest => hevents (List.mem_cons_of_mem event hrest)
    refine ⟨congrArg₂ List.cons hsame hresults, ?_⟩
    simp only [fates, out', hfates, List.map_append, Outbox.withFate_append, ← List.append_assoc]
    exact hlast

theorem Abreast.carried (hhttp : format.protocol = .http)
    (h : Abreast format options handlers' written taken lost c history c' history')
    (hclosed : c'.closed) : Carried format taken (history'.filterMap Call.request?) := by
  obtain ⟨box, hrunning⟩ := h.running
  obtain ⟨-, flushes, haccounts⟩ := hrunning.accounted hrunning.checked
  have htaken := haccounts.conserved
  rw [hrunning.empty hclosed, List.append_nil] at htaken
  rw [htaken]
  exact haccounts.carried hhttp h.answered'

end

theorem written_congr {out : Carrier τ} {out' : Carrier υ} {c c' : Client} {t : τ} {t' : υ}
    {events : List Event} (h : c.results out t events = c'.results out' t' events) :
    c.written out t events = c'.written out' t' events := by
  induction events generalizing c c' t t' with
  | nil => rfl
  | cons event events ih =>
    obtain ⟨hfirst, hrest⟩ := List.cons.inj h
    rw [written, written, hfirst, ih hrest]

theorem withFate_of_none {fates : List (Entry × Outbox.Fate)}
    (haccepted : ∀ x ∈ fates, x.2 ≠ .refused) (hnone : Outbox.withFate .discarded fates = []) :
    Outbox.withFate .taken fates = fates.map (·.1) := by
  have hall : fates.filter (·.2 = .taken) = fates := by
    rw [List.filter_eq_self]
    intro x hx
    cases hfate : x.2 with
    | taken => rfl
    | refused => exact absurd hfate (haccepted x hx)
    | discarded =>
      rw [Outbox.withFate, List.map_eq_nil_iff, List.filter_eq_nil_iff] at hnone
      exact absurd (decide_eq_true hfate) (hnone x hx)
  rw [Outbox.withFate, hall]

theorem start_answered {server : Server} {handlers : Handlers} {codecs : Codecs}
    {settings : Settings} {c : Client} {history : List Call}
    (h : start codecs settings (recording server handlers) [] = .ok (c, history)) :
    Answered history := by
  cases start_ok h with
  | direct => exact answered_nil.hear _
  | batching => exact (answered_nil.hear _).hear _

theorem start_open {out : Carrier τ} {t : τ} {codecs : Codecs} {settings : Settings}
    {r : Client × τ} (h : start codecs settings out t = .ok r) : r.1.closed = false := by
  cases start_ok h <;> rfl

theorem start_direct {server : Server} {handlers : Handlers} {codecs : Codecs}
    {settings : Settings} {c : Client} {history : List Call}
    (h : start codecs settings (recording server handlers) [] = .ok (c, history))
    (hbatch : settings.batch = none) (hlossless : (settings.compressor codecs).Lossless) :
    Direct (settings.format codecs (valid_of_start h) hlossless) [] c history := by
  cases start_ok h with
  | @direct rotation =>
    have hfirst : Direct (settings.format codecs (valid_of_start h) hlossless) []
        { sender := settings.sender codecs rotation, outbox := none } [] :=
      ⟨rfl, ⟨rfl, .refl _⟩, .nil _⟩
    exact hfirst.extend (extends_note server handlers (.clientReady _ _ _ _) rfl [])
  | batching hoptions =>
    rw [Settings.batchOptions, hbatch] at hoptions
    cases hoptions

/-- **Batches deliver the same but for what a full queue discards.** Take a client that sends at
once and one with batches, with the same endpoints and compression, whose servers answer every
request, and compression from which the data come back. Whatever happens until both are closed, and
however the flushes lag behind the samples that set them off, both give the same results. For each
destination the texts of the requests, in their order and joined by line feeds, are the body of all
samples that the successful writes took for it, and with batches that of those among them that did
not meet a full queue. So the texts are the same where nothing is discarded: where a full queue holds
the samples up, where it has no limit, or where the flushes are over before the next event and no
write brings more samples than there is room for beside those that set a flush off. -/
theorem batches_deliver_same {server server' : Server} (hserver : server.Obliging)
    (hserver' : server'.Obliging) (handlers handlers' : Handlers) {codecs : Codecs}
    {settings : Settings} (hhttp : settings.protocol = .http)
    (hlossless : (settings.compressor codecs).Lossless) {batch : BatchSettings}
    {direct batching : Client} {history history' : List Call}
    (hdirect : start codecs { settings with batch := none } (recording server handlers) [] =
      .ok (direct, history))
    (hbatching : start codecs { settings with batch := some batch }
      (recording server' handlers') [] = .ok (batching, history'))
    {events : List Event} (hevents : .step .check ∉ events) :
    let out := recording server handlers
    let out' := recording server' handlers'
    let ended := events ++ [.step .close]
    let atOnce := direct.live out history ended
    let batched := batching.live out' history' ended
    let fates := batching.fates out' history' ended
    direct.results out history ended = batching.results out' history' ended ∧
      fates.map (·.1) = direct.written out history ended ∧
      (∀ x ∈ fates, x.2 = .taken ∨ x.2 = .discarded) ∧
      (∀ destination, ∃ text text', textTo? codecs atOnce.2 destination = some text ∧
        textTo? codecs batched.2 destination = some text' ∧
        Line.writeAll (Entry.pointsTo (fates.map (·.1)) destination) = .ok text ∧
        Line.writeAll (Entry.pointsTo (Outbox.withFate .taken fates) destination) = .ok text') ∧
      (Spares batch.options (batching.isTimely out' history' ended) ended →
        ∀ destination,
          textTo? codecs atOnce.2 destination = textTo? codecs batched.2 destination) := by
  intro out out' ended atOnce batched fates
  have hended : .step .check ∉ ended := by simpa [ended] using hevents
  have hfirst := start_direct hdirect rfl hlossless
  obtain ⟨box, options, hoptions, hrunning⟩ :=
    start_running server' hbatching rfl hlossless
  obtain rfl : batch.options = options := Option.some.inj hoptions
  have habreast : Abreast _ batch.options handlers' [] [] [] direct history batching history' :=
    ⟨(start_open hdirect).trans (start_open hbatching).symm, hfirst, ⟨box, hrunning⟩,
      start_answered hdirect, start_answered hbatching⟩
  obtain ⟨hresults, hlast⟩ := habreast.run handlers hserver hserver' hhttp hended
  obtain ⟨⟨before, hbefore⟩, -⟩ := hrunning.run server' events
  obtain ⟨-, hwritten, haccepted⟩ := hrunning.run server' ended
  have hclosed : batched.1.closed = true := by
    simp only [batched, ended, live_concat]
    exact (hbefore.close server').1
  -- both are closed, so that all that was taken has left
  have htexts (destination : Destination) : ∃ text text',
      textTo? codecs atOnce.2 destination = some text ∧
        textTo? codecs batched.2 destination = some text' ∧
        Line.writeAll (Entry.pointsTo (fates.map (·.1)) destination) = .ok text ∧
        Line.writeAll (Entry.pointsTo (Outbox.withFate .taken fates) destination) =
          .ok text' := by
    obtain ⟨text, htext, hlines⟩ := hlast.direct.carried.text hhttp destination
    obtain ⟨text', htext', hlines'⟩ := (hlast.carried hhttp hclosed).text hhttp destination
    exact ⟨text, text', htext, htext', hlines, hlines'⟩
  refine ⟨hresults, hwritten.trans (written_congr hresults).symm, ?_, htexts, ?_⟩
  · intro x hx
    have hnone := haccepted x hx
    cases hfate : x.2 with
    | taken => exact .inl rfl
    | discarded => exact .inr rfl
    | refused => exact absurd hfate hnone
  · intro hspares destination
    obtain ⟨text, text', htext, htext', hlines, hlines'⟩ := htexts destination
    rw [withFate_of_none haccepted (hrunning.spared server' handlers' hspares)] at hlines'
    obtain rfl : text = text' := Except.ok.inj (hlines.symm.trans hlines')
    rw [htext, htext']

/-- A queue of three, flushes that lag behind two samples of a write, and one that is over within a
write; two destinations, a write that is refused and one without samples. As many requests go to the
first destination as without batches, but they are cut elsewhere. -/
theorem batches_deliver_same_two_cuts :
    let settings : Settings := { endpoints := ["http://a"] }
    let batch : BatchSettings :=
      { actions := some 2, bufferLimit := some 3, dropWhenFull := true }
    let server : Server :=
      { post := fun _ _ _ => .done, ping := fun _ _ => none, now := fun _ => 0 }
    let point : String → Point := fun name => { measurement := name, fields := [("v", .int 1)] }
    let events : List Event := [
      .step (.write ⟨"x", "rp"⟩ [point "a"]),
      .writeAhead ⟨"x", "rp"⟩ [(0, point "b"), (0, point "c")], .step .flush,
      .step (.write ⟨"y", "rp"⟩ [point "d"]), .step (.write ⟨"x", "rp"⟩ [point "e", point ""]),
      .writeAhead ⟨"y", "rp"⟩ [], .step (.write ⟨"x", "rp"⟩ [point "f", point "g"])]
    ∃ direct history batching history',
      start Compression.codecs { settings with batch := none } (recording server {}) [] =
        .ok (direct, history) ∧
      start Compression.codecs { settings with batch := some batch } (recording server {}) [] =
        .ok (batching, history') ∧
      let ended := events ++ [.step .close]
      let atOnce := direct.live (recording server {}) history ended
      let batched := batching.live (recording server {}) history' ended
      (requestsTo atOnce.2 ⟨"x", "rp"⟩).length = 3 ∧
        (requestsTo batched.2 ⟨"x", "rp"⟩).length = 3 ∧
        direct.results (recording server {}) history ended =
          batching.results (recording server {}) history' ended ∧
        ∀ destination, textTo? Compression.codecs atOnce.2 destination =
          textTo? Compression.codecs batched.2 destination := by
  intro settings batch server point events
  let sender : Sender :=
    { protocol := .http
      rotation := { slots := [⟨"http://a", false⟩], nonempty := by simp }
      compressor := { codecs := Compression.codecs, algorithm := .none } }
  let direct : Client := { sender, outbox := none }
  let batching : Client :=
    { sender, outbox := some { options := batch.options, valid := rfl, phase := .armed } }
  let history : List Call := [.heard (.noted (.clientReady 1 .http .none false))]
  let history' : List Call :=
    [.heard (.noted (.enabled 2 3)), .heard (.noted (.clientReady 1 .http .none true))]
  have hvalid : Settings.validate { settings with batch := none } = .ok () := by decide +kernel
  have hvalid' : Settings.validate { settings with batch := some batch } = .ok () := by
    decide +kernel
  have hdirect : start Compression.codecs { settings with batch := none } (recording server {}) [] =
      .ok (direct, history) := by
    unfold start ofSettings
    rw [hvalid]
    rfl
  have hbatching : start Compression.codecs { settings with batch := some batch }
      (recording server {}) [] = .ok (batching, history') := by
    unfold start ofSettings
    rw [hvalid']
    rfl
  have hserver : server.Obliging := fun _ _ _ => rfl
  have hlossless : (settings.compressor Compression.codecs).Lossless := fun _ _ => rfl
  obtain ⟨hresults, -, -, -, hsame⟩ := batches_deliver_same hserver hserver {} {} rfl hlossless
    hdirect hbatching (show .step .check ∉ events by simp [events])
  have hspares : Spares batch.options (batching.isTimely (recording server {}) history'
      (events ++ [.step .close])) (events ++ [.step .close]) :=
    .fits (by decide +kernel) (by decide +kernel)
  exact ⟨direct, history, batching, history', hdirect, hbatching, by decide +kernel,
    by decide +kernel, hresults, hsame hspares⟩

/-- A limit that is not below the number of actions, and a flush that is over before the next call:
the third sample of one write is ahead of that flush, meets the full queue and is discarded. -/
theorem lagging_flush_drops_third :
    let settings : Settings := { endpoints := ["http://a"] }
    let batch : BatchSettings :=
      { actions := some 2, bufferLimit := some 2, dropWhenFull := true }
    let server : Server :=
      { post := fun _ _ _ => .done, ping := fun _ _ => none, now := fun _ => 0 }
    let point : String → Point := fun name => { measurement := name, fields := [("v", .int 1)] }
    let ended : List Event := [
      .writeAhead ⟨"x", "rp"⟩ [(0, point "a"), (0, point "b"), (0, point "c")], .step .flush,
      .step .close]
    ∃ direct history batching history',
      start Compression.codecs { settings with batch := none } (recording server {}) [] =
        .ok (direct, history) ∧
      start Compression.codecs { settings with batch := some batch } (recording server {}) [] =
        .ok (batching, history') ∧
      batch.options.actions ≤ batch.options.bufferLimit ∧
      batching.isTimely (recording server {}) history' ended ∧
      textTo? Compression.codecs (direct.live (recording server {}) history ended).2 ⟨"x", "rp"⟩ =
        some "a v=1i\nb v=1i\nc v=1i" ∧
      textTo? Compression.codecs (batching.live (recording server {}) history' ended).2
        ⟨"x", "rp"⟩ = some "a v=1i\nb v=1i" := by
  intro settings batch server point ended
  let sender : Sender :=
    { protocol := .http
      rotation := { slots := [⟨"http://a", false⟩], nonempty := by simp }
      compressor := { codecs := Compression.codecs, algorithm := .none } }
  let batching : Client :=
    { sender, outbox := some { options := batch.options, valid := rfl, phase := .armed } }
  let history' : List Call :=
    [.heard (.noted (.enabled 2 2)), .heard (.noted (.clientReady 1 .http .none true))]
  have hvalid : Settings.validate { settings with batch := none } = .ok () := by decide +kernel
  have hvalid' : Settings.validate { settings with batch := some batch } = .ok () := by
    decide +kernel
  refine ⟨{ sender, outbox := none }, [.heard (.noted (.clientReady 1 .http .none false))],
    batching, history', ?_, ?_, by decide, by decide +kernel, by decide +kernel, by decide +kernel⟩
  · unfold start ofSettings
    rw [hvalid]
    rfl
  · unfold start ofSettings
    rw [hvalid']
    rfl

end SeriesIngest.Client
