import SeriesIngest.Compression.Codecs
import SeriesIngest.Proofs.Client.Stable
import SeriesIngest.Proofs.Client.Start
import SeriesIngest.Proofs.Endpoint.Flags

/-! The rotation of a client is what its history says. The counter has counted the requests that
were brought to the carrier, and an endpoint is down when the last news of it says so. -/
namespace SeriesIngest.Client

def Call.isPosted : Call → Bool
  | .posted .. => true
  | _ => false

/-- News of an endpoint: its URL, and whether it is down. A request brings news only when it could
not reach the endpoint, a ping always. -/
def Call.news? : Call → Option (String × Bool)
  | .posted url _ (.failed (.unreachable ..)) => some (url, true)
  | .pinged url fault => some (url, fault.isSome)
  | _ => none

def lastNews? (history : List Call) (url : String) : Option Bool :=
  (history.filterMap Call.news?).reverse.lookup url

/-- What may happen when every call can break off. A ping that does ends its check after the
endpoints that were asked, and leaves no trace itself. -/
inductive Occasion where
  | event (event : Event)
  | brokenCheck (asked : Nat)

def meet (c : Client) (out : Carrier τ) (t : τ) : Occasion → Client × τ
  | .event event => (c.happen out t event).2
  | .brokenCheck asked =>
    let (_, sender, t) := c.sender.check out (c.sender.rotation.urls.take asked) t
    ({ c with sender }, t)

def meetAll (c : Client) (out : Carrier τ) (t : τ) : List Occasion → Client × τ
  | [] => (c, t)
  | occasion :: occasions =>
    (c.meet out t occasion).1.meetAll out (c.meet out t occasion).2 occasions

/-- Writes that are refused or bring nothing, and flushes of an empty queue. -/
def Occasion.isIdle (c : Client) : Occasion → Bool
  | .event (.step (.write _ points)) => points.isEmpty || (c.refusal? points).isSome
  | .event (.writeAhead _ puts) => puts.isEmpty || (c.refusal? (puts.map (·.2))).isSome
  | .event (.step .flush) => c.outbox.all (·.queue.isEmpty)
  | _ => false

section

variable {out : Carrier τ} {P : Sender → τ → Prop} {c : Client} {t : τ}

theorem Has.meet (hP : Has P (c, t)) (h : Sender.Stable out P) (occasion : Occasion) :
    Has P (c.meet out t occasion) := by
  cases occasion with
  | event event => exact hP.happen h event
  | brokenCheck asked => exact hP.check h (c.sender.rotation.urls.take asked)

theorem Has.meetAll (hP : Has P (c, t)) (h : Sender.Stable out P) (occasions : List Occasion) :
    Has P (c.meetAll out t occasions) := by
  induction occasions generalizing c t with
  | nil => exact hP
  | cons occasion occasions ih => exact ih (hP.meet h occasion)

theorem write_idle {points : List Point} (h : points.isEmpty || (c.refusal? points).isSome)
    (destination : Destination) : (c.write out destination points t).2 = (c, t) := by
  unfold Client.write
  cases hclosed : c.closed with
  | true => rfl
  | false =>
    cases hfault : points.findSome? c.sender.protocol.fault? with
    | some fault => rfl
    | none =>
      have hempty : points = [] := by simpa [refusal?, hclosed, hfault] using h
      subst hempty
      obtain ⟨sender, outbox, closed⟩ := c
      obtain rfl : closed = false := hclosed
      cases outbox <;> rfl

theorem flush_idle (box : Outbox) (h : box.queue = []) (state : Sender × τ) :
    (box.flush (Sender.outside out) state).2 = state := by
  have hsend : (Sender.outside out).send (Entry.pack box.queue).1 state = (.done, state) := by
    rw [h]
    rfl
  unfold Outbox.flush
  split
  · rw [Outbox.write_of_done hsend, h]
    rfl
  · rfl

theorem meet_idle {occasion : Occasion} (h : occasion.isIdle c) :
    (c.meet out t occasion).1.sender = c.sender ∧ (c.meet out t occasion).2 = t := by
  cases occasion with
  | brokenCheck asked => cases h
  | event event =>
    cases event with
    | drop => cases h
    | writeAhead destination puts =>
      simp only [meet, Client.happen]
      split
      · exact ⟨rfl, rfl⟩
      · rename_i haccepted houtbox
        have hwrite : (c.write out destination (puts.map (·.2)) t).2 = (c, t) :=
          write_idle (by simpa [Occasion.isIdle] using h) destination
        exact ⟨congrArg (·.1.sender) hwrite, congrArg Prod.snd hwrite⟩
      · rename_i haccepted houtbox
        have hempty : puts = [] := by simpa [Occasion.isIdle, haccepted] using h
        simp only [onOutbox, houtbox, hempty]
        exact ⟨rfl, rfl⟩
    | step step =>
      cases step with
      | check => cases h
      | close => cases h
      | write destination points =>
        have hwrite : (c.write out destination points t).2 = (c, t) := write_idle h destination
        exact ⟨congrArg (·.1.sender) hwrite, congrArg Prod.snd hwrite⟩
      | flush =>
        simp only [meet, Client.happen, perform, Client.flush, onOutbox]
        split
        · exact ⟨rfl, rfl⟩
        · rename_i box hbox
          have hflush : (box.flush (Sender.outside out) (c.sender, t)).2 = (c.sender, t) :=
            flush_idle box (by simpa [Occasion.isIdle, hbox] using h) _
          exact ⟨congrArg Prod.fst hflush, congrArg Prod.snd hflush⟩

end

/-! Rotations told by calls. -/

/-- What a call does to a rotation: a request takes a turn, and news set a flag. -/
def heed (r : Rotation) (call : Call) : Rotation :=
  let r := if call.isPosted then r.advance else r
  match call.news? with
  | some (url, down) => r.setDown url down
  | none => r

theorem urls_heed (r : Rotation) (call : Call) : (heed r call).urls = r.urls := by
  unfold heed
  cases call.news? <;> cases call.isPosted <;> simp

theorem counter_heed (r : Rotation) (call : Call) :
    (heed r call).counter = if call.isPosted then r.counter + 1 else r.counter := by
  unfold heed
  cases call.news? <;> cases call.isPosted <;> rfl

theorem slots_heed (r : Rotation) {call : Call} (h : call.news? = none) :
    (heed r call).slots = r.slots := by
  unfold heed
  rw [h]
  cases call.isPosted <;> rfl

theorem isDown_heed {r : Rotation} {url : String} (h : url ∈ r.urls) (call : Call) :
    (heed r call).isDown url = (call.news?.toList.lookup url).getD (r.isDown url) := by
  have hturn (asked : String) (down : Bool) :
      ((if call.isPosted then r.advance else r).setDown asked down).isDown url =
        if asked = url then down else r.isDown url := by
    split
    · exact Rotation.isDown_setDown r.advance h asked down
    · exact Rotation.isDown_setDown r h asked down
  unfold heed
  cases call.news? with
  | none => cases call.isPosted <;> rfl
  | some news =>
    dsimp only
    rw [hturn, Option.toList_some, List.lookup_cons]
    by_cases hurl : news.1 = url
    · simp [hurl]
    · have hne : (url == news.1) = false := beq_false_of_ne (Ne.symm hurl)
      simp [hurl, hne]

theorem lastNews?_cons (call : Call) (calls : List Call) (url : String) :
    lastNews? (call :: calls) url = (lastNews? calls url).or (call.news?.toList.lookup url) := by
  unfold lastNews?
  cases hnews : call.news? <;> simp [hnews, List.lookup_append]

theorem isDown_foldl_heed {r : Rotation} {url : String} (h : url ∈ r.urls) (calls : List Call) :
    (calls.foldl heed r).isDown url = (lastNews? calls url).getD (r.isDown url) := by
  induction calls generalizing r with
  | nil => rfl
  | cons call calls ih =>
    rw [List.foldl_cons, ih (by rwa [urls_heed]), isDown_heed h, lastNews?_cons]
    cases lastNews? calls url <;> rfl

theorem counter_foldl_heed (r : Rotation) (calls : List Call) :
    (calls.foldl heed r).counter.toNat =
      (r.counter.toNat + calls.countP Call.isPosted) % 2 ^ 64 := by
  induction calls generalizing r with
  | nil => simp [Nat.mod_eq_of_lt (UInt64.toNat_lt _)]
  | cons call calls ih =>
    rw [List.foldl_cons, ih, counter_heed, List.countP_cons]
    cases call.isPosted with
    | true => simp; omega
    | false => simp

theorem slots_foldl_heed (r : Rotation) {calls : List Call}
    (h : ∀ call ∈ calls, call.news? = none) : (calls.foldl heed r).slots = r.slots := by
  induction calls generalizing r with
  | nil => rfl
  | cons call calls ih =>
    rw [List.foldl_cons, ih _ fun other hother => h other (List.mem_cons_of_mem call hother)]
    exact slots_heed r (h call List.mem_cons_self)

variable {server : Server} {handlers : Handlers} {codecs : Codecs} {settings : Settings}
  {before history : List Call}
  {r : Rotation} {s s' : Sender}

/-- Since some moment, the rotation has done what the calls say. -/
def Heeds (r : Rotation) (before : List Call) (s : Sender) (history : List Call) : Prop :=
  ∃ calls, history = before ++ calls ∧ s.rotation = calls.foldl heed r

theorem Heeds.call (h : Heeds r before s history) (call : Call)
    (hs : s'.rotation = heed s.rotation call) : Heeds r before s' (history ++ [call]) := by
  obtain ⟨calls, rfl, hrotation⟩ := h
  refine ⟨calls ++ [call], by simp, ?_⟩
  rw [hs, hrotation, List.foldl_append]
  rfl

theorem Heeds.noteAll (h : Heeds r before s history) (notices : List Notice) :
    Heeds r before s (Sender.noteAll (recording server handlers).toListener notices history) := by
  unfold Sender.noteAll
  induction notices generalizing history with
  | nil => exact h
  | cons notice notices ih => exact ih (h.call (.heard (.noted notice)) rfl)

theorem Heeds.settle (h : Heeds r before s history) (request : Request)
    (outcome : Outcome DeliveryFault) :
    let call : Call := .posted s.rotation.next.1 request outcome
    let settled := Sender.settle { s with rotation := s.rotation.advance }
      (recording server handlers) s.rotation.next.1 outcome (history ++ [call])
    Heeds r before settled.2.1 settled.2.2 := by
  intro call settled
  cases outcome with
  | done => exact h.call _ rfl
  | panicked panic => exact h.call _ rfl
  | failed fault =>
    cases fault with
    | unreachable endpoint reason => exact (h.call call rfl).noteAll _
    | status code text => exact h.call _ rfl
    | timeout => exact h.call _ rfl
    | other text => exact h.call _ rfl

theorem stable_heeds (r : Rotation) (before : List Call) :
    Sender.Stable (recording server handlers) (Heeds r before) where
  note s t notice h := h.call _ rfl
  dropped s t entry h := by
    simp only [recording, Listener.recording]
    split
    · exact h.call _ rfl
    · exact h
  failed s t fault points h := by
    simp only [recording, Listener.recording]
    split
    · exact h
    · exact h.call _ rfl
  close s t h := h.call .closed rfl
  compress s t compressor h := h
  post s t destination body h := h.settle _ _
  ping s t url h := h.call _ rfl

theorem start_heeds {c : Client}
    (h : start codecs settings (recording server handlers) [] = .ok (c, history)) :
    ∃ r, Rotation.ofUrls settings.endpoints = .ok r ∧ Has (Heeds r []) (c, history) := by
  have hfirst (s : Sender) : Heeds s.rotation [] s [] := ⟨[], rfl, rfl⟩
  cases start_ok h with
  | @direct rotation _ hurls =>
    exact ⟨rotation, hurls, (hfirst (settings.sender codecs rotation)).call _ rfl⟩
  | @batching rotation box _ _ _ _ hurls =>
    exact ⟨rotation, hurls, ((hfirst (settings.sender codecs rotation)).call
      (.heard (.noted _)) rfl).call _ rfl⟩

/-- **Turns and flags are exact.** Whatever happens to a client, direct or with batches, and
however its requests and pings are answered or break off: the counter is the number of requests
brought to the carrier, and a URL of the settings is down exactly when the last news of it says so.
A write that is refused or brings no sample, or a flush of nothing, takes no turn and calls no one.
What brings no news, such as an answered request, one that failed in another way or one that broke
off, leaves every flag as it is. -/
theorem turns_and_flags_exact {c : Client}
    (hstart : start codecs settings (recording server handlers) [] = .ok (c, history))
    (occasions : List Occasion) :
    let out := recording server handlers
    let now := c.meetAll out history occasions
    now.1.sender.rotation.counter.toNat = now.2.countP Call.isPosted % 2 ^ 64 ∧
      (∀ url ∈ settings.endpoints,
        now.1.sender.rotation.isDown url ↔ lastNews? now.2 url = some true) ∧
      ∀ occasion, let next := now.1.meet out now.2 occasion
        (occasion.isIdle now.1 → next.1.sender.rotation = now.1.sender.rotation ∧ next.2 = now.2) ∧
        ∃ calls, next.2 = now.2 ++ calls ∧ ((∀ call ∈ calls, call.news? = none) →
          next.1.sender.rotation.slots = now.1.sender.rotation.slots) := by
  intro out now
  obtain ⟨r, hr, hbegun⟩ := start_heeds hstart
  obtain ⟨calls, hhistory, hrotation⟩ := hbegun.meetAll (stable_heeds r []) occasions
  obtain rfl : now.2 = calls := hhistory
  have hurls : r.urls = settings.endpoints := Rotation.urls_of_ofUrls r hr
  refine ⟨?_, fun url hurl => ?_, fun occasion => ⟨fun hidle => ?_, ?_⟩⟩
  · have hcounter : r.counter.toNat = 0 := by rw [(Rotation.ofUrls_ok r hr).2]; rfl
    rw [hrotation, counter_foldl_heed, hcounter, Nat.zero_add]
  · rw [hrotation, isDown_foldl_heed (hurls ▸ hurl), Rotation.isDown_ofUrls r hr]
    cases lastNews? now.2 url <;> simp
  · have hidled : (now.1.meet out now.2 occasion).1.sender = now.1.sender ∧
        (now.1.meet out now.2 occasion).2 = now.2 := meet_idle hidle
    exact ⟨congrArg Sender.rotation hidled.1, hidled.2⟩
  · have hfirst : Has (Heeds now.1.sender.rotation now.2) now := ⟨[], by simp, rfl⟩
    obtain ⟨calls, hlater, hheeded⟩ := hfirst.meet (stable_heeds _ _) occasion
    refine ⟨calls, hlater, fun hnews => ?_⟩
    rw [hheeded, slots_foldl_heed _ hnews]

/-- A URL that stands in two slots, and batches. The first request finds it out of reach, the second
breaks off and the third fails otherwise. A check that breaks off after two pings brings it back and
flags the other. A flush of nothing follows. -/
theorem turns_and_flags_exact_batches :
    let settings : Settings :=
      { endpoints := ["http://a", "http://b", "http://a"], batch := some { actions := some 2 } }
    let server : Server :=
      { post := fun history _ request =>
          if request.destination.database = "x" then .failed (.unreachable "http://a" "refused")
          else if history.length < 6 then .panicked .other else .failed .timeout
        ping := fun _ url => if url = "http://b" then some .timeout else none
        now := fun _ => 0 }
    let point : String → Point := fun name => { measurement := name, fields := [("v", .int 1)] }
    let occasions : List Occasion := [
      .event (.step (.write ⟨"x", "rp"⟩ [point "a", point "b"])),
      .event (.step (.write ⟨"y", "rp"⟩ [point "c", point "d", point ""])),
      .event (.writeAhead ⟨"y", "rp"⟩ [(0, point "e"), (1, point "f")]),
      .event (.step .flush), .brokenCheck 2]
    ∃ c history, start Compression.codecs settings (recording server {}) [] = .ok (c, history) ∧
      let now := c.meetAll (recording server {}) history occasions
      let flushed := now.1.meet (recording server {}) now.2 (.event (.step .flush))
      now.1.sender.rotation.counter.toNat = 3 ∧
        (∀ url ∈ settings.endpoints,
          now.1.sender.rotation.isDown url ↔ lastNews? now.2 url = some true) ∧
        lastNews? now.2 "http://a" = some false ∧ lastNews? now.2 "http://b" = some true ∧
        flushed.1.sender.rotation = now.1.sender.rotation ∧ flushed.2 = now.2 := by
  intro settings server point occasions
  let c : Client :=
    { sender :=
        { protocol := .http
          rotation :=
            { slots := [⟨"http://a", false⟩, ⟨"http://b", false⟩, ⟨"http://a", false⟩]
              nonempty := by simp }
          compressor := { codecs := Compression.codecs, algorithm := .none } }
      outbox := some { options := { actions := 2 }, valid := rfl, phase := .armed } }
  let history : List Call :=
    [.heard (.noted (.enabled 2 10000)), .heard (.noted (.clientReady 3 .http .none true))]
  have hvalid : settings.validate = .ok () := by decide +kernel
  have hstart : start Compression.codecs settings (recording server {}) [] = .ok (c, history) := by
    unfold start ofSettings
    rw [hvalid]
    rfl
  obtain ⟨hcounter, hflags, hnext⟩ := turns_and_flags_exact hstart occasions
  have hposted : (c.meetAll (recording server {}) history occasions).2.countP Call.isPosted = 3 := by
    decide +kernel
  rw [hposted] at hcounter
  have hfirst : lastNews? (c.meetAll (recording server {}) history occasions).2 "http://a" =
      some false := by decide +kernel
  have hsecond : lastNews? (c.meetAll (recording server {}) history occasions).2 "http://b" =
      some true := by decide +kernel
  have hidle : (Occasion.event (.step .flush)).isIdle
      (c.meetAll (recording server {}) history occasions).1 := by decide +kernel
  obtain ⟨hrotation, hcalls⟩ := (hnext (.event (.step .flush))).1 hidle
  exact ⟨c, history, hstart, hcounter, hflags, hfirst, hsecond, hrotation, hcalls⟩

end SeriesIngest.Client
