import SeriesIngest.Proofs.Client.Delivery
import SeriesIngest.Proofs.Outbox.Events
import SeriesIngest.Proofs.Outbox.Flush

/-! The samples of a client, kept account of: each flush brought its samples to their
destinations or was reported, and every move of the outbox keeps these accounts. -/
namespace SeriesIngest.Client

/-- The entries that left together, the requests that took them, and what went wrong. -/
structure Flush where
  entries : List Entry
  posts : List Post
  fault : Option WriteFault

namespace Flush

def destinations (f : Flush) : List Destination := (f.entries.map (·.destination)).eraseDups

def report (handlers : Handlers) (f : Flush) : List Call :=
  if handlers.failed.isSome then
    (f.fault.map fun fault => .heard (.failed fault (f.entries.map (·.point)))).toList
  else []

def calls (handlers : Handlers) (f : Flush) : List Call :=
  f.posts.map Post.call ++ f.report handlers

/-- The flush came, after requests that were all answered, to a destination with a record that has no
wire form: one of its lengths is beyond its word. -/
def IsOversize (format : Sender.Format) (f : Flush) : Prop :=
  format.protocol = .grpc ∧ (∀ post ∈ f.posts, post.outcome = .done) ∧
    ∃ d, f.destinations[f.posts.length]? = some d ∧
      ∃ now, ∃ r ∈ Record.all now (Entry.pointsTo f.entries d), ¬ r.Sized

/-- A flush without a fault made one request for each destination, with all that goes there, and
all were answered. The fault of another is that of one of its requests, unless it met a record
without a wire form. -/
structure Sound (format : Sender.Format) (f : Flush) : Prop where
  delivered : f.fault = none → List.Forall₂
    (fun d post => post.request.Brings format (d, Entry.pointsTo f.entries d) ∧
      post.outcome = .done)
    f.destinations f.posts
  reported : ∀ fault, f.fault = some fault → ¬ f.IsOversize format →
    (∃ post ∈ f.posts, ∃ cause, post.outcome = .failed cause ∧ fault = .delivery cause) ∨
    (∃ post ∈ f.posts, ∃ panic, post.outcome = .panicked panic ∧ fault = .panicked panic.message)
  oversize : f.IsOversize format →
    ∃ n, 2 ^ 31 ≤ n ∧ f.fault = some (.encoding (.malformed (.oversize n)))

end Flush

theorem Went.delivered {format : Sender.Format} {parcel : Parcel} {posts : List Post}
    {outcome : Outcome WriteFault} (h : Went format parcel posts outcome)
    (hdone : outcome = .done) :
    ∃ post, posts = [post] ∧ post.request.Brings format parcel ∧ post.outcome = .done := by
  cases h with
  | oversize => cases hdone
  | @posted post hbrings =>
    refine ⟨post, rfl, hbrings, ?_⟩
    unfold Post.verdict at hdone
    split at hdone
    · assumption
    · cases hdone
    · cases hdone

theorem Sent.delivered {format : Sender.Format} {parcels : List Parcel} {posts : List Post}
    {outcome : Outcome WriteFault} (h : Sent format parcels posts outcome)
    (hdone : outcome = .done) :
    List.Forall₂ (fun parcel post => post.request.Brings format parcel ∧ post.outcome = .done)
      parcels posts := by
  induction h with
  | nil => exact .nil
  | next hwent _ ih =>
    obtain ⟨post, rfl, hbrings, houtcome⟩ := hwent.delivered rfl
    exact .cons ⟨hbrings, houtcome⟩ (ih hdone)
  | stop _ hfailed => exact absurd hdone hfailed

theorem Post.verdict_of_done {post : Post} (h : post.outcome = .done) : post.verdict = .done := by
  rw [verdict, h]

theorem Sent.fault {format : Sender.Format} {parcels : List Parcel} {posts : List Post}
    {outcome : Outcome WriteFault} (h : Sent format parcels posts outcome) {fault : WriteFault}
    (hfault : outcome.fault? = some fault) :
    (∃ post ∈ posts, post.verdict.fault? = some fault) ∨
      format.protocol = .grpc ∧ (∀ post ∈ posts, post.outcome = .done) ∧
        ∃ parcel, parcels[posts.length]? = some parcel ∧
          ∃ now, ∃ r ∈ Record.all now parcel.2, ¬ r.Sized := by
  induction h with
  | nil => cases hfault
  | next hwent _ ih =>
    obtain ⟨first, rfl, -, hfirst⟩ := hwent.delivered rfl
    rcases ih hfault with ⟨post, hpost, hverdict⟩ | ⟨hprotocol, hdone, parcel, hparcel, hrecord⟩
    · exact .inl ⟨post, List.mem_append_right _ hpost, hverdict⟩
    · refine .inr ⟨hprotocol, ?_, parcel, by simpa using hparcel, hrecord⟩
      intro post hpost
      rcases List.mem_append.1 hpost with hpost | hpost
      · rwa [List.mem_singleton.1 hpost]
      · exact hdone post hpost
  | stop hwent _ =>
    cases hwent with
    | @posted post _ => exact .inl ⟨post, List.mem_singleton_self post, hfault⟩
    | @oversize now r n hprotocol hr hsize hn =>
      exact .inr ⟨hprotocol, by simp, _, rfl, now, r, hr, hsize⟩

theorem Sent.oversize {format : Sender.Format} {parcels : List Parcel} {posts : List Post}
    {outcome : Outcome WriteFault} (h : Sent format parcels posts outcome)
    (hdone : ∀ post ∈ posts, post.outcome = .done) {parcel : Parcel}
    (hparcel : parcels[posts.length]? = some parcel) :
    ∃ n, 2 ^ 31 ≤ n ∧ outcome = .failed (.encoding (.malformed (.oversize n))) := by
  induction h with
  | nil => cases hparcel
  | next hwent _ ih =>
    obtain ⟨first, rfl, -, -⟩ := hwent.delivered rfl
    exact ih (fun post hpost => hdone post (List.mem_append_right _ hpost)) (by simpa using hparcel)
  | stop hwent hfailed =>
    cases hwent with
    | @posted post _ =>
      exact absurd (Post.verdict_of_done (hdone post (List.mem_singleton_self post))) hfailed
    | @oversize now r n hprotocol hr hsize hn => exact ⟨n, hn, rfl⟩

theorem sound_of_sent {format : Sender.Format} {entries : List Entry} {posts : List Post}
    {outcome : Outcome WriteFault} (h : Sent format (Entry.pack entries).1 posts outcome) :
    Flush.Sound format ⟨entries, posts, outcome.fault?⟩ where
  delivered hnone := by
    have hdone : outcome = .done := by cases outcome <;> simp_all [Outcome.fault?]
    have hsent := h.delivered hdone
    rw [Entry.pack_parcels, List.forall₂_map_left_iff] at hsent
    exact hsent
  reported fault hfault hsized := by
    rcases h.fault hfault with
      ⟨post, hpost, hverdict⟩ | ⟨hprotocol, hdone, parcel, hparcel, hrecord⟩
    · unfold Post.verdict at hverdict
      split at hverdict
      · cases hverdict
      · cases hverdict
        exact .inl ⟨post, hpost, _, by assumption, rfl⟩
      · cases hverdict
        exact .inr ⟨post, hpost, _, by assumption, rfl⟩
    · rw [Entry.pack_parcels, List.getElem?_map, Option.map_eq_some_iff] at hparcel
      obtain ⟨d, hd, rfl⟩ := hparcel
      exact absurd ⟨hprotocol, hdone, d, hd, hrecord⟩ hsized
  oversize := by
    rintro ⟨-, hdone, d, hd, -⟩
    have hparcel : (Entry.pack entries).1[posts.length]? =
        some (d, Entry.pointsTo entries d) := by
      rw [Entry.pack_parcels, List.getElem?_map, Option.map_eq_some_iff]
      exact ⟨d, hd, rfl⟩
    obtain ⟨n, hn, rfl⟩ := h.oversize hdone hparcel
    exact ⟨n, hn, rfl⟩

def Call.isOfFlush : Call → Bool
  | .posted .. => true
  | .heard (.failed ..) => true
  | _ => false

def Call.discarded? : Call → Option Entry
  | .heard (.dropped entry) => some entry
  | _ => none

theorem Extends.filter {history later calls : List Call} (h : Extends history later calls) :
    later.filter Call.isOfFlush =
      history.filter Call.isOfFlush ++ calls.filter Call.isOfFlush := by
  have hloud (calls : List Call) :
      (calls.filter Call.isLoud).filter Call.isOfFlush = calls.filter Call.isOfFlush := by
    rw [List.filter_filter]
    congr 1
    funext call
    unfold Call.isOfFlush Call.isLoud
    split <;> rfl
  rw [← hloud later, h, List.filter_append, hloud]

theorem Extends.filterMap {history later calls : List Call} (h : Extends history later calls) :
    later.filterMap Call.discarded? =
      history.filterMap Call.discarded? ++ calls.filterMap Call.discarded? := by
  apply h.filterMap_loud
  intro call hquiet
  cases call with
  | posted url request outcome => rfl
  | pinged url fault => rfl
  | closed => rfl
  | heard what =>
    cases what with
    | dropped entry => cases hquiet
    | failed fault points => rfl
    | noted notice => rfl

theorem Extends.complete {history later calls : List Call} (h : Extends history later calls)
    (hhistory : ∀ points text, .heard (.noted (.nothingEncodable points text)) ∉ history)
    (hcalls : ∀ points text, .heard (.noted (.nothingEncodable points text)) ∉ calls)
    (points : Nat) (text : String) : .heard (.noted (.nothingEncodable points text)) ∉ later := by
  intro hmem
  have hloud : (Call.heard (.noted (.nothingEncodable points text))).isLoud := rfl
  have hlater := List.mem_filter.2 ⟨hmem, hloud⟩
  rw [h, List.mem_append] at hlater
  rcases hlater with hmem | hmem
  · exact hhistory points text (List.mem_filter.1 hmem).1
  · exact hcalls points text hmem

/-- How the entries of a client, its flushes and its history agree. No parcel was left out. -/
structure Accounts (format : Sender.Format) (handlers : Handlers) (taken lost : List Entry)
    (flushes : List Flush) (box : Outbox) (history : List Call) : Prop where
  conserved : taken = flushes.flatMap (·.entries) ++ box.queue
  delivered : history.filter Call.isOfFlush = flushes.flatMap (Flush.calls handlers)
  sound : ∀ f ∈ flushes, f.Sound format
  told : history.filterMap Call.discarded? = if handlers.dropped then lost else []
  counted : box.counts.dropped = lost.length
  complete : ∀ points text, .heard (.noted (.nothingEncodable points text)) ∉ history

variable {format : Sender.Format} {handlers : Handlers} {taken lost : List Entry}
  {flushes : List Flush} {box : Outbox} {history later : List Call}

theorem Accounts.extend (h : Accounts format handlers taken lost flushes box history)
    (hlater : Extends history later []) :
    Accounts format handlers taken lost flushes box later where
  conserved := h.conserved
  delivered := by rw [hlater.filter, h.delivered, List.filter_nil, List.append_nil]
  sound := h.sound
  told := by rw [hlater.filterMap, h.told, List.filterMap_nil, List.append_nil]
  counted := h.counted
  complete := hlater.complete h.complete (by simp)

theorem Accounts.note (h : Accounts format handlers taken lost flushes box history)
    (server : Server) (notice : Notice) (hquiet : isQuiet notice) :
    Accounts format handlers taken lost flushes box
      ((recording server handlers).note notice history) :=
  h.extend (extends_note server handlers notice hquiet history)

theorem Accounts.enter (h : Accounts format handlers taken lost flushes box history)
    (phase : Outbox.Phase) :
    Accounts format handlers taken lost flushes { box with phase } history :=
  ⟨h.conserved, h.delivered, h.sound, h.told, h.counted, h.complete⟩

theorem Accounts.take (h : Accounts format handlers taken lost flushes box history)
    (entry : Entry) :
    Accounts format handlers (taken ++ [entry]) lost flushes (box.accept entry) history :=
  ⟨by simp [Outbox.accept, h.conserved], h.delivered, h.sound, h.told, h.counted, h.complete⟩

theorem Accounts.discard (h : Accounts format handlers taken lost flushes box history)
    {entry : Entry}
    (hlater : Extends history later (if handlers.dropped then [.heard (.dropped entry)] else []))
    (hdropped : box'.counts.dropped = box.counts.dropped + 1) (hqueue : box'.queue = box.queue) :
    Accounts format handlers taken (lost ++ [entry]) flushes box' later where
  conserved := by rw [hqueue, h.conserved]
  delivered := by
    rw [hlater.filter, h.delivered]
    cases handlers.dropped <;> simp [Call.isOfFlush]
  sound := h.sound
  told := by
    rw [hlater.filterMap, h.told]
    cases handlers.dropped <;> simp [Call.discarded?]
  counted := by rw [hdropped, h.counted, List.length_append, List.length_singleton]
  complete := hlater.complete h.complete (by cases handlers.dropped <;> simp)

theorem isOfFlush_calls (handlers : Handlers) (f : Flush) :
    (f.calls handlers).filter Call.isOfFlush = f.calls handlers := by
  rw [List.filter_eq_self]
  intro call hcall
  rcases List.mem_append.1 hcall with hpost | hreport
  · obtain ⟨post, -, rfl⟩ := List.mem_map.1 hpost
    rfl
  · cases hfault : f.fault <;> simp [Flush.report, hfault] at hreport
    rw [hreport.2]
    rfl

theorem discarded?_calls (handlers : Handlers) (f : Flush) :
    (f.calls handlers).filterMap Call.discarded? = [] := by
  rw [List.filterMap_eq_nil_iff]
  intro call hcall
  have hflush := (isOfFlush_calls handlers f).symm ▸ hcall
  have hofFlush := (List.mem_filter.1 hflush).2
  unfold Call.isOfFlush at hofFlush
  split at hofFlush
  · rfl
  · rfl
  · cases hofFlush

theorem Accounts.write (h : Accounts format handlers taken lost flushes box history)
    {f : Flush} (hentries : f.entries = box.queue) (hsound : f.Sound format)
    (hlater : Extends history later (f.calls handlers)) (hqueue : box'.queue = [])
    (hdropped : box'.counts.dropped = box.counts.dropped) :
    Accounts format handlers taken lost (flushes ++ [f]) box' later where
  conserved := by simp [h.conserved, hentries, hqueue]
  delivered := by
    rw [hlater.filter, h.delivered, isOfFlush_calls, List.flatMap_append]
    simp
  sound := by
    intro g hg
    rcases List.mem_append.1 hg with hg | hg
    · exact h.sound g hg
    · obtain rfl := List.mem_singleton.1 hg
      exact hsound
  told := by rw [hlater.filterMap, h.told, discarded?_calls, List.append_nil]
  counted := by rw [hdropped, h.counted]
  complete := by
    refine hlater.complete h.complete fun points text hmem => ?_
    rw [← isOfFlush_calls] at hmem
    cases (List.mem_filter.1 hmem).2

theorem report_spec (server : Server) (handlers : Handlers) (fault : WriteFault)
    (points : List Point) (sender : Sender) (history : List Call) :
    ∃ later, Outbox.report (Sender.outside (recording server handlers)) fault points
        (sender, history) = (sender, later) ∧
      Extends history later
        (if handlers.failed.isSome then [.heard (.failed fault points)] else []) := by
  have hnoted := extends_note server handlers (.flushFailed points.length fault) rfl history
  unfold Outbox.report
  cases hfailed : handlers.failed with
  | none =>
    refine ⟨_, ?_, hnoted⟩
    simp [Sender.outside, recording, Listener.recording, hfailed]
  | some answer =>
    have htold : Extends
        ((recording server handlers).note (.flushFailed points.length fault) history)
        (history ++ [.heard (.noted (.flushFailed points.length fault))] ++
          [.heard (.failed fault points)]) [.heard (.failed fault points)] := .loud rfl
    have hreport := hnoted.trans htold
    cases hanswer : answer fault points with
    | none =>
      refine ⟨_, ?_, hreport⟩
      simp [Sender.outside, recording, Listener.recording, hfailed, hanswer]
    | some panic =>
      have hpanicked := extends_note server handlers (.handlerPanicked panic.message) rfl
        (history ++ [.heard (.noted (.flushFailed points.length fault))] ++
          [.heard (.failed fault points)])
      refine ⟨_, ?_, hreport.trans hpanicked⟩
      simp [Sender.outside, recording, Listener.recording, hfailed, hanswer]

theorem sendable_pack {entries : List Entry}
    (h : ∀ e ∈ entries, format.protocol.fault? e.point = none) :
    ∀ parcel ∈ (Entry.pack entries).1, Sendable format parcel := by
  intro parcel hparcel
  refine ⟨Entry.pack_nonempty entries parcel hparcel, ?_⟩
  rw [Entry.pack_parcels] at hparcel
  obtain ⟨d, -, rfl⟩ := List.mem_map.1 hparcel
  intro p hp
  obtain ⟨e, he, rfl⟩ := List.mem_map.1 hp
  exact h e (List.mem_filter.1 he).1

theorem write_spec (server : Server) (handlers : Handlers) {sender : Sender}
    (hs : sender.Follows format)
    (hchecked : ∀ e ∈ box.queue, format.protocol.fault? e.point = none) (history : List Call) :
    let r := box.write (Sender.outside (recording server handlers)) (sender, history)
    ∃ f : Flush, f.entries = box.queue ∧ f.Sound format ∧ Extends history r.2.2 (f.calls handlers) ∧
      r.2.1.Follows format ∧ r.1.counts.dropped = box.counts.dropped := by
  obtain ⟨posts, hsent, hfollows, hextends⟩ :=
    sendAll_spec server handlers hs (sendable_pack hchecked) history
  have hsend : (Sender.outside (recording server handlers)).send (Entry.pack box.queue).1
      (sender, history) =
        sender.sendAll (recording server handlers) (Entry.pack box.queue).1 history := rfl
  generalize sender.sendAll _ _ history = result at hsent hfollows hextends hsend
  obtain ⟨outcome, sender', later⟩ := result
  refine ⟨⟨box.queue, posts, outcome.fault?⟩, rfl, sound_of_sent hsent, ?_⟩
  cases hfault : outcome.fault? with
  | none =>
    have hdone : outcome = .done := by cases outcome <;> simp_all [Outcome.fault?]
    subst hdone
    rw [Outbox.write_of_done hsend]
    have hcalls : (Flush.mk box.queue posts (Outcome.fault? .done)).calls handlers =
        posts.map Post.call := by
      simp [Flush.calls, Flush.report, Outcome.fault?]
    rw [← hfault, hcalls]
    dsimp only
    split
    · exact ⟨hextends, hfollows, rfl⟩
    · have hnoted := extends_note server handlers
        (.flushed box.queue.length (Entry.pack box.queue).1.length) rfl later
      have hlast := hextends.trans hnoted
      rw [List.append_nil] at hlast
      exact ⟨hlast, hfollows, rfl⟩
  | some fault =>
    obtain ⟨last, hreport, htold⟩ := report_spec server handlers fault
      (box.queue.map (·.point)) sender' later
    rw [Outbox.write_of_fault hsend hfault, hreport]
    exact ⟨hextends.trans htold, hfollows, rfl⟩

/-- The accounts of a state, for some flushes that led to it. Only checked entries come in. -/
def Accounted (format : Sender.Format) (handlers : Handlers) (taken lost : List Entry)
    (state : Outbox × Sender × List Call) : Prop :=
  (∀ e ∈ taken, format.protocol.fault? e.point = none) →
    state.2.1.Follows format ∧
      ∃ flushes, Accounts format handlers taken lost flushes state.1 state.2.2

theorem keeps_accounted (server : Server) (handlers : Handlers) (format : Sender.Format) :
    Outbox.Keeps (Sender.outside (recording server handlers)) (Accounted format handlers) := by
  rintro taken lost box ⟨sender, history⟩ move h hchecked
  have hbefore : ∀ e ∈ taken, format.protocol.fault? e.point = none :=
    fun e he => hchecked e (List.mem_append_left _ he)
  obtain ⟨hfollows, flushes, h⟩ := h hbefore
  cases move
  all_goals
    simp only [Outbox.Move.taken?, Outbox.Move.discarded?, Option.toList_none,
      Option.toList_some, List.append_nil]
  case take entry => exact ⟨hfollows, flushes, h.take entry⟩
  case arm => exact ⟨hfollows, flushes, (h.note server (.enabled _ _) rfl).enter .armed⟩
  case rest => exact ⟨hfollows, flushes, (h.note server .disabled rfl).enter .disabled⟩
  case warn => exact ⟨hfollows, flushes, h.note server .droppedWhileArmed rfl⟩
  case shut =>
    have hclosed : Extends history ((recording server handlers).close history) [] := .quiet rfl
    exact ⟨hfollows, flushes, ((h.extend hclosed).note server .shutDown rfl).enter .closed⟩
  case discard entry =>
    have hnoted := extends_note server handlers
      (.queueFull box.options.bufferLimit entry.destination.text) rfl history
    have hdropped (t : List Call) : Extends t ((recording server handlers).dropped entry t)
        (if handlers.dropped then [.heard (.dropped entry)] else []) := by
      cases hd : handlers.dropped with
      | true =>
        simp only [recording, Listener.recording, hd, if_true]
        exact .loud rfl
      | false =>
        simp only [recording, Listener.recording, hd, Bool.false_eq_true, if_false]
        exact .refl _
    exact ⟨hfollows, flushes,
      h.discard (hnoted.trans (hdropped _)) rfl rfl⟩
  case write =>
    have hqueue : ∀ e ∈ box.queue, format.protocol.fault? e.point = none := by
      -- what waits is a part of what was taken
      intro e he
      apply hbefore
      rw [h.conserved]
      exact List.mem_append_right _ he
    obtain ⟨f, hentries, hsound, hextends, hfollows, hdropped⟩ :=
      write_spec server handlers hfollows hqueue history
    exact ⟨hfollows, flushes ++ [f],
      h.write hentries hsound hextends (Outbox.queue_write _ _ _) hdropped⟩

end SeriesIngest.Client
