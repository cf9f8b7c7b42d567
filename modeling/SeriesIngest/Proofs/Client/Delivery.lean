import SeriesIngest.Client.History
import SeriesIngest.Proofs.Client.Body

/-! One flush as the carrier sees it: a request for each parcel, in their order, up to the first
that fails. Between the requests there are only notices, and none of a parcel that was left out. -/
namespace SeriesIngest.Client

structure Post where
  url : String
  request : Request
  outcome : Outcome DeliveryFault

namespace Post

def call (post : Post) : Call := .posted post.url post.request post.outcome

def verdict (post : Post) : Outcome WriteFault :=
  match post.outcome with
  | .done => .done
  | .failed fault => .failed (.delivery fault)
  | .panicked panic => .panicked panic

end Post

/-- How one parcel goes out. A record with a length beyond its word has no wire form, and then
there is no request. -/
inductive Went (format : Sender.Format) (parcel : Parcel) : List Post → Outcome WriteFault → Prop
  | posted {post : Post} (h : post.request.Brings format parcel) :
    Went format parcel [post] post.verdict
  | oversize {now : Int64} {r : Record} {n : Nat} (hprotocol : format.protocol = .grpc)
    (hr : r ∈ Record.all now parcel.2) (hsize : ¬ r.Sized) (hn : 2 ^ 31 ≤ n) :
    Went format parcel [] (.failed (.encoding (.malformed (.oversize n))))

inductive Sent (format : Sender.Format) : List Parcel → List Post → Outcome WriteFault → Prop
  | nil : Sent format [] [] .done
  | next {parcel : Parcel} {parcels : List Parcel} {posts more : List Post}
    {outcome : Outcome WriteFault} (h : Went format parcel posts .done)
    (hrest : Sent format parcels more outcome) :
    Sent format (parcel :: parcels) (posts ++ more) outcome
  | stop {parcel : Parcel} {parcels : List Parcel} {posts : List Post}
    {outcome : Outcome WriteFault} (h : Went format parcel posts outcome)
    (hfailed : outcome ≠ .done) : Sent format (parcel :: parcels) posts outcome

def Call.isLoud : Call → Bool
  | .posted .. => true
  | .heard (.dropped _) => true
  | .heard (.failed ..) => true
  | .heard (.noted (.nothingEncodable ..)) => true
  | _ => false

/-- The history went on with these calls, among others that tell of no sample. -/
def Extends (history later calls : List Call) : Prop :=
  later.filter Call.isLoud = history.filter Call.isLoud ++ calls

theorem Extends.refl (history : List Call) : Extends history history [] := by simp [Extends]

theorem Extends.trans {history middle later calls more : List Call}
    (h : Extends history middle calls) (h' : Extends middle later more) :
    Extends history later (calls ++ more) := by
  unfold Extends at *
  rw [h', h, List.append_assoc]

theorem Extends.quiet {history : List Call} {call : Call} (h : call.isLoud = false) :
    Extends history (history ++ [call]) [] := by
  simp [Extends, h]

theorem Extends.loud {history : List Call} {call : Call} (h : call.isLoud) :
    Extends history (history ++ [call]) [call] := by
  simp [Extends, h]

theorem Extends.mem {history later calls : List Call} (h : Extends history later calls)
    {call : Call} (hcall : call ∈ calls) : call ∈ later := by
  have hlater : call ∈ later.filter Call.isLoud := h ▸ List.mem_append_right _ hcall
  exact (List.mem_filter.1 hlater).1

theorem Extends.filterMap_loud {history later calls : List Call} (h : Extends history later calls)
    {f : Call → Option α} (hf : ∀ call, call.isLoud = false → f call = none) :
    later.filterMap f = history.filterMap f ++ calls.filterMap f := by
  have hloud (calls : List Call) : (calls.filter Call.isLoud).filterMap f = calls.filterMap f := by
    rw [List.filterMap_filter]
    congr 1
    funext call
    cases hcall : call.isLoud with
    | true => rfl
    | false => exact (hf call hcall).symm
  rw [← hloud later, h, List.filterMap_append, hloud]

def isQuiet (notice : Notice) : Prop := (Call.heard (.noted notice)).isLoud = false

variable (server : Server) (handlers : Handlers) {format : Sender.Format} {s : Sender}

theorem extends_note (notice : Notice) (h : isQuiet notice) (history : List Call) :
    Extends history ((recording server handlers).note notice history) [] := .quiet h

theorem extends_close (history : List Call) :
    Extends history ((recording server handlers).close history) [] := .quiet rfl

theorem extends_noteAll {notices : List Notice} (h : ∀ notice ∈ notices, isQuiet notice)
    (history : List Call) : Extends history
      (Sender.noteAll (recording server handlers).toListener notices history) [] := by
  unfold Sender.noteAll
  induction notices generalizing history with
  | nil => exact .refl history
  | cons notice notices ih =>
    have hnoted := extends_note server handlers notice (h notice List.mem_cons_self) history
    exact hnoted.trans (ih (fun n hn => h n (List.mem_cons_of_mem notice hn)) _)

theorem isQuiet_flagNotices (rotation : Rotation) (url : String) (down : Bool) :
    ∀ notice ∈ rotation.flagNotices url down, isQuiet notice := by
  intro notice hnotice
  unfold Rotation.flagNotices at hnotice
  split at hnotice
  · rw [List.mem_singleton] at hnotice
    subst hnotice
    cases down <;> rfl
  · cases hnotice

theorem isQuiet_notices (points : List Point) :
    ∀ notice ∈ Record.notices points, isQuiet notice := by
  intro notice hnotice
  cases points with
  | nil => cases hnotice
  | cons first rest =>
    rw [Record.notices] at hnotice
    split at hnotice
    · cases hnotice
    · rcases List.mem_append.1 hnotice with hskipped | hcells
      · obtain ⟨p, -, hp⟩ := List.mem_filterMap.1 hskipped
        split at hp
        · cases hp
        · cases hp
          rfl
      · split at hcells
        · cases hcells
        · obtain ⟨e, -, he⟩ := List.mem_filterMap.1 hcells
          split at he
          · cases he
          · cases he
            rfl

theorem isQuiet_allNotices (now : Int64) (points : List Point) :
    ∀ notice ∈ Record.allNotices now points, isQuiet notice := by
  intro notice hnotice
  obtain ⟨⟨measurement, group⟩, -, hnotice⟩ := List.mem_flatMap.1 hnotice
  rcases List.mem_append.1 hnotice with hrow | hgroup
  · exact isQuiet_notices group notice hrow
  · cases hpoints : Record.ofPoints now group with
    | ok r => simp [hpoints] at hgroup
    | error fault =>
      rw [hpoints, List.mem_singleton] at hgroup
      subst hgroup
      rfl

theorem flag_spec (hs : s.Follows format) (url : String) (down : Bool) (history : List Call) :
    (s.flag (recording server handlers) url down history).1.Follows format ∧
      Extends history (s.flag (recording server handlers) url down history).2 [] :=
  ⟨⟨hs.protocol, hs.compressor⟩,
    extends_noteAll server handlers (isQuiet_flagNotices _ _ _) _⟩

theorem settle_spec (hs : s.Follows format) (post : Post) (history : List Call) :
    let r := s.settle (recording server handlers) post.url post.outcome history
    r.1 = post.verdict ∧ r.2.1.Follows format ∧ Extends history r.2.2 [] := by
  obtain ⟨url, request, outcome⟩ := post
  cases outcome with
  | done => exact ⟨rfl, hs, .refl _⟩
  | panicked panic => exact ⟨rfl, hs, .refl _⟩
  | failed fault =>
    cases fault with
    | unreachable endpoint reason => exact ⟨rfl, flag_spec server handlers hs url true history⟩
    | status code text => exact ⟨rfl, hs, .refl _⟩
    | timeout => exact ⟨rfl, hs, .refl _⟩
    | other text => exact ⟨rfl, hs, .refl _⟩

theorem post_spec (hs : s.Follows format) {destination : Destination} {points : List Point}
    {body : Body} (hbody : body.Carries format points) (history : List Call) :
    ∃ post : Post, post.request.Brings format (destination, points) ∧
      let r := s.post (recording server handlers) destination body history
      r.1 = post.verdict ∧ r.2.1.Follows format ∧ Extends history r.2.2 [post.call] := by
  let request : Request := { destination, algorithm := s.compressor.algorithm, body }
  let post : Post := ⟨s.rotation.next.1, request, server.post history s.rotation.next.1 request⟩
  have hnext : Sender.Follows { s with rotation := s.rotation.next.2 } format :=
    ⟨hs.protocol, hs.compressor⟩
  obtain ⟨hverdict, hfollows, hextends⟩ :=
    settle_spec server handlers hnext post (history ++ [post.call])
  have hposted : Extends history (history ++ [post.call]) [post.call] := .loud rfl
  exact ⟨post, ⟨rfl, hs.compressor.algorithm, hbody⟩, hverdict, hfollows, hposted.trans hextends⟩

structure Sendable (format : Sender.Format) (parcel : Parcel) : Prop where
  nonempty : parcel.2 ≠ []
  checked : ∀ p ∈ parcel.2, format.protocol.fault? p = none

theorem send_spec (hs : s.Follows format) {parcel : Parcel} (hparcel : Sendable format parcel)
    (history : List Call) :
    let r := s.send (recording server handlers) parcel history
    ∃ posts, Went format parcel posts r.1 ∧ r.2.1.Follows format ∧
      Extends history r.2.2 (posts.map Post.call) := by
  obtain ⟨destination, points⟩ := parcel
  obtain ⟨hne, hchecked⟩ := hparcel
  have hquiet : ∀ notice ∈ s.notices (server.now history) points, isQuiet notice := by
    unfold Sender.notices
    cases s.protocol with
    | http => exact fun _ h => nomatch h
    | grpc => exact isQuiet_allNotices _ _
  have hnoted := extends_noteAll server handlers hquiet history
  have hnow : (recording server handlers).now history = server.now history := rfl
  obtain ⟨hfollows, hbody⟩ := Sender.body?_spec hs hne hchecked (server.now history)
  unfold Sender.send
  simp only [hne, if_false, hnow]
  rcases hbody with ⟨body, hresult, hcarries⟩ | ⟨hgrpc, r, hr, hsize, n, hn, hresult⟩
  · have hpair : s.body? (server.now history) points =
        (.ok (some body), (s.body? (server.now history) points).2) := Prod.ext hresult rfl
    obtain ⟨post, hbrings, hverdict, hfollows, hextends⟩ :=
      post_spec server handlers hfollows hcarries _
    rw [hpair]
    exact ⟨[post], hverdict ▸ .posted hbrings, hfollows, hnoted.trans hextends⟩
  · have hpair : s.body? (server.now history) points =
        (.error (.malformed (.oversize n)), (s.body? (server.now history) points).2) :=
      Prod.ext hresult rfl
    rw [hpair]
    exact ⟨[], .oversize hgrpc hr hsize hn, hfollows, hnoted⟩

theorem sendAll_spec (hs : s.Follows format) {parcels : List Parcel}
    (hparcels : ∀ parcel ∈ parcels, Sendable format parcel) (history : List Call) :
    let r := s.sendAll (recording server handlers) parcels history
    ∃ posts, Sent format parcels posts r.1 ∧ r.2.1.Follows format ∧
      Extends history r.2.2 (posts.map Post.call) := by
  induction parcels generalizing s history with
  | nil => exact ⟨[], .nil, hs, .refl history⟩
  | cons parcel parcels ih =>
    obtain ⟨posts, hwent, hfollows, hextends⟩ :=
      send_spec server handlers hs
        (hparcels parcel List.mem_cons_self) history
    unfold Sender.sendAll
    generalize s.send (recording server handlers) parcel history = sent at hwent hfollows hextends
    obtain ⟨outcome, sender, middle⟩ := sent
    cases outcome with
    | done =>
      obtain ⟨more, hsent, hlast, hmore⟩ :=
        ih hfollows (fun q hq => hparcels q (List.mem_cons_of_mem parcel hq)) middle
      refine ⟨posts ++ more, .next hwent hsent, hlast, ?_⟩
      rw [List.map_append]
      exact hextends.trans hmore
    | failed fault => exact ⟨posts, .stop hwent (by simp), hfollows, hextends⟩
    | panicked panic => exact ⟨posts, .stop hwent (by simp), hfollows, hextends⟩

theorem check_spec (hs : s.Follows format) (urls : List String) (history : List Call) :
    let r := s.check (recording server handlers) urls history
    r.2.1.Follows format ∧ Extends history r.2.2 [] := by
  induction urls generalizing s history with
  | nil => exact ⟨hs, .refl history⟩
  | cons url urls ih =>
    have hpinged (answer : Option DeliveryFault) :
        Extends history (history ++ [.pinged url answer]) [] := .quiet rfl
    have hping : (recording server handlers).ping url history =
        (server.ping history url, history ++ [.pinged url (server.ping history url)]) := rfl
    unfold Sender.check
    rw [hping]
    cases server.ping history url with
    | none =>
      obtain ⟨hflagged, hflag⟩ := flag_spec server handlers hs url false
        (history ++ [.pinged url none])
      obtain ⟨hlast, hrest⟩ := ih hflagged
        (s.flag (recording server handlers) url false (history ++ [.pinged url none])).2
      exact ⟨hlast, ((hpinged none).trans hflag).trans hrest⟩
    | some fault =>
      have hnoted : Extends (history ++ [.pinged url (some fault)])
          ((recording server handlers).note (.pingFailed url fault)
            (history ++ [.pinged url (some fault)])) [] :=
        extends_note server handlers (.pingFailed url fault) rfl _
      obtain ⟨hflagged, hflag⟩ := flag_spec server handlers hs url true
        ((recording server handlers).note (.pingFailed url fault)
          (history ++ [.pinged url (some fault)]))
      obtain ⟨hlast, hrest⟩ := ih hflagged
        (s.flag (recording server handlers) url true
          ((recording server handlers).note (.pingFailed url fault)
            (history ++ [.pinged url (some fault)]))).2
      exact ⟨hlast, (((hpinged _).trans hnoted).trans hflag).trans hrest⟩

end SeriesIngest.Client
