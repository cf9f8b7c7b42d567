import SeriesIngest.Proofs.Client.Carried
import SeriesIngest.Proofs.Client.Stable

/-! Servers that answer every request. Under the text protocol whatever a client sends is then
carried, at once or in flushes. -/
namespace SeriesIngest.Client

def Server.Obliging (server : Server) : Prop :=
  ∀ history url request, server.post history url request = .done

def Answered (history : List Call) : Prop :=
  ∀ url request outcome, .posted url request outcome ∈ history → outcome = .done

variable {server : Server} {handlers : Handlers} {format : Sender.Format} {s : Sender}
  {entries taken lost : List Entry} {flushes : List Flush} {box : Outbox}
  {history later : List Call}

theorem Answered.concat (h : Answered history) {call : Call}
    (hcall : ∀ url request outcome, call = .posted url request outcome → outcome = .done) :
    Answered (history ++ [call]) := by
  intro url request outcome hposted
  rcases List.mem_append.1 hposted with hposted | hposted
  · exact h url request outcome hposted
  · exact hcall url request outcome (List.mem_singleton.1 hposted).symm

theorem Answered.hear (h : Answered history) (what : Heard) :
    Answered (history ++ [.heard what]) := h.concat nofun

theorem stable_answered (hserver : server.Obliging) :
    Sender.Stable (recording server handlers) fun _ history => Answered history where
  note s t notice h := h.hear _
  dropped s t entry h := by
    simp only [recording, Listener.recording]
    split
    · exact h.hear _
    · exact h
  failed s t fault points h := by
    simp only [recording, Listener.recording]
    split
    · exact h
    · exact h.hear _
  close s t h := h.concat nofun
  compress s t compressor h := h
  post s t destination body h := by
    unfold Sender.post
    simp only [recording, hserver _ _ _]
    refine h.concat ?_
    rintro url request outcome ⟨⟩
    rfl
  ping s t url h := h.concat nofun

theorem answered_nil : Answered [] := fun _ _ _ h => absurd h List.not_mem_nil

theorem Answered.happen (hserver : server.Obliging) (h : Answered history) (c : Client)
    (event : Event) : Answered (c.happen (recording server handlers) history event).2.2 := by
  have hhas : Has (fun _ history => Answered history) (c, history) := h
  exact hhas.happen (stable_answered hserver) event

theorem send_carried (hhttp : format.protocol = .http) (hs : s.Follows format)
    (destination : Destination) {points : List Point}
    (hchecked : ∀ p ∈ points, format.protocol.fault? p = none)
    (h : Carried format entries (history.filterMap Call.request?)) :
    let r := s.send (recording server handlers) (destination, points) history
    Answered r.2.2 → r.1 = .done ∧ r.2.1.Follows format ∧
      Carried format (entries ++ points.map (Entry.mk · destination))
        (r.2.2.filterMap Call.request?) := by
  intro r hanswered
  by_cases hne : points = []
  · subst hne
    simp only [r, Sender.send, if_true, List.map_nil, List.append_nil]
    exact ⟨trivial, hs, h⟩
  · have hparcel : Sendable format (destination, points) := ⟨hne, hchecked⟩
    obtain ⟨posts, hwent, hfollows, hlater⟩ := send_spec server handlers hs hparcel history
    change Went format (destination, points) posts r.1 at hwent
    generalize r.1 = outcome at hwent
    cases hwent with
    | oversize hgrpc =>
      -- only a record states its lengths
      rw [hhttp] at hgrpc
      cases hgrpc
    | @posted post hbrings =>
      have hdone := hanswered _ _ _ (hlater.mem (List.mem_singleton_self post.call))
      refine ⟨Post.verdict_of_done hdone, hfollows, ?_⟩
      rw [hlater.request?]
      have hpoints (d : Destination) : Parcel.pointsTo [(destination, points)] d =
          Entry.pointsTo (points.map (Entry.mk · destination)) d := by
        by_cases hd : destination = d
        · subst hd
          simp [Parcel.pointsTo, Entry.pointsTo, List.filter_map, Function.comp_def]
        · simp [Parcel.pointsTo, Entry.pointsTo, List.filter_map, Function.comp_def, hd]
      exact h.append ⟨[(destination, points)], .cons hbrings .nil, by simpa using hne, hpoints⟩

theorem Flush.Sound.fault_none {f : Flush} (h : f.Sound format) (hhttp : format.protocol = .http)
    (hdone : ∀ post ∈ f.posts, post.outcome = .done) : f.fault = none := by
  cases hfault : f.fault with
  | none => rfl
  | some fault =>
    have hsized : ¬ f.IsOversize format := by
      rintro ⟨hgrpc, -⟩
      rw [hhttp] at hgrpc
      cases hgrpc
    rcases h.reported fault hfault hsized with ⟨post, hpost, cause, hcause, -⟩ |
      ⟨post, hpost, panic, hpanic, -⟩
    · rw [hdone post hpost] at hcause
      cases hcause
    · rw [hdone post hpost] at hpanic
      cases hpanic

theorem requests_calls (handlers : Handlers) (f : Flush) :
    (f.calls handlers).filterMap Call.request? = f.posts.map (·.request) := by
  have hposts : (f.posts.map Post.call).filterMap Call.request? = f.posts.map (·.request) := by
    rw [List.filterMap_map]
    exact congrFun List.filterMap_eq_map f.posts
  have hreport : (f.report handlers).filterMap Call.request? = [] := by
    unfold Flush.report
    split
    · cases f.fault <;> rfl
    · rfl
  rw [Flush.calls, List.filterMap_append, hposts, hreport, List.append_nil]

theorem carried_flushes (h : ∀ f ∈ flushes, f.Sound format)
    (hnone : ∀ f ∈ flushes, f.fault = none) :
    Carried format (flushes.flatMap (·.entries))
      (flushes.flatMap fun f => f.posts.map (·.request)) := by
  induction flushes with
  | nil => exact .nil format
  | cons f flushes ih =>
    have hfirst := (h f List.mem_cons_self).carried (hnone f List.mem_cons_self)
    exact hfirst.append (ih (fun g hg => h g (List.mem_cons_of_mem f hg))
      fun g hg => hnone g (List.mem_cons_of_mem f hg))

theorem Accounts.carried (h : Accounts format handlers taken lost flushes box history)
    (hhttp : format.protocol = .http) (hanswered : Answered history) :
    Carried format (flushes.flatMap (·.entries)) (history.filterMap Call.request?) := by
  have hnone : ∀ f ∈ flushes, f.fault = none := by
    intro f hf
    refine (h.sound f hf).fault_none hhttp fun post hpost => ?_
    have hcall : post.call ∈ history.filter Call.isOfFlush := by
      rw [h.delivered]
      exact List.mem_flatMap.2 ⟨f, hf, List.mem_append_left _ (List.mem_map_of_mem hpost)⟩
    exact hanswered _ _ _ (List.mem_filter.1 hcall).1
  have hrequests : history.filterMap Call.request? =
      (history.filter Call.isOfFlush).filterMap Call.request? := by
    rw [List.filterMap_filter]
    congr 1
    funext call
    cases call with
    | heard what => simp [Call.request?]
    | _ => rfl
  rw [hrequests, h.delivered, List.filterMap_flatMap]
  simp only [requests_calls]
  exact carried_flushes h.sound hnone

end SeriesIngest.Client
