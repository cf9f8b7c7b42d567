import SeriesIngest.Proofs.Client.Running

/-! A property of a sender and its carrier that every single call keeps, is kept by a client in
use: at once or in batches, whatever is answered and wherever a call breaks off. -/
namespace SeriesIngest

/-- What a call changes in the rotation comes with the call: a request takes a turn, and a ping
sets a flag. -/
structure Sender.Stable (out : Carrier τ) (P : Sender → τ → Prop) : Prop where
  note : ∀ s t notice, P s t → P s (out.note notice t)
  dropped : ∀ s t entry, P s t → P s (out.dropped entry t)
  failed : ∀ s t fault points, P s t → P s (out.failed fault points t).2
  close : ∀ s t, P s t → P s (out.close t)
  compress : ∀ s t compressor, P s t → P { s with compressor } t
  post : ∀ s t destination body, P s t →
    P (s.post out destination body t).2.1 (s.post out destination body t).2.2
  ping : ∀ s t url, P s t →
    P { s with rotation := s.rotation.setDown url (out.ping url t).1.isSome } (out.ping url t).2

namespace Sender

variable {out : Carrier τ} {P : Sender → τ → Prop} {s : Sender} {t : τ}

theorem Stable.noteAll (h : Stable out P) (notices : List Notice) (hP : P s t) :
    P s (noteAll out.toListener notices t) := by
  unfold Sender.noteAll
  induction notices generalizing t with
  | nil => exact hP
  | cons notice notices ih => exact ih (h.note s t notice hP)

theorem exists_compressor_body? (s : Sender) (now : Int64) (points : List Point) :
    ∃ compressor, (s.body? now points).2 = { s with compressor } := by
  obtain ⟨protocol, rotation, compressor⟩ := s
  unfold body?
  cases protocol with
  | http =>
    dsimp only
    split <;> exact ⟨_, rfl⟩
  | grpc =>
    dsimp only
    split <;> exact ⟨_, rfl⟩

theorem Stable.send (h : Stable out P) (parcel : Parcel) (hP : P s t) :
    P (s.send out parcel t).2.1 (s.send out parcel t).2.2 := by
  unfold Sender.send
  dsimp only
  split
  · exact hP
  · have hnoted := h.noteAll (s.notices (out.now t) parcel.2) hP
    obtain ⟨compressor, hbody⟩ := s.exists_compressor_body? (out.now t) parcel.2
    have hcompressed := h.compress _ _ compressor hnoted
    rw [← hbody] at hcompressed
    generalize s.body? (out.now t) parcel.2 = result at hcompressed
    obtain ⟨result, s'⟩ := result
    match result with
    | .error fault => exact hcompressed
    | .ok none => exact h.note _ _ _ hcompressed
    | .ok (some body) => exact h.post _ _ _ body hcompressed

theorem Stable.sendAll (h : Stable out P) (parcels : List Parcel) (hP : P s t) :
    P (s.sendAll out parcels t).2.1 (s.sendAll out parcels t).2.2 := by
  induction parcels generalizing s t with
  | nil => exact hP
  | cons parcel parcels ih =>
    have hsent := h.send parcel hP
    unfold Sender.sendAll
    generalize s.send out parcel t = sent at hsent
    obtain ⟨outcome, s', t'⟩ := sent
    cases outcome with
    | done => exact ih hsent
    | failed fault => exact hsent
    | panicked panic => exact hsent

theorem Stable.flag (h : Stable out P) (url : String) (down : Bool)
    (hP : P { s with rotation := s.rotation.setDown url down } t) :
    P (s.flag out url down t).1 (s.flag out url down t).2 :=
  h.noteAll (s.rotation.flagNotices url down) hP

theorem Stable.check (h : Stable out P) (urls : List String) (hP : P s t) :
    P (s.check out urls t).2.1 (s.check out urls t).2.2 := by
  induction urls generalizing s t with
  | nil => exact hP
  | cons url urls ih =>
    have hpinged := h.ping s t url hP
    unfold Sender.check
    generalize out.ping url t = answer at hpinged
    obtain ⟨answer, t'⟩ := answer
    cases answer with
    | none => exact ih (h.flag url false hpinged)
    | some fault => exact ih (h.flag url true (h.note _ _ (.pingFailed url fault) hpinged))

theorem Stable.report (h : Stable out P) (fault : WriteFault) (points : List Point)
    {st : Sender × τ} (hP : P st.1 st.2) :
    P (Outbox.report (outside out) fault points st).1
      (Outbox.report (outside out) fault points st).2 := by
  have htold := h.failed _ _ fault points
    (h.note st.1 st.2 (.flushFailed points.length fault) hP)
  have hfailed : (outside out).failed fault points
      ((outside out).note (.flushFailed points.length fault) st) =
        ((out.failed fault points (out.note (.flushFailed points.length fault) st.2)).1, st.1,
          (out.failed fault points (out.note (.flushFailed points.length fault) st.2)).2) := rfl
  unfold Outbox.report
  rw [hfailed]
  generalize out.failed fault points _ = reply at htold
  obtain ⟨reply, t'⟩ := reply
  cases reply with
  | none => exact htold
  | some panic => exact h.note _ _ _ htold

theorem Stable.keeps (h : Stable out P) :
    Outbox.Keeps (outside out) fun _ _ state => P state.2.1 state.2.2 := by
  rintro _ _ box ⟨s, t⟩ move hP
  cases move with
  | arm => exact h.note _ _ _ hP
  | take entry => exact hP
  | discard entry => exact h.dropped _ _ _ (h.note _ _ _ hP)
  | rest => exact h.note _ _ _ hP
  | shut => exact h.note _ _ _ (h.close _ _ hP)
  | warn => exact h.note _ _ _ hP
  | write =>
    have hsent := h.sendAll (Entry.pack box.queue).1 hP
    have hsend : (outside out).send (Entry.pack box.queue).1 (s, t) =
        s.sendAll out (Entry.pack box.queue).1 t := rfl
    generalize s.sendAll out (Entry.pack box.queue).1 t = sent at hsent hsend
    obtain ⟨outcome, state⟩ := sent
    cases hfault : outcome.fault? with
    | none =>
      obtain rfl : outcome = .done := by cases outcome <;> simp_all [Outcome.fault?]
      simp only [Outbox.act, Outbox.write_of_done hsend]
      split
      · exact hsent
      · exact h.note _ _ _ hsent
    | some fault =>
      simp only [Outbox.act, Outbox.write_of_fault hsend hfault]
      exact h.report fault _ hsent

theorem Stable.follow (h : Stable out P) (box : Outbox) (st : Sender × τ) (hP : P st.1 st.2)
    (moves : List Outbox.Move) :
    P (box.follow (outside out) st moves).2.1 (box.follow (outside out) st moves).2.2 :=
  @Outbox.Keeps.follow _ _ _ [] [] box st h.keeps moves hP

theorem Stable.live (h : Stable out P) (box : Outbox) (st : Sender × τ) (hP : P st.1 st.2)
    (events : List Outbox.Event) :
    P (box.live (outside out) st events).2.1 (box.live (outside out) st events).2.2 :=
  @Outbox.Keeps.live _ _ _ [] [] box st h.keeps events hP

theorem Stable.putAll (h : Stable out P) (box : Outbox) (st : Sender × τ) (hP : P st.1 st.2)
    (entries : List Entry) :
    let r := box.putAll (outside out) .flush entries st
    P r.2.2.1 r.2.2.2 := by
  induction entries generalizing box st with
  | nil => exact hP
  | cons entry entries ih =>
    have hput := h.follow box st hP (box.moves (.put entry .flush))
    rw [← Outbox.put_eq_follow] at hput
    unfold Outbox.putAll
    generalize box.put (outside out) entry .flush st = put at hput
    obtain ⟨result, box', st'⟩ := put
    cases result with
    | ok => exact ih box' st' hput
    | error fault => exact hput

end Sender

namespace Client

open Sender (Stable outside)

variable {out : Carrier τ} {P : Sender → τ → Prop} {c : Client} {t : τ}

def Has (P : Sender → τ → Prop) (state : Client × τ) : Prop := P state.1.sender state.2

theorem Has.onOutbox (hP : Has P (c, t)) {act : Outbox → Sender × τ → Outbox × Sender × τ}
    (hact : ∀ box, P (act box (c.sender, t)).2.1 (act box (c.sender, t)).2.2) :
    Has P (c.onOutbox t act) := by
  unfold Client.onOutbox
  split
  · exact hP
  · exact hact _

theorem Has.write (hP : Has P (c, t)) (h : Stable out P) (destination : Destination)
    (points : List Point) : Has P (c.write out destination points t).2 := by
  unfold Client.write
  split
  · exact hP
  · split
    · exact hP
    · split
      · exact h.send (destination, points) hP
      · rename_i box _
        have hput := h.putAll box (c.sender, t) hP (points.map (Entry.mk · destination))
        dsimp only at hput ⊢
        generalize box.putAll _ _ _ _ = put at hput
        obtain ⟨result, box', sender, t'⟩ := put
        cases result <;> exact hput

theorem Has.flush (hP : Has P (c, t)) (h : Stable out P) : Has P (c.flush out t) := by
  refine hP.onOutbox fun box => ?_
  rw [Outbox.flush_eq_follow]
  exact h.follow box (c.sender, t) hP _

theorem Has.check (hP : Has P (c, t)) (h : Stable out P) (urls : List String) :
    let r := c.sender.check out urls t
    Has P ({ c with sender := r.2.1 }, r.2.2) := h.check urls hP

theorem Has.close (hP : Has P (c, t)) (h : Stable out P) : Has P (c.close out t) := by
  have hended : Has P (if c.isBatching
      then c.onOutbox t fun box st => box.shutDown (outside out) st else (c, out.close t)) := by
    split
    · refine hP.onOutbox fun box => ?_
      rw [Outbox.shutDown_eq_follow]
      exact h.follow box (c.sender, t) hP _
    · exact h.close _ _ hP
  unfold Client.close
  split
  · exact hP
  · exact h.note _ _ .clientClosed hended

theorem Has.drop (hP : Has P (c, t)) (h : Stable out P) : Has P (c.drop out t) := by
  unfold Client.drop
  split
  · exact hP
  · exact Has.close (h.note _ _ _ hP) h

theorem Has.happen (hP : Has P (c, t)) (h : Stable out P) (event : Event) :
    Has P (c.happen out t event).2 := by
  cases event with
  | drop => exact hP.drop h
  | step step =>
    cases step with
    | write destination points => exact hP.write h destination points
    | flush => exact hP.flush h
    | check => exact hP.check h c.sender.rotation.urls
    | close => exact hP.close h
  | writeAhead destination puts =>
    simp only [Client.happen]
    split
    · exact hP
    · exact hP.write h destination (puts.map (·.2))
    · exact hP.onOutbox fun box =>
        h.live box (c.sender, t) hP (putsAhead destination puts)

end Client
end SeriesIngest
