import SeriesIngest.Proofs.Client.Body
import SeriesIngest.Proofs.Outbox.Events

/-! What a client starts with: the sender of its settings, and an outbox where they ask for
batches. -/
namespace SeriesIngest

def Settings.sender (s : Settings) (codecs : Codecs) (rotation : Rotation) : Sender :=
  { protocol := s.protocol, rotation, compressor := s.compressor codecs }

namespace Client

variable {codecs : Codecs} {settings : Settings}

theorem ofSettings_ok {c : Client} (h : ofSettings codecs settings = .ok c) :
    settings.validate = .ok () ∧ ∃ rotation outbox,
      Rotation.ofUrls settings.endpoints = .ok rotation ∧
      settings.batchOptions.mapM Outbox.ofOptions = .ok outbox ∧
      c = { sender := settings.sender codecs rotation, outbox } := by
  unfold ofSettings at h
  cases hvalid : settings.validate with
  | error fault => simp [hvalid, bind, Except.bind] at h
  | ok _ =>
    cases hrotation : Rotation.ofUrls settings.endpoints with
    | error fault => simp [hvalid, hrotation, bind, Except.bind] at h
    | ok rotation =>
      cases houtbox : settings.batchOptions.mapM Outbox.ofOptions with
      | error fault => simp [hvalid, hrotation, houtbox, bind, Except.bind] at h
      | ok outbox =>
        simp only [hvalid, hrotation, houtbox, bind, Except.bind, pure, Except.pure,
          Except.ok.injEq] at h
        exact ⟨rfl, rotation, outbox, rfl, rfl, h.symm⟩

inductive Started (codecs : Codecs) (settings : Settings) (out : Carrier τ) (t : τ) :
    Client × τ → Prop
  | direct {rotation : Rotation} (hbatch : settings.batchOptions = none)
    (hurls : Rotation.ofUrls settings.endpoints = .ok rotation) :
    Started codecs settings out t ({ sender := settings.sender codecs rotation, outbox := none },
      out.note (.clientReady rotation.size settings.protocol settings.algorithm false) t)
  | batching {rotation : Rotation} {box : Outbox}
    (hbatch : settings.batchOptions = some box.options) (hphase : box.phase = .armed)
    (hqueue : box.queue = []) (hcounts : box.counts = {})
    (hurls : Rotation.ofUrls settings.endpoints = .ok rotation) :
    Started codecs settings out t
      ({ sender := settings.sender codecs rotation, outbox := some box },
        out.note (.clientReady rotation.size settings.protocol settings.algorithm true)
          (out.note (.enabled box.options.actions box.options.bufferLimit) t))

theorem valid_of_start {out : Carrier τ} {t : τ} {r : Client × τ}
    (h : start codecs settings out t = .ok r) : settings.validate = .ok () := by
  unfold start at h
  cases hsettings : ofSettings codecs settings with
  | error fault => simp [hsettings] at h
  | ok client => exact (ofSettings_ok hsettings).1

theorem start_ok {out : Carrier τ} {t : τ} {r : Client × τ}
    (h : start codecs settings out t = .ok r) : Started codecs settings out t r := by
  unfold start at h
  cases hsettings : ofSettings codecs settings with
  | error fault => simp [hsettings] at h
  | ok client =>
    obtain ⟨-, rotation, outbox, hurls, houtbox, rfl⟩ := ofSettings_ok hsettings
    rw [hsettings] at h
    cases hoptions : settings.batchOptions with
    | none =>
      rw [hoptions] at houtbox
      cases houtbox
      cases h
      exact .direct hoptions hurls
    | some options =>
      rw [hoptions] at houtbox
      cases hbox : Outbox.ofOptions options with
      | error fault => simp [hbox, Functor.map, Except.map] at houtbox
      | ok box =>
        obtain rfl : some box = outbox := by
          simpa [hbox, Functor.map, Except.map] using houtbox
        obtain ⟨hphase, hqueue, hcounts⟩ := Outbox.ofOptions_ok hbox
        simp only [onOutbox, Outbox.enable, hphase, Except.ok.injEq] at h
        subst h
        refine .batching ?_ rfl hqueue hcounts hurls
        rw [hoptions, Outbox.options_ofOptions hbox]

end Client
end SeriesIngest
