import SeriesIngest.Client.Received
import SeriesIngest.Proofs.Client.Accounts

/-! What the requests of a history carry, all of which were answered. However the samples were cut
into requests, each destination gets them in their order, and the texts of its requests are one
body of lines. -/
namespace SeriesIngest

theorem Line.writeAll_append {points more : List Point} {text rest : String}
    (h : writeAll points = .ok text) (h' : writeAll more = .ok rest) (hne : points ≠ [])
    (hne' : more ≠ []) : writeAll (points ++ more) = .ok (text ++ "\n" ++ rest) := by
  obtain ⟨lines, hlines, rfl⟩ := (writeAll_iff points text).1 h
  obtain ⟨others, hothers, rfl⟩ := (writeAll_iff more rest).1 h'
  have hnonempty {points : List Point} {lines : List String} (hne : points ≠ [])
      (h : List.Forall₂ (fun p line => write p = .ok line) points lines) : lines ≠ [] := by
    rintro rfl
    exact hne (List.forall₂_nil_right_iff.1 h)
  rw [← String.intercalate_append_of_ne_nil (hnonempty hne hlines) (hnonempty hne' hothers)]
  exact writeAll_of_lines (List.rel_append hlines hothers)

theorem Line.writeAll_flatten {groups : List (List Point)} {texts : List String}
    (h : List.Forall₂ (fun points text => writeAll points = .ok text) groups texts)
    (hne : ∀ points ∈ groups, points ≠ []) :
    writeAll groups.flatten = .ok ("\n".intercalate texts) := by
  induction h with
  | nil => rw [String.intercalate_nil]; rfl
  | @cons points text groups texts htext hrest ih =>
    have hpoints := hne points List.mem_cons_self
    have hgroups := fun g hg => hne g (List.mem_cons_of_mem points hg)
    cases hrest with
    | nil => simpa using htext
    | @cons next _ groups _ _ _ =>
      have hflatten : (next :: groups).flatten ≠ [] := by
        simp [hgroups next List.mem_cons_self]
      rw [List.flatten_cons, String.intercalate_cons_of_ne_nil (List.cons_ne_nil _ _)]
      exact writeAll_append htext (ih hgroups) hpoints hflatten

def Parcel.pointsTo (parcels : List Parcel) (destination : Destination) : List Point :=
  ((parcels.filter (·.1 = destination)).map (·.2)).flatten

theorem Parcel.pointsTo_append (parcels more : List Parcel) (destination : Destination) :
    Parcel.pointsTo (parcels ++ more) destination =
      Parcel.pointsTo parcels destination ++ Parcel.pointsTo more destination := by
  simp [Parcel.pointsTo]

theorem Entry.pointsTo_append (entries more : List Entry) (destination : Destination) :
    Entry.pointsTo (entries ++ more) destination =
      Entry.pointsTo entries destination ++ Entry.pointsTo more destination := by
  simp [Entry.pointsTo]

/-- Packing moves no sample past another of its destination. -/
theorem Entry.pointsTo_pack (entries : List Entry) (destination : Destination) :
    Parcel.pointsTo (Entry.pack entries).1 destination = Entry.pointsTo entries destination := by
  have hkeys : (entries.map (·.destination)).eraseDups.filter (· = destination) =
      if destination ∈ entries.map (·.destination) then [destination] else [] := by
    rw [List.filter_eq, (Groups.nodup_eraseDups _).count]
    simp only [List.mem_eraseDups]
    split <;> rfl
  rw [Entry.pack_parcels, Parcel.pointsTo, List.filter_map, List.map_map]
  simp only [Function.comp_def]
  rw [hkeys]
  split
  · simp
  · rename_i hnot
    have hnone : entries.filter (·.destination = destination) = [] := by
      rw [List.filter_eq_nil_iff]
      intro e he heq
      exact hnot (of_decide_eq_true heq ▸ List.mem_map_of_mem he)
    simp [Entry.pointsTo, hnone]

theorem Request.Brings.text {format : Sender.Format} {parcel : Parcel} {r : Request}
    (h : r.Brings format parcel) (hhttp : format.protocol = .http) :
    ∃ text, r.text? format.compressor.codecs = some text ∧ Line.writeAll parcel.2 = .ok text := by
  obtain ⟨-, halgorithm, hbody⟩ := h
  generalize hblock : r.body = body at hbody
  cases hbody with
  | records hgrpc =>
    rw [hhttp] at hgrpc
    cases hgrpc
  | @lines lines block hprotocol hlines hdata =>
    refine ⟨"\n".intercalate lines, ?_, Line.writeAll_of_lines hlines⟩
    have hread : Compressor.decompress?
        { codecs := format.compressor.codecs, algorithm := format.compressor.algorithm } block =
          some (Utf8.encode ("\n".intercalate lines)) := hdata
    simp only [Request.text?, hblock, halgorithm, hread, Option.bind_some, Utf8.decode_encode,
      Except.toOption]

namespace Client

/-- The requests carry these entries and nothing else: their parcels go by different cuts of the
entries, but in each destination they hold the same samples in the same order. -/
def Carried (format : Sender.Format) (entries : List Entry) (requests : List Request) : Prop :=
  ∃ parcels, List.Forall₂ (Request.Brings format) parcels requests ∧
    (∀ parcel ∈ parcels, parcel.2 ≠ []) ∧
    ∀ destination, Parcel.pointsTo parcels destination = Entry.pointsTo entries destination

variable {format : Sender.Format} {entries more : List Entry} {requests requests' : List Request}
  {history later : List Call}

theorem Carried.nil (format : Sender.Format) : Carried format [] [] :=
  ⟨[], .nil, by simp, fun _ => rfl⟩

theorem Carried.append (h : Carried format entries requests)
    (h' : Carried format more requests') :
    Carried format (entries ++ more) (requests ++ requests') := by
  obtain ⟨parcels, hbrought, hne, hpoints⟩ := h
  obtain ⟨parcels', hbrought', hne', hpoints'⟩ := h'
  refine ⟨parcels ++ parcels', List.rel_append hbrought hbrought', ?_, fun destination => ?_⟩
  · intro parcel hparcel
    exact (List.mem_append.1 hparcel).elim (hne parcel) (hne' parcel)
  · rw [Parcel.pointsTo_append, Entry.pointsTo_append, hpoints, hpoints']

theorem Flush.Sound.carried {f : Flush} (h : f.Sound format) (hfault : f.fault = none) :
    Carried format f.entries (f.posts.map (·.request)) := by
  refine ⟨(Entry.pack f.entries).1, ?_, ?_, Entry.pointsTo_pack f.entries⟩
  · rw [Entry.pack_parcels, List.forall₂_map_left_iff, List.forall₂_map_right_iff]
    exact (h.delivered hfault).imp fun _ _ h => h.1
  · exact Entry.pack_nonempty f.entries

theorem Extends.request? {calls : List Call} (h : Extends history later calls) :
    later.filterMap Call.request? =
      history.filterMap Call.request? ++ calls.filterMap Call.request? := by
  apply h.filterMap_loud
  intro call hquiet
  cases call with
  | posted url request outcome => cases hquiet
  | pinged url fault => rfl
  | closed => rfl
  | heard what => rfl

theorem brings_requestsTo {parcels : List Parcel}
    (h : List.Forall₂ (Request.Brings format) parcels requests) (destination : Destination) :
    List.Forall₂ (Request.Brings format) (parcels.filter (·.1 = destination))
      (requests.filter (·.destination = destination)) := by
  induction h with
  | nil => exact .nil
  | @cons parcel r _ _ hr _ ih =>
    by_cases hd : parcel.1 = destination
    · rw [List.filter_cons_of_pos (by simpa using hd),
        List.filter_cons_of_pos (by simpa [hr.destination] using hd)]
      exact .cons hr ih
    · rw [List.filter_cons_of_neg (by simpa using hd),
        List.filter_cons_of_neg (by simpa [hr.destination] using hd)]
      exact ih

theorem texts_of_brings (hhttp : format.protocol = .http) {parcels : List Parcel}
    (h : List.Forall₂ (Request.Brings format) parcels requests) :
    ∃ texts, requests.mapM (Request.text? format.compressor.codecs) = some texts ∧
      List.Forall₂ (fun points text => Line.writeAll points = .ok text)
        (parcels.map (·.2)) texts := by
  induction h with
  | nil => exact ⟨[], rfl, .nil⟩
  | cons hr _ ih =>
    obtain ⟨text, htext, hwritten⟩ := hr.text hhttp
    obtain ⟨texts, hrest, hall⟩ := ih
    exact ⟨text :: texts, by simp [List.mapM_cons, htext, hrest], .cons hwritten hall⟩

theorem Carried.text (h : Carried format entries (history.filterMap Call.request?))
    (hhttp : format.protocol = .http) (destination : Destination) :
    ∃ text, textTo? format.compressor.codecs history destination = some text ∧
      Line.writeAll (Entry.pointsTo entries destination) = .ok text := by
  obtain ⟨parcels, hbrought, hne, hpoints⟩ := h
  obtain ⟨texts, htexts, hwritten⟩ :=
    texts_of_brings hhttp (brings_requestsTo hbrought destination)
  have hbody := Line.writeAll_flatten hwritten (by
    intro points hmem
    obtain ⟨parcel, hparcel, rfl⟩ := List.mem_map.1 hmem
    exact hne parcel (List.mem_filter.1 hparcel).1)
  refine ⟨"\n".intercalate texts, by rw [textTo?, requestsTo, htexts]; rfl, ?_⟩
  rw [← hpoints]
  exact hbody

end Client
end SeriesIngest
