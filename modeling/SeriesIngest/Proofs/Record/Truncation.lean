import SeriesIngest.Proofs.Record.Spelling

/-! The bytes of a record say where they end: what is missing from them and what follows them is
noticed, and reported as what it is. -/
namespace SeriesIngest.Record

variable {measurement : String} {bytes : List UInt8} {r : Record}

theorem ofBytes_part (h : ofBytes measurement bytes = .ok r) {part more : List UInt8}
    (hpart : bytes = part ++ more) (hmore : more ≠ []) :
    ofBytes measurement part = .error .truncated := by
  obtain ⟨htakes, -⟩ := takes_of_ofBytes h
  rw [ofBytes, htakes.short part more hpart hmore]

theorem ofBytes_append (h : ofBytes measurement bytes = .ok r) {more : List UInt8}
    (hmore : more ≠ []) : ofBytes measurement (bytes ++ more) = .error (.trailing more.length) := by
  obtain ⟨htakes, -⟩ := takes_of_ofBytes h
  obtain ⟨byte, rest, rfl⟩ := List.exists_cons_of_ne_nil hmore
  rw [ofBytes, htakes.reads]

/-- No bytes that are read as a record go on beyond others that are. A proper prefix of such bytes
is a truncated record, wherever it ends; after more bytes, it is said how many there are. -/
theorem ofBytes_prefix_free (h : ofBytes measurement bytes = .ok r) :
    (∀ part, part <+: bytes → part ≠ bytes → ofBytes measurement part = .error .truncated) ∧
      (∀ more, more ≠ [] →
        ofBytes measurement (bytes ++ more) = .error (.trailing more.length)) ∧
      RecordDefect.truncated.message = "truncated record" ∧
      ∀ n, (RecordDefect.trailing n).message = s!"{n} trailing byte(s) after record" := by
  refine ⟨?_, fun more hmore => ofBytes_append h hmore, rfl, fun _ => rfl⟩
  rintro part ⟨more, hpart⟩ hne
  refine ofBytes_part h hpart.symm ?_
  rintro rfl
  exact hne (by simpa using hpart)

/-- A cut inside the varint of the type, and two bytes too many. -/
theorem ofBytes_prefix_free_verbose :
    ofBytes "m" verbose = .ok ofVerbose ∧
      ofBytes "m" (verbose.take 12) = .error .truncated ∧
      ofBytes "m" (verbose ++ [0, 0]) = .error (.trailing 2) := by
  obtain ⟨hpart, hmore, -⟩ := ofBytes_prefix_free ofBytes_verbose
  have hne : verbose.take 12 ≠ verbose := by decide
  exact ⟨ofBytes_verbose, hpart _ (List.take_prefix 12 verbose) hne, hmore [0, 0] (by decide)⟩

end SeriesIngest.Record
