import Phrasebook.Proofs.Loader.Directory
import Phrasebook.Proofs.Text.LineEnds

/-!
# Phrasebook.Proofs.Loader.Place

Places in a file that has been read.

A place is one in the text of the document, and that is the text of the file with every line end as a
line feed. So the characters of the file fall into pieces that become what stands before the place, in
it and after it; and if no carriage return comes before the end of the place, it is the same place in
the file (`valueRange?_of_loaded_file`). Behind a line end of two characters it is not
(`valueRange?_shifted_by_line_end`).
-/

namespace Phrasebook

namespace Document

theorem text_of_parse {text : String} {document : Document}
    (read : (parse text).value = .ok document) : document.text = text := by
  unfold parse at read
  split at read
  next => cases read
  next =>
    cases read
    rfl
  next graph _ =>
    simp only [Logged.value_bind] at read
    split at read
    next => cases read
    next =>
      cases read
      rfl

/-- What is found for a key takes up some of the text. -/
theorem start_lt_stop_of_findValueRange? {document : Document} {key : Option Text} {locale : Text}
    {range : SourceRange} (found : (document.findValueRange? key locale).value = some range) :
    range.start < range.stop := by
  match key with
  | none => cases found
  | some [] => cases found
  | some (c :: rest) =>
    obtain ⟨whole, entries, path, s, -, leads, rfl, highest⟩ :=
      exists_highest_of_findValueRange? (List.cons_ne_nil c rest) found
    have shown := highest.1.2
    rw [leads, Option.bind_some, Option.isSome_iff_exists] at shown
    obtain ⟨_, shown⟩ := shown
    obtain ⟨same, visible⟩ := (Node.shown?_eq_some_iff _ _).mp shown
    cases same
    exact Int.not_le.mp visible

end Document

namespace Index

/-- A range inside a file is looked for in the document of its part. -/
theorem value_valueRange? (index : Index) (scope : String) (key : Option Text) (locale : Text)
    (file : String) :
    (index.valueRange? scope key locale file).value =
      ((index.part? scope file).bind (·.document)).bind fun document =>
        (document.findValueRange? key locale).value := by
  rw [valueRange?, part?]
  cases index.store? scope with
  | none => rfl
  | some store =>
    simp only [Option.bind_some, Store.valueRange?, Store.document?]
    cases (store.part? file).bind (·.document) <;> rfl

end Index

namespace Loader

theorem exists_bytes_of_text? {disk : Disk} {path : Path} {text : String}
    (has : text? disk path = some text) :
    ∃ bytes chars, disk.read path = .ok bytes ∧ Text.Utf8.decode bytes = .ok chars ∧
      text = String.ofList (Text.unifyLineEnds chars) := by
  obtain ⟨bytes, read, decoded⟩ := text?_eq_some_iff.mp has
  rw [textOf] at decoded
  cases chars : Text.Utf8.decode bytes with
  | error e => simp [chars, Except.map] at decoded
  | ok own =>
    rw [chars] at decoded
    cases decoded
    exact ⟨bytes, own, read, chars, rfl⟩

/-- A file is read with success only if it has a text and this one is that of a document. -/
theorem exists_document_of_success {disk : Disk} {index : Index} {scope : String} {path : Path}
    {outcome : Outcome Index.Payload}
    (ended : (loadFile disk index scope path).value.2 = .ok outcome) (success : outcome.isSuccess) :
    ∃ text document, text? disk path = some text ∧ (Document.parse text).value = .ok document := by
  have amounts : loading? disk scope path ≠ none := by
    intro nothing
    have refused := (loadFile_amounts disk index scope path).2.mpr nothing outcome ended
    rw [success] at refused
    cases refused
  rw [loading?] at amounts
  cases has : text? disk path with
  | none => simp [has] at amounts
  | some text =>
    cases read : (Document.parse text).value with
    | error fault => simp [has, registering?, read, Except.toOption] at amounts
    | ok document => exact ⟨text, document, rfl, read⟩

/-- After a file has been read with success, every place that is found in it comes from a piece of the
    characters of the file: what stands before the piece, in it and after it becomes what stands
    before the place, in it and after it. If no carriage return comes before its end, the place is the
    same in the file. -/
theorem valueRange?_of_loaded_file {disk : Disk} {index : Index} {scope : String} {path : Path}
    {outcome : Outcome Index.Payload}
    (ended : (loadFile disk index scope path).value.2 = .ok outcome) (success : outcome.isSuccess) :
    let loaded := (loadFile disk index scope path).value.1
    ∃ bytes chars document, disk.read path = .ok bytes ∧ Text.Utf8.decode bytes = .ok chars ∧
      (loaded.part? scope path.toString).bind (·.document) = some document ∧
      ∀ key locale range, (loaded.valueRange? scope key locale path.toString).value = some range →
        (∃ before inside after, chars = before ++ inside ++ after ∧
          Text.unifyLineEnds before = document.text.toList.take range.start.toNat ∧
          String.ofList (Text.unifyLineEnds inside) = document.slice range ∧
          Text.unifyLineEnds after = document.text.toList.drop range.stop.toNat) ∧
        ('\r' ∉ chars.take range.stop.toNat →
          String.ofList ((chars.take range.stop.toNat).drop range.start.toNat) =
            document.slice range) := by
  intro loaded
  obtain ⟨text, document, has, parsed⟩ := exists_document_of_success ended success
  obtain ⟨bytes, chars, read, decoded, unified⟩ := exists_bytes_of_text? has
  have retained : (loaded.part? scope path.toString).bind (·.document) = some document := by
    have holds : document? disk path = some document := by
      simp [document?, has, parsed, Except.toOption]
    rw [show loaded = _ from (loadFile_amounts disk index scope path).1, part?_loading, if_pos rfl,
      holds]
    rfl
  refine ⟨bytes, chars, document, read, decoded, retained, ?_⟩
  intro key locale range found
  rw [Index.value_valueRange?, retained, Option.bind_some] at found
  have forward := Document.start_lt_stop_of_findValueRange? found
  have le : range.start.toNat ≤ range.stop.toNat := by omega
  -- Its offsets count in the text that was read, which has the line ends unified.
  have same : document.text.toList = Text.unifyLineEnds chars := by
    rw [Document.text_of_parse parsed, unified, String.toList_ofList]
  rw [Document.slice, same]
  constructor
  · obtain ⟨before, inside, after, whole, first, second, third⟩ :=
      Text.exists_pieces_of_unifyLineEnds chars le
    exact ⟨before, inside, after, whole, first, congrArg String.ofList second, third⟩
  · intro free
    -- Where no carriage return comes before the end, unifying has changed nothing there.
    rw [Text.take_unifyLineEnds free]

/-- The value comes before the line end of two characters, so its place is the one in the file. -/
theorem valueRange?_of_loaded_file_before_line_end :
    let content : String := "en: {k: 𝄞}\r\nfr: x"
    let path : Path := ⟨"", ["p", "a.yml"]⟩
    let disk : Disk := ⟨[(Disk.start ++ ["p"], .directory),
      (Disk.start ++ ["p", "a.yml"], .file content.toUTF8.data.toList)]⟩
    let loaded := (loadFile disk (.empty "en") "s" path).value.1
    (loaded.valueRange? "s" (some "k") "en" "p/a.yml").value = some ⟨8, 9⟩ ∧
      ∃ document, (loaded.part? "s" "p/a.yml").bind (·.document) = some document ∧
        String.ofList ((content.toList.take 9).drop 8) = document.slice ⟨8, 9⟩ := by
  intro content path disk loaded
  have success : (loadFile disk (.empty "en") "s" path).value.2.toOption.any (·.isSuccess) := by
    decide +kernel
  obtain ⟨outcome, ended, successful⟩ := (Option.any_eq_true _ _).mp success
  obtain ⟨bytes, chars, document, read, decoded, retained, places⟩ :=
    valueRange?_of_loaded_file (eq_ok_of_toOption ended) successful
  have found : (loaded.valueRange? "s" (some "k") "en" "p/a.yml").value = some ⟨8, 9⟩ := by
    decide +kernel
  have written : (disk.read path).toOption.bind (Text.Utf8.decode · |>.toOption) =
      some content.toList := by decide +kernel
  have same : chars = content.toList := by simpa [read, decoded, Except.toOption] using written
  have free : '\r' ∉ content.toList.take 9 := by decide +kernel
  subst same
  exact ⟨found, document, retained, (places _ _ _ found).2 free⟩

/-- The line end before the value is one character in the text of the document and two in the file, so
    the place is that of the blank before the value. -/
theorem valueRange?_shifted_by_line_end :
    let bytes (text : String) : List UInt8 := text.toList.map fun c => .ofNat c.toNat
    let content : String := "en:\r\n  k: v\r\n"
    let path : Path := ⟨"", ["p", "a.yml"]⟩
    let disk : Disk := ⟨[(Disk.start ++ ["p"], .directory),
      (Disk.start ++ ["p", "a.yml"], .file (bytes content))]⟩
    let after := (loadFile disk (.empty "en") "s" path).value
    after.2.toOption.any (·.isSuccess) ∧
      (Text.Utf8.decode (bytes content)).toOption = some content.toList ∧
      (after.1.valueRange? "s" (some "k") "en" "p/a.yml").value = some ⟨9, 10⟩ ∧
      String.ofList ((content.toList.take 10).drop 9) = " " ∧
      ((after.1.part? "s" "p/a.yml").bind (·.document)).map (·.slice ⟨9, 10⟩) = some "v" := by
  decide +kernel

end Loader

end Phrasebook
