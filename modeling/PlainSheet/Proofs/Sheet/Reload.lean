import PlainSheet.Proofs.Evaluation.Sequence
import PlainSheet.Proofs.FileTree.Writing
import PlainSheet.Proofs.Table.Size
import PlainSheet.Proofs.Table.Storage
import PlainSheet.Sheet.Files

/-! Sheets that are saved and loaded again. The raw text of a sheet that was loaded is no larger
than the file it was loaded from, so the limit on the size of files does not refuse it, and it is
read as the same table. -/

namespace PlainSheet.Sheet

variable {files : FileTree} {path : String} {sheet : Sheet}

theorem load_eq_ok_iff :
    load files path = .ok sheet ↔
      ∃ text : String, files.read path = .ok text.toUTF8 ∧
        text.utf8ByteSize ≤ Table.maxBytes ∧ Sheet.ofString text = sheet := by
  unfold load
  constructor
  · intro h
    obtain ⟨table, hTable, rfl⟩ := Evaluation.map_eq_ok_iff.mp h
    obtain ⟨text, hRead, hSize, rfl⟩ := Table.ofFile_eq_ok_iff.mp hTable
    exact ⟨text, hRead, hSize, rfl⟩
  · intro h
    obtain ⟨text, hRead, hSize, rfl⟩ := h
    rw [Table.ofFile_eq_ok_iff.mpr ⟨text, hRead, hSize, rfl⟩]
    rfl

theorem read_of_saveRaw {later : FileTree} (h : sheet.saveRaw files path = .ok later) :
    later.read path = .ok sheet.renderRaw.toUTF8 :=
  (FileTree.writtenAt_of_write h).read_eq

theorem ofString_renderRaw (text : String) :
    Sheet.ofString (Sheet.ofString text).renderRaw = Sheet.ofString text :=
  congrArg (Sheet.mk · none) (Table.canonical_ofString text).ofString_toText

/-- A sheet that was loaded is itself loaded again from where its raw contents were saved. -/
theorem load_of_saveRaw {before later : FileTree} {source : String}
    (hLoad : load before source = .ok sheet) (hSave : sheet.saveRaw files path = .ok later) :
    load later path = .ok sheet := by
  obtain ⟨text, -, hSize, rfl⟩ := load_eq_ok_iff.mp hLoad
  rw [load_eq_ok_iff]
  exact ⟨_, read_of_saveRaw hSave,
    Nat.le_trans (Table.utf8ByteSize_toText_ofString_le text) hSize, ofString_renderRaw text⟩

/-- The raw text of a table is no larger than the text that the table was read from, and every
text in a file is loaded that is no larger than the limit. So a sheet that was loaded can be saved
wherever a file can be written, and is then loaded from there with the same table. Saving it once
more, there or wherever else a file can be written, writes the same bytes. -/
theorem saveRaw_reloads :
    (∀ text : String, (Table.ofString text).toText.utf8ByteSize ≤ text.utf8ByteSize) ∧
    (∀ (files : FileTree) (path : String) (sheet : Sheet), load files path = .ok sheet ↔
      ∃ text : String, files.read path = .ok text.toUTF8 ∧
        text.utf8ByteSize ≤ Table.maxBytes ∧ Sheet.ofString text = sheet) ∧
    ∀ (before files : FileTree) (source path : String) (sheet : Sheet),
      load before source = .ok sheet → files.Writable path →
        ∃ later again, sheet.saveRaw files path = .ok later ∧ load later path = .ok again ∧
          again.table = sheet.table ∧ later.Writable path ∧
          ∀ (others : FileTree) (target : String), others.Writable target →
            ∃ last, again.saveRaw others target = .ok last ∧
              last.read target = later.read path := by
  refine ⟨Table.utf8ByteSize_toText_ofString_le, fun _ _ _ => load_eq_ok_iff, ?_⟩
  intro before files source path sheet hLoad hWritable
  obtain ⟨later, hSave⟩ := hWritable.exists_write sheet.renderRaw.toUTF8
  refine ⟨later, sheet, hSave, load_of_saveRaw hLoad hSave, rfl,
    FileTree.writable_of_write hSave, ?_⟩
  intro others target hTarget
  obtain ⟨last, hAgain⟩ := hTarget.exists_write sheet.renderRaw.toUTF8
  exact ⟨last, hAgain, (read_of_saveRaw hAgain).trans (read_of_saveRaw hSave).symm⟩

/-- The blank token in the first line makes a row longer than the line has cells, so that the row
takes in the cell of the next line, and a tab is written for the newline. -/
theorem saveRaw_reloads_on_blank_token :
    let files := (FileTree.emptyAt ["work"]).put ["work", "in.txt"]
      (.file "7\t\t x \n=B1  ".toUTF8)
    let sheet : Sheet := ⟨⟨[["7", " x ", "=B1"]]⟩, none⟩
    load files "in.txt" = .ok sheet ∧ files.Writable "in.txt" ∧
      ∃ later again, sheet.saveRaw files "in.txt" = .ok later ∧
        load later "in.txt" = .ok again ∧ again.table = sheet.table ∧
        ∃ last, again.saveRaw later "in.txt" = .ok last ∧
          last.read "in.txt" = later.read "in.txt" := by
  intro files sheet
  have hLoad : load files "in.txt" = .ok sheet := by decide +kernel
  have hWritable : files.Writable "in.txt" := ⟨.empty, _, rfl⟩
  obtain ⟨later, again, hSave, hAgain, hTable, hLater, hMore⟩ :=
    saveRaw_reloads.2.2 files files "in.txt" "in.txt" sheet hLoad hWritable
  exact ⟨hLoad, hWritable, later, again, hSave, hAgain, hTable, hMore later "in.txt" hLater⟩

end PlainSheet.Sheet
