import Elementwise.Proofs.Report.Encoding
import Elementwise.Proofs.Settings.Encoding

/-!
Texts of settings and reports. A field that is missing is a default in the one kind of record and a
reason to refuse the text in the other.
-/

namespace Elementwise.Json

/-- Settings are read back from any of their fields, in any order and among unknown strings and
integers, with the defaults for the fields that are missing. A report is read back from all of its
fields, and a text that lacks one of them is refused. -/
theorem written_records_read_back (s : Settings) (hs : s.InWords) (r : Report) (hr : r.InWords) :
    (∀ members, s.Gives members →
      Settings.ofText? (render (ofMembers members)) = some (s.given (members.map Prod.fst))) ∧
    Settings.ofText? (render s.toJson) = some s ∧
    Report.ofText? (render r.toJson) = some r ∧
    ∀ json, r.Lacks json → Report.ofText? (render json) = none := by
  refine ⟨?_, Settings.ofText?_toJson hs, Report.ofText?_toJson hr, ?_⟩
  · intro members h
    exact Settings.ofText?_of_gives hs h
  · intro json h
    exact Report.ofText?_of_lacks h

/-- Largest counts, and names that need escapes. The number of workers is not given, and of two
shares the second lacks a counter. -/
theorem written_records_read_back_of_largest :
    let r : Report := {
      elements := 18446744073709551615, chunk := 1, requestedWorkers := 2, spawnedWorkers := 1,
      shares := [⟨0, 18446744073709551615, 1⟩, ⟨1, 0, 0⟩], elapsed := ⟨0, 999999999⟩ }
    Settings.ofText? (render (ofMembers
        [("theme", string "\t\"dark\""), ("stack_size", natural 18446744073709551615),
          ("lock", string "Backoff"), ("depth", numeral ('-' :: Text.numeral 3)),
          ("thread_name_prefix", string "\x00é\\😀"), ("theme", natural 7)])) =
      some {
        lockStrategy := .backoff, threadName := "\x00é\\😀",
        stackSize := some 18446744073709551615 } ∧
    Report.ofText? (render r.toJson) = some r ∧
    Report.ofText? (render (r.toJson.within "workers" (onItem 1 (without "stolen")))) = none := by
  intro r
  let s : Settings := {
    workers := some 3, lockStrategy := .backoff, threadName := "\x00é\\😀",
    stackSize := some 18446744073709551615 }
  have hs : s.InWords := ⟨by decide, by decide⟩
  have hr : r.InWords := by
    refine ⟨by decide, by decide, by decide, by decide, ?_, ⟨by decide, by decide⟩⟩
    intro share hshare
    rcases List.mem_pair.mp hshare with rfl | rfl <;> exact ⟨by decide, by decide, by decide⟩
  obtain ⟨hgiven, -, hreport, hlacks⟩ := written_records_read_back s hs r hr
  have htheme : "theme" ∉ Settings.fieldNames := by decide
  have hdepth : "depth" ∉ Settings.fieldNames := by decide
  refine ⟨hgiven _ ⟨?_, by decide, ?_⟩, hreport, hlacks _ (.share (by decide) (by decide))⟩
  · simp only [List.forall_mem_cons]
    exact ⟨(absurd · htheme), fun _ => List.mem_of_getElem? (i := 7) rfl,
      fun _ => List.mem_of_getElem? (i := 2) rfl, (absurd · hdepth),
      fun _ => List.mem_of_getElem? (i := 6) rfl, (absurd · htheme), List.forall_mem_nil _⟩
  · simp only [List.forall_mem_cons]
    exact ⟨fun _ => .string _, fun _ => .natural _, fun _ => .string _, fun _ => .negative 3,
      fun _ => .string _, fun _ => .natural 7, List.forall_mem_nil _⟩

end Elementwise.Json
