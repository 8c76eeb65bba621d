import Elementwise.Proofs.Json.Record
import Elementwise.Report.Encoding

/-!
Reports as JSON. Every field of every record is written, and each of them is needed to read the
report back.
-/

namespace Elementwise

open Json (record?_zip below?_natural eq_none_of_without Legible)

theorem counter?_natural {count : Nat} (h : count < 2 ^ 64) : counter? (.natural count) = some count :=
  below?_natural h

namespace Share

/-- The counters fit a word. -/
structure InWords (s : Share) : Prop where
  worker : s.worker < 2 ^ 64
  completed : s.tally.completed < 2 ^ 64
  stolen : s.tally.stolen < 2 ^ 64

theorem ofJson?_eq_some_iff {json : Json} {s : Share} :
    ofJson? json = some s ↔ ∃ worker completed stolen,
      json.record? .allowed fieldNames = some [some worker, some completed, some stolen] ∧
        counter? worker = some s.worker ∧ counter? completed = some s.tally.completed ∧
          counter? stolen = some s.tally.stolen := by
  constructor
  · intro h
    simp only [ofJson?, Json.required, Option.bind_eq_bind, Option.bind_eq_some_iff] at h
    obtain ⟨found, hrecord, h⟩ := h
    split at h
    · simp only [Option.bind_eq_some_iff, Option.pure_def, Option.some.injEq] at h
      obtain ⟨_, ⟨worker, rfl, hworker⟩, _, ⟨completed, rfl, hcompleted⟩, _,
        ⟨stolen, rfl, hstolen⟩, rfl⟩ := h
      exact ⟨worker, completed, stolen, hrecord, hworker, hcompleted, hstolen⟩
    · cases h
  · rintro ⟨worker, completed, stolen, hrecord, hworker, hcompleted, hstolen⟩
    simp only [ofJson?, Json.required, hrecord, hworker, hcompleted, hstolen, Option.bind_eq_bind,
      Option.bind_some]
    rfl

theorem toJson_legible (s : Share) : s.toJson.Legible := by
  refine Legible.ofMembers_zip ?_
  simp only [List.forall_mem_cons]
  exact ⟨.natural _, .natural _, .natural _, List.forall_mem_nil _⟩

theorem ofJson?_toJson {s : Share} (h : s.InWords) : ofJson? s.toJson = some s :=
  ofJson?_eq_some_iff.mpr ⟨_, _, _, record?_zip (by decide) rfl, counter?_natural h.worker,
    counter?_natural h.completed, counter?_natural h.stolen⟩

theorem ofJson?_without (s : Share) {name : String} (h : name ∈ fieldNames) :
    ofJson? (s.toJson.without name) = none := by
  refine eq_none_of_without .allowed (fun hread => ?_) h _
  obtain ⟨worker, completed, stolen, hrecord, -⟩ := ofJson?_eq_some_iff.mp hread
  exact ⟨[worker, completed, stolen], hrecord⟩

end Share

namespace Elapsed

/-- The seconds fit a word, and the nanoseconds are less than a second. -/
structure InWords (e : Elapsed) : Prop where
  seconds : e.seconds < 2 ^ 64
  nanoseconds : e.nanoseconds < 10 ^ 9

theorem ofJson?_eq_some_iff {json : Json} {e : Elapsed} :
    ofJson? json = some e ↔ ∃ seconds nanoseconds s n,
      json.record? .refused fieldNames = some [some seconds, some nanoseconds] ∧
        counter? seconds = some s ∧ Json.below? nanosecondLimit nanoseconds = some n ∧
          carry? s n = some e := by
  constructor
  · intro h
    simp only [ofJson?, Json.required, Option.bind_eq_bind, Option.bind_eq_some_iff] at h
    obtain ⟨found, hrecord, h⟩ := h
    split at h
    · simp only [Option.bind_eq_some_iff] at h
      obtain ⟨s, ⟨seconds, rfl, hseconds⟩, n, ⟨nanoseconds, rfl, hnanoseconds⟩, hcarry⟩ := h
      exact ⟨seconds, nanoseconds, s, n, hrecord, hseconds, hnanoseconds, hcarry⟩
    · cases h
  · rintro ⟨seconds, nanoseconds, s, n, hrecord, hseconds, hnanoseconds, hcarry⟩
    simp only [ofJson?, Json.required, hrecord, hseconds, hnanoseconds, hcarry, Option.bind_eq_bind,
      Option.bind_some]

theorem carry?_eq {e : Elapsed} (h : e.InWords) : carry? e.seconds e.nanoseconds = some e := by
  have hcarry : e.nanoseconds / perSecond = 0 := Nat.div_eq_of_lt h.nanoseconds
  have hrest : e.nanoseconds % perSecond = e.nanoseconds := Nat.mod_eq_of_lt h.nanoseconds
  rw [carry?, hcarry, hrest]
  exact if_pos h.seconds

theorem toJson_legible (e : Elapsed) : e.toJson.Legible := by
  refine Legible.ofMembers_zip ?_
  simp only [List.forall_mem_cons]
  exact ⟨.natural _, .natural _, List.forall_mem_nil _⟩

theorem ofJson?_toJson {e : Elapsed} (h : e.InWords) : ofJson? e.toJson = some e := by
  have hlimit : e.nanoseconds < nanosecondLimit := Nat.lt_of_lt_of_le h.nanoseconds (by decide)
  exact ofJson?_eq_some_iff.mpr ⟨_, _, _, _, record?_zip (by decide) rfl,
    counter?_natural h.seconds, below?_natural hlimit, carry?_eq h⟩

theorem ofJson?_without (e : Elapsed) {name : String} (h : name ∈ fieldNames) :
    ofJson? (e.toJson.without name) = none := by
  refine eq_none_of_without .refused (fun hread => ?_) h _
  obtain ⟨seconds, nanoseconds, s, n, hrecord, -⟩ := ofJson?_eq_some_iff.mp hread
  exact ⟨[seconds, nanoseconds], hrecord⟩

end Elapsed

namespace Report

/-- Every counter fits a word, and so does the elapsed time. -/
structure InWords (r : Report) : Prop where
  elements : r.elements < 2 ^ 64
  chunk : r.chunk < 2 ^ 64
  requestedWorkers : r.requestedWorkers < 2 ^ 64
  spawnedWorkers : r.spawnedWorkers < 2 ^ 64
  shares : ∀ share ∈ r.shares, share.InWords
  elapsed : r.elapsed.InWords

theorem ofJson?_eq_some_iff {json : Json} {r : Report} :
    ofJson? json = some r ↔ ∃ elements chunk requested spawned shares elapsed,
      json.record? .allowed fieldNames = some [some elements, some chunk, some requested,
          some spawned, some shares, some elapsed] ∧
        counter? elements = some r.elements ∧ counter? chunk = some r.chunk ∧
          counter? requested = some r.requestedWorkers ∧ counter? spawned = some r.spawnedWorkers ∧
            Json.list? Share.ofJson? shares = some r.shares ∧
              Elapsed.ofJson? elapsed = some r.elapsed := by
  constructor
  · intro h
    simp only [ofJson?, Json.required, Option.bind_eq_bind, Option.bind_eq_some_iff] at h
    obtain ⟨found, hrecord, h⟩ := h
    split at h
    · simp only [Option.bind_eq_some_iff, Option.pure_def, Option.some.injEq] at h
      obtain ⟨_, ⟨elements, rfl, helements⟩, _, ⟨chunk, rfl, hchunk⟩, _,
        ⟨requested, rfl, hrequested⟩, _, ⟨spawned, rfl, hspawned⟩, _, ⟨shares, rfl, hshares⟩, _,
        ⟨elapsed, rfl, helapsed⟩, rfl⟩ := h
      exact ⟨elements, chunk, requested, spawned, shares, elapsed, hrecord, helements, hchunk,
        hrequested, hspawned, hshares, helapsed⟩
    · cases h
  · rintro ⟨elements, chunk, requested, spawned, shares, elapsed, hrecord, helements, hchunk,
      hrequested, hspawned, hshares, helapsed⟩
    simp only [ofJson?, Json.required, hrecord, helements, hchunk, hrequested, hspawned, hshares,
      helapsed, Option.bind_eq_bind, Option.bind_some]
    rfl

theorem toJson_legible (r : Report) : r.toJson.Legible := by
  have hshares : (Json.array (r.shares.map Share.toJson)).Legible := by
    refine .array fun item hitem => ?_
    obtain ⟨share, -, rfl⟩ := List.mem_map.mp hitem
    exact share.toJson_legible
  refine Legible.ofMembers_zip ?_
  simp only [List.forall_mem_cons]
  exact ⟨.natural _, .natural _, .natural _, .natural _, hshares, r.elapsed.toJson_legible,
    List.forall_mem_nil _⟩

theorem ofJson?_toJson {r : Report} (h : r.InWords) : ofJson? r.toJson = some r :=
  ofJson?_eq_some_iff.mpr ⟨_, _, _, _, _, _, record?_zip (by decide) rfl,
    counter?_natural h.elements, counter?_natural h.chunk, counter?_natural h.requestedWorkers,
    counter?_natural h.spawnedWorkers,
    Json.list?_map fun share hshare => Share.ofJson?_toJson (h.shares share hshare),
    Elapsed.ofJson?_toJson h.elapsed⟩

theorem ofJson?_without (r : Report) {name : String} (h : name ∈ fieldNames) :
    ofJson? (r.toJson.without name) = none := by
  refine eq_none_of_without .allowed (fun hread => ?_) h _
  obtain ⟨elements, chunk, requested, spawned, shares, elapsed, hrecord, -⟩ :=
    ofJson?_eq_some_iff.mp hread
  exact ⟨[elements, chunk, requested, spawned, shares, elapsed], hrecord⟩

theorem ofJson?_without_of_share {r : Report} {position : Nat} {name : String}
    (hposition : position < r.shares.length) (h : name ∈ Share.fieldNames) :
    ofJson? (r.toJson.within "workers" (Json.onItem position (Json.without name))) = none := by
  rw [Option.eq_none_iff_forall_ne_some]
  intro read hread
  obtain ⟨_, _, _, _, shares, _, hrecord, -, -, -, -, hshares, -⟩ := ofJson?_eq_some_iff.mp hread
  have hitems :
      shares = .array ((r.shares.map Share.toJson).modify position (Json.without name)) := by
    cases hrecord
    rfl
  have hitem : r.shares[position].toJson.without name ∈
      (r.shares.map Share.toJson).modify position (Json.without name) :=
    List.mem_iff_getElem?.mpr ⟨position, by simp [hposition]⟩
  rw [hitems] at hshares
  obtain ⟨share, hshare⟩ := Json.exists_of_list?_eq_some hshares hitem
  rw [Share.ofJson?_without _ h] at hshare
  cases hshare

theorem ofJson?_without_of_elapsed (r : Report) {name : String} (h : name ∈ Elapsed.fieldNames) :
    ofJson? (r.toJson.within "elapsed" (Json.without name)) = none := by
  rw [Option.eq_none_iff_forall_ne_some]
  intro read hread
  obtain ⟨_, _, _, _, _, elapsed, hrecord, -, -, -, -, -, helapsed⟩ := ofJson?_eq_some_iff.mp hread
  have hitem : elapsed = r.elapsed.toJson.without name := by
    cases hrecord
    rfl
  rw [hitem, Elapsed.ofJson?_without _ h] at helapsed
  cases helapsed

/-- What a report is written as, less one field of it or of a record inside it. -/
inductive Lacks (r : Report) : Json → Prop where
  | field {name : String} (h : name ∈ fieldNames) : Lacks r (r.toJson.without name)
  | share {position : Nat} {name : String} (hposition : position < r.shares.length)
      (h : name ∈ Share.fieldNames) :
      Lacks r (r.toJson.within "workers" (Json.onItem position (Json.without name)))
  | elapsed {name : String} (h : name ∈ Elapsed.fieldNames) :
      Lacks r (r.toJson.within "elapsed" (Json.without name))

theorem Lacks.legible {r : Report} {json : Json} (h : r.Lacks json) : json.Legible := by
  cases h with
  | field _ => exact r.toJson_legible.without _
  | share _ _ =>
      exact r.toJson_legible.within _ fun hitem => hitem.onItem _ fun hshare => hshare.without _
  | elapsed _ => exact r.toJson_legible.within _ fun hitem => hitem.without _

/-- The report that a text gives. -/
def ofText? (text : List Char) : Option Report := (Json.parse? text).bind ofJson?

theorem ofText?_toJson {r : Report} (h : r.InWords) : ofText? (Json.render r.toJson) = some r := by
  rw [ofText?, Json.parse?_render r.toJson_legible, Option.bind_some, ofJson?_toJson h]

theorem ofText?_of_lacks {r : Report} {json : Json} (h : r.Lacks json) :
    ofText? (Json.render json) = none := by
  rw [ofText?, Json.parse?_render h.legible, Option.bind_some]
  cases h with
  | field h => exact r.ofJson?_without h
  | share hposition h => exact ofJson?_without_of_share hposition h
  | elapsed h => exact r.ofJson?_without_of_elapsed h

end Report

end Elementwise
