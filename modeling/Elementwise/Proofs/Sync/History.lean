import Elementwise.Proofs.Range.Word
import Elementwise.Sync.Deque
import Mathlib.Data.List.Basic

/-!
Histories of a deque with a single client: operations of any kind, one after another. What was
handed out from the front ascends from the lower end of the range, what was handed out from the back
descends from the upper end, and what nobody was given lies in between.
-/

namespace Elementwise

def Taken.index? : Taken → Option Nat
  | .index found => found
  | .bounds _ => none

/-- The effect of an operation in 64-bit words. A bound is changed only where something is left. -/
def Access.applyInWords? : Access → Span → Option (Taken × Span)
  | takeFront, span =>
      if span.lower < span.upper then
        (Word.add? span.lower 1).map fun lower => (.index (some span.lower), { span with lower })
      else some (.index none, span)
  | takeBack, span =>
      if span.lower < span.upper then
        (Word.sub? span.upper 1).map fun upper => (.index (some upper), { span with upper })
      else some (.index none, span)
  | inspect, span => some (.bounds span, span)

theorem Access.applyInWords?_eq {span : Span} (hword : span.upper < UInt64.size)
    (access : Access) : access.applyInWords? span = some (access.apply span) := by
  cases access with
  | takeFront =>
      simp only [applyInWords?, apply, Span.takeFront]
      split
      · have hadd : Word.add? span.lower 1 = some (span.lower + 1) := by simp; omega
        rw [hadd, Option.map_some]
      · rfl
  | takeBack =>
      simp only [applyInWords?, apply, Span.takeBack]
      split
      · have hsub : Word.sub? span.upper 1 = some (span.upper - 1) := by simp; omega
        rw [hsub, Option.map_some]
      · rfl
  | inspect => rfl

theorem Access.apply_of_empty {span : Span} (hempty : ¬ span.lower < span.upper)
    (access : Access) :
    ∃ taken, access.apply span = (taken, span) ∧
      (access ≠ .inspect → taken = .index none) := by
  cases access with
  | takeFront => exact ⟨.index none, by simp [apply, Span.takeFront, hempty], fun _ => rfl⟩
  | takeBack => exact ⟨.index none, by simp [apply, Span.takeBack, hempty], fun _ => rfl⟩
  | inspect => exact ⟨.bounds span, rfl, fun hne => absurd rfl hne⟩

namespace Deque

/-- Makes operations one after another and records each with what it returned. There is no result
if one of them does not return. -/
def performAll : List Access → Deque → Option (List (Access × Taken) × Deque)
  | [], d => some ([], d)
  | access :: rest, d =>
      match d.perform access with
      | (.returned taken, d) => (performAll rest d).map fun (log, d) => ((access, taken) :: log, d)
      | _ => none

/-- The indices that operations of one kind were given, in the order of the history. -/
def handedOut (access : Access) (log : List (Access × Taken)) : List Nat :=
  log.filterMap fun entry => if entry.1 = access then entry.2.index? else none

/-- What a history has made of a deque over a range. -/
structure Drawn (span : Span) (log : List (Access × Taken)) (d : Deque) : Prop where
  fits : (handedOut .takeFront log).length + (handedOut .takeBack log).length ≤ span.length
  fronts : handedOut .takeFront log =
    List.range' span.lower (handedOut .takeFront log).length
  backs : handedOut .takeBack log =
    (List.range (handedOut .takeBack log).length).map fun i => span.upper - 1 - i
  bounds : d.bounds =
    ⟨span.lower + (handedOut .takeFront log).length,
      span.upper - (handedOut .takeBack log).length⟩
  free : d.lock = ⟨Lock.free⟩

variable {span : Span} {log : List (Access × Taken)} {d : Deque}

@[simp] theorem handedOut_nil (access : Access) : handedOut access [] = [] := rfl

@[simp] theorem handedOut_append_singleton (access made : Access) (taken : Taken) :
    handedOut access (log ++ [(made, taken)]) =
      handedOut access log ++ (if made = access then taken.index? else none).toList := by
  rw [handedOut, List.filterMap_append]
  rfl

theorem perform_of_free (hfree : d.lock = ⟨Lock.free⟩) (access : Access) :
    d.perform access =
      (.returned (access.apply d.bounds).1, ⟨⟨Lock.free⟩, (access.apply d.bounds).2⟩) := by
  obtain ⟨lock, bounds⟩ := d
  subst hfree
  exact perform_free access bounds

namespace Drawn

theorem ofSpan (span : Span) : Drawn span [] (.ofSpan span) where
  fits := Nat.zero_le _
  fronts := rfl
  backs := rfl
  bounds := rfl
  free := rfl

theorem nonempty_iff (h : Drawn span log d) :
    d.bounds.lower < d.bounds.upper ↔
      (handedOut .takeFront log).length + (handedOut .takeBack log).length < span.length := by
  have hfits := h.fits
  rw [h.bounds]
  simp only [Span.length] at hfits ⊢
  omega

theorem takeFront (h : Drawn span log d) (hsome : d.bounds.lower < d.bounds.upper) :
    Drawn span (log ++ [(.takeFront, .index (some d.bounds.lower))])
      ⟨⟨Lock.free⟩, { d.bounds with lower := d.bounds.lower + 1 }⟩ where
  fits := by
    have hless := h.nonempty_iff.mp hsome
    simp [Taken.index?]
    omega
  fronts := by
    simp only [handedOut_append_singleton, if_true, Taken.index?, Option.toList_some,
      List.length_append, List.length_singleton]
    rw [List.range'_concat, ← h.fronts, h.bounds]
    simp
  backs := by simpa using h.backs
  bounds := by
    rw [h.bounds]
    simp [Taken.index?]
    omega
  free := rfl

theorem takeBack (h : Drawn span log d) (hsome : d.bounds.lower < d.bounds.upper) :
    Drawn span (log ++ [(.takeBack, .index (some (d.bounds.upper - 1)))])
      ⟨⟨Lock.free⟩, { d.bounds with upper := d.bounds.upper - 1 }⟩ where
  fits := by
    have hless := h.nonempty_iff.mp hsome
    simp [Taken.index?]
    omega
  fronts := by simpa using h.fronts
  backs := by
    simp only [handedOut_append_singleton, if_true, Taken.index?, Option.toList_some,
      List.length_append, List.length_singleton]
    rw [List.range_succ, List.map_append, ← h.backs, h.bounds]
    simp
    omega
  bounds := by
    rw [h.bounds]
    simp [Taken.index?]
    omega
  free := rfl

theorem unchanged (h : Drawn span log d) {access : Access} {taken : Taken}
    (hnone : taken.index? = none) :
    Drawn span (log ++ [(access, taken)]) ⟨⟨Lock.free⟩, d.bounds⟩ where
  fits := by simpa [hnone] using h.fits
  fronts := by simpa [hnone] using h.fronts
  backs := by simpa [hnone] using h.backs
  bounds := by simpa [hnone] using h.bounds
  free := rfl

theorem perform (h : Drawn span log d) (access : Access) :
    ∃ taken next, d.perform access = (.returned taken, next) ∧
      Drawn span (log ++ [(access, taken)]) next := by
  refine ⟨_, _, perform_of_free h.free access, ?_⟩
  cases access with
  | takeFront =>
      simp only [Access.apply, Span.takeFront]
      split
      · exact h.takeFront ‹_›
      · exact h.unchanged rfl
  | takeBack =>
      simp only [Access.apply, Span.takeBack]
      split
      · exact h.takeBack ‹_›
      · exact h.unchanged rfl
  | inspect => exact h.unchanged rfl

theorem performAll (h : Drawn span log d) (accesses : List Access) :
    ∃ more last, d.performAll accesses = some (more, last) ∧ more.map Prod.fst = accesses ∧
      Drawn span (log ++ more) last := by
  induction accesses generalizing log d with
  | nil => exact ⟨[], d, rfl, rfl, by rwa [List.append_nil]⟩
  | cons access rest ih =>
      obtain ⟨taken, next, hperform, hnext⟩ := h.perform access
      obtain ⟨more, last, hrest, hmade, hlast⟩ := ih hnext
      refine ⟨(access, taken) :: more, last, ?_, by rw [List.map_cons, hmade], ?_⟩
      · simp only [Deque.performAll, hperform, hrest, Option.map_some]
      · rwa [List.append_assoc] at hlast

/-- The next take comes back empty-handed once everything was handed out, and not before. -/
theorem take_eq_none_iff (h : Drawn span log d) {access : Access} (htake : access ≠ .inspect) :
    (d.perform access).1 = .returned (.index none) ↔
      (handedOut .takeFront log).length + (handedOut .takeBack log).length = span.length := by
  have hfits := h.fits
  have hsome := h.nonempty_iff
  rw [perform_of_free h.free]
  cases access with
  | takeFront =>
      simp only [Access.apply, Span.takeFront]
      split <;> simp <;> omega
  | takeBack =>
      simp only [Access.apply, Span.takeBack]
      split <;> simp <;> omega
  | inspect => exact absurd rfl htake

theorem inspect (h : Drawn span log d) :
    d.perform .inspect = (.returned (.bounds d.bounds), d) := by
  rw [perform_of_free h.free, ← h.free]
  rfl

end Drawn

theorem perform_of_empty (hfree : d.lock = ⟨Lock.free⟩)
    (hempty : ¬ d.bounds.lower < d.bounds.upper) (access : Access) :
    ∃ taken, d.perform access = (.returned taken, d) ∧
      (access ≠ .inspect → taken = .index none) := by
  obtain ⟨taken, happly, htaken⟩ := Access.apply_of_empty hempty access
  refine ⟨taken, ?_, htaken⟩
  rw [perform_of_free hfree, happly, ← hfree]

theorem performAll_of_empty (hfree : d.lock = ⟨Lock.free⟩)
    (hempty : ¬ d.bounds.lower < d.bounds.upper) (accesses : List Access) :
    ∃ log, d.performAll accesses = some (log, d) ∧
      ∀ entry ∈ log, entry.1 ≠ .inspect → entry.2 = .index none := by
  induction accesses with
  | nil => exact ⟨[], rfl, fun entry hentry => absurd hentry List.not_mem_nil⟩
  | cons access rest ih =>
      obtain ⟨taken, hperform, htaken⟩ := perform_of_empty hfree hempty access
      obtain ⟨log, hrest, hlog⟩ := ih
      refine ⟨(access, taken) :: log, ?_, List.forall_mem_cons.mpr ⟨htaken, hlog⟩⟩
      simp only [performAll, hperform, hrest, Option.map_some]

/-- After any history over a range whose end is a word: what came from the front ascends from its
start, what came from the back descends from its end, the rest is what `inspect` shows, a take comes
back empty-handed exactly if nothing is left, and from then on all of them do and change nothing.
The lock is free after every operation, and none of them leaves the words. -/
theorem history_drawn (span : Span) (accesses : List Access) (hword : span.upper < UInt64.size) :
    ∃ log d, (ofSpan span).performAll accesses = some (log, d) ∧
      log.map Prod.fst = accesses ∧
      Drawn span log d ∧
      d.perform .inspect = (.returned (.bounds d.bounds), d) ∧
      (∀ access ≠ .inspect, (d.perform access).1 = .returned (.index none) ↔
        (handedOut .takeFront log).length + (handedOut .takeBack log).length = span.length) ∧
      ((handedOut .takeFront log).length + (handedOut .takeBack log).length = span.length →
        ∀ later, ∃ log', d.performAll later = some (log', d) ∧
          ∀ entry ∈ log', entry.1 ≠ .inspect → entry.2 = .index none) ∧
      ∀ access, ∃ taken bounds, access.applyInWords? d.bounds = some (taken, bounds) ∧
        d.perform access = (.returned taken, { d with bounds }) := by
  obtain ⟨log, d, hrun, hmade, hdrawn⟩ := (Drawn.ofSpan span).performAll accesses
  rw [List.nil_append] at hdrawn
  refine ⟨log, d, hrun, hmade, hdrawn, hdrawn.inspect, fun access => hdrawn.take_eq_none_iff,
    fun hall => ?_, fun access => ?_⟩
  · have hempty : ¬ d.bounds.lower < d.bounds.upper := fun hsome =>
      absurd hall (Nat.ne_of_lt (hdrawn.nonempty_iff.mp hsome))
    exact performAll_of_empty hdrawn.free hempty
  · have hupper : d.bounds.upper < UInt64.size := by
      rw [hdrawn.bounds]
      exact Nat.lt_of_le_of_lt (Nat.sub_le _ _) hword
    refine ⟨(access.apply d.bounds).1, (access.apply d.bounds).2,
      Access.applyInWords?_eq hupper access, ?_⟩
    rw [perform_of_free hdrawn.free, hdrawn.free]

/-- Two indices below the largest word, asked for three times. -/
theorem history_drawn_of_last_words :
    ∃ log d, (ofSpan ⟨UInt64.size - 3, UInt64.size - 1⟩).performAll
        [.takeFront, .inspect, .takeBack, .takeFront] = some (log, d) ∧
      handedOut .takeFront log = [UInt64.size - 3] ∧
      handedOut .takeBack log = [UInt64.size - 2] ∧
      d.bounds = ⟨UInt64.size - 2, UInt64.size - 2⟩ ∧
      (d.perform .takeBack).1 = .returned (.index none) := by
  obtain ⟨log, d, hrun, -, hdrawn, -, hnone, -, -⟩ := history_drawn
    ⟨UInt64.size - 3, UInt64.size - 1⟩ [.takeFront, .inspect, .takeBack, .takeFront] (by decide)
  obtain ⟨rfl, rfl⟩ := Prod.mk.inj (Option.some.inj hrun)
  exact ⟨_, _, rfl, hdrawn.fronts, hdrawn.backs, hdrawn.bounds, (hnone _ (by decide)).mpr rfl⟩

end Deque

end Elementwise
