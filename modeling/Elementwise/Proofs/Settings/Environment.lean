import Elementwise.Executor
import Elementwise.Proofs.Text.Blank
import Elementwise.Proofs.Text.Numeral
import Elementwise.Settings.Environment

/-!
The grammar of the environment. A value is read if and only if it follows the grammar of its variable,
and the first variable whose value does not is the one that is rejected.
-/

namespace Elementwise

namespace Settings

/-- A value that asks for a number of workers. Zero, however it is written, asks for none. -/
def AsksWorkers (text : String) (workers : Option Nat) : Prop :=
  ∃ core n, Text.Trimmed text.toList core ∧ Text.Denotes core n ∧ n < 2 ^ 64 ∧
    workers = if n = 0 then none else some n

/-- A value is a word, apart from blanks around it and the case of its letters. -/
def Spells (text word : String) : Prop :=
  ∃ core, Text.Trimmed text.toList core ∧ core.map Char.toLower = word.toList

def AsksVerify (text : String) (verify : Bool) : Prop :=
  ∃ word ∈ if verify then ["1", "true", "on", "yes"] else ["0", "false", "off", "no"],
    Spells text word

def AsksLock (text : String) : LockStrategy → Prop
  | .spin => Spells text "spin"
  | .backoff => Spells text "backoff"

/-- A setting has the value that its variable asks for, or the default if the variable is unset. -/
def Holds {α : Type} (lookup : String → Option String) (key : String) (asks : String → α → Prop)
    (default value : α) : Prop :=
  match lookup key with
  | none => value = default
  | some text => asks text value

/-- The variables in the order in which they are read, with the values they may have. -/
def grammar : List (String × (String → Prop)) :=
  [("PARVEC_NUM_THREADS", fun text => ∃ workers, AsksWorkers text workers),
    ("PARVEC_VERIFY", fun text => ∃ verify, AsksVerify text verify),
    ("PARVEC_LOCK", fun text => ∃ strategy, AsksLock text strategy)]

/-- A variable is unset or has a value that it may have. -/
def Accepted (lookup : String → Option String) (v : String × (String → Prop)) : Prop :=
  ∀ text, lookup v.1 = some text → v.2 text

/-- The first variable with a value that it may not have, and the rejection that quotes this value. -/
inductive Offends (lookup : String → Option String) :
    List (String × (String → Prop)) → Rejection → Prop where
  | here {v : String × (String → Prop)} {others : List (String × (String → Prop))} {text : String}
      (hset : lookup v.1 = some text) (hfault : ¬ v.2 text) :
      Offends lookup (v :: others) (.invalidVariable v.1 text)
  | later {v : String × (String → Prop)} {others : List (String × (String → Prop))}
      {reason : Rejection} (h : Accepted lookup v) (hoffends : Offends lookup others reason) :
      Offends lookup (v :: others) reason

theorem bind_eq_ok_iff {α β : Type} {x : Except Rejection α} {f : α → Except Rejection β} {b : β} :
    (x >>= f) = .ok b ↔ ∃ a, x = .ok a ∧ f a = .ok b := by
  cases x with
  | error reason => exact iff_of_false (fun h => by cases h) fun ⟨_, h, _⟩ => by cases h
  | ok a => exact ⟨fun h => ⟨a, rfl, h⟩, fun ⟨_, h, hf⟩ => by cases h; exact hf⟩

theorem bind_eq_error_iff {α β : Type} {x : Except Rejection α} {f : α → Except Rejection β}
    {reason : Rejection} :
    (x >>= f) = .error reason ↔ x = .error reason ∨ ∃ a, x = .ok a ∧ f a = .error reason := by
  cases x with
  | error found =>
      constructor
      · intro h
        obtain rfl : found = reason := Except.error.inj h
        exact .inl rfl
      · rintro (h | ⟨_, h, -⟩)
        · cases h
          rfl
        · cases h
  | ok a =>
      refine ⟨fun h => .inr ⟨a, rfl, h⟩, ?_⟩
      rintro (h | ⟨_, h, hf⟩)
      · cases h
      · cases h
        exact hf

theorem workersOfText?_eq_some_iff {text : String} {workers : Option Nat} :
    workersOfText? text = some workers ↔ AsksWorkers text workers := by
  simp only [workersOfText?, Option.map_eq_some_iff, Text.word?_eq_some_iff]
  constructor
  · rintro ⟨n, ⟨hdenotes, hlt⟩, rfl⟩
    exact ⟨_, n, Text.trimmed_trim text.toList, hdenotes, hlt, rfl⟩
  · rintro ⟨core, n, htrimmed, hdenotes, hlt, rfl⟩
    obtain rfl := Text.trim_eq_iff.mpr htrimmed
    exact ⟨n, ⟨hdenotes, hlt⟩, rfl⟩

theorem keyword_eq_iff {text word : String} : keyword text = word ↔ Spells text word := by
  rw [Spells, keyword, ← String.toList_inj, String.toList_ofList]
  simp only [← Text.trim_eq_iff, exists_eq_left', Text.lowerCase]

theorem keyword_mem_iff {text : String} {words : List String} :
    keyword text ∈ words ↔ ∃ word ∈ words, Spells text word := by
  simp only [← keyword_eq_iff, exists_eq_right']

theorem verifyOfText?_eq_some_iff {text : String} {verify : Bool} :
    verifyOfText? text = some verify ↔ AsksVerify text verify := by
  have hdisjoint : keyword text ∈ onWords → keyword text ∉ offWords := by
    intro hon hoff
    have hwords : ∀ word ∈ onWords, word ∉ offWords := by decide
    exact hwords _ hon hoff
  rw [AsksVerify, ← keyword_mem_iff, verifyOfText?]
  cases verify with
  | true =>
      change _ ↔ keyword text ∈ onWords
      split
      · rename_i hon
        exact iff_of_true rfl hon
      · rename_i hon
        refine iff_of_false ?_ hon
        split <;> exact fun h => by cases h
  | false =>
      change _ ↔ keyword text ∈ offWords
      split
      · rename_i hon
        exact iff_of_false (fun h => by cases h) (hdisjoint hon)
      · split
        · rename_i hoff
          exact iff_of_true rfl hoff
        · rename_i hoff
          exact iff_of_false (fun h => by cases h) hoff

theorem lockOfText?_eq_some_iff {text : String} {strategy : LockStrategy} :
    lockOfText? text = some strategy ↔ AsksLock text strategy := by
  rw [lockOfText?]
  cases strategy with
  | spin =>
      rw [AsksLock, ← keyword_eq_iff]
      split
      · rename_i hspin
        exact iff_of_true rfl hspin
      · rename_i hspin
        refine iff_of_false ?_ hspin
        split <;> exact fun h => by cases h
  | backoff =>
      rw [AsksLock, ← keyword_eq_iff]
      split
      · rename_i hspin
        rw [hspin]
        exact iff_of_false (fun h => by cases h) (by decide)
      · split
        · rename_i hbackoff
          exact iff_of_true rfl hbackoff
        · rename_i hbackoff
          exact iff_of_false (fun h => by cases h) hbackoff

section

variable {α : Type} {lookup : String → Option String} {key : String} {read : String → Option α}
  {asks : String → α → Prop} {default : α}

theorem readVariable_eq_ok_iff (hread : ∀ text value, read text = some value ↔ asks text value)
    {value : α} :
    readVariable lookup key read default = .ok value ↔ Holds lookup key asks default value := by
  unfold readVariable Holds
  cases lookup key with
  | none => exact ⟨fun h => (Except.ok.inj h).symm, fun h => congrArg Except.ok h.symm⟩
  | some text =>
      simp only [← hread]
      cases read text with
      | none => exact iff_of_false (fun h => by cases h) fun h => by cases h
      | some found => simp only [Except.ok.injEq, Option.some_inj]

theorem readVariable_eq_error_iff
    (hread : ∀ text value, read text = some value ↔ asks text value) {reason : Rejection} :
    readVariable lookup key read default = .error reason ↔
      ∃ text, lookup key = some text ∧ (¬ ∃ value, asks text value) ∧
        reason = .invalidVariable key text := by
  unfold readVariable
  cases lookup key with
  | none => exact iff_of_false (fun h => by cases h) fun ⟨_, h, _⟩ => by cases h
  | some text =>
      simp only [← hread, Option.some_inj, exists_eq_left', ← Option.isSome_iff_exists]
      cases read text with
      | none => simp only [Option.isSome_none, Bool.false_eq_true, not_false_iff, true_and,
          Except.error.injEq, eq_comm]
      | some found => exact iff_of_false (fun h => by cases h) fun h => h.1 rfl

theorem exists_holds_iff (default : α) :
    (∃ value, Holds lookup key asks default value) ↔
      Accepted lookup (key, fun text => ∃ value, asks text value) := by
  unfold Holds Accepted
  cases lookup key with
  | none => exact iff_of_true ⟨default, rfl⟩ fun _ h => by cases h
  | some text => simp only [Option.some_inj, forall_eq']

end

theorem offends_cons_iff {lookup : String → Option String} {v : String × (String → Prop)}
    {others : List (String × (String → Prop))} {reason : Rejection} :
    Offends lookup (v :: others) reason ↔
      (∃ text, lookup v.1 = some text ∧ ¬ v.2 text ∧ reason = .invalidVariable v.1 text) ∨
        (Accepted lookup v ∧ Offends lookup others reason) := by
  constructor
  · intro h
    cases h with
    | here hset hfault => exact .inl ⟨_, hset, hfault, rfl⟩
    | later haccepted hoffends => exact .inr ⟨haccepted, hoffends⟩
  · rintro (⟨text, hset, hfault, rfl⟩ | ⟨haccepted, hoffends⟩)
    · exact .here hset hfault
    · exact .later haccepted hoffends

section

variable {lookup : String → Option String}

theorem ofEnvironment_eq_ok_iff {s : Settings} :
    ofEnvironment lookup = .ok s ↔ ∃ workers verify strategy,
      Holds lookup "PARVEC_NUM_THREADS" AsksWorkers none workers ∧
      Holds lookup "PARVEC_VERIFY" AsksVerify true verify ∧
      Holds lookup "PARVEC_LOCK" AsksLock .spin strategy ∧
      s = { workers, verifyCompletion := verify, lockStrategy := strategy } := by
  simp only [ofEnvironment, bind_eq_ok_iff,
    readVariable_eq_ok_iff fun _ _ => workersOfText?_eq_some_iff,
    readVariable_eq_ok_iff fun _ _ => verifyOfText?_eq_some_iff,
    readVariable_eq_ok_iff fun _ _ => lockOfText?_eq_some_iff]
  constructor
  · rintro ⟨workers, hworkers, verify, hverify, strategy, hstrategy, hs⟩
    exact ⟨workers, verify, strategy, hworkers, hverify, hstrategy, (Except.ok.inj hs).symm⟩
  · rintro ⟨workers, verify, strategy, hworkers, hverify, hstrategy, rfl⟩
    exact ⟨workers, hworkers, verify, hverify, strategy, hstrategy, rfl⟩

theorem exists_ofEnvironment_iff :
    (∃ s, ofEnvironment lookup = .ok s) ↔ ∀ v ∈ grammar, Accepted lookup v := by
  simp only [grammar, List.forall_mem_cons, ← exists_holds_iff (none : Option Nat),
    ← exists_holds_iff true, ← exists_holds_iff LockStrategy.spin]
  constructor
  · rintro ⟨s, hs⟩
    obtain ⟨workers, verify, strategy, hworkers, hverify, hstrategy, -⟩ :=
      ofEnvironment_eq_ok_iff.mp hs
    exact ⟨⟨workers, hworkers⟩, ⟨verify, hverify⟩, ⟨strategy, hstrategy⟩, List.forall_mem_nil _⟩
  · rintro ⟨⟨workers, hworkers⟩, ⟨verify, hverify⟩, ⟨strategy, hstrategy⟩, -⟩
    exact ⟨_, ofEnvironment_eq_ok_iff.mpr
      ⟨workers, verify, strategy, hworkers, hverify, hstrategy, rfl⟩⟩

theorem not_offends_nil {reason : Rejection} : ¬ Offends lookup [] reason := by
  intro h
  cases h

theorem ofEnvironment_eq_error_iff {reason : Rejection} :
    ofEnvironment lookup = .error reason ↔ Offends lookup grammar reason := by
  have hpure (s : Settings) : ¬ (pure s : Except Rejection Settings) = .error reason :=
    fun h => by cases h
  simp only [ofEnvironment, bind_eq_error_iff, hpure, and_false, exists_false, or_false,
    readVariable_eq_error_iff fun _ _ => workersOfText?_eq_some_iff,
    readVariable_eq_error_iff fun _ _ => verifyOfText?_eq_some_iff,
    readVariable_eq_error_iff fun _ _ => lockOfText?_eq_some_iff,
    readVariable_eq_ok_iff fun _ _ => workersOfText?_eq_some_iff,
    readVariable_eq_ok_iff fun _ _ => verifyOfText?_eq_some_iff,
    exists_and_right, exists_holds_iff, grammar, offends_cons_iff, not_offends_nil]
  rfl

end

theorem AsksWorkers.ne_zero {text : String} {workers : Option Nat} (h : AsksWorkers text workers) :
    workers ≠ some 0 := by
  obtain ⟨core, n, -, -, -, rfl⟩ := h
  split
  · exact fun hsome => by cases hsome
  · rename_i hne
    exact fun hsome => hne (Option.some.inj hsome)

theorem Holds.workers_ne_zero {lookup : String → Option String} {key : String}
    {workers : Option Nat} (h : Holds lookup key AsksWorkers none workers) : workers ≠ some 0 := by
  unfold Holds at h
  split at h
  · rw [h]
    exact fun hsome => by cases hsome
  · exact h.ne_zero

theorem ofSettings?_ne_zeroWorkers {s : Settings} (h : s.workers ≠ some 0) (host : Host) :
    Executor.ofSettings? s host ≠ .error (.rejected .zeroWorkers) := by
  unfold Executor.ofSettings?
  split
  · exact fun herror => by cases herror
  · rw [if_neg h]
    exact fun herror => by cases herror

/-- A positive number may be written with leading zeros and between blanks. -/
theorem asksWorkers_ofList {n : Nat} (hpos : 0 < n) (hlt : n < 2 ^ 64) (zeros : Nat)
    {before after : List Char} (hbefore : ∀ c ∈ before, Text.isBlank c = true)
    (hafter : ∀ c ∈ after, Text.isBlank c = true) :
    AsksWorkers
      (String.ofList (before ++ (List.replicate zeros '0' ++ Nat.toDigits 10 n) ++ after))
      (some n) := by
  have hdigits := Text.digits_toDigits zeros n
  refine ⟨_, n, ?_, .unsigned hdigits, hlt, ?_⟩
  · rw [String.toList_ofList]
    exact Text.trimmed_of_not_blank hbefore
      (fun c hc => Text.not_blank_of_isDigit (hdigits.isDigit c hc)) hafter
  · rw [if_neg (Nat.ne_of_gt hpos)]

/-- The environment gives settings if and only if every variable is unset or has a value that its
grammar allows, and these settings are the ones that the values ask for, with defaults for
everything else. They never ask for zero workers. Otherwise the rejection quotes the first value
that is not allowed. In particular every numeral of a positive word is read as this number. -/
theorem environment_read_by_grammar (lookup : String → Option String) :
    ((∃ s, ofEnvironment lookup = .ok s) ↔ ∀ v ∈ grammar, Accepted lookup v) ∧
    (∀ s, ofEnvironment lookup = .ok s ↔ ∃ workers verify strategy,
      Holds lookup "PARVEC_NUM_THREADS" AsksWorkers none workers ∧
      Holds lookup "PARVEC_VERIFY" AsksVerify true verify ∧
      Holds lookup "PARVEC_LOCK" AsksLock .spin strategy ∧
      s = { workers, verifyCompletion := verify, lockStrategy := strategy }) ∧
    (∀ reason, ofEnvironment lookup = .error reason ↔ Offends lookup grammar reason) ∧
    (∀ s host, ofEnvironment lookup = .ok s →
      Executor.ofSettings? s host ≠ .error (.rejected .zeroWorkers)) ∧
    ∀ n zeros before after, 0 < n → n < 2 ^ 64 → (∀ c ∈ before, Text.isBlank c = true) →
      (∀ c ∈ after, Text.isBlank c = true) →
      lookup "PARVEC_NUM_THREADS" =
        some (String.ofList (before ++ (List.replicate zeros '0' ++ Nat.toDigits 10 n) ++ after)) →
      (∀ s, ofEnvironment lookup = .ok s → s.workers = some n) ∧
        ((∀ v ∈ grammar.tail, Accepted lookup v) → ∃ s, ofEnvironment lookup = .ok s) := by
  refine ⟨exists_ofEnvironment_iff, fun s => ofEnvironment_eq_ok_iff,
    fun reason => ofEnvironment_eq_error_iff, ?_, ?_⟩
  · intro s host hs
    obtain ⟨workers, verify, strategy, hworkers, -, -, rfl⟩ := ofEnvironment_eq_ok_iff.mp hs
    exact ofSettings?_ne_zeroWorkers hworkers.workers_ne_zero host
  · intro n zeros before after hpos hlt hbefore hafter hset
    have hasks := asksWorkers_ofList hpos hlt zeros hbefore hafter
    constructor
    · intro s hs
      obtain ⟨workers, verify, strategy, hworkers, -, -, rfl⟩ := ofEnvironment_eq_ok_iff.mp hs
      rw [Holds, hset] at hworkers
      have hread := workersOfText?_eq_some_iff.mpr hworkers
      exact Option.some.inj (hread.symm.trans (workersOfText?_eq_some_iff.mpr hasks))
    · intro haccepted
      refine exists_ofEnvironment_iff.mpr (List.forall_mem_cons.mpr ⟨?_, haccepted⟩)
      intro text htext
      obtain rfl := Option.some.inj (hset.symm.trans htext)
      exact ⟨_, hasks⟩

/-- Variables may have signs, leading zeros, capitals and blanks of any script. Of two values that are
not allowed the first one is rejected. -/
theorem environment_read_by_grammar_of_signs :
    ofEnvironment (fun key =>
        if key = "PARVEC_NUM_THREADS" then some "\u2003+007\n"
        else if key = "PARVEC_LOCK" then some "BackOff " else none) =
      .ok { workers := some 7, lockStrategy := .backoff } ∧
    ofEnvironment (fun key => if key = "PARVEC_LOCK" then none else some " ++1") =
      .error (.invalidVariable "PARVEC_NUM_THREADS" " ++1") ∧
    ∃ s, ofEnvironment (fun key => if key = "PARVEC_NUM_THREADS" then some " 0012\t" else none) =
        .ok s ∧ s.workers = some 12 := by
  refine ⟨?_, ?_, ?_⟩
  · refine ((environment_read_by_grammar _).2.1 _).mpr ⟨some 7, true, .backoff, ?_, rfl, ?_, rfl⟩
    · exact ⟨['+', '0', '0', '7'], 7, Text.trim_eq_iff.mp (by decide),
        .signed ⟨by decide, List.all_eq_true.mp rfl, by decide⟩, by decide, rfl⟩
    · exact ⟨"BackOff".toList, Text.trim_eq_iff.mp (by decide), by decide⟩
  · refine ((environment_read_by_grammar _).2.2.1 _).mpr (.here rfl ?_)
    rintro ⟨workers, hasks⟩
    have hread : workersOfText? " ++1" = none := by decide
    exact Option.some_ne_none workers ((workersOfText?_eq_some_iff.mpr hasks).symm.trans hread)
  · obtain ⟨hworkers, hexists⟩ := (environment_read_by_grammar
      fun key => if key = "PARVEC_NUM_THREADS" then some " 0012\t" else none).2.2.2.2 12 2 [' ']
        ['\t'] (by decide) (by decide) (List.forall_mem_singleton.mpr rfl)
        (List.forall_mem_singleton.mpr rfl) rfl
    obtain ⟨s, hs⟩ := hexists (by
      intro v hv text hset
      rcases List.mem_pair.mp hv with rfl | rfl <;> cases hset)
    exact ⟨s, hs, hworkers s hs⟩

end Settings

end Elementwise
