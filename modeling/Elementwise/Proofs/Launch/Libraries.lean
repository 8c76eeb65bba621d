import Elementwise.Launch.Launcher
import Elementwise.Proofs.Launch.Team

/-!
The two thread libraries. Their launches are loops of their own inside different scopes. Both join
every thread that they have created, so that the scopes find none left and do nothing of what they
differ in, and what remains is the launch of the contract.
-/

namespace Elementwise

namespace Launch

variable {α β : Type}

theorem bind_foldr_create (workers : List Nat) (rest : Launch α) (next : α → Launch β) :
    (workers.foldr create rest).bind next = workers.foldr create (rest.bind next) := by
  induction workers with
  | nil => rfl
  | cons w workers ih => exact congrArg (create w) ih

theorem bind_foldr_refuse (refused : Option Nat) (rest : Launch α) (next : α → Launch β) :
    (refused.toList.foldr refuse rest).bind next =
      refused.toList.foldr refuse (rest.bind next) := by
  cases refused <;> rfl

/-- The loop of a launch, when no thread name has a NUL. It ends at the first worker that is refused.
-/
theorem forIn_spawn {spawn : Nat → Launch Bool} {creates : Nat → Bool} {workers : List Nat}
    (hspawn : ∀ w ∈ workers,
      spawn w = if creates w then create w (result true) else refuse w (result false))
    (handles : List Nat) (next : List Nat × Option Nat → Launch β) :
    (forIn workers (handles, (none : Option Nat)) fun w s => do
        if ← spawn w then pure (.yield (s.1 ++ [w], s.2))
        else pure (.done (s.1, some w))) >>= next =
      (workers.takeWhile creates).foldr create
        ((workers.find? fun w => !creates w).toList.foldr refuse
          (next (handles ++ workers.takeWhile creates, workers.find? fun w => !creates w))) := by
  induction workers generalizing handles with
  | nil => simp
  | cons w workers ih =>
      have hrest := ih (fun v hv => hspawn v (List.mem_cons_of_mem w hv)) (handles ++ [w])
      rw [List.forIn_cons, hspawn w List.mem_cons_self]
      cases hw : creates w with
      | false =>
          rw [List.takeWhile_cons_of_neg (by simp [hw]), List.find?_cons_of_pos (by simp [hw]),
            List.append_nil]
          rfl
      | true =>
          rw [List.append_assoc, List.singleton_append] at hrest
          rw [List.takeWhile_cons_of_pos hw, List.find?_cons_of_neg (by simp [hw])]
          exact congrArg (create w) hrest

theorem filterMapM_joined (spawned : Nat) (refused : Option Nat) (workers : List Nat)
    (payloads : List (Nat × Payload)) :
    (workers.filterMapM joined >>= fun more =>
      result ⟨spawned, refused, payloads ++ more⟩) =
      joining spawned refused workers payloads := by
  induction workers generalizing payloads with
  | nil =>
      rw [List.filterMapM_nil, pure_bind, List.append_nil]
      rfl
  | cons w workers ih =>
      rw [List.filterMapM_cons]
      refine congrArg (join w) (funext fun payload => ?_)
      cases payload with
      | none =>
          refine (ih payloads).trans ?_
          exact congrArg (joining spawned refused workers) (List.append_nil payloads).symm
      | some cause =>
          have hrest := ih (payloads ++ [(w, cause)])
          simp only [List.append_assoc, List.singleton_append] at hrest
          exact (bind_assoc (workers.filterMapM joined) _ _).trans hrest

theorem scoped_foldr_create (workers : List Nat) (rest : Launch α) (unjoined : List Nat) :
    (workers.foldr create rest).scoped unjoined =
      workers.foldr create (rest.scoped (unjoined ++ workers)) := by
  induction workers generalizing unjoined with
  | nil => rw [List.append_nil]; rfl
  | cons w workers ih =>
      refine congrArg (create w) ((ih (unjoined ++ [w])).trans ?_)
      rw [List.append_assoc, List.singleton_append]

theorem scoped_foldr_refuse (refused : Option Nat) (rest : Launch α) (unjoined : List Nat) :
    (refused.toList.foldr refuse rest).scoped unjoined =
      refused.toList.foldr refuse (rest.scoped unjoined) := by
  cases refused <;> rfl

theorem scoped_joining (spawned : Nat) (refused : Option Nat) (workers : List Nat)
    (payloads : List (Nat × Payload)) :
    (joining spawned refused workers payloads).scoped workers =
      (joining spawned refused workers payloads).bind fun record => result (.ok record, []) := by
  induction workers generalizing payloads with
  | nil => rfl
  | cons w workers ih =>
      refine congrArg (join w) (funext fun payload => ?_)
      rw [List.erase_cons_head]
      exact ih _

/-- The launch of the contract joins every thread that it creates, so that a scope around it finds
none left. -/
theorem scoped_contract (started : List Nat) (refused : Option Nat) :
    (contract started refused).scoped [] =
      (contract started refused).bind fun record => result (.ok record, []) := by
  unfold contract
  rw [scoped_foldr_create, scoped_foldr_refuse, bind_foldr_create, bind_foldr_refuse]
  refine congrArg (fun rest => started.foldr create (refused.toList.foldr refuse rest)) ?_
  exact congrArg (settle started.length) (scoped_joining _ _ started [])

end Launch

theorem ThreadBuilder.nulFault?_threadName (namePrefix : String) (worker : Nat) :
    nulFault? (threadName namePrefix worker) = none ↔ nulFault? namePrefix = none := by
  have hdigits : '\x00' ∉ (toString worker).toList := by
    intro hmem
    rw [Nat.toString_eq_repr, Nat.repr_eq_ofList_toDigits, String.toList_ofList] at hmem
    cases Nat.isDigit_of_mem_toDigits (by decide) (by decide) hmem
  have hmem : '\x00' ∈ (threadName namePrefix worker).toList ↔ '\x00' ∈ namePrefix.toList := by
    simp only [threadName, String.toList_append, List.mem_append, hdigits, or_false]
    exact or_iff_left (by decide)
  simp only [nulFault?, hmem]
  split <;> simp

namespace StdThreads

variable {host : Host} {namePrefix : String} {stackSize : Option Nat} {workers : List Nat}

theorem builder_eq (namePrefix : String) (stackSize : Option Nat) (w : Nat) :
    (⟨namePrefix, stackSize⟩ : StdThreads).builder w = ⟨threadName namePrefix w, stackSize⟩ := by
  cases stackSize <;> rfl

theorem spawn_builder {w : Nat} (hname : ThreadBuilder.nulFault? (threadName namePrefix w) = none) :
    ((⟨namePrefix, stackSize⟩ : StdThreads).builder w).spawn host w =
      if host.creates stackSize w then .create w (.result true) else .refuse w (.result false) := by
  rw [builder_eq, ThreadBuilder.spawn, hname]

theorem body_eq_contract
    (hnames : ∀ w ∈ workers, ThreadBuilder.nulFault? (threadName namePrefix w) = none) :
    (⟨namePrefix, stackSize⟩ : StdThreads).body host workers =
      .contract (workers.takeWhile (host.creates stackSize))
        (workers.find? fun w => !host.creates stackSize w) := by
  refine (Launch.forIn_spawn (fun w hw => spawn_builder (hnames w hw)) [] _).trans ?_
  rw [List.nil_append]
  refine congrArg (fun rest => List.foldr Launch.create (List.foldr Launch.refuse rest _) _) ?_
  exact congrArg (Launch.settle _) (Launch.filterMapM_joined _ _ _ [])

theorem scope_contract (started : List Nat) (refused : Option Nat) :
    scope (.contract started refused) = .contract started refused := by
  rw [scope, Launch.scoped_contract]
  exact (bind_assoc (Launch.contract started refused) _ _).trans (bind_pure _)

theorem launch_eq_contract
    (hnames : ∀ w ∈ workers, ThreadBuilder.nulFault? (threadName namePrefix w) = none) :
    (⟨namePrefix, stackSize⟩ : StdThreads).launch host workers =
      .contract (workers.takeWhile (host.creates stackSize))
        (workers.find? fun w => !host.creates stackSize w) := by
  rw [launch, body_eq_contract hnames, scope_contract]

theorem body_eq_unwind {w : Nat} {cause : Payload}
    (hname : ThreadBuilder.nulFault? (threadName namePrefix w) = some cause) :
    (⟨namePrefix, stackSize⟩ : StdThreads).body host (w :: workers) = .unwind cause := by
  have hspawn : ((⟨namePrefix, stackSize⟩ : StdThreads).builder w).spawn host w =
      .unwind cause := by
    rw [builder_eq, ThreadBuilder.spawn, hname]
  rw [body, List.forIn_cons, hspawn]
  rfl

end StdThreads

namespace CrossbeamThreads

variable {host : Host} {namePrefix : String} {stackSize : Option Nat} {workers : List Nat}

/-- The two loops do the same, though each prepares its threads in its own way. -/
theorem body_eq (namePrefix : String) (stackSize : Option Nat) (host : Host) (workers : List Nat) :
    (⟨namePrefix, stackSize⟩ : CrossbeamThreads).body host workers =
      (⟨namePrefix, stackSize⟩ : StdThreads).body host workers := by
  cases stackSize <;> rfl

theorem scope_contract (started : List Nat) (refused : Option Nat) :
    scope (.contract started refused) =
      (Launch.contract started refused).bind fun record => .result (.ok record) := by
  rw [scope, Launch.scoped_contract]
  exact bind_assoc (Launch.contract started refused) _ _

theorem launch_eq_contract
    (hnames : ∀ w ∈ workers, ThreadBuilder.nulFault? (threadName namePrefix w) = none) :
    (⟨namePrefix, stackSize⟩ : CrossbeamThreads).launch host workers =
      .contract (workers.takeWhile (host.creates stackSize))
        (workers.find? fun w => !host.creates stackSize w) := by
  rw [launch, body_eq, StdThreads.body_eq_contract hnames, scope_contract]
  exact (bind_assoc (Launch.contract _ _) _ _).trans (bind_pure _)

end CrossbeamThreads

namespace ThreadLibrary

variable {host : Host} {namePrefix : String} {stackSize : Option Nat} {workers : List Nat}

/-- Whichever library it is, its launch is that of the contract: the workers in front of the first
one whose thread cannot be created, and that one refused. -/
theorem launch_eq_contract (library : ThreadLibrary)
    (hnames : ∀ w ∈ workers, ThreadBuilder.nulFault? (threadName namePrefix w) = none) :
    library.launch namePrefix stackSize host workers =
      .contract (workers.takeWhile (host.creates stackSize))
        (workers.find? fun w => !host.creates stackSize w) := by
  cases library with
  | std => exact StdThreads.launch_eq_contract hnames
  | crossbeam => exact CrossbeamThreads.launch_eq_contract hnames

/-- A name with a NUL makes the launch unwind in front of its first thread. -/
theorem launch_eq_unwind (library : ThreadLibrary) {w : Nat} {cause : Payload}
    (hname : ThreadBuilder.nulFault? (threadName namePrefix w) = some cause) :
    library.launch namePrefix stackSize host (w :: workers) = .unwind cause := by
  have hbody : (⟨namePrefix, stackSize⟩ : StdThreads).body host (w :: workers) = .unwind cause :=
    StdThreads.body_eq_unwind hname
  cases library with
  | std =>
      rw [launch, StdThreads.launch, hbody]
      rfl
  | crossbeam =>
      rw [launch, CrossbeamThreads.launch, CrossbeamThreads.body_eq, hbody]
      rfl

theorem launch_eq (library other : ThreadLibrary) (namePrefix : String) (stackSize : Option Nat)
    (host : Host) (workers : List Nat) :
    library.launch namePrefix stackSize host workers =
      other.launch namePrefix stackSize host workers := by
  cases hprefix : ThreadBuilder.nulFault? namePrefix with
  | none =>
      have hnames (w : Nat) (_ : w ∈ workers) :=
        (ThreadBuilder.nulFault?_threadName namePrefix w).mpr hprefix
      rw [library.launch_eq_contract hnames, other.launch_eq_contract hnames]
  | some cause =>
      cases workers with
      | nil =>
          have hnames (w : Nat) (hw : w ∈ []) :
              ThreadBuilder.nulFault? (threadName namePrefix w) = none :=
            absurd hw List.not_mem_nil
          rw [library.launch_eq_contract hnames, other.launch_eq_contract hnames]
      | cons w workers =>
          have hfault : ThreadBuilder.nulFault? (threadName namePrefix w) ≠ none := by
            rw [Ne, ThreadBuilder.nulFault?_threadName, hprefix]
            exact fun hnone => by cases hnone
          obtain ⟨fault, hname⟩ := Option.ne_none_iff_exists'.mp hfault
          rw [library.launch_eq_unwind hname, other.launch_eq_unwind hname]

end ThreadLibrary

end Elementwise
