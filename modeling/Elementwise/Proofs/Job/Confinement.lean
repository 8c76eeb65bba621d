import Elementwise.Proofs.Job.Balance
import Elementwise.Proofs.Operand.Separation

/-!
What a job leaves alone. Whatever the kernel does and wherever its operands are, the workers write
to the outputs of the indices of the job and to no other byte.
-/

namespace Elementwise

/-- Outside the outputs of the first `elements` indices the memory is as it was. -/
structure Course.Confined (job : Job) (memory : Memory) (elements : Nat) (c : Course) : Prop where
  balanced : c.Balanced (List.range elements)
  kept : ∀ address, (∀ i < elements, address ∉ job.binding.outputBytes i) →
    c.state.memory.read address = memory.read address

namespace Course.Confined

variable {job : Job} {memory : Memory} {elements : Nat} {c : Course}

theorem move_kept (h : c.Confined job memory elements) {w : Nat} {deed : Option Deed}
    {s' : JobState} (hmove : Job.Move job c.state w deed s') {address : UInt64}
    (haddress : ∀ i < elements, address ∉ job.binding.outputBytes i) :
    s'.memory.read address = memory.read address := by
  have hbefore := h.kept address haddress
  cases hmove with
  | breach =>
      unfold Job.breach
      split <;> exact hbefore
  | @store worker index origin bits hworker hphase =>
      have hindex : index ∈ worker.phase.inHand := by
        rw [hphase]
        exact Multiset.mem_singleton_self index
      have hlt : index < elements :=
        List.mem_range.mp (Multiset.mem_coe.mp (h.balanced.mem_of_inHand hworker hindex))
      rw [← hbefore]
      exact Memory.read_store_of_not_mem c.state.memory (haddress index hlt) bits
  | _ => exact hbefore

theorem keeps (job : Job) (memory : Memory) (elements : Nat) :
    job.Keeps (Confined job memory elements) where
  unheld _ h := h.balanced.unheld
  move _ _ _ _ h hmove := ⟨h.balanced.move hmove, fun _ haddress => h.move_kept hmove haddress⟩
  start c w h hidle := by
    refine ⟨h.balanced.start hidle, ?_⟩
    rw [JobState.memory_start]
    exact h.kept
  settle _ started h := ⟨h.balanced.settle started, h.kept⟩

end Course.Confined

end Elementwise
