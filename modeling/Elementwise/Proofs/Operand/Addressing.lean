import Elementwise.Kernel.Combination
import Elementwise.Kernel.Formula
import Elementwise.Proofs.Operand.Checks
import Mathlib.Data.Int.ModEq
import Mathlib.Data.List.Basic

/-!
What a kernel is passed for an index. A word machine reads the index as a signed number, multiplies
and adds with wrap-around, and gathers the addresses of a few inputs in a row of slots; the outcome
is one address for each input in order, exact modulo the number of addresses.
-/

namespace Elementwise

namespace Pointer

/-- The place of the element at an index, as a number that need not be an address. -/
def place (p : Pointer) (index : Nat) : Int := p.base.toNat + index * p.stride.toInt

/-- The address of an element in the arithmetic of the machine. The index is read as a signed
number, and product and sum wrap around. -/
def machineAddress (p : Pointer) (index : UInt64) : UInt64 :=
  p.base + (index.toInt64 * p.stride).toUInt64

/-- The address of the element at an index: its place modulo the number of addresses, and so the
place itself if that is an address. -/
structure Locates (p : Pointer) (index : Nat) (address : UInt64) : Prop where
  wrapped : (address.toNat : Int) = p.place index % (UInt64.size : Int)
  exact : 0 ≤ p.place index → p.place index < (UInt64.size : Int) →
    (address.toNat : Int) = p.place index

theorem toNat_toUInt64 (stride : Int64) :
    (stride.toUInt64.toNat : Int) = stride.toInt % (UInt64.size : Int) := by
  have hsigned : stride.toInt = (stride.toUInt64.toNat : Int).bmod UInt64.size :=
    BitVec.toInt_eq_toNat_bmod stride.toBitVec
  rw [hsigned, Int.bmod_emod]
  exact (Int.emod_eq_of_lt (Int.natCast_nonneg _)
    (Int.ofNat_lt.mpr (UInt64.toNat_lt_size _))).symm

theorem machineAddress_eq (p : Pointer) (index : UInt64) :
    p.machineAddress index = p.address index.toNat := by
  rw [machineAddress, address, Int64.toUInt64_mul, UInt64.toUInt64_toInt64, UInt64.ofNat_toNat]

theorem toNat_address (p : Pointer) (index : Nat) :
    ((p.address index).toNat : Int) = p.place index % (UInt64.size : Int) := by
  have hsum : ((p.address index).toNat : Int) =
      (p.base.toNat + index % (UInt64.size : Int) * (p.stride.toUInt64.toNat : Int)
        % (UInt64.size : Int)) % (UInt64.size : Int) := by
    rw [address, UInt64.toNat_add, UInt64.toNat_mul, UInt64.toNat_ofNat']
    push_cast
    rfl
  rw [hsum, toNat_toUInt64, place, ← Int.mul_emod, Int.add_emod_emod]

theorem locates (p : Pointer) (index : UInt64) :
    p.Locates index.toNat (p.machineAddress index) := by
  have hwrapped := p.toNat_address index.toNat
  rw [← machineAddress_eq] at hwrapped
  refine ⟨hwrapped, fun hlower hupper => ?_⟩
  rw [hwrapped, Int.emod_eq_of_lt hlower hupper]

/-- Elements that are less than one turn around the addresses apart have different addresses. -/
theorem machineAddress_ne (p : Pointer) {n : Nat} (hpos : 0 < p.stride.toInt.natAbs * n)
    (hturn : p.stride.toInt.natAbs * n ≤ UInt64.size) {i j : UInt64} (hi : i.toNat < n)
    (hj : j.toNat < n) (hne : i ≠ j) : p.machineAddress i ≠ p.machineAddress j := by
  intro heq
  have hplaces : p.place i.toNat % (UInt64.size : Int) = p.place j.toNat % (UInt64.size : Int) := by
    rw [← (p.locates i).wrapped, ← (p.locates j).wrapped, heq]
  have hdifference : p.place j.toNat - p.place i.toNat =
      ((j.toNat : Int) - i.toNat) * p.stride.toInt := by
    rw [place, place, Int.add_sub_add_left, ← Int.sub_mul]
  -- the distance between the two is a multiple of the number of addresses, but shorter
  have hdivides : UInt64.size ∣ ((j.toNat : Int) - i.toNat).natAbs * p.stride.toInt.natAbs := by
    rw [← Int.natAbs_mul, ← hdifference]
    exact Int.natCast_dvd.mp (Int.ModEq.dvd hplaces)
  have hstride : 0 < p.stride.toInt.natAbs := Nat.pos_of_mul_pos_right hpos
  have hindices : ((j.toNat : Int) - i.toNat).natAbs < n := by omega
  have hshort : ((j.toNat : Int) - i.toNat).natAbs * p.stride.toInt.natAbs < UInt64.size := by
    refine Nat.lt_of_lt_of_le ?_ hturn
    rw [Nat.mul_comm]
    exact Nat.mul_lt_mul_of_pos_left hindices hstride
  have hzero := Nat.eq_zero_of_dvd_of_lt hdivides hshort
  rcases Nat.mul_eq_zero.mp hzero with hsame | hzero
  · exact hne (UInt64.toNat_inj.mp (by omega))
  · exact absurd hzero (Nat.ne_of_gt hstride)

end Pointer

/-- What a kernel does that is passed the addresses of its inputs and of its output. -/
def Kernel.applyAt (kernel : Kernel) (m : Memory) (inputs : List UInt64) (output : UInt64) :
    Memory :=
  m.store output kernel.signature.output.size
    (kernel.eval (List.zipWith (fun (t : ScalarType) address => m.load address t.size)
      kernel.signature.inputs inputs))

namespace Binding

/-- The number of slots in the row in which the addresses of a few inputs are gathered. -/
def slotCount : Nat := 4

/-- Puts addresses into slots in order, as long as there are both. -/
def fill : List UInt64 → List UInt64 → List UInt64
  | _ :: slots, address :: addresses => address :: fill slots addresses
  | slots, _ => slots

/-- The addresses of the inputs that the kernel is passed for an index. If they fit, they are
gathered in a row of empty slots, of which the kernel is passed as many as it has inputs. -/
def passed (b : Binding) (index : UInt64) : List UInt64 :=
  let addresses := b.inputs.map fun pointer => pointer.machineAddress index
  if b.inputs.length ≤ slotCount then
    (fill (List.replicate slotCount 0) addresses).take b.inputs.length
  else addresses

theorem take_fill {slots addresses : List UInt64} (h : addresses.length ≤ slots.length) :
    (fill slots addresses).take addresses.length = addresses := by
  induction addresses generalizing slots with
  | nil => rfl
  | cons address addresses ih =>
      cases slots with
      | nil => exact absurd h (Nat.not_succ_le_zero _)
      | cons slot slots =>
          rw [fill, List.length_cons, List.take_succ_cons, ih (Nat.le_of_succ_le_succ h)]

/-- In a row of slots or not, the kernel is passed the address of each input. -/
theorem passed_eq (b : Binding) (index : UInt64) :
    b.passed index = b.inputs.map fun pointer => pointer.machineAddress index := by
  simp only [passed]
  split
  · rename_i hfits
    have hroom : (b.inputs.map fun pointer => pointer.machineAddress index).length ≤
        (List.replicate slotCount (0 : UInt64)).length := by simpa using hfits
    have htake := take_fill hroom
    rwa [List.length_map] at htake
  · rfl

theorem invoke_eq_applyAt (b : Binding) (m : Memory) (index : UInt64) :
    b.invoke m index.toNat =
      b.kernel.applyAt m (b.passed index) (b.output.machineAddress index) := by
  rw [passed_eq, Pointer.machineAddress_eq,
    List.map_congr_left fun pointer _ => pointer.machineAddress_eq index]
  rfl

theorem length_passed (b : Binding) (index : UInt64) :
    (b.passed index).length = b.kernel.arity := by
  rw [passed_eq, List.length_map, b.length_inputs]

/-- What the operands of a bound kernel were paired from. -/
theorem getElem?_of_ofOperands? {kernel : Kernel} {bases : List UInt64} {strides : List Int64}
    {operands : Operands} {b : Binding}
    (hoperands : Operands.ofPointers? bases strides = .ok operands)
    (hbinding : ofOperands? kernel operands = .ok b) {k : Nat} {pointer : Pointer}
    (hpointer : (b.inputs ++ [b.output])[k]? = some pointer) :
    bases[k]? = some pointer.base ∧ strides[k]? = some pointer.stride := by
  obtain ⟨-, hinputs, houtput⟩ := eq_of_ofOperands? hbinding
  rw [hinputs, houtput, Operands.inputs_append_output hoperands,
    List.getElem?_zipWith_eq_some] at hpointer
  obtain ⟨base, stride, hbase, hstride, rfl⟩ := hpointer
  exact ⟨hbase, hstride⟩

/-- For every index a bound kernel is passed one address for each of its inputs, in order, and that
of its output. Each of them is the exact one modulo the number of addresses, and outputs that do not
go once around the addresses are told apart. -/
theorem passed_addresses_exact (kernel : Kernel) (bases : List UInt64) (strides : List Int64)
    (operands : Operands) (b : Binding)
    (hoperands : Operands.ofPointers? bases strides = .ok operands)
    (hbinding : ofOperands? kernel operands = .ok b) :
    0 < kernel.arity ∧
    (∀ (m : Memory) (index : UInt64), b.invoke m index.toNat =
      kernel.applyAt m (b.passed index) (b.output.machineAddress index)) ∧
    (∀ index, (b.passed index).length = kernel.arity) ∧
    (∀ k < kernel.arity, ∃ base stride, bases[k]? = some base ∧ strides[k]? = some stride ∧
      ∀ index, ∃ address, (b.passed index)[k]? = some address ∧
        (Pointer.mk base stride).Locates index.toNat address) ∧
    ∃ base stride, bases[kernel.arity]? = some base ∧ strides[kernel.arity]? = some stride ∧
      (∀ index, (Pointer.mk base stride).Locates index.toNat (b.output.machineAddress index)) ∧
      ∀ n, 0 < stride.toInt.natAbs * n → stride.toInt.natAbs * n ≤ UInt64.size →
        ∀ i j : UInt64, i.toNat < n → j.toNat < n → i ≠ j →
          b.output.machineAddress i ≠ b.output.machineAddress j := by
  obtain ⟨rfl, -, -⟩ := eq_of_ofOperands? hbinding
  refine ⟨b.arity_pos, b.invoke_eq_applyAt, b.length_passed, ?_, ?_⟩
  · intro k hk
    rw [← b.length_inputs] at hk
    have hinput : b.inputs[k]? = some b.inputs[k] := List.getElem?_eq_getElem hk
    obtain ⟨hbase, hstride⟩ := getElem?_of_ofOperands? hoperands hbinding
      ((List.getElem?_append_left hk).trans hinput)
    refine ⟨_, _, hbase, hstride, fun index => ⟨_, ?_, b.inputs[k].locates index⟩⟩
    rw [passed_eq, List.getElem?_map, hinput, Option.map_some]
  · have hlast : (b.inputs ++ [b.output])[b.kernel.arity]? = some b.output := by
      rw [← b.length_inputs, List.getElem?_concat_length]
    obtain ⟨hbase, hstride⟩ := getElem?_of_ofOperands? hoperands hbinding hlast
    refine ⟨_, _, hbase, hstride, b.output.locates, ?_⟩
    intro n hpos hturn i j hi hj hne
    exact b.output.machineAddress_ne hpos hturn hi hj hne

/-- Two inputs, one of them read backwards, fit into the slots; five inputs do not. An index of the
upper half is no negative number to the addresses, and outputs may go around them just once. -/
theorem passed_addresses_exact_of_few_and_many :
    (∃ operands b, Operands.ofPointers? [2, 3, 4] [-1, 0, 1] = .ok operands ∧
      ofOperands? (.ofFormula .add .int8) operands = .ok b ∧ (b.passed 2)[0]? = some 0) ∧
    ∃ operands b, Operands.ofPointers? [7, 7, 7, 7, 7, 0] [0, 1, -1, 2, -2, 16] = .ok operands ∧
      ofOperands? (Combination.sum.kernel ⟨List.replicate 5 .int8, .int8⟩) operands = .ok b ∧
      (b.passed 0x8000000000000001).length = 5 ∧
      (∃ address, (b.passed 0x8000000000000001)[2]? = some address ∧
        (address.toNat : Int) = (7 - 0x8000000000000001) % (UInt64.size : Int)) ∧
      b.output.machineAddress 0 ≠ b.output.machineAddress 0x0fffffffffffffff := by
  constructor
  · obtain ⟨operands, hoperands⟩ : ∃ operands,
        Operands.ofPointers? [2, 3, 4] [-1, 0, 1] = .ok operands := ⟨_, rfl⟩
    obtain ⟨b, hbinding⟩ : ∃ b, ofOperands? (.ofFormula .add .int8) operands = .ok b := by
      cases hoperands
      exact ⟨_, rfl⟩
    obtain ⟨-, -, -, hinputs, -⟩ := passed_addresses_exact _ _ _ _ _ hoperands hbinding
    obtain ⟨base, stride, hbase, hstride, hlocates⟩ := hinputs 0 (by decide)
    cases hbase
    cases hstride
    obtain ⟨address, haddress, hlocates⟩ := hlocates 2
    have hzero : (address.toNat : Int) = 0 := hlocates.exact (by decide) (by decide)
    obtain rfl : address = 0 := UInt64.toNat_inj.mp (Int.ofNat.inj hzero)
    exact ⟨operands, b, hoperands, hbinding, haddress⟩
  · obtain ⟨operands, hoperands⟩ : ∃ operands, Operands.ofPointers? [7, 7, 7, 7, 7, 0]
        [0, 1, -1, 2, -2, 16] = .ok operands := ⟨_, rfl⟩
    obtain ⟨b, hbinding⟩ : ∃ b, ofOperands?
        (Combination.sum.kernel ⟨List.replicate 5 .int8, .int8⟩) operands = .ok b := by
      cases hoperands
      exact ⟨_, rfl⟩
    obtain ⟨-, -, hlength, hinputs, _, stride, -, hstride, -, hapart⟩ :=
      passed_addresses_exact _ _ _ _ _ hoperands hbinding
    refine ⟨operands, b, hoperands, hbinding, hlength _, ?_, ?_⟩
    · obtain ⟨base, stride, hbase, hstride, hlocates⟩ := hinputs 2 (by decide)
      cases hbase
      cases hstride
      obtain ⟨address, haddress, hlocates⟩ := hlocates 0x8000000000000001
      exact ⟨address, haddress, hlocates.wrapped⟩
    · cases hstride
      exact hapart 0x1000000000000000 (by decide) (by decide) _ _ (by decide) (by decide)
        (by decide)

end Binding

end Elementwise
