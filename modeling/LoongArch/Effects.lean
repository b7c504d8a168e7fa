/-!
# Effects

A coarse summary of what an instruction can do: a set of flags, kept as bits of a 16-bit number. Bits
without a meaning of their own may be set as well, and are kept.
-/

set_option autoImplicit false

namespace LoongArch

inductive Effect where
  | writesDestination
  | load
  | store
  | branch
  | jump
  | call
  | indirect
  | halt
deriving DecidableEq, Repr

namespace Effect

def all : List Effect :=
  [writesDestination, load, store, branch, jump, call, indirect, halt]

def bit : Effect → UInt16
  | writesDestination => 0x01
  | load => 0x02
  | store => 0x04
  | branch => 0x08
  | jump => 0x10
  | call => 0x20
  | indirect => 0x40
  | halt => 0x80

def name : Effect → String
  | writesDestination => "WRITES_RD"
  | load => "LOAD"
  | store => "STORE"
  | branch => "BRANCH"
  | jump => "JUMP"
  | call => "CALL"
  | indirect => "INDIRECT"
  | halt => "HALT"

end Effect

structure Effects where
  bits : UInt16
deriving DecidableEq, Repr

namespace Effects

def empty : Effects := ⟨0⟩

def union (left right : Effects) : Effects :=
  ⟨left.bits ||| right.bits⟩

def ofList (effects : List Effect) : Effects :=
  ⟨effects.foldr (fun effect bits => effect.bit ||| bits) 0⟩

def has (effects : Effects) (effect : Effect) : Bool :=
  effects.bits &&& effect.bit == effect.bit

def toList (effects : Effects) : List Effect :=
  Effect.all.filter effects.has

def unnamed (effects : Effects) : UInt16 :=
  effects.bits &&& ~~~(ofList Effect.all).bits

theorem bit_and_bit (left right : Effect) :
    left.bit &&& right.bit = if left = right then right.bit else 0 := by
  cases left <;> cases right <;> rfl

private theorem or_and (left right mask : UInt16) :
    (left ||| right) &&& mask = left &&& mask ||| right &&& mask :=
  UInt16.toBitVec_inj.1 BitVec.and_or_distrib_right

private theorem or_absorb (left mask : UInt16) : mask ||| left &&& mask = mask := by
  apply UInt16.toBitVec_inj.1
  apply BitVec.eq_of_getElem_eq
  intro index bound
  simp only [UInt16.toBitVec_or, UInt16.toBitVec_and, BitVec.getElem_or, BitVec.getElem_and]
  cases mask.toBitVec[index] <;> simp

/-- A set has the effects of the list that it was made from, and no others: no two effects share a
bit. -/
@[simp] theorem has_of_list (effects : List Effect) (effect : Effect) :
    (ofList effects).has effect = decide (effect ∈ effects) := by
  induction effects with
  | nil => cases effect <;> rfl
  | cons first effects hypothesis =>
    simp only [has, ofList, List.foldr_cons, or_and, bit_and_bit] at hypothesis ⊢
    by_cases same : first = effect
    · simp [same, or_absorb]
    · have other : ¬effect = first := fun equal => same equal.symm
      simp only [if_neg same, UInt16.zero_or, hypothesis, List.mem_cons, other, false_or]

@[simp] theorem has_empty (effect : Effect) : empty.has effect = false := by
  cases effect <;> rfl

end Effects
end LoongArch
