import Mathlib.Data.BitVec

/-!
# Integers and identifiers

The fixed-width integers of `stdint.h` are bit vectors, so that C's wrap-around is the arithmetic
of the model. The identifiers `vcpuid_t`, `vmid_t` and `pcpuid_t` only ever count up from zero or
equal one of the two invalid numbers, and are natural numbers.
-/

namespace KHypervisor

abbrev U8 := BitVec 8

abbrev U32 := BitVec 32

abbrev U64 := BitVec 64

abbrev VcpuId := ℕ

abbrev VmId := ℕ

abbrev PcpuId := ℕ

/-- `VCPUID_INVALID`. -/
def vcpuidInvalid : VcpuId := 0xFF

/-- `PIRQ_INVALID`, which `VIRQ_INVALID` is defined as. -/
def pirqInvalid : U32 := 0xFFFFFFFF

/-- `VIRQ_INVALID`. -/
def virqInvalid : U32 := pirqInvalid

end KHypervisor
