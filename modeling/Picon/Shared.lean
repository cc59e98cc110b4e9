import Mathlib.Algebra.Group.Nat.Defs
import Mathlib.Data.List.Basic

/-!
# The vocabulary shared by the client and the monitor

`shared.h`: identifiers, client signals, the packed relocation word, function
flags and loading events. Identifiers keep their machine width, so a theorem
over every signal is a theorem over every value the client can put on the pipe.
-/

namespace Picon

abbrev Bytes := List UInt8

instance : LawfulBEq Bytes := inferInstance

abbrev ModuleId := UInt16
abbrev FunctionId := UInt32
abbrev BlockId := UInt32

/-- `client_event`; the field is eight bits wide, and every value outside the
enumeration takes the same `default` branch of the monitor. -/
inductive ClientEvent where
  | beforeJump
  | afterJump
  | call
  | enter
  | exit
  | returned
  | malformed
  deriving DecidableEq, Repr

/-- `client_signal`. -/
structure ClientSignal where
  event : ClientEvent
  module : ModuleId
  function : FunctionId
  block : BlockId
  deriving DecidableEq, Repr

/-- The signal is this event of function `f` of module `m`. -/
def ClientSignal.Is (sig : ClientSignal) (event : ClientEvent) (m : ModuleId) (f : FunctionId) :
    Prop :=
  sig.event = event ∧ sig.module = m ∧ sig.function = f

/-- `module_function_ids`: module in the high word, function in the low one. -/
abbrev ModuleFunctionIds := UInt64

/-- `MODULE_FUNCTION(m,f)`, whose arguments are plain C integers. -/
def moduleFunction (m f : Nat) : ModuleFunctionIds :=
  UInt64.ofNat m <<< 32 ||| (UInt64.ofNat f &&& 0xffffffff)

/-- `MODULE_FUNCTION_GET_MODULE(r)`. -/
def moduleFunctionGetModule (r : ModuleFunctionIds) : ModuleId := (r >>> 32).toUInt16

/-- `MODULE_FUNCTION_GET_FUNCTION(r)`. -/
def moduleFunctionGetFunction (r : ModuleFunctionIds) : FunctionId := (r &&& 0xffffffff).toUInt32

theorem getModule_zero : moduleFunctionGetModule 0 = 0 := by decide

theorem getFunction_zero : moduleFunctionGetFunction 0 = 0 := by decide

private theorem packed_low {f : Nat} (hf : f < 2 ^ 32) : f &&& 4294967295 = f := by
  have h : f &&& (2 ^ 32 - 1) = f % 2 ^ 32 := Nat.and_two_pow_sub_one_eq_mod f 32
  rw [Nat.mod_eq_of_lt hf] at h
  exact h

private theorem moduleFunction_toNat (m : Nat) {f : Nat} (hf : f < 2 ^ 32) :
    (moduleFunction m f).toNat = m % 2 ^ 32 * 2 ^ 32 + f := by
  have hlow : (UInt64.ofNat f &&& 0xffffffff).toNat = f := by
    rw [UInt64.toNat_and, UInt64.toNat_ofNat_of_lt' (Nat.lt_trans hf (by decide))]
    exact packed_low hf
  have hhigh : (UInt64.ofNat m <<< 32).toNat = m % 2 ^ 32 * 2 ^ 32 := by
    rw [UInt64.toNat_shiftLeft, UInt64.toNat_ofNat', Nat.shiftLeft_eq]
    change m % 2 ^ 64 * 2 ^ 32 % 2 ^ 64 = _
    omega
  rw [moduleFunction, UInt64.toNat_or, hlow, hhigh, Nat.mul_comm]
  exact (Nat.two_pow_add_eq_or_of_lt hf (m % 2 ^ 32)).symm

/-- A packed pair decodes to its module cut to sixteen bits. -/
theorem getModule_moduleFunction (m : Nat) {f : Nat} (hf : f < 2 ^ 32) :
    (moduleFunctionGetModule (moduleFunction m f)).toNat = m % 2 ^ 16 := by
  rw [moduleFunctionGetModule, UInt64.toNat_toUInt16, UInt64.toNat_shiftRight,
    moduleFunction_toNat m hf, Nat.shiftRight_eq_div_pow]
  change (m % 2 ^ 32 * 2 ^ 32 + f) / 2 ^ 32 % 2 ^ 16 = m % 2 ^ 16
  omega

theorem getFunction_moduleFunction (m : Nat) {f : Nat} (hf : f < 2 ^ 32) :
    (moduleFunctionGetFunction (moduleFunction m f)).toNat = f := by
  rw [moduleFunctionGetFunction, UInt64.toNat_toUInt32, UInt64.toNat_and,
    moduleFunction_toNat m hf]
  have h : (m % 2 ^ 32 * 2 ^ 32 + f) &&& (2 ^ 32 - 1) = (m % 2 ^ 32 * 2 ^ 32 + f) % 2 ^ 32 :=
    Nat.and_two_pow_sub_one_eq_mod _ 32
  change ((m % 2 ^ 32 * 2 ^ 32 + f) &&& (2 ^ 32 - 1)) % 2 ^ 32 = f
  rw [h]
  omega

/-- `fct_flag_t`, as the monitor compares it: the four bytes of the packet. -/
abbrev FctFlag := UInt32

def fctInternal : FctFlag := 0
def fctExternal : FctFlag := 1
def fctInit : FctFlag := 2
def fctFini : FctFlag := 3
def fctMain : FctFlag := 4

/-- `loading_event`; values outside the enumeration share one branch. -/
inductive LoadingEvent where
  | moduleBegin
  | sectionFunctionId
  | sectionFunctionTransition
  | sectionBlockTransition
  | sectionBlockIpd
  | moduleEnd
  | terminated
  | unexpected
  deriving DecidableEq, Repr

/-- `monitor_answer`: the only answer the monitor ever writes is `CFI_OK`. -/
inductive MonitorAnswer where
  | ok
  | other
  deriving DecidableEq, Repr

end Picon
