import Mathlib.Data.List.Basic
import Picon.Shared

/-!
# What the pass sees of a translation unit

Functions as lists of numbered basic blocks. Only the distinctions the pass
makes are kept: an instruction is a PHI node, a debug or another intrinsic,
inline assembly, a direct call, or anything else. What LLVM's verifier enforces
is a field, so a malformed function cannot be built.
-/

namespace Picon.Pass

/-- A symbol name. -/
abbrev Name := Bytes

/-- `main`. -/
def mainName : Name := [109, 97, 105, 110]

inductive Instruction where
  | phi
  | dbg
  | intrinsic
  | inlineAsm
  | call (callee : Name)
  | other
  deriving DecidableEq, Repr

inductive Terminator where
  | ret
  | br (dest : Nat)
  | condBr (ifTrue ifFalse : Nat)
  | switch (default : Nat) (cases : List Nat)
  | unreachable
  deriving DecidableEq, Repr

namespace Terminator

/-- `succ_begin .. succ_end`. -/
def succs : Terminator → List Nat
  | ret => []
  | br dest => [dest]
  | condBr ifTrue ifFalse => [ifTrue, ifFalse]
  | switch default cases => default :: cases
  | unreachable => []

/-- `br` and `switch`. -/
def isBranch : Terminator → Bool
  | ret | unreachable => false
  | br _ | condBr _ _ | switch _ _ => true

theorem isBranch_of_mem_succs {t : Terminator} {b : Nat} (h : b ∈ t.succs) : t.isBranch = true := by
  cases t with
  | ret => cases h
  | unreachable => cases h
  | br dest => rfl
  | condBr ifTrue ifFalse => rfl
  | switch default cases => rfl

end Terminator

/-- A block over the instructions of the source, or over instrumented ones. -/
structure BasicBlock (I : Type) where
  instrs : List I
  term : Terminator
  deriving DecidableEq, Repr

/-- A function. A declaration has no block; the number of a block is its
position, and the entry block comes first. -/
structure Function where
  name : Name
  /-- `getIntrinsicID() != Intrinsic::not_intrinsic`. -/
  intrinsic : Bool
  blocks : List (BasicBlock Instruction)
  succs_lt : ∀ blk ∈ blocks, ∀ b ∈ blk.term.succs, b < blocks.length
  entry_noPred : ∀ blk ∈ blocks, 0 ∉ blk.term.succs
  entry_noPhi : ∀ blk ∈ blocks.head?, Instruction.phi ∉ blk.instrs

namespace Function

def isDeclaration (F : Function) : Bool := F.blocks.isEmpty

theorem exists_block (F : Function) {b : Nat} (h : b < F.blocks.length) :
    ∃ blk, F.blocks[b]? = some blk :=
  ⟨F.blocks[b], List.getElem?_eq_getElem h⟩

/-- `b -> b'` is a branch of the function. -/
def Edge (F : Function) (b b' : Nat) : Prop :=
  ∃ blk, F.blocks[b]? = some blk ∧ b' ∈ blk.term.succs

theorem Edge.lt {F : Function} {b b' : Nat} (h : F.Edge b b') : b' < F.blocks.length := by
  obtain ⟨blk, hblk, hmem⟩ := h
  exact F.succs_lt blk (List.mem_of_getElem? hblk) b' hmem

theorem Edge.ne_zero {F : Function} {b b' : Nat} (h : F.Edge b b') : b' ≠ 0 := by
  obtain ⟨blk, hblk, hmem⟩ := h
  rintro rfl
  exact F.entry_noPred blk (List.mem_of_getElem? hblk) hmem

/-- A call of `callee` occurs in the function. -/
def HasCall (F : Function) (callee : Name) : Prop :=
  ∃ blk ∈ F.blocks, Instruction.call callee ∈ blk.instrs

end Function

/-- A translation unit. Its ctor and dtor arrays are lists of priorities and
functions, its annotations pairs of a function and a string. -/
structure TranslationUnit where
  functions : List Function
  globalCtors : List (Nat × Name)
  globalDtors : List (Nat × Name)
  annotations : List (Name × String)
  names_nodup : (functions.map Function.name).Nodup
  /-- A symbol name is a C string. -/
  names_noNul : ∀ F ∈ functions, 0 ∉ F.name
  /-- The callee of a direct call is declared in the unit. -/
  callee_declared : ∀ F ∈ functions, ∀ g, F.HasCall g →
    ∃ G ∈ functions, G.name = g ∧ G.intrinsic = false

/-- `internal` is `hasLocalLinkage`. -/
inductive Linkage where
  | external
  | internal
  deriving DecidableEq, Repr

/-- `-cfi-level`. -/
inductive Level where
  | function
  | basicBlock
  deriving DecidableEq, Repr

/-- An entry of `_FunctionMap`. `bb_map` numbers the blocks by position. -/
structure CFIFct where
  fn : Function
  id : Nat

/-- `ControlFlowIntegrity` once the functions are identified. The function map
is the list of its entries in the order of the hash table. -/
structure ControlFlowIntegrity where
  functionMap : List CFIFct
  identifiedFunctions : List (Name × Nat)
  ignoredFunctions : List Name
  initFunctions : List Name
  finiFunctions : List Name
  ignoredBlocksFunctions : List Name
  /-- An entry carries the identifier of its name. -/
  identified : ∀ f ∈ functionMap, identifiedFunctions.lookup f.fn.name = some f.id
  /-- Neither ignored functions nor intrinsics have an entry. -/
  instrumentable : ∀ f ∈ functionMap, f.fn.name ∉ ignoredFunctions ∧ f.fn.intrinsic = false

namespace ControlFlowIntegrity

variable (cfi : ControlFlowIntegrity)

def isIgnoredFunction (fName : Name) : Bool := fName ∈ cfi.ignoredFunctions

def isInitFunction (fName : Name) : Bool := fName ∈ cfi.initFunctions

def isFiniFunction (fName : Name) : Bool := fName ∈ cfi.finiFunctions

def isIgnoredBlocksFunction (fName : Name) : Bool := fName ∈ cfi.ignoredBlocksFunctions

/-- `getIdentifier`; it returns `-1` for an unknown name, which the injected
constants hold in 32 bits. -/
def getIdentifier (fName : Name) : Nat :=
  (cfi.identifiedFunctions.lookup fName).getD (2 ^ 32 - 1)

theorem getIdentifier_of_mem {f : CFIFct} (h : f ∈ cfi.functionMap) :
    cfi.getIdentifier f.fn.name = f.id := by
  rw [getIdentifier, cfi.identified f h]
  rfl

theorem not_isIgnoredFunction {f : CFIFct} (h : f ∈ cfi.functionMap) :
    cfi.isIgnoredFunction f.fn.name = false := by
  simpa [isIgnoredFunction] using (cfi.instrumentable f h).1

end ControlFlowIntegrity

end Picon.Pass
