import Picon.Shared

/-!
# The tables of the monitor

`monitor_load.h`: what the loader builds and what every run consults. The
loader sizes all arrays of a module from one count and all arrays of a function
from another; these facts are fields, so a table with a short row cannot be
built. A row the loader never allocated stays `none`, the NULL pointer of C.
-/

namespace Picon.Monitor

/-- `uint8_t **`: rows are allocated one by one. -/
abbrev Table := List (Option (List Bool))

/-- What the expression `table[i][j]` meets. -/
inductive Access where
  | cell (value : Bool)
  | absentRow
  | outOfBounds
  deriving DecidableEq, Repr

def Table.access (table : Table) (i j : Nat) : Access :=
  match table[i]? with
  | none => .outOfBounds
  | some none => .absentRow
  | some (some row) =>
    match row[j]? with
    | none => .outOfBounds
    | some value => .cell value

/-- C gives no meaning to a read through NULL. `trap` ends the run there;
`zeros` is the reading in which an absent row is a row of zeros. -/
inductive AbsentRow where
  | zeros
  | trap
  deriving DecidableEq, Repr

/-- The value an access yields, `none` being undefined behaviour. -/
def Access.read (absent : AbsentRow) : Access → Option Bool
  | .cell value => some value
  | .absentRow =>
    match absent with
    | .zeros => some false
    | .trap => none
  | .outOfBounds => none

/-- Every allocated row is as wide as the table is high. -/
def Table.Square (table : Table) : Prop :=
  ∀ row, some row ∈ table → row.length = table.length

instance (table : Table) : Decidable table.Square :=
  decidable_of_iff (∀ o ∈ table, ∀ row, o = some row → row.length = table.length)
    ⟨fun h row hrow => h (some row) hrow row rfl, fun h _ ho row he => h row (he ▸ ho)⟩

/-- The table of one node without a row. -/
theorem Table.square_absent : Table.Square [none] := by decide

/-- The table of two nodes and one edge between them. -/
theorem Table.square_edge : Table.Square [some [false, true], none] := by decide

theorem Table.square_replicate (n : Nat) : Table.Square (List.replicate n none) := by
  intro row hrow
  simp at hrow

theorem Table.square_set {table : Table} (h : table.Square) {i : Nat} {row : List Bool}
    (hrow : row.length = table.length) : Table.Square (table.set i (some row)) := by
  intro r hr
  rw [List.length_set]
  rcases List.mem_or_eq_of_mem_set hr with hold | hnew
  · exact h r hold
  · obtain rfl := Option.some.inj hnew
    exact hrow

/-- `function_data`. The loader allocates `control_flow_graph` and
`immediate_post_dominator` together, so both are empty exactly while
`nb_blocks` is zero and their pointers are NULL. -/
structure FunctionData where
  /-- NULL until a record of the function section names the slot. -/
  name : Option Bytes
  flags : FctFlag
  controlFlowGraph : Table
  immediatePostDominator : List BlockId
  square : controlFlowGraph.Square
  ipd_length : immediatePostDominator.length = controlFlowGraph.length

namespace FunctionData

def nbBlocks (fd : FunctionData) : Nat := fd.controlFlowGraph.length

/-- `FUNCTION_IS_ENTRYPOINT`. -/
def isEntrypoint (fd : FunctionData) : Bool :=
  fd.flags == fctMain || fd.flags == fctInit || fd.flags == fctFini

/-- `FUNCTION_IS_EXTERNAL`. -/
def isExternal (fd : FunctionData) : Bool := fd.flags == fctExternal

/-- A slot as `calloc` leaves it. -/
def blank : FunctionData where
  name := none
  flags := 0
  controlFlowGraph := []
  immediatePostDominator := []
  square := by intro row hrow; cases hrow
  ipd_length := rfl

end FunctionData

/-- `module_data`. The three arrays are allocated together by the function
section; `allocated` tells an empty section from a missing one. -/
structure ModuleData where
  nbEntrypointInits : Nat
  nbEntrypointFinis : Nat
  allocated : Bool
  functions : List FunctionData
  callGraph : Table
  relocations : List ModuleFunctionIds
  callGraph_length : callGraph.length = functions.length
  square : callGraph.Square
  relocations_length : relocations.length = functions.length
  /-- The count comes from a 32-bit field. -/
  nbFunctions_lt : functions.length < 2 ^ 32

namespace ModuleData

def nbFunctions (md : ModuleData) : Nat := md.functions.length

/-- The module as `CFI_LOADING_MODULE_BEGIN` initialises it. -/
def empty : ModuleData where
  nbEntrypointInits := 0
  nbEntrypointFinis := 0
  allocated := false
  functions := []
  callGraph := []
  relocations := []
  callGraph_length := rfl
  square := by intro row hrow; cases hrow
  relocations_length := rfl
  nbFunctions_lt := by decide

/-- Overwrite one slot of `functions`. -/
def setFunction (md : ModuleData) (f : Nat) (fd : FunctionData) : ModuleData :=
  { md with
    functions := md.functions.set f fd
    callGraph_length := by rw [List.length_set]; exact md.callGraph_length
    relocations_length := by rw [List.length_set]; exact md.relocations_length
    nbFunctions_lt := by rw [List.length_set]; exact md.nbFunctions_lt }

/-- Install one row of `call_graph`. -/
def setCallGraphRow (md : ModuleData) (f : Nat) (row : List Bool)
    (hrow : row.length = md.nbFunctions) : ModuleData :=
  { md with
    callGraph := md.callGraph.set f (some row)
    callGraph_length := by rw [List.length_set]; exact md.callGraph_length
    square := Table.square_set md.square (hrow.trans md.callGraph_length.symm) }

/-- Overwrite one entry of `relocations`. -/
def setRelocation (md : ModuleData) (j : Nat) (r : ModuleFunctionIds) : ModuleData :=
  { md with
    relocations := md.relocations.set j r
    relocations_length := by rw [List.length_set]; exact md.relocations_length }

@[simp] theorem setFunction_functions (md : ModuleData) (f : Nat) (fd : FunctionData) :
    (md.setFunction f fd).functions = md.functions.set f fd := rfl
@[simp] theorem setFunction_callGraph (md : ModuleData) (f : Nat) (fd : FunctionData) :
    (md.setFunction f fd).callGraph = md.callGraph := rfl
@[simp] theorem setFunction_relocations (md : ModuleData) (f : Nat) (fd : FunctionData) :
    (md.setFunction f fd).relocations = md.relocations := rfl
@[simp] theorem setFunction_nbFunctions (md : ModuleData) (f : Nat) (fd : FunctionData) :
    (md.setFunction f fd).nbFunctions = md.nbFunctions := by simp [nbFunctions]
@[simp] theorem setCallGraphRow_functions (md : ModuleData) (f : Nat) (row : List Bool)
    (h : row.length = md.nbFunctions) : (md.setCallGraphRow f row h).functions = md.functions := rfl
@[simp] theorem setCallGraphRow_callGraph (md : ModuleData) (f : Nat) (row : List Bool)
    (h : row.length = md.nbFunctions) :
    (md.setCallGraphRow f row h).callGraph = md.callGraph.set f (some row) := rfl
@[simp] theorem setRelocation_functions (md : ModuleData) (j : Nat) (r : ModuleFunctionIds) :
    (md.setRelocation j r).functions = md.functions := rfl
@[simp] theorem setRelocation_relocations (md : ModuleData) (j : Nat) (r : ModuleFunctionIds) :
    (md.setRelocation j r).relocations = md.relocations.set j r := rfl
@[simp] theorem setRelocation_nbFunctions (md : ModuleData) (j : Nat) (r : ModuleFunctionIds) :
    (md.setRelocation j r).nbFunctions = md.nbFunctions := rfl

end ModuleData

/-- `monitor_data`, without the descriptors. -/
structure MonitorData where
  modules : List ModuleData

namespace MonitorData

def nbModules (data : MonitorData) : Nat := data.modules.length

def module? (data : MonitorData) (m : ModuleId) : Option ModuleData := data.modules[m.toNat]?

/-- `data.modules[m].functions[f]`. -/
def function? (data : MonitorData) (m : ModuleId) (f : FunctionId) : Option FunctionData :=
  (data.module? m).bind fun md => md.functions[f.toNat]?

/-- Number of blocks of a function, zero where there is no such function. -/
def nbBlocks (data : MonitorData) (m : ModuleId) (f : FunctionId) : Nat :=
  ((data.function? m f).map FunctionData.nbBlocks).getD 0

/-- `f` is an existing function of module `m`. -/
def HasFunction (data : MonitorData) (m : ModuleId) (f : FunctionId) : Prop :=
  (data.function? m f).isSome

/-- `(m, f)` designates a function that may start a run. -/
def EntryPoint (data : MonitorData) (m : ModuleId) (f : FunctionId) : Prop :=
  ∃ fd, data.function? m f = some fd ∧ fd.isEntrypoint = true

end MonitorData

end Picon.Monitor
