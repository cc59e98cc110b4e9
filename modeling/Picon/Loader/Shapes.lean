import Picon.Loader.Tables
import Picon.Monitor.Relocation

/-!
# Allocations and contents

While memory lasts, the decoders on allocations and the decoders on contents
take the same decisions: they accept and refuse the same packets, with the same
codes, and keep the same pointers NULL.
-/

namespace Picon.Loader.Tables

open Lib (ArrayPtr BufferId Heap forRecords Agree forRecords_agree readLe32_lt)
open Monitor

/-- The counts of a function, and which of its pointers are not NULL. -/
structure FunctionShape where
  named : Bool
  nbBlocks : Nat
  rows : List Bool
  ipd : Bool
  deriving DecidableEq, Repr

structure ModuleShape where
  nbFunctions : Nat
  callGraph : Bool
  functions : Bool
  rows : List Bool
  slots : List FunctionShape
  deriving DecidableEq, Repr

def FunctionBlocks.shape (f : FunctionBlocks) : FunctionShape :=
  ⟨f.name.isSome, f.nbBlocks, f.controlFlowGraph.cells.map Option.isSome,
    f.immediatePostDominator.isSome⟩

/-- The two arrays of a function come with its block count. -/
def functionShape (fd : FunctionData) : FunctionShape :=
  ⟨fd.name.isSome, fd.nbBlocks, fd.controlFlowGraph.map Option.isSome, decide (fd.nbBlocks ≠ 0)⟩

def ModuleBlocks.shape (m : ModuleBlocks) : ModuleShape :=
  ⟨m.nbFunctions, m.callGraph.pointer.isSome, m.functions.pointer.isSome,
    m.callGraph.cells.map Option.isSome, m.functions.cells.map FunctionBlocks.shape⟩

def moduleShape (md : ModuleData) : ModuleShape :=
  ⟨md.nbFunctions, md.allocated, md.allocated, md.callGraph.map Option.isSome,
    md.functions.map functionShape⟩

/-! ### Shapes under the updates of the decoders -/

theorem setFunction_shape (m : ModuleBlocks) (fId : Nat) (f : FunctionBlocks) :
    (m.setFunction fId f).shape = { m.shape with slots := m.shape.slots.set fId f.shape } := by
  simp [ModuleBlocks.shape, ModuleBlocks.setFunction, List.map_set]

theorem setRow_shape (m : ModuleBlocks) (fId : Nat) (row : BufferId) :
    (m.setRow fId row).shape = { m.shape with rows := m.shape.rows.set fId true } := by
  simp [ModuleBlocks.shape, ModuleBlocks.setRow, List.map_set]

theorem moduleShape_setFunction (md : ModuleData) (fId : Nat) (fd : FunctionData) :
    moduleShape (md.setFunction fId fd) =
      { moduleShape md with slots := (moduleShape md).slots.set fId (functionShape fd) } := by
  simp [moduleShape, ModuleData.nbFunctions, ModuleData.setFunction, List.map_set]

theorem moduleShape_setCallGraphRow (md : ModuleData) (fId : Nat) (row : List Bool)
    (hrow : row.length = md.nbFunctions) :
    moduleShape (md.setCallGraphRow fId row hrow) =
      { moduleShape md with rows := (moduleShape md).rows.set fId true } := by
  simp [moduleShape, ModuleData.nbFunctions, ModuleData.setCallGraphRow, List.map_set]

theorem isSome_join_map {α : Type} (l : List (Option α)) (i : Nat) :
    l[i]?.join.isSome = ((l.map Option.isSome)[i]?).getD false := by
  rw [List.getElem?_map]
  cases l[i]? with
  | none => rfl
  | some x => cases x <;> rfl

/-- A slot of one side has its slot of the same shape on the other. -/
theorem slot_of_shape {m : ModuleBlocks} {md : ModuleData} (h : m.shape = moduleShape md)
    (fId : Nat) :
    (m.functions.cells[fId]? = none ∧ md.functions[fId]? = none) ∨
      ∃ f fd, m.functions.cells[fId]? = some f ∧ md.functions[fId]? = some fd ∧
        f.shape = functionShape fd := by
  have hslots : m.functions.cells.map FunctionBlocks.shape = md.functions.map functionShape :=
    congrArg ModuleShape.slots h
  have hat := congrArg (fun l => l[fId]?) hslots
  simp only [List.getElem?_map] at hat
  cases hm : m.functions.cells[fId]? with
  | none =>
    rw [hm] at hat
    cases hmd : md.functions[fId]? with
    | none => exact .inl ⟨rfl, rfl⟩
    | some fd =>
      rw [hmd] at hat
      cases hat
  | some f =>
    rw [hm] at hat
    cases hmd : md.functions[fId]? with
    | none =>
      rw [hmd] at hat
      cases hat
    | some fd =>
      rw [hmd] at hat
      exact .inr ⟨f, fd, rfl, rfl, Option.some.inj hat⟩

/-! ### The decoders in lockstep -/

/-- The same packet is refused with the same code. -/
abbrev sameError {B : Type} (e : LoadError × Loading B) (e' : LoadError) : Prop := e.1 = e'

theorem read_agree {B α : Type} (s : Loading B) (x : Load α) :
    Agree (· = ·) sameError (s.read x) x := by
  cases x with
  | error e => exact rfl
  | ok a => exact rfl

/-- The edges of a record are accepted whatever the row holds already. -/
theorem edgeLoop_agree {B : Type} (s : Loading B) (width code n : Nat) (cptr : Bytes)
    (row row' : List Bool) :
    Agree (fun _ _ => True) sameError (s.read (edgeLoop width code n cptr row))
      (edgeLoop width code n cptr row') := by
  have hstep (ptr : Bytes) (r r' : List Bool) (_ : True) :
      Agree (fun p p' => p.1 = p'.1 ∧ True) (· = ·) (edgeRecord width code ptr r)
        (edgeRecord width code ptr r') := by
    unfold edgeRecord
    cases readWord ptr with
    | error e => exact rfl
    | ok target =>
      show Agree _ _ (ite _ _ _) (ite _ _ _)
      split
      · exact rfl
      · exact ⟨rfl, trivial⟩
  have hloop : Agree (fun p p' => p.1 = p'.1 ∧ True) (· = ·)
      (forRecords (edgeRecord width code) n cptr row)
      (forRecords (edgeRecord width code) n cptr row') := forRecords_agree hstep trivial
  unfold edgeLoop
  cases hrun : forRecords (edgeRecord width code) n cptr row with
  | error e =>
    cases hrun' : forRecords (edgeRecord width code) n cptr row' with
    | error e' =>
      rw [hrun, hrun'] at hloop
      exact hloop
    | ok r' =>
      rw [hrun, hrun'] at hloop
      exact hloop.elim
  | ok r =>
    cases hrun' : forRecords (edgeRecord width code) n cptr row' with
    | error e' =>
      rw [hrun, hrun'] at hloop
      exact hloop.elim
    | ok r' => exact trivial

theorem null_iff {p : Option BufferId} {allocated : Bool} (h : p.isSome = allocated) :
    p = none ↔ (!allocated) = true := by
  rw [← h]
  cases p <;> simp

/-- The state of a loop over records, and the cursor. -/
abbrev sameShape (r : Bytes × Loading ModuleBlocks) (r' : Bytes × ModuleData) : Prop :=
  r.1 = r'.1 ∧ r.2.blocks.shape = moduleShape r'.2

/-- Two calls end alike, and `R` holds of what was loaded. -/
def SameEnd {α : Type} (R : α → Prop) : ModuleLoad α → ModuleLoad Unit → Prop
  | .terminated rest, .terminated rest' => rest = rest'
  | .loaded a rest, .loaded _ rest' => rest = rest' ∧ R a
  | .failed e, .failed e' => e = e'
  | .waiting, .waiting => True
  | _, _ => False

section Granted

variable {grants : Nat → Bool} (hg : ∀ k, grants k = true) {s : Loading ModuleBlocks}
  {md : ModuleData}

include hg

theorem functionIdRecord_agree (ptr : Bytes) (hs : s.blocks.shape = moduleShape md) :
    Agree sameShape sameError (functionIdRecord grants ptr s)
      (Monitor.functionIdRecord ptr md) := by
  have hcount : s.blocks.nbFunctions = md.nbFunctions := congrArg ModuleShape.nbFunctions hs
  unfold functionIdRecord Monitor.functionIdRecord
  refine (read_agree s _).bind fun fId _ hid => ?_
  subst hid
  rw [hcount]
  split
  · exact rfl
  · refine (read_agree s _).bind fun name _ hname => (read_agree s _).bind fun flags _ hflags => ?_
    subst hname hflags
    refine ⟨rfl, ?_⟩
    obtain ⟨b, h', halloc⟩ := Heap.alloc_granted hg Site.name s.heap
    show ((s.blocks.setFunction fId (.named (s.heap.alloc grants .name).1)).shape) =
      moduleShape (md.setFunction fId _)
    rw [halloc, setFunction_shape, moduleShape_setFunction, hs]
    rfl

theorem allocateFunctions_granted (n : Nat) (s : Loading ModuleBlocks) :
    ∃ s' g r f, allocateFunctions grants n s = (true, s') ∧
      s'.blocks = ⟨n, .of (some g) (List.replicate n none), some r,
        .of (some f) (List.replicate n .blank)⟩ := by
  obtain ⟨g, h₁, ha₁⟩ := Heap.alloc_granted hg (.functionArray n) s.heap
  obtain ⟨r, h₂, ha₂⟩ := Heap.alloc_granted hg (.functionArray n) h₁
  obtain ⟨f, h₃, ha₃⟩ := Heap.alloc_granted hg (.functionArray n) h₂
  refine ⟨⟨⟨n, .of (some g) (List.replicate n none), some r,
    .of (some f) (List.replicate n .blank)⟩, h₃⟩, g, r, f, ?_, rfl⟩
  simp only [allocateFunctions, ha₁, ha₂, ha₃]

omit hg in
/-- The function section once its tables are there. -/
theorem loadSectionFunctionId_of_allocated {fct : Bytes} {n : Nat}
    {s s' : Loading ModuleBlocks} (hzero : s.blocks.nbFunctions = 0)
    (hn : readWord fct = .ok n) (halloc : allocateFunctions grants n s = (true, s')) :
    loadSectionFunctionId grants fct s =
      (forRecords (functionIdRecord grants) n (fct.drop 4) s').bind fun r => .ok r.2 := by
  unfold loadSectionFunctionId
  rw [if_neg (not_not.mpr hzero), hn]
  simp only [Loading.read, bind, Except.bind, halloc]

theorem loadSectionFunctionId_agree {fct : Bytes} (hs : s.blocks.shape = moduleShape md) :
    Agree (fun s' md' => s'.blocks.shape = moduleShape md') sameError
      (loadSectionFunctionId grants fct s) (Monitor.loadSectionFunctionId fct md) := by
  have hcount : s.blocks.nbFunctions = md.nbFunctions := congrArg ModuleShape.nbFunctions hs
  unfold Monitor.loadSectionFunctionId
  split
  · rename_i hloaded
    unfold loadSectionFunctionId
    rw [hcount, if_pos hloaded]
    exact rfl
  · rename_i hzero
    have hzero' : s.blocks.nbFunctions = 0 := hcount.trans (not_not.mp hzero)
    split
    · rename_i hnum
      have hword : readWord fct = .error .overread := by rw [readWord, hnum]
      unfold loadSectionFunctionId
      rw [if_neg (not_not.mpr hzero'), hword]
      exact rfl
    · rename_i n hnum
      have hword : readWord fct = .ok n := by rw [readWord, hnum]
      obtain ⟨s', g, r, f, halloc, hblocks⟩ := allocateFunctions_granted hg n s
      rw [loadSectionFunctionId_of_allocated hzero' hword halloc]
      have hstart : s'.blocks.shape = moduleShape (md.allocate n (readLe32_lt hnum)) := by
        rw [hblocks]
        simp [ModuleBlocks.shape, moduleShape, ModuleData.allocate, ModuleData.nbFunctions,
          FunctionBlocks.shape, functionShape, FunctionBlocks.blank, FunctionData.blank,
          FunctionData.nbBlocks]
      refine (forRecords_agree (R := fun s md => s.blocks.shape = moduleShape md)
        (fun ptr s md hs => functionIdRecord_agree hg ptr hs) hstart).bind ?_
      intro r r' hr
      exact hr.2

/-! #### The transitions of the functions -/

theorem functionTransitionRecord_agree (ptr : Bytes) (hs : s.blocks.shape = moduleShape md) :
    Agree sameShape sameError (functionTransitionRecord grants ptr s)
      (Monitor.functionTransitionRecord ptr md) := by
  have hcount : s.blocks.nbFunctions = md.nbFunctions := congrArg ModuleShape.nbFunctions hs
  have hrows : s.blocks.callGraph.cells.map Option.isSome = md.callGraph.map Option.isSome :=
    congrArg ModuleShape.rows hs
  unfold functionTransitionRecord Monitor.functionTransitionRecord
  refine (read_agree s _).bind fun fId _ hid => ?_
  subst hid
  rw [hcount, isSome_join_map, isSome_join_map, hrows]
  split
  · exact rfl
  · split
    · exact rfl
    · obtain ⟨row, heap, halloc⟩ := Heap.alloc_granted hg Site.callGraphRow s.heap
      have hrow : allocateRow grants fId s = (true, ⟨s.blocks.setRow fId row, heap⟩) := by
        rw [allocateRow, halloc]
      rw [hrow]
      refine (read_agree _ _).bind fun num _ hnum => ?_
      subst hnum
      have hwidth : (s.blocks.setRow fId row).nbFunctions = md.nbFunctions := hcount
      simp only [hwidth]
      split
      · rename_i e hrun
        rw [hrun]
        exact rfl
      · rename_i cells hrun
        refine Agree.bind_ok (R := fun _ _ => True) (b := cells) (by rw [hrun]; exact trivial)
          fun _ _ => ?_
        refine ⟨rfl, ?_⟩
        show (s.blocks.setRow fId row).shape = _
        rw [setRow_shape, moduleShape_setCallGraphRow, hs]

theorem loadSectionFunctionTransition_agree {trans : Bytes}
    (hs : s.blocks.shape = moduleShape md) :
    Agree (fun s' md' => s'.blocks.shape = moduleShape md') sameError
      (loadSectionFunctionTransition grants trans s)
      (Monitor.loadSectionFunctionTransition trans md) := by
  have hcount : s.blocks.nbFunctions = md.nbFunctions := congrArg ModuleShape.nbFunctions hs
  have hnull : s.blocks.callGraph.pointer = none ↔ (!md.allocated) = true :=
    null_iff (congrArg ModuleShape.callGraph hs)
  unfold loadSectionFunctionTransition Monitor.loadSectionFunctionTransition
  by_cases harray : s.blocks.callGraph.pointer = none
  · rw [if_pos harray, if_pos (hnull.mp harray)]
    exact rfl
  · rw [if_neg harray, if_neg fun h => harray (hnull.mpr h), hcount]
    split
    · exact rfl
    · refine (read_agree s _).bind fun n _ hn => ?_
      subst hn
      refine (forRecords_agree (R := fun s md => s.blocks.shape = moduleShape md)
        (fun ptr s md hs => functionTransitionRecord_agree hg ptr hs) hs).bind ?_
      intro r r' hr
      exact hr.2

/-! #### The blocks of a function -/

omit hg in
theorem functionShape_setCfgRow (fd : FunctionData) (bId : Nat) (row : List Bool)
    (hrow : row.length = fd.nbBlocks) :
    functionShape (fd.setCfgRow bId row hrow) =
      { functionShape fd with rows := (functionShape fd).rows.set bId true } := by
  simp [functionShape, FunctionData.nbBlocks, FunctionData.setCfgRow, List.map_set]

/-- The row of a block is there afterwards, whether or not it was before. -/
theorem allocateBlockRow_granted (bId : Nat) (fs : Loading FunctionBlocks)
    (hb : bId < fs.blocks.controlFlowGraph.cells.length) :
    ∃ fs', allocateBlockRow grants bId fs = (true, fs') ∧
      fs'.blocks.shape = { fs.blocks.shape with rows := fs.blocks.shape.rows.set bId true } := by
  unfold allocateBlockRow
  split
  · rename_i hsome
    refine ⟨fs, rfl, ?_⟩
    have hrow : fs.blocks.controlFlowGraph.cells[bId].isSome = true := by
      rwa [List.getElem?_eq_getElem hb, Option.join_some] at hsome
    have hsame : fs.blocks.shape.rows.set bId true = fs.blocks.shape.rows := by
      show (fs.blocks.controlFlowGraph.cells.map Option.isSome).set bId true = _
      rw [← hrow, ← List.map_set, List.set_getElem_self]
      rfl
    rw [hsame]
  · obtain ⟨row, heap, halloc⟩ := Heap.alloc_granted hg Site.controlFlowRow fs.heap
    rw [halloc]
    refine ⟨_, rfl, ?_⟩
    simp [FunctionBlocks.shape, FunctionBlocks.setRow, List.map_set]

theorem blockTransitionRecord_agree (ptr : Bytes) {fs : Loading FunctionBlocks}
    {fd : FunctionData} (hs : fs.blocks.shape = functionShape fd) :
    Agree (fun r r' => r.1 = r'.1 ∧ r.2.blocks.shape = functionShape r'.2) sameError
      (blockTransitionRecord grants ptr fs) (Monitor.blockTransitionRecord ptr fd) := by
  have hcount : fs.blocks.nbBlocks = fd.nbBlocks := congrArg FunctionShape.nbBlocks hs
  have hlength : fs.blocks.controlFlowGraph.cells.length = fd.nbBlocks := by
    have hrows := congrArg (fun shape => shape.rows.length) hs
    simpa [FunctionBlocks.shape, functionShape, FunctionData.nbBlocks] using hrows
  unfold blockTransitionRecord Monitor.blockTransitionRecord
  refine (read_agree fs _).bind fun bId _ hid => ?_
  subst hid
  rw [hcount]
  split
  · exact rfl
  · rename_i hlt
    obtain ⟨fs', halloc, hshape⟩ := allocateBlockRow_granted hg bId fs (by omega)
    rw [hs] at hshape
    have hcount' : fs'.blocks.nbBlocks = fd.nbBlocks := congrArg FunctionShape.nbBlocks hshape
    rw [halloc]
    refine (read_agree _ _).bind fun num _ hnum => ?_
    subst hnum
    simp only [hcount']
    have hloop := edgeLoop_agree fs' fd.nbBlocks 10 num (ptr.drop 8)
      (List.replicate fd.nbBlocks false) (fd.cfgRow bId)
    split
    · rename_i e hrun
      rw [hrun] at hloop
      exact hloop.bind_error
    · rename_i cells hrun
      rw [hrun] at hloop
      refine hloop.bind_ok fun _ _ => ?_
      refine ⟨rfl, ?_⟩
      rw [hshape, functionShape_setCfgRow]

theorem allocateBlocks_granted (n : Nat) (fs : Loading FunctionBlocks) :
    ∃ fs' g d, allocateBlocks grants n fs = (true, fs') ∧
      fs'.blocks = ⟨fs.blocks.name, n, .of (some g) (List.replicate n none), some d⟩ := by
  obtain ⟨g, h₁, ha₁⟩ := Heap.alloc_granted hg .controlFlowGraph fs.heap
  obtain ⟨d, h₂, ha₂⟩ := Heap.alloc_granted hg .immediatePostDominator h₁
  refine ⟨⟨⟨fs.blocks.name, n, .of (some g) (List.replicate n none), some d⟩, h₂⟩, g, d, ?_, rfl⟩
  simp only [allocateBlocks, ha₁, ha₂]

omit hg in
/-- The function is put back into its slot on both sides. -/
theorem store_agree (fId : Nat) {x : Decoded FunctionBlocks (Loading FunctionBlocks)}
    {y : Load FunctionData} (hs : s.blocks.shape = moduleShape md)
    (hxy : Agree (fun fs fd => fs.blocks.shape = functionShape fd) sameError x y) :
    Agree (fun s' md' => s'.blocks.shape = moduleShape md') sameError
      (match x with
        | .error (e, fs) =>
          (.error (e, s.store fId fs) : Decoded ModuleBlocks (Loading ModuleBlocks))
        | .ok fs => .ok (s.store fId fs))
      (y >>= fun fd => .ok (md.setFunction fId fd)) := by
  cases x with
  | error e =>
    cases y with
    | error e' => exact hxy
    | ok fd => exact hxy.elim
  | ok fs =>
    cases y with
    | error e' => exact hxy.elim
    | ok fd =>
      show (s.blocks.setFunction fId fs.blocks).shape = moduleShape (md.setFunction fId fd)
      rw [setFunction_shape, moduleShape_setFunction, hs, hxy]

theorem fillBlocks_agree (trans : Bytes) {fs : Loading FunctionBlocks} {fd : FunctionData}
    (hs : fs.blocks.shape = functionShape fd) :
    Agree (fun fs' fd' => fs'.blocks.shape = functionShape fd') sameError
      (fillBlocks grants trans fs) (do
        let n ← readWord (trans.drop 8)
        let r ← forRecords Monitor.blockTransitionRecord n (trans.drop 12) fd
        .ok r.2) := by
  unfold fillBlocks
  refine (read_agree fs _).bind fun n _ hn => ?_
  subst hn
  refine (forRecords_agree (R := fun fs fd => fs.blocks.shape = functionShape fd)
    (fun ptr fs fd hs => blockTransitionRecord_agree hg ptr hs) hs).bind ?_
  intro r r' hr
  exact hr.2

theorem loadSectionBlockTransition_agree {trans : Bytes} (hs : s.blocks.shape = moduleShape md) :
    Agree (fun s' md' => s'.blocks.shape = moduleShape md') sameError
      (loadSectionBlockTransition grants trans s)
      (Monitor.loadSectionBlockTransition trans md) := by
  have hcount : s.blocks.nbFunctions = md.nbFunctions := congrArg ModuleShape.nbFunctions hs
  have hnull : s.blocks.functions.pointer = none ↔ (!md.allocated) = true :=
    null_iff (congrArg ModuleShape.functions hs)
  unfold loadSectionBlockTransition Monitor.loadSectionBlockTransition
  by_cases harray : s.blocks.functions.pointer = none
  · rw [if_pos harray, if_pos (hnull.mp harray)]
    exact rfl
  · rw [if_neg harray, if_neg fun h => harray (hnull.mpr h), hcount]
    split
    · exact rfl
    · refine (read_agree s _).bind fun fId _ hid => ?_
      subst hid
      rcases slot_of_shape hs fId with ⟨hnone, hnone'⟩ | ⟨f, fd, hsome, hsome', hshape⟩
      · rw [hnone, hnone']
        exact rfl
      · have hblocks : f.nbBlocks = fd.nbBlocks := congrArg FunctionShape.nbBlocks hshape
        simp only [hsome, hsome', hblocks]
        split
        · exact rfl
        · refine (read_agree s _).bind fun numBlock _ hnum => ?_
          subst hnum
          split
          · exact rfl
          · rename_i hpos
            obtain ⟨fs, g, d, halloc, hfresh⟩ := allocateBlocks_granted hg numBlock ⟨f, s.heap⟩
            have hstart : fs.blocks.shape = functionShape (fd.allocateBlocks numBlock) := by
              have hname : f.name.isSome = fd.name.isSome := congrArg FunctionShape.named hshape
              rw [hfresh]
              simp [FunctionBlocks.shape, functionShape, FunctionData.allocateBlocks,
                FunctionData.nbBlocks, hname, hpos]
            have hfill := fillBlocks_agree hg trans hstart
            rw [halloc]
            have hsplit : (do
                let n ← readWord (trans.drop 8)
                let r ← forRecords Monitor.blockTransitionRecord n (trans.drop 12)
                  (fd.allocateBlocks numBlock)
                .ok (md.setFunction fId r.2) : Load ModuleData) = (do
                let n ← readWord (trans.drop 8)
                let r ← forRecords Monitor.blockTransitionRecord n (trans.drop 12)
                  (fd.allocateBlocks numBlock)
                .ok r.2) >>= fun fd => .ok (md.setFunction fId fd) := by
              cases readWord (trans.drop 8) with
              | error e => rfl
              | ok n =>
                simp only [bind, Except.bind]
                cases forRecords Monitor.blockTransitionRecord n (trans.drop 12)
                  (fd.allocateBlocks numBlock) <;> rfl
            rw [hsplit]
            exact store_agree fId hs hfill

/-! #### The post-dominators -/

omit hg in
theorem blockIpdRecord_agree (ptr : Bytes) (hs : s.blocks.shape = moduleShape md) :
    Agree sameShape sameError (blockIpdRecord ptr s) (Monitor.blockIpdRecord ptr md) := by
  unfold blockIpdRecord Monitor.blockIpdRecord
  refine (read_agree s _).bind fun fId _ hid => ?_
  subst hid
  rcases slot_of_shape hs fId with ⟨hnone, hnone'⟩ | ⟨f, fd, hsome, hsome', hshape⟩
  · rw [hnone, hnone']
    exact rfl
  · have hcount : f.nbBlocks = fd.nbBlocks := congrArg FunctionShape.nbBlocks hshape
    have hipd : f.immediatePostDominator.isSome = decide (fd.nbBlocks ≠ 0) :=
      congrArg FunctionShape.ipd hshape
    simp only [hsome, hsome', hcount]
    by_cases hzero : fd.nbBlocks = 0
    · have hnull : f.immediatePostDominator = none := by simpa [hzero] using hipd
      rw [if_pos hnull, if_pos hzero]
      exact rfl
    · have hnull : f.immediatePostDominator ≠ none := by
        intro hnull
        rw [hnull] at hipd
        simp [hzero] at hipd
      rw [if_neg hnull, if_neg hzero]
      refine (read_agree s _).bind fun bId _ hbId => ?_
      subst hbId
      split
      · exact rfl
      · refine (read_agree s _).bind fun ipd _ hword => ?_
        subst hword
        refine ⟨rfl, ?_⟩
        have hsame :
            (moduleShape md).slots.set fId (functionShape fd) = (moduleShape md).slots := by
          obtain ⟨hlt, hget⟩ := List.getElem?_eq_some_iff.mp hsome'
          show (md.functions.map functionShape).set fId (functionShape fd) = _
          rw [← hget, ← List.map_set, List.set_getElem_self]
          rfl
        have hipd : functionShape (fd.setIpd bId (UInt32.ofNat ipd)) = functionShape fd := rfl
        rw [hs, moduleShape_setFunction, hipd, hsame]

omit hg in
theorem loadSectionBlockIpd_agree {ipd : Bytes} (hs : s.blocks.shape = moduleShape md) :
    Agree (fun s' md' => s'.blocks.shape = moduleShape md') sameError
      (loadSectionBlockIpd ipd s) (Monitor.loadSectionBlockIpd ipd md) := by
  have hnull : s.blocks.functions.pointer = none ↔ (!md.allocated) = true :=
    null_iff (congrArg ModuleShape.functions hs)
  unfold loadSectionBlockIpd Monitor.loadSectionBlockIpd
  by_cases harray : s.blocks.functions.pointer = none
  · rw [if_pos harray, if_pos (hnull.mp harray)]
    exact rfl
  · rw [if_neg harray, if_neg fun h => harray (hnull.mpr h)]
    refine (read_agree s _).bind fun n _ hn => ?_
    subst hn
    refine (forRecords_agree (R := fun s md => s.blocks.shape = moduleShape md)
      (fun ptr s md hs => blockIpdRecord_agree ptr hs) hs).bind ?_
    intro r r' hr
    exact hr.2

/-! ### `monitor_load_module` -/

theorem loadSection_agree (pkt : LoadingPacket) (hs : s.blocks.shape = moduleShape md) :
    Agree (fun s' md' => s'.blocks.shape = moduleShape md') sameError (loadSection grants pkt s)
      (Monitor.loadSection pkt md) := by
  unfold loadSection Monitor.loadSection
  cases pkt.event with
  | sectionFunctionId => exact loadSectionFunctionId_agree hg hs
  | sectionFunctionTransition => exact loadSectionFunctionTransition_agree hg hs
  | sectionBlockTransition => exact loadSectionBlockTransition_agree hg hs
  | sectionBlockIpd => exact loadSectionBlockIpd_agree hs
  | _ => exact rfl

/-- The section loops take the same packets and end alike. -/
theorem loadSections_agree (pkts : List (Option LoadingPacket))
    (hs : s.blocks.shape = moduleShape md) :
    SameEnd (fun md' => (loadSections grants s pkts).2.blocks.shape = moduleShape md')
      (Monitor.loadSections md pkts) (loadSections grants s pkts).1 := by
  induction pkts generalizing s md with
  | nil => exact trivial
  | cons pkt? rest ih =>
    cases pkt? with
    | none => exact rfl
    | some pkt =>
      simp only [loadSections, Monitor.loadSections]
      by_cases hend : pkt.event = .moduleEnd
      · simp only [if_pos hend]
        exact ⟨rfl, hs⟩
      · simp only [if_neg hend]
        have hone := loadSection_agree hg pkt hs
        cases hrun : loadSection grants pkt s with
        | error e =>
          cases hrun' : Monitor.loadSection pkt md with
          | error e' =>
            rw [hrun, hrun'] at hone
            exact hone.symm
          | ok md' =>
            rw [hrun, hrun'] at hone
            exact hone.elim
        | ok s' =>
          cases hrun' : Monitor.loadSection pkt md with
          | error e' =>
            rw [hrun, hrun'] at hone
            exact hone.elim
          | ok md' =>
            rw [hrun, hrun'] at hone
            exact ih hone

/-! ### `monitor_load` -/

theorem beginModule_granted (s : Loading MonitorBlocks) :
    ∃ p heap, beginModule grants s =
      ⟨⟨s.blocks.nbModules + 1, .of (some p) (s.blocks.modules.cells ++ [.empty])⟩, heap⟩ := by
  obtain ⟨p, heap, halloc⟩ := Heap.alloc_granted hg .modules s.heap
  unfold beginModule
  by_cases hzero : s.blocks.nbModules = 0
  · exact ⟨p, heap, by simp [hzero, halloc]⟩
  · exact ⟨p, heap.free s.blocks.modules.pointer, by simp [hzero, Heap.realloc, halloc]⟩

omit hg in
/-- The last module of a begun array is replaced. -/
theorem storeLast_begun {nb : Nat} {p : BufferId} {cells : List ModuleBlocks} {heap : Heap Site}
    (hlength : cells.length = nb) (ms : Loading ModuleBlocks) :
    Loading.storeLast ⟨⟨nb + 1, .of (some p) (cells ++ [.empty])⟩, heap⟩ ms =
      ⟨⟨nb + 1, .of (some p) (cells ++ [ms.blocks])⟩, ms.heap⟩ := by
  subst hlength
  simp [Loading.storeLast, ArrayPtr.setCell, ArrayPtr.of]

/-- The tables of all modules have one shape. -/
structure Alike (s : Loading MonitorBlocks) (data : MonitorData) : Prop where
  length : s.blocks.modules.cells.length = s.blocks.nbModules
  shapes : s.blocks.modules.cells.map ModuleBlocks.shape = data.modules.map moduleShape

theorem monitorLoadModule_agree {s : Loading MonitorBlocks} {data : MonitorData}
    (pkts : List (Option LoadingPacket)) (hs : Alike s data) :
    SameEnd (fun data' => Alike (monitorLoadModule grants true s pkts).2 data')
      (Monitor.monitorLoadModule data pkts) (monitorLoadModule grants true s pkts).1 := by
  cases pkts with
  | nil => exact trivial
  | cons pkt? rest =>
    cases pkt? with
    | none => exact rfl
    | some pkt =>
      obtain ⟨event, payload⟩ := pkt
      cases event with
      | moduleBegin =>
        obtain ⟨p, heap, hbegun⟩ := beginModule_granted hg s
        have hsections := loadSections_agree hg (s := ⟨.empty, heap⟩) rest
          (show ModuleBlocks.empty.shape = moduleShape ModuleData.empty from rfl)
        have hstored (ms : Loading ModuleBlocks) (md : ModuleData)
            (hms : ms.blocks.shape = moduleShape md) :
            Alike ((beginModule grants s).storeLast ms) ⟨data.modules ++ [md]⟩ := by
          rw [hbegun, storeLast_begun hs.length]
          refine ⟨by simp [hs.length], ?_⟩
          simp [hs.shapes, hms]
        simp only [monitorLoadModule, Monitor.monitorLoadModule]
        have hpointer : (beginModule grants s).blocks.modules.pointer ≠ none := by
          simp [hbegun]
        have hheap : (beginModule grants s).heap = heap := by rw [hbegun]
        rw [if_neg hpointer, hheap]
        simp only [Bool.not_true, Bool.false_eq_true, if_false]
        rcases hload : loadSections grants ⟨.empty, heap⟩ rest with ⟨outcome, ms⟩
        rw [hload] at hsections
        cases hload' : Monitor.loadSections .empty rest with
        | loaded md rest' =>
          rw [hload'] at hsections
          cases outcome with
          | loaded u rest'' => exact ⟨hsections.1, hstored ms md hsections.2⟩
          | terminated _ | failed _ | waiting => exact hsections.elim
        | terminated rest' | failed e | waiting =>
          rw [hload'] at hsections
          cases outcome <;> exact hsections
      | terminated => exact rfl
      | _ => exact rfl

omit hg in
/-- The relocations are cells, which have no part in the shape. -/
theorem Alike.of_map {s : Loading MonitorBlocks} {data data' : MonitorData} (hs : Alike s data)
    (h : data'.modules.map moduleShape = data.modules.map moduleShape) : Alike s data' :=
  ⟨hs.length, hs.shapes.trans h.symm⟩

omit hg in
theorem loadSections_ne_terminated (s : Loading ModuleBlocks)
    (pkts rest : List (Option LoadingPacket)) :
    (loadSections grants s pkts).1 ≠ .terminated rest := by
  induction pkts generalizing s with
  | nil => nofun
  | cons pkt? pkts ih =>
    cases pkt? with
    | none => nofun
    | some pkt =>
      simp only [loadSections]
      split
      · nofun
      · split
        · nofun
        · exact ih _

omit hg in
/-- The end of the modules leaves the tables alone. -/
theorem monitorLoadModule_terminated {sent : Bool} {s s' : Loading MonitorBlocks}
    {pkts rest : List (Option LoadingPacket)}
    (h : monitorLoadModule grants sent s pkts = (.terminated rest, s')) : s' = s := by
  cases pkts with
  | nil => cases h
  | cons pkt? pkts =>
    cases pkt? with
    | none => cases h
    | some pkt =>
      simp only [monitorLoadModule] at h
      split at h
      · split at h
        · cases h
        · split at h
          · cases h
          · exact absurd (congrArg Prod.fst h) (loadSections_ne_terminated _ _ _)
      · exact (Prod.mk.inj h).2.symm
      · cases h

theorem loadLoop_agree {run : Runner} {fuel : Nat} {s : Loading MonitorBlocks}
    {data data' : MonitorData} {pkts : List (Option LoadingPacket)} {ios : List Io}
    (hs : Alike s data) (hload : Monitor.loadLoop run fuel data pkts ios = some (.ok data')) :
    ∃ s', loadLoop ⟨grants, fun _ => true, fun _ => true⟩ fuel s pkts = some s' ∧
      Alike s' data' := by
  induction fuel generalizing s data pkts ios with
  | zero => cases hload
  | succ fuel ih =>
    have hmodule := monitorLoadModule_agree hg pkts hs
    simp only [Monitor.loadLoop, loadNewest] at hload
    simp only [loadLoop]
    rcases hrun : monitorLoadModule grants true s pkts with ⟨outcome, s'⟩
    rw [hrun] at hmodule
    cases hrun' : Monitor.monitorLoadModule data pkts with
    | terminated rest =>
      rw [hrun'] at hmodule hload
      cases outcome with
      | terminated rest' =>
        have hsame := monitorLoadModule_terminated hrun
        subst hsame
        exact ⟨_, rfl, hs.of_map (relocateAll_map (fun _ _ _ => rfl) (Option.some.inj hload))⟩
      | loaded _ _ | failed _ | waiting => exact hmodule.elim
    | failed e =>
      rw [hrun'] at hload
      cases hload
    | waiting =>
      rw [hrun'] at hload
      cases hload
    | loaded data₁ rest =>
      rw [hrun'] at hmodule hload
      cases outcome with
      | loaded u rest' =>
        obtain ⟨rfl, halike⟩ := hmodule
        simp only at hload
        cases hrel :
            computeRelocationsOfModule data₁ (UInt16.ofNat (data₁.nbModules - 1)) false with
        | error e =>
          rw [hrel] at hload
          cases hload
        | ok data₂ =>
          rw [hrel] at hload
          simp only at hload
          have halike₂ := halike.of_map (computeRelocationsOfModule_map (fun _ _ _ => rfl) hrel)
          cases hinits : initRuns run data₂ (newestInits data₂) ios with
          | none =>
            rw [hinits] at hload
            cases hload
          | some r =>
            obtain ⟨err, ios'⟩ := r
            rw [hinits] at hload
            cases err with
            | zero => exact ih halike₂ hload
            | succ err => cases hload
      | terminated _ | failed _ | waiting => exact hmodule.elim

/-- While memory lasts, a successful `monitor_load` leaves the tables of this
model: the same counts, and the same pointers NULL. -/
theorem monitorLoad_agree {run : Runner} {pkts : List (Option LoadingPacket)} {ios : List Io}
    {data : MonitorData} (h : Monitor.monitorLoad run pkts ios = some (.ok data)) :
    ∃ s, monitorLoad ⟨grants, fun _ => true, fun _ => true⟩ pkts = some s ∧ Alike s data :=
  loadLoop_agree hg ⟨rfl, rfl⟩ h

end Granted

end Picon.Loader.Tables
