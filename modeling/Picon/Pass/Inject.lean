import Picon.Pass.IR

/-!
# `injectorCFI`

The code the pass puts into a function. Each injector is the loop of the
source; `injectFunction_block` then says what a block looks like after all of
them.
-/

namespace Picon.Pass

/-- An instruction of the instrumented unit: one of the source, the call of
`llvm.returnaddress` that feeds `ENTER` and `EXIT`, or a call of one of the
`__CFI_INTERNAL_…` functions with its constants. -/
inductive Instrumented where
  | source (i : Instruction)
  | returnAddress
  | notify (event : ClientEvent) (function block : Nat)
  deriving DecidableEq, Repr

namespace Instrumented

def isPhi : Instrumented → Bool
  | source .phi => true
  | _ => false

def isPhiOrDbg : Instrumented → Bool
  | source .phi | source .dbg => true
  | _ => false

end Instrumented

/-- Insertion before the first instruction that does not satisfy `skip`. -/
def insertPast (skip : Instrumented → Bool) (new is : List Instrumented) :
    List Instrumented :=
  is.takeWhile skip ++ (new ++ is.dropWhile skip)

namespace ControlFlowIntegrity

variable (cfi : ControlFlowIntegrity)

/-! ### `injectMcall` -/

/-- The `RETURNED` due before the next instruction; `pending` is `NF` while
`insertAfter` is set. -/
def returnedBefore (pending : Option Name) : List Instrumented :=
  match pending with
  | none => []
  | some nf => [.notify .returned (cfi.getIdentifier nf) 0]

/-- One turn of the loop over the instructions. -/
def mcallTurn (pending : Option Name) (i : Instruction) : List Instrumented × Option Name :=
  match i with
  | .call nf =>
    if cfi.isIgnoredFunction nf then (cfi.returnedBefore pending ++ [.source i], none)
    else
      (cfi.returnedBefore pending ++ [.notify .call (cfi.getIdentifier nf) 0, .source i], some nf)
  | _ => (cfi.returnedBefore pending ++ [.source i], none)

def mcallInstrs (pending : Option Name) : List Instruction → List Instrumented × Option Name
  | [] => ([], pending)
  | i :: is =>
    let turn := cfi.mcallTurn pending i
    let rest := mcallInstrs turn.2 is
    (turn.1 ++ rest.1, rest.2)

/-- The loop over the blocks. A terminator is an instruction of its block, so a
`RETURNED` that is still due goes before it. -/
def mcallBlocks (pending : Option Name) :
    List (BasicBlock Instruction) → List (BasicBlock Instrumented)
  | [] => []
  | blk :: blks =>
    let loop := cfi.mcallInstrs pending blk.instrs
    ⟨loop.1 ++ cfi.returnedBefore loop.2, blk.term⟩ :: mcallBlocks none blks

def injectMcall (F : Function) : List (BasicBlock Instrumented) :=
  if cfi.isIgnoredFunction F.name then
    F.blocks.map fun blk => ⟨blk.instrs.map .source, blk.term⟩
  else cfi.mcallBlocks none F.blocks

/-! ### `injectBBEnter`, `injectBBLeave` -/

def injectBBEnter (fName : Name) (blocks : List (BasicBlock Instrumented)) :
    List (BasicBlock Instrumented) :=
  blocks.mapIdx fun idBB blk =>
    if idBB = 0 then blk
    else
      { blk with
        instrs := insertPast Instrumented.isPhiOrDbg
          [.notify .afterJump (cfi.getIdentifier fName) idBB] blk.instrs }

def injectBBLeave (fName : Name) (blocks : List (BasicBlock Instrumented)) :
    List (BasicBlock Instrumented) :=
  blocks.mapIdx fun idBB blk =>
    if idBB + 1 = blocks.length then blk
    else
      { blk with
        instrs := blk.instrs ++ [.notify .beforeJump (cfi.getIdentifier fName) idBB] }

end ControlFlowIntegrity

/-! ### `injectMentry`, `injectMexit` -/

def injectMentry (fctID : Nat) (blocks : List (BasicBlock Instrumented)) :
    List (BasicBlock Instrumented) :=
  blocks.modifyHead fun blk =>
    { blk with
      instrs := insertPast Instrumented.isPhi [.returnAddress, .notify .enter fctID 0]
        blk.instrs }

def injectMexit (fctID : Nat) (blocks : List (BasicBlock Instrumented)) :
    List (BasicBlock Instrumented) :=
  blocks.modify (blocks.length - 1) fun blk =>
    { blk with instrs := blk.instrs ++ [.returnAddress, .notify .exit fctID 0] }

namespace ControlFlowIntegrity

variable (cfi : ControlFlowIntegrity)

/-- Does the function get block signals? -/
def hasBlockSignals (level : Level) (F : Function) : Bool :=
  level == .basicBlock && !cfi.isIgnoredBlocksFunction F.name

/-- The body of the loop of `InjectCode`, for one entry of the function map. -/
def injectFunction (level : Level) (f : CFIFct) : List (BasicBlock Instrumented) :=
  let blocks := cfi.injectMcall f.fn
  if f.fn.isDeclaration then blocks
  else
    let blocks :=
      if cfi.hasBlockSignals level f.fn then
        cfi.injectBBLeave f.fn.name (cfi.injectBBEnter f.fn.name blocks)
      else blocks
    injectMexit f.id (injectMentry f.id blocks)

/-! ### What a block looks like afterwards -/

/-- An instruction with the signals around it. -/
def guarded (i : Instruction) : List Instrumented :=
  match i with
  | .call nf =>
    if cfi.isIgnoredFunction nf then [.source i]
    else [.notify .call (cfi.getIdentifier nf) 0, .source i,
      .notify .returned (cfi.getIdentifier nf) 0]
  | _ => [.source i]

theorem mcallTurn_eq (pending : Option Name) (i : Instruction) :
    (cfi.mcallTurn pending i).1 ++ cfi.returnedBefore (cfi.mcallTurn pending i).2 =
      cfi.returnedBefore pending ++ cfi.guarded i := by
  unfold mcallTurn guarded
  cases i with
  | call nf => dsimp only; split <;> simp [returnedBefore]
  | phi => simp [returnedBefore]
  | dbg => simp [returnedBefore]
  | intrinsic => simp [returnedBefore]
  | inlineAsm => simp [returnedBefore]
  | other => simp [returnedBefore]

theorem mcallInstrs_eq (pending : Option Name) (is : List Instruction) :
    (cfi.mcallInstrs pending is).1 ++ cfi.returnedBefore (cfi.mcallInstrs pending is).2 =
      cfi.returnedBefore pending ++ is.flatMap cfi.guarded := by
  induction is generalizing pending with
  | nil => simp [mcallInstrs]
  | cons i is ih =>
    rw [List.flatMap_cons, ← List.append_assoc, ← mcallTurn_eq, mcallInstrs, List.append_assoc, ih,
      List.append_assoc]

theorem mcallBlocks_eq (blks : List (BasicBlock Instruction)) :
    cfi.mcallBlocks none blks =
      blks.map fun blk => ⟨blk.instrs.flatMap cfi.guarded, blk.term⟩ := by
  induction blks with
  | nil => rfl
  | cons blk blks ih =>
    rw [mcallBlocks, ih, List.map_cons]
    simp only [mcallInstrs_eq]
    rfl

variable {cfi} {level : Level} {f : CFIFct}

theorem injectMcall_eq (hf : f ∈ cfi.functionMap) :
    cfi.injectMcall f.fn =
      f.fn.blocks.map fun blk => ⟨blk.instrs.flatMap cfi.guarded, blk.term⟩ := by
  rw [injectMcall, cfi.not_isIgnoredFunction hf]
  exact cfi.mcallBlocks_eq f.fn.blocks

/-- The instructions of block `b` with its arrival signal: `ENTER` in front of
the entry block, `AFTER_JUMP` behind the PHI nodes of any other. -/
def arrived (cfi : ControlFlowIntegrity) (level : Level) (f : CFIFct) (b : Nat)
    (is : List Instruction) : List Instrumented :=
  if b = 0 then .returnAddress :: .notify .enter f.id 0 :: is.flatMap cfi.guarded
  else if cfi.hasBlockSignals level f.fn then
    insertPast Instrumented.isPhiOrDbg [.notify .afterJump f.id b] (is.flatMap cfi.guarded)
  else is.flatMap cfi.guarded

/-- The signals before the terminator of block `b`, which only depend on
whether the block is the last one. -/
def departure (cfi : ControlFlowIntegrity) (level : Level) (f : CFIFct) (b : Nat) :
    List Instrumented :=
  if b + 1 = f.fn.blocks.length then [.returnAddress, .notify .exit f.id 0]
  else if cfi.hasBlockSignals level f.fn then [.notify .beforeJump f.id b]
  else []

theorem insertPast_of_none {skip : Instrumented → Bool} {new is : List Instrumented}
    (h : ∀ i ∈ is, skip i = false) : insertPast skip new is = new ++ is := by
  cases is with
  | nil => simp [insertPast]
  | cons i is => simp [insertPast, h i List.mem_cons_self]

theorem guarded_noPhi {is : List Instruction} (h : Instruction.phi ∉ is) :
    ∀ i ∈ is.flatMap cfi.guarded, i.isPhi = false := by
  intro i hi
  obtain ⟨j, hj, hmem⟩ := List.mem_flatMap.mp hi
  unfold guarded at hmem
  cases j with
  | call nf =>
    dsimp only at hmem
    split at hmem <;> simp at hmem <;> rcases hmem with rfl | rfl | rfl <;> rfl
  | phi => exact absurd hj h
  | dbg => simp at hmem; subst hmem; rfl
  | intrinsic => simp at hmem; subst hmem; rfl
  | inlineAsm => simp at hmem; subst hmem; rfl
  | other => simp at hmem; subst hmem; rfl

theorem injectMentry_getElem? (fctID : Nat) (blocks : List (BasicBlock Instrumented)) (b : Nat) :
    (injectMentry fctID blocks)[b]? = blocks[b]?.map fun blk =>
      if b = 0 then
        { blk with
          instrs := insertPast Instrumented.isPhi [.returnAddress, .notify .enter fctID 0]
            blk.instrs }
      else blk := by
  unfold injectMentry
  cases blocks with
  | nil => simp
  | cons blk blks => cases b <;> simp

theorem injectMexit_getElem? (fctID : Nat) (blocks : List (BasicBlock Instrumented)) (b : Nat) :
    (injectMexit fctID blocks)[b]? = blocks[b]?.map fun blk =>
      if b + 1 = blocks.length then
        { blk with instrs := blk.instrs ++ [.returnAddress, .notify .exit fctID 0] }
      else blk := by
  unfold injectMexit
  rw [List.getElem?_modify]
  cases hb : blocks[b]? with
  | none => rfl
  | some blk =>
    have hlt : b < blocks.length := (List.getElem?_eq_some_iff.mp hb).1
    have hiff : blocks.length - 1 = b ↔ b + 1 = blocks.length := by omega
    simp only [hiff]
    split <;> simp_all

@[simp] theorem injectMentry_length (fctID : Nat) (blocks : List (BasicBlock Instrumented)) :
    (injectMentry fctID blocks).length = blocks.length := by
  simp [injectMentry]

/-- What the injectors make of a block of a defined function. -/
theorem injectFunction_block (hf : f ∈ cfi.functionMap) (hdef : f.fn.isDeclaration = false)
    (b : Nat) : (cfi.injectFunction level f)[b]? = f.fn.blocks[b]?.map fun blk =>
      ⟨cfi.arrived level f b blk.instrs ++ cfi.departure level f b, blk.term⟩ := by
  rw [injectFunction, hdef]
  simp only [Bool.false_eq_true, if_false, injectMcall_eq hf, injectMexit_getElem?,
    injectMentry_getElem?, injectMentry_length]
  cases hblk : f.fn.blocks[b]? with
  | none => split <;> simp [injectBBLeave, injectBBEnter, hblk]
  | some blk =>
    have hphi : b = 0 → Instruction.phi ∉ blk.instrs := by
      rintro rfl
      exact f.fn.entry_noPhi blk (by rw [List.head?_eq_getElem?, hblk]; rfl)
    have hentry : b = 0 → ∀ is : List Instrumented, (∀ i ∈ is, i.isPhi = false) →
        insertPast Instrumented.isPhi [.returnAddress, .notify .enter f.id 0]
          (blk.instrs.flatMap cfi.guarded ++ is) =
        .returnAddress :: .notify .enter f.id 0 :: (blk.instrs.flatMap cfi.guarded ++ is) := by
      intro hb is his
      rw [insertPast_of_none fun i hi => (List.mem_append.mp hi).elim (guarded_noPhi (hphi hb) i)
        (his i)]
      rfl
    unfold arrived departure
    cases hasBlockSignals cfi level f.fn with
    | true =>
      by_cases hb : b = 0
      · by_cases hlast : b + 1 = f.fn.blocks.length
        · have h := hentry hb [] (by simp)
          simp_all [injectBBLeave, injectBBEnter]
        · have h := hentry hb [.notify .beforeJump f.id 0] (by simp [Instrumented.isPhi])
          simp_all [injectBBLeave, injectBBEnter, cfi.getIdentifier_of_mem hf]
      · by_cases hlast : b + 1 = f.fn.blocks.length <;>
          simp [injectBBLeave, injectBBEnter, hblk, hb, hlast, cfi.getIdentifier_of_mem hf]
    | false =>
      by_cases hb : b = 0
      · have h := hentry hb [] (by simp)
        by_cases hlast : b + 1 = f.fn.blocks.length <;> simp_all
      · by_cases hlast : b + 1 = f.fn.blocks.length <;> simp [hblk, hb, hlast]

end ControlFlowIntegrity

end Picon.Pass
