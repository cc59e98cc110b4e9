import Picon.Program.Stream
import Picon.Pass.Inject

/-!
# Running instrumented code

The signals that complete executions of instrumented functions emit. What a call
does is a parameter of the code around it, so that an activation is described
from the activations it contains; recursion is bounded by the depth of the call
stack, which may be any number.
-/

namespace Picon.Program

open Pass Prelink Monitor

/-- The signal `__CFI_INTERNAL_…` sends from module `m`. -/
def signalOf (m : Nat) (event : ClientEvent) (function block : Nat) : ClientSignal :=
  ⟨event, UInt16.ofNat m, UInt32.ofNat function, UInt32.ofNat block⟩

/-- Instructions of the source that emit nothing and call nothing. -/
def Quiet : Instruction → Prop
  | .call _ => False
  | _ => True

section Code

variable (called : Name → List ClientSignal → Prop) (m : Nat)

/-- The signals of a list of instructions that runs to its end. -/
inductive InstrsRun : List Instrumented → List ClientSignal → Prop
  | nil : InstrsRun [] []
  | quiet {i : Instruction} {is : List Instrumented} {tr : List ClientSignal} (hi : Quiet i)
      (rest : InstrsRun is tr) : InstrsRun (.source i :: is) tr
  | returnAddress {is : List Instrumented} {tr : List ClientSignal} (rest : InstrsRun is tr) :
      InstrsRun (.returnAddress :: is) tr
  | notify {event : ClientEvent} {function block : Nat} {is : List Instrumented}
      {tr : List ClientSignal} (rest : InstrsRun is tr) :
      InstrsRun (.notify event function block :: is) (signalOf m event function block :: tr)
  | call {g : Name} {is : List Instrumented} {inner tr : List ClientSignal} (hg : called g inner)
      (rest : InstrsRun is tr) : InstrsRun (.source (.call g) :: is) (inner ++ tr)

/-- The signals from block `b` until the function returns. -/
inductive BlocksRun (blocks : List (BasicBlock Instrumented)) : Nat → List ClientSignal → Prop
  | ret {b : Nat} {blk : BasicBlock Instrumented} {tr : List ClientSignal}
      (hblk : blocks[b]? = some blk) (hret : blk.term = .ret)
      (hinstrs : InstrsRun called m blk.instrs tr) : BlocksRun blocks b tr
  | jump {b b' : Nat} {blk : BasicBlock Instrumented} {tr tr' : List ClientSignal}
      (hblk : blocks[b]? = some blk) (hsucc : b' ∈ blk.term.succs)
      (hinstrs : InstrsRun called m blk.instrs tr) (rest : BlocksRun blocks b' tr') :
      BlocksRun blocks b (tr ++ tr')

end Code

variable {level : Level} {ignored : List Name}

/-- Some run of the pass on the units of the binary defined `g`, and this is the
code it left. -/
def Build.Code (B : Build level ignored) (g : Name) (blocks : List (BasicBlock Instrumented)) :
    Prop :=
  ∃ cfi ∈ B.passes, ∃ f ∈ cfi.functionMap, f.fn.name = g ∧ f.fn.isDeclaration = false ∧
    blocks = cfi.injectFunction level f

/-- A complete activation of `g` in binary `m`, at most `depth` calls deep. The
dynamic linker binds the calls of binary `m` to `g` to binary `bind m g`; an
ignored function is not instrumented and calls nothing that is. -/
def Activation (Bs : List (Build level ignored)) (bind : Nat → Name → Nat) :
    Nat → Nat → Name → List ClientSignal → Prop
  | 0, _, _, _ => False
  | depth + 1, m, g, tr => ∃ B blocks, Bs[m]? = some B ∧ B.Code g blocks ∧
      BlocksRun (fun callee inner =>
        if callee ∈ ignored then inner = []
        else Activation Bs bind depth (bind m callee) callee inner) m blocks 0 tr

/-! ### Splitting a run -/

section Split

variable {called : Name → List ClientSignal → Prop} {m : Nat}

theorem InstrsRun.append {is js : List Instrumented} {tr : List ClientSignal}
    (h : InstrsRun called m (is ++ js) tr) :
    ∃ tr₁ tr₂, tr = tr₁ ++ tr₂ ∧ InstrsRun called m is tr₁ ∧ InstrsRun called m js tr₂ := by
  induction is generalizing tr with
  | nil => exact ⟨[], tr, rfl, .nil, h⟩
  | cons i is ih =>
    cases h with
    | quiet hi rest =>
      obtain ⟨tr₁, tr₂, rfl, h₁, h₂⟩ := ih rest
      exact ⟨tr₁, tr₂, rfl, .quiet hi h₁, h₂⟩
    | returnAddress rest =>
      obtain ⟨tr₁, tr₂, rfl, h₁, h₂⟩ := ih rest
      exact ⟨tr₁, tr₂, rfl, .returnAddress h₁, h₂⟩
    | notify rest =>
      obtain ⟨tr₁, tr₂, rfl, h₁, h₂⟩ := ih rest
      exact ⟨_ :: tr₁, tr₂, rfl, .notify h₁, h₂⟩
    | call hg rest =>
      obtain ⟨tr₁, tr₂, rfl, h₁, h₂⟩ := ih rest
      exact ⟨_ ++ tr₁, tr₂, (List.append_assoc _ _ _).symm, .call hg h₁, h₂⟩

theorem InstrsRun.nil_inv {tr : List ClientSignal} (h : InstrsRun called m [] tr) : tr = [] := by
  cases h
  rfl

theorem InstrsRun.notify_inv {event : ClientEvent} {function block : Nat}
    {is : List Instrumented} {tr : List ClientSignal}
    (h : InstrsRun called m (.notify event function block :: is) tr) :
    ∃ tr', tr = signalOf m event function block :: tr' ∧ InstrsRun called m is tr' := by
  cases h with
  | notify rest => exact ⟨_, rfl, rest⟩

theorem InstrsRun.returnAddress_inv {is : List Instrumented} {tr : List ClientSignal}
    (h : InstrsRun called m (.returnAddress :: is) tr) : InstrsRun called m is tr := by
  cases h with
  | returnAddress rest => exact rest

theorem InstrsRun.quiet_inv {i : Instruction} (hi : Quiet i) {is : List Instrumented}
    {tr : List ClientSignal} (h : InstrsRun called m (.source i :: is) tr) :
    InstrsRun called m is tr := by
  cases h with
  | quiet _ rest => exact rest
  | call _ _ => cases hi

theorem InstrsRun.call_inv {g : Name} {is : List Instrumented} {tr : List ClientSignal}
    (h : InstrsRun called m (.source (.call g) :: is) tr) :
    ∃ inner tr', tr = inner ++ tr' ∧ called g inner ∧ InstrsRun called m is tr' := by
  cases h with
  | quiet hi _ => cases hi
  | call hg rest => exact ⟨_, _, rfl, hg, rest⟩

/-- The PHI nodes and debug intrinsics in front of an `AFTER_JUMP` emit nothing. -/
theorem InstrsRun.insertPast_inv {event : ClientEvent} {function block : Nat}
    {is : List Instrumented} {tr : List ClientSignal}
    (h : InstrsRun called m
      (insertPast Instrumented.isPhiOrDbg [.notify event function block] is) tr) :
    ∃ tr', tr = signalOf m event function block :: tr' ∧ InstrsRun called m is tr' := by
  unfold insertPast at h
  induction is generalizing tr with
  | nil => exact h.notify_inv
  | cons i is ih =>
    by_cases hskip : i.isPhiOrDbg = true
    · rw [List.takeWhile_cons_of_pos hskip, List.dropWhile_cons_of_pos hskip] at h
      have hquiet : ∃ j, i = .source j ∧ Quiet j := by
        unfold Instrumented.isPhiOrDbg at hskip
        split at hskip
        · exact ⟨_, rfl, trivial⟩
        · exact ⟨_, rfl, trivial⟩
        · cases hskip
      obtain ⟨j, rfl, hj⟩ := hquiet
      obtain ⟨tr', rfl, hrest⟩ := ih (h.quiet_inv hj)
      exact ⟨tr', rfl, .quiet hj hrest⟩
    · rw [List.takeWhile_cons_of_neg hskip, List.dropWhile_cons_of_neg hskip] at h
      exact h.notify_inv

end Split

end Picon.Program
