import Picon.Monitor.Load

/-!
# Failed loads

A load that fails returns something else than zero: `main` only tells a failure
from a success by that. One lemma for each decoder, the loops by the errors of
their records.
-/

namespace Picon.Monitor

open Lib

/-- No failure of `x` carries the code zero. -/
def NonZero {α : Type} (x : Load α) : Prop := ∀ e, x = .error e → e ≠ .code 0

section NonZero

variable {α β : Type}

theorem nonZero_ok (a : α) : NonZero (.ok a : Load α) := by
  intro e h
  cases h

theorem nonZero_error {e : LoadError} (he : e ≠ .code 0) : NonZero (.error e : Load α) := by
  intro e' h
  obtain rfl := Except.error.inj h
  exact he

theorem NonZero.bind {x : Load α} {f : α → Load β} (hx : NonZero x) (hf : ∀ a, NonZero (f a)) :
    NonZero (x >>= f) := by
  intro e h
  cases hval : x with
  | error e' =>
    rw [hval] at h
    obtain rfl := Except.error.inj h
    exact hx _ hval
  | ok a =>
    rw [hval] at h
    exact hf a e h

theorem nonZero_ite {p : Prop} [Decidable p] {x y : Load α} (hx : NonZero x) (hy : NonZero y) :
    NonZero (if p then x else y) := by
  split
  · exact hx
  · exact hy

theorem nonZero_readWord (ptr : Bytes) : NonZero (readWord ptr) := by
  unfold readWord
  split
  · exact nonZero_error (by decide)
  · exact nonZero_ok _

theorem nonZero_readName (ptr : Bytes) : NonZero (readName ptr) := by
  unfold readName
  split
  · exact nonZero_error (by decide)
  · exact nonZero_ok _

theorem nonZero_forRecords {step : Bytes → α → Load (Bytes × α)}
    (hstep : ∀ ptr s, NonZero (step ptr s)) (n : Nat) (ptr : Bytes) (s : α) :
    NonZero (forRecords step n ptr s) :=
  fun _ h => forRecords_error (fun ptr s e he => hstep ptr s e he) h

end NonZero

theorem nonZero_edgeLoop {width errorCode : Nat} (hcode : errorCode ≠ 0) (n : Nat) (cptr : Bytes)
    (row : List Bool) : NonZero (edgeLoop width errorCode n cptr row) := by
  have hrecord : ∀ cptr row, NonZero (edgeRecord width errorCode cptr row) := fun cptr row =>
    (nonZero_readWord cptr).bind fun target =>
      nonZero_ite (nonZero_error (by simpa using hcode)) (nonZero_ok _)
  unfold edgeLoop
  split
  · rename_i e he
    exact nonZero_error (nonZero_forRecords hrecord n cptr row e he)
  · exact nonZero_ok _

theorem nonZero_functionId (fct : Bytes) (md : ModuleData) :
    NonZero (loadSectionFunctionId fct md) := by
  have hrecord : ∀ ptr md, NonZero (functionIdRecord ptr md) := fun ptr md =>
    (nonZero_readWord ptr).bind fun fId => nonZero_ite (nonZero_error (by decide))
      ((nonZero_readName _).bind fun name => (nonZero_readWord _).bind fun flags => nonZero_ok _)
  unfold loadSectionFunctionId
  refine nonZero_ite (nonZero_error (by decide)) ?_
  split
  · exact nonZero_error (by decide)
  · exact (nonZero_forRecords hrecord _ _ _).bind fun r => nonZero_ok _

theorem nonZero_functionTransition (trans : Bytes) (md : ModuleData) :
    NonZero (loadSectionFunctionTransition trans md) := by
  have hrecord : ∀ ptr md, NonZero (functionTransitionRecord ptr md) := by
    intro ptr md
    refine (nonZero_readWord ptr).bind fun fId => nonZero_ite (nonZero_error (by decide)) ?_
    refine nonZero_ite (nonZero_error (by decide)) ?_
    refine (nonZero_readWord _).bind fun num => ?_
    split
    · rename_i e he
      exact nonZero_error (nonZero_edgeLoop (by decide) _ _ _ e he)
    · exact nonZero_ok _
  unfold loadSectionFunctionTransition
  refine nonZero_ite (nonZero_error (by decide)) (nonZero_ite (nonZero_error (by decide)) ?_)
  exact (nonZero_readWord trans).bind fun n =>
    (nonZero_forRecords hrecord _ _ _).bind fun r => nonZero_ok _

theorem nonZero_blockTransition (trans : Bytes) (md : ModuleData) :
    NonZero (loadSectionBlockTransition trans md) := by
  have hrecord : ∀ ptr fd, NonZero (blockTransitionRecord ptr fd) := by
    intro ptr fd
    refine (nonZero_readWord ptr).bind fun bId => nonZero_ite (nonZero_error (by decide)) ?_
    refine (nonZero_readWord _).bind fun num => ?_
    split
    · rename_i e he
      exact nonZero_error (nonZero_edgeLoop (by decide) _ _ _ e he)
    · exact nonZero_ok _
  unfold loadSectionBlockTransition
  refine nonZero_ite (nonZero_error (by decide)) (nonZero_ite (nonZero_error (by decide)) ?_)
  refine (nonZero_readWord trans).bind fun fId => ?_
  split
  · exact nonZero_error (by decide)
  · refine nonZero_ite (nonZero_error (by decide)) ?_
    refine (nonZero_readWord _).bind fun numBlock => nonZero_ite (nonZero_error (by decide)) ?_
    exact (nonZero_readWord _).bind fun n =>
      (nonZero_forRecords hrecord _ _ _).bind fun r => nonZero_ok _

theorem nonZero_blockIpd (ipd : Bytes) (md : ModuleData) : NonZero (loadSectionBlockIpd ipd md) := by
  have hrecord : ∀ ptr md, NonZero (blockIpdRecord ptr md) := by
    intro ptr md
    refine (nonZero_readWord ptr).bind fun fId => ?_
    split
    · exact nonZero_error (by decide)
    · refine nonZero_ite (nonZero_error (by decide)) ?_
      exact (nonZero_readWord _).bind fun bId => nonZero_ite (nonZero_error (by decide))
        ((nonZero_readWord _).bind fun ipd => nonZero_ok _)
  unfold loadSectionBlockIpd
  refine nonZero_ite (nonZero_error (by decide)) ?_
  exact (nonZero_readWord ipd).bind fun n =>
    (nonZero_forRecords hrecord _ _ _).bind fun r => nonZero_ok _

theorem nonZero_loadSection (pkt : LoadingPacket) (md : ModuleData) :
    NonZero (loadSection pkt md) := by
  unfold loadSection
  split
  · exact nonZero_functionId _ _
  · exact nonZero_functionTransition _ _
  · exact nonZero_blockTransition _ _
  · exact nonZero_blockIpd _ _
  · exact nonZero_error (by decide)

theorem loadSections_failed {pkts : List (Option LoadingPacket)} {md : ModuleData} {e : LoadError}
    (h : loadSections md pkts = .failed e) : e ≠ .code 0 := by
  induction pkts generalizing md with
  | nil => cases h
  | cons pkt? pkts ih =>
    cases pkt? with
    | none =>
      obtain rfl := ModuleLoad.failed.inj h
      decide
    | some pkt =>
      simp only [loadSections] at h
      split at h
      · cases h
      · split at h
        · rename_i e' he
          obtain rfl := ModuleLoad.failed.inj h
          exact nonZero_loadSection pkt md e' he
        · exact ih h

theorem nonZero_searchFunctions (name : Option Bytes) (fds : List FunctionData) (start : Nat) :
    NonZero (searchFunctions name fds start) := by
  induction fds generalizing start with
  | nil => exact nonZero_ok _
  | cons fd fds ih =>
    unfold searchFunctions
    refine nonZero_ite (ih _) ?_
    split
    · rename_i e he
      refine nonZero_error fun hzero => ?_
      unfold sameName at he
      split at he
      · cases he
      · obtain rfl := Except.error.inj he
        cases hzero
    · exact nonZero_ok _
    · exact ih _

theorem nonZero_searchModules (modules : List ModuleData) (mid : Nat) (name : Option Bytes)
    (n : Nat) : NonZero (searchModules modules mid name n) := by
  induction n with
  | zero => exact nonZero_ok _
  | succ n ih =>
    unfold searchModules
    refine nonZero_ite ih ?_
    split
    · exact ih
    · split
      · rename_i e he
        exact nonZero_error (nonZero_searchFunctions _ _ _ e he)
      · exact nonZero_ok _
      · exact ih

theorem nonZero_relocateFunction (modules : List ModuleData) (mid : Nat) (fatal : Bool)
    (midata : ModuleData) (j : Nat) (fd : FunctionData) :
    NonZero (relocateFunction modules mid fatal midata j fd) := by
  unfold relocateFunction
  refine nonZero_ite ?_ (nonZero_ok _)
  split
  · rename_i e he
    exact nonZero_error (nonZero_searchModules _ _ _ _ e he)
  · exact nonZero_ok _
  · exact nonZero_ite (nonZero_error (by decide)) (nonZero_ok _)

theorem nonZero_relocateFunctions (modules : List ModuleData) (mid : Nat) (fatal : Bool)
    (fds : List FunctionData) (j : Nat) (midata : ModuleData) :
    NonZero (relocateFunctions modules mid fatal fds j midata) := by
  induction fds generalizing j midata with
  | nil => exact nonZero_ok _
  | cons fd fds ih =>
    unfold relocateFunctions
    split
    · rename_i e he
      exact nonZero_error (nonZero_relocateFunction _ _ _ _ _ _ e he)
    · exact ih _ _

theorem nonZero_relocations (data : MonitorData) (mid : ModuleId) (fatal : Bool) :
    NonZero (computeRelocationsOfModule data mid fatal) := by
  unfold computeRelocationsOfModule
  split
  · exact nonZero_ok _
  · split
    · rename_i e he
      exact nonZero_error (nonZero_relocateFunctions _ _ _ _ _ _ e he)
    · exact nonZero_ok _

theorem loadNewest_failed {data : MonitorData} {pkts : List (Option LoadingPacket)} {e : LoadError}
    (h : loadNewest data pkts = .failed e) : e ≠ .code 0 := by
  unfold loadNewest at h
  split at h
  · cases h
  · rename_i e' hload
    obtain rfl := ModuleLoad.failed.inj h
    cases pkts with
    | nil => cases hload
    | cons pkt? pkts =>
      cases pkt? with
      | none =>
        obtain rfl := ModuleLoad.failed.inj hload
        decide
      | some pkt =>
        simp only [monitorLoadModule] at hload
        split at hload
        · split at hload
          · cases hload
          · cases hload
          · rename_i e'' hsections
            obtain rfl := ModuleLoad.failed.inj hload
            exact loadSections_failed hsections
          · cases hload
        · cases hload
        · obtain rfl := ModuleLoad.failed.inj hload
          decide
  · cases h
  · split at h
    · rename_i e' hrel
      obtain rfl := ModuleLoad.failed.inj h
      exact nonZero_relocations _ _ _ e' hrel
    · cases h

theorem nonZero_relocateAll (data : MonitorData) (start n : Nat) :
    NonZero (relocateAll data start n) := by
  induction n generalizing data start with
  | zero => exact nonZero_ok _
  | succ n ih =>
    unfold relocateAll
    split
    · rename_i e he
      exact nonZero_error (nonZero_relocations _ _ _ e he)
    · exact ih _ _

end Picon.Monitor
