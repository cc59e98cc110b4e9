import Picon.Loader.Tables

/-!
# `monitor_data_free` after any load

The buffers that hang in the tables are the live ones, save those the loader
lost sight of. From there the cleanup releases each of them once; it reads where
there is nothing exactly when the allocator refused an array whose count had been
stored.
-/

namespace Picon.Loader.Tables

open Lib (ArrayPtr BufferId Heap Ledger Outcome forRecords_outcome forCells_owns forCells_of_lt
  forCells_of_mem le32)
open Monitor

/-! ### What tables own, and when their counts can be trusted -/

namespace FunctionBlocks

def owned (f : FunctionBlocks) : List BufferId :=
  f.name.toList ++ (f.controlFlowGraph.owned Option.toList ++ f.immediatePostDominator.toList)

/-- The rows are as many as the count says. -/
structure Intact (f : FunctionBlocks) : Prop where
  rows : f.controlFlowGraph.cells.length = f.nbBlocks
  bare : f.nbBlocks = 0 → f.controlFlowGraph.pointer = none ∧ f.immediatePostDominator = none

def Broken (f : FunctionBlocks) : Prop :=
  ∀ (slot : Option BufferId) (h : Heap Site), releaseFunction (slot, f) h = none

theorem blank_intact : blank.Intact := ⟨rfl, fun _ => ⟨rfl, rfl⟩⟩

theorem named_intact (p : Option BufferId) : (named p).Intact := ⟨rfl, fun _ => ⟨rfl, rfl⟩⟩

@[simp] theorem blank_owned : blank.owned = [] := rfl

@[simp] theorem named_owned (p : Option BufferId) : (named p).owned = p.toList := by
  simp [owned, named]

/-- A function without blocks owns its name at most. -/
theorem Intact.owned_bare {f : FunctionBlocks} (hf : f.Intact) (h : f.nbBlocks = 0) :
    f.owned = f.name.toList := by
  have hcells : f.controlFlowGraph.cells = [] := List.eq_nil_of_length_eq_zero (hf.rows.trans h)
  simp [owned, ArrayPtr.owned, hcells, hf.bare h]

end FunctionBlocks

namespace ModuleBlocks

def owned (m : ModuleBlocks) : List BufferId :=
  m.functions.owned FunctionBlocks.owned ++
    (m.callGraph.owned Option.toList ++ m.relocations.toList)

structure Intact (m : ModuleBlocks) : Prop where
  callGraph : m.callGraph.cells.length = m.nbFunctions
  functions : m.functions.cells.length = m.nbFunctions
  each : ∀ f ∈ m.functions.cells, f.Intact

def Broken (m : ModuleBlocks) : Prop := ∀ h : Heap Site, releaseModule m h = none

theorem empty_intact : empty.Intact := ⟨rfl, rfl, nofun⟩

@[simp] theorem empty_owned : empty.owned = [] := rfl

/-- What the cleanup passes over: the arrays of a module without functions. -/
def kept (m : ModuleBlocks) : List BufferId := if m.nbFunctions = 0 then m.owned else []

end ModuleBlocks

namespace MonitorBlocks

def owned (data : MonitorBlocks) : List BufferId := data.modules.owned ModuleBlocks.owned

structure Intact (data : MonitorBlocks) : Prop where
  modules : data.modules.cells.length = data.nbModules
  absent : data.nbModules = 0 → data.modules.pointer = none
  each : ∀ m ∈ data.modules.cells, m.Intact

def kept (data : MonitorBlocks) : List BufferId := data.modules.cells.flatMap ModuleBlocks.kept

end MonitorBlocks

/-! ### The cleanup -/

theorem flatMap_nil_const {α : Type} (l : List α) :
    l.flatMap (fun _ => ([] : List BufferId)) = [] :=
  List.flatMap_eq_nil_iff.mpr fun _ _ => rfl

theorem zip_flatMap_perm {α β : Type} (f : α → List BufferId) (g : β → List BufferId) :
    ∀ {l : List α} {l' : List β}, l.length = l'.length →
      ((l.zip l').flatMap fun p => f p.1 ++ g p.2).Perm (l'.flatMap g ++ l.flatMap f)
  | [], [], _ => List.Perm.refl _
  | a :: l, b :: l', hlen => by
    have ih := zip_flatMap_perm f g (Nat.succ.inj hlen)
    simp only [List.zip_cons_cons, List.flatMap_cons]
    apply List.perm_iff_count.mpr
    intro x
    have hx := ih.count_eq x
    simp only [List.count_append] at hx ⊢
    omega

theorem releaseFunction_owns {slot : Option BufferId} {f : FunctionBlocks} {h : Heap Site}
    {bs : List BufferId} (hf : f.Intact) (hh : h.ledger.Owns (slot.toList ++ f.owned ++ bs)) :
    ∃ h', releaseFunction (slot, f) h = some h' ∧ h'.ledger.Owns bs := by
  have hrows : (h.free slot).ledger.Owns (f.controlFlowGraph.cells.flatMap Option.toList ++
      (f.name.toList ++ (f.controlFlowGraph.pointer.toList ++
        (f.immediatePostDominator.toList ++ bs)))) := by
    refine Heap.free_owns (hh.perm ?_)
    apply List.perm_iff_count.mpr
    intro x
    simp only [FunctionBlocks.owned, ArrayPtr.owned, List.count_append]
    omega
  obtain ⟨h', hloop, hh'⟩ := forCells_owns (fun row h => some (h.free row)) (fun _ => [])
    (fun row _ h bs hrow => ⟨h.free row, rfl, Heap.free_owns hrow⟩) hrows
  rw [flatMap_nil_const, List.nil_append] at hh'
  refine ⟨_, ?_, Heap.free_owns (Heap.free_owns (Heap.free_owns hh'))⟩
  simp only [releaseFunction, ← hf.rows, hloop]
  rfl

theorem releaseModule_owns {m : ModuleBlocks} {h : Heap Site} {bs : List BufferId} (hm : m.Intact)
    (hh : h.ledger.Owns (m.owned ++ bs)) :
    ∃ h', releaseModule m h = some h' ∧ h'.ledger.Owns (m.kept ++ bs) := by
  have hlen := hm.callGraph.trans hm.functions.symm
  have hzip := zip_flatMap_perm Option.toList FunctionBlocks.owned hlen
  have hslots : h.ledger.Owns
      ((m.callGraph.cells.zip m.functions.cells).flatMap (fun p => p.1.toList ++ p.2.owned) ++
        (m.functions.pointer.toList ++ (m.callGraph.pointer.toList ++
          (m.relocations.toList ++ bs)))) := by
    refine hh.perm (List.Perm.trans ?_ (hzip.symm.append_right _))
    apply List.perm_iff_count.mpr
    intro x
    simp only [ModuleBlocks.owned, ArrayPtr.owned, List.count_append]
    omega
  obtain ⟨h', hloop, hh'⟩ := forCells_owns releaseFunction (fun _ => []) (by
    intro p hp h bs hslot
    have hfun := hm.each p.2 (List.of_mem_zip hp).2
    exact releaseFunction_owns hfun hslot) hslots
  rw [flatMap_nil_const, List.nil_append] at hh'
  have hcount : (m.callGraph.cells.zip m.functions.cells).length = m.nbFunctions := by
    rw [List.length_zip, hm.callGraph, hm.functions, Nat.min_self]
  rw [hcount] at hloop
  simp only [releaseModule, hloop, ModuleBlocks.kept, bind, Option.bind]
  by_cases hzero : m.nbFunctions = 0
  · have hgraph : m.callGraph.cells = [] := List.eq_nil_of_length_eq_zero (hm.callGraph.trans hzero)
    have hfuns : m.functions.cells = [] := List.eq_nil_of_length_eq_zero (hm.functions.trans hzero)
    refine ⟨h', by simp [hzero], ?_⟩
    rw [if_pos hzero]
    simpa [ModuleBlocks.owned, ArrayPtr.owned, hgraph, hfuns] using hh'
  · refine ⟨_, by rw [if_pos hzero], ?_⟩
    rw [if_neg hzero, List.nil_append]
    exact Heap.free_owns (Heap.free_owns (Heap.free_owns hh'))

/-- From tables whose counts can be trusted, only what the tables do not show is
left. -/
theorem monitorDataFree_owns {s : Loading MonitorBlocks} {bs : List BufferId}
    (hs : s.blocks.Intact) (hh : s.heap.ledger.Owns (s.blocks.owned ++ bs)) :
    ∃ h, monitorDataFree s = some h ∧ h.ledger.Owns (s.blocks.kept ++ bs) := by
  rw [MonitorBlocks.owned, ArrayPtr.owned, List.append_assoc] at hh
  obtain ⟨h, hloop, hh⟩ := forCells_owns releaseModule ModuleBlocks.kept
    (fun m hm h bs => releaseModule_owns (hs.each m hm)) hh
  rw [hs.modules] at hloop
  simp only [monitorDataFree, hloop, bind, Option.bind]
  by_cases hzero : s.blocks.nbModules = 0
  · refine ⟨h, by simp [hzero], ?_⟩
    rw [hs.absent hzero] at hh
    exact hh
  · refine ⟨_, by rw [if_pos hzero], Heap.free_owns (hh.perm ?_)⟩
    exact List.perm_append_comm_assoc ..

/-! ### Tables the cleanup cannot read -/

theorem FunctionBlocks.broken_of_null {f : FunctionBlocks} (hpos : f.nbBlocks ≠ 0)
    (hnull : f.controlFlowGraph.cells = []) : f.Broken := by
  intro slot h
  have hlt : f.controlFlowGraph.cells.length < f.nbBlocks := by
    rw [hnull]
    exact Nat.pos_of_ne_zero hpos
  have hloop := forCells_of_lt (fun row (h : Heap Site) => some (h.free row)) hlt (h.free slot)
  simp only [releaseFunction, hloop]
  rfl

theorem ModuleBlocks.broken_of_short {m : ModuleBlocks}
    (hlt : m.callGraph.cells.length < m.nbFunctions ∨ m.functions.cells.length < m.nbFunctions) :
    m.Broken := by
  intro h
  have hshort : (m.callGraph.cells.zip m.functions.cells).length < m.nbFunctions := by
    rw [List.length_zip]
    omega
  have hloop := forCells_of_lt releaseFunction hshort h
  simp only [releaseModule, hloop]
  rfl

theorem ModuleBlocks.broken_of_mem {m : ModuleBlocks} {f : FunctionBlocks}
    (hgraph : m.callGraph.cells.length = m.nbFunctions)
    (hfuns : m.functions.cells.length = m.nbFunctions) (hf : f ∈ m.functions.cells)
    (hbroken : f.Broken) : m.Broken := by
  intro h
  obtain ⟨i, hi, rfl⟩ := List.mem_iff_getElem.mp hf
  have hmem : (m.callGraph.cells[i], m.functions.cells[i]) ∈
      m.callGraph.cells.zip m.functions.cells :=
    List.mem_iff_getElem.mpr ⟨i, by rw [List.length_zip]; omega, List.getElem_zip⟩
  have hloop := forCells_of_mem (n := m.nbFunctions) hmem (by rw [List.length_zip]; omega)
    (hbroken _) h
  simp only [releaseModule, hloop]
  rfl

theorem monitorDataFree_of_short {s : Loading MonitorBlocks}
    (hlt : s.blocks.modules.cells.length < s.blocks.nbModules) : monitorDataFree s = none := by
  simp only [monitorDataFree, forCells_of_lt releaseModule hlt s.heap]
  rfl

theorem monitorDataFree_of_mem {s : Loading MonitorBlocks} {m : ModuleBlocks}
    (hlen : s.blocks.modules.cells.length = s.blocks.nbModules) (hm : m ∈ s.blocks.modules.cells)
    (hbroken : m.Broken) : monitorDataFree s = none := by
  simp only [monitorDataFree, forCells_of_mem hm hlen.le hbroken s.heap]
  rfl

/-! ### What the decoders preserve -/

/-- The live buffers are `bs`, and no array that a count speaks of was refused. -/
structure Tidy (bs : List BufferId) (h : Heap Site) : Prop where
  owns : h.ledger.Owns bs
  uncounted : ∀ site ∈ h.refused, ¬ site.Counted

/-- The counts can be trusted, and besides the buffers of the tables those of
`bs` are live. -/
structure Sound {B : Type} (owned : B → List BufferId) (intact : B → Prop) (bs : List BufferId)
    (s : Loading B) : Prop where
  intact : intact s.blocks
  tidy : Tidy (owned s.blocks ++ bs) s.heap

/-- An array was refused whose count had been stored. -/
structure Refusal (grants : Nat → Bool) (h : Heap Site) : Prop where
  counted : ∃ site ∈ h.refused, site.Counted
  refused : ∃ k, grants k = false

/-- The tables cannot be read, for want of such an array. -/
structure Unfit (grants : Nat → Bool) {B : Type} (broken : B → Prop) (s : Loading B) : Prop where
  broken : broken s.blocks
  refusal : Refusal grants s.heap

abbrev FunctionSound := Sound FunctionBlocks.owned FunctionBlocks.Intact
abbrev ModuleSound := Sound ModuleBlocks.owned ModuleBlocks.Intact
abbrev MonitorSound := Sound MonitorBlocks.owned MonitorBlocks.Intact

/-- Sound up to buffers that no pointer shows any more. -/
def ModuleLeaky (bs : List BufferId) (s : Loading ModuleBlocks) : Prop :=
  ∃ lost, ModuleSound (lost ++ bs) s

/-- Sound, with this number of functions. -/
def ModuleCounted (n : Nat) (bs : List BufferId) (s : Loading ModuleBlocks) : Prop :=
  s.blocks.nbFunctions = n ∧ ModuleSound bs s

/-- How a decoder of sections may fail. -/
abbrev ModuleEnds (grants : Nat → Bool) (bs : List BufferId)
    (e : LoadError × Loading ModuleBlocks) : Prop :=
  ModuleLeaky bs e.2 ∨ Unfit grants ModuleBlocks.Broken e.2

section Preservation

variable (grants : Nat → Bool) {bs bs' : List BufferId}

theorem Tidy.perm {h : Heap Site} (hh : Tidy bs h) (hp : bs.Perm bs') : Tidy bs' h :=
  ⟨hh.owns.perm hp, hh.uncounted⟩

theorem Tidy.alloc {h : Heap Site} (hh : Tidy bs h) (site : Site) :
    (∃ b h', h.alloc grants site = (some b, h') ∧ Tidy (b :: bs) h') ∨
      ∃ h', h.alloc grants site = (none, h') ∧ (¬ site.Counted → Tidy bs h') ∧
        (site.Counted → Refusal grants h') := by
  rcases Heap.alloc_cases grants site h with ⟨b, h', halloc, href, howns⟩ |
    ⟨h', halloc, href, hledger, hrefused⟩
  · refine .inl ⟨b, h', halloc, howns bs hh.owns, ?_⟩
    rw [href]
    exact hh.uncounted
  · refine .inr ⟨h', halloc, fun hsite => ⟨hledger ▸ hh.owns, ?_⟩,
      fun hsite => ⟨⟨site, ?_, hsite⟩, _, hrefused⟩⟩
    · intro other hother
      rw [href] at hother
      rcases List.mem_append.mp hother with hold | hnew
      · exact hh.uncounted other hold
      · obtain rfl := List.mem_singleton.mp hnew
        exact hsite
    · rw [href]
      exact List.mem_append_right _ List.mem_cons_self

theorem read_outcome {B α : Type} {s : Loading B} {x : Load α} {P : α → Prop}
    {err : LoadError × Loading B → Prop} (hs : ∀ e, err (e, s)) (hx : ∀ a, x = .ok a → P a) :
    Outcome P err (s.read x) := by
  cases x with
  | error e => exact hs e
  | ok a => exact hx a rfl

/-! #### The function section -/

/-- A module in which one slot is replaced. -/
theorem ModuleBlocks.owned_focus {m : ModuleBlocks} {fId : Nat} (hm : m.Intact)
    (hf : fId < m.nbFunctions) :
    ∃ old frame, m.functions.cells[fId]? = some old ∧ old.Intact ∧
      m.owned.Perm (old.owned ++ frame) ∧
      ∀ f, (m.setFunction fId f).owned.Perm (f.owned ++ frame) := by
  have hlt : fId < m.functions.cells.length := by rw [hm.functions]; exact hf
  have hget := List.getElem?_eq_getElem hlt
  obtain ⟨frame, hold, hnew⟩ := ArrayPtr.owned_focus (f := FunctionBlocks.owned) hget
  refine ⟨_, frame ++ (m.callGraph.owned Option.toList ++ m.relocations.toList), hget,
    hm.each _ (List.getElem_mem hlt), ?_, fun f => ?_⟩
  · rw [← List.append_assoc]
    exact hold.append_right _
  · rw [← List.append_assoc]
    exact (hnew f).append_right _

theorem ModuleBlocks.Intact.setFunction {m : ModuleBlocks} {fId : Nat} {f : FunctionBlocks}
    (hm : m.Intact) (hf : f.Intact) : (m.setFunction fId f).Intact := by
  refine ⟨hm.callGraph, ?_, fun g hg => ?_⟩
  · show (m.functions.cells.set fId f).length = m.nbFunctions
    rw [List.length_set, hm.functions]
  · rcases List.mem_or_eq_of_mem_set hg with hold | rfl
    · exact hm.each g hold
    · exact hf

/-- The slot that a record of the function section overwrites is lost. -/
theorem storeName_sound {fId : Nat} {s : Loading ModuleBlocks} (hs : ModuleSound bs s)
    (hf : fId < s.blocks.nbFunctions) :
    ∃ old, s.blocks.functions.cells[fId]? = some old ∧
      ModuleSound (old.owned ++ bs) (storeName grants fId s) := by
  obtain ⟨old, frame, hget, -, hold, hnew⟩ := ModuleBlocks.owned_focus hs.intact hf
  refine ⟨old, hget, ?_⟩
  have hperm (p : Option BufferId) : (p.toList ++ (s.blocks.owned ++ bs)).Perm
      ((s.blocks.setFunction fId (.named p)).owned ++ (old.owned ++ bs)) := by
    apply List.perm_iff_count.mpr
    intro x
    have h₁ := hold.count_eq x
    have h₂ := (hnew (.named p)).count_eq x
    rw [FunctionBlocks.named_owned] at h₂
    simp only [List.count_append] at h₁ h₂ ⊢
    omega
  unfold storeName
  rcases hs.tidy.alloc grants .name with ⟨b, heap, halloc, htidy⟩ |
    ⟨heap, halloc, htidy, -⟩
  · rw [halloc]
    exact ⟨hs.intact.setFunction (FunctionBlocks.named_intact _), htidy.perm (hperm (some b))⟩
  · rw [halloc]
    exact ⟨hs.intact.setFunction (FunctionBlocks.named_intact _),
      (htidy fun h => h).perm (hperm none)⟩

theorem functionIdRecord_outcome (ptr : Bytes) {s : Loading ModuleBlocks}
    (hs : ModuleLeaky bs s) :
    Outcome (fun r => ModuleLeaky bs r.2) (ModuleEnds grants bs)
      (functionIdRecord grants ptr s) := by
  have hread {α : Type} (x : Load α) : Outcome (fun _ => True) (ModuleEnds grants bs) (s.read x) :=
    read_outcome (fun _ => .inl hs) fun _ _ => trivial
  unfold functionIdRecord
  refine (hread _).bind fun fId _ => ?_
  split
  · exact Or.inl hs
  · rename_i hlt
    refine (hread _).bind fun name _ => (hread _).bind fun flags _ => ?_
    obtain ⟨lost, hsound⟩ := hs
    obtain ⟨old, -, hstored⟩ := storeName_sound grants hsound (Nat.not_le.mp hlt)
    exact ⟨old.owned ++ lost, by rwa [List.append_assoc]⟩

/-- With no function yet, a module owns the three arrays at most. -/
theorem ModuleBlocks.Intact.owned_none {m : ModuleBlocks} (hm : m.Intact)
    (hzero : m.nbFunctions = 0) :
    m.owned =
      m.functions.pointer.toList ++ (m.callGraph.pointer.toList ++ m.relocations.toList) := by
  have hgraph : m.callGraph.cells = [] := List.eq_nil_of_length_eq_zero (hm.callGraph.trans hzero)
  have hfuns : m.functions.cells = [] := List.eq_nil_of_length_eq_zero (hm.functions.trans hzero)
  simp [ModuleBlocks.owned, ArrayPtr.owned, hgraph, hfuns]

/-- One of the three arrays was refused: fatal to the cleanup unless it was to
have no entry. -/
theorem refused_array {m : ModuleBlocks} {heap : Heap Site} {bs₀ : List BufferId} {n : Nat}
    (hn : m.nbFunctions = n) (hgraph : m.callGraph.cells.length ≤ n)
    (hfuns : m.functions.cells = [])
    (htidy : ¬ (Site.functionArray n).Counted → Tidy bs₀ heap)
    (hcounted : (Site.functionArray n).Counted → Refusal grants heap)
    (hperm : n = 0 → ∃ lost, bs₀.Perm (m.functions.pointer.toList ++
      (m.callGraph.pointer.toList ++ m.relocations.toList) ++ (lost ++ bs))) :
    ModuleLeaky bs ⟨m, heap⟩ ∨ Unfit grants ModuleBlocks.Broken ⟨m, heap⟩ := by
  by_cases hzero : n = 0
  · obtain ⟨lost, hp⟩ := hperm hzero
    have hintact : m.Intact := by
      refine ⟨by omega, by rw [hfuns, hn, hzero]; rfl, fun f hf => ?_⟩
      rw [hfuns] at hf
      cases hf
    refine .inl ⟨lost, hintact, ?_⟩
    show Tidy (m.owned ++ (lost ++ bs)) heap
    rw [hintact.owned_none (hn.trans hzero)]
    exact (htidy fun h => h hzero).perm hp
  · refine .inr ⟨ModuleBlocks.broken_of_short (.inr ?_), hcounted hzero⟩
    rw [hfuns, hn]
    exact Nat.pos_of_ne_zero hzero

/-- The arrays of a function section: all three are there, or one was refused.
What hung there before is lost. -/
theorem allocateFunctions_sound (n : Nat) {s : Loading ModuleBlocks} (hs : ModuleSound bs s)
    (hzero : s.blocks.nbFunctions = 0) :
    (∃ s' g r f, allocateFunctions grants n s = (true, s') ∧
        s'.blocks = ⟨n, .of (some g) (List.replicate n none), some r,
          .of (some f) (List.replicate n .blank)⟩ ∧
        ModuleSound (s.blocks.owned ++ bs) s') ∨
      ∃ s', allocateFunctions grants n s = (false, s') ∧
        (ModuleLeaky bs s' ∨ Unfit grants ModuleBlocks.Broken s') := by
  have hfuns : s.blocks.functions.cells = [] :=
    List.eq_nil_of_length_eq_zero (hs.intact.functions.trans hzero)
  have howned := hs.intact.owned_none hzero
  have hstart := hs.tidy
  unfold allocateFunctions
  rcases hstart.alloc grants (.functionArray n) with ⟨g, h₁, ha₁, ht₁⟩ |
    ⟨h₁, ha₁, ht₁, hc₁⟩
  · rw [ha₁]
    rcases ht₁.alloc grants (.functionArray n) with ⟨r, h₂, ha₂, ht₂⟩ |
      ⟨h₂, ha₂, ht₂, hc₂⟩
    · simp only [ha₂]
      rcases ht₂.alloc grants (.functionArray n) with ⟨f, h₃, ha₃, ht₃⟩ |
        ⟨h₃, ha₃, ht₃, hc₃⟩
      · simp only [ha₃]
        refine .inl ⟨_, g, r, f, rfl, rfl, ⟨by simp, by simp, ?_⟩, ?_⟩
        · intro fd hfd
          rw [List.eq_of_mem_replicate hfd]
          exact FunctionBlocks.blank_intact
        · refine ht₃.perm ?_
          show (f :: r :: g :: (s.blocks.owned ++ bs)).Perm
            ((ArrayPtr.of (some f) (List.replicate n .blank)).owned FunctionBlocks.owned ++
              ((ArrayPtr.of (some g) (List.replicate n none)).owned Option.toList ++ [r]) ++
                (s.blocks.owned ++ bs))
          rw [ArrayPtr.owned_of_blank FunctionBlocks.blank_owned, ArrayPtr.owned_of_blank rfl]
          exact (List.Perm.swap g r _).cons f
      · simp only [ha₃]
        refine .inr ⟨_, rfl, refused_array grants rfl (by simp) rfl ht₃ hc₃ fun _ =>
          ⟨s.blocks.owned, ?_⟩⟩
        exact List.Perm.swap g r _
    · simp only [ha₂]
      refine .inr ⟨_, rfl, refused_array grants rfl (by simp) hfuns ht₂ hc₂ fun _ =>
        ⟨s.blocks.callGraph.pointer.toList ++ s.blocks.relocations.toList, ?_⟩⟩
      rw [howned]
      apply List.perm_iff_count.mpr
      intro x
      simp only [ArrayPtr.of_some_pointer, Option.toList_some, Option.toList_none,
        List.count_append, List.count_cons, List.count_nil]
      omega
  · rw [ha₁]
    refine .inr ⟨_, rfl, refused_array grants rfl (by simp) hfuns ht₁ hc₁ fun _ =>
      ⟨s.blocks.callGraph.pointer.toList, ?_⟩⟩
    rw [howned]
    apply List.perm_iff_count.mpr
    intro x
    simp only [ArrayPtr.null_pointer, Option.toList_none, List.count_append, List.count_nil]
    omega

theorem loadSectionFunctionId_outcome {fct : Bytes} {s : Loading ModuleBlocks}
    (hs : ModuleSound bs s) :
    Outcome (ModuleLeaky bs) (ModuleEnds grants bs) (loadSectionFunctionId grants fct s) := by
  have hleaky : ModuleLeaky bs s := ⟨[], hs⟩
  unfold loadSectionFunctionId
  split
  · exact Or.inl hleaky
  · rename_i hzero
    refine (read_outcome (P := fun _ => True) (fun _ => .inl hleaky) fun _ _ => trivial).bind
      fun n _ => ?_
    rcases allocateFunctions_sound grants n hs (not_not.mp hzero) with
      ⟨s', g, r, f, halloc, -, hsound⟩ | ⟨s', halloc, hstop⟩
    · rw [halloc]
      have hloop := forRecords_outcome (fun ptr s hs => functionIdRecord_outcome grants ptr hs) n
        (fct.drop 4) (show ModuleLeaky bs s' from ⟨s.blocks.owned, hsound⟩)
      exact hloop.bind fun r hr => hr
    · rw [halloc]
      exact hstop

/-! #### The other sections lose nothing -/

theorem allocateRow_sound {n fId : Nat} {s : Loading ModuleBlocks} (hs : ModuleCounted n bs s)
    (hf : fId < s.blocks.nbFunctions)
    (habsent : ¬ s.blocks.callGraph.cells[fId]?.join.isSome = true) :
    ModuleCounted n bs (allocateRow grants fId s).2 := by
  obtain ⟨hn, hs⟩ := hs
  have hlt : fId < s.blocks.callGraph.cells.length := by rw [hs.intact.callGraph]; exact hf
  have hget := List.getElem?_eq_getElem hlt
  have hnone : s.blocks.callGraph.cells[fId] = none := by
    rw [hget] at habsent
    simpa using habsent
  rw [hnone] at hget
  obtain ⟨frame, hold, hnew⟩ := ArrayPtr.owned_focus (f := Option.toList) hget
  unfold allocateRow
  rcases hs.tidy.alloc grants .callGraphRow with ⟨row, heap, halloc, htidy⟩ |
    ⟨heap, halloc, htidy, -⟩
  · rw [halloc]
    refine ⟨hn, ⟨?_, hs.intact.functions, hs.intact.each⟩, htidy.perm ?_⟩
    · show (s.blocks.callGraph.cells.set fId (some row)).length = s.blocks.nbFunctions
      rw [List.length_set, hs.intact.callGraph]
    · show (row :: (s.blocks.owned ++ bs)).Perm ((s.blocks.setRow fId row).owned ++ bs)
      apply List.perm_iff_count.mpr
      intro x
      have h₁ := hold.count_eq x
      have h₂ := (hnew (some row)).count_eq x
      simp only [ModuleBlocks.owned, ModuleBlocks.setRow, Option.toList_some, Option.toList_none,
        List.count_append, List.count_cons, List.count_nil] at h₁ h₂ ⊢
      omega
  · rw [halloc]
    exact ⟨hn, hs.intact, htidy fun h => h⟩

theorem functionTransitionRecord_outcome {n : Nat} (ptr : Bytes) {s : Loading ModuleBlocks}
    (hs : ModuleCounted n bs s) :
    Outcome (fun r => ModuleCounted n bs r.2) (fun e => ModuleCounted n bs e.2)
      (functionTransitionRecord grants ptr s) := by
  have hread {α : Type} {s : Loading ModuleBlocks} (hs : ModuleCounted n bs s) (x : Load α) :
      Outcome (fun _ => True) (fun e => ModuleCounted n bs e.2) (s.read x) :=
    read_outcome (fun _ => hs) fun _ _ => trivial
  unfold functionTransitionRecord
  refine (hread hs _).bind fun fId _ => ?_
  split
  · exact hs
  · rename_i hlt
    split
    · exact hs
    · rename_i habsent
      have hrow := allocateRow_sound grants hs (Nat.not_le.mp hlt) habsent
      split
      · rename_i s' halloc
        rw [halloc] at hrow
        exact hrow
      · rename_i s' halloc
        rw [halloc] at hrow
        refine (hread hrow _).bind fun num _ => (hread hrow _).bind fun _ _ => ?_
        exact hrow

theorem loadSectionFunctionTransition_outcome {n : Nat} {trans : Bytes} {s : Loading ModuleBlocks}
    (hs : ModuleCounted n bs s) :
    Outcome (ModuleCounted n bs) (fun e => ModuleCounted n bs e.2)
      (loadSectionFunctionTransition grants trans s) := by
  unfold loadSectionFunctionTransition
  split
  · exact hs
  · split
    · exact hs
    · refine (read_outcome (P := fun _ => True) (fun _ => hs) fun _ _ => trivial).bind fun k _ => ?_
      have hloop := forRecords_outcome
        (fun ptr s hs => functionTransitionRecord_outcome grants ptr hs) k (trans.drop 4) hs
      exact hloop.bind fun r hr => hr

/-- The last section only fills cells. -/
theorem loadSectionBlockIpd_outcome {ipd : Bytes} {s : Loading ModuleBlocks} :
    Outcome (fun s' => s' = s) (fun e => e.2 = s) (loadSectionBlockIpd ipd s) := by
  have hread {α : Type} {s' : Loading ModuleBlocks} (hs : s' = s) (x : Load α) :
      Outcome (fun _ => True) (fun e => e.2 = s) (s'.read x) :=
    read_outcome (fun _ => hs) fun _ _ => trivial
  have hstep (ptr : Bytes) (s' : Loading ModuleBlocks) (hs : s' = s) :
      Outcome (fun r => r.2 = s) (fun e => e.2 = s) (blockIpdRecord ptr s') := by
    unfold blockIpdRecord
    refine (hread hs _).bind fun fId _ => ?_
    split
    · exact hs
    · split
      · exact hs
      · refine (hread hs _).bind fun bId _ => ?_
        split
        · exact hs
        · exact (hread hs _).bind fun _ _ => hs
  unfold loadSectionBlockIpd
  split
  · exact rfl
  · refine (hread rfl _).bind fun n _ => ?_
    exact (forRecords_outcome hstep _ _ rfl).bind fun r hr => hr

/-! #### The arrays and rows of a function -/

theorem allocateBlockRow_sound {bId : Nat} {s : Loading FunctionBlocks} (hs : FunctionSound bs s)
    (hb : bId < s.blocks.nbBlocks) : FunctionSound bs (allocateBlockRow grants bId s).2 := by
  have hlt : bId < s.blocks.controlFlowGraph.cells.length := by rw [hs.intact.rows]; exact hb
  have hget := List.getElem?_eq_getElem hlt
  unfold allocateBlockRow
  split
  · exact hs
  · rename_i habsent
    have hnone : s.blocks.controlFlowGraph.cells[bId] = none := by
      rw [hget] at habsent
      simpa using habsent
    rw [hnone] at hget
    obtain ⟨frame, hold, hnew⟩ := ArrayPtr.owned_focus (f := Option.toList) hget
    rcases hs.tidy.alloc grants .controlFlowRow with ⟨row, heap, halloc, htidy⟩ |
      ⟨heap, halloc, htidy, -⟩
    · rw [halloc]
      refine ⟨⟨?_, hs.intact.bare⟩, htidy.perm ?_⟩
      · show (s.blocks.controlFlowGraph.cells.set bId (some row)).length = s.blocks.nbBlocks
        rw [List.length_set, hs.intact.rows]
      · show (row :: (s.blocks.owned ++ bs)).Perm ((s.blocks.setRow bId row).owned ++ bs)
        apply List.perm_iff_count.mpr
        intro x
        have h₁ := hold.count_eq x
        have h₂ := (hnew (some row)).count_eq x
        simp only [FunctionBlocks.owned, FunctionBlocks.setRow, Option.toList_some,
          Option.toList_none, List.count_append, List.count_cons, List.count_nil] at h₁ h₂ ⊢
        omega
    · rw [halloc]
      exact ⟨hs.intact, htidy fun h => h⟩

theorem fillBlocks_outcome (trans : Bytes) {s : Loading FunctionBlocks}
    (hs : FunctionSound bs s) :
    Outcome (FunctionSound bs) (fun e => FunctionSound bs e.2) (fillBlocks grants trans s) := by
  have hread {α : Type} {s : Loading FunctionBlocks} (hs : FunctionSound bs s) (x : Load α) :
      Outcome (fun _ => True) (fun e => FunctionSound bs e.2) (s.read x) :=
    read_outcome (fun _ => hs) fun _ _ => trivial
  have hstep (ptr : Bytes) (s : Loading FunctionBlocks) (hs : FunctionSound bs s) :
      Outcome (fun r => FunctionSound bs r.2) (fun e => FunctionSound bs e.2)
        (blockTransitionRecord grants ptr s) := by
    unfold blockTransitionRecord
    refine (hread hs _).bind fun bId _ => ?_
    split
    · exact hs
    · rename_i hlt
      have hrow := allocateBlockRow_sound grants hs (Nat.not_le.mp hlt)
      split
      · rename_i s' halloc
        rw [halloc] at hrow
        exact hrow
      · rename_i s' halloc
        rw [halloc] at hrow
        exact (hread hrow _).bind fun num _ => (hread hrow _).bind fun _ _ => hrow
  unfold fillBlocks
  refine (hread hs _).bind fun n _ => ?_
  exact (forRecords_outcome hstep _ _ hs).bind fun r hr => hr

/-- Both arrays of a function are there, or one was refused. -/
theorem allocateBlocks_sound {n : Nat} {s : Loading FunctionBlocks} (hs : FunctionSound bs s)
    (hzero : s.blocks.nbBlocks = 0) (hn : n ≠ 0) :
    (∃ s', allocateBlocks grants n s = (true, s') ∧ FunctionSound bs s') ∨
      ∃ s', allocateBlocks grants n s = (false, s') ∧
        (FunctionSound bs s' ∨ Unfit grants FunctionBlocks.Broken s') := by
  have hbare := hs.intact.owned_bare hzero
  have hstart := hs.tidy
  rw [hbare] at hstart
  unfold allocateBlocks
  rcases hstart.alloc grants .controlFlowGraph with ⟨g, h₁, ha₁, ht₁⟩ |
    ⟨h₁, ha₁, -, hc₁⟩
  · rw [ha₁]
    have hrows (d : Option BufferId) : FunctionBlocks.Intact
        ⟨s.blocks.name, n, .of (some g) (List.replicate n none), d⟩ :=
      ⟨List.length_replicate, fun h => absurd h hn⟩
    have howned (d : Option BufferId) : FunctionBlocks.owned
        ⟨s.blocks.name, n, .of (some g) (List.replicate n none), d⟩ =
          s.blocks.name.toList ++ ([g] ++ d.toList) := by
      show _ ++ ((ArrayPtr.of (some g) (List.replicate n none)).owned Option.toList ++ _) = _
      rw [ArrayPtr.owned_of_blank rfl]
      rfl
    have hperm (d : Option BufferId) : (d.toList ++ g :: (s.blocks.name.toList ++ bs)).Perm
        (s.blocks.name.toList ++ ([g] ++ d.toList) ++ bs) := by
      apply List.perm_iff_count.mpr
      intro x
      simp only [List.count_append, List.count_cons, List.count_nil]
      omega
    rcases ht₁.alloc grants .immediatePostDominator with ⟨d, h₂, ha₂, ht₂⟩ |
      ⟨h₂, ha₂, ht₂, -⟩
    · simp only [ha₂]
      refine .inl ⟨_, rfl, hrows _, ?_⟩
      rw [howned]
      exact ht₂.perm (hperm (some d))
    · simp only [ha₂]
      refine .inr ⟨_, rfl, .inl ⟨hrows _, ?_⟩⟩
      rw [howned]
      exact (ht₂ fun h => h).perm (hperm none)
  · rw [ha₁]
    exact .inr ⟨_, rfl, .inr ⟨FunctionBlocks.broken_of_null hn rfl, hc₁ trivial⟩⟩

/-- Working on one function of a module. -/
theorem ModuleSound.focus {fId : Nat} {fdata : FunctionBlocks} {s : Loading ModuleBlocks}
    (hs : ModuleSound bs s) (hget : s.blocks.functions.cells[fId]? = some fdata) :
    ∃ frame, FunctionSound (frame ++ bs) ⟨fdata, s.heap⟩ ∧
      (∀ fs, FunctionSound (frame ++ bs) fs → ModuleSound bs (s.store fId fs)) ∧
      ∀ fs, Unfit grants FunctionBlocks.Broken fs →
        Unfit grants ModuleBlocks.Broken (s.store fId fs) := by
  obtain ⟨hlt, -⟩ := List.getElem?_eq_some_iff.mp hget
  have hf : fId < s.blocks.nbFunctions := by rw [← hs.intact.functions]; exact hlt
  obtain ⟨old, frame, hold, hintact, howned, hnew⟩ := ModuleBlocks.owned_focus hs.intact hf
  obtain rfl := Option.some.inj (hold.symm.trans hget)
  refine ⟨frame, ⟨hintact, ?_⟩, fun fs hfs => ⟨hs.intact.setFunction hfs.intact, ?_⟩,
    fun fs hfs => ⟨?_, hfs.refusal⟩⟩
  · rw [← List.append_assoc]
    exact hs.tidy.perm (howned.append_right bs)
  · refine hfs.tidy.perm ?_
    rw [← List.append_assoc]
    exact (hnew fs.blocks).symm.append_right bs
  · refine ModuleBlocks.broken_of_mem hs.intact.callGraph ?_ ?_ hfs.broken
    · show (s.blocks.functions.cells.set fId fs.blocks).length = s.blocks.nbFunctions
      rw [List.length_set, hs.intact.functions]
    · exact List.mem_set hlt fs.blocks

theorem loadSectionBlockTransition_outcome {n : Nat} {trans : Bytes} {s : Loading ModuleBlocks}
    (hs : ModuleCounted n bs s) :
    Outcome (ModuleCounted n bs)
      (fun e => ModuleCounted n bs e.2 ∨ Unfit grants ModuleBlocks.Broken e.2)
      (loadSectionBlockTransition grants trans s) := by
  have hread {α : Type} (x : Load α) : Outcome (fun _ => True)
      (fun e => ModuleCounted n bs e.2 ∨ Unfit grants ModuleBlocks.Broken e.2) (s.read x) :=
    read_outcome (fun _ => .inl hs) fun _ _ => trivial
  unfold loadSectionBlockTransition
  split
  · exact Or.inl hs
  · split
    · exact Or.inl hs
    · refine (hread _).bind fun fId _ => ?_
      split
      · exact Or.inl hs
      · rename_i fdata hget
        obtain ⟨frame, hfs, hstore, hbroken⟩ := hs.2.focus grants hget
        split
        · exact Or.inl hs
        · rename_i hzero
          refine (hread _).bind fun numBlock _ => ?_
          split
          · exact Or.inl hs
          · rename_i hn
            rcases allocateBlocks_sound grants hfs (not_not.mp hzero) hn with
              ⟨fs, halloc, hsound⟩ | ⟨fs, halloc, hsound | hunfit⟩
            · rw [halloc]
              have hfill := fillBlocks_outcome grants trans hsound
              cases hrun : fillBlocks grants trans fs with
              | error e =>
                rw [hrun] at hfill
                simp only [hrun]
                exact Or.inl ⟨hs.1, hstore _ hfill⟩
              | ok fs' =>
                rw [hrun] at hfill
                simp only [hrun]
                exact ⟨hs.1, hstore _ hfill⟩
            · rw [halloc]
              exact Or.inl ⟨hs.1, hstore _ hsound⟩
            · rw [halloc]
              exact Or.inr (hbroken _ hunfit)

/-! ### `monitor_load_module` -/

theorem loadSection_outcome (pkt : LoadingPacket) {s : Loading ModuleBlocks}
    (hs : ModuleSound bs s) :
    Outcome (ModuleLeaky bs) (ModuleEnds grants bs) (loadSection grants pkt s) := by
  unfold loadSection
  split
  · exact loadSectionFunctionId_outcome grants hs
  · exact (loadSectionFunctionTransition_outcome grants ⟨rfl, hs⟩).mono (fun _ h => ⟨[], h.2⟩)
      fun _ h => .inl ⟨[], h.2⟩
  · exact (loadSectionBlockTransition_outcome grants ⟨rfl, hs⟩).mono (fun _ h => ⟨[], h.2⟩)
      fun _ h => h.imp (fun h => ⟨[], h.2⟩) id
  · refine loadSectionBlockIpd_outcome.mono (fun s' h => ?_) fun e h => .inl ?_
    · rw [h]
      exact ⟨[], hs⟩
    · rw [h]
      exact ⟨[], hs⟩
  · exact Or.inl ⟨[], hs⟩

/-- The section loop, whatever it is sent: a loaded module can be trusted. -/
theorem loadSections_ends {s : Loading ModuleBlocks} (pkts : List (Option LoadingPacket))
    (hs : ModuleLeaky bs s) :
    (ModuleLeaky bs (loadSections grants s pkts).2 ∨
        Unfit grants ModuleBlocks.Broken (loadSections grants s pkts).2) ∧
      ∀ rest, (loadSections grants s pkts).1 = .loaded () rest →
        ModuleLeaky bs (loadSections grants s pkts).2 := by
  induction pkts generalizing s with
  | nil => exact ⟨.inl hs, nofun⟩
  | cons pkt? rest ih =>
    cases pkt? with
    | none => exact ⟨.inl hs, nofun⟩
    | some pkt =>
      simp only [loadSections]
      split
      · exact ⟨.inl hs, fun _ _ => hs⟩
      · obtain ⟨lost, hsound⟩ := hs
        have hone := loadSection_outcome grants pkt hsound
        cases hrun : loadSection grants pkt s with
        | error e =>
          rw [hrun] at hone
          refine ⟨?_, nofun⟩
          rcases hone with ⟨lost', hleaky⟩ | hunfit
          · exact .inl ⟨lost' ++ lost, by rwa [List.append_assoc]⟩
          · exact .inr hunfit
        | ok s' =>
          rw [hrun] at hone
          obtain ⟨lost', hleaky⟩ := hone
          exact ih ⟨lost' ++ lost, by rwa [List.append_assoc]⟩

/-! ### `monitor_load` -/

/-- The tables of the monitor, when no packet is being decoded. -/
def MonitorLeaky (s : Loading MonitorBlocks) : Prop := ∃ lost, MonitorSound lost s

/-- What the cleanup makes of unreadable tables. -/
structure Unreadable (grants : Nat → Bool) (s : Loading MonitorBlocks) : Prop where
  fails : monitorDataFree s = none
  refusal : Refusal grants s.heap

/-- A new module: its slot is the last one, and the rest of the tables is a
frame. -/
structure Begun (grants : Nat → Bool) (lost : List BufferId) (s : Loading MonitorBlocks) :
    Prop where
  pointer : s.blocks.modules.pointer ≠ none
  sound : MonitorSound lost s
  focus : ∃ frame, ModuleSound (frame ++ lost) ⟨.empty, s.heap⟩ ∧
    ∀ ms lost', ModuleSound (lost' ++ (frame ++ lost)) ms →
      MonitorSound (lost' ++ lost) (s.storeLast ms)
  broken : ∀ ms, Unfit grants ModuleBlocks.Broken ms → Unreadable grants (s.storeLast ms)

/-- The array of modules with one module more. -/
theorem begun_of_tidy {cells : List ModuleBlocks} {p : BufferId} {lost : List BufferId}
    {heap : Heap Site} (hcells : ∀ m ∈ cells, m.Intact)
    (htidy : Tidy (p :: (cells.flatMap ModuleBlocks.owned ++ lost)) heap) :
    Begun grants lost ⟨⟨cells.length + 1, .of (some p) (cells ++ [.empty])⟩, heap⟩ := by
  have hset (ms : Loading ModuleBlocks) : Loading.storeLast
      ⟨⟨cells.length + 1, .of (some p) (cells ++ [.empty])⟩, heap⟩ ms =
        ⟨⟨cells.length + 1, .of (some p) (cells ++ [ms.blocks])⟩, ms.heap⟩ := by
    simp [Loading.storeLast, ArrayPtr.setCell, ArrayPtr.of]
  have hintact (m : ModuleBlocks) (hm : m.Intact) :
      MonitorBlocks.Intact ⟨cells.length + 1, .of (some p) (cells ++ [m])⟩ := by
    refine ⟨by simp, nofun, fun m' hm' => ?_⟩
    rcases List.mem_append.mp hm' with hold | hnew
    · exact hcells m' hold
    · obtain rfl := List.mem_singleton.mp hnew
      exact hm
  have howned (m : ModuleBlocks) :
      MonitorBlocks.owned ⟨cells.length + 1, .of (some p) (cells ++ [m])⟩ =
        cells.flatMap ModuleBlocks.owned ++ m.owned ++ [p] := by
    simp [MonitorBlocks.owned, ArrayPtr.owned]
  refine ⟨by simp, ⟨hintact _ ModuleBlocks.empty_intact, ?_⟩,
    ⟨p :: cells.flatMap ModuleBlocks.owned, ⟨ModuleBlocks.empty_intact, htidy⟩, ?_⟩, ?_⟩
  · rw [howned]
    refine htidy.perm ?_
    apply List.perm_iff_count.mpr
    intro x
    simp only [ModuleBlocks.empty_owned, List.count_append, List.count_cons, List.count_nil]
    omega
  · intro ms lost' hms
    rw [hset]
    refine ⟨hintact _ hms.intact, ?_⟩
    rw [howned]
    refine hms.tidy.perm ?_
    apply List.perm_iff_count.mpr
    intro x
    simp only [List.count_append, List.count_cons, List.count_nil]
    omega
  · intro ms hms
    rw [hset]
    exact ⟨monitorDataFree_of_mem (by simp) (by simp) hms.broken, hms.refusal⟩

theorem beginModule_sound {lost : List BufferId} {s : Loading MonitorBlocks}
    (hs : MonitorSound lost s) :
    Begun grants lost (beginModule grants s) ∨
      (beginModule grants s).blocks.modules.pointer = none ∧
        Unreadable grants (beginModule grants s) := by
  have hrefused (heap : Heap Site) (hcounted : Refusal grants heap) :
      Unreadable grants ⟨⟨s.blocks.nbModules + 1, .null⟩, heap⟩ :=
    ⟨monitorDataFree_of_short (Nat.succ_pos _), hcounted⟩
  have hgranted (p : BufferId) (heap : Heap Site)
      (htidy : Tidy (p :: (s.blocks.owned ++ lost)) heap) :
      Begun grants lost
        ⟨⟨s.blocks.nbModules + 1, .of (some p) (s.blocks.modules.cells ++ [.empty])⟩,
          heap.free s.blocks.modules.pointer⟩ := by
    rw [← hs.intact.modules]
    refine begun_of_tidy grants hs.intact.each ⟨Heap.free_owns (htidy.owns.perm ?_), ?_⟩
    · apply List.perm_iff_count.mpr
      intro x
      simp only [MonitorBlocks.owned, ArrayPtr.owned, List.count_append, List.count_cons]
      omega
    · rw [Heap.free_refused]
      exact htidy.uncounted
  unfold beginModule
  rcases hs.tidy.alloc grants .modules with ⟨p, heap, halloc, htidy⟩ |
    ⟨heap, halloc, -, hcounted⟩
  · left
    have hbegun := hgranted p heap htidy
    by_cases hzero : s.blocks.nbModules = 0
    · rw [hs.intact.absent hzero] at hbegun
      simpa [hzero, halloc] using hbegun
    · simpa [hzero, Heap.realloc, halloc] using hbegun
  · right
    have hunreadable := hrefused heap (hcounted trivial)
    by_cases hzero : s.blocks.nbModules = 0
    · simpa [hzero, halloc] using hunreadable
    · simpa [hzero, Heap.realloc, halloc] using hunreadable

theorem monitorLoadModule_ends (sent : Bool) {s : Loading MonitorBlocks}
    (pkts : List (Option LoadingPacket)) (hs : MonitorLeaky s) :
    (MonitorLeaky (monitorLoadModule grants sent s pkts).2 ∨
        Unreadable grants (monitorLoadModule grants sent s pkts).2) ∧
      ∀ rest, (monitorLoadModule grants sent s pkts).1 = .loaded () rest →
        MonitorLeaky (monitorLoadModule grants sent s pkts).2 := by
  cases pkts with
  | nil => exact ⟨.inl hs, nofun⟩
  | cons pkt? rest =>
    cases pkt? with
    | none => exact ⟨.inl hs, nofun⟩
    | some pkt =>
      simp only [monitorLoadModule]
      split
      · obtain ⟨lost, hsound⟩ := hs
        rcases beginModule_sound grants hsound with hbegun | ⟨hnull, hunreadable⟩
        · rw [if_neg hbegun.pointer]
          split
          · exact ⟨.inl ⟨lost, hbegun.sound⟩, nofun⟩
          · obtain ⟨frame, hmodule, hstore⟩ := hbegun.focus
            obtain ⟨hends, hloaded⟩ := loadSections_ends grants rest
              (show ModuleLeaky (frame ++ lost) ⟨.empty, (beginModule grants s).heap⟩ from
                ⟨[], hmodule⟩)
            have hleaky (ms : Loading ModuleBlocks) (hms : ModuleLeaky (frame ++ lost) ms) :
                MonitorLeaky ((beginModule grants s).storeLast ms) := by
              obtain ⟨lost', hms⟩ := hms
              exact ⟨lost' ++ lost, hstore ms lost' hms⟩
            refine ⟨hends.imp (hleaky _) (hbegun.broken _), fun rest' houtcome => ?_⟩
            exact hleaky _ (hloaded rest' houtcome)
        · rw [if_pos hnull]
          exact ⟨.inr hunreadable, nofun⟩
      · exact ⟨.inl hs, nofun⟩
      · exact ⟨.inl hs, nofun⟩

end Preservation

theorem loadLoop_ends (env : Surroundings) (fuel : Nat) {s s' : Loading MonitorBlocks}
    (pkts : List (Option LoadingPacket)) (hs : MonitorLeaky s)
    (hload : loadLoop env fuel s pkts = some s') :
    MonitorLeaky s' ∨ Unreadable env.grants s' := by
  induction fuel generalizing s pkts with
  | zero =>
    obtain rfl := Option.some.inj hload
    exact .inl hs
  | succ fuel ih =>
    obtain ⟨hends, hloaded⟩ := monitorLoadModule_ends env.grants
      (env.sent s.blocks.nbModules) pkts hs
    simp only [loadLoop] at hload
    split at hload
    · rename_i value rest s₁ hrun
      rw [hrun] at hloaded
      have hs₁ := hloaded rest rfl
      split at hload
      · exact ih rest hs₁ hload
      · obtain rfl := Option.some.inj hload
        exact .inl hs₁
    · cases hload
    · rename_i outcome s₁ _ _ hrun
      rw [hrun] at hends
      obtain rfl := Option.some.inj hload
      exact hends

/-- Whatever the loader is sent and wherever memory runs out: unless the loader
reads past the end of a packet, the cleanup releases no buffer twice and none that
it does not hold; it reads through NULL or past the end of an array exactly when an
array whose count had been stored was refused. -/
theorem cleanup_after_any_load (env : Surroundings) (pkts : List (Option LoadingPacket))
    (s : Loading MonitorBlocks) (hload : monitorLoad env pkts = some s) :
    (∀ h, monitorDataFree s = some h → h.ledger.dangling = []) ∧
      (monitorDataFree s = none ↔ ∃ site ∈ s.heap.refused, site.Counted) := by
  have hstart : MonitorLeaky ⟨⟨0, .null⟩, .fresh⟩ :=
    ⟨[], ⟨rfl, fun _ => rfl, nofun⟩, Ledger.fresh_owns, nofun⟩
  rcases loadLoop_ends env (pkts.length + 1) pkts hstart hload with ⟨lost, hsound⟩ | hunreadable
  · obtain ⟨h, hfree, howns⟩ := monitorDataFree_owns hsound.intact hsound.tidy.owns
    refine ⟨fun h' hrun => ?_, fun hnone => ?_, fun ⟨site, hmem, hcounted⟩ => ?_⟩
    · obtain rfl := Option.some.inj (hfree.symm.trans hrun)
      exact howns.dangling_nil
    · rw [hfree] at hnone
      cases hnone
    · exact absurd hcounted (hsound.tidy.uncounted site hmem)
  · refine ⟨fun h hrun => ?_, fun _ => hunreadable.refusal.counted, fun _ => hunreadable.fails⟩
    rw [hunreadable.fails] at hrun
    cases hrun

/-- Memory for all but the second array of the functions. -/
def withoutRelocations : Surroundings := ⟨fun k => k != 2, fun _ => true, fun _ => true⟩

def oneFunctionAnnounced : List (Option LoadingPacket) :=
  [some ⟨.moduleBegin, []⟩, some ⟨.sectionFunctionId, le32 1⟩]

/-- The second array of one function is refused, and the cleanup reads the third
through NULL. -/
theorem cleanup_after_any_load_refused : ∃ s,
    monitorLoad withoutRelocations oneFunctionAnnounced = some s ∧ monitorDataFree s = none := by
  obtain ⟨s, hload, hmem⟩ : ∃ s, monitorLoad withoutRelocations oneFunctionAnnounced = some s ∧
      .functionArray 1 ∈ s.heap.refused := ⟨_, rfl, List.mem_cons_self⟩
  exact ⟨s, hload, (cleanup_after_any_load withoutRelocations oneFunctionAnnounced s hload).2.mpr
    ⟨_, hmem, Nat.one_ne_zero⟩⟩

end Picon.Loader.Tables
