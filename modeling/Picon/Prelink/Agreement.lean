import Picon.Prelink.Decode

/-!
# Encoder and decoder agree

For every table prelink can be asked to encode, the packets it generates load,
and the module they leave says exactly what the table says.
-/

namespace Picon.Prelink

open Lib (le32 modifyAll)
open Monitor

/-- The block entries that are sent at all. -/
def Tables.sentBlocks (t : Tables) : List BlockEntry := if t.granularityBb then t.bb else []

def Tables.sentIpd (t : Tables) : List IpdTuple := if t.granularityBb then t.bbIpd else []

/-- A table over contiguous function ids. Dictionaries have distinct keys, block
ids stay below the block count of their function, and a tuple of `bb_ipd` is
about a block of `bb`. -/
structure Tables.Shaped (t : Tables) : Prop where
  nonempty : t.fcts ≠ []
  ids : (t.fcts.map FctEntry.id).Perm (List.range t.fcts.length)
  names : ∀ e ∈ t.fcts, 0 ∉ e.name
  callers_nodup : (t.callgraph.map Prod.fst).Nodup
  callers_lt : ∀ e ∈ t.callgraph, e.1 < t.fcts.length
  callees_lt : ∀ e ∈ t.callgraph, ∀ g ∈ e.2, g < t.fcts.length
  blocks_nodup : (t.bb.map BlockEntry.fct).Nodup
  blocks_lt : ∀ e ∈ t.bb, e.fct < t.fcts.length
  numBlocks_pos : ∀ e ∈ t.bb, 0 < e.numBlocks
  succs_nodup : ∀ e ∈ t.bb, (e.succs.map Prod.fst).Nodup
  succs_source_lt : ∀ e ∈ t.bb, ∀ s ∈ e.succs, s.1 < e.numBlocks
  succs_target_lt : ∀ e ∈ t.bb, ∀ s ∈ e.succs, ∀ b ∈ s.2, b < e.numBlocks
  ipd_block : ∀ p ∈ t.bbIpd, ∃ e ∈ t.bb, e.fct = p.fct ∧ p.block < e.numBlocks

/-- The values of a table that its shape does not already bound fit 32 bits. -/
structure Tables.Fits (t : Tables) : Prop where
  nbFunctions : t.fcts.length < 2 ^ 32
  nbCallees : ∀ e ∈ t.callgraph, e.2.length < 2 ^ 32
  nbBlocks : ∀ e ∈ t.bb, e.numBlocks < 2 ^ 32
  nbSuccs : ∀ e ∈ t.bb, ∀ s ∈ e.succs, s.2.length < 2 ^ 32
  nbIpds : t.bbIpd.length < 2 ^ 32
  ipds : ∀ p ∈ t.bbIpd, p.ipd < 2 ^ 32 ∧ p.last < 2 ^ 32

/-- Prelink only gets past values that fit. -/
theorem Tables.fits_of_packets {t : Tables} {pkts : List LoadingPacket}
    (h : sectionPackets t = some pkts)
    (hbb : t.granularityBb = false → t.bb = [] ∧ t.bbIpd = []) : t.Fits := by
  obtain ⟨fctids, hfctids, h₁⟩ := Option.bind_eq_some_iff.mp h
  obtain ⟨callgraph, hcallgraph, h₂⟩ := Option.bind_eq_some_iff.mp h₁
  obtain ⟨hn, -, -⟩ := genPackedFctids_eq_some.mp hfctids
  obtain ⟨-, hedges, -⟩ := genPackedCallgraph_eq_some.mp hcallgraph
  cases hgran : t.granularityBb with
  | false =>
    obtain ⟨hnil, hnil'⟩ := hbb hgran
    exact ⟨hn, fun e he => (hedges e he).2.1, by simp [hnil], by simp [hnil], by simp [hnil'],
      by simp [hnil']⟩
  | true =>
    dsimp only at h₂
    rw [if_pos hgran] at h₂
    obtain ⟨bb, hbbs, h₃⟩ := Option.bind_eq_some_iff.mp h₂
    obtain ⟨ipd, hipd, -⟩ := Option.bind_eq_some_iff.mp h₃
    obtain ⟨hblocks, -⟩ := genPackedBb_eq_some.mp hbbs
    obtain ⟨hlen, htuples, -⟩ := genPackedBbIpd_eq_some.mp hipd
    exact ⟨hn, fun e he => (hedges e he).2.1, fun e he => (hblocks e he).2.1,
      fun e he s hs => ((hblocks e he).2.2.2 s hs).2.1, hlen,
      fun p hp => ⟨(htuples p hp).2.2.1, (htuples p hp).2.2.2⟩⟩

/-- The post-dominator the last tuple gives to a block, zero without any. -/
def Tables.lastIpd (t : Tables) (f b : Nat) : Nat :=
  ((t.sentIpd.filter fun p => p.fct = f ∧ p.block = b).getLast?.map IpdTuple.ipd).getD 0

/-- What the block tables of a function say. -/
structure BlocksAgree (t : Tables) (e : BlockEntry) (fd : FunctionData) : Prop where
  nbBlocks : fd.nbBlocks = e.numBlocks
  cfg : ∀ b b', fd.controlFlowGraph.access b b' = .cell true ↔ ∃ s ∈ e.succs, s.1 = b ∧ b' ∈ s.2
  ipd : ∀ b < e.numBlocks,
    fd.immediatePostDominator[b]? = some (UInt32.ofNat (t.lastIpd e.fct b))

/-- The module says what the table says, and nothing else. -/
structure Agrees (t : Tables) (md : ModuleData) : Prop where
  nbFunctions : md.nbFunctions = t.fcts.length
  function : ∀ e ∈ t.fcts, ∃ fd, md.functions[e.id]? = some fd ∧ fd.name = some e.name ∧
    fd.flags.toNat = flagToInt e.flag
  inits : md.nbEntrypointInits = t.fcts.countP (·.flag = "Init")
  finis : md.nbEntrypointFinis = t.fcts.countP (·.flag = "Fini")
  callGraph : ∀ f g, md.callGraph.access f g = .cell true ↔ ∃ e ∈ t.callgraph, e.1 = f ∧ g ∈ e.2
  blocks : ∀ e ∈ t.sentBlocks, ∃ fd, md.functions[e.fct]? = some fd ∧ BlocksAgree t e fd
  noBlocks : ∀ f fd, f ∉ t.sentBlocks.map BlockEntry.fct → md.functions[f]? = some fd →
    fd.nbBlocks = 0

/-! ### What the folds leave -/

theorem foldl_describe_functions (es : List FctEntry) (md : ModuleData) :
    (es.foldl describe md).functions =
      modifyAll FctEntry.id (fun e _ => e.data) es md.functions := by
  refine (List.foldl_hom ModuleData.functions fun md e => ?_).symm
  exact (List.set_eq_modify e.data e.id md.functions).symm

theorem foldl_describe_callGraph (es : List FctEntry) (md : ModuleData) :
    (es.foldl describe md).callGraph = md.callGraph := by
  induction es generalizing md with
  | nil => rfl
  | cons e es ih => exact ih _

theorem foldl_describe_allocated (es : List FctEntry) (md : ModuleData) :
    (es.foldl describe md).allocated = md.allocated := by
  induction es generalizing md with
  | nil => rfl
  | cons e es ih => exact ih _

/-- A record is counted under the flag its string stands for. -/
theorem data_flags (e : FctEntry) : e.data.flags.toNat = flagToInt e.flag :=
  UInt32.toNat_ofNat_of_lt' (flagToInt_lt e.flag)

theorem data_isInit (e : FctEntry) : e.data.flags = fctInit ↔ e.flag = "Init" := by
  rw [← UInt32.toNat_inj, data_flags]
  unfold flagToInt fctInit
  repeat' split
  all_goals simp_all

theorem data_isFini (e : FctEntry) : e.data.flags = fctFini ↔ e.flag = "Fini" := by
  rw [← UInt32.toNat_inj, data_flags]
  unfold flagToInt fctFini
  repeat' split
  all_goals simp_all

theorem foldl_describe_counts (es : List FctEntry) (md : ModuleData) :
    (es.foldl describe md).nbEntrypointInits =
        md.nbEntrypointInits + es.countP (·.flag = "Init") ∧
      (es.foldl describe md).nbEntrypointFinis =
        md.nbEntrypointFinis + es.countP (·.flag = "Fini") := by
  induction es generalizing md with
  | nil => exact ⟨rfl, rfl⟩
  | cons e es ih =>
    obtain ⟨hinits, hfinis⟩ := ih (describe md e)
    have hone : (describe md e).nbEntrypointInits =
          md.nbEntrypointInits + (if e.data.flags = fctInit then 1 else 0) ∧
        (describe md e).nbEntrypointFinis =
          md.nbEntrypointFinis + (if e.data.flags = fctFini then 1 else 0) := ⟨rfl, rfl⟩
    rw [List.foldl_cons, hinits, hfinis, hone.1, hone.2, List.countP_cons, List.countP_cons]
    simp only [data_isInit, data_isFini, decide_eq_true_eq]
    omega

theorem foldl_addCallees_functions (l : List (Nat × List Nat)) (md : ModuleData) :
    (l.foldl addCallees md).functions = md.functions := by
  induction l generalizing md with
  | nil => rfl
  | cons e l ih => exact ih _

theorem foldl_addCallees_frame (l : List (Nat × List Nat)) (md : ModuleData) :
    (l.foldl addCallees md).allocated = md.allocated ∧
      (l.foldl addCallees md).nbEntrypointInits = md.nbEntrypointInits ∧
      (l.foldl addCallees md).nbEntrypointFinis = md.nbEntrypointFinis := by
  induction l generalizing md with
  | nil => exact ⟨rfl, rfl, rfl⟩
  | cons e l ih => exact ih _

theorem foldl_addCallees_callGraph (l : List (Nat × List Nat)) (md : ModuleData) :
    (l.foldl addCallees md).callGraph =
      modifyAll Prod.fst (fun e _ => some (setEdges (List.replicate md.nbFunctions false) e.2)) l
        md.callGraph := by
  induction l generalizing md with
  | nil => rfl
  | cons e l ih =>
    rw [List.foldl_cons, ih (addCallees md e)]
    refine congrArg (modifyAll Prod.fst _ l) ?_
    exact List.set_eq_modify _ e.1 md.callGraph

/-- Updates of function slots leave the rest of the module alone. -/
theorem foldl_updateFunction {α : Type} (key : α → Nat) (upd : α → FunctionData → FunctionData)
    (l : List α) (md : ModuleData) :
    let md' := l.foldl (fun md a => updateFunction md (key a) (upd a)) md
    md'.functions = modifyAll key upd l md.functions ∧ md'.callGraph = md.callGraph ∧
      md'.allocated = md.allocated ∧ md'.nbEntrypointInits = md.nbEntrypointInits ∧
      md'.nbEntrypointFinis = md.nbEntrypointFinis := by
  induction l generalizing md with
  | nil => exact ⟨rfl, rfl, rfl, rfl, rfl⟩
  | cons a l ih =>
    obtain ⟨hf, hc, ha, hi, hn⟩ := ih (updateFunction md (key a) (upd a))
    refine ⟨?_, ?_, ?_, ?_, ?_⟩
    · rw [List.foldl_cons, hf, updateFunction_functions]
      rfl
    · rw [List.foldl_cons, hc, updateFunction_callGraph]
    · rw [List.foldl_cons, ha, updateFunction_allocated]
    · rw [List.foldl_cons, hi]
      unfold updateFunction
      split <;> rfl
    · rw [List.foldl_cons, hn]
      unfold updateFunction
      split <;> rfl

theorem addSuccs_controlFlowGraph (fd : FunctionData) (s : Nat × List Nat) :
    (addSuccs fd s).controlFlowGraph = fd.controlFlowGraph.modify s.1 fun row =>
      some (setEdges (row.getD (List.replicate fd.nbBlocks false)) s.2) := by
  change fd.controlFlowGraph.set s.1 (some (setEdges (fd.cfgRow s.1) s.2)) = _
  rw [List.modify_eq_set_getElem?, FunctionData.cfgRow]
  cases h : fd.controlFlowGraph[s.1]? with
  | none => simp [List.set_eq_of_length_le (List.getElem?_eq_none_iff.mp h)]
  | some row => simp

theorem foldl_addSuccs (l : List (Nat × List Nat)) (fd : FunctionData) :
    (l.foldl addSuccs fd).controlFlowGraph =
        modifyAll Prod.fst
          (fun s row => some (setEdges (row.getD (List.replicate fd.nbBlocks false)) s.2)) l
          fd.controlFlowGraph ∧
      (l.foldl addSuccs fd).immediatePostDominator = fd.immediatePostDominator ∧
      (l.foldl addSuccs fd).name = fd.name ∧ (l.foldl addSuccs fd).flags = fd.flags := by
  induction l generalizing fd with
  | nil => exact ⟨rfl, rfl, rfl, rfl⟩
  | cons s l ih =>
    obtain ⟨hcfg, hrest⟩ := ih (addSuccs fd s)
    refine ⟨?_, hrest⟩
    rw [List.foldl_cons, hcfg, addSuccs_controlFlowGraph, addSuccs_nbBlocks]
    rfl

/-- The tuples about one function, folded into its slot. -/
theorem foldl_setIpd (l : List IpdTuple) (fd : FunctionData) :
    let fd' := l.foldl (fun fd p => fd.setIpd p.block (UInt32.ofNat p.ipd)) fd
    fd'.immediatePostDominator =
        modifyAll IpdTuple.block (fun p _ => UInt32.ofNat p.ipd) l fd.immediatePostDominator ∧
      fd'.controlFlowGraph = fd.controlFlowGraph ∧ fd'.name = fd.name ∧ fd'.flags = fd.flags := by
  induction l generalizing fd with
  | nil => exact ⟨rfl, rfl, rfl, rfl⟩
  | cons p l ih =>
    obtain ⟨hipd, hrest⟩ := ih (fd.setIpd p.block (UInt32.ofNat p.ipd))
    refine ⟨?_, hrest⟩
    rw [List.foldl_cons, hipd]
    exact congrArg (modifyAll IpdTuple.block _ l) (List.set_eq_modify _ _ _)

/-- A table of fresh rows, one for each record, has the cells of the records. -/
theorem access_modifyAll {n : Nat} {edges : List (Nat × List Nat)} {table : Table}
    {upd : Nat × List Nat → Option (List Bool) → Option (List Bool)}
    (hedges : EdgesDecodable n edges) (htable : table = List.replicate n none)
    (hupd : ∀ e, upd e none = some (setEdges (List.replicate n false) e.2)) (f g : Nat) :
    Table.access (modifyAll Prod.fst upd edges table) f g = .cell true ↔
      ∃ e ∈ edges, e.1 = f ∧ g ∈ e.2 := by
  unfold Table.access
  by_cases hf : ∃ e ∈ edges, e.1 = f
  · obtain ⟨e, he, rfl⟩ := hf
    have hrow : (modifyAll Prod.fst upd edges table)[e.1]? =
        some (some (setEdges (List.replicate n false) e.2)) := by
      rw [Lib.getElem?_modifyAll_of_mem hedges.nodup he, htable, List.getElem?_replicate,
        if_pos (hedges.source_lt e he), Option.map_some, hupd]
    have hcell := setEdges_replicate (j := g) (hedges.target_lt e he)
    have honly : (∃ e' ∈ edges, e'.1 = e.1 ∧ g ∈ e'.2) ↔ g ∈ e.2 := by
      constructor
      · rintro ⟨e', he', hkey, hg⟩
        rwa [List.inj_on_of_nodup_map hedges.nodup he' he hkey] at hg
      · intro hg
        exact ⟨e, he, rfl, hg⟩
    rw [honly, ← hcell]
    simp only [hrow]
    cases hvalue : (setEdges (List.replicate n false) e.2)[g]? <;> simp
  · have hrow : (modifyAll Prod.fst upd edges table)[f]? = table[f]? := by
      refine Lib.getElem?_modifyAll_of_notMem ?_
      simpa using hf
    have hlisted : ¬ ∃ e ∈ edges, e.1 = f ∧ g ∈ e.2 :=
      fun ⟨e, he, hkey, _⟩ => hf ⟨e, he, hkey⟩
    rw [hrow, htable, List.getElem?_replicate]
    split <;> simp_all

/-! ### The module a table is decoded into -/

namespace Tables

variable {t : Tables}

/-- The function section folded into an empty module. -/
def described (t : Tables) (hn : t.fcts.length < 2 ^ 32) : ModuleData :=
  (t.fcts.mergeSort FctEntry.le).foldl describe (ModuleData.empty.allocate _ hn)

/-- All sections folded, in the order they are sent. -/
def decoded (t : Tables) (hn : t.fcts.length < 2 ^ 32) : ModuleData :=
  t.sentIpd.foldl addIpd (t.sentBlocks.foldl addBlocks
    (t.callgraph.foldl addCallees (t.described hn)))

theorem described_nbFunctions (t : Tables) (hn : t.fcts.length < 2 ^ 32) :
    (t.described hn).nbFunctions = t.fcts.length := by
  rw [ModuleData.nbFunctions, described, foldl_describe_functions, Lib.modifyAll_length]
  exact List.length_replicate

theorem described_callGraph (t : Tables) (hn : t.fcts.length < 2 ^ 32) :
    (t.described hn).callGraph = List.replicate t.fcts.length none :=
  foldl_describe_callGraph _ _

theorem described_allocated (t : Tables) (hn : t.fcts.length < 2 ^ 32) :
    (t.described hn).allocated = true :=
  foldl_describe_allocated _ _

theorem Shaped.ids_nodup (h : t.Shaped) : (t.fcts.map FctEntry.id).Nodup :=
  h.ids.nodup_iff.mpr List.nodup_range

theorem Shaped.id_lt (h : t.Shaped) {e : FctEntry} (he : e ∈ t.fcts) : e.id < t.fcts.length :=
  List.mem_range.mp (h.ids.mem_iff.mp (List.mem_map_of_mem he))

theorem Shaped.exists_id (h : t.Shaped) {f : Nat} (hf : f < t.fcts.length) :
    ∃ e ∈ t.fcts, e.id = f :=
  List.mem_map.mp (h.ids.mem_iff.mpr (List.mem_range.mpr hf))

/-- Distinct keys below a bound are no more than the bound. -/
theorem nodup_length_le {l : List Nat} {n : Nat} (hl : l.Nodup) (hlt : ∀ k ∈ l, k < n) :
    l.length ≤ n := by
  have hsub : l ⊆ List.range n := fun k hk => List.mem_range.mpr (hlt k hk)
  simpa using (List.subperm_of_subset hl hsub).length_le

theorem Shaped.callgraph_decodable (h : t.Shaped) (hfits : t.Fits) :
    t.callgraph.length < 2 ^ 32 ∧ EdgesDecodable t.fcts.length t.callgraph := by
  have hn := hfits.nbFunctions
  have hlen : t.callgraph.length ≤ t.fcts.length := by
    rw [← List.length_map Prod.fst]
    exact nodup_length_le h.callers_nodup (by simpa using fun a l ha => h.callers_lt (a, l) ha)
  refine ⟨by omega, h.callers_nodup, fun e he => ?_, h.callers_lt, h.callees_lt⟩
  exact ⟨Nat.lt_trans (h.callers_lt e he) hn, hfits.nbCallees e he,
    fun g hg => Nat.lt_trans (h.callees_lt e he g hg) hn⟩

theorem Shaped.block_decodable (h : t.Shaped) (hfits : t.Fits) {e : BlockEntry} (he : e ∈ t.bb) :
    e.Packable ∧ EdgesDecodable e.numBlocks e.succs := by
  have hn := hfits.nbBlocks e he
  have hlen : e.succs.length ≤ e.numBlocks := by
    rw [← List.length_map Prod.fst]
    exact nodup_length_le (h.succs_nodup e he)
      (by simpa using fun a l ha => h.succs_source_lt e he (a, l) ha)
  have hpack : ∀ s ∈ e.succs, EdgesPackable s := fun s hs =>
    ⟨Nat.lt_trans (h.succs_source_lt e he s hs) hn, hfits.nbSuccs e he s hs,
      fun b hb => Nat.lt_trans (h.succs_target_lt e he s hs b hb) hn⟩
  exact ⟨⟨Nat.lt_trans (h.blocks_lt e he) hfits.nbFunctions, hn, by omega, hpack⟩,
    h.succs_nodup e he, hpack, h.succs_source_lt e he, h.succs_target_lt e he⟩

theorem Shaped.ipd_packable (h : t.Shaped) (hfits : t.Fits) {p : IpdTuple} (hp : p ∈ t.bbIpd) :
    p.Packable := by
  obtain ⟨e, he, hfct, hblock⟩ := h.ipd_block p hp
  exact ⟨hfct ▸ Nat.lt_trans (h.blocks_lt e he) hfits.nbFunctions,
    Nat.lt_trans hblock (hfits.nbBlocks e he), hfits.ipds p hp⟩

/-- The slots once the function and call graph sections were read. -/
theorem described_functions (t : Tables) (hn : t.fcts.length < 2 ^ 32) :
    (t.callgraph.foldl addCallees (t.described hn)).functions =
      modifyAll FctEntry.id (fun e _ => e.data) (t.fcts.mergeSort FctEntry.le)
        (List.replicate t.fcts.length .blank) := by
  rw [foldl_addCallees_functions, described, foldl_describe_functions]
  rfl

theorem Shaped.sorted_nodup (h : t.Shaped) :
    ((t.fcts.mergeSort FctEntry.le).map FctEntry.id).Nodup :=
  ((List.mergeSort_perm t.fcts _).map FctEntry.id).nodup_iff.mpr h.ids_nodup

theorem Shaped.described_slot (h : t.Shaped) {e : FctEntry} (he : e ∈ t.fcts) :
    (modifyAll FctEntry.id (fun e _ => e.data) (t.fcts.mergeSort FctEntry.le)
      (List.replicate t.fcts.length .blank))[e.id]? = some e.data := by
  rw [Lib.getElem?_modifyAll_of_mem h.sorted_nodup (List.mem_mergeSort.mpr he),
    List.getElem?_replicate, if_pos (h.id_lt he), Option.map_some]

theorem sentBlocks_subset {e : BlockEntry} (he : e ∈ t.sentBlocks) : e ∈ t.bb := by
  unfold sentBlocks at he
  split at he
  · exact he
  · cases he

theorem Shaped.sentBlocks_nodup (h : t.Shaped) : (t.sentBlocks.map BlockEntry.fct).Nodup := by
  unfold sentBlocks
  split
  · exact h.blocks_nodup
  · exact List.nodup_nil

/-- The slot of function `f` after all sections, from the slot its function
record left. -/
def slot (t : Tables) (f : Nat) (fd : FunctionData) : FunctionData :=
  (t.sentIpd.filter (·.fct = f)).foldl (fun fd p => fd.setIpd p.block (UInt32.ofNat p.ipd))
    ((t.sentBlocks.filter (·.fct = f)).foldl (fun fd e => e.install fd) fd)

theorem Shaped.decoded_slot (h : t.Shaped) (hn : t.fcts.length < 2 ^ 32) {e : FctEntry}
    (he : e ∈ t.fcts) : (t.decoded hn).functions[e.id]? = some (t.slot e.id e.data) := by
  have hipd := foldl_updateFunction IpdTuple.fct
    (fun p fd => fd.setIpd p.block (UInt32.ofNat p.ipd)) t.sentIpd
  have hblocks := foldl_updateFunction BlockEntry.fct BlockEntry.install t.sentBlocks
  unfold decoded
  rw [show addIpd = fun md p => updateFunction md p.fct
      (fun fd => fd.setIpd p.block (UInt32.ofNat p.ipd)) from rfl, (hipd _).1,
    show addBlocks = fun md e => updateFunction md e.fct e.install from rfl, (hblocks _).1,
    described_functions, Lib.getElem?_modifyAll, Lib.getElem?_modifyAll, h.described_slot he]
  rfl

theorem slot_name_flags (t : Tables) (f : Nat) (fd : FunctionData) :
    (t.slot f fd).name = fd.name ∧ (t.slot f fd).flags = fd.flags := by
  have hinstall : ∀ (l : List BlockEntry) (fd : FunctionData),
      (l.foldl (fun fd e => e.install fd) fd).name = fd.name ∧
        (l.foldl (fun fd e => e.install fd) fd).flags = fd.flags := by
    intro l
    induction l with
    | nil => exact fun fd => ⟨rfl, rfl⟩
    | cons e l ih =>
      intro fd
      obtain ⟨hname, hflags⟩ := ih (e.install fd)
      obtain ⟨-, -, hn, hf⟩ := foldl_addSuccs e.succs (fd.allocateBlocks e.numBlocks)
      exact ⟨hname.trans hn, hflags.trans hf⟩
  obtain ⟨-, -, hname, hflags⟩ := foldl_setIpd (t.sentIpd.filter (·.fct = f))
    ((t.sentBlocks.filter (·.fct = f)).foldl (fun fd e => e.install fd) fd)
  exact ⟨hname.trans (hinstall _ fd).1, hflags.trans (hinstall _ fd).2⟩

theorem Shaped.slot_blocks (h : t.Shaped) (hfits : t.Fits) {e : BlockEntry}
    (he : e ∈ t.sentBlocks) (fd : FunctionData) : BlocksAgree t e (t.slot e.fct fd) := by
  obtain ⟨hipd, hcfg, -, -⟩ := foldl_setIpd (t.sentIpd.filter (·.fct = e.fct)) (e.install fd)
  obtain ⟨hrows, hpd, -, -⟩ := foldl_addSuccs e.succs (fd.allocateBlocks e.numBlocks)
  have hslot : t.slot e.fct fd = (t.sentIpd.filter (·.fct = e.fct)).foldl
      (fun fd p => fd.setIpd p.block (UInt32.ofNat p.ipd)) (e.install fd) := by
    rw [slot, Lib.filter_key_eq_singleton h.sentBlocks_nodup he]
    rfl
  refine ⟨?_, ?_, ?_⟩
  · rw [hslot, FunctionData.nbBlocks, hcfg]
    exact install_nbBlocks e fd
  · intro b b'
    rw [hslot, hcfg, BlockEntry.install, hrows]
    refine access_modifyAll (h.block_decodable hfits (sentBlocks_subset he)).2 rfl (fun s => ?_) b b'
    simp [FunctionData.allocateBlocks, FunctionData.nbBlocks]
  · intro b hb
    rw [hslot, hipd, Lib.getElem?_modifyAll_const, BlockEntry.install, hpd]
    have hzero : (fd.allocateBlocks e.numBlocks).immediatePostDominator[b]? = some 0 := by
      simp [FunctionData.allocateBlocks, hb]
    have hfilter : (t.sentIpd.filter (·.fct = e.fct)).filter (·.block = b) =
        t.sentIpd.filter fun p => p.fct = e.fct ∧ p.block = b := by
      rw [List.filter_filter]
      exact List.filter_congr fun p _ => by simp [Bool.and_comm]
    rw [hzero, hfilter, Option.map_some, lastIpd]
    cases (t.sentIpd.filter fun p => p.fct = e.fct ∧ p.block = b).getLast? <;> rfl

theorem slot_noBlocks {f : Nat} (hf : f ∉ t.sentBlocks.map BlockEntry.fct) (fd : FunctionData) :
    (t.slot f fd).nbBlocks = fd.nbBlocks := by
  have hnone : t.sentBlocks.filter (·.fct = f) = [] := by
    rw [List.filter_eq_nil_iff]
    intro e he
    simp only [decide_eq_true_eq]
    intro hfct
    exact hf (hfct ▸ List.mem_map_of_mem he)
  obtain ⟨-, hcfg, -, -⟩ := foldl_setIpd (t.sentIpd.filter (·.fct = f)) fd
  rw [slot, hnone]
  exact congrArg List.length hcfg

theorem decoded_frame (t : Tables) (hn : t.fcts.length < 2 ^ 32) :
    (t.decoded hn).callGraph = modifyAll Prod.fst
        (fun e _ => some (setEdges (List.replicate t.fcts.length false) e.2)) t.callgraph
        (List.replicate t.fcts.length none) ∧
      (t.decoded hn).nbEntrypointInits = t.fcts.countP (·.flag = "Init") ∧
      (t.decoded hn).nbEntrypointFinis = t.fcts.countP (·.flag = "Fini") := by
  have hipd := foldl_updateFunction IpdTuple.fct
    (fun p fd => fd.setIpd p.block (UInt32.ofNat p.ipd)) t.sentIpd
  have hblocks := foldl_updateFunction BlockEntry.fct BlockEntry.install t.sentBlocks
  have hperm := List.mergeSort_perm t.fcts FctEntry.le
  obtain ⟨-, hcg₁, -, hi₁, hf₁⟩ := hipd (t.sentBlocks.foldl addBlocks (t.callgraph.foldl addCallees (t.described hn)))
  obtain ⟨-, hcg₂, -, hi₂, hf₂⟩ := hblocks (t.callgraph.foldl addCallees (t.described hn))
  obtain ⟨-, hi₃, hf₃⟩ := foldl_addCallees_frame t.callgraph
    (t.described hn)
  obtain ⟨hi₄, hf₄⟩ := foldl_describe_counts (t.fcts.mergeSort FctEntry.le)
    (ModuleData.empty.allocate _ hn)
  refine ⟨?_, ?_, ?_⟩
  · refine hcg₁.trans (hcg₂.trans ?_)
    rw [foldl_addCallees_callGraph, described_callGraph, described_nbFunctions]
  · rw [← hperm.countP_eq]
    exact hi₁.trans (hi₂.trans (hi₃.trans (hi₄.trans (Nat.zero_add _))))
  · rw [← hperm.countP_eq]
    exact hf₁.trans (hf₂.trans (hf₃.trans (hf₄.trans (Nat.zero_add _))))

theorem decoded_nbFunctions (t : Tables) (hn : t.fcts.length < 2 ^ 32) :
    (t.decoded hn).nbFunctions = t.fcts.length := by
  rw [ModuleData.nbFunctions, ← ModuleData.callGraph_length, (t.decoded_frame hn).1]
  simp

theorem Shaped.decoded_agrees (h : t.Shaped) (hfits : t.Fits) :
    Agrees t (t.decoded hfits.nbFunctions) := by
  obtain ⟨hcg, hinits, hfinis⟩ := t.decoded_frame hfits.nbFunctions
  refine ⟨t.decoded_nbFunctions _, ?_, hinits, hfinis, ?_, ?_, ?_⟩
  · intro e he
    obtain ⟨hname, hflags⟩ := t.slot_name_flags e.id e.data
    exact ⟨_, h.decoded_slot _ he, hname, hflags ▸ data_flags e⟩
  · intro f g
    rw [hcg]
    exact access_modifyAll (h.callgraph_decodable hfits).2 rfl (fun _ => rfl) f g
  · intro e he
    obtain ⟨e₀, he₀, hid⟩ := h.exists_id (h.blocks_lt e (sentBlocks_subset he))
    exact ⟨_, hid ▸ h.decoded_slot _ he₀, h.slot_blocks hfits he e₀.data⟩
  · intro f fd hf hfd
    have hlt : f < t.fcts.length := by
      rw [← t.decoded_nbFunctions hfits.nbFunctions]
      exact (List.getElem?_eq_some_iff.mp hfd).1
    obtain ⟨e₀, he₀, rfl⟩ := h.exists_id hlt
    rw [h.decoded_slot _ he₀] at hfd
    obtain rfl := Option.some.inj hfd
    rw [slot_noBlocks hf]
    rfl

/-! ### The packets load -/

/-- The packets of the two function sections. -/
def functionPackets (t : Tables) : List LoadingPacket :=
  [⟨.sectionFunctionId, sizeofString (le32 t.fcts.length ++
      (t.fcts.mergeSort FctEntry.le).flatMap FctEntry.bytes)⟩,
    ⟨.sectionFunctionTransition, sizeofString (le32 t.callgraph.length ++
      t.callgraph.flatMap edgesBytes)⟩]

/-- The packets of the block sections. -/
def blockPackets (t : Tables) : List LoadingPacket :=
  if t.granularityBb then
    t.bb.map (fun e => ⟨.sectionBlockTransition, e.bytes⟩) ++
      [⟨.sectionBlockIpd, sizeofString (le32 t.bbIpd.length ++ t.bbIpd.flatMap IpdTuple.bytes)⟩]
  else []

theorem Shaped.sectionPackets_eq (h : t.Shaped) (hfits : t.Fits) :
    sectionPackets t = some (t.functionPackets ++ t.blockPackets) := by
  have hn := hfits.nbFunctions
  have hfctids := genPackedFctids_eq_some.mpr
    ⟨hn, fun e he => Nat.lt_trans (h.id_lt he) hn, rfl⟩
  obtain ⟨hcount, hedges⟩ := h.callgraph_decodable hfits
  have hcallgraph := genPackedCallgraph_eq_some.mpr ⟨hcount, hedges.packable, rfl⟩
  have hbb := genPackedBb_eq_some.mpr ⟨fun e he => (h.block_decodable hfits he).1, rfl⟩
  have hipd := genPackedBbIpd_eq_some.mpr
    ⟨hfits.nbIpds, fun p hp => h.ipd_packable hfits hp, rfl⟩
  unfold sectionPackets blockPackets functionPackets
  simp only [hfctids, hcallgraph, hbb, hipd, Option.bind_eq_bind, Option.bind_some]
  split <;> simp [Function.comp_def]

theorem loadSections_cons {md md' : ModuleData} {pkt : LoadingPacket}
    (hevent : pkt.event ≠ .moduleEnd) (h : loadSection pkt md = .ok md')
    (rest : List (Option LoadingPacket)) :
    loadSections md (some pkt :: rest) = loadSections md' rest := by
  simp only [loadSections, hevent, if_false, h]

/-- The slots of the functions whose block section is still to come are blank. -/
def BlocksPending (l : List BlockEntry) (md : ModuleData) : Prop :=
  md.allocated = true ∧ (l.map BlockEntry.fct).Nodup ∧
    ∀ e ∈ l, ∃ fd, md.functions[e.fct]? = some fd ∧ fd.nbBlocks = 0

theorem BlocksPending.addBlocks {e : BlockEntry} {l : List BlockEntry} {md : ModuleData}
    (h : BlocksPending (e :: l) md) : BlocksPending l (addBlocks md e) := by
  obtain ⟨halloc, hnodup, hall⟩ := h
  obtain ⟨hnot, hnodup⟩ := List.nodup_cons.mp hnodup
  refine ⟨(updateFunction_allocated md e.fct e.install).trans halloc, hnodup, fun e' he' => ?_⟩
  obtain ⟨fd, hfd, hzero⟩ := hall e' (List.mem_cons_of_mem e he')
  have hne : e.fct ≠ e'.fct := fun heq => hnot (heq ▸ List.mem_map_of_mem he')
  refine ⟨fd, ?_, hzero⟩
  rw [Prelink.addBlocks, updateFunction_functions, List.getElem?_modify, hfd]
  simp [hne]

theorem Shaped.loadSections_bb (h : t.Shaped) (hfits : t.Fits) :
    ∀ (l : List BlockEntry) (md : ModuleData) (rest : List (Option LoadingPacket)),
      (∀ e ∈ l, e ∈ t.bb) → BlocksPending l md →
      loadSections md
          (l.map (fun e => some ⟨.sectionBlockTransition, BlockEntry.bytes e⟩) ++ rest) =
        loadSections (l.foldl addBlocks md) rest := by
  intro l
  induction l with
  | nil => intro md rest _ _; rfl
  | cons e l ih =>
    intro md rest hmem hpend
    have he := hmem e List.mem_cons_self
    obtain ⟨hpack, hsuccs⟩ := h.block_decodable hfits he
    obtain ⟨fd, hfd, hzero⟩ := hpend.2.2 e List.mem_cons_self
    have hload : loadSection ⟨.sectionBlockTransition, e.bytes⟩ md = .ok (addBlocks md e) :=
      loadSectionBlockTransition_encoded hpend.1 hfd hzero hpack (h.numBlocks_pos e he) hsuccs
    rw [List.map_cons, List.cons_append, loadSections_cons (by simp) hload]
    exact ih _ rest (fun e' he' => hmem e' (List.mem_cons_of_mem e he')) hpend.addBlocks

theorem Shaped.blocksPending (h : t.Shaped) (hn : t.fcts.length < 2 ^ 32) :
    BlocksPending t.bb (t.callgraph.foldl addCallees (t.described hn)) := by
  refine ⟨?_, h.blocks_nodup, fun e he => ?_⟩
  · rw [(foldl_addCallees_frame _ _).1, described_allocated]
  · obtain ⟨e₀, he₀, hid⟩ := h.exists_id (h.blocks_lt e he)
    refine ⟨e₀.data, ?_, rfl⟩
    rw [described_functions, ← hid]
    exact h.described_slot he₀

/-- Every tuple finds its block once the block sections were read. -/
theorem Shaped.ipd_names (h : t.Shaped) (hn : t.fcts.length < 2 ^ 32) {p : IpdTuple}
    (hp : p ∈ t.bbIpd) : p.Names (t.bb.foldl addBlocks (t.callgraph.foldl addCallees (t.described hn))) := by
  obtain ⟨e, he, hfct, hblock⟩ := h.ipd_block p hp
  obtain ⟨e₀, he₀, hid⟩ := h.exists_id (h.blocks_lt e he)
  refine ⟨e.install e₀.data, ?_, by rwa [install_nbBlocks]⟩
  have hfunctions := (foldl_updateFunction BlockEntry.fct BlockEntry.install t.bb
    (t.callgraph.foldl addCallees (t.described hn))).1
  rw [show addBlocks = fun md e => updateFunction md e.fct e.install from rfl, hfunctions,
    described_functions, ← hfct, Lib.getElem?_modifyAll_of_mem h.blocks_nodup he, ← hid,
    h.described_slot he₀]
  rfl

theorem Shaped.loadSections_functions (h : t.Shaped) (hfits : t.Fits)
    (rest : List (Option LoadingPacket)) :
    loadSections .empty (t.functionPackets.map some ++ rest) =
      loadSections (t.callgraph.foldl addCallees (t.described hfits.nbFunctions)) rest := by
  have hn := hfits.nbFunctions
  have hmem : ∀ {e}, e ∈ t.fcts.mergeSort FctEntry.le ↔ e ∈ t.fcts := List.mem_mergeSort
  have hnb := t.described_nbFunctions hn
  obtain ⟨hcount, hedges⟩ := h.callgraph_decodable hfits
  have hids : loadSection ⟨.sectionFunctionId, sizeofString (le32 t.fcts.length ++
      (t.fcts.mergeSort FctEntry.le).flatMap FctEntry.bytes)⟩ .empty = .ok (t.described hn) :=
    loadSectionFunctionId_encoded hn (List.length_mergeSort t.fcts)
      (fun e he => h.id_lt (hmem.mp he)) (fun e he => h.names e (hmem.mp he)) [0]
  have htrans : loadSection ⟨.sectionFunctionTransition, sizeofString (le32 t.callgraph.length ++
      t.callgraph.flatMap edgesBytes)⟩ (t.described hn) =
      .ok (t.callgraph.foldl addCallees (t.described hn)) := by
    refine loadSectionFunctionTransition_encoded (t.described_allocated hn) ?_ hcount ?_ ?_ [0]
    · rw [hnb]
      exact List.length_pos_iff.mpr h.nonempty
    · rw [hnb]
      exact hedges
    · intro e he
      simp [described_callGraph, hedges.source_lt e he]
  change loadSections .empty (some _ :: some _ :: rest) = _
  rw [loadSections_cons (by simp) hids, loadSections_cons (by simp) htrans]

theorem Shaped.loadSections_packets (h : t.Shaped) (hfits : t.Fits)
    (rest : List (Option LoadingPacket)) :
    loadSections .empty ((t.functionPackets ++ t.blockPackets).map some ++
        some ⟨.moduleEnd, []⟩ :: rest) = .loaded (t.decoded hfits.nbFunctions) rest := by
  rw [List.map_append, List.append_assoc, h.loadSections_functions hfits]
  unfold blockPackets decoded sentBlocks sentIpd
  split
  · have hipd : loadSection ⟨.sectionBlockIpd, sizeofString (le32 t.bbIpd.length ++
        t.bbIpd.flatMap IpdTuple.bytes)⟩ (t.bb.foldl addBlocks
          (t.callgraph.foldl addCallees (t.described hfits.nbFunctions))) = .ok _ :=
      loadSectionBlockIpd_encoded
        (((foldl_updateFunction BlockEntry.fct BlockEntry.install t.bb _).2.2.1).trans
          (h.blocksPending hfits.nbFunctions).1)
        hfits.nbIpds (fun p hp => h.ipd_packable hfits hp)
        (fun p hp => h.ipd_names hfits.nbFunctions hp) [0]
    rw [List.map_append, List.map_map, List.append_assoc]
    refine (h.loadSections_bb hfits t.bb _ _ (fun e he => he)
      (h.blocksPending hfits.nbFunctions)).trans ?_
    exact loadSections_cons (by simp) hipd _
  · rfl

end Tables

/-- Whatever the table, its packets exist, they load, and the module they leave
agrees with the table. -/
theorem decoded_sections_agree {t : Tables} (hshape : t.Shaped) (hfits : t.Fits) :
    ∃ pkts md, sectionPackets t = some pkts ∧
      (∀ rest, loadSections .empty (pkts.map some ++ some ⟨.moduleEnd, []⟩ :: rest) =
        .loaded md rest) ∧ Agrees t md :=
  ⟨_, _, hshape.sectionPackets_eq hfits, hshape.loadSections_packets hfits,
    hshape.decoded_agrees hfits⟩

/-- `main` has two blocks and calls `puts`. -/
def oneCaller : Tables where
  fcts := [⟨[112, 117, 116, 115], 1, "External"⟩, ⟨[109, 97, 105, 110], 0, "Main"⟩]
  callgraph := [(0, [1])]
  granularityBb := true
  bb := [⟨0, 2, [(0, [1])]⟩]
  bbIpd := [⟨0, 0, 1, 1⟩]

theorem oneCaller_shaped : oneCaller.Shaped where
  nonempty := by decide
  ids := by decide
  names := by decide
  callers_nodup := by decide
  callers_lt := by decide
  callees_lt := by decide
  blocks_nodup := by decide
  blocks_lt := by decide
  numBlocks_pos := by decide
  succs_nodup := by decide
  succs_source_lt := by decide
  succs_target_lt := by decide
  ipd_block := by decide

theorem oneCaller_fits : oneCaller.Fits := by
  constructor <;> decide

theorem decoded_sections_agree_one_caller :
    ∃ pkts md, sectionPackets oneCaller = some pkts ∧
      (∀ rest, loadSections .empty (pkts.map some ++ some ⟨.moduleEnd, []⟩ :: rest) =
        .loaded md rest) ∧ Agrees oneCaller md :=
  decoded_sections_agree oneCaller_shaped oneCaller_fits

end Picon.Prelink
