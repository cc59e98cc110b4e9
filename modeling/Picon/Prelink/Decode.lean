import Picon.Lib.KeyedFold
import Picon.Prelink.Encode
import Picon.Monitor.Loaded

/-!
# The monitor decodes what prelink encodes

Each section decoder is run on the bytes of the matching generator. A record is
decoded in every state met on the way, so a section folds its records into the
module; what the folds amount to is then read off table by table.
-/

namespace Picon.Prelink

open Lib (le32 readLe32 readCString forRecords forRecords_encoded modifyAll)
open Monitor

/-! ### Reading back words and names -/

theorem readWord_le32 {n : Nat} (hn : n < 2 ^ 32) (rest : Bytes) :
    readWord (le32 n ++ rest) = .ok n := by
  simp [readWord, Lib.readLe32_le32 hn]

theorem readName_append {s : Bytes} (hs : 0 ∉ s) (rest : Bytes) :
    readName (s ++ 0 :: rest) = .ok s := by
  simp [readName, Lib.readCString_append hs]

theorem drop_two_words (a b : Nat) (rest : Bytes) :
    (le32 a ++ (le32 b ++ rest)).drop 8 = rest := rfl

theorem drop_three_words (a b c : Nat) (rest : Bytes) :
    (le32 a ++ (le32 b ++ (le32 c ++ rest))).drop 12 = rest := rfl

theorem drop_four_words (a b c d : Nat) (rest : Bytes) :
    (le32 a ++ (le32 b ++ (le32 c ++ (le32 d ++ rest)))).drop 16 = rest := rfl

theorem words_length (l : List Nat) : (l.flatMap le32).length = l.length * 4 := by
  induction l with
  | nil => rfl
  | cons n l ih =>
    simp only [List.flatMap_cons, List.length_append, Lib.le32_length, ih, List.length_cons]
    omega

/-! ### Rows of an adjacency table -/

/-- The row after a list of targets was set in it. -/
def setEdges (row : List Bool) (targets : List Nat) : List Bool :=
  targets.foldl (fun row t => row.set t true) row

@[simp] theorem setEdges_length (row : List Bool) (targets : List Nat) :
    (setEdges row targets).length = row.length := by
  unfold setEdges
  induction targets generalizing row with
  | nil => rfl
  | cons t targets ih => rw [List.foldl_cons, ih, List.length_set]

theorem setEdges_true {row : List Bool} {targets : List Nat} {j : Nat} (hj : j < row.length) :
    (setEdges row targets)[j]? = some true ↔ row[j]? = some true ∨ j ∈ targets := by
  unfold setEdges
  induction targets generalizing row with
  | nil => simp
  | cons t targets ih =>
    rw [List.foldl_cons, ih (by rw [List.length_set]; exact hj), List.getElem?_set]
    by_cases ht : t = j
    · subst ht
      simp [hj]
    · simp [ht, Ne.symm ht]

theorem edgeLoop_encoded {width code : Nat} {targets : List Nat} {row : List Bool}
    (hlt : ∀ t ∈ targets, t < width) (hword : ∀ t ∈ targets, t < 2 ^ 32) (rest : Bytes) :
    edgeLoop width code targets.length (targets.flatMap le32 ++ rest) row =
      .ok (setEdges row targets) := by
  have hloop : forRecords (edgeRecord width code) targets.length (targets.flatMap le32 ++ rest) row =
      .ok (rest, targets.foldl (fun row t => row.set t true) row) := by
    refine forRecords_encoded (fun l _ => ∀ t ∈ l, t < width ∧ t < 2 ^ 32) ?_ ?_ targets rest row
      fun t ht => ⟨hlt t ht, hword t ht⟩
    · intro t l rest row h
      obtain ⟨hw, hb⟩ := h t List.mem_cons_self
      simp [edgeRecord, readWord_le32 hb, bind, Except.bind, Nat.not_le.mpr hw]
    · intro t l row h t' ht'
      exact h t' (List.mem_cons_of_mem t ht')
  unfold edgeLoop
  rw [hloop]
  rfl

/-- A cell of a fresh row in which a list of targets was set. -/
theorem setEdges_replicate {n j : Nat} {targets : List Nat} (hlt : ∀ t ∈ targets, t < n) :
    (setEdges (List.replicate n false) targets)[j]? = some true ↔ j ∈ targets := by
  by_cases hj : j < n
  · rw [setEdges_true (by rwa [List.length_replicate])]
    simp [hj]
  · rw [List.getElem?_eq_none (by simpa using Nat.not_lt.mp hj)]
    simpa using fun hmem => hj (hlt j hmem)

/-! ### The function section -/

/-- The slot a function record leaves. -/
def FctEntry.data (e : FctEntry) : FunctionData := .described e.name (flagToInt e.flag)

def describe (md : ModuleData) (e : FctEntry) : ModuleData :=
  (md.setFunction e.id e.data).countEntrypoint e.data

theorem functionIdRecord_encoded {e : FctEntry} {md : ModuleData} (hid : e.id < md.nbFunctions)
    (hword : e.id < 2 ^ 32) (hname : 0 ∉ e.name) (rest : Bytes) :
    functionIdRecord (e.bytes ++ rest) md = .ok (rest, describe md e) := by
  have hbytes : e.bytes ++ rest =
      le32 e.id ++ (le32 (flagToInt e.flag) ++ (e.name ++ 0 :: rest)) := by
    simp [FctEntry.bytes]
  have hrest : (le32 e.id ++ (le32 (flagToInt e.flag) ++ (e.name ++ 0 :: rest))).drop
      (8 + e.name.length + 1) = rest := by
    rw [Nat.add_assoc, ← List.drop_drop, drop_two_words, ← List.drop_drop, List.drop_left]
    rfl
  rw [hbytes]
  simp only [functionIdRecord, readWord_le32 hword, bind, Except.bind, Nat.not_le.mpr hid, if_false,
    drop_two_words, readName_append hname, Lib.drop_le32, readWord_le32 (flagToInt_lt _), hrest]
  rfl

theorem loadSectionFunctionId_encoded {es : List FctEntry} {n : Nat} (hn : n < 2 ^ 32)
    (hlen : es.length = n) (hid : ∀ e ∈ es, e.id < n) (hname : ∀ e ∈ es, 0 ∉ e.name)
    (rest : Bytes) :
    loadSectionFunctionId (le32 n ++ es.flatMap FctEntry.bytes ++ rest) .empty =
      .ok (es.foldl describe (ModuleData.empty.allocate n hn)) := by
  have hloop : forRecords functionIdRecord n (es.flatMap FctEntry.bytes ++ rest)
      (ModuleData.empty.allocate n hn) =
      .ok (rest, es.foldl describe (ModuleData.empty.allocate n hn)) := by
    subst hlen
    refine forRecords_encoded
      (fun l md => md.nbFunctions = es.length ∧ ∀ e ∈ l, e.id < es.length ∧ 0 ∉ e.name) ?_ ?_ es
      rest _ ⟨by simp [ModuleData.allocate, ModuleData.nbFunctions],
        fun e he => ⟨hid e he, hname e he⟩⟩
    · rintro e l rest md ⟨hmd, hall⟩
      obtain ⟨hlt, hnul⟩ := hall e List.mem_cons_self
      exact functionIdRecord_encoded (hmd ▸ hlt) (Nat.lt_trans hlt hn) hnul rest
    · rintro e l md ⟨hmd, hall⟩
      exact ⟨(ModuleData.setFunction_nbFunctions md e.id e.data).trans hmd,
        fun e' he' => hall e' (List.mem_cons_of_mem e he')⟩
  unfold loadSectionFunctionId
  rw [if_neg (by decide), List.append_assoc]
  split
  · rename_i hnone
    rw [Lib.readLe32_le32 hn] at hnone
    cases hnone
  · rename_i m hsome
    rw [Lib.readLe32_le32 hn] at hsome
    obtain rfl := Option.some.inj hsome
    rw [Lib.drop_le32]
    simp only [hloop, bind, Except.bind]

/-! ### The call graph section -/

def addCallees (md : ModuleData) (e : Nat × List Nat) : ModuleData :=
  md.setCallGraphRow e.1 (setEdges (List.replicate md.nbFunctions false) e.2) (by simp)

/-- The cursor past an `id, count, ids` record. -/
theorem drop_edges (e : Nat × List Nat) (rest : Bytes) :
    (le32 e.1 ++ (le32 e.2.length ++ (e.2.flatMap le32 ++ rest))).drop (8 + e.2.length * 4) =
      rest := by
  rw [← List.drop_drop, drop_two_words, ← words_length, List.drop_left]

theorem functionTransitionRecord_encoded {e : Nat × List Nat} {md : ModuleData}
    (hid : e.1 < md.nbFunctions) (hfresh : md.callGraph[e.1]?.join = none)
    (hpack : EdgesPackable e) (hlt : ∀ g ∈ e.2, g < md.nbFunctions) (rest : Bytes) :
    functionTransitionRecord (edgesBytes e ++ rest) md = .ok (rest, addCallees md e) := by
  obtain ⟨hword, hcount, hwords⟩ := hpack
  have hbytes : edgesBytes e ++ rest =
      le32 e.1 ++ (le32 e.2.length ++ (e.2.flatMap le32 ++ rest)) := by
    simp [edgesBytes]
  rw [hbytes]
  simp only [functionTransitionRecord, readWord_le32 hword, bind, Except.bind,
    Nat.not_le.mpr hid, if_false, hfresh, Option.isSome_none, Bool.false_eq_true, Lib.drop_le32,
    readWord_le32 hcount, drop_two_words, drop_edges]
  split
  · rename_i err herr
    rw [edgeLoop_encoded hlt hwords] at herr
    cases herr
  · rename_i row hrow
    rw [edgeLoop_encoded hlt hwords] at hrow
    obtain rfl := Except.ok.inj hrow
    rfl

/-- The records of a section whose ids are those of a Python dictionary. -/
structure EdgesDecodable (n : Nat) (edges : List (Nat × List Nat)) : Prop where
  nodup : (edges.map Prod.fst).Nodup
  packable : ∀ e ∈ edges, EdgesPackable e
  source_lt : ∀ e ∈ edges, e.1 < n
  target_lt : ∀ e ∈ edges, ∀ g ∈ e.2, g < n

theorem EdgesDecodable.tail {n : Nat} {e : Nat × List Nat} {l : List (Nat × List Nat)}
    (h : EdgesDecodable n (e :: l)) : EdgesDecodable n l :=
  ⟨(List.nodup_cons.mp h.nodup).2, (List.forall_mem_cons.mp h.packable).2,
    (List.forall_mem_cons.mp h.source_lt).2, (List.forall_mem_cons.mp h.target_lt).2⟩

/-- A later record never names the row of an earlier one. -/
theorem EdgesDecodable.source_ne {n : Nat} {e e' : Nat × List Nat} {l : List (Nat × List Nat)}
    (h : EdgesDecodable n (e :: l)) (he' : e' ∈ l) : e.1 ≠ e'.1 := by
  intro heq
  exact (List.nodup_cons.mp h.nodup).1 (heq ▸ List.mem_map_of_mem he')

theorem loadSectionFunctionTransition_encoded {edges : List (Nat × List Nat)} {md : ModuleData}
    (halloc : md.allocated = true) (hpos : 0 < md.nbFunctions) (hcount : edges.length < 2 ^ 32)
    (hedges : EdgesDecodable md.nbFunctions edges)
    (hfresh : ∀ e ∈ edges, md.callGraph[e.1]?.join = none) (rest : Bytes) :
    loadSectionFunctionTransition (le32 edges.length ++ edges.flatMap edgesBytes ++ rest) md =
      .ok (edges.foldl addCallees md) := by
  have hloop : forRecords functionTransitionRecord edges.length (edges.flatMap edgesBytes ++ rest)
      md = .ok (rest, edges.foldl addCallees md) := by
    refine forRecords_encoded (fun l md => EdgesDecodable md.nbFunctions l ∧
      ∀ e ∈ l, md.callGraph[e.1]?.join = none) ?_ ?_ edges rest md ⟨hedges, hfresh⟩
    · rintro e l rest md ⟨hl, hnone⟩
      exact functionTransitionRecord_encoded (hl.source_lt e List.mem_cons_self)
        (hnone e List.mem_cons_self) (hl.packable e List.mem_cons_self)
        (hl.target_lt e List.mem_cons_self) rest
    · rintro e l md ⟨hl, hnone⟩
      refine ⟨hl.tail, fun e' he' => ?_⟩
      rw [addCallees, ModuleData.setCallGraphRow_callGraph,
        List.getElem?_set_ne (hl.source_ne he')]
      exact hnone e' (List.mem_cons_of_mem e he')
  unfold loadSectionFunctionTransition
  simp only [halloc, Bool.not_true, Bool.false_eq_true, if_false, Nat.ne_of_gt hpos,
    List.append_assoc, readWord_le32 hcount, Lib.drop_le32, hloop, bind, Except.bind]

/-! ### The block sections -/

def addSuccs (fd : FunctionData) (s : Nat × List Nat) : FunctionData :=
  fd.setCfgRow s.1 (setEdges (fd.cfgRow s.1) s.2) (by simp [FunctionData.cfgRow_length])

/-- The slot of a function once its block section was read. -/
def BlockEntry.install (e : BlockEntry) (fd : FunctionData) : FunctionData :=
  e.succs.foldl addSuccs (fd.allocateBlocks e.numBlocks)

@[simp] theorem addSuccs_nbBlocks (fd : FunctionData) (s : Nat × List Nat) :
    (addSuccs fd s).nbBlocks = fd.nbBlocks := by
  simp [addSuccs, FunctionData.setCfgRow, FunctionData.nbBlocks]

theorem foldl_addSuccs_nbBlocks (l : List (Nat × List Nat)) (fd : FunctionData) :
    (l.foldl addSuccs fd).nbBlocks = fd.nbBlocks := by
  induction l generalizing fd with
  | nil => rfl
  | cons s l ih => rw [List.foldl_cons, ih, addSuccs_nbBlocks]

@[simp] theorem install_nbBlocks (e : BlockEntry) (fd : FunctionData) :
    (e.install fd).nbBlocks = e.numBlocks := by
  rw [BlockEntry.install, foldl_addSuccs_nbBlocks]
  simp [FunctionData.allocateBlocks, FunctionData.nbBlocks]

theorem blockTransitionRecord_encoded {s : Nat × List Nat} {fd : FunctionData}
    (hid : s.1 < fd.nbBlocks) (hpack : EdgesPackable s) (hlt : ∀ b ∈ s.2, b < fd.nbBlocks)
    (rest : Bytes) :
    blockTransitionRecord (edgesBytes s ++ rest) fd = .ok (rest, addSuccs fd s) := by
  obtain ⟨hword, hcount, hwords⟩ := hpack
  have hbytes : edgesBytes s ++ rest =
      le32 s.1 ++ (le32 s.2.length ++ (s.2.flatMap le32 ++ rest)) := by
    simp [edgesBytes]
  rw [hbytes]
  simp only [blockTransitionRecord, readWord_le32 hword, bind, Except.bind,
    Nat.not_le.mpr hid, if_false, Lib.drop_le32, readWord_le32 hcount, drop_two_words, drop_edges]
  split
  · rename_i err herr
    rw [edgeLoop_encoded hlt hwords] at herr
    cases herr
  · rename_i row hrow
    rw [edgeLoop_encoded hlt hwords] at hrow
    obtain rfl := Except.ok.inj hrow
    rfl

/-- Rewrite the slot of an existing function. -/
def updateFunction (md : ModuleData) (f : Nat) (upd : FunctionData → FunctionData) : ModuleData :=
  match md.functions[f]? with
  | none => md
  | some fd => md.setFunction f (upd fd)

theorem updateFunction_some {md : ModuleData} {f : Nat} {fd : FunctionData}
    (h : md.functions[f]? = some fd) (upd : FunctionData → FunctionData) :
    updateFunction md f upd = md.setFunction f (upd fd) := by
  simp [updateFunction, h]

theorem updateFunction_functions (md : ModuleData) (f : Nat) (upd : FunctionData → FunctionData) :
    (updateFunction md f upd).functions = md.functions.modify f upd := by
  unfold updateFunction
  cases h : md.functions[f]? with
  | none => simp [List.modify_eq_self, List.getElem?_eq_none_iff.mp h]
  | some fd => simp [List.modify_eq_set_getElem?, h]

@[simp] theorem updateFunction_nbFunctions (md : ModuleData) (f : Nat)
    (upd : FunctionData → FunctionData) :
    (updateFunction md f upd).nbFunctions = md.nbFunctions := by
  simp [ModuleData.nbFunctions, updateFunction_functions]

@[simp] theorem updateFunction_allocated (md : ModuleData) (f : Nat)
    (upd : FunctionData → FunctionData) : (updateFunction md f upd).allocated = md.allocated := by
  unfold updateFunction
  split <;> rfl

@[simp] theorem updateFunction_callGraph (md : ModuleData) (f : Nat)
    (upd : FunctionData → FunctionData) : (updateFunction md f upd).callGraph = md.callGraph := by
  unfold updateFunction
  split <;> rfl

def addBlocks (md : ModuleData) (e : BlockEntry) : ModuleData :=
  updateFunction md e.fct e.install

theorem loadSectionBlockTransition_encoded {e : BlockEntry} {md : ModuleData} {fd : FunctionData}
    (halloc : md.allocated = true) (hfd : md.functions[e.fct]? = some fd)
    (hzero : fd.nbBlocks = 0) (hpack : e.Packable) (hpos : 0 < e.numBlocks)
    (hsuccs : EdgesDecodable e.numBlocks e.succs) :
    loadSectionBlockTransition e.bytes md = .ok (addBlocks md e) := by
  obtain ⟨hfct, hnum, hcount, -⟩ := hpack
  have hn : md.nbFunctions ≠ 0 := by
    have := (List.getElem?_eq_some_iff.mp hfd).1
    unfold ModuleData.nbFunctions
    omega
  have hloop : forRecords blockTransitionRecord e.succs.length (e.succs.flatMap edgesBytes)
      (fd.allocateBlocks e.numBlocks) = .ok ([], e.install fd) := by
    rw [← List.append_nil (e.succs.flatMap edgesBytes)]
    refine forRecords_encoded (fun l (fd : FunctionData) => EdgesDecodable fd.nbBlocks l) ?_ ?_
      e.succs [] (fd.allocateBlocks e.numBlocks)
      (by simpa [FunctionData.allocateBlocks, FunctionData.nbBlocks] using hsuccs)
    · intro s l rest fd hl
      exact blockTransitionRecord_encoded (hl.source_lt s List.mem_cons_self)
        (hl.packable s List.mem_cons_self) (hl.target_lt s List.mem_cons_self) rest
    · intro s l fd hl
      rw [addSuccs_nbBlocks]
      exact hl.tail
  unfold loadSectionBlockTransition BlockEntry.bytes
  simp only [halloc, Bool.not_true, Bool.false_eq_true, if_false, hn, readWord_le32 hfct, hfd,
    hzero, ne_eq, not_true, Lib.drop_le32, readWord_le32 hnum, Nat.ne_of_gt hpos, drop_two_words,
    readWord_le32 hcount, drop_three_words, hloop, bind, Except.bind]
  rw [addBlocks, updateFunction_some hfd]

def addIpd (md : ModuleData) (t : IpdTuple) : ModuleData :=
  updateFunction md t.fct (·.setIpd t.block (UInt32.ofNat t.ipd))

theorem blockIpdRecord_encoded {t : IpdTuple} {md : ModuleData} {fd : FunctionData}
    (hfd : md.functions[t.fct]? = some fd) (hblock : t.block < fd.nbBlocks) (hpack : t.Packable)
    (rest : Bytes) : blockIpdRecord (t.bytes ++ rest) md = .ok (rest, addIpd md t) := by
  obtain ⟨hfct, hb, hipd, -⟩ := hpack
  have hpos : fd.nbBlocks ≠ 0 := by omega
  simp only [blockIpdRecord, IpdTuple.bytes, List.append_assoc, readWord_le32 hfct, hfd, hpos,
    if_false, Lib.drop_le32, readWord_le32 hb, Nat.not_le.mpr hblock, drop_two_words,
    readWord_le32 hipd, drop_four_words, bind, Except.bind]
  rw [addIpd, updateFunction_some hfd]

/-- The tuple names a block of an existing function. -/
def IpdTuple.Names (t : IpdTuple) (md : ModuleData) : Prop :=
  ∃ fd, md.functions[t.fct]? = some fd ∧ t.block < fd.nbBlocks

/-- An ipd update changes no block count. -/
theorem names_addIpd {t t' : IpdTuple} {md : ModuleData} (h : t'.Names md) :
    t'.Names (addIpd md t) := by
  obtain ⟨fd, hfd, hblock⟩ := h
  rw [IpdTuple.Names, addIpd, updateFunction_functions, List.getElem?_modify, hfd]
  by_cases heq : t.fct = t'.fct
  · exact ⟨fd.setIpd t.block (UInt32.ofNat t.ipd), by simp [heq], hblock⟩
  · exact ⟨fd, by simp [heq], hblock⟩

theorem loadSectionBlockIpd_encoded {tuples : List IpdTuple} {md : ModuleData}
    (halloc : md.allocated = true) (hcount : tuples.length < 2 ^ 32)
    (hpack : ∀ t ∈ tuples, t.Packable) (hnames : ∀ t ∈ tuples, t.Names md) (rest : Bytes) :
    loadSectionBlockIpd (le32 tuples.length ++ tuples.flatMap IpdTuple.bytes ++ rest) md =
      .ok (tuples.foldl addIpd md) := by
  have hloop : forRecords blockIpdRecord tuples.length (tuples.flatMap IpdTuple.bytes ++ rest) md =
      .ok (rest, tuples.foldl addIpd md) := by
    refine forRecords_encoded (fun l md => ∀ t ∈ l, t.Packable ∧ t.Names md) ?_ ?_ tuples rest md
      fun t ht => ⟨hpack t ht, hnames t ht⟩
    · intro t l rest md h
      obtain ⟨hp, fd, hfd, hblock⟩ := h t List.mem_cons_self
      exact blockIpdRecord_encoded hfd hblock hp rest
    · intro t l md h t' ht'
      obtain ⟨hp, hn⟩ := h t' (List.mem_cons_of_mem t ht')
      exact ⟨hp, names_addIpd hn⟩
  unfold loadSectionBlockIpd
  simp only [halloc, Bool.not_true, Bool.false_eq_true, if_false, List.append_assoc,
    readWord_le32 hcount, Lib.drop_le32, hloop, bind, Except.bind]

end Picon.Prelink
