import Picon.Prelink.Decode

/-!
# The sections of a module, as the loader reads them

The payload of a section packet is a count and as many records. Reading it
takes no state: `LoadingPacket.parse` yields what the payload says, and fails
only when the payload is too short for its counts. Each section decoder is then
a judgement on the parsed records and an update of the module, and a section is
accepted exactly when it parses and is judged acceptable.
-/

namespace Picon.Loader

open Lib (readLe32 readCString forRecords takeRecords AllAccepted takeRecords_length
  accepted_iff_forall forRecords_ok_iff)
open Monitor
open Prelink (BlockEntry setEdges setEdges_length addCallees addSuccs addSuccs_nbBlocks
  updateFunction updateFunction_some)

/-- `msg_fct_t`. -/
structure FctRecord where
  fId : Nat
  flags : Nat
  name : Bytes
  deriving DecidableEq, Repr

/-- The fields of `msg_block_ipd_t` that are read; `b_last_id` is skipped. -/
structure IpdRecord where
  fId : Nat
  bId : Nat
  ipd : Nat
  deriving DecidableEq, Repr

/-- What a section packet says. The records of the two transition sections are
`id, count, ids`. -/
inductive Section where
  | functionId (records : List FctRecord)
  | functionTransition (records : List (Nat × List Nat))
  | blockTransition (table : BlockEntry)
  | blockIpd (records : List IpdRecord)
  deriving DecidableEq, Repr

/-! ### Parsing -/

def parseWord (ptr : Bytes) : Option (Nat × Bytes) := do
  let n ← readLe32 ptr
  some (n, ptr.drop 4)

def parseFct (ptr : Bytes) : Option (FctRecord × Bytes) := do
  let fId ← readLe32 ptr
  let flags ← readLe32 (ptr.drop 4)
  let name ← readCString (ptr.drop 8)
  some (⟨fId, flags, name⟩, ptr.drop (8 + name.length + 1))

def parseEdges (ptr : Bytes) : Option ((Nat × List Nat) × Bytes) := do
  let id ← readLe32 ptr
  let num ← readLe32 (ptr.drop 4)
  let (ids, _) ← takeRecords parseWord num (ptr.drop 8)
  some ((id, ids), ptr.drop (8 + num * 4))

def parseIpd (ptr : Bytes) : Option (IpdRecord × Bytes) := do
  let fId ← readLe32 ptr
  let bId ← readLe32 (ptr.drop 4)
  let ipd ← readLe32 (ptr.drop 8)
  some (⟨fId, bId, ipd⟩, ptr.drop 16)

/-- A count, and as many records. -/
def parseCounted {α : Type} (parse : Bytes → Option (α × Bytes)) (ptr : Bytes) :
    Option (List α) := do
  let n ← readLe32 ptr
  let (records, _) ← takeRecords parse n (ptr.drop 4)
  some records

def parseBlocks (ptr : Bytes) : Option BlockEntry := do
  let fId ← readLe32 ptr
  let numBlock ← readLe32 (ptr.drop 4)
  let records ← parseCounted parseEdges (ptr.drop 8)
  some ⟨fId, numBlock, records⟩

/-- What the packet says, `none` for a packet that is no section or is shorter
than its counts announce. -/
def parseSection (pkt : LoadingPacket) : Option Section :=
  match pkt.event with
  | .sectionFunctionId => (parseCounted parseFct pkt.value).map .functionId
  | .sectionFunctionTransition => (parseCounted parseEdges pkt.value).map .functionTransition
  | .sectionBlockTransition => (parseBlocks pkt.value).map .blockTransition
  | .sectionBlockIpd => (parseCounted parseIpd pkt.value).map .blockIpd
  | _ => none

theorem parseCounted_eq_some {α : Type} {parse : Bytes → Option (α × Bytes)} {ptr : Bytes}
    {records : List α} :
    parseCounted parse ptr = some records ↔
      ∃ n rest, readLe32 ptr = some n ∧ takeRecords parse n (ptr.drop 4) = some (records, rest) := by
  simp only [parseCounted, Option.bind_eq_bind, Option.bind_eq_some_iff, Prod.exists,
    Option.some.injEq]
  constructor
  · rintro ⟨n, hn, l, rest, hl, rfl⟩
    exact ⟨n, rest, hn, hl⟩
  · rintro ⟨n, rest, hn, hl⟩
    exact ⟨n, hn, records, rest, hl, rfl⟩

theorem parseCounted_length_lt {α : Type} {parse : Bytes → Option (α × Bytes)} {ptr : Bytes}
    {records : List α} (h : parseCounted parse ptr = some records) :
    records.length < 2 ^ 32 := by
  obtain ⟨n, rest, hn, hl⟩ := parseCounted_eq_some.mp h
  rw [takeRecords_length hl]
  exact Lib.readLe32_lt hn

/-! ### Judging and applying records -/

/-- The slot a function record leaves. -/
def FctRecord.data (r : FctRecord) : FunctionData := .described r.name r.flags

def describe (md : ModuleData) (r : FctRecord) : ModuleData :=
  (md.setFunction r.fId r.data).countEntrypoint r.data

def installIpd (md : ModuleData) (r : IpdRecord) : ModuleData :=
  updateFunction md r.fId (·.setIpd r.bId (UInt32.ofNat r.ipd))

/-- The record names a block of a function that was given blocks. -/
def IpdRecord.Names (md : ModuleData) (r : IpdRecord) : Prop :=
  ∃ fd, md.functions[r.fId]? = some fd ∧ r.bId < fd.nbBlocks

/-- The record gives a first row to an existing function, inside the table. -/
def CalleesFit (md : ModuleData) (e : Nat × List Nat) : Prop :=
  e.1 < md.nbFunctions ∧ md.callGraph[e.1]?.join = none ∧ ∀ g ∈ e.2, g < md.nbFunctions

/-- The record stays inside the block table of its function. -/
def SuccsFit (fd : FunctionData) (s : Nat × List Nat) : Prop :=
  s.1 < fd.nbBlocks ∧ ∀ b ∈ s.2, b < fd.nbBlocks

theorem readWord_eq_ok {ptr : Bytes} {n : Nat} : readWord ptr = .ok n ↔ readLe32 ptr = some n := by
  refine ⟨readWord_ok, fun h => ?_⟩
  rw [readWord, h]

theorem readName_eq_ok {ptr s : Bytes} : readName ptr = .ok s ↔ readCString ptr = some s := by
  refine ⟨readName_ok, fun h => ?_⟩
  rw [readName, h]

theorem edgeRecord_ok_iff {width code : Nat} (ptr : Bytes) (row : List Bool) (ptr' : Bytes)
    (row' : List Bool) :
    edgeRecord width code ptr row = .ok (ptr', row') ↔
      ∃ t, parseWord ptr = some (t, ptr') ∧ t < width ∧ row' = row.set t true := by
  simp only [edgeRecord, parseWord, readWord]
  cases readLe32 ptr with
  | none => simp [bind, Except.bind]
  | some t =>
    by_cases ht : width ≤ t
    · simp [bind, Except.bind, ht, Nat.not_lt.mpr ht]
    · simp [bind, Except.bind, ht, Nat.not_le.mp ht, eq_comm]

theorem edgeLoop_ok_iff {width code n : Nat} {cptr : Bytes} {row row' : List Bool} :
    edgeLoop width code n cptr row = .ok row' ↔
      ∃ ids rest, takeRecords parseWord n cptr = some (ids, rest) ∧ (∀ t ∈ ids, t < width) ∧
        row' = setEdges row ids := by
  have hloop : ∀ ptr', forRecords (edgeRecord width code) n cptr row = .ok (ptr', row') ↔
      ∃ ids, takeRecords parseWord n cptr = some (ids, ptr') ∧ (∀ t ∈ ids, t < width) ∧
        row' = setEdges row ids := by
    intro ptr'
    rw [forRecords_ok_iff edgeRecord_ok_iff]
    refine exists_congr fun ids => and_congr_right fun _ => and_congr_left fun _ => ?_
    refine accepted_iff_forall ?_ ids row
    intro row t t' _
    exact Iff.rfl
  unfold edgeLoop
  constructor
  · intro h
    split at h
    · cases h
    · rename_i r hr
      obtain rfl := Except.ok.inj h
      obtain ⟨ids, hids⟩ := (hloop r.1).mp hr
      exact ⟨ids, r.1, hids⟩
  · rintro ⟨ids, rest, hids⟩
    rw [(hloop rest).mpr ⟨ids, hids⟩]

theorem functionIdRecord_ok_iff (ptr : Bytes) (md : ModuleData) (ptr' : Bytes) (md' : ModuleData) :
    functionIdRecord ptr md = .ok (ptr', md') ↔
      ∃ r, parseFct ptr = some (r, ptr') ∧ r.fId < md.nbFunctions ∧ md' = describe md r := by
  constructor
  · intro h
    obtain ⟨fId, name, flags, hid, hlt, hname, hflags, rfl, rfl⟩ := functionIdRecord_ok h
    exact ⟨⟨fId, flags, name⟩, by simp [parseFct, hid, hname, hflags], hlt, rfl⟩
  · rintro ⟨r, hr, hlt, rfl⟩
    simp only [parseFct, Option.bind_eq_bind, Option.bind_eq_some_iff, Option.some.injEq,
      Prod.mk.injEq] at hr
    obtain ⟨fId, hid, flags, hflags, name, hname, rfl, rfl⟩ := hr
    simp only [functionIdRecord, readWord_eq_ok.mpr hid, readName_eq_ok.mpr hname,
      readWord_eq_ok.mpr hflags, bind, Except.bind, Nat.not_le.mpr hlt, if_false]
    rfl

theorem parseEdges_eq_some {ptr ptr' : Bytes} {e : Nat × List Nat} :
    parseEdges ptr = some (e, ptr') ↔
      ∃ num rest, readLe32 ptr = some e.1 ∧ readLe32 (ptr.drop 4) = some num ∧
        takeRecords parseWord num (ptr.drop 8) = some (e.2, rest) ∧
        ptr' = ptr.drop (8 + num * 4) := by
  simp only [parseEdges, Option.bind_eq_bind, Option.bind_eq_some_iff, Prod.exists,
    Option.some.injEq, Prod.mk.injEq]
  constructor
  · rintro ⟨id, hid, num, hnum, ids, rest, hids, rfl, rfl⟩
    exact ⟨num, rest, hid, hnum, hids, rfl⟩
  · rintro ⟨num, rest, hid, hnum, hids, rfl⟩
    exact ⟨e.1, hid, num, hnum, e.2, rest, hids, rfl, rfl⟩

theorem functionTransitionRecord_ok_iff (ptr : Bytes) (md : ModuleData) (ptr' : Bytes)
    (md' : ModuleData) :
    functionTransitionRecord ptr md = .ok (ptr', md') ↔
      ∃ e, parseEdges ptr = some (e, ptr') ∧ CalleesFit md e ∧ md' = addCallees md e := by
  constructor
  · intro h
    obtain ⟨fId, num, row, hrow, hid, hlt, hfresh, hnum, hloop, rfl, rfl⟩ :=
      functionTransitionRecord_ok h
    obtain ⟨ids, rest, hids, hwidth, rfl⟩ := edgeLoop_ok_iff.mp hloop
    exact ⟨(fId, ids), parseEdges_eq_some.mpr ⟨num, rest, hid, hnum, hids, rfl⟩,
      ⟨hlt, hfresh, hwidth⟩, rfl⟩
  · rintro ⟨e, he, ⟨hlt, hfresh, hwidth⟩, rfl⟩
    obtain ⟨num, rest, hid, hnum, hids, rfl⟩ := parseEdges_eq_some.mp he
    have hloop : edgeLoop md.nbFunctions 3 num (ptr.drop 8) (List.replicate md.nbFunctions false) =
        .ok (setEdges (List.replicate md.nbFunctions false) e.2) :=
      edgeLoop_ok_iff.mpr ⟨e.2, rest, hids, hwidth, rfl⟩
    simp only [functionTransitionRecord, readWord_eq_ok.mpr hid, readWord_eq_ok.mpr hnum, bind,
      Except.bind, Nat.not_le.mpr hlt, if_false, hfresh, Option.isSome_none, Bool.false_eq_true]
    split
    · rename_i err herr
      rw [hloop] at herr
      cases herr
    · rename_i row hrow
      rw [hloop] at hrow
      obtain rfl := Except.ok.inj hrow
      rfl

theorem blockTransitionRecord_ok_iff (ptr : Bytes) (fd : FunctionData) (ptr' : Bytes)
    (fd' : FunctionData) :
    blockTransitionRecord ptr fd = .ok (ptr', fd') ↔
      ∃ s, parseEdges ptr = some (s, ptr') ∧ SuccsFit fd s ∧ fd' = addSuccs fd s := by
  constructor
  · intro h
    obtain ⟨bId, hid, h⟩ := bind_ok h
    split at h
    · cases h
    · rename_i hlt
      obtain ⟨num, hnum, h⟩ := bind_ok h
      split at h
      · cases h
      · rename_i row hrow
        obtain ⟨rfl, rfl⟩ := Prod.mk.inj (Except.ok.inj h)
        obtain ⟨ids, rest, hids, hwidth, rfl⟩ := edgeLoop_ok_iff.mp hrow
        exact ⟨(bId, ids), parseEdges_eq_some.mpr
          ⟨num, rest, readWord_ok hid, readWord_ok hnum, hids, rfl⟩, ⟨by omega, hwidth⟩, rfl⟩
  · rintro ⟨s, hs, ⟨hlt, hwidth⟩, rfl⟩
    obtain ⟨num, rest, hid, hnum, hids, rfl⟩ := parseEdges_eq_some.mp hs
    have hloop : edgeLoop fd.nbBlocks 10 num (ptr.drop 8) (fd.cfgRow s.1) =
        .ok (setEdges (fd.cfgRow s.1) s.2) :=
      edgeLoop_ok_iff.mpr ⟨s.2, rest, hids, hwidth, rfl⟩
    simp only [blockTransitionRecord, readWord_eq_ok.mpr hid, readWord_eq_ok.mpr hnum, bind,
      Except.bind, Nat.not_le.mpr hlt, if_false]
    split
    · rename_i err herr
      rw [hloop] at herr
      cases herr
    · rename_i row hrow
      rw [hloop] at hrow
      obtain rfl := Except.ok.inj hrow
      rfl

theorem accepted_addSuccs (records : List (Nat × List Nat)) (fd : FunctionData) :
    AllAccepted SuccsFit addSuccs records fd ↔
      ∀ s ∈ records, s.1 < fd.nbBlocks ∧ ∀ b ∈ s.2, b < fd.nbBlocks := by
  refine accepted_iff_forall ?_ records fd
  intro fd a b _
  simp only [SuccsFit, addSuccs_nbBlocks]

theorem installIpd_names {md : ModuleData} (r r' : IpdRecord) :
    r'.Names (installIpd md r) ↔ r'.Names md := by
  unfold IpdRecord.Names installIpd
  rw [Prelink.updateFunction_functions, List.getElem?_modify]
  cases hfd : md.functions[r'.fId]? with
  | none => simp
  | some fd =>
    by_cases heq : r.fId = r'.fId
    · simp only [heq, if_true, Option.map_eq_map, Option.map_some, Option.some.injEq,
        exists_eq_left']
      rfl
    · simp [heq]

theorem accepted_installIpd (records : List IpdRecord) (md : ModuleData) :
    AllAccepted IpdRecord.Names installIpd records md ↔ ∀ r ∈ records, r.Names md := by
  refine accepted_iff_forall ?_ records md
  intro md r r' _
  exact installIpd_names r r'

theorem blockIpdRecord_ok_iff (ptr : Bytes) (md : ModuleData) (ptr' : Bytes) (md' : ModuleData) :
    blockIpdRecord ptr md = .ok (ptr', md') ↔
      ∃ r, parseIpd ptr = some (r, ptr') ∧ r.Names md ∧ md' = installIpd md r := by
  constructor
  · intro h
    obtain ⟨fId, fd, bId, ipd, hid, hfd, -, hb, hlt, hipd, rfl, rfl⟩ := blockIpdRecord_ok h
    refine ⟨⟨fId, bId, ipd⟩, by simp [parseIpd, hid, hb, hipd], ⟨fd, hfd, hlt⟩, ?_⟩
    rw [installIpd, updateFunction_some hfd]
  · rintro ⟨r, hr, ⟨fd, hfd, hlt⟩, rfl⟩
    simp only [parseIpd, Option.bind_eq_bind, Option.bind_eq_some_iff, Option.some.injEq,
      Prod.mk.injEq] at hr
    obtain ⟨fId, hid, bId, hb, ipd, hipd, rfl, rfl⟩ := hr
    have hpos : fd.nbBlocks ≠ 0 := by
      have hblock : bId < fd.nbBlocks := hlt
      omega
    rw [installIpd, updateFunction_some hfd]
    simp only [blockIpdRecord, readWord_eq_ok.mpr hid, readWord_eq_ok.mpr hb,
      readWord_eq_ok.mpr hipd, bind, Except.bind, hfd, hpos, if_false, Nat.not_le.mpr hlt]

/-! ### Sections -/

/-- What the section does to a module that accepts it. -/
def Section.apply (md : ModuleData) : Section → ModuleData
  | .functionId records =>
    if hn : records.length < 2 ^ 32 then records.foldl describe (md.allocate records.length hn)
    else md
  | .functionTransition records => records.foldl addCallees md
  | .blockTransition table => Prelink.addBlocks md table
  | .blockIpd records => records.foldl installIpd md

/-- The module accepts the section. -/
def Section.Acceptable (md : ModuleData) : Section → Prop
  | .functionId records => md.nbFunctions = 0 ∧ ∀ r ∈ records, r.fId < records.length
  | .functionTransition records =>
    md.allocated = true ∧ md.nbFunctions ≠ 0 ∧ AllAccepted CalleesFit addCallees records md
  | .blockTransition table =>
    md.allocated = true ∧ 0 < table.numBlocks ∧
      (∃ fd, md.functions[table.fct]? = some fd ∧ fd.nbBlocks = 0) ∧
      ∀ s ∈ table.succs, s.1 < table.numBlocks ∧ ∀ b ∈ s.2, b < table.numBlocks
  | .blockIpd records => md.allocated = true ∧ ∀ r ∈ records, r.Names md

/-- The loop over the records of the function table, into fresh tables. -/
theorem functionIdLoop_ok_iff (md : ModuleData) {n : Nat} (hn : n < 2 ^ 32) (ptr : Bytes)
    (r : Bytes × ModuleData) :
    forRecords functionIdRecord n ptr (md.allocate n hn) = .ok r ↔
      ∃ records, takeRecords parseFct n ptr = some (records, r.1) ∧
        (∀ rec ∈ records, rec.fId < n) ∧ r.2 = records.foldl describe (md.allocate n hn) := by
  rw [forRecords_ok_iff functionIdRecord_ok_iff]
  refine exists_congr fun records => and_congr_right fun _ => and_congr_left fun _ => ?_
  have hnb : (md.allocate n hn).nbFunctions = n := by
    simp [ModuleData.allocate, ModuleData.nbFunctions]
  rw [accepted_iff_forall, hnb]
  intro md₁ a b _
  rw [show (describe md₁ a).nbFunctions = md₁.nbFunctions from
    ModuleData.setFunction_nbFunctions md₁ a.fId a.data]

theorem loadSectionFunctionId_ok_iff {fct : Bytes} {md md' : ModuleData} :
    loadSectionFunctionId fct md = .ok md' ↔
      ∃ records, parseCounted parseFct fct = some records ∧
        Section.Acceptable md (.functionId records) ∧ md' = Section.apply md (.functionId records) := by
  unfold loadSectionFunctionId
  constructor
  · intro h
    split at h
    · cases h
    · rename_i hzero
      split at h
      · cases h
      · rename_i n hn
        obtain ⟨r, hr, h⟩ := bind_ok h
        obtain rfl := Except.ok.inj h
        obtain ⟨records, hrecords, hall, hval⟩ := (functionIdLoop_ok_iff md _ _ r).mp hr
        obtain rfl := takeRecords_length hrecords
        refine ⟨records, parseCounted_eq_some.mpr ⟨_, r.1, hn, hrecords⟩,
          ⟨by omega, hall⟩, ?_⟩
        rw [hval, Section.apply, dif_pos (Lib.readLe32_lt hn)]
  · rintro ⟨records, hparse, ⟨hzero, hall⟩, rfl⟩
    have hlt := parseCounted_length_lt hparse
    obtain ⟨n, rest, hn, hrecords⟩ := parseCounted_eq_some.mp hparse
    obtain rfl := takeRecords_length hrecords
    rw [if_neg (by omega), Section.apply, dif_pos hlt]
    split
    · rename_i hnone
      rw [hn] at hnone
      cases hnone
    · rename_i m hsome
      rw [hn] at hsome
      obtain rfl := Option.some.inj hsome
      have hr := (functionIdLoop_ok_iff md hlt (fct.drop 4) (rest, _)).mpr
        ⟨records, hrecords, hall, rfl⟩
      rw [hr]
      rfl

theorem loadSectionFunctionTransition_ok_iff {trans : Bytes} {md md' : ModuleData} :
    loadSectionFunctionTransition trans md = .ok md' ↔
      ∃ records, parseCounted parseEdges trans = some records ∧
        Section.Acceptable md (.functionTransition records) ∧
        md' = Section.apply md (.functionTransition records) := by
  constructor
  · intro h
    unfold loadSectionFunctionTransition at h
    split at h
    · cases h
    · rename_i halloc
      split at h
      · cases h
      · rename_i hpos
        obtain ⟨n, hn, h⟩ := bind_ok h
        obtain ⟨r, hr, h⟩ := bind_ok h
        obtain rfl := Except.ok.inj h
        obtain ⟨records, hrecords, hacc, hval⟩ :=
          (forRecords_ok_iff functionTransitionRecord_ok_iff).mp hr
        exact ⟨records, parseCounted_eq_some.mpr ⟨n, r.1, readWord_ok hn, hrecords⟩,
          ⟨by simpa using halloc, hpos, hacc⟩, hval⟩
  · rintro ⟨records, hparse, ⟨halloc, hpos, hacc⟩, rfl⟩
    obtain ⟨n, rest, hn, hrecords⟩ := parseCounted_eq_some.mp hparse
    have hr := (forRecords_ok_iff functionTransitionRecord_ok_iff).mpr
      ⟨records, hrecords, hacc, rfl⟩
    simp only [loadSectionFunctionTransition, halloc, Bool.not_true, Bool.false_eq_true, if_false,
      hpos, readWord_eq_ok.mpr hn, hr, bind, Except.bind, Section.apply]

/-- The loop over the successor lines of one function, into a fresh table. -/
theorem blockTransitionLoop_ok_iff (fd : FunctionData) (numBlock n : Nat) (ptr : Bytes)
    (r : Bytes × FunctionData) :
    forRecords blockTransitionRecord n ptr (fd.allocateBlocks numBlock) = .ok r ↔
      ∃ records, takeRecords parseEdges n ptr = some (records, r.1) ∧
        (∀ s ∈ records, s.1 < numBlock ∧ ∀ b ∈ s.2, b < numBlock) ∧
        r.2 = records.foldl addSuccs (fd.allocateBlocks numBlock) := by
  rw [forRecords_ok_iff blockTransitionRecord_ok_iff]
  refine exists_congr fun records => and_congr_right fun _ => and_congr_left fun _ => ?_
  have hnb : (fd.allocateBlocks numBlock).nbBlocks = numBlock := by
    simp [FunctionData.allocateBlocks, FunctionData.nbBlocks]
  rw [accepted_addSuccs, hnb]

theorem loadSectionBlockTransition_ok_iff {trans : Bytes} {md md' : ModuleData} :
    loadSectionBlockTransition trans md = .ok md' ↔
      ∃ table, parseBlocks trans = some table ∧
        Section.Acceptable md (.blockTransition table) ∧
        md' = Section.apply md (.blockTransition table) := by
  constructor
  · intro h
    unfold loadSectionBlockTransition at h
    split at h
    · cases h
    · rename_i halloc
      split at h
      · cases h
      · obtain ⟨fId, hid, h⟩ := bind_ok h
        split at h
        · cases h
        · rename_i fd hfd
          split at h
          · cases h
          · rename_i hblank
            obtain ⟨numBlock, hnum, h⟩ := bind_ok h
            split at h
            · cases h
            · rename_i hpos
              obtain ⟨n, hn, h⟩ := bind_ok h
              obtain ⟨r, hr, h⟩ := bind_ok h
              obtain rfl := Except.ok.inj h
              obtain ⟨records, hrecords, hall, hval⟩ :=
                (blockTransitionLoop_ok_iff fd numBlock n _ r).mp hr
              refine ⟨⟨fId, numBlock, records⟩, ?_,
                ⟨by simpa using halloc, Nat.pos_of_ne_zero hpos, ⟨fd, hfd, by omega⟩, hall⟩, ?_⟩
              · have hparse : parseCounted parseEdges (trans.drop 8) = some records := by
                  rw [parseCounted_eq_some]
                  exact ⟨n, r.1, readWord_ok hn, by simpa using hrecords⟩
                simp [parseBlocks, readWord_ok hid, readWord_ok hnum, hparse]
              · rw [Section.apply, Prelink.addBlocks, updateFunction_some hfd, hval]
                rfl
  · rintro ⟨table, hparse, ⟨halloc, hpos, ⟨fd, hfd, hblank⟩, hall⟩, rfl⟩
    simp only [parseBlocks, Option.bind_eq_bind, Option.bind_eq_some_iff, Option.some.injEq]
      at hparse
    obtain ⟨fId, hid, numBlock, hnum, records, hrecords, rfl⟩ := hparse
    obtain ⟨n, rest, hn, hrecords⟩ := parseCounted_eq_some.mp hrecords
    rw [List.drop_drop] at hrecords
    have hr := (blockTransitionLoop_ok_iff fd numBlock n (trans.drop 12) (rest, _)).mpr
      ⟨records, hrecords, hall, rfl⟩
    have hnb : md.nbFunctions ≠ 0 := by
      have hlt := (List.getElem?_eq_some_iff.mp hfd).1
      unfold ModuleData.nbFunctions
      omega
    rw [Section.apply, Prelink.addBlocks, updateFunction_some hfd]
    simp only [loadSectionBlockTransition, halloc, Bool.not_true, Bool.false_eq_true, if_false,
      hnb, readWord_eq_ok.mpr hid, hfd, hblank, ne_eq, not_true, readWord_eq_ok.mpr hnum,
      Nat.ne_of_gt hpos, readWord_eq_ok.mpr hn, hr, bind, Except.bind]
    rfl

theorem loadSectionBlockIpd_ok_iff {ipd : Bytes} {md md' : ModuleData} :
    loadSectionBlockIpd ipd md = .ok md' ↔
      ∃ records, parseCounted parseIpd ipd = some records ∧
        Section.Acceptable md (.blockIpd records) ∧
        md' = Section.apply md (.blockIpd records) := by
  constructor
  · intro h
    unfold loadSectionBlockIpd at h
    split at h
    · cases h
    · rename_i halloc
      obtain ⟨n, hn, h⟩ := bind_ok h
      obtain ⟨r, hr, h⟩ := bind_ok h
      obtain rfl := Except.ok.inj h
      obtain ⟨records, hrecords, hacc, hval⟩ := (forRecords_ok_iff blockIpdRecord_ok_iff).mp hr
      exact ⟨records, parseCounted_eq_some.mpr ⟨n, r.1, readWord_ok hn, hrecords⟩,
        ⟨by simpa using halloc, (accepted_installIpd records md).mp hacc⟩, hval⟩
  · rintro ⟨records, hparse, ⟨halloc, hall⟩, rfl⟩
    obtain ⟨n, rest, hn, hrecords⟩ := parseCounted_eq_some.mp hparse
    have hr := (forRecords_ok_iff blockIpdRecord_ok_iff).mpr
      ⟨records, hrecords, (accepted_installIpd records md).mpr hall, rfl⟩
    simp only [loadSectionBlockIpd, halloc, Bool.not_true, Bool.false_eq_true, if_false,
      readWord_eq_ok.mpr hn, hr, bind, Except.bind, Section.apply]

theorem exists_map_eq_some {α β : Type} {x : Option α} {f : α → β} {P : β → Prop} :
    (∃ b, x.map f = some b ∧ P b) ↔ ∃ a, x = some a ∧ P (f a) := by
  cases x with
  | none => simp
  | some a => simp

/-- A section packet is accepted exactly when it parses and the module accepts
what it says. -/
theorem loadSection_ok_iff {pkt : LoadingPacket} {md md' : ModuleData} :
    loadSection pkt md = .ok md' ↔
      ∃ sec, parseSection pkt = some sec ∧ Section.Acceptable md sec ∧
        md' = Section.apply md sec := by
  obtain ⟨event, value⟩ := pkt
  cases event with
  | sectionFunctionId =>
    simp only [loadSection, parseSection, exists_map_eq_some]
    exact loadSectionFunctionId_ok_iff
  | sectionFunctionTransition =>
    simp only [loadSection, parseSection, exists_map_eq_some]
    exact loadSectionFunctionTransition_ok_iff
  | sectionBlockTransition =>
    simp only [loadSection, parseSection, exists_map_eq_some]
    exact loadSectionBlockTransition_ok_iff
  | sectionBlockIpd =>
    simp only [loadSection, parseSection, exists_map_eq_some]
    exact loadSectionBlockIpd_ok_iff
  | moduleBegin | moduleEnd | terminated | unexpected => simp [loadSection, parseSection]

end Picon.Loader
