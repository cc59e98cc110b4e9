import Picon.Loader.Grammar

/-!
# Reads past the end of a packet

The decoders take every count and length from the payload and never look at the
size of the packet. A packet is read within its bounds exactly when all that it
announces is there, up to the first item that the loader refuses.
-/

namespace Picon.Loader

open Lib (readLe32 readCString forRecords takeRecords takeRecords_length ReadableTo
  forRecords_ne_error_iff)
open Monitor
open Prelink (addCallees addSuccs)

/-! ### Items that are refused before their packet ends -/

/-- Some announced target lies in the payload and is out of range. -/
def TargetRefused (width num : Nat) (cptr : Bytes) : Prop :=
  ∃ k < num, ∃ t, readLe32 (cptr.drop (4 * k)) = some t ∧ width ≤ t

def FctRefused (md : ModuleData) (ptr : Bytes) : Prop :=
  ∃ fId, readLe32 ptr = some fId ∧ md.nbFunctions ≤ fId

def CalleesRefused (md : ModuleData) (ptr : Bytes) : Prop :=
  ∃ fId, readLe32 ptr = some fId ∧
    (md.nbFunctions ≤ fId ∨ md.callGraph[fId]?.join.isSome ∨
      ∃ num, readLe32 (ptr.drop 4) = some num ∧ TargetRefused md.nbFunctions num (ptr.drop 8))

def SuccsRefused (fd : FunctionData) (ptr : Bytes) : Prop :=
  ∃ bId, readLe32 ptr = some bId ∧
    (fd.nbBlocks ≤ bId ∨
      ∃ num, readLe32 (ptr.drop 4) = some num ∧ TargetRefused fd.nbBlocks num (ptr.drop 8))

def IpdRefused (md : ModuleData) (ptr : Bytes) : Prop :=
  ∃ fId, readLe32 ptr = some fId ∧
    ((∀ fd, md.functions[fId]? = some fd → fd.nbBlocks = 0) ∨
      ∃ fd bId, md.functions[fId]? = some fd ∧ readLe32 (ptr.drop 4) = some bId ∧
        fd.nbBlocks ≤ bId)

/-- A decoder ends in an error of the source. -/
abbrev Refuses {α : Type} (x : Load α) : Prop := ∃ e, e ≠ .overread ∧ x = .error e

theorem refuses_error {α : Type} (e : LoadError) :
    Refuses (.error e : Load α) ↔ e ≠ .overread := by
  simp [Refuses]

theorem not_refuses_ok {α : Type} (a : α) : ¬ Refuses (.ok a : Load α) := by
  rintro ⟨e, -, h⟩
  cases h

/-- A decoder that starts with a word refuses only what it has read. -/
theorem refuses_readWord {α : Type} {ptr : Bytes} {f : Nat → Load α} :
    Refuses (readWord ptr >>= f) ↔ ∃ n, readLe32 ptr = some n ∧ Refuses (f n) := by
  unfold readWord
  cases readLe32 ptr with
  | none => simp [Refuses, bind, Except.bind]
  | some n => simp [Refuses, bind, Except.bind]

theorem readLe32_isSome_iff {ptr : Bytes} : (readLe32 ptr).isSome ↔ 4 ≤ ptr.length := by
  match ptr with
  | [] | [_] | [_, _] | [_, _, _] => simp [readLe32]
  | _ :: _ :: _ :: _ :: _ => simp [readLe32]

/-- A word further on can only be there behind one that is. -/
theorem readLe32_of_drop {ptr : Bytes} {m t : Nat} (h : readLe32 (ptr.drop m) = some t) :
    ∃ n, readLe32 ptr = some n := by
  rw [← Option.isSome_iff_exists, readLe32_isSome_iff]
  have hlen := readLe32_isSome_iff.mp (Option.isSome_iff_exists.mpr ⟨t, h⟩)
  rw [List.length_drop] at hlen
  omega

theorem targetRefused_succ {width num : Nat} {cptr : Bytes} :
    TargetRefused width (num + 1) cptr ↔
      ∃ t, readLe32 cptr = some t ∧ (width ≤ t ∨ TargetRefused width num (cptr.drop 4)) := by
  constructor
  · rintro ⟨k, hk, t, ht, hwide⟩
    cases k with
    | zero => exact ⟨t, ht, .inl hwide⟩
    | succ k =>
      obtain ⟨n, hn⟩ := readLe32_of_drop ht
      refine ⟨n, hn, .inr ⟨k, by omega, t, ?_, hwide⟩⟩
      rw [List.drop_drop, ← ht]
      congr 2
      omega
  · rintro ⟨n, hn, hwide | ⟨k, hk, t, ht, hwide⟩⟩
    · exact ⟨0, by omega, n, hn, hwide⟩
    · refine ⟨k + 1, by omega, t, ?_, hwide⟩
      rw [List.drop_drop] at ht
      rw [← ht]
      congr 2
      omega

theorem refuses_edgeLoop {width code num : Nat} {cptr : Bytes} {row : List Bool} :
    Refuses (edgeLoop width code num cptr row) ↔ TargetRefused width num cptr := by
  have hloop : Refuses (forRecords (edgeRecord width code) num cptr row) ↔
      TargetRefused width num cptr := by
    induction num generalizing cptr row with
    | zero =>
      refine iff_of_false (not_refuses_ok _) ?_
      rintro ⟨k, hk, -⟩
      omega
    | succ num ih =>
      rw [targetRefused_succ]
      simp only [forRecords]
      cases hword : readLe32 cptr with
      | none =>
        have hone : edgeRecord width code cptr row = .error .overread := by
          simp [edgeRecord, readWord, hword, bind, Except.bind]
        simp [hone, Refuses]
      | some t =>
        by_cases ht : width ≤ t
        · have hone : edgeRecord width code cptr row = .error (.code code) := by
            simp [edgeRecord, readWord, hword, bind, Except.bind, ht]
          simp [hone, Refuses, ht]
        · have hone : edgeRecord width code cptr row = .ok (cptr.drop 4, row.set t true) := by
            simp [edgeRecord, readWord, hword, bind, Except.bind, ht]
          simp only [hone, ih, Option.some.injEq, exists_eq_left', ht, false_or]
  rw [← hloop]
  unfold edgeLoop
  cases forRecords (edgeRecord width code) num cptr row with
  | error e => exact (refuses_error e).trans (refuses_error e).symm
  | ok r => exact iff_of_false (not_refuses_ok _) (not_refuses_ok _)

/-! ### Records -/

theorem refuses_functionIdRecord (ptr : Bytes) (md : ModuleData) :
    FctRefused md ptr ↔ Refuses (functionIdRecord ptr md) := by
  unfold functionIdRecord
  rw [refuses_readWord]
  refine exists_congr fun fId => and_congr_right fun _ => ?_
  by_cases hlt : md.nbFunctions ≤ fId
  · simp [hlt, Refuses]
  · refine iff_of_false hlt ?_
    rw [if_neg hlt]
    unfold readName readWord
    cases readCString (ptr.drop 8) with
    | none => simp [Refuses, bind, Except.bind]
    | some name =>
      cases readLe32 (ptr.drop 4) with
      | none => simp [Refuses, bind, Except.bind]
      | some flags => simp [Refuses, bind, Except.bind]

theorem refuses_functionTransitionRecord (ptr : Bytes) (md : ModuleData) :
    CalleesRefused md ptr ↔ Refuses (functionTransitionRecord ptr md) := by
  unfold functionTransitionRecord
  rw [refuses_readWord]
  refine exists_congr fun fId => and_congr_right fun _ => ?_
  by_cases hlt : md.nbFunctions ≤ fId
  · simp [hlt, Refuses]
  · by_cases hrow : md.callGraph[fId]?.join.isSome
    · simp [hlt, hrow, Refuses]
    · rw [if_neg hlt, if_neg hrow, refuses_readWord, or_iff_right hlt, or_iff_right hrow]
      refine exists_congr fun num => and_congr_right fun _ => ?_
      rw [← refuses_edgeLoop]
      split
      · rename_i e he
        rw [he]
        simp [Refuses]
      · rename_i row he
        refine iff_of_false ?_ (not_refuses_ok _)
        rw [he]
        exact not_refuses_ok row

theorem refuses_blockTransitionRecord (ptr : Bytes) (fd : FunctionData) :
    SuccsRefused fd ptr ↔ Refuses (blockTransitionRecord ptr fd) := by
  unfold blockTransitionRecord
  rw [refuses_readWord]
  refine exists_congr fun bId => and_congr_right fun _ => ?_
  by_cases hlt : fd.nbBlocks ≤ bId
  · simp [hlt, Refuses]
  · rw [if_neg hlt, refuses_readWord, or_iff_right hlt]
    refine exists_congr fun num => and_congr_right fun _ => ?_
    rw [← refuses_edgeLoop]
    split
    · rename_i e he
      rw [he]
      simp [Refuses]
    · rename_i row he
      refine iff_of_false ?_ (not_refuses_ok _)
      rw [he]
      exact not_refuses_ok row

theorem refuses_blockIpdRecord (ptr : Bytes) (md : ModuleData) :
    IpdRefused md ptr ↔ Refuses (blockIpdRecord ptr md) := by
  unfold blockIpdRecord
  rw [refuses_readWord]
  refine exists_congr fun fId => and_congr_right fun _ => ?_
  cases hfd : md.functions[fId]? with
  | none => simp [Refuses]
  | some fd =>
    by_cases hzero : fd.nbBlocks = 0
    · simp [hzero, Refuses]
    · simp only [Option.some.injEq, forall_eq', hzero, false_or, if_false, refuses_readWord,
        exists_and_left, exists_eq_left']
      refine exists_congr fun bId => and_congr_right fun _ => ?_
      by_cases hlt : fd.nbBlocks ≤ bId
      · simp [hlt, Refuses]
      · refine iff_of_false hlt ?_
        rw [if_neg hlt, refuses_readWord]
        rintro ⟨ipd, -, h⟩
        exact not_refuses_ok _ h

/-! ### Packets -/

/-- Every count, id and name that the loader looks at before it refuses or
finishes the packet lies inside the payload. -/
def PayloadReadable (md : ModuleData) (pkt : LoadingPacket) : Prop :=
  match pkt.event with
  | .sectionFunctionId =>
    md.nbFunctions ≠ 0 ∨ ∃ n hn, readLe32 pkt.value = some n ∧
      ReadableTo parseFct (fun md r => r.fId < md.nbFunctions) describe FctRefused n
        (pkt.value.drop 4) (md.allocate n hn)
  | .sectionFunctionTransition =>
    md.allocated = false ∨ md.nbFunctions = 0 ∨ ∃ n, readLe32 pkt.value = some n ∧
      ReadableTo parseEdges CalleesFit addCallees CalleesRefused n (pkt.value.drop 4) md
  | .sectionBlockTransition =>
    md.allocated = false ∨ md.nbFunctions = 0 ∨ ∃ fId, readLe32 pkt.value = some fId ∧
      ∀ fd, md.functions[fId]? = some fd → fd.nbBlocks = 0 →
        ∃ numBlock, readLe32 (pkt.value.drop 4) = some numBlock ∧
          (numBlock = 0 ∨ ∃ n, readLe32 (pkt.value.drop 8) = some n ∧
            ReadableTo parseEdges SuccsFit addSuccs SuccsRefused n (pkt.value.drop 12)
              (fd.allocateBlocks numBlock))
  | .sectionBlockIpd =>
    md.allocated = false ∨ ∃ n, readLe32 pkt.value = some n ∧
      ReadableTo parseIpd (fun md r => IpdRecord.Names md r) installIpd IpdRefused n
        (pkt.value.drop 4) md
  | _ => True

theorem readWord_bind_ne_overread {α : Type} {ptr : Bytes} {f : Nat → Load α} :
    (readWord ptr >>= f) ≠ .error .overread ↔
      ∃ n, readLe32 ptr = some n ∧ f n ≠ .error .overread := by
  unfold readWord
  cases readLe32 ptr with
  | none => simp [bind, Except.bind]
  | some n => simp [bind, Except.bind]

/-- The section decoders return the state of their loop. -/
theorem loop_bind_ne_overread {α β : Type} {x : Load α} {f : α → β} :
    (x >>= fun r => .ok (f r)) ≠ .error .overread ↔ x ≠ .error .overread := by
  cases x with
  | error e => simp [bind, Except.bind]
  | ok r => simp [bind, Except.bind]

theorem loadSectionFunctionId_ne_overread_iff (md : ModuleData) (value : Bytes) :
    loadSection ⟨.sectionFunctionId, value⟩ md ≠ .error .overread ↔
      PayloadReadable md ⟨.sectionFunctionId, value⟩ := by
  simp only [loadSection, PayloadReadable]
  unfold loadSectionFunctionId
  by_cases hzero : md.nbFunctions ≠ 0
  · simp [hzero]
  · rw [if_neg hzero, or_iff_right hzero]
    split
    · rename_i hnone
      simp [hnone]
    · rename_i n hn
      rw [loop_bind_ne_overread,
        forRecords_ne_error_iff functionIdRecord_ok_iff refuses_functionIdRecord]
      constructor
      · intro h
        exact ⟨n, Lib.readLe32_lt hn, hn, h⟩
      · rintro ⟨m, hm, hn', h⟩
        rw [hn] at hn'
        obtain rfl := Option.some.inj hn'
        exact h

theorem loadSectionFunctionTransition_ne_overread_iff (md : ModuleData) (value : Bytes) :
    loadSection ⟨.sectionFunctionTransition, value⟩ md ≠ .error .overread ↔
      PayloadReadable md ⟨.sectionFunctionTransition, value⟩ := by
  simp only [loadSection, PayloadReadable]
  unfold loadSectionFunctionTransition
  by_cases halloc : md.allocated = false
  · simp [halloc]
  · by_cases hzero : md.nbFunctions = 0
    · simp [halloc, hzero]
    · rw [if_neg (by simpa using halloc), if_neg hzero, readWord_bind_ne_overread,
        or_iff_right halloc, or_iff_right hzero]
      refine exists_congr fun n => and_congr_right fun _ => ?_
      rw [loop_bind_ne_overread,
        forRecords_ne_error_iff functionTransitionRecord_ok_iff refuses_functionTransitionRecord]

theorem loadSectionBlockTransition_ne_overread_iff (md : ModuleData) (value : Bytes) :
    loadSection ⟨.sectionBlockTransition, value⟩ md ≠ .error .overread ↔
      PayloadReadable md ⟨.sectionBlockTransition, value⟩ := by
  simp only [loadSection, PayloadReadable]
  unfold loadSectionBlockTransition
  by_cases halloc : md.allocated = false
  · simp [halloc]
  · by_cases hzero : md.nbFunctions = 0
    · simp [halloc, hzero]
    · rw [if_neg (by simpa using halloc), if_neg hzero, readWord_bind_ne_overread,
        or_iff_right halloc, or_iff_right hzero]
      refine exists_congr fun fId => and_congr_right fun _ => ?_
      cases hfd : md.functions[fId]? with
      | none => simp
      | some fd =>
        by_cases hblank : fd.nbBlocks = 0
        · simp only [hblank, ne_eq, not_true, if_false, Option.some.injEq, forall_eq',
            forall_const]
          rw [← ne_eq, readWord_bind_ne_overread]
          refine exists_congr fun numBlock => and_congr_right fun _ => ?_
          by_cases hpos : numBlock = 0
          · simp [hpos]
          · rw [if_neg hpos, readWord_bind_ne_overread, or_iff_right hpos]
            refine exists_congr fun n => and_congr_right fun _ => ?_
            rw [loop_bind_ne_overread,
              forRecords_ne_error_iff blockTransitionRecord_ok_iff refuses_blockTransitionRecord]
        · simp [hblank]

theorem loadSectionBlockIpd_ne_overread_iff (md : ModuleData) (value : Bytes) :
    loadSection ⟨.sectionBlockIpd, value⟩ md ≠ .error .overread ↔
      PayloadReadable md ⟨.sectionBlockIpd, value⟩ := by
  simp only [loadSection, PayloadReadable]
  unfold loadSectionBlockIpd
  by_cases halloc : md.allocated = false
  · simp [halloc]
  · rw [if_neg (by simpa using halloc), readWord_bind_ne_overread, or_iff_right halloc]
    refine exists_congr fun n => and_congr_right fun _ => ?_
    rw [loop_bind_ne_overread,
      forRecords_ne_error_iff blockIpdRecord_ok_iff refuses_blockIpdRecord]

theorem loadSection_ne_overread_iff (md : ModuleData) (pkt : LoadingPacket) :
    loadSection pkt md ≠ .error .overread ↔ PayloadReadable md pkt := by
  obtain ⟨event, value⟩ := pkt
  cases event with
  | sectionFunctionId => exact loadSectionFunctionId_ne_overread_iff md value
  | sectionFunctionTransition => exact loadSectionFunctionTransition_ne_overread_iff md value
  | sectionBlockTransition => exact loadSectionBlockTransition_ne_overread_iff md value
  | sectionBlockIpd => exact loadSectionBlockIpd_ne_overread_iff md value
  | moduleBegin | moduleEnd | terminated | unexpected => simp [loadSection, PayloadReadable]

/-! ### Streams -/

/-- AllAccepted packets are passed over. -/
theorem loadSections_append {md : ModuleData} {middle : List LoadingPacket} {secs : List Section}
    (hsay : Say middle secs) (hacc : Lib.AllAccepted Section.Acceptable Section.apply secs md)
    (tail : List (Option LoadingPacket)) :
    loadSections md (middle.map some ++ tail) = loadSections (secs.foldl Section.apply md) tail := by
  induction hsay generalizing md with
  | nil => rfl
  | @cons pkt sec middle secs hparse _ ih =>
    have hone := loadSection_ok_iff.mpr ⟨sec, hparse, hacc.1, rfl⟩
    simp only [List.map_cons, List.cons_append, loadSections, hone,
      if_neg (parseSection_event hparse), List.foldl_cons]
    exact ih hacc.2

theorem loadSections_overread {md : ModuleData} {pkts : List (Option LoadingPacket)}
    (h : loadSections md pkts = .failed .overread) :
    ∃ middle secs pkt rest, pkts = middle.map some ++ some pkt :: rest ∧ Say middle secs ∧
      Lib.AllAccepted Section.Acceptable Section.apply secs md ∧ pkt.event ≠ .moduleEnd ∧
      ¬ PayloadReadable (secs.foldl Section.apply md) pkt := by
  induction pkts generalizing md with
  | nil => cases h
  | cons pkt? pkts ih =>
    cases pkt? with
    | none => cases h
    | some pkt =>
      simp only [loadSections] at h
      split at h
      · cases h
      · rename_i hend
        cases hone : loadSection pkt md with
        | error e =>
          simp only [hone, ModuleLoad.failed.injEq] at h
          subst h
          exact ⟨[], [], pkt, pkts, rfl, .nil, trivial, hend,
            fun hread => (loadSection_ne_overread_iff md pkt).mpr hread hone⟩
        | ok md₁ =>
          simp only [hone] at h
          obtain ⟨sec, hparse, hacc, rfl⟩ := loadSection_ok_iff.mp hone
          obtain ⟨middle, secs, pkt', rest, rfl, hsay, haccs, hend', hnot⟩ := ih h
          exact ⟨pkt :: middle, sec :: secs, pkt', rest, rfl, .cons hparse hsay, ⟨hacc, haccs⟩,
            hend', hnot⟩

/-- After `CFI_LOADING_MODULE_BEGIN` and well-formed sections that leave `md`,
the loader gets to the packet `pkt`. -/
def GetsTo (pkts : List (Option LoadingPacket)) (md : ModuleData) (pkt : LoadingPacket) : Prop :=
  ∃ first middle secs rest, pkts = some first :: (middle.map some ++ some pkt :: rest) ∧
    first.event = .moduleBegin ∧ Say middle secs ∧ WellFormed secs ∧
    md = secs.foldl Section.apply .empty ∧ pkt.event ≠ .moduleEnd

/-- No decoder reads past the end of its packet, and a packet that is shorter
than it announces makes `monitor_load_module` return an error. -/
structure RejectsMalformed (mon : MonitorData) (pkts : List (Option LoadingPacket)) : Prop where
  within : monitorLoadModule mon pkts ≠ .failed .overread
  rejected : ∀ md pkt, GetsTo pkts md pkt → parseSection pkt = none →
    ∃ e, e ≠ .overread ∧ monitorLoadModule mon pkts = .failed e

/-- What the section decoder returns on the packet decides the whole call. -/
theorem GetsTo.failed {pkts : List (Option LoadingPacket)} {md : ModuleData} {pkt : LoadingPacket}
    (h : GetsTo pkts md pkt) {e : LoadError} (he : loadSection pkt md = .error e)
    (mon : MonitorData) : monitorLoadModule mon pkts = .failed e := by
  obtain ⟨first, middle, secs, rest, rfl, hbegin, hsay, hwf, rfl, hend⟩ := h
  have hacc := (described_nil.run wellFormed_nil hsay).1.mpr hwf
  have hload : loadSections .empty (middle.map some ++ some pkt :: rest) = .failed e := by
    rw [loadSections_append hsay hacc]
    simp only [loadSections, hend, if_false, he]
  simp only [monitorLoadModule, hbegin, hload]

theorem monitorLoadModule_overread {mon : MonitorData} {pkts : List (Option LoadingPacket)}
    (h : monitorLoadModule mon pkts = .failed .overread) :
    ∃ md pkt, GetsTo pkts md pkt ∧ ¬ PayloadReadable md pkt := by
  match pkts with
  | [] => cases h
  | none :: tail => cases h
  | some first :: tail =>
    simp only [monitorLoadModule] at h
    split at h
    · rename_i hbegin
      split at h
      · cases h
      · cases h
      · rename_i e hload
        obtain rfl := ModuleLoad.failed.inj h
        obtain ⟨middle, secs, pkt, rest, rfl, hsay, hacc, hend, hnot⟩ :=
          loadSections_overread hload
        have hwf := (described_nil.run wellFormed_nil hsay).1.mp hacc
        exact ⟨_, pkt, ⟨first, middle, secs, rest, rfl, hbegin, hsay, hwf, rfl, hend⟩, hnot⟩
      · cases h
    · cases h
    · cases h

/-- Malformed packets are rejected without an over-read exactly when every
packet the loader gets to is there up to the first item that is refused. -/
theorem rejects_malformed_iff (mon : MonitorData) (pkts : List (Option LoadingPacket)) :
    RejectsMalformed mon pkts ↔ ∀ md pkt, GetsTo pkts md pkt → PayloadReadable md pkt := by
  constructor
  · intro h md pkt hget
    by_contra hnot
    have herr : loadSection pkt md = .error .overread := by
      by_contra hne
      exact hnot ((loadSection_ne_overread_iff md pkt).mp hne)
    exact h.within (hget.failed herr mon)
  · intro h
    refine ⟨fun hover => ?_, fun md pkt hget hparse => ?_⟩
    · obtain ⟨md, pkt, hget, hnot⟩ := monitorLoadModule_overread hover
      exact hnot (h md pkt hget)
    · cases hone : loadSection pkt md with
      | error e =>
        refine ⟨e, ?_, hget.failed hone mon⟩
        rintro rfl
        exact (loadSection_ne_overread_iff md pkt).mpr (h md pkt hget) hone
      | ok md' =>
        obtain ⟨sec, hsec, -⟩ := loadSection_ok_iff.mp hone
        rw [hparse] at hsec
        cases hsec

/-- An empty function section is read through its NULL payload, and a section
that announces a record it does not hold is read past its end. -/
theorem short_function_section_is_overread :
    ¬ RejectsMalformed ⟨[]⟩ [some ⟨.moduleBegin, []⟩, some ⟨.sectionFunctionId, []⟩] ∧
      ¬ RejectsMalformed ⟨[]⟩
        [some ⟨.moduleBegin, []⟩, some ⟨.sectionFunctionId, Lib.le32 1⟩] :=
  ⟨fun h => h.within rfl, fun h => h.within rfl⟩

end Picon.Loader
