import Picon.Lib.Ledger
import Picon.Loader.Grammar

/-!
# The payload buffers of `monitor_load_module`

`READ_LOADING_PACKET` allocates the payload, `FREE_LOADING_PACKET` releases it
and resets the pointer. The read macro has a release of its own, on a short
payload, which leaves the pointer as it is.
-/

namespace Picon.Loader

open Lib (Ledger BufferId)
open Monitor

/-- How an execution of `READ_LOADING_PACKET` goes. -/
inductive Reading where
  | noEvent
  | noSize
  | noMemory
  /-- The payload was allocated and fewer bytes than announced arrived. -/
  | short
  | whole (pkt : LoadingPacket)
  deriving DecidableEq, Repr

/-- The packet, when `err` stays zero. -/
def Reading.packet? : Reading → Option LoadingPacket
  | .whole pkt => some pkt
  | _ => none

/-- `READ_LOADING_PACKET`: the packet, the pointer in `value` and the heap. -/
def readLoadingPacket (h : Ledger) : Reading → Option LoadingPacket × Option BufferId × Ledger
  | .noEvent | .noSize | .noMemory => (none, none, h)
  | .short =>
    let (b, h) := h.calloc
    (none, some b, h.free b)
  | .whole pkt =>
    if pkt.value = [] then (some pkt, none, h)
    else
      let (b, h) := h.calloc
      (some pkt, some b, h)

/-- `FREE_LOADING_PACKET`, which leaves `value` NULL. -/
def freeLoadingPacket (value : Option BufferId) (h : Ledger) : Ledger :=
  match value with
  | none => h
  | some b => h.free b

section Execution

variable (decode : LoadingPacket → ModuleData → Load ModuleData)

/-- The section loop of `monitor_load_module` with the pointer of the packet
before, up to its return value and the heap it returns with. -/
def loadSectionsHeap (value : Option BufferId) (h : Ledger) (md : ModuleData) :
    List Reading → ModuleLoad ModuleData × Ledger
  | [] => (.waiting, freeLoadingPacket value h)
  | r :: rest =>
    let (pkt?, value, h) := readLoadingPacket (freeLoadingPacket value h) r
    match pkt? with
    | none => (.failed (.code 4), freeLoadingPacket value h)
    | some pkt =>
      if pkt.event = .moduleEnd then
        (.loaded md (rest.map Reading.packet?), freeLoadingPacket value h)
      else
        match decode pkt md with
        | .error e => (.failed e, freeLoadingPacket value h)
        | .ok md' => loadSectionsHeap value h md' rest

/-- `monitor_load_module` on a heap; `begun` tells whether the module array was
extended and the module id sent. -/
def monitorLoadModuleHeap (begun : Bool) (mon : MonitorData) :
    List Reading → ModuleLoad MonitorData × Ledger
  | [] => (.waiting, .fresh)
  | r :: rest =>
    let (pkt?, value, h) := readLoadingPacket .fresh r
    match pkt? with
    | none => (.failed (.code 1), freeLoadingPacket value h)
    | some pkt =>
      match pkt.event with
      | .moduleBegin =>
        if begun then
          match loadSectionsHeap decode value h .empty rest with
          | (.terminated rest, h) => (.terminated rest, h)
          | (.loaded md rest, h) => (.loaded ⟨mon.modules ++ [md]⟩ rest, h)
          | (.failed e, h) => (.failed e, h)
          | (.waiting, h) => (.waiting, h)
        else (.failed (.code 10), freeLoadingPacket value h)
      | .terminated => (.terminated (rest.map Reading.packet?), freeLoadingPacket value h)
      | _ => (.failed (.code 5), freeLoadingPacket value h)

end Execution

/-! ### The heap model returns what the loader returns -/

theorem readLoadingPacket_packet (h : Ledger) (r : Reading) :
    (readLoadingPacket h r).1 = r.packet? := by
  cases r with
  | whole pkt =>
    simp only [readLoadingPacket]
    split <;> rfl
  | _ => rfl

theorem loadSectionsHeap_fst (value : Option BufferId) (h : Ledger) (md : ModuleData)
    (readings : List Reading) :
    (loadSectionsHeap loadSection value h md readings).1 =
      loadSections md (readings.map Reading.packet?) := by
  induction readings generalizing value h md with
  | nil => rfl
  | cons r rest ih =>
    simp only [loadSectionsHeap, readLoadingPacket_packet, List.map_cons]
    cases r.packet? with
    | none => rfl
    | some pkt =>
      simp only [loadSections]
      split
      · rfl
      · cases loadSection pkt md with
        | error e => rfl
        | ok md' => exact ih _ _ _

/-- With the section decoders of the source and a module that could be begun,
the return value is the one of `monitor_load_module`. -/
theorem monitorLoadModuleHeap_fst (mon : MonitorData) (readings : List Reading) :
    (monitorLoadModuleHeap loadSection true mon readings).1 =
      monitorLoadModule mon (readings.map Reading.packet?) := by
  cases readings with
  | nil => rfl
  | cons r rest =>
    simp only [monitorLoadModuleHeap, readLoadingPacket_packet, List.map_cons]
    cases r.packet? with
    | none => rfl
    | some pkt =>
      obtain ⟨event, payload⟩ := pkt
      cases event with
      | moduleBegin =>
        simp only [monitorLoadModule, if_true, ← loadSectionsHeap_fst (readLoadingPacket .fresh r).2.1
          (readLoadingPacket .fresh r).2.2]
        rcases loadSectionsHeap loadSection _ _ _ _ with ⟨result, heap⟩
        cases result <;> rfl
      | _ => rfl

/-! ### The ledger of an execution -/

/-- The ledger after a read that brings a packet, and after one that does not. -/
theorem readLoadingPacket_holds {h : Ledger} (hh : h.Holds []) {r : Reading} (hr : r ≠ .short) :
    (readLoadingPacket h r).2.2.Holds (readLoadingPacket h r).2.1.toList := by
  cases r with
  | short => exact absurd rfl hr
  | whole pkt =>
    simp only [readLoadingPacket]
    split
    · exact hh
    · exact hh.calloc
  | noEvent | noSize | noMemory => exact hh

theorem freeLoadingPacket_holds {value : Option BufferId} {h : Ledger}
    (hh : h.Holds value.toList) : (freeLoadingPacket value h).Holds [] := by
  cases value with
  | none => exact hh
  | some b => exact hh.free

/-- A short payload is released by the macro and again by its caller. -/
theorem short_dangling {h : Ledger} (hh : h.Holds []) :
    (freeLoadingPacket (readLoadingPacket h .short).2.1
      (readLoadingPacket h .short).2.2).dangling = [h.allocated] :=
  hh.calloc.free.free_dangling h.allocated

section Ledgers

variable {decode : LoadingPacket → ModuleData → Load ModuleData}

/-- The section loop reads a short payload after accepted sections. -/
inductive ShortSection (decode : LoadingPacket → ModuleData → Load ModuleData) :
    ModuleData → List Reading → Prop where
  | here {md : ModuleData} {rest : List Reading} : ShortSection decode md (.short :: rest)
  | next {md md' : ModuleData} {pkt : LoadingPacket} {rest : List Reading}
      (isSection : pkt.event ≠ .moduleEnd) (accepted : decode pkt md = .ok md')
      (later : ShortSection decode md' rest) : ShortSection decode md (.whole pkt :: rest)

/-- Among the packets that are read there is one with a short payload. -/
def ShortPayload (decode : LoadingPacket → ModuleData → Load ModuleData) (begun : Bool)
    (readings : List Reading) : Prop :=
  (∃ rest, readings = .short :: rest) ∨
    ∃ first rest, readings = .whole first :: rest ∧ first.event = .moduleBegin ∧ begun = true ∧
      ShortSection decode .empty rest

theorem loadSectionsHeap_ledger {value : Option BufferId} {h : Ledger} {md : ModuleData}
    (readings : List Reading) (hh : h.Holds value.toList) :
    (¬ ShortSection decode md readings →
        (loadSectionsHeap decode value h md readings).2.Holds []) ∧
      (ShortSection decode md readings →
        (loadSectionsHeap decode value h md readings).2.dangling ≠ []) := by
  induction readings generalizing value h md with
  | nil =>
    refine ⟨fun _ => freeLoadingPacket_holds hh, fun hshort => ?_⟩
    cases hshort
  | cons r rest ih =>
    have hfree := freeLoadingPacket_holds hh
    cases r with
    | short =>
      refine ⟨fun hnot => absurd .here hnot, fun _ => ?_⟩
      have hdangling := short_dangling hfree
      simp only [loadSectionsHeap, readLoadingPacket] at hdangling ⊢
      simp [hdangling]
    | noEvent | noSize | noMemory =>
      refine ⟨fun _ => hfree, fun hshort => ?_⟩
      cases hshort
    | whole pkt =>
      have hread := readLoadingPacket_holds hfree (r := .whole pkt) nofun
      have hpkt := readLoadingPacket_packet (freeLoadingPacket value h) (.whole pkt)
      simp only [loadSectionsHeap, hpkt, Reading.packet?]
      by_cases hend : pkt.event = .moduleEnd
      · rw [if_pos hend]
        refine ⟨fun _ => freeLoadingPacket_holds hread, fun hshort => ?_⟩
        cases hshort with
        | next isSection _ _ => exact absurd hend isSection
      · rw [if_neg hend]
        cases hone : decode pkt md with
        | error e =>
          refine ⟨fun _ => freeLoadingPacket_holds hread, fun hshort => ?_⟩
          cases hshort with
          | next _ accepted _ =>
            rw [hone] at accepted
            cases accepted
        | ok md' =>
          obtain ⟨hclean, hdirty⟩ := @ih _ _ md' hread
          refine ⟨fun hnot => hclean fun hlater => hnot (.next hend hone hlater), fun hshort => ?_⟩
          cases hshort with
          | next _ accepted later =>
            rw [hone] at accepted
            obtain rfl := Except.ok.inj accepted
            exact hdirty later

/-- The heap at the end: nothing is held, or a released buffer was released
again. -/
theorem monitorLoadModuleHeap_ledger (decode : LoadingPacket → ModuleData → Load ModuleData)
    (begun : Bool) (mon : MonitorData) (readings : List Reading) :
    (¬ ShortPayload decode begun readings →
      (monitorLoadModuleHeap decode begun mon readings).2.Holds []) ∧
    (ShortPayload decode begun readings →
      (monitorLoadModuleHeap decode begun mon readings).2.dangling ≠ []) := by
  have hfresh := Ledger.fresh_holds
  cases readings with
  | nil =>
    refine ⟨fun _ => hfresh, ?_⟩
    rintro (⟨rest, h⟩ | ⟨first, rest, h, -⟩)
    · cases h
    · cases h
  | cons r rest =>
    cases r with
    | short =>
      refine ⟨fun hnot => absurd (.inl ⟨rest, rfl⟩) hnot, fun _ => ?_⟩
      have hdangling := short_dangling hfresh
      simp only [monitorLoadModuleHeap, readLoadingPacket] at hdangling ⊢
      simp [hdangling]
    | noEvent | noSize | noMemory =>
      refine ⟨fun _ => hfresh, ?_⟩
      rintro (⟨rest, h⟩ | ⟨first, rest, h, -⟩)
      · cases h
      · cases h
    | whole pkt =>
      have hread := readLoadingPacket_holds hfresh (r := .whole pkt) nofun
      have hpkt := readLoadingPacket_packet .fresh (.whole pkt)
      have hiff : ShortPayload decode begun (.whole pkt :: rest) ↔
          pkt.event = .moduleBegin ∧ begun = true ∧ ShortSection decode .empty rest := by
        constructor
        · rintro (⟨rest', h⟩ | ⟨first, rest', h, hshort⟩)
          · cases h
          · obtain ⟨hfirst, rfl⟩ := List.cons.inj h
            obtain rfl := Reading.whole.inj hfirst
            exact hshort
        · intro hshort
          exact .inr ⟨pkt, rest, rfl, hshort⟩
      simp only [monitorLoadModuleHeap, hpkt, Reading.packet?]
      split
      · rename_i hbegin
        cases begun with
        | false =>
          simp only [Bool.false_eq_true, false_and, and_false, iff_false] at hiff
          exact ⟨fun _ => freeLoadingPacket_holds hread, fun hshort => absurd hshort hiff⟩
        | true =>
          rw [hiff]
          simp only [hbegin, true_and, if_true]
          have hrun := @loadSectionsHeap_ledger decode _ _ .empty rest hread
          rcases hload : loadSectionsHeap decode _ _ _ rest with ⟨result, heap⟩
          rw [hload] at hrun
          cases result <;> exact hrun
      · rename_i hterm
        exact ⟨fun _ => freeLoadingPacket_holds hread, fun hshort =>
          absurd (hiff.mp hshort).1 (by simp [hterm])⟩
      · rename_i hbegin _
        exact ⟨fun _ => freeLoadingPacket_holds hread, fun hshort =>
          absurd (hiff.mp hshort).1 hbegin⟩

/-- Every payload buffer is released exactly once, and no released buffer is
released again, exactly when no payload that is read falls short; whatever the
section decoders answer and whether or not the module could be begun. -/
theorem buffers_released_once_iff (decode : LoadingPacket → ModuleData → Load ModuleData)
    (begun : Bool) (mon : MonitorData) (readings : List Reading) :
    (monitorLoadModuleHeap decode begun mon readings).2.Settled ↔
      ¬ ShortPayload decode begun readings := by
  obtain ⟨hwhole, hshort⟩ := monitorLoadModuleHeap_ledger decode begun mon readings
  constructor
  · intro hsettled hcut
    exact hshort hcut hsettled.1
  · intro hnot
    exact (hwhole hnot).settled

end Ledgers

/-- A section packet that is cut short ends in a second release of its buffer. -/
theorem short_section_payload_is_freed_twice :
    (monitorLoadModuleHeap loadSection true ⟨[]⟩ [.whole ⟨.moduleBegin, []⟩, .short]).2 =
        ⟨1, [], [0, 0], [0]⟩ ∧
      ¬ (monitorLoadModuleHeap loadSection true ⟨[]⟩
        [.whole ⟨.moduleBegin, []⟩, .short]).2.Settled :=
  ⟨rfl, fun h => absurd h.1 (by decide)⟩

end Picon.Loader
