import Picon.Program.Toolchain
import Picon.Session.Agreement

/-!
# The constructor that is printed

The statements that a session runs for a module, against the C source that the
tool chain prints for it: the source does these statements and nothing else, so
what holds of every session holds of the compiled constructors.
-/

namespace Picon.Session

open Pass Prelink Monitor Program

/-- What a statement does that others see. The signals of the init functions are
their own business. -/
def Statement.performed : Statement → List CtorAction
  | .writeLoadingPacket pkt => [.send pkt]
  | .setModuleId => [.setModuleId]
  | .callInitWrapper m => m.fctsInit.map fun e => .call e.name
  | .writeClientSignal _ | .readMonitorAnswer => []

theorem performed_packets (pkts : List LoadingPacket) :
    (pkts.map Statement.writeLoadingPacket).flatMap Statement.performed =
      pkts.map CtorAction.send := by
  induction pkts with
  | nil => rfl
  | cons pkt pkts ih =>
    rw [List.map_cons, List.flatMap_cons, ih]
    rfl

/-- A module that went through the files of a prefix and through prelink: the
constructor of the printed source does what the session has it do. -/
theorem printed_constructor (m : InstrumentedModule) (pathPrefix : Bytes)
    (hpath : m.build.cfiPrefix = ofPathBytes pathPrefix) (hunits : m.build.units ≠ [])
    (hwritable : Writable pathPrefix
      (m.build.units.map (buildOptions pathPrefix m.level m.ignored).run))
    (hnumberable : Numberable (m.build.units.map (buildOptions pathPrefix m.level m.ignored).run))
    (o : DictOrder) (htables : o.tables m.build.parsed = m.tables)
    (hitems : o.items (fctsInit m.build.parsed.fcts) = m.fctsInit)
    (hfits : SourceFits m.build.packets) (hspell : Spellable m.build.parsed.fcts) :
    ∃ texts s,
      compileTexts (buildOptions pathPrefix m.level m.ignored) m.build.units .empty =
        some (m.build.passes, texts) ∧
      prelink o texts = .ok s ∧
      s.constructor = some ((genCtor m).flatMap Statement.performed) := by
  obtain ⟨texts, htexts, hprelink⟩ := m.build.through_text hpath hunits hwritable hnumberable
  have hpkts : modulePackets (o.tables m.build.parsed) = some m.build.packets := by
    rw [htables]
    exact m.build.packets_eq
  obtain ⟨s, first, rest, hs, hsplit, hctor, -⟩ := generateTables_runs hpkts hfits hspell
  refine ⟨texts, s, htexts, (hprelink o).trans hs, ?_⟩
  obtain ⟨rfl, rfl⟩ := List.cons.inj (hsplit.symm.trans m.packets_eq)
  rw [hctor, hitems]
  have hpackets := performed_packets (m.sections ++ endPacket :: terminator m.tables)
  rw [genCtor, List.flatMap_cons, List.flatMap_cons, List.flatMap_append, hpackets]
  simp [Statement.performed]

theorem printed_constructor_starting :
    Writable (pathBytes "bin") (starting.units.map (buildOptions (pathBytes "bin") .function []).run) ∧
    ∃ texts s,
      (compileTexts (buildOptions (pathBytes "bin") .function []) starting.units .empty).map
        Prod.snd = some texts ∧
      prelink .insertion texts = .ok s ∧
      s.constructor = some ((genCtor startingModule).flatMap Statement.performed) := by
  have hwritable : Writable (pathBytes "bin")
      (starting.units.map (buildOptions (pathBytes "bin") .function []).run) := by
    refine ⟨?_, fun _ => (show IsPath "bin" by decide).2.2, by decide⟩
    intro r hr name hmentions
    have hall : ∀ name ∈ mentionedNames
        (starting.units.map (buildOptions (pathBytes "bin") .function []).run), Lib.IsWord name := by
      decide
    exact hall name (mem_mentionedNames hr hmentions)
  have hnumberable : Numberable
      (starting.units.map (buildOptions (pathBytes "bin") .function []).run) :=
    ⟨by decide, by simp [starting, PassOptions.run, startingUnit, Function.straight]⟩
  have hfits : SourceFits startingModule.build.packets := ⟨by decide, by decide⟩
  have hspell : Spellable startingModule.build.parsed.fcts := by
    unfold Spellable
    decide
  obtain ⟨texts, s, htexts, hs, hctor⟩ := printed_constructor startingModule (pathBytes "bin") rfl
    (List.cons_ne_nil _ _) hwritable hnumberable .insertion rfl rfl hfits hspell
  refine ⟨hwritable, texts, s, ?_, hs, hctor⟩
  have hsnd := congrArg (Option.map Prod.snd) htexts
  exact hsnd

end Picon.Session
