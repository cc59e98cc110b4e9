import Picon.Prelink.Source
import Picon.Program.Texts
import Picon.Program.Wrappers

/-!
# From the units to the C source, through the files

The runs of the pass over the text of the four files of their prefix, then
`picon-prelink` on what they leave: its parsers, their dictionaries of numbers,
and the source it prints. As long as no name and no path has white space in it,
and no number has too many bits, nothing is lost on the way: prelink says what
it says over the records.
-/

namespace Picon.Program

open Lib Pass Prelink

/-! ### `picon-prelink` -/

/-- A turn of the loop of `parse_callgraph`. -/
def parseCallgraphLine (callgraph : List (Int × List Int)) (line : Bytes) :
    Except Stop (List (Int × List Int)) := do
  let line := rstrip line
  let word ← orRaise (splitWords line)[0]?
  let id ← orRaise (parseInt (word.dropLast.drop 1))
  let callees ← orRaise (((splitWords line).drop 1).mapM parseInt)
  .ok (dictSet Prod.fst (id, callees) callgraph)

/-- `parse_callgraph`. -/
def parseCallgraphFile (text : Bytes) : Except Stop (List (Int × List Int)) :=
  (textLines text).foldlM parseCallgraphLine []

/-- The variables of `__main__` behind the parsers. -/
structure Parsed where
  fcts : List (Bytes × Int × Bytes)
  callgraph : List (Int × List Int)
  blocks : Option ((List (Int × List (Int × List Int)) × List (Int × Int)) × List (List Int))

/-- The parsing half of `__main__`. Opening a file that is not there raises. -/
def parseTexts (texts : FileTexts) : Except Stop Parsed := do
  let fcts ← orRaise texts.fctid >>= parseFctidsFile
  let callgraph ← orRaise texts.trans >>= parseCallgraphFile
  match texts.bbtrans with
  | none => .ok ⟨fcts, callgraph, none⟩
  | some bbtrans => do
    let bb ← parseBbFile bbtrans
    let ipd ← orRaise texts.ipdom >>= parseBbIpdFile
    .ok ⟨fcts, callgraph, some (bb, ipd)⟩

/-- `struct.pack` takes no negative number, whatever its format. -/
def natural (n : Int) : Except Stop Nat := if 0 ≤ n then .ok n.toNat else .error .raised

def naturalEdges (e : Int × List Int) : Except Stop (Nat × List Nat) := do
  let source ← natural e.1
  let targets ← e.2.mapM natural
  .ok (source, targets)

def naturalFct (e : Bytes × Int × Bytes) : Except Stop FctEntry := do
  let id ← natural e.2.1
  .ok ⟨e.1, id, ofPathBytes e.2.2⟩

/-- An item of `bb`, with `fct_num_blocks[fct_id]`. -/
def naturalBlocks (fctNumBlocks : List (Int × Int)) (e : Int × List (Int × List Int)) :
    Except Stop BlockEntry := do
  let fct ← natural e.1
  let numBlocks ← orRaise (fctNumBlocks.lookup e.1) >>= natural
  let succs ← e.2.mapM naturalEdges
  .ok ⟨fct, numBlocks, succs⟩

/-- `'<IIII'` takes four numbers. -/
def naturalIpd : List Int → Except Stop IpdTuple
  | [fct, block, ipd, last] => do
    let fct ← natural fct
    let block ← natural block
    let ipd ← natural ipd
    let last ← natural last
    .ok ⟨fct, block, ipd, last⟩
  | _ => .error .raised

/-- The tables that the generators are given. -/
def Parsed.tables (p : Parsed) : Except Stop Tables := do
  let fcts ← p.fcts.mapM naturalFct
  let callgraph ← p.callgraph.mapM naturalEdges
  match p.blocks with
  | none => .ok ⟨fcts, callgraph, false, [], []⟩
  | some ((bb, fctNumBlocks), ipd) => do
    let bb ← bb.mapM (naturalBlocks fctNumBlocks)
    let ipd ← ipd.mapM naturalIpd
    .ok ⟨fcts, callgraph, true, bb, ipd⟩

/-- The orders in which dictionaries are iterated over. -/
structure DictOrder where
  tables : Tables → Tables
  iterates : ∀ t : Tables, t.Iterates (tables t)
  items : List FctEntry → List FctEntry
  items_perm : ∀ l, (items l).Perm l

/-- The generating half of `__main__`. Nothing is printed before all of it has
been generated. -/
def generateTables (o : DictOrder) (t : Tables) : Except Stop Source :=
  orRaise (generate (o.tables t) (o.items (fctsInit t.fcts)) (o.items (fctsFini t.fcts)))

/-- `picon-prelink` on the files of a prefix. -/
def prelink (o : DictOrder) (texts : FileTexts) : Except Stop Source := do
  let parsed ← parseTexts texts
  let t ← parsed.tables
  generateTables o t

/-- And over records. -/
def prelinkRecords (o : DictOrder) (files : Files) : Except Stop Source :=
  match parseFiles files with
  | none => .error (.exit 255)
  | some t => generateTables o t

/-! ### The parsers -/

theorem parseCallgraphLine_succLine (callgraph : List (Int × List Int)) (id : Int)
    (callees : List Int) : parseCallgraphLine callgraph (succLine id callees) =
      .ok (dictSet Prod.fst (id, callees) callgraph) := by
  have hslice : (40 :: (decimalInt id ++ [41])).dropLast.drop 1 = decimalInt id := by
    rw [← List.cons_append, List.dropLast_concat]
    rfl
  unfold parseCallgraphLine
  dsimp only
  rw [splitWords_rstrip, splitWords_succLine]
  show (orRaise (parseInt ((40 :: (decimalInt id ++ [41])).dropLast.drop 1)) >>= _) = _
  rw [hslice, parseInt_decimalInt]
  show (orRaise ((callees.map decimalInt).mapM parseInt) >>= _) = _
  rw [mapM_parseInt]
  rfl

/-- A dictionary of numbers is filled like the one of its records. -/
theorem dictSet_intEdges (e : Nat × List Nat) (d : List (Nat × List Nat)) :
    dictSet Prod.fst (intEdges e) (d.map intEdges) = (dictSet Prod.fst e d).map intEdges := by
  induction d with
  | nil => rfl
  | cons e' d ih =>
    have hkey : (intEdges e').1 = (intEdges e).1 ↔ e'.1 = e.1 := Int.ofNat_inj
    rw [List.map_cons, dictSet, dictSet]
    by_cases h : e'.1 = e.1
    · rw [if_pos (hkey.mpr h), if_pos h]
      rfl
    · rw [if_neg fun heq => h (hkey.mp heq), if_neg h, ih]
      rfl

/-- `parse_callgraph` reads the lines back, the last one of each function. -/
theorem parseCallgraphFile_text (trans : List (Nat × List Nat)) :
    parseCallgraphFile (transText trans) = .ok ((parseCallgraph trans).map intEdges) := by
  have hlines : ∀ line ∈ trans.map fun e => succLine (intEdges e).1 (intEdges e).2,
      10 ∉ line := by
    intro line hline
    obtain ⟨e, -, rfl⟩ := List.mem_map.mp hline
    exact succLine_noEnd _ _
  have hfold : ∀ l d : List (Nat × List Nat),
      (l.map fun e => succLine (intEdges e).1 (intEdges e).2).foldlM parseCallgraphLine
          (d.map intEdges) =
        .ok ((l.foldl (fun d e => dictSet Prod.fst e d) d).map intEdges) := by
    intro l
    induction l with
    | nil => exact fun d => rfl
    | cons e l ih =>
      intro d
      rw [List.map_cons, List.foldlM_cons, parseCallgraphLine_succLine]
      show List.foldlM parseCallgraphLine (dictSet Prod.fst (intEdges e) (d.map intEdges)) _ = _
      rw [dictSet_intEdges]
      exact ih _
  rw [parseCallgraphFile, transText, textLines_flatMap hlines]
  exact hfold trans []

/-! ### The numbers -/

theorem natural_cast (n : Nat) : natural (n : Int) = .ok n := by
  rw [natural, if_pos (Int.natCast_nonneg n), Int.toNat_natCast]

/-- What each item comes back from, the list comes back from. -/
theorem mapM_map_ok {α β ε : Type} {f : α → Except ε β} {g : β → α} {l : List β}
    (h : ∀ b ∈ l, f (g b) = .ok b) : (l.map g).mapM f = .ok l := by
  induction l with
  | nil => rfl
  | cons b l ih =>
    rw [List.map_cons, List.mapM_cons, h b List.mem_cons_self,
      ih fun b hb => h b (List.mem_cons_of_mem _ hb)]
    rfl

theorem naturalEdges_intEdges (e : Nat × List Nat) : naturalEdges (intEdges e) = .ok e := by
  have htargets := mapM_map_ok (l := e.2) fun n _ => natural_cast n
  unfold naturalEdges intEdges
  rw [natural_cast, htargets]
  rfl

theorem naturalFct_entry {e : FctEntry} (he : IsPath e.flag) :
    naturalFct (e.name, (e.id : Int), pathBytes e.flag) = .ok e := by
  unfold naturalFct
  rw [natural_cast]
  show Except.ok (⟨e.name, e.id, ofPathBytes (pathBytes e.flag)⟩ : FctEntry) = _
  rw [ofPathBytes_pathBytes he.1]

theorem naturalIpd_tupleInts (p : IpdTuple) : naturalIpd (tupleInts p) = .ok p := by
  show (do
    let fct ← natural p.fct
    let block ← natural p.block
    let ipd ← natural p.ipd
    let last ← natural p.last
    Except.ok (⟨fct, block, ipd, last⟩ : IpdTuple)) = _
  simp only [natural_cast]
  rfl

theorem lookup_numBlocksDict {entries : List BlockEntry}
    (hnodup : (entries.map BlockEntry.fct).Nodup) {e : BlockEntry} (he : e ∈ entries) :
    (numBlocksDict entries).lookup (e.fct : Int) = some (e.numBlocks : Int) := by
  have hkeys : ((numBlocksDict entries).map Prod.fst).Nodup := by
    rw [numBlocksDict_keys]
    exact hnodup.map fun _ _ h => Int.ofNat_inj.mp h
  exact (IdMap.lookup_eq_some hkeys).mpr (List.mem_map_of_mem he)

theorem naturalBlocks_entry {entries : List BlockEntry}
    (hnodup : (entries.map BlockEntry.fct).Nodup) {e : BlockEntry} (he : e ∈ entries) :
    naturalBlocks (numBlocksDict entries) ((e.fct : Int), intSuccs e.succs) = .ok e := by
  have hsuccs : (intSuccs e.succs).mapM naturalEdges = .ok e.succs :=
    mapM_map_ok fun s _ => naturalEdges_intEdges s
  unfold naturalBlocks
  have hnum : (orRaise (some (e.numBlocks : Int)) >>= natural) = .ok e.numBlocks :=
    natural_cast e.numBlocks
  dsimp only
  rw [natural_cast, lookup_numBlocksDict hnodup he, hsuccs, hnum]
  rfl

/-! ### The whole of prelink -/

/-- The fields of a created file. -/
theorem exists_text {file : Option Bytes} {text : Bytes} (hsome : file.isSome)
    (hget : file.getD [] = text) : file = some text := by
  obtain ⟨text', rfl⟩ := Option.isSome_iff_exists.mp hsome
  exact congrArg some hget

section Parse

variable {texts : FileTexts} {files : Files}

/-- The functions and the call graph, before the blocks are looked at. -/
theorem parseFunctions (hw : Written texts files) (hcreated : Created texts)
    (hnum : NumberedFile files.fctid) (hproper : ∀ e ∈ files.fctid, ProperRecord e) :
    (orRaise texts.fctid >>= parseFctidsFile) =
        .ok (files.fctid.map fun e => (e.name, (e.id : Int), pathBytes e.flag)) ∧
      (orRaise texts.trans >>= parseCallgraphFile) =
        .ok ((parseCallgraph files.trans).map intEdges) := by
  rw [exists_text hcreated.fctid hw.fctid, exists_text hcreated.trans hw.trans]
  exact ⟨parseFctidsFile_text hnum.names hproper, parseCallgraphFile_text files.trans⟩

theorem mapM_naturalFct (hproper : ∀ e ∈ files.fctid, ProperRecord e) :
    (files.fctid.map fun e => (e.name, (e.id : Int), pathBytes e.flag)).mapM naturalFct =
      .ok files.fctid :=
  mapM_map_ok fun e he => naturalFct_entry (hproper e he).flag

/-- The parsers find in the files what `parseFiles` makes of the records. -/
theorem parseTexts_written (hw : Written texts files) (hcreated : Created texts)
    (hnum : NumberedFile files.fctid) (hproper : ∀ e ∈ files.fctid, ProperRecord e)
    (hfits : FitsFiles files)
    (hblocks : ∀ bb ∈ files.bbtrans, ∀ e ∈ bb, (e.succs.map Prod.fst).Nodup ∧
      (e.numBlocks = 1 → e.succs = [])) :
    parseTexts texts >>= Parsed.tables =
      match parseFiles files with
      | none => .error (.exit 255)
      | some t => .ok t := by
  obtain ⟨hfcts, hcallgraph⟩ := parseFunctions hw hcreated hnum hproper
  have hfctsNat := mapM_naturalFct hproper
  have hcallgraphNat : ((parseCallgraph files.trans).map intEdges).mapM naturalEdges =
      .ok (parseCallgraph files.trans) := mapM_map_ok fun e _ => naturalEdges_intEdges e
  have hsame : parseFctids files.fctid = files.fctid := dictOf_of_nodup hnum.names
  have hbbtrans := hw.bbtrans
  unfold parseTexts parseFiles
  rw [hfcts, hcallgraph, hsame]
  cases hfile : files.bbtrans with
  | none =>
    rw [hfile] at hbbtrans
    rw [hbbtrans]
    show Parsed.tables _ = _
    unfold Parsed.tables
    dsimp only
    rw [hfctsNat, hcallgraphNat]
    rfl
  | some entries =>
    rw [hfile] at hbbtrans
    have hparse := parseBbFile_entries (fun e he => (hblocks entries hfile e he).1)
      fun e he => (hblocks entries hfile e he).2
    have hentries : entries.map uint32Entry = entries :=
      (List.map_congr_left fun e he => uint32Entry_of_fits (hfits.bbtrans entries hfile e he)).trans
        (List.map_id entries)
    have htuples : files.ipdom.map printedInts = files.ipdom.map tupleInts :=
      List.map_congr_left fun p hp => printedInts_of_fits (hfits.ipdom p hp)
    have hipd := parseBbIpdFile_tuples files.ipdom
    rw [htuples] at hipd
    rw [hbbtrans, exists_text hcreated.ipdom hw.ipdom]
    dsimp only [Option.map_some]
    rw [bbtransText, hentries, hparse]
    cases hbb : parseBb entries with
    | none => rfl
    | some bb =>
      obtain ⟨rfl, hnodup⟩ :=
        (parseBb_eq_some fun e he => (hblocks entries hfile e he).1).mp hbb
      have hbbNat : (bbDict bb).mapM (naturalBlocks (numBlocksDict bb)) = .ok bb :=
        mapM_map_ok fun e he => naturalBlocks_entry hnodup he
      have hipdNat : (files.ipdom.map tupleInts).mapM naturalIpd = .ok files.ipdom :=
        mapM_map_ok fun p _ => naturalIpd_tupleInts p
      have hread : (orRaise (some (ipdomText files.ipdom)) >>= parseBbIpdFile) =
          .ok (files.ipdom.map tupleInts) := hipd
      show ((orRaise (some (ipdomText files.ipdom)) >>= parseBbIpdFile) >>= fun ipd =>
        Except.ok (⟨_, _, some ((bbDict bb, numBlocksDict bb), ipd)⟩ : Parsed)) >>= _ = _
      rw [hread]
      show Parsed.tables _ = _
      unfold Parsed.tables
      dsimp only
      rw [hfctsNat, hcallgraphNat]
      show (do
        let bb ← (bbDict bb).mapM (naturalBlocks (numBlocksDict bb))
        let ipd ← (files.ipdom.map tupleInts).mapM naturalIpd
        Except.ok (⟨files.fctid, parseCallgraph files.trans, true, bb, ipd⟩ : Tables)) = _
      rw [hbbNat, hipdNat]
      rfl

end Parse

/-! ### From the units to the source -/

section Units

variable {pathPrefix : Bytes} {level : Level} {ignored : List Name}
  {units : List (PassEnv × TranslationUnit)}

/-- The options of a build under this prefix. -/
def buildOptions (pathPrefix : Bytes) (level : Level) (ignored : List Name) : PassOptions :=
  ⟨ofPathBytes pathPrefix, level, ignored⟩

/-- Through the files, prelink says what it says over the records. -/
theorem prelink_compileTexts (hunits : units ≠ [])
    (hwritable : Writable pathPrefix (units.map (buildOptions pathPrefix level ignored).run))
    (hnumberable : Numberable (units.map (buildOptions pathPrefix level ignored).run)) :
    ∃ passes files texts,
      compile (buildOptions pathPrefix level ignored) units .empty = some (passes, files) ∧
      compileTexts (buildOptions pathPrefix level ignored) units .empty = some (passes, texts) ∧
      ∀ o, prelink o texts = prelinkRecords o files := by
  obtain ⟨passes, files, texts, hall, htexts, hleaves⟩ := runAllTexts_empty hwritable hnumberable
    fun hnil => hunits (List.map_eq_nil_iff.mp hnil)
  have hcompile : compile (buildOptions pathPrefix level ignored) units .empty =
      some (passes, files) := (compile_eq_runAll _ units .empty).trans hall
  refine ⟨passes, files, texts, hcompile, htexts, fun o => ?_⟩
  have hd : Describes level ([] ++ passes) files := ((Describes.empty level).compile hcompile).1
  rw [List.nil_append] at hd
  have hblocks : ∀ bb ∈ files.bbtrans, ∀ e ∈ bb, (e.succs.map Prod.fst).Nodup ∧
      (e.numBlocks = 1 → e.succs = []) := by
    intro bb hbb e he
    rw [hd.bbtrans, Option.mem_def] at hbb
    split at hbb
    · obtain rfl := Option.some.inj hbb
      obtain ⟨cfi, -, hmem⟩ := List.mem_flatMap.mp he
      obtain ⟨f, -, -, rfl⟩ := writeAllowedBBTrans_mem.mp hmem
      refine ⟨succLines_nodup f.fn, fun hone => ?_⟩
      show succLines f.fn = []
      rw [succLines, if_pos hone]
    · cases hbb
  have hparse := parseTexts_written hleaves.written hleaves.created hleaves.proper.numbered
    (hleaves.proper.proper hwritable.few) hleaves.fits hblocks
  have hsplit : prelink o texts = (parseTexts texts >>= Parsed.tables) >>= generateTables o := by
    rw [bind_assoc]
    rfl
  rw [hsplit, hparse, prelinkRecords]
  cases parseFiles files <;> rfl

/-- Every function that a wrapper calls has a name that C can spell. -/
def Spellable (fcts : List FctEntry) : Prop :=
  ∀ e ∈ fcts, e.flag = "Init" ∨ e.flag = "Fini" → IsIdentifier e.name

/-- What prelink prints for these tables. -/
theorem generateTables_runs {o : DictOrder} {t : Tables} {pkts : List Monitor.LoadingPacket}
    (hpkts : modulePackets (o.tables t) = some pkts) (hfits : SourceFits pkts)
    (hspell : Spellable t.fcts) :
    ∃ s first rest, generateTables o t = .ok s ∧ pkts = first :: rest ∧
      s.constructor = some (.send first :: .setModuleId ::
        (rest.map .send ++ (o.items (fctsInit t.fcts)).map fun e => .call e.name)) ∧
      s.destructor = some ((o.items (fctsFini t.fcts)).map fun e => .call e.name) := by
  have hmem : ∀ flag, ∀ e ∈ o.items (fctsWithFlag flag t.fcts), e ∈ t.fcts ∧ e.flag = flag := by
    intro flag e he
    have hfilter := List.mem_filter.mp ((o.items_perm _).mem_iff.mp he)
    exact ⟨hfilter.1, of_decide_eq_true hfilter.2⟩
  have hinit : ∀ e ∈ o.items (fctsInit t.fcts), IsIdentifier e.name := by
    intro e he
    obtain ⟨he, hflag⟩ := hmem "Init" e he
    exact hspell e he (.inl hflag)
  have hfini : ∀ e ∈ o.items (fctsFini t.fcts), IsIdentifier e.name := by
    intro e he
    obtain ⟨he, hflag⟩ := hmem "Fini" e he
    exact hspell e he (.inr hflag)
  obtain ⟨s, first, rest, hs, hrest⟩ := generate_constructs hinit hfini hpkts hfits
  refine ⟨s, first, rest, ?_, hrest⟩
  rw [generateTables, hs]
  rfl

/-- The tables of a build are those prelink finds in the text of its files. -/
theorem Build.through_text (B : Build level ignored) {pathPrefix : Bytes}
    (hpath : B.cfiPrefix = ofPathBytes pathPrefix) (hunits : B.units ≠ [])
    (hwritable : Writable pathPrefix (B.units.map (buildOptions pathPrefix level ignored).run))
    (hnumberable : Numberable (B.units.map (buildOptions pathPrefix level ignored).run)) :
    ∃ texts, compileTexts (buildOptions pathPrefix level ignored) B.units .empty =
        some (B.passes, texts) ∧
      ∀ o, prelink o texts = generateTables o B.parsed := by
  obtain ⟨passes, files, texts, hcompile, htexts, hprelink⟩ :=
    prelink_compileTexts hunits hwritable hnumberable
  have hcompiled := B.compiled
  rw [hpath] at hcompiled
  obtain ⟨rfl, rfl⟩ := Prod.mk.inj (Option.some.inj (hcompile.symm.trans hcompiled))
  refine ⟨texts, htexts, fun o => ?_⟩
  rw [hprelink o, prelinkRecords, B.parsed_eq]

/-- The units of a binary, compiled one after the other over the files of a
prefix and linked through prelink. It gives up with status 255 exactly when two
units describe the blocks of one function. Otherwise, and if the values fit, it
prints a source whose constructor sends the packets of the tables, reads the id
behind the first one and calls the init functions. -/
theorem toolchain_runs (hunits : units ≠ [])
    (hwritable : Writable pathPrefix (units.map (buildOptions pathPrefix level ignored).run))
    (hnumberable : Numberable (units.map (buildOptions pathPrefix level ignored).run))
    (o : DictOrder) :
    ∃ passes files texts,
      compile (buildOptions pathPrefix level ignored) units .empty = some (passes, files) ∧
      compileTexts (buildOptions pathPrefix level ignored) units .empty = some (passes, texts) ∧
      (prelink o texts = .error (.exit 255) ↔ level = .basicBlock ∧
        ¬ ((passes.flatMap writeAllowedBBTrans).map BlockEntry.fct).Nodup) ∧
      ∀ t pkts, parseFiles files = some t → modulePackets (o.tables t) = some pkts →
        SourceFits pkts → Spellable t.fcts →
        ∃ s first rest, prelink o texts = .ok s ∧ pkts = first :: rest ∧
          s.constructor = some (.send first :: .setModuleId ::
            (rest.map .send ++ (o.items (fctsInit t.fcts)).map fun e => .call e.name)) ∧
          s.destructor = some ((o.items (fctsFini t.fcts)).map fun e => .call e.name) := by
  obtain ⟨passes, files, texts, hcompile, htexts, hprelink⟩ :=
    prelink_compileTexts hunits hwritable hnumberable
  have hruns := (Describes.empty level).compile hcompile
  have hd : Describes level passes files := hruns.1
  have hpasses : passes ≠ [] := by
    intro hnil
    have hlen := hruns.2.length_eq
    rw [hnil, List.length_nil, List.length_eq_zero_iff] at hlen
    exact hunits hlen
  refine ⟨passes, files, texts, hcompile, htexts, ?_, fun t pkts ht hpkts hfits hspell => ?_⟩
  · rw [hprelink o, prelinkRecords]
    cases hparse : parseFiles files with
    | none =>
      refine iff_of_true rfl ?_
      unfold parseFiles at hparse
      rw [hd.bbtrans] at hparse
      by_cases hlevel : level = .basicBlock ∧ passes ≠ []
      · refine ⟨hlevel.1, fun hnodup => ?_⟩
        rw [if_pos hlevel] at hparse
        dsimp only at hparse
        rw [Describes.parseBb_passes.mpr ⟨rfl, hnodup⟩] at hparse
        cases hparse
      · rw [if_neg hlevel] at hparse
        cases hparse
    | some t =>
      have hnodup := (hd.parseFiles_some hparse).2
      have heq := (hd.parseFiles_some hparse).1
      refine iff_of_false (fun herror => ?_) fun hnot => hnot.2 ?_
      · dsimp only at herror
        unfold generateTables orRaise at herror
        split at herror <;> cases herror
      · rw [heq, if_pos ⟨hnot.1, hpasses⟩] at hnodup
        exact hnodup
  · obtain ⟨s, first, rest, hs, hrest⟩ := generateTables_runs hpkts hfits hspell
    refine ⟨s, first, rest, ?_, hrest⟩
    rw [hprelink o, prelinkRecords, ht]
    exact hs

end Units

/-! ### A binary with an init function -/

/-- Dictionaries that iterate in the order of insertion. -/
def DictOrder.insertion : DictOrder := ⟨id, .refl, id, .refl⟩

def setupUnit : TranslationUnit where
  functions := [.straight (ascii "setup") [], .straight mainName []]
  globalCtors := [(65535, ascii "setup")]
  globalDtors := []
  annotations := []
  names_nodup := by decide
  names_noNul := by decide
  callee_declared := by simp [Function.HasCall, Function.straight]

def setupTables : Tables :=
  ⟨[⟨ascii "setup", 0, "Init"⟩, ⟨mainName, 1, "Main"⟩], [], true, [⟨0, 1, []⟩, ⟨1, 1, []⟩],
    [⟨0, 0, 0, 0⟩, ⟨1, 0, 0, 0⟩]⟩

def setupPackets : List Monitor.LoadingPacket :=
  [⟨.moduleBegin, le32 2 ++ [0]⟩,
    ⟨.sectionFunctionId, [2, 0, 2].flatMap le32 ++ (ascii "setup" ++ 0 :: ([1, 4].flatMap le32 ++
      (mainName ++ [0, 0])))⟩,
    ⟨.sectionFunctionTransition, le32 0 ++ [0]⟩, ⟨.sectionBlockTransition, [0, 1, 0].flatMap le32⟩,
    ⟨.sectionBlockTransition, [1, 1, 0].flatMap le32⟩,
    ⟨.sectionBlockIpd, [2, 0, 0, 0, 0, 1, 0, 0, 0].flatMap le32 ++ [0]⟩, ⟨.moduleEnd, []⟩,
    ⟨.terminated, []⟩]

theorem setupTables_packets : modulePackets setupTables = some setupPackets := by
  have hsorted : setupTables.fcts.mergeSort FctEntry.le = setupTables.fcts :=
    List.mergeSort_of_pairwise (by decide)
  simp only [modulePackets, sectionPackets, genPackedFctids, hsorted]
  rfl

theorem toolchain_runs_setup : Writable (pathBytes "bin")
      ([(PassEnv.plain .none, setupUnit)].map
        (buildOptions (pathBytes "bin") .basicBlock []).run) ∧
    ∃ texts s first rest,
      (compileTexts (buildOptions (pathBytes "bin") .basicBlock [])
        [(.plain .none, setupUnit)] .empty).map Prod.snd = some texts ∧
      prelink .insertion texts = .ok s ∧ setupPackets = first :: rest ∧
      s.constructor = some (.send first :: .setModuleId ::
        (rest.map .send ++ [.call (ascii "setup")])) ∧ s.destructor = some [] := by
  have hwritable : Writable (pathBytes "bin") ([(PassEnv.plain .none, setupUnit)].map
      (buildOptions (pathBytes "bin") .basicBlock []).run) := by
    refine ⟨?_, fun _ => (show IsPath "bin" by decide).2.2, by decide⟩
    intro r hr name hmentions
    have hall : ∀ name ∈ mentionedNames ([(PassEnv.plain .none, setupUnit)].map
        (buildOptions (pathBytes "bin") .basicBlock []).run), IsWord name := by decide
    exact hall name (mem_mentionedNames hr hmentions)
  have hnumberable : Numberable ([(PassEnv.plain .none, setupUnit)].map
      (buildOptions (pathBytes "bin") .basicBlock []).run) :=
    ⟨by decide, by simp [PassOptions.run, setupUnit, Function.straight]⟩
  obtain ⟨passes, files, texts, hcompile, htexts, -, hall⟩ :=
    toolchain_runs (List.cons_ne_nil _ _) hwritable hnumberable .insertion
  have hparse : parseFiles files = some setupTables := by
    obtain ⟨-, rfl⟩ := Prod.mk.inj (Option.some.inj hcompile)
    rfl
  have hspell : Spellable setupTables.fcts := by
    unfold Spellable
    decide
  obtain ⟨s, first, rest, hs, hpkts, hctor, hdtor⟩ :=
    hall setupTables setupPackets hparse setupTables_packets ⟨by decide, by decide⟩ hspell
  refine ⟨hwritable, texts, s, first, rest, ?_, hs, hpkts, hctor, hdtor⟩
  rw [htexts]
  rfl

end Picon.Program
