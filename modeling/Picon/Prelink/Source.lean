import Picon.Lib.CUnit
import Picon.Prelink.Encode

/-!
# The C source that `picon-prelink` prints

The packed sections as escaped string literals, sixty-four characters a line,
the two wrappers, and the constructor that sends the sections. The arrays and
the wrappers depend on the binary and are text here. What is the same for every
binary, the templates, is kept as the statements it consists of. Compiled and
run, the source sends the packets of the tables and then calls the functions of
the wrapper.
-/

namespace Picon.Prelink

open Lib
open Monitor (LoadingPacket)

/-! ### What is printed -/

/-- The escapes of a packed structure, cut into literals. -/
def quotedLines (s : Bytes) : List Bytes := (slices 64 (s.flatMap hexEscape)).map quoted

/-- `gen_packed_cfi` and the like, from the packed structure on. -/
def packedText (name : String) (s : Bytes) : Bytes :=
  List.intercalate [10]
    ((ascii "static const char " ++ (ascii name ++ ascii "[] =")) ::
      (quotedLines s ++ [ascii ";\n"]))

/-- One item of `_s_bb`; its length is a number of its own. -/
def blockItemText (s : Bytes) : Bytes :=
  ascii "\x7b" ++ (decimal s.length ++ (ascii ", " ++
    (List.intercalate [10] (quotedLines s) ++ ascii "\x7d,")))

/-- `gen_packed_bb`, from the packed structures on. -/
def blocksText (bb : List Bytes) : Bytes :=
  List.intercalate [10]
    (ascii "static const data_t _s_bb[] = \x7b" :: (bb.map blockItemText ++ [ascii "\x7d;\n"]))

/-- `gen_init_wrapper` and `gen_fini_wrapper`. -/
def wrapperText (name : String) (fcts : List FctEntry) : Bytes :=
  let head := ascii "void __attribute__((visibility(\"hidden\"))) " ++
    (ascii name ++ ascii "(void) \x7b")
  List.intercalate [10]
    (fcts.map (fun e => ascii "extern void " ++ (e.name ++ ascii " (void);")) ++ head ::
      (fcts.map (fun e => ascii "  (void)" ++ (e.name ++ ascii "();")) ++ [ascii "\x7d"]))

/-- The statements of the templates that send, read or call. -/
inductive CtorStatement where
  | sendArray (event : LoadingEvent) (array : Bytes)
  | sendEach (event : LoadingEvent) (array : Bytes)
  | sendEmpty (event : LoadingEvent)
  | setModuleId
  | call (function : Bytes)
  deriving DecidableEq, Repr

def templateMain : List CtorStatement :=
  [.sendArray .moduleBegin (ascii "_s_cfi"), .setModuleId,
    .sendArray .sectionFunctionId (ascii "_s_fctids"),
    .sendArray .sectionFunctionTransition (ascii "_s_callgraph")]

def templateSendBb : List CtorStatement := [.sendEach .sectionBlockTransition (ascii "_s_bb")]

def templateSendBbIpd : List CtorStatement := [.sendArray .sectionBlockIpd (ascii "_s_bb_ipd")]

def templateMainEnd : List CtorStatement := [.sendEmpty .moduleEnd]

def templateMainTerminated : List CtorStatement := [.sendEmpty .terminated]

/-- `gen_ctor`. -/
def genCtor (fcts : List FctEntry) (granularityBb : Bool) : List CtorStatement :=
  templateMain ++ (if granularityBb then templateSendBb ++ templateSendBbIpd else []) ++
    templateMainEnd ++
    (if ascii "main" ∈ fcts.map FctEntry.name then templateMainTerminated else []) ++
    [.call (ascii "_init_wrapper")]

/-- `gen_dtor`. -/
def genDtor : List CtorStatement := [.call (ascii "_fini_wrapper")]

/-- A printed source: the text of its arrays and of its wrappers, and the two
functions over them. -/
structure Source where
  arrays : Bytes
  initWrapper : Bytes
  finiWrapper : Bytes
  ctor : List CtorStatement
  dtor : List CtorStatement
  deriving DecidableEq, Repr

/-- `print`. -/
def printed (s : Bytes) : Bytes := s ++ [10]

/-- `__main__` behind the parsers; `none` is the exception of `struct.pack`. The
two dictionaries of wrapped functions iterate in an order of their own. -/
def generate (t : Tables) (fctsInit fctsFini : List FctEntry) : Option Source := do
  let cfi ← genPackedCfi t.fcts
  let fctids ← genPackedFctids t.fcts
  let callgraph ← genPackedCallgraph t.callgraph
  let functions := printed (packedText "_s_cfi" cfi) ++ (printed (packedText "_s_fctids" fctids) ++
    printed (packedText "_s_callgraph" callgraph))
  let blocks ←
    if t.granularityBb then do
      let bb ← genPackedBb t.bb
      let ipd ← genPackedBbIpd t.bbIpd
      some (printed (blocksText bb) ++ printed (packedText "_s_bb_ipd" ipd))
    else some []
  some {
    arrays := functions ++ blocks
    initWrapper := printed (wrapperText "_init_wrapper" fctsInit)
    finiWrapper := printed (wrapperText "_fini_wrapper" fctsFini)
    ctor := genCtor t.fcts t.granularityBb
    dtor := genDtor }

/-! ### What it does when it is compiled and run -/

/-- What the constructor and the destructor do that others see. -/
inductive CtorAction where
  | send (pkt : LoadingPacket)
  | setModuleId
  | call (function : Bytes)
  deriving DecidableEq, Repr

/-- A packet with so many bytes of an array. A size has 32 bits, and the bytes
must be there. -/
def sendBytes (event : LoadingEvent) (size : Nat) (array : Bytes) : Option CtorAction :=
  if size % 2 ^ 32 ≤ array.length then some (.send ⟨event, array.take (size % 2 ^ 32)⟩) else none

/-- A statement over the arrays and functions of its file. `sizeof` counts the
NUL of a string. What a hidden function is called is decided within the binary. -/
def CtorStatement.run (arrays : List ConstArray) (functions : List CallingFunction) :
    CtorStatement → Option (List CtorAction)
  | .sendArray event name =>
    match arrays.find? (·.name = name) with
    | some ⟨type, _, .string s⟩ =>
      if type = ascii "char" then
        (sendBytes event (sizeofString s).length (sizeofString s)).map ([·])
      else none
    | _ => none
  | .sendEach event name =>
    match arrays.find? (·.name = name) with
    | some ⟨type, _, .pairs items⟩ =>
      if type = ascii "data_t" then
        (items.take (items.length % 2 ^ 32)).mapM fun e =>
          sendBytes event e.1 (sizeofString e.2)
      else none
    | _ => none
  | .sendEmpty event => some [.send ⟨event, []⟩]
  | .setModuleId => some [.setModuleId]
  | .call name =>
    match functions.find? fun f => f.name = name ∧ f.visibility = ascii "hidden" with
    | some f => some (f.calls.map .call)
    | none => none

/-- A function of a source; `none` when the text does not compile, or the run
leaves an array. -/
def Source.run (s : Source) (body : List CtorStatement) : Option (List CtorAction) := do
  let arrays ← readArrays s.arrays
  let init ← readFunction s.initWrapper
  let fini ← readFunction s.finiWrapper
  let actions ← body.mapM (CtorStatement.run arrays [init, fini])
  some actions.flatten

def Source.constructor (s : Source) : Option (List CtorAction) := s.run s.ctor

def Source.destructor (s : Source) : Option (List CtorAction) := s.run s.dtor

/-! ### The text is read back -/

theorem quotedLines_eq (s : Bytes) :
    quotedLines s = (slices 16 s).map fun b => quoted (b.flatMap hexEscape) := by
  have hslices := slices_flatMap (f := hexEscape) (w := 4) (by omega) (show 0 < 16 by omega)
    (fun _ => rfl) s
  rw [quotedLines, show 64 = 4 * 16 from rfl, hslices, List.map_map]
  rfl

/-- No escape is cut in two. -/
theorem scans_quotedLines (s : Bytes) :
    List.Forall₂ Scans (quotedLines s) ((slices 16 s).map fun b => [.string b]) := by
  rw [quotedLines_eq]
  exact forall₂_scans fun b _ => scans_literal b

theorem flatten_strings (l : List Bytes) :
    (l.map fun b => [Token.string b]).flatten = l.map Token.string := by
  induction l with
  | nil => rfl
  | cons b l ih => exact congrArg (Token.string b :: ·) ih

theorem slices_ne_nil {s : Bytes} (hs : s ≠ []) : slices 16 s ≠ [] := by
  rw [slices_cons (by omega) hs]
  exact List.cons_ne_nil _ _

/-- An array of characters: its tokens, and what they are read as. -/
def charArray (name : String) (s : Bytes) : List Token × ConstArray :=
  (arrayTokens (ascii "char") (ascii name) ((slices 16 s).map Token.string),
    ⟨ascii "char", ascii name, .string s⟩)

/-- The array of the block sections. -/
def dataArray (bb : List Bytes) : List Token × ConstArray :=
  (arrayTokens (ascii "data_t") (ascii "_s_bb")
      (.punct 123 :: ((bb.map fun s => (s.length, slices 16 s)).flatMap pairTokens ++ [.punct 125])),
    ⟨ascii "data_t", ascii "_s_bb", .pairs (bb.map fun s => (s.length, s))⟩)

theorem scans_printed {text : Bytes} {out : List Token} (h : Scans text out) :
    Scans (printed text) out := by
  have hend : Scans [10] [] := scans_space rfl
  have hall := h.append hend
  rwa [List.append_nil] at hall

theorem scans_packedText {name : String} (hname : IsIdentifier (ascii name)) (s : Bytes) :
    Scans (printed (packedText name s)) (charArray name s).1 := by
  have htype : Scans (ascii "static const char ")
      [.keyword "static", .keyword "const", .keyword "char"] := rfl
  have hopen : Scans [91] [.punct 91] := rfl
  have hclose : Scans (ascii "] =") [.punct 93, .punct 61] := rfl
  have hhead := htype.append ((hname.scans rfl hopen).append hclose)
  rw [List.append_assoc (ascii name)] at hhead
  have hend : Scans (ascii ";\n") [.punct 59] := rfl
  have hlines := forall₂_scans_append (scans_quotedLines s) (.cons hend .nil)
  have htext := scans_printed (Scans.intercalate (.cons hhead hlines))
  rw [List.flatten_cons, List.flatten_append, flatten_strings] at htext
  exact htext

theorem scans_blockItem (s : Bytes) :
    Scans (blockItemText s) (pairTokens (s.length, slices 16 s)) := by
  have hopen : Scans (ascii "\x7b") [.punct 123] := rfl
  have hcomma : Scans [44] [.punct 44] := rfl
  have hspace : Scans [32] [] := rfl
  have hclose : Scans (ascii "\x7d,") [.punct 125, .punct 44] := rfl
  have hnumber : Scans (decimal s.length ++ [44]) [.number s.length, .punct 44] := by
    refine scans_word (fun c hc => ?_) (wordToken_decimal s.length) rfl hcomma
    simp [isWordByte, decimal_isDigit c hc]
  have hlines := Scans.intercalate (scans_quotedLines s)
  rw [flatten_strings] at hlines
  have hall := hopen.append (hnumber.append (hspace.append (hlines.append hclose)))
  have htext : blockItemText s = ascii "\x7b" ++ ((decimal s.length ++ [44]) ++ ([32] ++
      (List.intercalate [10] (quotedLines s) ++ ascii "\x7d,"))) := by
    rw [List.append_assoc]
    rfl
  rw [htext]
  exact hall

theorem scans_blocksText (bb : List Bytes) :
    Scans (printed (blocksText bb)) (dataArray bb).1 := by
  have hhead : Scans (ascii "static const data_t _s_bb[] = \x7b")
      [.keyword "static", .keyword "const", .keyword "data_t", .keyword "_s_bb", .punct 91,
        .punct 93, .punct 61, .punct 123] := rfl
  have hend : Scans (ascii "\x7d;\n") [.punct 125, .punct 59] := rfl
  have hitems := forall₂_scans fun s (_ : s ∈ bb) => scans_blockItem s
  have hlines := forall₂_scans_append hitems (.cons hend .nil)
  have hall := scans_printed (Scans.intercalate (.cons hhead hlines))
  have hflat : (bb.map fun s => (s.length, slices 16 s)).flatMap pairTokens =
      (bb.map fun s => pairTokens (s.length, slices 16 s)).flatten := by
    rw [List.flatMap_map]
    rfl
  have htokens : (dataArray bb).1 = ([.keyword "static", .keyword "const", .keyword "data_t",
      .keyword "_s_bb", .punct 91, .punct 93, .punct 61, .punct 123] ::
        (bb.map (fun s => pairTokens (s.length, slices 16 s)) ++
          [[.punct 125, .punct 59]])).flatten := by
    rw [dataArray, hflat]
    simp [arrayTokens, Token.keyword]
  rw [htokens]
  exact hall

theorem readArray_charArray (name : String) {s : Bytes} (hs : s ≠ []) (ts : List Token) :
    readArray ((charArray name s).1 ++ ts) = some ((charArray name s).2, ts) := by
  have hread := readArray_append (ascii "char") (ascii name)
    (readInitializer_string (slices_ne_nil hs)) ts
  rw [slices_flatten (by omega)] at hread
  exact hread

theorem readArray_dataArray {bb : List Bytes} (hbb : ∀ s ∈ bb, s ≠ []) (ts : List Token) :
    readArray ((dataArray bb).1 ++ ts) = some ((dataArray bb).2, ts) := by
  have hitems : ∀ e ∈ bb.map fun s => (s.length, slices 16 s), e.2 ≠ [] := by
    intro e he
    obtain ⟨s, hs, rfl⟩ := List.mem_map.mp he
    exact slices_ne_nil (hbb s hs)
  have hinit : ∀ us, readInitializer ((.punct 123 ::
      ((bb.map fun s => (s.length, slices 16 s)).flatMap pairTokens ++ [.punct 125])) ++
        .punct 59 :: us) = some (.pairs (bb.map fun s => (s.length, s)), .punct 59 :: us) := by
    intro us
    have hpairs := readInitializer_pairs hitems (.punct 59 :: us)
    have hvalues : (bb.map fun s => (s.length, slices 16 s)).map pairValue =
        bb.map fun s => (s.length, s) := by
      rw [List.map_map]
      refine List.map_congr_left fun s _ => ?_
      show (s.length, (slices 16 s).flatten) = (s.length, s)
      rw [slices_flatten (by omega)]
    rw [hvalues] at hpairs
    simpa using hpairs
  exact readArray_append (ascii "data_t") (ascii "_s_bb") hinit ts

/-- A wrapper is read as a function that calls what the dictionary lists. -/
theorem readFunction_wrapperText {name : String} {fcts : List FctEntry}
    (hname : IsIdentifier (ascii name)) (hfcts : ∀ e ∈ fcts, IsIdentifier e.name) :
    readFunction (printed (wrapperText name fcts)) =
      some ⟨ascii name, ascii "hidden", fcts.map FctEntry.name⟩ := by
  have hdeclared : ∀ e ∈ fcts, Scans (ascii "extern void " ++ (e.name ++ ascii " (void);"))
      (externTokens e.name) := by
    intro e he
    have hhead : Scans (ascii "extern void ") [.keyword "extern", .keyword "void"] := rfl
    have hspace : Scans [32] [] := rfl
    have hword := (hfcts e he).scans rfl hspace
    have hend : Scans (ascii "(void);") [.punct 40, .keyword "void", .punct 41, .punct 59] := rfl
    have hall := hhead.append (hword.append hend)
    rw [List.append_assoc e.name] at hall
    exact hall
  have hcall : ∀ e ∈ fcts, Scans (ascii "  (void)" ++ (e.name ++ ascii "();"))
      (callTokens e.name) := by
    intro e he
    have hhead : Scans (ascii "  (void)") [.punct 40, .keyword "void", .punct 41] := rfl
    have hopen : Scans [40] [.punct 40] := rfl
    have hword := (hfcts e he).scans rfl hopen
    have hend : Scans (ascii ");") [.punct 41, .punct 59] := rfl
    have hall := hhead.append (hword.append hend)
    rw [List.append_assoc e.name] at hall
    exact hall
  have hattribute : Scans (ascii "void __attribute__((visibility(\"hidden\"))) ")
      [.keyword "void", .keyword "__attribute__", .punct 40, .punct 40, .keyword "visibility",
        .punct 40, .string (ascii "hidden"), .punct 41, .punct 41, .punct 41] := rfl
  have hopen : Scans [40] [.punct 40] := rfl
  have hparams : Scans (ascii "void) \x7b") [.keyword "void", .punct 41, .punct 123] := rfl
  have hhead := hattribute.append ((hname.scans rfl hopen).append hparams)
  rw [List.append_assoc (ascii name)] at hhead
  have hclose : Scans (ascii "\x7d") [.punct 125] := rfl
  have hbody := forall₂_scans_append (forall₂_scans hcall) (.cons hclose .nil)
  have hlines := forall₂_scans_append (forall₂_scans hdeclared) (.cons hhead hbody)
  have htext := scans_printed (Scans.intercalate hlines)
  refine readFunction_eq ?_
  have htokens : (fcts.map (fun e => externTokens e.name) ++ headTokens (ascii "hidden") (ascii name) ::
      (fcts.map (fun e => callTokens e.name) ++ [[.punct 125]])).flatten =
        (fcts.map FctEntry.name).flatMap externTokens ++
          (headTokens (ascii "hidden") (ascii name) ++
            ((fcts.map FctEntry.name).flatMap callTokens ++ [.punct 125])) := by
    simp [List.flatMap, Function.comp_def]
  rw [← htokens]
  exact htext

/-! ### The structures behind the text -/

/-- What `struct.pack` made. -/
structure Packed where
  cfi : Bytes
  fctids : Bytes
  callgraph : Bytes
  blocks : Option (List Bytes × Bytes)
  deriving DecidableEq, Repr

def packedBlocks (t : Tables) : Option (Option (List Bytes × Bytes)) :=
  if t.granularityBb then do
    let bb ← genPackedBb t.bb
    let ipd ← genPackedBbIpd t.bbIpd
    some (some (bb, ipd))
  else some none

def packed (t : Tables) : Option Packed := do
  let cfi ← genPackedCfi t.fcts
  let fctids ← genPackedFctids t.fcts
  let callgraph ← genPackedCallgraph t.callgraph
  let blocks ← packedBlocks t
  some ⟨cfi, fctids, callgraph, blocks⟩

namespace Packed

def arrays (p : Packed) : List (List Token × ConstArray) :=
  [charArray "_s_cfi" p.cfi, charArray "_s_fctids" p.fctids, charArray "_s_callgraph" p.callgraph] ++
    match p.blocks with
    | none => []
    | some (bb, ipd) => [dataArray bb, charArray "_s_bb_ipd" ipd]

def text (p : Packed) : Bytes :=
  printed (packedText "_s_cfi" p.cfi) ++ (printed (packedText "_s_fctids" p.fctids) ++
    printed (packedText "_s_callgraph" p.callgraph)) ++
    match p.blocks with
    | none => []
    | some (bb, ipd) => printed (blocksText bb) ++ printed (packedText "_s_bb_ipd" ipd)

/-- The packets of the sections. -/
def sections (p : Packed) : List LoadingPacket :=
  [⟨.sectionFunctionId, sizeofString p.fctids⟩, ⟨.sectionFunctionTransition, sizeofString p.callgraph⟩] ++
    match p.blocks with
    | none => []
    | some (bb, ipd) => bb.map (⟨.sectionBlockTransition, ·⟩) ++ [⟨.sectionBlockIpd, sizeofString ipd⟩]

end Packed

/-- The packet that ends the loading, for the binary that has a `main`. -/
def terminated (fcts : List FctEntry) : List LoadingPacket :=
  if ascii "main" ∈ fcts.map FctEntry.name then [⟨.terminated, []⟩] else []

theorem modulePackets_eq (t : Tables) :
    modulePackets t = (packed t).map fun p =>
      ⟨.moduleBegin, sizeofString p.cfi⟩ :: (p.sections ++ ⟨.moduleEnd, []⟩ :: terminated t.fcts) := by
  unfold modulePackets packed sectionPackets packedBlocks
  cases genPackedCfi t.fcts with
  | none => rfl
  | some cfi =>
    cases genPackedFctids t.fcts with
    | none => rfl
    | some fctids =>
      cases genPackedCallgraph t.callgraph with
      | none => rfl
      | some callgraph =>
        cases t.granularityBb with
        | false => rfl
        | true =>
          cases genPackedBb t.bb with
          | none => rfl
          | some bb =>
            cases genPackedBbIpd t.bbIpd with
            | none => rfl
            | some ipd => simp [Packed.sections, terminated, ascii]

/-- Every structure has a count in front. -/
structure Packed.Nonempty (p : Packed) : Prop where
  cfi : p.cfi ≠ []
  fctids : p.fctids ≠ []
  callgraph : p.callgraph ≠ []
  bb : ∀ r ∈ p.blocks, ∀ s ∈ r.1, s ≠ []
  ipd : ∀ r ∈ p.blocks, r.2 ≠ []

theorem le32_append_ne_nil (n : Nat) (rest : Bytes) : le32 n ++ rest ≠ [] :=
  List.append_ne_nil_of_left_ne_nil (List.cons_ne_nil _ _) rest

theorem packed_nonempty {t : Tables} {p : Packed} (h : packed t = some p) : p.Nonempty := by
  obtain ⟨cfi, hcfi, h₁⟩ := Option.bind_eq_some_iff.mp h
  obtain ⟨fctids, hfctids, h₂⟩ := Option.bind_eq_some_iff.mp h₁
  obtain ⟨callgraph, hcallgraph, h₃⟩ := Option.bind_eq_some_iff.mp h₂
  obtain ⟨blocks, hblocks, h₄⟩ := Option.bind_eq_some_iff.mp h₃
  obtain rfl := Option.some.inj h₄
  obtain ⟨-, hcfi⟩ := packWord_eq_some.mp hcfi
  obtain ⟨-, -, hfctids⟩ := genPackedFctids_eq_some.mp hfctids
  obtain ⟨-, -, hcallgraph⟩ := genPackedCallgraph_eq_some.mp hcallgraph
  have hsections : ∀ r ∈ blocks, (∀ s ∈ r.1, s ≠ []) ∧ r.2 ≠ [] := by
    intro r hr
    cases hgran : t.granularityBb with
    | false =>
      rw [packedBlocks, hgran] at hblocks
      obtain rfl := Option.some.inj hblocks
      cases hr
    | true =>
      rw [packedBlocks, hgran] at hblocks
      obtain ⟨bb, hbb, h₅⟩ := Option.bind_eq_some_iff.mp hblocks
      obtain ⟨ipd, hipd, h₆⟩ := Option.bind_eq_some_iff.mp h₅
      obtain rfl := Option.some.inj h₆
      obtain rfl := Option.some.inj hr
      obtain ⟨-, hbb⟩ := genPackedBb_eq_some.mp hbb
      obtain ⟨-, -, hipd⟩ := genPackedBbIpd_eq_some.mp hipd
      refine ⟨fun s hs => ?_, hipd ▸ le32_append_ne_nil _ _⟩
      rw [hbb] at hs
      obtain ⟨e, -, rfl⟩ := List.mem_map.mp hs
      exact le32_append_ne_nil _ _
  exact ⟨hcfi ▸ List.cons_ne_nil _ _, hfctids ▸ le32_append_ne_nil _ _,
    hcallgraph ▸ le32_append_ne_nil _ _, fun r hr => (hsections r hr).1,
    fun r hr => (hsections r hr).2⟩

/-- Every array of the text, read one after the other. -/
theorem readArrays_text {p : Packed} (h : p.Nonempty) :
    readArrays p.text = some (p.arrays.map Prod.snd) := by
  have hcfi : Scans _ (charArray "_s_cfi" p.cfi).1 := scans_packedText (by decide) p.cfi
  have hfctids : Scans _ (charArray "_s_fctids" p.fctids).1 :=
    scans_packedText (by decide) p.fctids
  have hcallgraph : Scans _ (charArray "_s_callgraph" p.callgraph).1 :=
    scans_packedText (by decide) p.callgraph
  have hfunctions := hcfi.append (hfctids.append hcallgraph)
  have hscan : Scans p.text (p.arrays.flatMap Prod.fst) := by
    cases hblocks : p.blocks with
    | none =>
      have hall := hfunctions.append Scans.nil
      simpa [Packed.text, Packed.arrays, hblocks] using hall
    | some r =>
      obtain ⟨bb, ipd⟩ := r
      have hipd : Scans _ (charArray "_s_bb_ipd" ipd).1 := scans_packedText (by decide) ipd
      have hall := hfunctions.append ((scans_blocksText bb).append hipd)
      simpa [Packed.text, Packed.arrays, hblocks] using hall
  have hone : ∀ a ∈ p.arrays, ∀ ts, readArray (a.1 ++ ts) = some (a.2, ts) := by
    intro a ha
    rcases List.mem_append.mp ha with ha | ha
    · simp only [List.mem_cons, List.not_mem_nil, or_false] at ha
      rcases ha with rfl | rfl | rfl
      · exact readArray_charArray _ h.cfi
      · exact readArray_charArray _ h.fctids
      · exact readArray_charArray _ h.callgraph
    · cases hblocks : p.blocks with
      | none =>
        rw [hblocks] at ha
        cases ha
      | some r =>
        rw [hblocks] at ha
        simp only [List.mem_cons, List.not_mem_nil, or_false] at ha
        rcases ha with rfl | rfl
        · exact readArray_dataArray (h.bb r hblocks)
        · exact readArray_charArray _ (h.ipd r hblocks)
  refine readArrays_eq hscan hone fun a ha hnil => ?_
  have hread := hone a ha []
  rw [hnil] at hread
  cases hread

/-! ### The statements run -/

theorem sendBytes_of_lt {event : LoadingEvent} {size : Nat} {array : Bytes} (hsize : size < 2 ^ 32)
    (hle : size ≤ array.length) :
    sendBytes event size array = some (.send ⟨event, array.take size⟩) := by
  rw [sendBytes, Nat.mod_eq_of_lt hsize, if_pos hle]

section Run

variable {arrays : List ConstArray} {functions : List CallingFunction} {event : LoadingEvent}

theorem run_sendArray {name : String} {s : Bytes}
    (hfind : arrays.find? (·.name = ascii name) = some ⟨ascii "char", ascii name, .string s⟩)
    (hsize : (sizeofString s).length < 2 ^ 32) :
    (CtorStatement.sendArray event (ascii name)).run arrays functions =
      some [.send ⟨event, sizeofString s⟩] := by
  rw [CtorStatement.run, hfind]
  dsimp only
  rw [if_pos rfl, sendBytes_of_lt hsize le_rfl, List.take_length]
  rfl

theorem run_sendEach {bb : List Bytes}
    (hfind : arrays.find? (·.name = ascii "_s_bb") = some (dataArray bb).2)
    (hcount : bb.length < 2 ^ 32) (hsize : ∀ s ∈ bb, s.length < 2 ^ 32) :
    (CtorStatement.sendEach event (ascii "_s_bb")).run arrays functions =
      some (bb.map fun s => .send ⟨event, s⟩) := by
  have hone : ∀ s ∈ bb, sendBytes event s.length (sizeofString s) = some (.send ⟨event, s⟩) := by
    intro s hs
    rw [sendBytes_of_lt (hsize s hs) (by simp [sizeofString]), sizeofString, List.take_left]
  have hall : ∀ l : List Bytes, (∀ s ∈ l, s ∈ bb) →
      (l.map fun s => (s.length, s)).mapM (fun e => sendBytes event e.1 (sizeofString e.2)) =
        some (l.map fun s => CtorAction.send ⟨event, s⟩) := by
    intro l
    induction l with
    | nil => exact fun _ => rfl
    | cons s l ih =>
      intro hl
      rw [List.map_cons, List.mapM_cons, hone s (hl s List.mem_cons_self),
        ih fun s hs => hl s (List.mem_cons_of_mem _ hs)]
      rfl
  rw [CtorStatement.run, hfind]
  show (if ascii "data_t" = ascii "data_t" then _ else _) = _
  rw [if_pos rfl, List.length_map, Nat.mod_eq_of_lt hcount, List.take_of_length_le (by simp)]
  exact hall bb fun s hs => hs

end Run

/-- The sizes that the source counts in 32 bits. -/
structure Packed.Small (p : Packed) : Prop where
  cfi : (sizeofString p.cfi).length < 2 ^ 32
  sections : ∀ pkt ∈ p.sections, pkt.value.length < 2 ^ 32
  bb : ∀ r ∈ p.blocks, r.1.length < 2 ^ 32

theorem run_call {arrays : List ConstArray} {functions : List CallingFunction} {name : Bytes}
    {f : CallingFunction}
    (hfind : (functions.find? fun f => f.name = name ∧ f.visibility = ascii "hidden") = some f) :
    (CtorStatement.call name).run arrays functions = some (f.calls.map .call) := by
  rw [CtorStatement.run, hfind]

section Constructor

variable {p : Packed} (functions : List CallingFunction)

theorem run_templateMain (h : p.Small) :
    templateMain.mapM (CtorStatement.run (p.arrays.map Prod.snd) functions) =
      some [[.send ⟨.moduleBegin, sizeofString p.cfi⟩], [.setModuleId],
        [.send ⟨.sectionFunctionId, sizeofString p.fctids⟩],
        [.send ⟨.sectionFunctionTransition, sizeofString p.callgraph⟩]] := by
  have hfctids := h.sections ⟨.sectionFunctionId, sizeofString p.fctids⟩ (by simp [Packed.sections])
  have hcallgraph := h.sections ⟨.sectionFunctionTransition, sizeofString p.callgraph⟩
    (by simp [Packed.sections])
  simp only [templateMain, List.mapM_cons, List.mapM_nil]
  rw [run_sendArray (s := p.cfi) rfl h.cfi, run_sendArray (s := p.fctids) rfl hfctids,
    run_sendArray (s := p.callgraph) rfl hcallgraph]
  rfl

theorem run_templateSendBb (h : p.Small) {bb : List Bytes} {ipd : Bytes}
    (hblocks : p.blocks = some (bb, ipd)) :
    (templateSendBb ++ templateSendBbIpd).mapM
        (CtorStatement.run (p.arrays.map Prod.snd) functions) =
      some [bb.map fun s => .send ⟨.sectionBlockTransition, s⟩,
        [.send ⟨.sectionBlockIpd, sizeofString ipd⟩]] := by
  have hbb : ∀ s ∈ bb, s.length < 2 ^ 32 := fun s hs =>
    h.sections ⟨.sectionBlockTransition, s⟩ (by simp [Packed.sections, hblocks, hs])
  have hipd := h.sections ⟨.sectionBlockIpd, sizeofString ipd⟩ (by simp [Packed.sections, hblocks])
  have hfind : (p.arrays.map Prod.snd).find? (·.name = ascii "_s_bb") = some (dataArray bb).2 := by
    rw [Packed.arrays, hblocks]
    rfl
  have hfindIpd : (p.arrays.map Prod.snd).find? (·.name = ascii "_s_bb_ipd") =
      some ⟨ascii "char", ascii "_s_bb_ipd", .string ipd⟩ := by
    rw [Packed.arrays, hblocks]
    rfl
  simp only [templateSendBb, templateSendBbIpd, List.cons_append, List.nil_append, List.mapM_cons,
    List.mapM_nil]
  rw [run_sendEach hfind (h.bb _ hblocks) hbb, run_sendArray hfindIpd hipd]
  rfl

/-- One part of a function behind another. -/
theorem mapM_run_append {arrays : List ConstArray} {body body' : List CtorStatement}
    {actions actions' : List (List CtorAction)}
    (h : body.mapM (CtorStatement.run arrays functions) = some actions)
    (h' : body'.mapM (CtorStatement.run arrays functions) = some actions') :
    (body ++ body').mapM (CtorStatement.run arrays functions) = some (actions ++ actions') := by
  rw [List.mapM_append, h, h']
  rfl

/-- The statements of the constructor, in their order. -/
theorem run_genCtor (h : p.Small) (fcts : List FctEntry) {init : CallingFunction}
    (hinit : (functions.find? fun f => f.name = ascii "_init_wrapper" ∧
      f.visibility = ascii "hidden") = some init) :
    ∃ actions, (genCtor fcts p.blocks.isSome).mapM
        (CtorStatement.run (p.arrays.map Prod.snd) functions) = some actions ∧
      actions.flatten = .send ⟨.moduleBegin, sizeofString p.cfi⟩ :: .setModuleId ::
        ((p.sections ++ ⟨.moduleEnd, []⟩ :: terminated fcts).map .send ++ init.calls.map .call) := by
  have hmain := run_templateMain functions h
  have hblocks : ∃ actions, (if p.blocks.isSome then templateSendBb ++ templateSendBbIpd
      else []).mapM (CtorStatement.run (p.arrays.map Prod.snd) functions) = some actions ∧
      .send ⟨.sectionFunctionId, sizeofString p.fctids⟩ ::
        .send ⟨.sectionFunctionTransition, sizeofString p.callgraph⟩ :: actions.flatten =
        p.sections.map CtorAction.send := by
    cases hp : p.blocks with
    | none => exact ⟨[], rfl, by simp [Packed.sections, hp]⟩
    | some r =>
      obtain ⟨bb, ipd⟩ := r
      refine ⟨_, run_templateSendBb functions h hp, ?_⟩
      simp [Packed.sections, hp, Function.comp_def]
  have hend : templateMainEnd.mapM (CtorStatement.run (p.arrays.map Prod.snd) functions) =
      some [[.send ⟨.moduleEnd, []⟩]] := rfl
  have hterminated : ∃ actions, (if ascii "main" ∈ fcts.map FctEntry.name then
      templateMainTerminated else []).mapM (CtorStatement.run (p.arrays.map Prod.snd) functions) =
        some actions ∧ actions.flatten = (terminated fcts).map CtorAction.send := by
    unfold terminated
    split
    · exact ⟨[[.send ⟨.terminated, []⟩]], rfl, rfl⟩
    · exact ⟨[], rfl, rfl⟩
  have hcall : [CtorStatement.call (ascii "_init_wrapper")].mapM
      (CtorStatement.run (p.arrays.map Prod.snd) functions) = some [init.calls.map .call] := by
    rw [List.mapM_cons, List.mapM_nil, run_call hinit]
    rfl
  obtain ⟨blocks, hblocks, hsections⟩ := hblocks
  obtain ⟨terminator, hterminated, hterminator⟩ := hterminated
  refine ⟨_, mapM_run_append functions (mapM_run_append functions (mapM_run_append functions
    (mapM_run_append functions hmain hblocks) hend) hterminated) hcall, ?_⟩
  rw [List.map_append, ← hsections, List.map_cons, ← hterminator]
  simp

end Constructor

namespace Packed

/-- What is printed around packed structures. -/
def source (p : Packed) (fcts fctsInit fctsFini : List FctEntry) : Source :=
  ⟨p.text, printed (wrapperText "_init_wrapper" fctsInit),
    printed (wrapperText "_fini_wrapper" fctsFini), genCtor fcts p.blocks.isSome, genDtor⟩

/-- A wrapper as it is read. -/
def wrapper (name : String) (fcts : List FctEntry) : CallingFunction :=
  ⟨ascii name, ascii "hidden", fcts.map FctEntry.name⟩

theorem run_source {p : Packed} (hp : p.Nonempty) (fcts : List FctEntry)
    {fctsInit fctsFini : List FctEntry} (hinit : ∀ e ∈ fctsInit, IsIdentifier e.name)
    (hfini : ∀ e ∈ fctsFini, IsIdentifier e.name) (body : List CtorStatement) :
    (p.source fcts fctsInit fctsFini).run body =
      (body.mapM (CtorStatement.run (p.arrays.map Prod.snd)
        [wrapper "_init_wrapper" fctsInit, wrapper "_fini_wrapper" fctsFini])).map List.flatten := by
  have hreadInit : readFunction (p.source fcts fctsInit fctsFini).initWrapper =
      some (wrapper "_init_wrapper" fctsInit) :=
    readFunction_wrapperText (by decide) hinit
  have hreadFini : readFunction (p.source fcts fctsInit fctsFini).finiWrapper =
      some (wrapper "_fini_wrapper" fctsFini) :=
    readFunction_wrapperText (by decide) hfini
  have hreadArrays : readArrays (p.source fcts fctsInit fctsFini).arrays =
      some (p.arrays.map Prod.snd) := readArrays_text hp
  rw [Source.run, hreadArrays, hreadInit, hreadFini]
  simp only [Option.bind_eq_bind, Option.bind_some]
  cases body.mapM (CtorStatement.run (p.arrays.map Prod.snd)
    [wrapper "_init_wrapper" fctsInit, wrapper "_fini_wrapper" fctsFini]) <;> rfl

end Packed

theorem generate_eq (t : Tables) (fctsInit fctsFini : List FctEntry) :
    generate t fctsInit fctsFini = (packed t).map (·.source t.fcts fctsInit fctsFini) := by
  unfold generate packed packedBlocks
  cases genPackedCfi t.fcts with
  | none => rfl
  | some cfi =>
    cases genPackedFctids t.fcts with
    | none => rfl
    | some fctids =>
      cases genPackedCallgraph t.callgraph with
      | none => rfl
      | some callgraph =>
        cases t.granularityBb with
        | false => rfl
        | true =>
          cases genPackedBb t.bb with
          | none => rfl
          | some bb =>
            cases genPackedBbIpd t.bbIpd with
            | none => rfl
            | some ipd => rfl

/-- The sizes of a source fit the 32 bits they are counted in. -/
structure SourceFits (pkts : List LoadingPacket) : Prop where
  count : pkts.length < 2 ^ 32
  sizes : ∀ pkt ∈ pkts, pkt.value.length < 2 ^ 32

theorem SourceFits.small {p : Packed} {pkts : List LoadingPacket}
    (h : SourceFits (⟨.moduleBegin, sizeofString p.cfi⟩ :: (p.sections ++ pkts))) : p.Small := by
  refine ⟨h.sizes _ List.mem_cons_self, fun pkt hpkt => ?_, fun r hr => ?_⟩
  · exact h.sizes pkt (List.mem_cons_of_mem _ (List.mem_append_left _ hpkt))
  · have hcount := h.count
    have hlen : r.1.length ≤ p.sections.length := by
      rw [Option.mem_def] at hr
      simp only [Packed.sections, hr, List.length_append, List.length_map]
      omega
    rw [List.length_cons, List.length_append] at hcount
    omega

/-- The source for packets that fit: as a constructor it sends them, reads the id
behind the first one, and then calls the init functions; as a destructor it calls
the fini functions. -/
theorem generate_constructs {t : Tables} {fctsInit fctsFini : List FctEntry}
    (hinit : ∀ e ∈ fctsInit, IsIdentifier e.name) (hfini : ∀ e ∈ fctsFini, IsIdentifier e.name)
    {pkts : List LoadingPacket} (hpkts : modulePackets t = some pkts) (hfits : SourceFits pkts) :
    ∃ s first rest, generate t fctsInit fctsFini = some s ∧ pkts = first :: rest ∧
      s.constructor = some (.send first :: .setModuleId ::
        (rest.map .send ++ fctsInit.map fun e => .call e.name)) ∧
      s.destructor = some (fctsFini.map fun e => .call e.name) := by
  rw [modulePackets_eq] at hpkts
  rw [generate_eq]
  obtain ⟨p, hp, rfl⟩ := Option.map_eq_some_iff.mp hpkts
  have hsmall := hfits.small
  obtain ⟨actions, hctor, hactions⟩ := run_genCtor
    [Packed.wrapper "_init_wrapper" fctsInit, Packed.wrapper "_fini_wrapper" fctsFini] hsmall t.fcts
    rfl
  refine ⟨p.source t.fcts fctsInit fctsFini, _, _, by rw [hp]; rfl, rfl, ?_, ?_⟩
  · show (p.source t.fcts fctsInit fctsFini).run (genCtor t.fcts p.blocks.isSome) = _
    rw [Packed.run_source (packed_nonempty hp) t.fcts hinit hfini, hctor, Option.map_some, hactions]
    simp [Packed.wrapper, Function.comp_def]
  · show (p.source t.fcts fctsInit fctsFini).run genDtor = _
    rw [Packed.run_source (packed_nonempty hp) t.fcts hinit hfini]
    simp only [genDtor, List.mapM_cons, List.mapM_nil]
    rw [run_call (f := Packed.wrapper "_fini_wrapper" fctsFini) rfl]
    simp [Packed.wrapper, Function.comp_def]

/-- A source is printed exactly when there are packets to send. Compiled and run
as a constructor, it sends these packets, reads the id behind the first one, and
then calls the init functions; as a destructor, it calls the fini functions. -/
theorem generate_runs (t : Tables) (fctsInit fctsFini : List FctEntry)
    (hinit : ∀ e ∈ fctsInit, IsIdentifier e.name) (hfini : ∀ e ∈ fctsFini, IsIdentifier e.name) :
    (generate t fctsInit fctsFini = none ↔ modulePackets t = none) ∧
      ∀ pkts, modulePackets t = some pkts → SourceFits pkts →
        ∃ s first rest, generate t fctsInit fctsFini = some s ∧ pkts = first :: rest ∧
          s.constructor = some (.send first :: .setModuleId ::
            (rest.map .send ++ fctsInit.map fun e => .call e.name)) ∧
          s.destructor = some (fctsFini.map fun e => .call e.name) := by
  refine ⟨?_, fun pkts => generate_constructs hinit hfini⟩
  rw [generate_eq, modulePackets_eq]
  simp

/-- A binary with one function, of one block. -/
def smallTables : Tables := ⟨[⟨ascii "main", 0, "Main"⟩], [(0, [0])], true, [⟨0, 1, []⟩], []⟩

def smallPackets : List LoadingPacket :=
  [⟨.moduleBegin, [1, 0, 0, 0, 0]⟩,
    ⟨.sectionFunctionId, [1, 0, 0, 0, 0, 0, 0, 0, 4, 0, 0, 0, 109, 97, 105, 110, 0, 0]⟩,
    ⟨.sectionFunctionTransition, [1, 0, 0, 0, 0, 0, 0, 0, 1, 0, 0, 0, 0, 0, 0, 0, 0]⟩,
    ⟨.sectionBlockTransition, [0, 0, 0, 0, 1, 0, 0, 0, 0, 0, 0, 0]⟩,
    ⟨.sectionBlockIpd, [0, 0, 0, 0, 0]⟩, ⟨.moduleEnd, []⟩, ⟨.terminated, []⟩]

theorem smallTables_packets : modulePackets smallTables = some smallPackets := by
  have hsort : smallTables.fcts.mergeSort FctEntry.le = smallTables.fcts := List.mergeSort_singleton _
  have hfctids : genPackedFctids smallTables.fcts =
      some [1, 0, 0, 0, 0, 0, 0, 0, 4, 0, 0, 0, 109, 97, 105, 110, 0] := by
    rw [genPackedFctids, hsort]
    decide
  rw [modulePackets, sectionPackets, hfctids]
  rfl

theorem generate_runs_small : modulePackets smallTables = some smallPackets ∧
    ∃ s first rest, generate smallTables [⟨ascii "setup", 1, "Init"⟩] [] = some s ∧
      smallPackets = first :: rest ∧
      s.constructor = some (.send first :: .setModuleId ::
        (rest.map .send ++ [.call (ascii "setup")])) ∧
      s.destructor = some [] := by
  have hruns := (generate_runs smallTables [⟨ascii "setup", 1, "Init"⟩] [] (by decide)
    (by decide)).2
  exact ⟨smallTables_packets, hruns smallPackets smallTables_packets ⟨by decide, by decide⟩⟩

end Picon.Prelink
