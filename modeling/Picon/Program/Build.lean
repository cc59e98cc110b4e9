import Picon.Prelink.Parse

/-!
# Building one binary

The runs of the pass on the units of a binary, then `picon-prelink` on the files
they leave. What the records say about the instrumented functions is an
invariant of the runs; it makes the parsed tables well shaped.
-/

namespace Picon.Program

open Pass Prelink
open Monitor (LoadingPacket)

/-! ### What the files say about the runs so far -/

/-- The entries of the function map that have a body. -/
def definitions (cfi : ControlFlowIntegrity) : List CFIFct :=
  cfi.functionMap.filter fun f => !f.fn.isDeclaration

theorem mem_definitions {cfi : ControlFlowIntegrity} {f : CFIFct} :
    f ∈ definitions cfi ↔ f ∈ cfi.functionMap ∧ f.fn.isDeclaration = false := by
  simp [definitions]

/-- The names that these runs saw a body of. -/
def definedNames (passes : List ControlFlowIntegrity) : List Name :=
  passes.flatMap fun cfi => (definitions cfi).map (·.fn.name)

theorem mem_definedNames {passes : List ControlFlowIntegrity} {cfi : ControlFlowIntegrity}
    (hcfi : cfi ∈ passes) {f : CFIFct} (hf : f ∈ definitions cfi) :
    f.fn.name ∈ definedNames passes :=
  List.mem_flatMap.mpr ⟨cfi, hcfi, List.mem_map_of_mem hf⟩

/-- The files hold the tables of exactly these runs. -/
structure Describes (level : Level) (passes : List ControlFlowIntegrity) (files : Files) :
    Prop where
  numbered : NumberedFile files.fctid
  noNul : ∀ e ∈ files.fctid, 0 ∉ e.name
  identified : ∀ cfi ∈ passes, ∀ name id, cfi.identifiedFunctions.lookup name = some id →
    (name, id) ∈ idPairs files.fctid
  mainFlag : ∀ e ∈ files.fctid, e.name = mainName → StartFlag e.flag
  /-- A function with a body in one of the units is not external. -/
  internal : ∀ e ∈ files.fctid, e.name ∈ definedNames passes → e.flag ≠ "External"
  /-- A function keeps the flag of the unit that defines and lists it. -/
  starts : (definedNames passes).Nodup → ∀ cfi ∈ passes, ∀ f ∈ definitions cfi,
    cfi.isInitFunction f.fn.name = true ∨ cfi.isFiniFunction f.fn.name = true →
    ∀ e ∈ files.fctid, e.name = f.fn.name → StartFlag e.flag
  trans : files.trans = passes.flatMap writeCallgraph
  bbtrans : files.bbtrans = if level = .basicBlock ∧ passes ≠ [] then
    some (passes.flatMap writeAllowedBBTrans) else none
  ipdom : ∀ t ∈ files.ipdom, ∃ cfi ∈ passes, ∃ f ∈ cfi.functionMap,
    describesBlocks cfi f = true ∧ t.fct = f.id ∧ t.block < f.fn.blocks.length

theorem Describes.empty (level : Level) : Describes level [] .empty where
  numbered := ⟨List.nodup_nil, .nil⟩
  noNul := by simp [Files.empty]
  identified := by simp
  mainFlag := by simp [Files.empty]
  internal := by simp [Files.empty]
  starts := by simp
  trans := rfl
  bbtrans := by simp [Files.empty]
  ipdom := by simp [Files.empty]

/-- The unit of a run, and the map its identifiers were read from. -/
def PassOf (ignored : List Name) (p : PassEnv × TranslationUnit) (cfi : ControlFlowIntegrity) :
    Prop :=
  ∃ s, cfi = identifyFunctions p.1.functionOrder ignored p.2 s

theorem PassOf.mem {ignored : List Name} {p : PassEnv × TranslationUnit}
    {cfi : ControlFlowIntegrity} (h : PassOf ignored p cfi) {f : CFIFct}
    (hf : f ∈ cfi.functionMap) : f.fn ∈ p.2.functions := by
  obtain ⟨s, rfl⟩ := h
  exact ((IdMap.identifyUnit_spec ignored p.2.functions s).2.1 f
    ((p.1.functionOrder.perm _ _).mem_iff.mp hf)).1

/-- Every function that is not skipped has an entry. -/
theorem PassOf.exists_entry {ignored : List Name} {p : PassEnv × TranslationUnit}
    {cfi : ControlFlowIntegrity} (h : PassOf ignored p cfi) {F : Function}
    (hF : F ∈ p.2.functions) (hign : F.name ∉ ignored) (hint : F.intrinsic = false) :
    ∃ f ∈ cfi.functionMap, f.fn = F := by
  obtain ⟨s, rfl⟩ := h
  obtain ⟨f, hf, hfn⟩ := (IdMap.identifyUnit_spec ignored p.2.functions s).2.2.1 F hF hign hint
  have hperm := p.1.functionOrder.perm (fun f : CFIFct => f.fn.name)
    (IdMap.identifyUnit ignored p.2.functions s).1
  exact ⟨f, hperm.mem_iff.mpr hf, hfn⟩

theorem PassOf.ignoredFunctions_eq {ignored : List Name} {p : PassEnv × TranslationUnit}
    {cfi : ControlFlowIntegrity} (h : PassOf ignored p cfi) : cfi.ignoredFunctions = ignored := by
  obtain ⟨s, rfl⟩ := h
  rfl

/-- A tuple of the ipdom file names a block of a described function. -/
theorem mem_writeIPDOMToFile {cfi : ControlFlowIntegrity} {pdt : PostDominatorTrees} {t : IpdTuple}
    (h : t ∈ writeIPDOMToFile cfi pdt) : ∃ f ∈ cfi.functionMap,
      describesBlocks cfi f = true ∧ t.fct = f.id ∧ t.block < f.fn.blocks.length := by
  obtain ⟨f, hf, ht⟩ := List.mem_flatMap.mp h
  obtain ⟨hmem, hdesc⟩ := List.mem_filter.mp hf
  obtain ⟨b, hb, rfl⟩ := List.mem_mapIdx.mp ht
  exact ⟨f, hmem, hdesc, cfi.getIdentifier_of_mem hmem, hb⟩

theorem fctidFile_ne_external (cfiPrefix : String) : cfiPrefix ++ ".fctid" ≠ "External" := by
  intro h
  have hlast := congrArg (fun s => s.toList.getLast?) h
  simp at hlast

theorem definedNames_append (passes : List ControlFlowIntegrity) (cfi : ControlFlowIntegrity) :
    definedNames (passes ++ [cfi]) = definedNames passes ++ (definitions cfi).map (·.fn.name) := by
  simp [definedNames]

/-- The old file has a record of every function an earlier run defined. -/
theorem Describes.findOld {level : Level} {passes : List ControlFlowIntegrity} {files : Files}
    (hd : Describes level passes files) {name : Name} (hname : name ∈ definedNames passes) :
    ∃ e, Pass.findOld files.fctid name = some e ∧ e ∈ files.fctid ∧ e.name = name := by
  obtain ⟨cfi, hcfi, hmem⟩ := List.mem_flatMap.mp hname
  obtain ⟨f, hf, rfl⟩ := List.mem_map.mp hmem
  have hid := cfi.identified f (mem_definitions.mp hf).1
  obtain ⟨e₀, he₀, hpair⟩ := List.mem_map.mp (hd.identified cfi hcfi _ _ hid)
  have hsome : (Pass.findOld files.fctid f.fn.name).isSome :=
    List.find?_isSome.mpr ⟨e₀, he₀, by simp [(Prod.mk.inj hpair).1]⟩
  obtain ⟨e, he⟩ := Option.isSome_iff_exists.mp hsome
  exact ⟨e, he, List.mem_of_find?_eq_some he, by simpa using List.find?_some he⟩

section Flags

variable {level : Level} {passes : List ControlFlowIntegrity} {files : Files}
  {cfi : ControlFlowIntegrity} {funIdFile : String} {o : StringMapOrder} {new : List FctEntry}

/-- Whichever unit has the body of a function, the run does not write it down
as external. -/
theorem Describes.internal_new (hd : Describes level passes files)
    (hfile : funIdFile ≠ "External") (hnames : (cfi.functionMap.map (·.fn.name)).Nodup)
    (hfctid : writeFunctionIDs cfi funIdFile files.fctid o = some new) :
    ∀ e ∈ new, e.name ∈ definedNames (passes ++ [cfi]) → e.flag ≠ "External" := by
  intro e he hname hext
  rw [definedNames_append] at hname
  rcases mem_writeFunctionIDs hfctid he with ⟨f, hf, hrec⟩ | ⟨hold, hnot⟩
  · obtain ⟨hname', -, hflag⟩ := fctRecord_pair hrec
    rw [hext] at hflag
    have hdecl : f.fn.isDeclaration = true ∧
        ∀ e, Pass.findOld files.fctid f.fn.name = some e → e.flag = "External" := by
      rcases flagsOf_cases hf hflag with hstart | ⟨-, -, -, hold | hnew | hown⟩
      · simp [StartFlag] at hstart
      · obtain ⟨hdecl, e₁, he₁, hext₁⟩ := hold
        refine ⟨hdecl, fun e₂ he₂ => ?_⟩
        obtain rfl := Option.some.inj (he₁.symm.trans he₂)
        exact hext₁.symm
      · exact ⟨hnew.1, fun e₂ he₂ => by simp [hnew.2.1] at he₂⟩
      · exact absurd hown.2.symm hfile
    rcases List.mem_append.mp hname with hname | hname
    · obtain ⟨e₁, he₁, hmem₁, hname₁⟩ := hd.findOld hname
      rw [hname'] at he₁
      exact hd.internal e₁ hmem₁ (hname₁ ▸ hname) (hdecl.2 e₁ he₁)
    · obtain ⟨g, hg, hgname⟩ := List.mem_map.mp hname
      obtain ⟨hgmem, hgdef⟩ := mem_definitions.mp hg
      obtain rfl := List.inj_on_of_nodup_map hnames hgmem hf (hgname.trans hname')
      rw [hgdef] at hdecl
      cases hdecl.1
  · rcases List.mem_append.mp hname with hname | hname
    · exact hd.internal e hold hname hext
    · obtain ⟨g, hg, hgname⟩ := List.mem_map.mp hname
      exact hnot (hgname ▸ List.mem_map_of_mem (mem_definitions.mp hg).1)

/-- A constructor or destructor keeps its flag, unless another unit defines it
once more. -/
theorem Describes.starts_new (hd : Describes level passes files)
    (hfctid : writeFunctionIDs cfi funIdFile files.fctid o = some new)
    (honce : (definedNames (passes ++ [cfi])).Nodup) :
    ∀ c ∈ passes ++ [cfi], ∀ f ∈ definitions c,
      c.isInitFunction f.fn.name = true ∨ c.isFiniFunction f.fn.name = true →
      ∀ e ∈ new, e.name = f.fn.name → StartFlag e.flag := by
  intro c hc f hf hlisted e he hname
  rw [definedNames_append, List.nodup_append] at honce
  obtain ⟨honce, -, hdisjoint⟩ := honce
  rcases mem_writeFunctionIDs hfctid he with ⟨f', hf', hrec⟩ | ⟨hold, hnot⟩
  · obtain ⟨hname', -, hflag⟩ := fctRecord_pair hrec
    rcases flagsOf_cases hf' hflag with hstart | ⟨hinit, hfini, -, hrest⟩
    · exact hstart
    rcases List.mem_append.mp hc with hc | hc
    · have hdefined := mem_definedNames hc hf
      obtain ⟨e₁, he₁, hmem₁, hname₁⟩ := hd.findOld hdefined
      rw [← hname, hname'] at he₁
      rcases hrest with ⟨-, e₂, he₂, hflag₂⟩ | ⟨-, hnone, -⟩ | ⟨hdef, -⟩
      · obtain rfl := Option.some.inj (he₁.symm.trans he₂)
        rw [hflag₂]
        exact hd.starts honce c hc f hf hlisted e₁ hmem₁ hname₁
      · rw [hnone] at he₁
        cases he₁
      · have hmem' := List.mem_map_of_mem (f := (·.fn.name)) (mem_definitions.mpr ⟨hf', hdef⟩)
        exact absurd (hname.symm.trans hname') (hdisjoint _ hdefined _ hmem')
    · obtain rfl := List.mem_singleton.mp hc
      rw [← hname, hname', hinit, hfini] at hlisted
      simp at hlisted
  · rcases List.mem_append.mp hc with hc | hc
    · exact hd.starts honce c hc f hf hlisted e hold hname
    · obtain rfl := List.mem_singleton.mp hc
      exact absurd (hname ▸ List.mem_map_of_mem (mem_definitions.mp hf).1) hnot

end Flags

/-- One run keeps the invariant. -/
theorem Describes.runOnModule {opts : PassOptions} {env : PassEnv} {u : TranslationUnit}
    {passes : List ControlFlowIntegrity} {files files' : Files} {cfi : ControlFlowIntegrity}
    (hd : Describes opts.level passes files)
    (h : Pass.runOnModule opts env u files = some (cfi, files')) :
    Describes opts.level (passes ++ [cfi]) files' ∧ PassOf opts.ignored (env, u) cfi := by
  obtain ⟨s, hs, hcfi, hfctid, htrans, hbbtrans, hipdom⟩ := runOnModule_some h
  have hpass : PassOf opts.ignored (env, u) cfi := ⟨s, hcfi⟩
  have hnames : (cfi.functionMap.map (·.fn.name)).Nodup := by
    rw [hcfi]
    exact functionMap_names_nodup
  refine ⟨⟨?_, ?_, ?_, ?_, ?_, ?_, ?_, ?_, ?_⟩, hpass⟩
  · rw [hcfi] at hfctid
    exact hd.numbered.writeFunctionIDs hs hfctid
  · intro e he
    rcases mem_writeFunctionIDs hfctid he with ⟨f, hf, hrec⟩ | hold
    · rw [(fctRecord_pair hrec).1]
      exact u.names_noNul f.fn (hpass.mem hf)
    · exact hd.noNul e hold.1
  · intro c hc name id hid
    rw [hcfi] at hfctid
    rcases List.mem_append.mp hc with hc | hc
    · exact idPairs_subset_new hd.numbered hs hfctid (hd.identified c hc name id hid)
    · obtain rfl := List.mem_singleton.mp hc
      rw [hcfi] at hid
      exact (mem_idPairs_new hd.numbered hs hfctid name id).mpr hid
  · intro e he hmain
    rcases mem_writeFunctionIDs hfctid he with ⟨f, hf, hrec⟩ | hold
    · obtain ⟨hname, -, hflag⟩ := fctRecord_pair hrec
      rcases flagsOf_cases hf hflag with hstart | ⟨-, -, hne, -⟩
      · exact hstart
      · exact absurd (hname.symm.trans hmain) hne
    · exact hd.mainFlag e hold.1 hmain
  · exact hd.internal_new (fctidFile_ne_external _) hnames hfctid
  · exact fun honce => hd.starts_new hfctid honce
  · rw [htrans, hd.trans, List.flatMap_append, List.flatMap_singleton]
  · rw [hbbtrans, hd.bbtrans]
    cases opts.level with
    | function => simp
    | basicBlock => by_cases hne : passes = [] <;> simp [hne]
  · intro t ht
    rw [hipdom] at ht
    rcases List.mem_append.mp ht with ht | ht
    · obtain ⟨c, hc, hrest⟩ := hd.ipdom t ht
      exact ⟨c, List.mem_append_left _ hc, hrest⟩
    · exact ⟨cfi, List.mem_append_right _ (List.mem_singleton_self cfi),
        mem_writeIPDOMToFile ht⟩

/-- All runs on the units of a binary keep it. -/
theorem Describes.compile {opts : PassOptions} {units : List (PassEnv × TranslationUnit)}
    {before passes : List ControlFlowIntegrity} {files files' : Files}
    (hd : Describes opts.level before files)
    (h : Pass.compile opts units files = some (passes, files')) :
    Describes opts.level (before ++ passes) files' ∧
      List.Forall₂ (PassOf opts.ignored) units passes := by
  induction units generalizing before passes files with
  | nil =>
    obtain ⟨rfl, rfl⟩ := Prod.mk.inj (Option.some.inj h)
    rw [List.append_nil]
    exact ⟨hd, .nil⟩
  | cons p units ih =>
    obtain ⟨env, u⟩ := p
    obtain ⟨⟨cfi, files₁⟩, hrun, h₁⟩ := Option.bind_eq_some_iff.mp h
    obtain ⟨⟨rest, files₂⟩, hrest, h₂⟩ := Option.bind_eq_some_iff.mp h₁
    obtain ⟨rfl, rfl⟩ := Prod.mk.inj (Option.some.inj h₂)
    obtain ⟨hd₁, hpass⟩ := hd.runOnModule hrun
    obtain ⟨hd₂, hall⟩ := ih hd₁ hrest
    rw [List.append_assoc] at hd₂
    exact ⟨hd₂, .cons hpass hall⟩

/-! ### The parsed tables -/

theorem mem_definitions_of_describes {cfi : ControlFlowIntegrity} {f : CFIFct}
    (hf : f ∈ cfi.functionMap) (h : describesBlocks cfi f = true) : f ∈ definitions cfi := by
  simp only [describesBlocks, Bool.and_eq_true] at h
  exact List.mem_filter.mpr ⟨hf, h.2⟩

/-- Concatenations of smaller lists have no more repetitions. -/
theorem nodup_flatMap_of_forall₂ {α β γ : Type*} {f : α → List γ} {g : β → List γ} {xs : List α}
    {ys : List β} (h : List.Forall₂ (fun y x => (f x).Nodup ∧ f x ⊆ g y) ys xs)
    (hys : (ys.flatMap g).Nodup) : (xs.flatMap f).Nodup ∧ xs.flatMap f ⊆ ys.flatMap g := by
  induction h with
  | nil => exact ⟨List.nodup_nil, List.Subset.refl _⟩
  | cons hone _ ih =>
    rw [List.flatMap_cons, List.nodup_append] at hys
    obtain ⟨hrest, hsub⟩ := ih hys.2.1
    refine ⟨?_, ?_⟩
    · rw [List.flatMap_cons, List.nodup_append]
      exact ⟨hone.1, hrest, fun a ha b hb => hys.2.2 a (hone.2 ha) b (hsub hb)⟩
    · intro a ha
      rw [List.flatMap_cons] at ha
      rcases List.mem_append.mp ha with ha | ha
      · exact List.mem_append_left _ (hone.2 ha)
      · exact List.mem_append_right _ (hsub ha)

namespace Describes

variable {level : Level} {passes : List ControlFlowIntegrity} {files : Files}

/-- An entry of a run is a record of the final file. -/
theorem mem_idPairs (hd : Describes level passes files) {cfi : ControlFlowIntegrity}
    (hcfi : cfi ∈ passes) {f : CFIFct} (hf : f ∈ cfi.functionMap) :
    (f.fn.name, f.id) ∈ idPairs files.fctid :=
  hd.identified cfi hcfi _ _ (cfi.identified f hf)

/-- No identifier is defined twice when no name is. -/
theorem defined_ids (hd : Describes level passes files) (honce : (definedNames passes).Nodup) :
    (passes.flatMap fun cfi => (definitions cfi).map CFIFct.id).Nodup := by
  rw [definedNames, ← List.map_flatMap] at honce
  rw [← List.map_flatMap]
  unfold List.Nodup at honce ⊢
  rw [List.pairwise_map] at honce ⊢
  refine honce.imp_of_mem fun {f g} hf hg hne hid => hne ?_
  have hpair : ∀ f ∈ passes.flatMap definitions, (f.fn.name, f.id) ∈ idPairs files.fctid := by
    intro f hf
    obtain ⟨cfi, hcfi, hmem⟩ := List.mem_flatMap.mp hf
    exact hd.mem_idPairs hcfi (List.mem_filter.mp hmem).1
  exact hd.numbered.name_unique (hid ▸ hpair f hf) (hpair g hg)

theorem callgraph_keys (hd : Describes level passes files) (honce : (definedNames passes).Nodup) :
    ((passes.flatMap writeCallgraph).map Prod.fst).Nodup := by
  rw [List.map_flatMap]
  refine (nodup_flatMap_of_forall₂ (List.forall₂_same.mpr fun cfi _ =>
    ⟨(writeCallgraph_keys cfi).1, fun k hk => ?_⟩) (hd.defined_ids honce)).1
  obtain ⟨f, hf, rfl, hdef⟩ := (writeCallgraph_keys cfi).2 k hk
  exact List.mem_map_of_mem (List.mem_filter.mpr ⟨hf, by simp [hdef]⟩)

theorem bb_keys (hd : Describes level passes files) (honce : (definedNames passes).Nodup) :
    ((passes.flatMap writeAllowedBBTrans).map BlockEntry.fct).Nodup := by
  have hall := hd.defined_ids honce
  rw [List.map_flatMap]
  refine (nodup_flatMap_of_forall₂ (g := fun cfi => (definitions cfi).map CFIFct.id)
    (List.forall₂_same.mpr fun cfi hcfi => ?_) hall).1
  have hfct : (writeAllowedBBTrans cfi).map BlockEntry.fct =
      (cfi.functionMap.filter (describesBlocks cfi)).map CFIFct.id := by
    simp [writeAllowedBBTrans, Function.comp_def]
  rw [hfct]
  refine ⟨?_, fun id hid => ?_⟩
  · have hids : ((definitions cfi).map CFIFct.id).Nodup := (List.nodup_flatMap.mp hall).1 cfi hcfi
    refine hids.sublist (List.Sublist.map _ ?_)
    have hfilter : cfi.functionMap.filter (describesBlocks cfi) =
        (definitions cfi).filter (describesBlocks cfi) := by
      rw [definitions, List.filter_filter]
      refine List.filter_congr fun f _ => ?_
      simp only [describesBlocks]
      cases f.fn.isDeclaration <;> simp
    rw [hfilter]
    exact List.filter_sublist
  · obtain ⟨f, hf, rfl⟩ := List.mem_map.mp hid
    obtain ⟨hmem, hdesc⟩ := List.mem_filter.mp hf
    exact List.mem_map_of_mem (mem_definitions_of_describes hmem hdesc)

/-- The block lines of every run, however its functions are called. -/
theorem parseBb_passes {bb : List BlockEntry} :
    parseBb (passes.flatMap writeAllowedBBTrans) = some bb ↔
      bb = passes.flatMap writeAllowedBBTrans ∧
        ((passes.flatMap writeAllowedBBTrans).map BlockEntry.fct).Nodup := by
  refine parseBb_eq_some fun e he => ?_
  obtain ⟨cfi, _, hmem⟩ := List.mem_flatMap.mp he
  obtain ⟨f, _, _, rfl⟩ := writeAllowedBBTrans_mem.mp hmem
  exact succLines_nodup f.fn

/-- What prelink parses, whenever it succeeds. -/
theorem parseFiles_some (hd : Describes level passes files) {t : Tables}
    (h : parseFiles files = some t) :
    t = ⟨files.fctid, parseCallgraph (passes.flatMap writeCallgraph),
      decide (level = .basicBlock ∧ passes ≠ []),
      if level = .basicBlock ∧ passes ≠ [] then passes.flatMap writeAllowedBBTrans else [],
      if level = .basicBlock ∧ passes ≠ [] then files.ipdom else []⟩ ∧
    (t.bb.map BlockEntry.fct).Nodup := by
  have hfctids : parseFctids files.fctid = files.fctid := dictOf_of_nodup hd.numbered.names
  unfold parseFiles at h
  rw [hd.bbtrans, hd.trans, hfctids] at h
  by_cases hhas : level = .basicBlock ∧ passes ≠ []
  · rw [if_pos hhas] at h
    obtain ⟨bb, hbb, h₁⟩ := Option.bind_eq_some_iff.mp h
    obtain ⟨rfl, hnodup⟩ := parseBb_passes.mp hbb
    obtain rfl := Option.some.inj h₁
    refine ⟨?_, hnodup⟩
    rw [if_pos hhas, if_pos hhas, decide_eq_true hhas]
  · rw [if_neg hhas] at h
    obtain rfl := Option.some.inj h
    refine ⟨?_, List.nodup_nil⟩
    rw [if_neg hhas, if_neg hhas, decide_eq_false hhas]

/-- Prelink succeeds when no name is defined twice. -/
theorem parseFiles_isSome (hd : Describes level passes files)
    (honce : (definedNames passes).Nodup) : ∃ t, parseFiles files = some t := by
  unfold parseFiles
  rw [hd.bbtrans]
  by_cases hhas : level = .basicBlock ∧ passes ≠ []
  · rw [if_pos hhas]
    dsimp only
    rw [parseBb_passes.mpr ⟨rfl, hd.bb_keys honce⟩]
    exact ⟨_, rfl⟩
  · rw [if_neg hhas]
    exact ⟨_, rfl⟩

/-- The callgraph lines name numbered functions only. -/
theorem callgraph_lt (hd : Describes level passes files) {e : Nat × List Nat}
    (he : e ∈ passes.flatMap writeCallgraph) :
    e.1 < files.fctid.length ∧ ∀ b ∈ e.2, b < files.fctid.length := by
  obtain ⟨cfi, hcfi, hmem⟩ := List.mem_flatMap.mp he
  refine ⟨?_, fun b hb => ?_⟩
  · obtain ⟨f, hf, hid, -⟩ := (writeCallgraph_keys cfi).2 e.1 (List.mem_map_of_mem hmem)
    exact hid ▸ hd.numbered.id_lt (hd.mem_idPairs hcfi hf)
  · obtain ⟨f, hf, htrans⟩ := listed_writeCallgraph.mp ⟨e, hmem, rfl, hb⟩
    obtain ⟨-, -, g, hg⟩ := mem_transitions htrans
    exact hd.numbered.id_lt (hd.identified cfi hcfi g b hg)

/-- Every block table comes from a function that some pass describes. -/
theorem parsed_bb (hd : Describes level passes files) {t : Tables}
    (h : parseFiles files = some t) {e : BlockEntry} (he : e ∈ t.bb) :
    ∃ cfi ∈ passes, ∃ f ∈ cfi.functionMap, describesBlocks cfi f = true ∧
      e = ⟨f.id, f.fn.blocks.length, succLines f.fn⟩ := by
  rw [(hd.parseFiles_some h).1] at he
  dsimp only at he
  split at he
  · obtain ⟨cfi, hcfi, hmem⟩ := List.mem_flatMap.mp he
    exact ⟨cfi, hcfi, writeAllowedBBTrans_mem.mp hmem⟩
  · cases he

/-- Every identifier is below the number of records, and no table says a thing
twice. -/
theorem parsed_shaped (hd : Describes level passes files) {t : Tables}
    (h : parseFiles files = some t) (hne : t.fcts ≠ []) : t.Shaped := by
  obtain ⟨ht, hnodup⟩ := hd.parseFiles_some h
  have hlines : ((parseCallgraph (passes.flatMap writeCallgraph)).map Prod.fst).Nodup ∧
      ∀ e ∈ parseCallgraph (passes.flatMap writeCallgraph), e ∈ passes.flatMap writeCallgraph :=
    dictOf_spec _
  have hfcts : t.fcts = files.fctid := by rw [ht]
  have hcallgraph : t.callgraph = parseCallgraph (passes.flatMap writeCallgraph) := by rw [ht]
  refine ⟨hne, ?_, ?_, ?_, ?_, ?_, hnodup, ?_, ?_, ?_, ?_, ?_, ?_⟩
  · rw [hfcts]
    exact hd.numbered.ids
  · rw [hfcts]
    exact hd.noNul
  · rw [hcallgraph]
    exact hlines.1
  · intro e he
    rw [hfcts]
    exact (hd.callgraph_lt (hlines.2 e (hcallgraph ▸ he))).1
  · intro e he
    rw [hfcts]
    exact (hd.callgraph_lt (hlines.2 e (hcallgraph ▸ he))).2
  · intro e he
    obtain ⟨cfi, hcfi, f, hf, -, rfl⟩ := hd.parsed_bb h he
    rw [hfcts]
    exact hd.numbered.id_lt (hd.mem_idPairs hcfi hf)
  · intro e he
    obtain ⟨cfi, -, f, -, hdesc, rfl⟩ := hd.parsed_bb h he
    simp only [describesBlocks, Bool.and_eq_true, Bool.not_eq_true'] at hdesc
    exact List.length_pos_iff.mpr (by simpa [Function.isDeclaration] using hdesc.2)
  · intro e he
    obtain ⟨cfi, -, f, -, -, rfl⟩ := hd.parsed_bb h he
    exact succLines_nodup f.fn
  · intro e he s hs
    obtain ⟨cfi, -, f, -, -, rfl⟩ := hd.parsed_bb h he
    exact succLines_source_lt hs
  · intro e he s hs b hb
    obtain ⟨cfi, -, f, -, -, rfl⟩ := hd.parsed_bb h he
    exact (listed_succLines.mp ⟨s, hs, rfl, hb⟩).lt
  · intro p hp
    rw [ht] at hp ⊢
    dsimp only at hp ⊢
    split at hp
    · rename_i hhas
      obtain ⟨cfi, hcfi, f, hf, hdesc, hfct, hblock⟩ := hd.ipdom p hp
      refine ⟨⟨f.id, f.fn.blocks.length, succLines f.fn⟩, ?_, hfct.symm, hblock⟩
      rw [if_pos hhas]
      exact List.mem_flatMap.mpr ⟨cfi, hcfi, writeAllowedBBTrans_mem.mpr ⟨f, hf, hdesc, rfl⟩⟩
    · cases hp

end Describes

/-! ### A binary -/

/-- A binary: its units, what the pass and prelink made of them, and the order
in which prelink iterated over its dictionaries. -/
structure Build (level : Level) (ignored : List Name) where
  cfiPrefix : String
  units : List (PassEnv × TranslationUnit)
  passes : List ControlFlowIntegrity
  files : Files
  compiled : compile ⟨cfiPrefix, level, ignored⟩ units .empty = some (passes, files)
  parsed : Tables
  parsed_eq : parseFiles files = some parsed
  tables : Tables
  iterates : parsed.Iterates tables
  packets : List LoadingPacket
  packets_eq : modulePackets tables = some packets

namespace Build

variable {level : Level} {ignored : List Name} (B : Build level ignored)

/-- No name is defined twice in the binary. -/
def DefinedOnce : Prop :=
  (B.units.flatMap fun p => (p.2.functions.filter (!·.isDeclaration)).map Function.name).Nodup

/-- In every function the last block is the only one that returns. -/
def LaidOut : Prop :=
  ∀ p ∈ B.units, ∀ F ∈ p.2.functions, ∀ b blk, F.blocks[b]? = some blk →
    (b + 1 = F.blocks.length ↔ blk.term = .ret)

/-- The options all its units were compiled with. -/
def options : PassOptions := ⟨B.cfiPrefix, level, ignored⟩

theorem runs : Describes B.options.level ([] ++ B.passes) B.files ∧
    List.Forall₂ (PassOf B.options.ignored) B.units B.passes :=
  (Describes.empty level).compile B.compiled

theorem describes : Describes level B.passes B.files := B.runs.1

theorem passOf : List.Forall₂ (PassOf ignored) B.units B.passes := B.runs.2

/-- Every run was made on one of the units. -/
theorem exists_unit {cfi : ControlFlowIntegrity} (h : cfi ∈ B.passes) :
    ∃ p ∈ B.units, PassOf ignored p cfi := by
  have hall := B.passOf
  generalize B.passes = passes at h hall
  generalize B.units = units at hall ⊢
  induction hall with
  | nil => cases h
  | cons hone _ ih =>
    rcases List.mem_cons.mp h with rfl | h
    · exact ⟨_, List.mem_cons_self, hone⟩
    · obtain ⟨p, hp, hpass⟩ := ih h
      exact ⟨p, List.mem_cons_of_mem _ hp, hpass⟩

end Build

theorem definitions_names_nodup {p : PassEnv × TranslationUnit} {ignored : List Name}
    {cfi : ControlFlowIntegrity} (h : PassOf ignored p cfi) :
    ((definitions cfi).map (·.fn.name)).Nodup ∧ (definitions cfi).map (·.fn.name) ⊆
      (p.2.functions.filter (!·.isDeclaration)).map Function.name := by
  refine ⟨?_, fun name hname => ?_⟩
  · obtain ⟨s, rfl⟩ := h
    exact functionMap_names_nodup.sublist (List.filter_sublist.map _)
  · obtain ⟨f, hf, rfl⟩ := List.mem_map.mp hname
    obtain ⟨hmem, hdef⟩ := List.mem_filter.mp hf
    exact List.mem_map.mpr ⟨f.fn, List.mem_filter.mpr ⟨h.mem hmem, hdef⟩, rfl⟩

namespace Build

variable {level : Level} {ignored : List Name} {B : Build level ignored}

theorem DefinedOnce.names (h : B.DefinedOnce) : (definedNames B.passes).Nodup :=
  (nodup_flatMap_of_forall₂ (B.passOf.imp fun _ _ hpass => definitions_names_nodup hpass) h).1

/-- Is there a `.bbtrans` file? -/
def HasBlocks (B : Build level ignored) : Prop := level = .basicBlock ∧ B.passes ≠ []

instance (B : Build level ignored) : Decidable B.HasBlocks :=
  inferInstanceAs (Decidable (level = .basicBlock ∧ B.passes ≠ []))

/-- Nothing is lost between the files and the dictionaries. -/
theorem DefinedOnce.parsed_eq (h : B.DefinedOnce) :
    B.parsed = ⟨B.files.fctid, B.passes.flatMap writeCallgraph, decide B.HasBlocks,
      if B.HasBlocks then B.passes.flatMap writeAllowedBBTrans else [],
      if B.HasBlocks then B.files.ipdom else []⟩ := by
  have hcallgraph : parseCallgraph (B.passes.flatMap writeCallgraph) =
      B.passes.flatMap writeCallgraph :=
    dictOf_of_nodup (B.describes.callgraph_keys h.names)
  rw [(B.describes.parseFiles_some B.parsed_eq).1, hcallgraph]
  rfl

/-- A callee that is not ignored has an entry of its own in the run that
instruments the call. -/
theorem callee_identified {cfi : ControlFlowIntegrity} (hcfi : cfi ∈ B.passes) {f : CFIFct}
    (hf : f ∈ cfi.functionMap) {g : Name} (hcall : f.fn.HasCall g) (hg : g ∉ ignored) :
    cfi.identifiedFunctions.lookup g = some (cfi.getIdentifier g) := by
  obtain ⟨⟨env, u⟩, -, hpass⟩ := B.exists_unit hcfi
  obtain ⟨G, hG, rfl, hint⟩ := u.callee_declared f.fn (hpass.mem hf) g hcall
  obtain ⟨f', hf', rfl⟩ := hpass.exists_entry hG hg hint
  rw [cfi.getIdentifier_of_mem hf']
  exact cfi.identified f' hf'

theorem ignoredFunctions_eq {cfi : ControlFlowIntegrity} (hcfi : cfi ∈ B.passes) :
    cfi.ignoredFunctions = ignored := by
  obtain ⟨p, -, hpass⟩ := B.exists_unit hcfi
  exact hpass.ignoredFunctions_eq

theorem mem_idPairs {cfi : ControlFlowIntegrity} (hcfi : cfi ∈ B.passes) {f : CFIFct}
    (hf : f ∈ cfi.functionMap) : (f.fn.name, f.id) ∈ idPairs B.files.fctid :=
  B.describes.mem_idPairs hcfi hf

end Build

end Picon.Program
