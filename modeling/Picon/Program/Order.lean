import Mathlib.Data.Set.Function
import Picon.Pass.Flags
import Picon.Program.CallEdges

/-!
# The order of compilation

What prelink parses is first read as statements about functions by name, which
no longer mention the order the units were compiled in. Two orders then give
the same tables up to the numbering, except for the flag of `main`: a unit that
only declares `main` overwrites what the unit that defines it said.
-/

namespace Picon.Program

open Pass Prelink

/-- A unit, with the post-dominator trees of its functions. -/
abbrev UnitInput := PostDominatorTrees × TranslationUnit

/-- What a compilation takes from outside the maps' iteration orders. -/
def unitInput (p : PassEnv × TranslationUnit) : UnitInput := (p.1.pdt, p.2)

/-- The tables `t'` are `t` with the identifiers renamed: same names and classes
of flags, same call graph, same blocks. -/
structure Renamed (σ : Nat → Nat) (t t' : Tables) : Prop where
  ids : Set.BijOn σ {id | id ∈ t.fcts.map FctEntry.id} {id | id ∈ t'.fcts.map FctEntry.id}
  fcts : (t.fcts.map fun e => (e.name, σ e.id, flagToInt e.flag)).Perm
    (t'.fcts.map fun e => (e.name, e.id, flagToInt e.flag))
  callers : (t.callgraph.map fun line => σ line.1).Perm (t'.callgraph.map Prod.fst)
  callees : ∀ line ∈ t.callgraph, ∃ line' ∈ t'.callgraph,
    line'.1 = σ line.1 ∧ (line.2.map σ).Perm line'.2
  granularityBb : t.granularityBb = t'.granularityBb
  bb : (t.bb.map fun e => { e with fct := σ e.fct }).Perm t'.bb
  bbIpd : ∀ p, p ∈ t'.bbIpd ↔ ∃ q ∈ t.bbIpd, p = { q with fct := σ q.fct }

/-- A function whose blocks the pass writes down. -/
def DescribedIn (ignored : List Name) (u : TranslationUnit) (F : Function) : Prop :=
  F ∈ u.functions ∧ F.intrinsic = false ∧ F.name ∉ ignored ∧ F.name ∉ parseAnnotations u ∧
    F.isDeclaration = false

/-- The tables say, under their own numbering, what the units say by name. -/
structure Reflects (level : Level) (ignored : List Name) (units : List UnitInput) (t : Tables) :
    Prop where
  numbered : NumberedFile t.fcts
  names : ∀ name, name ∈ t.fcts.map FctEntry.name ↔ ∃ k ∈ units, Mentions ignored k.2 name
  callers_nodup : (t.callgraph.map Prod.fst).Nodup
  callees_nodup : ∀ line ∈ t.callgraph, line.2.Nodup ∧ line.2 ≠ []
  calls : ∀ a b, Listed t.callgraph a b ↔ ∃ F G, (F, a) ∈ idPairs t.fcts ∧
    (G, b) ∈ idPairs t.fcts ∧ ∃ k ∈ units, CallsIn ignored k.2 F G
  granularityBb : t.granularityBb = true ↔ level = .basicBlock ∧ units ≠ []
  bb_nodup : (t.bb.map BlockEntry.fct).Nodup
  bb : ∀ e, e ∈ t.bb ↔ level = .basicBlock ∧ ∃ F, (F.name, e.fct) ∈ idPairs t.fcts ∧
    e.numBlocks = F.blocks.length ∧ e.succs = succLines F ∧
    ∃ k ∈ units, DescribedIn ignored k.2 F
  bbIpd : ∀ p, p ∈ t.bbIpd ↔ level = .basicBlock ∧ ∃ F blk, (F.name, p.fct) ∈ idPairs t.fcts ∧
    F.blocks[p.block]? = some blk ∧ p.last = F.blocks.length - 1 ∧
    ∃ k ∈ units, DescribedIn ignored k.2 F ∧ p.ipd = ipdOf k.1 F blk

/-- The statements by name do not mention the order of the units. -/
theorem Reflects.perm {level : Level} {ignored : List Name} {units units' : List UnitInput}
    {t : Tables} (hperm : units.Perm units') (h : Reflects level ignored units t) :
    Reflects level ignored units' t where
  numbered := h.numbered
  names name := by simpa only [hperm.mem_iff] using h.names name
  callers_nodup := h.callers_nodup
  callees_nodup := h.callees_nodup
  calls a b := by simpa only [hperm.mem_iff] using h.calls a b
  granularityBb := by
    have hnil : units = [] ↔ units' = [] := by
      rw [← List.length_eq_zero_iff, ← List.length_eq_zero_iff, hperm.length_eq]
    rw [h.granularityBb, Ne, Ne, hnil]
  bb_nodup := h.bb_nodup
  bb e := by simpa only [hperm.mem_iff] using h.bb e
  bbIpd p := by simpa only [hperm.mem_iff] using h.bbIpd p

/-! ### The identifiers of the other order -/

section Numberings

variable {level : Level} {ignored : List Name} {units : List UnitInput} {t t' : Tables}

/-- The identifier of the same name in the other tables. -/
def otherId (t t' : Tables) (id : Nat) : Nat :=
  ((t.fcts.find? (·.id = id)).bind fun e => (idPairs t'.fcts).lookup e.name).getD 0

theorem otherId_eq (h : NumberedFile t.fcts) (h' : NumberedFile t'.fcts) {name : Name}
    {id id' : Nat} (hid : (name, id) ∈ idPairs t.fcts) (hid' : (name, id') ∈ idPairs t'.fcts) :
    otherId t t' id = id' := by
  obtain ⟨e, he, hpair⟩ := List.mem_map.mp hid
  obtain ⟨rfl, rfl⟩ := Prod.mk.inj hpair
  have hsome : (t.fcts.find? (·.id = e.id)).isSome := List.find?_isSome.mpr ⟨e, he, by simp⟩
  obtain ⟨e₁, he₁⟩ := Option.isSome_iff_exists.mp hsome
  have hmem₁ := List.mem_of_find?_eq_some he₁
  have hid₁ : e₁.id = e.id := by simpa using List.find?_some he₁
  have hpair₁ : (e₁.name, e.id) ∈ idPairs t.fcts := List.mem_map.mpr ⟨e₁, hmem₁, by rw [hid₁]⟩
  have hname : e₁.name = e.name := h.name_unique hpair₁ hid
  rw [otherId, he₁, Option.bind_some, hname,
    (IdMap.lookup_eq_some h'.pairs_fst_nodup).mpr hid']
  rfl

/-- The two numberings are of the same names. -/
theorem Reflects.otherId_mem (h : Reflects level ignored units t)
    (h' : Reflects level ignored units t') {name : Name} {id : Nat}
    (hid : (name, id) ∈ idPairs t.fcts) : (name, otherId t t' id) ∈ idPairs t'.fcts := by
  have hname : name ∈ t.fcts.map FctEntry.name := by
    rw [← idPairs_fst]
    exact List.mem_map_of_mem hid
  rw [h.names, ← h'.names, ← idPairs_fst] at hname
  obtain ⟨⟨_, id'⟩, hid', rfl⟩ := List.mem_map.mp hname
  rw [otherId_eq h.numbered h'.numbered hid hid']
  exact hid'

theorem mem_ids {id : Nat} {fctid : List FctEntry} :
    id ∈ fctid.map FctEntry.id ↔ ∃ name, (name, id) ∈ idPairs fctid := by
  simp [idPairs]

theorem Reflects.otherId_bijOn (h : Reflects level ignored units t)
    (h' : Reflects level ignored units t') :
    Set.BijOn (otherId t t') {id | id ∈ t.fcts.map FctEntry.id}
      {id | id ∈ t'.fcts.map FctEntry.id} := by
  refine ⟨fun id hid => ?_, fun id hid id' hid' heq => ?_, fun id' hid' => ?_⟩
  · obtain ⟨name, hname⟩ := mem_ids.mp hid
    exact mem_ids.mpr ⟨name, h.otherId_mem h' hname⟩
  · obtain ⟨name, hname⟩ := mem_ids.mp hid
    obtain ⟨name', hname'⟩ := mem_ids.mp hid'
    have hmem := h.otherId_mem h' hname'
    rw [← heq] at hmem
    obtain rfl := h'.numbered.name_unique (h.otherId_mem h' hname) hmem
    exact h.numbered.id_unique hname hname'
  · obtain ⟨name, hname⟩ := mem_ids.mp hid'
    have hback := h'.otherId_mem h hname
    exact ⟨_, mem_ids.mpr ⟨name, hback⟩, otherId_eq h.numbered h'.numbered hback hname⟩

theorem Reflects.listed_iff (h : Reflects level ignored units t)
    (h' : Reflects level ignored units t') {a' b' : Nat} :
    Listed t'.callgraph a' b' ↔
      ∃ a b, Listed t.callgraph a b ∧ otherId t t' a = a' ∧ otherId t t' b = b' := by
  constructor
  · intro hlisted
    obtain ⟨F, G, hF, hG, hcalls⟩ := (h'.calls a' b').mp hlisted
    have hF' := h'.otherId_mem h hF
    have hG' := h'.otherId_mem h hG
    exact ⟨_, _, (h.calls _ _).mpr ⟨F, G, hF', hG', hcalls⟩,
      otherId_eq h.numbered h'.numbered hF' hF, otherId_eq h.numbered h'.numbered hG' hG⟩
  · rintro ⟨a, b, hlisted, rfl, rfl⟩
    obtain ⟨F, G, hF, hG, hcalls⟩ := (h.calls a b).mp hlisted
    exact (h'.calls _ _).mpr ⟨F, G, h.otherId_mem h' hF, h.otherId_mem h' hG, hcalls⟩

/-- Lines are listed by their keys, since none is empty. -/
theorem Reflects.mem_callers (h : Reflects level ignored units t) {a : Nat} :
    a ∈ t.callgraph.map Prod.fst ↔ ∃ b, Listed t.callgraph a b := by
  constructor
  · intro ha
    obtain ⟨line, hline, rfl⟩ := List.mem_map.mp ha
    obtain ⟨b, hb⟩ := List.exists_mem_of_ne_nil _ (h.callees_nodup line hline).2
    exact ⟨b, line, hline, rfl, hb⟩
  · rintro ⟨b, line, hline, rfl, -⟩
    exact List.mem_map_of_mem hline

theorem Reflects.listed_ids (h : Reflects level ignored units t) {a b : Nat}
    (hlisted : Listed t.callgraph a b) :
    a ∈ t.fcts.map FctEntry.id ∧ b ∈ t.fcts.map FctEntry.id := by
  obtain ⟨F, G, hF, hG, -⟩ := (h.calls a b).mp hlisted
  exact ⟨mem_ids.mpr ⟨F, hF⟩, mem_ids.mpr ⟨G, hG⟩⟩

/-- A number of the other tables leads back to the one it comes from. -/
theorem Reflects.otherId_otherId (h : Reflects level ignored units t)
    (h' : Reflects level ignored units t') {name : Name} {id' : Nat}
    (hid' : (name, id') ∈ idPairs t'.fcts) :
    (name, otherId t' t id') ∈ idPairs t.fcts ∧ otherId t t' (otherId t' t id') = id' := by
  have hback := h'.otherId_mem h hid'
  exact ⟨hback, otherId_eq h.numbered h'.numbered hback hid'⟩

theorem Reflects.flags_perm (h : Reflects level ignored units t)
    (h' : Reflects level ignored units t')
    (hflags : ∀ e ∈ t.fcts, ∀ e' ∈ t'.fcts, e.name = e'.name →
      flagToInt e.flag = flagToInt e'.flag) :
    (t.fcts.map fun e => (e.name, otherId t t' e.id, flagToInt e.flag)).Perm
      (t'.fcts.map fun e => (e.name, e.id, flagToInt e.flag)) := by
  refine (List.perm_ext_iff_of_nodup ?_ ?_).mpr ?_
  · refine List.Nodup.of_map Prod.fst ?_
    simpa [Function.comp_def] using h.numbered.names
  · refine List.Nodup.of_map Prod.fst ?_
    simpa [Function.comp_def] using h'.numbered.names
  · intro p
    constructor
    · intro hp
      obtain ⟨e, he, rfl⟩ := List.mem_map.mp hp
      have hother := h.otherId_mem h' (List.mem_map_of_mem (f := fun e => (e.name, e.id)) he)
      obtain ⟨e', he', hpair⟩ := List.mem_map.mp hother
      obtain ⟨hname, hid⟩ := Prod.mk.inj hpair
      exact List.mem_map.mpr ⟨e', he', by rw [hname, hid, hflags e he e' he' hname.symm]⟩
    · intro hp
      obtain ⟨e', he', rfl⟩ := List.mem_map.mp hp
      have hid' : (e'.name, e'.id) ∈ idPairs t'.fcts := List.mem_map_of_mem he'
      obtain ⟨hback, hforth⟩ := h.otherId_otherId h' hid'
      obtain ⟨e, he, hpair⟩ := List.mem_map.mp hback
      obtain ⟨hname, hid⟩ := Prod.mk.inj hpair
      have hother : otherId t t' e.id = e'.id := by rw [hid, hforth]
      exact List.mem_map.mpr ⟨e, he, by rw [hother, hname, hflags e he e' he' hname]⟩

theorem Reflects.callers_perm (h : Reflects level ignored units t)
    (h' : Reflects level ignored units t') :
    (t.callgraph.map fun line => otherId t t' line.1).Perm (t'.callgraph.map Prod.fst) := by
  refine (List.perm_ext_iff_of_nodup ?_ h'.callers_nodup).mpr fun a' => ?_
  · have hmap : (t.callgraph.map fun line => otherId t t' line.1) =
        (t.callgraph.map Prod.fst).map (otherId t t') := by simp
    rw [hmap]
    refine h.callers_nodup.map_on fun a ha b hb heq => ?_
    obtain ⟨_, hla⟩ := h.mem_callers.mp ha
    obtain ⟨_, hlb⟩ := h.mem_callers.mp hb
    exact (h.otherId_bijOn h').injOn (h.listed_ids hla).1 (h.listed_ids hlb).1 heq
  · constructor
    · intro ha'
      obtain ⟨line, hline, rfl⟩ := List.mem_map.mp ha'
      obtain ⟨b, hb⟩ := h.mem_callers.mp (List.mem_map_of_mem hline)
      exact h'.mem_callers.mpr ⟨_, (h.listed_iff h').mpr ⟨_, _, hb, rfl, rfl⟩⟩
    · intro ha'
      obtain ⟨b', hb'⟩ := h'.mem_callers.mp ha'
      obtain ⟨a, b, ⟨line, hline, rfl, -⟩, rfl, -⟩ := (h.listed_iff h').mp hb'
      exact List.mem_map.mpr ⟨line, hline, rfl⟩

/-- The callees of a caller are those of its number in the other tables. -/
theorem Reflects.callees_perm (h : Reflects level ignored units t)
    (h' : Reflects level ignored units t') {line : Nat × List Nat} (hline : line ∈ t.callgraph) :
    ∃ line' ∈ t'.callgraph, line'.1 = otherId t t' line.1 ∧
      (line.2.map (otherId t t')).Perm line'.2 := by
  have hinj := (h.otherId_bijOn h').injOn
  obtain ⟨hnodup, hne⟩ := h.callees_nodup line hline
  obtain ⟨b, hb⟩ := List.exists_mem_of_ne_nil _ hne
  obtain ⟨line', hline', hkey, -⟩ := (h.listed_iff h').mpr ⟨_, _, ⟨line, hline, rfl, hb⟩, rfl, rfl⟩
  refine ⟨line', hline', hkey, (List.perm_ext_iff_of_nodup ?_ ?_).mpr fun c' => ?_⟩
  · refine hnodup.map_on fun a ha b hb heq => ?_
    exact hinj (h.listed_ids ⟨line, hline, rfl, ha⟩).2 (h.listed_ids ⟨line, hline, rfl, hb⟩).2 heq
  · exact (h'.callees_nodup line' hline').1
  · constructor
    · intro hc'
      obtain ⟨c, hc, rfl⟩ := List.mem_map.mp hc'
      obtain ⟨line₁, hline₁, hkey₁, hmem₁⟩ :=
        (h.listed_iff h').mpr ⟨_, _, ⟨line, hline, rfl, hc⟩, rfl, rfl⟩
      obtain rfl := List.inj_on_of_nodup_map h'.callers_nodup hline₁ hline' (hkey₁.trans hkey.symm)
      exact hmem₁
    · intro hc'
      obtain ⟨a, c, ⟨line₁, hline₁, rfl, hc⟩, ha, rfl⟩ :=
        (h.listed_iff h').mp ⟨line', hline', rfl, hc'⟩
      have hkeys := hinj (h.listed_ids ⟨line₁, hline₁, rfl, hc⟩).1
        (h.listed_ids ⟨line, hline, rfl, hb⟩).1 (ha.trans hkey)
      obtain rfl := List.inj_on_of_nodup_map h.callers_nodup hline₁ hline hkeys
      exact List.mem_map_of_mem hc

theorem Reflects.bb_perm (h : Reflects level ignored units t)
    (h' : Reflects level ignored units t') :
    (t.bb.map fun e => { e with fct := otherId t t' e.fct }).Perm t'.bb := by
  refine (List.perm_ext_iff_of_nodup ?_ (List.Nodup.of_map _ h'.bb_nodup)).mpr fun e' => ?_
  · refine List.Nodup.of_map BlockEntry.fct ?_
    have hmap : (t.bb.map fun e => { e with fct := otherId t t' e.fct }).map BlockEntry.fct =
        (t.bb.map BlockEntry.fct).map (otherId t t') := by simp
    rw [hmap]
    refine h.bb_nodup.map_on fun a ha b hb heq => ?_
    obtain ⟨e, he, rfl⟩ := List.mem_map.mp ha
    obtain ⟨e₁, he₁, rfl⟩ := List.mem_map.mp hb
    obtain ⟨-, F, hF, -⟩ := (h.bb e).mp he
    obtain ⟨-, F₁, hF₁, -⟩ := (h.bb e₁).mp he₁
    exact (h.otherId_bijOn h').injOn (mem_ids.mpr ⟨_, hF⟩) (mem_ids.mpr ⟨_, hF₁⟩) heq
  · constructor
    · intro he'
      obtain ⟨e, he, rfl⟩ := List.mem_map.mp he'
      obtain ⟨hlevel, F, hF, hrest⟩ := (h.bb e).mp he
      exact (h'.bb _).mpr ⟨hlevel, F, h.otherId_mem h' hF, hrest⟩
    · intro he'
      obtain ⟨hlevel, F, hF, hrest⟩ := (h'.bb e').mp he'
      obtain ⟨hback, hforth⟩ := h.otherId_otherId h' hF
      refine List.mem_map.mpr ⟨{ e' with fct := otherId t' t e'.fct },
        (h.bb _).mpr ⟨hlevel, F, hback, hrest⟩, ?_⟩
      dsimp only
      rw [hforth]

theorem Reflects.bbIpd_iff (h : Reflects level ignored units t)
    (h' : Reflects level ignored units t') (p : IpdTuple) :
    p ∈ t'.bbIpd ↔ ∃ q ∈ t.bbIpd, p = { q with fct := otherId t t' q.fct } := by
  constructor
  · intro hp
    obtain ⟨hlevel, F, blk, hF, hrest⟩ := (h'.bbIpd p).mp hp
    obtain ⟨hback, hforth⟩ := h.otherId_otherId h' hF
    refine ⟨{ p with fct := otherId t' t p.fct },
      (h.bbIpd _).mpr ⟨hlevel, F, blk, hback, hrest⟩, ?_⟩
    dsimp only
    rw [hforth]
  · rintro ⟨q, hq, rfl⟩
    obtain ⟨hlevel, F, blk, hF, hrest⟩ := (h.bbIpd q).mp hq
    exact (h'.bbIpd _).mpr ⟨hlevel, F, blk, h.otherId_mem h' hF, hrest⟩

/-- One set of statements by name, two numberings: the tables are the same up to
the numbering. -/
theorem Reflects.renamed (h : Reflects level ignored units t)
    (h' : Reflects level ignored units t')
    (hflags : ∀ e ∈ t.fcts, ∀ e' ∈ t'.fcts, e.name = e'.name →
      flagToInt e.flag = flagToInt e'.flag) : Renamed (otherId t t') t t' where
  ids := h.otherId_bijOn h'
  fcts := h.flags_perm h' hflags
  callers := h.callers_perm h'
  callees _ hline := h.callees_perm h' hline
  granularityBb := Bool.eq_iff_iff.mpr (h.granularityBb.trans h'.granularityBb.symm)
  bb := h.bb_perm h'
  bbIpd := h.bbIpd_iff h'

end Numberings

/-! ### What a compilation reflects -/

section Compile

variable {opts : PassOptions} {order : List (PassEnv × TranslationUnit)} {files : Files}
  {passes : List ControlFlowIntegrity} {t : Tables}

theorem compile_ipdom {files' : Files} (h : compile opts order files = some (passes, files')) :
    files'.ipdom = files.ipdom ++
      (order.zip passes).flatMap fun q => writeIPDOMToFile q.2 q.1.1.pdt := by
  induction order generalizing passes files with
  | nil =>
    obtain ⟨rfl, rfl⟩ := Prod.mk.inj (Option.some.inj h)
    simp
  | cons p order ih =>
    obtain ⟨⟨cfi, files₁⟩, hrun, h₁⟩ := Option.bind_eq_some_iff.mp h
    obtain ⟨⟨rest, files₂⟩, hrest, h₂⟩ := Option.bind_eq_some_iff.mp h₁
    obtain ⟨rfl, rfl⟩ := Prod.mk.inj (Option.some.inj h₂)
    obtain ⟨_, _, _, _, _, _, hipdom⟩ := runOnModule_some hrun
    rw [ih hrest, hipdom, List.append_assoc, List.zip_cons_cons, List.flatMap_cons]

/-- A pass and the function entries its unit describes. -/
theorem describesBlocks_iff {p : PassEnv × TranslationUnit} {cfi : ControlFlowIntegrity}
    (h : PassOf opts.ignored p cfi) {f : CFIFct} (hf : f ∈ cfi.functionMap) :
    describesBlocks cfi f = true ↔ DescribedIn opts.ignored p.2 f.fn := by
  have hign := cfi.not_isIgnoredFunction hf
  obtain ⟨hname, hint⟩ := cfi.instrumentable f hf
  rw [h.ignoredFunctions_eq] at hname
  have hblocks : cfi.isIgnoredBlocksFunction f.fn.name =
      decide (f.fn.name ∈ parseAnnotations p.2) := by
    obtain ⟨s, rfl⟩ := h
    rfl
  simp [describesBlocks, DescribedIn, hign, hblocks, h.mem hf, hint, hname]

/-- The units side by side with the objects of their executions. -/
theorem exists_pass (h : compile opts order .empty = some (passes, files)) :
    (∀ p ∈ order, ∃ cfi, (p, cfi) ∈ order.zip passes) ∧
    (∀ cfi ∈ passes, ∃ p, (p, cfi) ∈ order.zip passes) ∧
    ∀ p cfi, (p, cfi) ∈ order.zip passes → p ∈ order ∧ cfi ∈ passes ∧ PassOf opts.ignored p cfi := by
  have hall := ((Describes.empty opts.level).compile h).2
  have hlen := hall.length_eq
  refine ⟨fun p hp => ?_, fun cfi hcfi => ?_, fun p cfi hq => ?_⟩
  · rw [← List.map_fst_zip (Nat.le_of_eq hlen)] at hp
    obtain ⟨⟨_, cfi⟩, hq, rfl⟩ := List.mem_map.mp hp
    exact ⟨cfi, hq⟩
  · rw [← List.map_snd_zip (Nat.le_of_eq hlen.symm)] at hcfi
    obtain ⟨⟨p, _⟩, hq, rfl⟩ := List.mem_map.mp hcfi
    exact ⟨p, hq⟩
  · obtain ⟨hp, hcfi⟩ := List.of_mem_zip hq
    exact ⟨hp, hcfi, (List.forall₂_iff_zip.mp hall).2 hq⟩

theorem compile_calls (h : compile opts order .empty = some (passes, files))
    (hd : Describes opts.level passes files) (a b : Nat) :
    Listed (passes.flatMap writeCallgraph) a b ↔ ∃ F G, (F, a) ∈ idPairs files.fctid ∧
      (G, b) ∈ idPairs files.fctid ∧ ∃ k ∈ order.map unitInput, CallsIn opts.ignored k.2 F G := by
  obtain ⟨hleft, hright, hzip⟩ := exists_pass h
  constructor
  · rintro ⟨line, hline, hkey, hmem⟩
    obtain ⟨cfi, hcfi, hline⟩ := List.mem_flatMap.mp hline
    obtain ⟨p, hq⟩ := hright cfi hcfi
    obtain ⟨hp, -, hpass⟩ := hzip p cfi hq
    obtain ⟨F, G, hcalls, rfl, rfl⟩ :=
      (listed_writeCallgraph_iff hpass).mp ⟨line, hline, hkey, hmem⟩
    obtain ⟨hF, hG⟩ := hcalls.mentions
    exact ⟨F, G, hd.identified cfi hcfi _ _ (hpass.identified hF),
      hd.identified cfi hcfi _ _ (hpass.identified hG), _, List.mem_map_of_mem hp, hcalls⟩
  · rintro ⟨F, G, hF, hG, hcalls⟩
    obtain ⟨k, hk, hcalls⟩ := hcalls
    obtain ⟨p, hp, rfl⟩ := List.mem_map.mp hk
    obtain ⟨cfi, hq⟩ := hleft p hp
    obtain ⟨-, hcfi, hpass⟩ := hzip p cfi hq
    have hcalls : CallsIn opts.ignored p.2 F G := hcalls
    obtain ⟨hmF, hmG⟩ := hcalls.mentions
    have hidF := hd.identified cfi hcfi _ _ (hpass.identified hmF)
    have hidG := hd.identified cfi hcfi _ _ (hpass.identified hmG)
    obtain ⟨line, hline, hkey, hmem⟩ := (listed_writeCallgraph_iff hpass).mpr
      ⟨F, G, hcalls, hd.numbered.id_unique hidF hF, hd.numbered.id_unique hidG hG⟩
    exact ⟨line, List.mem_flatMap.mpr ⟨cfi, hcfi, hline⟩, hkey, hmem⟩

/-- An entry of the function map, by its name. -/
theorem exists_entry_iff (hd : Describes opts.level passes files)
    {p : PassEnv × TranslationUnit} {cfi : ControlFlowIntegrity} (hcfi : cfi ∈ passes)
    (hpass : PassOf opts.ignored p cfi) {F : Function} {id : Nat} :
    (∃ f ∈ cfi.functionMap, describesBlocks cfi f = true ∧ f.fn = F ∧ f.id = id) ↔
      (F.name, id) ∈ idPairs files.fctid ∧ DescribedIn opts.ignored p.2 F := by
  constructor
  · rintro ⟨f, hf, hdesc, rfl, rfl⟩
    exact ⟨hd.mem_idPairs hcfi hf, (describesBlocks_iff hpass hf).mp hdesc⟩
  · rintro ⟨hid, hdesc⟩
    obtain ⟨f, hf, rfl⟩ := hpass.exists_entry hdesc.1 hdesc.2.2.1 hdesc.2.1
    exact ⟨f, hf, (describesBlocks_iff hpass hf).mpr hdesc, rfl,
      hd.numbered.id_unique (hd.mem_idPairs hcfi hf) hid⟩

theorem compile_bb (h : compile opts order .empty = some (passes, files))
    (hd : Describes opts.level passes files) (e : BlockEntry) :
    e ∈ passes.flatMap writeAllowedBBTrans ↔ ∃ F, (F.name, e.fct) ∈ idPairs files.fctid ∧
      e.numBlocks = F.blocks.length ∧ e.succs = succLines F ∧
      ∃ k ∈ order.map unitInput, DescribedIn opts.ignored k.2 F := by
  obtain ⟨hleft, hright, hzip⟩ := exists_pass h
  constructor
  · intro he
    obtain ⟨cfi, hcfi, hmem⟩ := List.mem_flatMap.mp he
    obtain ⟨f, hf, hdesc, rfl⟩ := writeAllowedBBTrans_mem.mp hmem
    obtain ⟨p, hq⟩ := hright cfi hcfi
    obtain ⟨hp, -, hpass⟩ := hzip p cfi hq
    obtain ⟨hid, hdesc'⟩ := (exists_entry_iff hd hcfi hpass).mp ⟨f, hf, hdesc, rfl, rfl⟩
    exact ⟨f.fn, hid, rfl, rfl, _, List.mem_map_of_mem hp, hdesc'⟩
  · rintro ⟨F, hid, hnum, hsuccs, k, hk, hdesc⟩
    obtain ⟨p, hp, rfl⟩ := List.mem_map.mp hk
    obtain ⟨cfi, hq⟩ := hleft p hp
    obtain ⟨-, hcfi, hpass⟩ := hzip p cfi hq
    obtain ⟨f, hf, hdesc', rfl, hfid⟩ := (exists_entry_iff hd hcfi hpass).mpr ⟨hid, hdesc⟩
    refine List.mem_flatMap.mpr ⟨cfi, hcfi, writeAllowedBBTrans_mem.mpr ⟨f, hf, hdesc', ?_⟩⟩
    cases e
    simp_all

theorem compile_bbIpd (h : compile opts order .empty = some (passes, files))
    (hd : Describes opts.level passes files) (q : IpdTuple) :
    q ∈ files.ipdom ↔ ∃ F blk, (F.name, q.fct) ∈ idPairs files.fctid ∧
      F.blocks[q.block]? = some blk ∧ q.last = F.blocks.length - 1 ∧
      ∃ k ∈ order.map unitInput, DescribedIn opts.ignored k.2 F ∧ q.ipd = ipdOf k.1 F blk := by
  obtain ⟨hleft, -, hzip⟩ := exists_pass h
  rw [compile_ipdom h]
  change q ∈ (order.zip passes).flatMap _ ↔ _
  constructor
  · intro hq
    obtain ⟨⟨p, cfi⟩, hpair, hmem⟩ := List.mem_flatMap.mp hq
    obtain ⟨hp, hcfi, hpass⟩ := hzip p cfi hpair
    obtain ⟨f, hf, hmem⟩ := List.mem_flatMap.mp hmem
    obtain ⟨hfmem, hdesc⟩ := List.mem_filter.mp hf
    obtain ⟨b, hb, rfl⟩ := List.mem_mapIdx.mp hmem
    obtain ⟨hid, hdesc'⟩ := (exists_entry_iff hd hcfi hpass).mp ⟨f, hfmem, hdesc, rfl, rfl⟩
    refine ⟨f.fn, f.fn.blocks[b], ?_, List.getElem?_eq_getElem hb, rfl, _, List.mem_map_of_mem hp,
      hdesc', rfl⟩
    dsimp only
    rw [cfi.getIdentifier_of_mem hfmem]
    exact hid
  · rintro ⟨F, blk, hid, hblk, hlast, k, hk, hdesc, hipd⟩
    obtain ⟨p, hp, rfl⟩ := List.mem_map.mp hk
    obtain ⟨cfi, hpair⟩ := hleft p hp
    obtain ⟨-, hcfi, hpass⟩ := hzip p cfi hpair
    obtain ⟨f, hf, hdesc', rfl, hfid⟩ := (exists_entry_iff hd hcfi hpass).mpr ⟨hid, hdesc⟩
    obtain ⟨hlt, rfl⟩ := List.getElem?_eq_some_iff.mp hblk
    refine List.mem_flatMap.mpr ⟨_, hpair, List.mem_flatMap.mpr
      ⟨f, List.mem_filter.mpr ⟨hf, hdesc'⟩, List.mem_mapIdx.mpr ⟨q.block, hlt, ?_⟩⟩⟩
    rw [cfi.getIdentifier_of_mem hf, hfid, ← hlast]
    exact congrArg (IpdTuple.mk q.fct q.block · q.last) hipd.symm

/-- A table that is only there with blocks, and empty without units anyway. -/
theorem mem_if_blocks {α : Type} {X : List α} {level : Level} {a : α}
    (hX : passes = [] → X = []) :
    a ∈ (if level = .basicBlock ∧ passes ≠ [] then X else []) ↔ level = .basicBlock ∧ a ∈ X := by
  by_cases hnil : passes = []
  · simp [hnil, hX hnil]
  · by_cases hlevel : level = .basicBlock <;> simp [hnil, hlevel]

/-- The tables of a compilation say what its units say. -/
theorem reflects_compile (h : compile opts order .empty = some (passes, files))
    (honce : (definedNames passes).Nodup) (hparse : parseFiles files = some t) :
    Reflects opts.level opts.ignored (order.map unitInput) t := by
  have hd : Describes opts.level passes files := by
    simpa using ((Describes.empty opts.level).compile h).1
  obtain ⟨ht, hbbnodup⟩ := hd.parseFiles_some hparse
  have hlines : parseCallgraph (passes.flatMap writeCallgraph) = passes.flatMap writeCallgraph :=
    dictOf_of_nodup (hd.callgraph_keys honce)
  rw [hlines] at ht
  have hnil : passes = [] ↔ order.map unitInput = [] := by
    have hlen := ((Describes.empty opts.level).compile h).2.length_eq
    rw [List.map_eq_nil_iff, ← List.length_eq_zero_iff, ← List.length_eq_zero_iff, hlen]
  have hrun := h
  rw [compile_eq_runAll] at hrun
  refine ⟨?_, fun name => ?_, ?_, fun line hline => ?_, fun a b => ?_, ?_, hbbnodup, fun e => ?_,
    fun q => ?_⟩
  · rw [ht]
    exact hd.numbered
  · rw [ht]
    dsimp only
    rw [runAll_names numberedFile_nil hrun]
    constructor
    · rintro (hold | ⟨r, hr, hment⟩)
      · cases hold
      · obtain ⟨p, hp, rfl⟩ := List.mem_map.mp hr
        exact ⟨_, List.mem_map_of_mem hp, hment⟩
    · rintro ⟨k, hk, hment⟩
      obtain ⟨p, hp, rfl⟩ := List.mem_map.mp hk
      exact .inr ⟨_, List.mem_map_of_mem hp, hment⟩
  · rw [ht]
    exact hd.callgraph_keys honce
  · rw [ht] at hline
    obtain ⟨cfi, -, hmem⟩ := List.mem_flatMap.mp hline
    obtain ⟨hne, hsorted⟩ := writeCallgraph_callees cfi line hmem
    exact ⟨hsorted.imp Nat.ne_of_lt, hne⟩
  · rw [ht]
    exact compile_calls h hd a b
  · rw [ht]
    exact decide_eq_true_iff.trans (and_congr_right fun _ => not_congr hnil)
  · rw [ht]
    exact (mem_if_blocks fun hnil => by rw [hnil]; rfl).trans
      (and_congr_right fun _ => compile_bb h hd e)
  · rw [ht]
    exact (mem_if_blocks fun hnil => by rw [compile_ipdom h, hnil]; simp [Files.empty]).trans
      (and_congr_right fun _ => compile_bbIpd h hd q)

end Compile

/-! ### Two orders -/

/-- The names that these units define. -/
def unitDefinitions (units : List UnitInput) : List Name :=
  units.flatMap fun k => (k.2.functions.filter (!·.isDeclaration)).map Function.name

/-- Every listed constructor and destructor is defined in its unit. -/
def ListedDefined (units : List UnitInput) : Prop :=
  ∀ k ∈ units, ∀ name, name ∈ k.2.globalCtors.map Prod.snd ∨ name ∈ k.2.globalDtors.map Prod.snd →
    ∃ F ∈ k.2.functions, F.name = name ∧ F.isDeclaration = false

/-- Whichever order the units are compiled in, prelink parses the same tables up
to the numbering. -/
def OrderIndependent (opts : PassOptions) (units : List UnitInput) : Prop :=
  ∀ order₁ order₂ : List (PassEnv × TranslationUnit), (order₁.map unitInput).Perm units →
    (order₂.map unitInput).Perm units →
    ∃ passes₁ files₁ t₁ passes₂ files₂ t₂, compile opts order₁ .empty = some (passes₁, files₁) ∧
      parseFiles files₁ = some t₁ ∧ compile opts order₂ .empty = some (passes₂, files₂) ∧
      parseFiles files₂ = some t₂ ∧ ∃ σ, Renamed σ t₁ t₂

/-- A unit that lists `main` as a constructor or destructor, and another one
that mentions `main`. -/
def MainOverwritten (ignored : List Name) (units : List UnitInput) : Prop :=
  ∃ u ∈ units.map Prod.snd, ∃ v ∈ units.map Prod.snd, u ≠ v ∧ Mentions ignored u mainName ∧
    Mentions ignored v mainName ∧
    (mainName ∈ u.globalCtors.map Prod.snd ∨ mainName ∈ u.globalDtors.map Prod.snd)

section TwoOrders

variable {opts : PassOptions} {units : List UnitInput}

/-- A concatenation without repetitions has each item from one place. -/
theorem eq_of_mem_flatMap {α β : Type*} {f : α → List β} {l : List α} (h : (l.flatMap f).Nodup)
    {a b : α} (ha : a ∈ l) (hb : b ∈ l) {x : β} (hxa : x ∈ f a) (hxb : x ∈ f b) : a = b := by
  induction l with
  | nil => cases ha
  | cons c l ih =>
    rw [List.flatMap_cons, List.nodup_append] at h
    obtain ⟨-, hl, hdisjoint⟩ := h
    rcases List.mem_cons.mp ha with rfl | ha'
    · rcases List.mem_cons.mp hb with rfl | hb'
      · rfl
      · exact absurd rfl (hdisjoint x hxa x (List.mem_flatMap.mpr ⟨b, hb', hxb⟩))
    · rcases List.mem_cons.mp hb with rfl | hb'
      · exact absurd rfl (hdisjoint x hxb x (List.mem_flatMap.mpr ⟨a, ha', hxa⟩))
      · exact ih hl ha' hb'

/-- A name has one unit that defines it. -/
theorem defining_unit_unique (honce : (unitDefinitions units).Nodup) {u v : TranslationUnit}
    (hu : u ∈ units.map Prod.snd) (hv : v ∈ units.map Prod.snd) {F G : Function}
    (hF : F ∈ u.functions) (hG : G ∈ v.functions) (hname : F.name = G.name)
    (hFdef : F.isDeclaration = false) (hGdef : G.isDeclaration = false) : u = v := by
  obtain ⟨k, hk, rfl⟩ := List.mem_map.mp hu
  obtain ⟨l, hl, rfl⟩ := List.mem_map.mp hv
  refine congrArg Prod.snd (eq_of_mem_flatMap honce hk hl (x := F.name) ?_ ?_)
  · exact List.mem_map.mpr ⟨F, List.mem_filter.mpr ⟨hF, by simp [hFdef]⟩, rfl⟩
  · exact List.mem_map.mpr ⟨G, List.mem_filter.mpr ⟨hG, by simp [hGdef]⟩, hname.symm⟩

/-- A unit that fixes the flag of another function than `main` defines it. -/
theorem defines_of_fixedFlag (hlisted : ListedDefined units) {ignored : List Name} {file : String}
    {name : Name} {u : TranslationUnit} (hu : u ∈ units.map Prod.snd) (hmain : name ≠ mainName)
    {flag : String} (h : fixedFlag ignored file name u = some flag) :
    ∃ F ∈ u.functions, F.name = name ∧ F.isDeclaration = false := by
  obtain ⟨k, hk, rfl⟩ := List.mem_map.mp hu
  obtain ⟨F, hF, h⟩ := Option.bind_eq_some_iff.mp h
  obtain ⟨hmem, hname, -, -⟩ := mentioned?_eq_some.mp hF
  split at h
  · rename_i hctor
    exact hlisted k hk name (.inl hctor)
  · split at h
    · rename_i hdtor
      exact hlisted k hk name (.inr hdtor)
    · split at h
      · cases h
      · rename_i hdecl
        exact ⟨F, hmem, hname, by simpa using hdecl⟩

/-- Unless `main` is overwritten, the units agree on every flag. -/
theorem fixedFlag_agree (honce : (unitDefinitions units).Nodup) (hlisted : ListedDefined units)
    {ignored : List Name} (hnot : ¬ MainOverwritten ignored units) (file : String) (name : Name) :
    ∀ u ∈ units.map Prod.snd, ∀ v ∈ units.map Prod.snd, ∀ x y,
      fixedFlag ignored file name u = some x → fixedFlag ignored file name v = some y → x = y := by
  intro u hu v hv x y hx hy
  by_cases huv : u = v
  · subst huv
    exact Option.some.inj (hx.symm.trans hy)
  by_cases hmain : name = mainName
  · subst hmain
    have hflag : ∀ {w z}, fixedFlag ignored file mainName w = some z →
        Mentions ignored w mainName ∧ (z = "Main" ∨ mainName ∈ w.globalCtors.map Prod.snd ∨
          mainName ∈ w.globalDtors.map Prod.snd) := by
      intro w z h
      obtain ⟨F, hF, h⟩ := Option.bind_eq_some_iff.mp h
      refine ⟨mentions_iff.mpr ⟨F, hF⟩, ?_⟩
      split at h
      · exact .inr (.inl (by assumption))
      · split at h
        · exact .inr (.inr (by assumption))
        · rw [if_pos rfl] at h
          exact .inl (Option.some.inj h).symm
    obtain ⟨hmu, hx'⟩ := hflag hx
    obtain ⟨hmv, hy'⟩ := hflag hy
    rcases hx' with rfl | hlist
    · rcases hy' with rfl | hlist
      · rfl
      · exact absurd ⟨v, hv, u, hu, Ne.symm huv, hmv, hmu, hlist⟩ hnot
    · exact absurd ⟨u, hu, v, hv, huv, hmu, hmv, hlist⟩ hnot
  · obtain ⟨F, hF, hFname, hFdef⟩ := defines_of_fixedFlag hlisted hu hmain hx
    obtain ⟨G, hG, hGname, hGdef⟩ := defines_of_fixedFlag hlisted hv hmain hy
    exact absurd (defining_unit_unique honce hu hv hF hG (hFname.trans hGname.symm) hFdef hGdef) huv

/-- Any order compiles and parses, the tables reflect the units, and the flags
are folded over them in that order. -/
theorem compile_order (opts : PassOptions) (honce : (unitDefinitions units).Nodup)
    {order : List (PassEnv × TranslationUnit)} (hperm : (order.map unitInput).Perm units) :
    ∃ passes files t, compile opts order .empty = some (passes, files) ∧
      parseFiles files = some t ∧ Reflects opts.level opts.ignored units t ∧
      ∀ e ∈ t.fcts, some e.flag = (order.map Prod.snd).foldl
        (flagAfter opts.ignored (opts.cfiPrefix ++ ".fctid") e.name) none := by
  have hrun : ∃ passes files, compile opts order .empty = some (passes, files) := by
    rw [compile_eq_runAll]
    exact runAll_isSome numberedFile_nil
  obtain ⟨passes, files, h⟩ := hrun
  obtain ⟨hd, hall⟩ := (Describes.empty opts.level).compile h
  rw [List.nil_append] at hd
  have hnames : (definedNames passes).Nodup := by
    refine (nodup_flatMap_of_forall₂ (hall.imp fun _ _ hpass => definitions_names_nodup hpass) ?_).1
    have hflat : (order.flatMap fun p => (p.2.functions.filter (!·.isDeclaration)).map Function.name) =
        unitDefinitions (order.map unitInput) := by
      simp [unitDefinitions, unitInput, List.flatMap_map]
    rw [hflat]
    exact (hperm.flatMap_right _).nodup_iff.mpr honce
  obtain ⟨t, ht⟩ := hd.parseFiles_isSome hnames
  refine ⟨passes, files, t, h, ht, (reflects_compile h hnames ht).perm hperm, fun e he => ?_⟩
  have hfcts : t.fcts = files.fctid := by rw [(hd.parseFiles_some ht).1]
  rw [hfcts] at he
  have hflag := compile_flag numberedFile_nil h e.name
  rw [flagIn, findOld_eq_some hd.numbered he] at hflag
  exact hflag

/-- A unit that mentions `main` fixes its flag. -/
theorem fixedFlag_main {ignored : List Name} (file : String) {u : TranslationUnit}
    (h : Mentions ignored u mainName) :
    ∃ flag, fixedFlag ignored file mainName u = some flag ∧
      (flagToInt flag = 4 ↔ ¬ (mainName ∈ u.globalCtors.map Prod.snd ∨
        mainName ∈ u.globalDtors.map Prod.snd)) := by
  obtain ⟨F, hF⟩ := mentions_iff.mp h
  unfold fixedFlag
  rw [hF, Option.bind_some]
  by_cases hctor : mainName ∈ u.globalCtors.map Prod.snd
  · exact ⟨"Init", by rw [if_pos hctor], by simp [hctor, flagToInt]⟩
  · by_cases hdtor : mainName ∈ u.globalDtors.map Prod.snd
    · exact ⟨"Fini", by rw [if_neg hctor, if_pos hdtor], by simp [hdtor, flagToInt]⟩
    · exact ⟨"Main", by rw [if_neg hctor, if_neg hdtor, if_pos rfl],
        iff_of_true (by decide) (by simp [hctor, hdtor])⟩

/-- The class of the flag of `main` survives a renaming. -/
theorem Renamed.flag_eq {σ : Nat → Nat} {t t' : Tables} (h : Renamed σ t t')
    (hnum : NumberedFile t'.fcts) {e e' : FctEntry} (he : e ∈ t.fcts) (he' : e' ∈ t'.fcts)
    (hname : e.name = e'.name) : flagToInt e.flag = flagToInt e'.flag := by
  have hmem := h.fcts.mem_iff.mp (List.mem_map.mpr ⟨e, he, rfl⟩)
  obtain ⟨e₁, he₁, hpair⟩ := List.mem_map.mp hmem
  obtain ⟨hname₁, hrest⟩ := Prod.mk.inj hpair
  obtain rfl := List.inj_on_of_nodup_map hnum.names he₁ he' (hname₁.trans hname)
  exact (Prod.mk.inj hrest).2.symm

/-- The flag of `main` when this unit comes last. -/
theorem main_flag_last {order : List (PassEnv × TranslationUnit)} {p : PassEnv × TranslationUnit}
    {t : Tables} (href : Reflects opts.level opts.ignored units t)
    (hperm : ((order ++ [p]).map unitInput).Perm units)
    (hflag : ∀ e ∈ t.fcts, some e.flag = ((order ++ [p]).map Prod.snd).foldl
      (flagAfter opts.ignored (opts.cfiPrefix ++ ".fctid") e.name) none)
    (hment : Mentions opts.ignored p.2 mainName) :
    ∃ e ∈ t.fcts, e.name = mainName ∧ (flagToInt e.flag = 4 ↔
      ¬ (mainName ∈ p.2.globalCtors.map Prod.snd ∨ mainName ∈ p.2.globalDtors.map Prod.snd)) := by
  have hlast : unitInput p ∈ units := hperm.mem_iff.mp (List.mem_map_of_mem (by simp))
  obtain ⟨e, he, hname⟩ := List.mem_map.mp ((href.names mainName).mpr ⟨_, hlast, hment⟩)
  obtain ⟨flag, hfixed, hclass⟩ :=
    fixedFlag_main (opts.cfiPrefix ++ ".fctid") hment
  have hfold := hflag e he
  rw [hname, List.map_append, List.map_singleton, foldl_flagAfter_fixed hfixed] at hfold
  exact ⟨e, he, hname, Option.some.inj hfold ▸ hclass⟩

/-- Two different units can be compiled last, in either order. -/
theorem exists_orders {k l : UnitInput} (hk : k ∈ units) (hl : l ∈ units) (hkl : k ≠ l) :
    ∃ order order' : List (PassEnv × TranslationUnit),
      ((order ++ [(PassEnv.plain l.1, l.2)]).map unitInput).Perm units ∧
      ((order' ++ [(PassEnv.plain k.1, k.2)]).map unitInput).Perm units := by
  classical
  have hl' : l ∈ units.erase k := (List.mem_erase_of_ne (Ne.symm hkl)).mpr hl
  have hperm : units.Perm (k :: l :: (units.erase k).erase l) :=
    (List.perm_cons_erase hk).trans ((List.perm_cons_erase hl').cons k)
  let run : UnitInput → PassEnv × TranslationUnit := fun k => (.plain k.1, k.2)
  have hinput : ∀ (ks : List UnitInput) (k : UnitInput),
      ((ks.map run ++ [(PassEnv.plain k.1, k.2)]).map unitInput).Perm (k :: ks) := by
    intro ks k
    rw [List.map_append, List.map_map]
    have hid : ks.map (unitInput ∘ run) = ks := List.map_id ks
    rw [hid]
    exact List.perm_append_singleton k ks
  refine ⟨(k :: (units.erase k).erase l).map run, (l :: (units.erase k).erase l).map run, ?_, ?_⟩
  · exact (hinput _ l).trans ((List.Perm.swap k l _).trans hperm.symm)
  · exact (hinput _ k).trans hperm.symm

/-- The order of compilation does not matter exactly when no unit that lists
`main` as a constructor or destructor shares `main` with another unit. -/
theorem compilation_order_iff (opts : PassOptions) (units : List UnitInput)
    (honce : (unitDefinitions units).Nodup) (hlisted : ListedDefined units) :
    (OrderIndependent opts units ↔ ¬ MainOverwritten opts.ignored units) ∧
      ∀ order passes files, (order.map unitInput).Perm units →
        compile opts order .empty = some (passes, files) →
          WrittenAlike opts.cfiPrefix (order.map opts.run) passes files := by
  refine ⟨⟨?_, ?_⟩, fun order passes files _ hcompile => ?_⟩
  · rintro hind ⟨u, hu, v, hv, huv, hmu, hmv, hlist⟩
    obtain ⟨k, hk, rfl⟩ := List.mem_map.mp hu
    obtain ⟨l, hl, rfl⟩ := List.mem_map.mp hv
    have hnotlist : ¬ (mainName ∈ l.2.globalCtors.map Prod.snd ∨
        mainName ∈ l.2.globalDtors.map Prod.snd) := by
      intro hlist'
      obtain ⟨F, hF, hFname, hFdef⟩ := hlisted k hk mainName hlist
      obtain ⟨G, hG, hGname, hGdef⟩ := hlisted l hl mainName hlist'
      exact huv (defining_unit_unique honce hu hv hF hG (hFname.trans hGname.symm) hFdef hGdef)
    -- once the unit that lists `main` comes last, once the other one
    obtain ⟨order, order', hperm, hperm'⟩ := exists_orders hk hl fun h => huv (congrArg Prod.snd h)
    obtain ⟨_, _, t, _, _, t', hc, hp, hc', hp', σ, hσ⟩ := hind _ _ hperm hperm'
    obtain ⟨_, _, t₁, hc₁, hp₁, href, hflag⟩ := compile_order opts honce hperm
    obtain ⟨_, _, t₁', hc₁', hp₁', href', hflag'⟩ := compile_order opts honce hperm'
    obtain ⟨rfl, rfl⟩ := Prod.mk.inj (Option.some.inj (hc.symm.trans hc₁))
    obtain ⟨rfl, rfl⟩ := Prod.mk.inj (Option.some.inj (hc'.symm.trans hc₁'))
    obtain rfl := Option.some.inj (hp.symm.trans hp₁)
    obtain rfl := Option.some.inj (hp'.symm.trans hp₁')
    obtain ⟨e, he, hname, hclass⟩ := main_flag_last href hperm hflag hmv
    obtain ⟨e', he', hname', hclass'⟩ := main_flag_last href' hperm' hflag' hmu
    have heq := hσ.flag_eq href'.numbered he he' (hname.trans hname'.symm)
    exact hclass'.mp (heq ▸ hclass.mpr hnotlist) hlist
  · intro hnot order₁ order₂ hperm₁ hperm₂
    obtain ⟨passes₁, files₁, t₁, hc₁, hp₁, href₁, hflag₁⟩ := compile_order opts honce hperm₁
    obtain ⟨passes₂, files₂, t₂, hc₂, hp₂, href₂, hflag₂⟩ := compile_order opts honce hperm₂
    refine ⟨passes₁, files₁, t₁, passes₂, files₂, t₂, hc₁, hp₁, hc₂, hp₂, _,
      href₁.renamed href₂ fun e he e' he' hname => ?_⟩
    have hsnd : ∀ order : List (PassEnv × TranslationUnit),
        (order.map unitInput).map Prod.snd = order.map Prod.snd := by
      intro order
      rw [List.map_map]
      rfl
    have hperm : (order₁.map Prod.snd).Perm (order₂.map Prod.snd) := by
      have := (hperm₁.trans hperm₂.symm).map Prod.snd
      rwa [hsnd, hsnd] at this
    have hagree := fixedFlag_agree honce hlisted hnot (opts.cfiPrefix ++ ".fctid") e.name
    have hmem : ∀ u ∈ order₁.map Prod.snd, u ∈ units.map Prod.snd := by
      intro u hu
      rw [← hsnd] at hu
      exact (hperm₁.map Prod.snd).mem_iff.mp hu
    have hfold := foldl_flagAfter_perm hperm fun u hu v hv => hagree u (hmem u hu) v (hmem v hv)
    have h₁ := hflag₁ e he
    have h₂ := hflag₂ e' he'
    rw [hfold, hname, ← h₂] at h₁
    rw [Option.some.inj h₁]
  · exact runAll_writtenAlike ((compile_eq_runAll opts order .empty).symm.trans hcompile)

end TwoOrders

/-- A `main` that is also a constructor, and a unit that calls it. -/
def listingUnit : TranslationUnit where
  functions := [.straight mainName []]
  globalCtors := [(65535, mainName)]
  globalDtors := []
  annotations := []
  names_nodup := by decide
  names_noNul := by decide
  callee_declared := by simp [Function.HasCall, Function.straight]

def callingUnit : TranslationUnit where
  functions := [.straight [102] [mainName], .declared mainName]
  globalCtors := []
  globalDtors := []
  annotations := []
  names_nodup := by decide
  names_noNul := by decide
  callee_declared := by simp [Function.HasCall, Function.straight, Function.declared]

/-- The unit that calls `main` says `Main` when it is compiled last, the other
one `Init`. -/
theorem compilation_order_matters : ¬ ∀ (opts : PassOptions) (units : List UnitInput),
    (unitDefinitions units).Nodup → ListedDefined units → OrderIndependent opts units := by
  intro hall
  have hind := hall ⟨"prog", .function, []⟩ [(.none, listingUnit), (.none, callingUnit)] (by decide)
    (by
      intro k hk name hname
      rcases List.mem_pair.mp hk with rfl | rfl
      · refine ⟨_, List.mem_cons_self, ?_, rfl⟩
        have hmain : name = mainName := by simpa [listingUnit] using hname
        exact hmain.symm
      · simp [callingUnit] at hname)
  have hperm : ∀ order : List (PassEnv × TranslationUnit),
      order = [(.plain .none, callingUnit), (.plain .none, listingUnit)] →
      (order.map unitInput).Perm [(.none, listingUnit), (.none, callingUnit)] := by
    rintro _ rfl
    exact .swap _ _ _
  obtain ⟨_, _, t, _, _, t', hc, hp, hc', hp', σ, hσ⟩ :=
    hind [(.plain .none, listingUnit), (.plain .none, callingUnit)] _ (.refl _) (hperm _ rfl)
  obtain ⟨rfl, rfl⟩ := Prod.mk.inj (Option.some.inj hc)
  obtain ⟨rfl, rfl⟩ := Prod.mk.inj (Option.some.inj hc')
  obtain rfl := Option.some.inj hp
  obtain rfl := Option.some.inj hp'
  have hmem : (mainName, σ 0, 4) ∈ ([(mainName, 1, 2), ([102], 0, 0)] : List (Name × Nat × Nat)) :=
    hσ.fcts.mem_iff.mp (List.mem_of_getElem? (i := 1) rfl)
  revert hmem
  generalize σ 0 = id
  intro hmem
  simp [mainName] at hmem

theorem compilation_order_iff_twoUnits :
    (unitDefinitions [(.none, importingUnit), (.none, definingUnit)]).Nodup ∧
    OrderIndependent ⟨"prog", .basicBlock, []⟩ [(.none, importingUnit), (.none, definingUnit)] := by
  refine ⟨by decide, (compilation_order_iff _ _ (by decide) ?_).1.mpr ?_⟩
  · intro k hk name hname
    rcases List.mem_pair.mp hk with rfl | rfl <;> simp [importingUnit, definingUnit] at hname
  · rintro ⟨u, hu, -, -, -, -, -, hlist⟩
    rcases List.mem_pair.mp hu with rfl | rfl <;> simp [importingUnit, definingUnit] at hlist

end Picon.Program
