import Picon.Loader.Release
import Picon.Loader.Shapes

/-!
# What the monitor never releases

While memory lasts the cleanup can always be carried out. It leaves buffers
behind for two reasons: a function section that names a function twice, and one
without functions, whose three arrays no count accounts for.
-/

namespace Picon.Loader.Tables

open Lib (BufferId Heap Ledger forRecords Outcome le32)
open Monitor

/-! ### The leaks of a stream -/

/-- The ids of the records that a function section stores, up to its end or to
the first record that is refused. -/
def storedIds (nbFunctions : Nat) : Nat → Bytes → List Nat
  | 0, _ => []
  | n + 1, ptr =>
    match readWord ptr with
    | .error _ => []
    | .ok fId =>
      if nbFunctions ≤ fId then []
      else
        match readName (ptr.drop 8), readWord (ptr.drop 4) with
        | .ok name, .ok _ => fId :: storedIds nbFunctions n (ptr.drop (8 + name.length + 1))
        | _, _ => []

/-- The packet opens the functions of its module with none, or with an id that
comes twice. -/
structure PacketLeak (nbFunctions : Nat) (pkt : LoadingPacket) (n : Nat) : Prop where
  isFunctionId : pkt.event = .sectionFunctionId
  first : nbFunctions = 0
  announced : readWord pkt.value = .ok n
  leaks : n = 0 ∨ ¬ (storedIds n n (pkt.value.drop 4)).Nodup

/-- One of the sections that the loader gets to leaks. -/
inductive SectionLeak : ModuleData → List (Option LoadingPacket) → Prop
  | here {md : ModuleData} {pkt : LoadingPacket} {n : Nat} {rest : List (Option LoadingPacket)}
      (leak : PacketLeak md.nbFunctions pkt n) : SectionLeak md (some pkt :: rest)
  | next {md md' : ModuleData} {pkt : LoadingPacket} {rest : List (Option LoadingPacket)}
      (isSection : pkt.event ≠ .moduleEnd) (accepted : Monitor.loadSection pkt md = .ok md')
      (later : SectionLeak md' rest) : SectionLeak md (some pkt :: rest)

/-- A module is begun, and one of its sections leaks. -/
def ModuleLeak (sent : Bool) (pkts : List (Option LoadingPacket)) : Prop :=
  ∃ pkt rest, pkts = some pkt :: rest ∧ pkt.event = .moduleBegin ∧ sent = true ∧
    SectionLeak .empty rest

/-- A module is begun and loaded, and `rest` comes next. -/
def ModuleLoads (sent : Bool) (pkts rest : List (Option LoadingPacket)) : Prop :=
  ∃ pkt sections md, pkts = some pkt :: sections ∧ pkt.event = .moduleBegin ∧ sent = true ∧
    Monitor.loadSections .empty sections = .loaded md rest

/-- One of the modules that the loader gets to leaks; `k` modules came before. -/
inductive LoadLeak (env : Surroundings) : Nat → List (Option LoadingPacket) → Prop
  | here {k : Nat} {pkts : List (Option LoadingPacket)} (leak : ModuleLeak (env.sent k) pkts) :
      LoadLeak env k pkts
  | next {k : Nat} {pkts rest : List (Option LoadingPacket)}
      (loads : ModuleLoads (env.sent k) pkts rest) (proceeds : env.proceeds k = true)
      (later : LoadLeak env (k + 1) rest) : LoadLeak env k pkts

/-- A module is begun, and one of its sections announces more than its packet
holds. -/
def ModuleOverreads (sent : Bool) (pkts : List (Option LoadingPacket)) : Prop :=
  ∃ pkt sections, pkts = some pkt :: sections ∧ pkt.event = .moduleBegin ∧ sent = true ∧
    Monitor.loadSections .empty sections = .failed .overread

/-- One of the modules that the loader gets to does; `k` modules came before. -/
inductive LoadOverreads (env : Surroundings) : Nat → List (Option LoadingPacket) → Prop
  | here {k : Nat} {pkts : List (Option LoadingPacket)}
      (overreads : ModuleOverreads (env.sent k) pkts) : LoadOverreads env k pkts
  | next {k : Nat} {pkts rest : List (Option LoadingPacket)}
      (loads : ModuleLoads (env.sent k) pkts rest) (proceeds : env.proceeds k = true)
      (later : LoadOverreads env (k + 1) rest) : LoadOverreads env k pkts

/-! ### The modules the loader gets to -/

section GotTo

variable {env : Surroundings} {sent : Bool} {k : Nat} {pkts rest rest' : List (Option LoadingPacket)}

theorem ModuleLoads.unique (h : ModuleLoads sent pkts rest) (h' : ModuleLoads sent pkts rest') :
    rest' = rest := by
  obtain ⟨pkt, sections, md, rfl, -, -, hload⟩ := h
  obtain ⟨pkt', sections', md', hpkts, -, -, hload'⟩ := h'
  obtain ⟨-, rfl⟩ := List.cons.inj hpkts
  rw [hload] at hload'
  exact (ModuleLoad.loaded.inj hload').2.symm

theorem ModuleLoads.length_lt (h : ModuleLoads sent pkts rest) : rest.length < pkts.length := by
  obtain ⟨pkt, sections, md, rfl, -, -, hload⟩ := h
  have hlt := Monitor.loadSections_rest_lt hload
  rw [List.length_cons]
  omega

/-- Behind a module that is loaded, the loader goes on with what comes next. -/
theorem ModuleLoads.or_later_iff {p q : Prop} {later : List (Option LoadingPacket) → Prop}
    (h : ModuleLoads sent pkts rest) (hp : p) :
    (q ∨ ∃ rest', ModuleLoads sent pkts rest' ∧ p ∧ later rest') ↔ q ∨ later rest := by
  apply or_congr_right
  constructor
  · rintro ⟨rest', hloads, -, hlater⟩
    rwa [h.unique hloads] at hlater
  · exact fun hlater => ⟨rest, h, hp, hlater⟩

theorem or_no_later_iff {p q : Prop} {later : List (Option LoadingPacket) → Prop}
    (hno : ∀ rest, ModuleLoads sent pkts rest → ¬ p) :
    (q ∨ ∃ rest, ModuleLoads sent pkts rest ∧ p ∧ later rest) ↔ q := by
  apply or_iff_left
  rintro ⟨rest, hloads, hp, -⟩
  exact hno rest hloads hp

theorem loadLeak_iff : LoadLeak env k pkts ↔ ModuleLeak (env.sent k) pkts ∨
    ∃ rest, ModuleLoads (env.sent k) pkts rest ∧ env.proceeds k = true ∧
      LoadLeak env (k + 1) rest := by
  constructor
  · intro hleak
    cases hleak with
    | here leak => exact .inl leak
    | next loads proceeds later => exact .inr ⟨_, loads, proceeds, later⟩
  · rintro (leak | ⟨rest, loads, proceeds, later⟩)
    · exact .here leak
    · exact .next loads proceeds later

theorem loadOverreads_iff : LoadOverreads env k pkts ↔ ModuleOverreads (env.sent k) pkts ∨
    ∃ rest, ModuleLoads (env.sent k) pkts rest ∧ env.proceeds k = true ∧
      LoadOverreads env (k + 1) rest := by
  constructor
  · intro hreads
    cases hreads with
    | here overreads => exact .inl overreads
    | next loads proceeds later => exact .inr ⟨_, loads, proceeds, later⟩
  · rintro (overreads | ⟨rest, loads, proceeds, later⟩)
    · exact .here overreads
    · exact .next loads proceeds later

/-- Only packets that begin a module leak or are read past their end. -/
theorem LoadLeak.begins (h : LoadLeak env k pkts) :
    ∃ pkt rest, pkts = some pkt :: rest ∧ pkt.event = .moduleBegin := by
  cases h with
  | here leak =>
    obtain ⟨pkt, rest, hpkts, hbegin, -⟩ := leak
    exact ⟨pkt, rest, hpkts, hbegin⟩
  | next loads _ _ =>
    obtain ⟨pkt, sections, md, hpkts, hbegin, -⟩ := loads
    exact ⟨pkt, sections, hpkts, hbegin⟩

theorem LoadOverreads.begins (h : LoadOverreads env k pkts) :
    ∃ pkt rest, pkts = some pkt :: rest ∧ pkt.event = .moduleBegin := by
  cases h with
  | here overreads =>
    obtain ⟨pkt, rest, hpkts, hbegin, -⟩ := overreads
    exact ⟨pkt, rest, hpkts, hbegin⟩
  | next loads _ _ =>
    obtain ⟨pkt, sections, md, hpkts, hbegin, -⟩ := loads
    exact ⟨pkt, sections, hpkts, hbegin⟩

/-- Behind the terminator nothing is loaded, -/
theorem not_loadLeak_terminated (env : Surroundings) (k : Nat) (pkts : List (Option LoadingPacket))
    (hpkts : pkts.head? = some (some ⟨.terminated, []⟩)) : ¬ LoadLeak env k pkts := by
  intro hleak
  obtain ⟨pkt, rest, rfl, hbegin⟩ := hleak.begins
  obtain rfl := Option.some.inj (Option.some.inj hpkts)
  cases hbegin

/-- and nothing is read. -/
theorem not_loadOverreads_terminated (env : Surroundings) (k : Nat)
    (pkts : List (Option LoadingPacket)) (hpkts : pkts.head? = some (some ⟨.terminated, []⟩)) :
    ¬ LoadOverreads env k pkts := by
  intro hreads
  obtain ⟨pkt, rest, rfl, hbegin⟩ := hreads.begins
  obtain rfl := Option.some.inj (Option.some.inj hpkts)
  cases hbegin

end GotTo

section Granted

variable {grants : Nat → Bool} (hg : ∀ k, grants k = true) {bs : List BufferId}

/-! ### The function section -/

/-- A record of the function section: refused as it is read, or stored. -/
theorem functionIdRecord_cases (grants : Nat → Bool) (ptr : Bytes) (s : Loading ModuleBlocks) :
    (∃ e, functionIdRecord grants ptr s = .error (e, s) ∧
        ∀ n, storedIds s.blocks.nbFunctions (n + 1) ptr = []) ∨
      ∃ fId ptr', fId < s.blocks.nbFunctions ∧
        functionIdRecord grants ptr s = .ok (ptr', storeName grants fId s) ∧
        ∀ n, storedIds s.blocks.nbFunctions (n + 1) ptr =
          fId :: storedIds s.blocks.nbFunctions n ptr' := by
  cases hid : readWord ptr with
  | error e =>
    refine .inl ⟨e, ?_, fun n => ?_⟩
    · simp only [functionIdRecord, hid, Loading.read, bind, Except.bind]
    · simp only [storedIds, hid]
  | ok fId =>
    by_cases hlt : s.blocks.nbFunctions ≤ fId
    · refine .inl ⟨.code 3, ?_, fun n => ?_⟩
      · simp only [functionIdRecord, hid, Loading.read, bind, Except.bind, if_pos hlt]
      · simp only [storedIds, hid, if_pos hlt]
    · cases hname : readName (ptr.drop 8) with
      | error e =>
        refine .inl ⟨e, ?_, fun n => ?_⟩
        · simp only [functionIdRecord, hid, hname, Loading.read, bind, Except.bind, if_neg hlt]
        · simp only [storedIds, hid, hname, if_neg hlt]
      | ok name =>
        cases hflags : readWord (ptr.drop 4) with
        | error e =>
          refine .inl ⟨e, ?_, fun n => ?_⟩
          · simp only [functionIdRecord, hid, hname, hflags, Loading.read, bind, Except.bind,
              if_neg hlt]
          · simp only [storedIds, hid, hname, hflags, if_neg hlt]
        | ok flags =>
          refine .inr ⟨fId, ptr.drop (8 + name.length + 1), Nat.not_le.mp hlt, ?_, fun n => ?_⟩
          · simp only [functionIdRecord, hid, hname, hflags, Loading.read, bind, Except.bind,
              if_neg hlt]
          · simp only [storedIds, hid, hname, hflags, if_neg hlt]

/-- Between two records: the slots of `seen` are named, and a name was lost for
every id that came again. -/
structure Naming (n : Nat) (bs : List BufferId) (seen : List Nat) (lost : List BufferId)
    (s : Loading ModuleBlocks) : Prop where
  count : s.blocks.nbFunctions = n
  sound : ModuleSound (lost ++ bs) s
  relocations : s.blocks.relocations ≠ none
  slots : ∀ i f, s.blocks.functions.cells[i]? = some f → (f.owned = [] ↔ i ∉ seen)
  once : lost = [] ↔ seen.Nodup

include hg

theorem Naming.store {n fId : Nat} {seen : List Nat} {lost : List BufferId}
    {s : Loading ModuleBlocks} (hs : Naming n bs seen lost s) (hf : fId < n) :
    ∃ lost', Naming n bs (fId :: seen) lost' (storeName grants fId s) := by
  obtain ⟨old, hget, hsound⟩ := storeName_sound grants hs.sound (hs.count ▸ hf)
  obtain ⟨b, heap, halloc⟩ := Heap.alloc_granted hg .name s.heap
  have hcells : (storeName grants fId s).blocks.functions.cells =
      s.blocks.functions.cells.set fId (.named (some b)) := by
    simp only [storeName, halloc]
    rfl
  refine ⟨old.owned ++ lost, hs.count, ?_, hs.relocations, fun i f hi => ?_, ?_⟩
  · rwa [List.append_assoc]
  · rw [hcells, List.getElem?_set] at hi
    by_cases hif : fId = i
    · subst hif
      obtain ⟨hlt, -⟩ := List.getElem?_eq_some_iff.mp hget
      simp only [if_true, hlt] at hi
      obtain rfl := Option.some.inj hi
      simp
    · rw [if_neg hif] at hi
      rw [hs.slots i f hi, List.mem_cons, not_or]
      exact ⟨fun h => ⟨Ne.symm hif, h⟩, And.right⟩
  · rw [List.append_eq_nil_iff, hs.slots fId old hget, hs.once, List.nodup_cons]

/-- The loop over the records names the slots of the ids that are stored. -/
theorem functionIdRecords_naming {n : Nat} (k : Nat) (ptr : Bytes) {seen : List Nat}
    {lost : List BufferId} {s : Loading ModuleBlocks} (hs : Naming n bs seen lost s) :
    Outcome (fun r => ∃ lost', Naming n bs ((storedIds n k ptr).reverse ++ seen) lost' r.2)
      (fun e => ∃ lost', Naming n bs ((storedIds n k ptr).reverse ++ seen) lost' e.2)
      (forRecords (functionIdRecord grants) k ptr s) := by
  induction k generalizing ptr seen lost s with
  | zero => exact ⟨lost, hs⟩
  | succ k ih =>
    simp only [forRecords]
    rcases functionIdRecord_cases grants ptr s with ⟨e, hrun, hids⟩ |
      ⟨fId, ptr', hf, hrun, hids⟩
    · rw [hrun]
      rw [hs.count] at hids
      rw [hids k]
      exact ⟨lost, hs⟩
    · rw [hrun]
      rw [hs.count] at hf hids
      obtain ⟨lost', hs'⟩ := hs.store hg hf
      rw [hids k, List.reverse_cons, List.append_assoc]
      exact ih ptr' hs'

/-- From `s` on nothing more is left behind exactly when `clean` holds. -/
def Spends (bs : List BufferId) (s : Loading ModuleBlocks) (clean : Prop)
    (s' : Loading ModuleBlocks) : Prop :=
  ∃ lost, ModuleSound (lost ++ bs) s' ∧
    (lost ++ s'.blocks.kept = [] ↔ s.blocks.kept = [] ∧ clean)

omit hg in
theorem ModuleBlocks.kept_of_ne {m : ModuleBlocks} (h : m.nbFunctions ≠ 0) : m.kept = [] :=
  if_neg h

omit hg in
/-- A module whose arrays are there owns something. -/
theorem ModuleBlocks.owned_ne_nil {m : ModuleBlocks} (h : m.relocations ≠ none) : m.owned ≠ [] := by
  intro hnil
  simp only [ModuleBlocks.owned, List.append_eq_nil_iff] at hnil
  cases hr : m.relocations with
  | none => exact h hr
  | some r =>
    rw [hr] at hnil
    cases hnil.2.2

theorem loadSectionFunctionId_spends {fct : Bytes} {n : Nat} {s : Loading ModuleBlocks}
    (hs : ModuleSound bs s) (hzero : s.blocks.nbFunctions = 0) (hn : readWord fct = .ok n) :
    Outcome (Spends bs s (n ≠ 0 ∧ (storedIds n n (fct.drop 4)).Nodup))
      (fun e => Spends bs s (n ≠ 0 ∧ (storedIds n n (fct.drop 4)).Nodup) e.2)
      (loadSectionFunctionId grants fct s) := by
  obtain ⟨s', g, r, f, halloc, hblocks⟩ := allocateFunctions_granted hg n s
  have hsound : ModuleSound (s.blocks.owned ++ bs) s' := by
    rcases allocateFunctions_sound grants n hs hzero with
      ⟨s₁, -, -, -, halloc₁, -, hsound⟩ | ⟨s₁, halloc₁, -⟩
    · obtain ⟨-, rfl⟩ := Prod.mk.inj (halloc.symm.trans halloc₁)
      exact hsound
    · cases (Prod.mk.inj (halloc.symm.trans halloc₁)).1
  have hstart : Naming n (s.blocks.owned ++ bs) [] [] s' := by
    refine ⟨by rw [hblocks], hsound, by simp [hblocks], fun i fd hfd => ?_, by simp⟩
    rw [hblocks] at hfd
    have hblank := List.eq_of_mem_replicate (List.mem_of_getElem? hfd)
    simp [hblank]
  have hkept : s.blocks.kept = s.blocks.owned := if_pos hzero
  have hend (s'' : Loading ModuleBlocks) (hnaming : ∃ lost, Naming n (s.blocks.owned ++ bs)
      ((storedIds n n (fct.drop 4)).reverse ++ []) lost s'') :
      Spends bs s (n ≠ 0 ∧ (storedIds n n (fct.drop 4)).Nodup) s'' := by
    obtain ⟨lost, hs''⟩ := hnaming
    refine ⟨lost ++ s.blocks.owned, by simpa using hs''.sound, ?_⟩
    have honce : lost = [] ↔ (storedIds n n (fct.drop 4)).Nodup := by
      rw [hs''.once, List.append_nil, List.nodup_reverse]
    by_cases hpos : n = 0
    · have howned := ModuleBlocks.owned_ne_nil hs''.relocations
      have hkept'' : s''.blocks.kept = s''.blocks.owned := if_pos (hs''.count.trans hpos)
      simp [hkept'', howned, hpos]
    · have hkept'' : s''.blocks.kept = [] :=
        ModuleBlocks.kept_of_ne (by rw [hs''.count]; exact hpos)
      rw [hkept'', List.append_nil, List.append_eq_nil_iff, honce, hkept]
      exact ⟨fun h => ⟨h.2, hpos, h.1⟩, fun h => ⟨h.2.2, h.1⟩⟩
  rw [loadSectionFunctionId_of_allocated hzero hn halloc]
  exact ((functionIdRecords_naming hg n (fct.drop 4) hstart).mono
    (fun r hr => hend r.2 hr) (fun e he => hend e.2 he)).bind fun r hr => hr

omit hg in
/-- Before the function section, transitions are refused. -/
theorem transitions_refused (grants : Nat → Bool) {s : Loading ModuleBlocks}
    (hzero : s.blocks.nbFunctions = 0) (trans : Bytes) :
    (∃ e, loadSectionFunctionTransition grants trans s = .error (e, s)) ∧
      ∃ e, loadSectionBlockTransition grants trans s = .error (e, s) := by
  unfold loadSectionFunctionTransition loadSectionBlockTransition
  rw [if_pos hzero, if_pos hzero]
  constructor
  · split
    · exact ⟨_, rfl⟩
    · exact ⟨_, rfl⟩
  · split
    · exact ⟨_, rfl⟩
    · exact ⟨_, rfl⟩

omit hg in
theorem spends_self {s : Loading ModuleBlocks} {clean : Prop} (hs : ModuleSound bs s)
    (hclean : clean) : Spends bs s clean s :=
  ⟨[], hs, by simp [hclean]⟩

omit hg in
/-- With functions there, what the cleanup passes over is nothing. -/
theorem spends_counted {n : Nat} {s s' : Loading ModuleBlocks} {clean : Prop}
    (hn : s.blocks.nbFunctions = n) (hpos : n ≠ 0) (hs : ModuleCounted n bs s') (hclean : clean) :
    Spends bs s clean s' := by
  refine ⟨[], hs.2, ?_⟩
  have hkept : s.blocks.kept = [] := ModuleBlocks.kept_of_ne (by rw [hn]; exact hpos)
  have hkept' : s'.blocks.kept = [] := ModuleBlocks.kept_of_ne (by rw [hs.1]; exact hpos)
  simp [hkept, hkept', hclean]

/-- What one section leaves behind. -/
theorem loadSection_spends (pkt : LoadingPacket) {s : Loading ModuleBlocks}
    (hs : ModuleSound bs s) :
    Outcome (Spends bs s (¬ ∃ n, PacketLeak s.blocks.nbFunctions pkt n))
      (fun e => Spends bs s (¬ ∃ n, PacketLeak s.blocks.nbFunctions pkt n) e.2)
      (loadSection grants pkt s) := by
  have hother (h : pkt.event ≠ .sectionFunctionId) :
      ¬ ∃ n, PacketLeak s.blocks.nbFunctions pkt n := fun ⟨n, hleak⟩ => h hleak.isFunctionId
  unfold loadSection
  split
  · rename_i hevent
    by_cases hzero : s.blocks.nbFunctions = 0
    · cases hn : readWord pkt.value with
      | error e =>
        have hclean : ¬ ∃ n, PacketLeak s.blocks.nbFunctions pkt n := by
          intro ⟨n, hleak⟩
          exact nomatch hn.symm.trans hleak.announced
        unfold loadSectionFunctionId
        rw [if_neg (not_not.mpr hzero), hn]
        exact spends_self hs hclean
      | ok n =>
        have hclean : n ≠ 0 ∧ (storedIds n n (pkt.value.drop 4)).Nodup ↔
            ¬ ∃ n, PacketLeak s.blocks.nbFunctions pkt n := by
          constructor
          · intro ⟨hpos, hnodup⟩ ⟨k, hleak⟩
            obtain rfl := Except.ok.inj (hn.symm.trans hleak.announced)
            exact hleak.leaks.elim hpos fun h => h hnodup
          · intro hno
            refine ⟨fun h => hno ⟨n, hevent, hzero, hn, .inl h⟩, ?_⟩
            exact not_not.mp fun h => hno ⟨n, hevent, hzero, hn, .inr h⟩
        rw [← hclean]
        exact loadSectionFunctionId_spends hg hs hzero hn
    · have hclean : ¬ ∃ n, PacketLeak s.blocks.nbFunctions pkt n :=
        fun ⟨n, hleak⟩ => hzero hleak.first
      unfold loadSectionFunctionId
      rw [if_pos hzero]
      exact spends_self hs hclean
  · rename_i hevent
    have hclean := hother (by rw [hevent]; nofun)
    by_cases hzero : s.blocks.nbFunctions = 0
    · obtain ⟨e, hrun⟩ := (transitions_refused grants hzero pkt.value).1
      rw [hrun]
      exact spends_self hs hclean
    · exact (loadSectionFunctionTransition_outcome grants ⟨rfl, hs⟩).mono
        (fun s' h => spends_counted rfl hzero h hclean)
        fun e h => spends_counted rfl hzero h hclean
  · rename_i hevent
    have hclean := hother (by rw [hevent]; nofun)
    by_cases hzero : s.blocks.nbFunctions = 0
    · obtain ⟨e, hrun⟩ := (transitions_refused grants hzero pkt.value).2
      rw [hrun]
      exact spends_self hs hclean
    · refine (loadSectionBlockTransition_outcome grants ⟨rfl, hs⟩).mono
        (fun s' h => spends_counted rfl hzero h hclean) fun e h => ?_
      rcases h with hcounted | hunfit
      · exact spends_counted rfl hzero hcounted hclean
      · obtain ⟨k, hk⟩ := hunfit.refusal.refused
        rw [hg k] at hk
        cases hk
  · rename_i hevent
    have hclean := hother (by rw [hevent]; nofun)
    refine loadSectionBlockIpd_outcome.mono (fun s' h => ?_) fun e h => ?_
    · rw [h]
      exact spends_self hs hclean
    · rw [h]
      exact spends_self hs hclean
  · rename_i hevent _ _ _
    exact spends_self hs (hother hevent)

omit hg in
theorem Spends.trans {s s₁ s₂ : Loading ModuleBlocks} {P Q : Prop} (h₁ : Spends bs s P s₁)
    (h₂ : ∀ bs', ModuleSound bs' s₁ → Spends bs' s₁ Q s₂) : Spends bs s (P ∧ Q) s₂ := by
  obtain ⟨lost₁, hs₁, hiff₁⟩ := h₁
  obtain ⟨lost₂, hs₂, hiff₂⟩ := h₂ _ hs₁
  refine ⟨lost₂ ++ lost₁, by rwa [List.append_assoc], ?_⟩
  simp only [List.append_eq_nil_iff] at hiff₁ hiff₂ ⊢
  tauto

omit hg in
theorem not_sectionLeak_nil {md : ModuleData} : ¬ SectionLeak md [] := by
  intro h
  cases h

omit hg in
theorem not_sectionLeak_none {md : ModuleData} {rest : List (Option LoadingPacket)} :
    ¬ SectionLeak md (none :: rest) := by
  intro h
  cases h

/-- What the sections of a module leave behind, whatever ends them. -/
theorem loadSections_spends {s : Loading ModuleBlocks} {md : ModuleData}
    (pkts : List (Option LoadingPacket)) (hs : ModuleSound bs s)
    (hshape : s.blocks.shape = moduleShape md) :
    Spends bs s (¬ SectionLeak md pkts) (loadSections grants s pkts).2 := by
  induction pkts generalizing s md bs with
  | nil => exact spends_self hs not_sectionLeak_nil
  | cons pkt? rest ih =>
    cases pkt? with
    | none => exact spends_self hs not_sectionLeak_none
    | some pkt =>
      have hcount : s.blocks.nbFunctions = md.nbFunctions :=
        congrArg ModuleShape.nbFunctions hshape
      simp only [loadSections]
      by_cases hend : pkt.event = .moduleEnd
      · rw [if_pos hend]
        refine spends_self hs fun hleak => ?_
        cases hleak with
        | here leak =>
          have hevent := hend.symm.trans leak.isFunctionId
          cases hevent
        | next isSection _ _ => exact isSection hend
      · rw [if_neg hend]
        have hone := loadSection_spends hg pkt hs
        have hagree := loadSection_agree hg pkt hshape
        rw [hcount] at hone
        cases hrun : loadSection grants pkt s with
        | error e =>
          rw [hrun] at hone hagree
          cases hrun' : Monitor.loadSection pkt md with
          | ok md' =>
            rw [hrun'] at hagree
            exact hagree.elim
          | error e' =>
            have hiff : SectionLeak md (some pkt :: rest) ↔
                ∃ n, PacketLeak md.nbFunctions pkt n := by
              constructor
              · intro hleak
                cases hleak with
                | here leak => exact ⟨_, leak⟩
                | next _ accepted _ =>
                  have hcontra := hrun'.symm.trans accepted
                  cases hcontra
              · rintro ⟨n, hleak⟩
                exact .here hleak
            rw [hiff]
            exact hone
        | ok s' =>
          rw [hrun] at hone hagree
          cases hrun' : Monitor.loadSection pkt md with
          | error e' =>
            rw [hrun'] at hagree
            exact hagree.elim
          | ok md' =>
            rw [hrun'] at hagree
            have hiff : (¬ SectionLeak md (some pkt :: rest)) ↔
                (¬ ∃ n, PacketLeak md.nbFunctions pkt n) ∧ ¬ SectionLeak md' rest := by
              rw [← not_or]
              apply not_congr
              constructor
              · intro hleak
                cases hleak with
                | here leak => exact .inl ⟨_, leak⟩
                | next _ accepted later =>
                  obtain rfl := Except.ok.inj (hrun'.symm.trans accepted)
                  exact .inr later
              · rintro (⟨n, hleak⟩ | hlater)
                · exact .here hleak
                · exact .next hend hrun' hlater
            rw [hiff]
            exact hone.trans fun bs' hs' => ih hs' hagree

/-! ### The whole load -/

omit hg in
/-- Loads that end alike load alike. -/
theorem SameEnd.loaded_iff {α : Type} {R : α → Prop} {x : ModuleLoad α} {y : ModuleLoad Unit}
    (h : SameEnd R x y) (rest : List (Option LoadingPacket)) :
    y = .loaded () rest ↔ ∃ a, x = .loaded a rest := by
  cases x with
  | loaded a restA =>
    cases y with
    | loaded u restB =>
      obtain ⟨rfl, -⟩ := h
      constructor
      · intro hy
        exact ⟨a, by rw [(ModuleLoad.loaded.inj hy).2]⟩
      · intro ⟨a', hx⟩
        rw [(ModuleLoad.loaded.inj hx).2]
    | terminated _ | failed _ | waiting => exact h.elim
  | terminated _ | failed _ | waiting =>
    cases y with
    | loaded u restB => exact h.elim
    | terminated _ | failed _ | waiting => exact iff_of_false nofun nofun

omit hg in
theorem SameEnd.failed_iff {α : Type} {R : α → Prop} {x : ModuleLoad α} {y : ModuleLoad Unit}
    (h : SameEnd R x y) {e : LoadError} : y = .failed e ↔ x = .failed e := by
  cases x <;> cases y <;> simp_all [SameEnd]

/-- The same for the tables of all modules. -/
def Remains (bs : List BufferId) (s : Loading MonitorBlocks) (clean : Prop)
    (s' : Loading MonitorBlocks) : Prop :=
  ∃ lost, MonitorSound (lost ++ bs) s' ∧
    (lost ++ s'.blocks.kept = [] ↔ s.blocks.kept = [] ∧ clean)

omit hg in
theorem remains_self {s : Loading MonitorBlocks} {clean : Prop} (hs : MonitorSound bs s)
    (hclean : clean) : Remains bs s clean s :=
  ⟨[], hs, by simp [hclean]⟩

omit hg in
theorem Remains.trans {s s₁ s₂ : Loading MonitorBlocks} {P Q : Prop} (h₁ : Remains bs s P s₁)
    (h₂ : ∀ bs', MonitorSound bs' s₁ → Remains bs' s₁ Q s₂) : Remains bs s (P ∧ Q) s₂ := by
  obtain ⟨lost₁, hs₁, hiff₁⟩ := h₁
  obtain ⟨lost₂, hs₂, hiff₂⟩ := h₂ _ hs₁
  refine ⟨lost₂ ++ lost₁, by rwa [List.append_assoc], ?_⟩
  simp only [List.append_eq_nil_iff] at hiff₁ hiff₂ ⊢
  tauto

omit hg in
/-- No module is begun, so none is left behind or loaded. -/
theorem nothing_begun (sent : Bool) (pkts : List (Option LoadingPacket))
    (hfirst : ∀ pkt rest, pkts = some pkt :: rest → pkt.event = .moduleBegin → sent = false) :
    ¬ ModuleLeak sent pkts ∧ ∀ rest, ¬ ModuleLoads sent pkts rest := by
  constructor
  · rintro ⟨pkt, rest, hpkts, hbegin, hsent, -⟩
    simp [hfirst pkt rest hpkts hbegin] at hsent
  · rintro rest ⟨pkt, sections, -, hpkts, hbegin, hsent, -⟩
    simp [hfirst pkt sections hpkts hbegin] at hsent

theorem monitorLoadModule_remains (sent : Bool) {s : Loading MonitorBlocks}
    (pkts : List (Option LoadingPacket)) (hs : MonitorSound bs s) :
    Remains bs s (¬ ModuleLeak sent pkts) (monitorLoadModule grants sent s pkts).2 ∧
      ∀ rest, (monitorLoadModule grants sent s pkts).1 = .loaded () rest ↔
        ModuleLoads sent pkts rest := by
  cases pkts with
  | nil =>
    obtain ⟨hclean, hno⟩ := nothing_begun sent [] (by simp)
    simp only [monitorLoadModule]
    exact ⟨remains_self hs hclean, fun rest => iff_of_false (by simp) (hno rest)⟩
  | cons pkt? sections =>
    cases pkt? with
    | none =>
      obtain ⟨hclean, hno⟩ := nothing_begun sent (none :: sections) (by simp)
      simp only [monitorLoadModule]
      exact ⟨remains_self hs hclean, fun rest => iff_of_false (by simp) (hno rest)⟩
    | some pkt =>
      by_cases hbegin : pkt.event = .moduleBegin
      · obtain ⟨p, heap, hbegun⟩ := beginModule_granted hg s
        have hkept (m : ModuleBlocks) : MonitorBlocks.kept
            ⟨s.blocks.nbModules + 1, .of (some p) (s.blocks.modules.cells ++ [m])⟩ =
              s.blocks.kept ++ m.kept := by
          simp [MonitorBlocks.kept]
        rcases beginModule_sound grants hs with hnew | ⟨hnull, -⟩
        · rw [hbegun] at hnew
          simp only [monitorLoadModule, hbegin, hbegun, if_neg hnew.pointer]
          cases sent with
          | false =>
            obtain ⟨hclean, hno⟩ := nothing_begun false (some pkt :: sections) (by simp)
            simp only [Bool.not_false, if_true]
            refine ⟨⟨[], hnew.sound, ?_⟩, fun rest => iff_of_false (by simp) (hno rest)⟩
            show [] ++ MonitorBlocks.kept
              ⟨s.blocks.nbModules + 1, .of (some p) (s.blocks.modules.cells ++ [.empty])⟩ = [] ↔ _
            rw [hkept]
            simp [hclean, ModuleBlocks.kept]
          | true =>
            obtain ⟨frame, hmodule, hstore⟩ := hnew.focus
            obtain ⟨lost, hsound, hiff⟩ := loadSections_spends hg sections hmodule
              (show ModuleBlocks.empty.shape = moduleShape ModuleData.empty from rfl)
            have hagree := loadSections_agree hg (s := ⟨.empty, heap⟩) sections
              (show ModuleBlocks.empty.shape = moduleShape ModuleData.empty from rfl)
            simp only [Bool.not_true, Bool.false_eq_true, if_false]
            refine ⟨⟨lost, hstore _ lost hsound, ?_⟩, fun rest => ?_⟩
            · have hleak :
                  ModuleLeak true (some pkt :: sections) ↔ SectionLeak .empty sections := by
                constructor
                · rintro ⟨pkt', rest, hpkts, -, -, hleak⟩
                  obtain ⟨-, rfl⟩ := List.cons.inj hpkts
                  exact hleak
                · intro hleak
                  exact ⟨pkt, sections, rfl, hbegin, rfl, hleak⟩
              rw [storeLast_begun hs.intact.modules, hkept, hleak]
              have hempty : ModuleBlocks.empty.kept = [] := rfl
              simp only [List.append_eq_nil_iff, hempty, true_and] at hiff ⊢
              tauto
            · have hloads : ModuleLoads true (some pkt :: sections) rest ↔
                  ∃ md, Monitor.loadSections .empty sections = .loaded md rest := by
                constructor
                · rintro ⟨pkt', rest', md, hpkts, -, -, hload⟩
                  obtain ⟨-, rfl⟩ := List.cons.inj hpkts
                  exact ⟨md, hload⟩
                · rintro ⟨md, hload⟩
                  exact ⟨pkt, sections, md, rfl, hbegin, rfl, hload⟩
              rw [hloads]
              exact hagree.loaded_iff rest
        · rw [hbegun] at hnull
          cases hnull
      · have hfirst : ∀ pkt' rest, some pkt :: sections = some pkt' :: rest →
            pkt'.event = .moduleBegin → sent = false := by
          intro pkt' rest hpkts hbegin'
          obtain ⟨hpkt, -⟩ := List.cons.inj hpkts
          obtain rfl := Option.some.inj hpkt
          exact absurd hbegin' hbegin
        obtain ⟨hclean, hno⟩ := nothing_begun sent (some pkt :: sections) hfirst
        simp only [monitorLoadModule]
        split
        · rename_i hevent
          exact absurd hevent hbegin
        · exact ⟨remains_self hs hclean, fun rest => iff_of_false (by simp) (hno rest)⟩
        · exact ⟨remains_self hs hclean, fun rest => iff_of_false (by simp) (hno rest)⟩

/-- The loader of the allocations reads past the end of a packet where the one of the
contents does. -/
theorem monitorLoadModule_overread_iff (sent : Bool) (s : Loading MonitorBlocks)
    (pkts : List (Option LoadingPacket)) :
    (monitorLoadModule grants sent s pkts).1 = .failed .overread ↔ ModuleOverreads sent pkts := by
  cases pkts with
  | nil => exact iff_of_false (by simp [monitorLoadModule]) (by simp [ModuleOverreads])
  | cons pkt? sections =>
    cases pkt? with
    | none => exact iff_of_false (by simp [monitorLoadModule]) (by simp [ModuleOverreads])
    | some pkt =>
      by_cases hbegin : pkt.event = .moduleBegin
      · obtain ⟨p, heap, hbegun⟩ := beginModule_granted hg s
        have hagree := loadSections_agree hg (s := ⟨.empty, heap⟩) sections
          (show ModuleBlocks.empty.shape = moduleShape ModuleData.empty from rfl)
        have hiff : ModuleOverreads sent (some pkt :: sections) ↔
            sent = true ∧ Monitor.loadSections .empty sections = .failed .overread := by
          constructor
          · rintro ⟨pkt', sections', hpkts, -, hsent, hload⟩
            obtain ⟨-, rfl⟩ := List.cons.inj hpkts
            exact ⟨hsent, hload⟩
          · rintro ⟨hsent, hload⟩
            exact ⟨pkt, sections, rfl, hbegin, hsent, hload⟩
        rw [hiff, ← hagree.failed_iff]
        cases sent <;> simp [monitorLoadModule, hbegin, hbegun]
      · refine iff_of_false (fun hload => ?_) ?_
        · simp only [monitorLoadModule] at hload
          split at hload
          · exact absurd ‹_› hbegin
          · cases hload
          · cases hload
        · rintro ⟨pkt', sections', hpkts, hbegin', -⟩
          obtain ⟨hpkt, -⟩ := List.cons.inj hpkts
          obtain rfl := Option.some.inj hpkt
          exact hbegin hbegin'

end Granted

theorem beginModule_nbModules (grants : Nat → Bool) (s : Loading MonitorBlocks) :
    (beginModule grants s).blocks.nbModules = s.blocks.nbModules + 1 := rfl

theorem monitorLoadModule_loaded_nbModules {grants : Nat → Bool} {sent : Bool}
    {s s' : Loading MonitorBlocks} {pkts rest : List (Option LoadingPacket)}
    (h : monitorLoadModule grants sent s pkts = (.loaded () rest, s')) :
    s'.blocks.nbModules = s.blocks.nbModules + 1 := by
  cases pkts with
  | nil => cases h
  | cons pkt? pkts =>
    cases pkt? with
    | none => cases h
    | some pkt =>
      simp only [monitorLoadModule] at h
      split at h
      · split at h
        · cases h
        · split at h
          · cases h
          · obtain ⟨-, rfl⟩ := Prod.mk.inj h
            exact beginModule_nbModules grants s
      · cases h
      · cases h

/-- The loading loop ends with the module that is not loaded. -/
theorem loadLoop_stop {env : Surroundings} {fuel : Nat} {s s' sEnd : Loading MonitorBlocks}
    {pkts : List (Option LoadingPacket)} {outcome : ModuleLoad Unit}
    (hrun : monitorLoadModule env.grants (env.sent s.blocks.nbModules) s pkts = (outcome, s'))
    (hstop : ∀ rest, outcome ≠ .loaded () rest) (hload : loadLoop env (fuel + 1) s pkts = some sEnd) :
    s' = sEnd := by
  simp only [loadLoop, hrun] at hload
  split at hload
  · rename_i u rest s₁ heq
    exact absurd (Prod.mk.inj heq).1 (hstop rest)
  · cases hload
  · rename_i heq
    obtain ⟨-, rfl⟩ := Prod.mk.inj heq
    exact Option.some.inj hload

/-- What a whole load leaves behind. -/
theorem loadLoop_remains (env : Surroundings) (hg : ∀ k, env.grants k = true) (fuel : Nat)
    {bs : List BufferId} {s sEnd : Loading MonitorBlocks} (pkts : List (Option LoadingPacket))
    (hfuel : pkts.length < fuel) (hs : MonitorSound bs s)
    (hrunAll : loadLoop env fuel s pkts = some sEnd) :
    Remains bs s (¬ LoadLeak env s.blocks.nbModules pkts) sEnd := by
  induction fuel generalizing bs s pkts with
  | zero => omega
  | succ fuel ih =>
    obtain ⟨hmodule, hloads⟩ := monitorLoadModule_remains hg (env.sent s.blocks.nbModules) pkts hs
    rcases hrun : monitorLoadModule env.grants (env.sent s.blocks.nbModules) s pkts with
      ⟨outcome, s'⟩
    rw [hrun] at hmodule hloads
    rw [loadLeak_iff]
    cases outcome with
    | loaded u rest =>
      have hload : ModuleLoads (env.sent s.blocks.nbModules) pkts rest := (hloads rest).mp rfl
      by_cases hproceeds : env.proceeds s.blocks.nbModules = true
      · simp only [loadLoop, hrun, hproceeds, if_true] at hrunAll
        have hshort := hload.length_lt
        rw [hload.or_later_iff hproceeds, ← monitorLoadModule_loaded_nbModules hrun, not_or]
        exact hmodule.trans fun bs' hs' => ih rest (by omega) hs' hrunAll
      · simp only [loadLoop, hrun, hproceeds, Bool.false_eq_true, if_false,
          Option.some.injEq] at hrunAll
        subst hrunAll
        rw [or_no_later_iff fun _ _ => hproceeds]
        exact hmodule
    | terminated _ | failed _ | waiting =>
      have hno : ∀ rest, ¬ ModuleLoads (env.sent s.blocks.nbModules) pkts rest := by
        simpa using hloads
      obtain rfl := loadLoop_stop hrun (by simp) hrunAll
      rw [or_no_later_iff fun rest h => absurd h (hno rest)]
      exact hmodule

/-- While memory lasts, a load has no result exactly when it gets to a packet that
announces more than it holds. -/
theorem loadLoop_eq_none_iff (env : Surroundings) (hg : ∀ k, env.grants k = true) (fuel : Nat)
    {bs : List BufferId} {s : Loading MonitorBlocks} (pkts : List (Option LoadingPacket))
    (hfuel : pkts.length < fuel) (hs : MonitorSound bs s) :
    loadLoop env fuel s pkts = none ↔ LoadOverreads env s.blocks.nbModules pkts := by
  induction fuel generalizing bs s pkts with
  | zero => omega
  | succ fuel ih =>
    obtain ⟨hmodule, hloads⟩ := monitorLoadModule_remains hg (env.sent s.blocks.nbModules) pkts hs
    have hover := monitorLoadModule_overread_iff hg (env.sent s.blocks.nbModules) s pkts
    simp only [loadLoop]
    rcases hrun : monitorLoadModule env.grants (env.sent s.blocks.nbModules) s pkts with
      ⟨outcome, s'⟩
    rw [hrun] at hmodule hloads hover
    rw [loadOverreads_iff, ← hover]
    cases outcome with
    | loaded u rest =>
      have hload : ModuleLoads (env.sent s.blocks.nbModules) pkts rest := (hloads rest).mp rfl
      by_cases hproceeds : env.proceeds s.blocks.nbModules = true
      · obtain ⟨lost, hs', -⟩ := hmodule
        have hshort := hload.length_lt
        rw [hload.or_later_iff hproceeds, ← monitorLoadModule_loaded_nbModules hrun]
        simp only [hproceeds, if_true]
        rw [ih rest (by omega) hs']
        simp
      · rw [or_no_later_iff fun _ _ => hproceeds]
        simp [hproceeds]
    | terminated _ | failed _ | waiting =>
      have hno : ∀ rest, ¬ ModuleLoads (env.sent s.blocks.nbModules) pkts rest := by
        simpa using hloads
      rw [or_no_later_iff fun rest h => absurd h (hno rest)]
      split <;> simp_all

/-- From tables that held nothing back, the cleanup settles the heap exactly when
nothing was left behind since. -/
theorem Remains.settled_iff {s s' : Loading MonitorBlocks} {clean : Prop}
    (h : Remains [] s clean s') (hkept : s.blocks.kept = []) :
    ∃ h, monitorDataFree s' = some h ∧ (h.ledger.Settled ↔ clean) := by
  obtain ⟨lost, hsound, hiff⟩ := h
  rw [List.append_nil] at hsound
  obtain ⟨h, hfree, howns⟩ := monitorDataFree_owns hsound.intact hsound.tidy.owns
  refine ⟨h, hfree, ?_⟩
  rw [(howns.perm List.perm_append_comm).settled_iff, hiff]
  simp [hkept]

theorem start_sound : MonitorSound [] ⟨⟨0, .null⟩, .fresh⟩ :=
  ⟨⟨rfl, fun _ => rfl, nofun⟩, Ledger.fresh_owns, nofun⟩

theorem cleanup_settles_of_holding (env : Surroundings) (hg : ∀ k, env.grants k = true)
    (pkts : List (Option LoadingPacket)) (hpkts : ¬ LoadOverreads env 0 pkts) :
    ∃ s h, monitorLoad env pkts = some s ∧ monitorDataFree s = some h ∧
      (h.ledger.Settled ↔ ¬ LoadLeak env 0 pkts) := by
  have hnone := loadLoop_eq_none_iff env hg (pkts.length + 1) pkts (Nat.lt_succ_self _) start_sound
  obtain ⟨s, hload⟩ := Option.ne_none_iff_exists'.mp (fun h => hpkts (hnone.mp h))
  have hremains := loadLoop_remains env hg (pkts.length + 1) pkts (Nat.lt_succ_self _) start_sound
    hload
  obtain ⟨h, hfree, hiff⟩ := hremains.settled_iff rfl
  exact ⟨s, h, hload, hfree, hiff⟩

/-- Two records with the id 0. -/
def repeatedId : List (Option LoadingPacket) :=
  [some ⟨.moduleBegin, []⟩,
    some ⟨.sectionFunctionId, le32 2 ++ (le32 0 ++ le32 1 ++ [97, 0]) ++
      (le32 0 ++ le32 1 ++ [98, 0])⟩,
    some ⟨.moduleEnd, []⟩, some ⟨.terminated, []⟩]

end Picon.Loader.Tables
