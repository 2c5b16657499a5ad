import JayFrontEnd.Program.Compile
import JayFrontEnd.Proofs.Analysis.Program
import JayFrontEnd.Proofs.Program.ModuleTable
import JayFrontEnd.Proofs.Program.Phases
import JayFrontEnd.Proofs.Program.RemoteLink

/-!
# Compiled programs

Each module of a compiled program has a history: the analysis of its tree, then linking within the
module, then linking to the others. Linking changes nothing but statuses, so what a module
declares when it is looked up by others is what its analysis has found. In the end every use, of a
name of the module or of another one, is resolved to a scope that declares it.
-/

namespace JayFrontEnd

open ScopeTree

/-! ## Linking the modules of a table -/

namespace ModuleTable

variable {t u : ModuleTable}

/-- Of what is found for all modules, applies what is found for the module of a name. -/
def applyNamed (outcomes : List (String × List RemoteResolution)) (name : String)
    (u : ScopeTree) : ScopeTree :=
  outcomes.foldl (fun u o => if name = o.1 then u.applyRemote o.2 else u) u

theorem modules_foldl_modifyScopes (outcomes : List (String × List RemoteResolution))
    (t : ModuleTable) :
    (outcomes.foldl (fun t o => t.modifyScopes o.1 (·.applyRemote o.2)) t).modules =
      t.modules.map fun m => m.mapScopes (applyNamed outcomes m.name) := by
  induction outcomes generalizing t with
  | nil => exact (List.map_id _).symm
  | cons o outcomes ih =>
    rw [List.foldl_cons, ih, modules_modifyScopes, List.map_map]
    refine List.map_congr_left fun m _ => ?_
    simp only [Function.comp_apply, Module.mapScopes, applyNamed, List.foldl_cons]
    by_cases h : m.name = o.1
    · simp only [h, if_true]
    · simp only [h, if_false]

theorem applyNamed_of_not_mem {outcomes : List (String × List RemoteResolution)} {name : String}
    (h : name ∉ outcomes.map (·.1)) (u : ScopeTree) : applyNamed outcomes name u = u := by
  induction outcomes with
  | nil => rfl
  | cons o outcomes ih =>
    obtain ⟨ho, h⟩ := not_or.1 (List.mem_cons.not.1 h)
    rw [applyNamed, List.foldl_cons, if_neg ho]
    exact ih h

theorem applyNamed_of_mem {outcomes : List (String × List RemoteResolution)}
    (hnodup : (outcomes.map (·.1)).Nodup) {o : String × List RemoteResolution} (ho : o ∈ outcomes)
    (u : ScopeTree) : applyNamed outcomes o.1 u = u.applyRemote o.2 := by
  induction outcomes with
  | nil => cases ho
  | cons p outcomes ih =>
    obtain ⟨hp, hnodup⟩ := List.nodup_cons.1 hnodup
    rw [applyNamed, List.foldl_cons]
    rcases List.mem_cons.1 ho with rfl | ho
    · rw [if_pos rfl]
      exact applyNamed_of_not_mem hp _
    · have hne : o.1 ≠ p.1 := fun h => hp (List.mem_map.2 ⟨o, ho, h⟩)
      rw [if_neg hne]
      exact ih hnodup ho

/-- What linking the modules of a table changes in one of them. -/
structure Links (t : ModuleTable) (m n : Module) : Prop where
  name : n.name = m.name
  source : n.source = m.source
  tree : n.tree = m.tree
  scopes : RemotelyLinked t m.scopes n.scopes

/-- Linking applies to each module what is found for it. -/
theorem modules_of_linkAll (h : t.linkAll = .ok u) :
    List.Forall₂ (fun m n => ∃ rs, m.scopes.linkRemote t = .ok rs ∧
      n = { m with scopes := m.scopes.applyRemote rs }) t.modules u.modules := by
  rw [t.linkAll_eq] at h
  obtain ⟨outcomes, hout, hu⟩ := Except.bind_eq_ok.1 h
  cases hu
  replace hout : List.Forall₂ (fun m o => o.1 = m.name ∧ m.scopes.linkRemote t = .ok o.2)
      t.modules outcomes := by
    refine (Except.mapM_eq_ok.1 hout).imp fun m o ho => ?_
    rw [m.linkRemote_eq] at ho
    split at ho
    · next rs hrs => cases ho; exact ⟨rfl, hrs⟩
    · cases ho
  have hnames : outcomes.map (·.1) = t.names := by
    rw [← List.forall₂_eq_eq_eq, names, List.forall₂_map_left_iff, List.forall₂_map_right_iff]
    exact (hout.imp fun _ _ h => h.1).flip
  show List.Forall₂ _ t.modules
    (outcomes.foldl (fun t o => t.modifyScopes o.1 (·.applyRemote o.2)) t).modules
  rw [modules_foldl_modifyScopes, List.forall₂_map_right_iff, List.forall₂_same]
  intro m hm
  obtain ⟨o, ho, hname, hrs⟩ := exists_of_mem_right hout.flip hm
  have happly := applyNamed_of_mem (hnames ▸ t.nodup_names) ho m.scopes
  exact ⟨o.2, hrs, by rw [← happly, hname]; rfl⟩

/-- Linking moves no module. -/
theorem index_of_linkAll (h : t.linkAll = .ok u) : u.index = t.index := by
  rw [t.linkAll_eq] at h
  obtain ⟨outcomes, -, hu⟩ := Except.bind_eq_ok.1 h
  cases hu
  exact List.foldlRecOn (motive := fun v : ModuleTable => v.index = t.index) _ _ rfl
    fun v hv o _ => (v.index_modifyScopes ..).trans hv

theorem links_of_linkAll (hwf : ∀ m ∈ t.modules, m.scopes.WellFormed)
    (h : t.linkAll = .ok u) : List.Forall₂ t.Links t.modules u.modules := by
  refine ((List.forall₂_and_left _ _).2 ⟨hwf, modules_of_linkAll h⟩).imp ?_
  rintro m n ⟨hm, rs, hrs, rfl⟩
  exact ⟨rfl, rfl, rfl, hm.remotelyLinked hrs⟩

/-- Linking changes nothing that other modules see. -/
theorem Exports.of_links (hl : List.Forall₂ t.Links t.modules u.modules) {module name : String}
    (h : t.Exports module name) : u.Exports module name := by
  obtain ⟨m, hm, hd⟩ := h
  obtain ⟨hmem, hname⟩ := get?_eq_some_iff.1 hm
  obtain ⟨n, hn, hmn⟩ := exists_of_mem_left hl hmem
  exact ⟨n, get?_eq_some_iff.2 ⟨hn, hmn.name.trans hname⟩,
    hmn.scopes.declarations.declared? _ _ ▸ hd⟩

end ModuleTable

/-! ## The history of a module -/

theorem wellFormed_of_run {name : String} {source : Source} {tree : Node} {a : Analyzer}
    (h : (Analyzer.ofModule name source).run tree = (.ok (), a)) : a.scopes.WellFormed := by
  have hwf := Analyzer.WellFormed.ofModule name source
  exact (hwf.follow ((Analyzer.run_eq_ok hwf).1 h)).wellFormed.scopes

/-- The analysis of a module and what linking has made of its scopes. -/
structure Module.History (table : ModuleTable) (m : Module) (a : Analyzer) (t : ScopeTree) :
    Prop where
  analyzed : (Analyzer.ofModule m.name m.source).run m.tree = (.ok (), a)
  locally : LocallyLinked a.scopes t
  remotely : RemotelyLinked table t m.scopes

namespace Module.History

variable {table : ModuleTable} {m : Module} {a : Analyzer} {t : ScopeTree}

theorem follow (h : m.History table a t) :
    (Analyzer.ofModule m.name m.source).follow m.tree.events = .ok a :=
  (Analyzer.run_eq_ok (.ofModule ..)).1 h.analyzed

theorem declarations (h : m.History table a t) : SameDeclarations a.scopes m.scopes :=
  h.locally.declarations.trans h.remotely.declarations

theorem wellFormed (h : m.History table a t) : m.scopes.WellFormed :=
  (wellFormed_of_run h.analyzed).of_sameDeclarations h.declarations

theorem resolved (h : m.History table a t) {s : ScopeId} {r : LocalRef}
    (hr : r ∈ m.scopes.localRefs s) : ∃ d, r.status = .resolved d ∧ m.scopes.Binds r.name s d := by
  rw [h.remotely.localRefs] at hr
  obtain ⟨d, hd, hb⟩ := h.locally.resolved hr
  exact ⟨d, hd, hb.of_sameDeclarations h.remotely.declarations⟩

end Module.History

variable {l : Locator} {config : CompileConfig} {table : ModuleTable}

/-- Every module of a compiled program has a history. -/
theorem exists_history (h : compile l config = .ok table) {m : Module} (hm : m ∈ table.modules) :
    ∃ a t, m.History table a t := by
  rw [compile_eq] at h
  obtain ⟨parsed, -, h⟩ := Except.bind_eq_ok.1 h
  obtain ⟨analyzed, hanalyzed, h⟩ := Except.bind_eq_ok.1 h
  obtain ⟨linked, hlinked, h⟩ := Except.bind_eq_ok.1 h
  have hlocal : ∀ n ∈ linked, ∃ a, (Analyzer.ofModule n.name n.source).run n.tree = (.ok (), a) ∧
      LocallyLinked a.scopes n.scopes := by
    intro n hn
    obtain ⟨k, hk, hkn⟩ := exists_of_mem_right (Except.mapM_eq_ok.1 hlinked) hn
    obtain ⟨p, -, hpk⟩ := exists_of_mem_right (Except.mapM_eq_ok.1 hanalyzed) hk
    rw [p.analyze_eq_run] at hpk
    split at hpk
    · next a ha =>
      cases hpk
      rw [Module.linkLocal_eq] at hkn
      split at hkn
      · next scopes hs =>
        cases hkn
        exact ⟨a, ha, (wellFormed_of_run ha).locallyLinked hs⟩
      · cases hkn
    · cases hpk
  have hwf : ∀ n ∈ (ModuleTable.ofList linked).modules, n.scopes.WellFormed := by
    intro n hn
    obtain ⟨a, ha, hl⟩ := hlocal n (ModuleTable.mem_of_mem_ofList hn)
    exact (wellFormed_of_run ha).of_sameDeclarations hl.declarations
  have hlinks := ModuleTable.links_of_linkAll hwf h
  obtain ⟨n, hn, hnm⟩ := exists_of_mem_right hlinks hm
  obtain ⟨a, ha, hl⟩ := hlocal n (ModuleTable.mem_of_mem_ofList hn)
  refine ⟨a, n.scopes, by rw [hnm.name, hnm.source, hnm.tree]; exact ha, hl, ?_⟩
  exact { hnm.scopes with
    resolved := fun hr => (hnm.scopes.resolved hr).imp_right (.of_links hlinks) }

theorem wellFormed_of_compile (h : compile l config = .ok table) {m : Module}
    (hm : m ∈ table.modules) : m.scopes.WellFormed := by
  obtain ⟨a, t, hist⟩ := exists_history h hm
  exact hist.wellFormed

/-- Once a program is compiled, every use of a name is resolved to the nearest scope that declares
it, and every use of another module's name to that module, which declares it in its own scope. -/
theorem compile_resolves (h : compile l config = .ok table) {m : Module} (hm : m ∈ table.modules)
    (s : ScopeId) :
    (∀ r ∈ m.scopes.localRefs s, ∃ d, r.status = .resolved d ∧ m.scopes.Binds r.name s d) ∧
      ∀ r ∈ m.scopes.remoteRefs s,
        r.status = .resolvedRemote r.module ∧ table.Exports r.module r.name := by
  obtain ⟨a, t, hist⟩ := exists_history h hm
  exact ⟨fun _ hr => hist.resolved hr, fun _ hr => hist.remotely.resolved hr⟩

/-- A module that imports itself, and calls its function in both ways. -/
def selfImport : Locator :=
  (({} : Buffers).addModule "m" "import \"m\"\nfunc f() \x7b\n  m.f()\n  f()\n\x7d\n").locator

theorem compile_resolves_selfImport :
    ∃ table m, compile selfImport { entryModule := "m" } = .ok table ∧ m ∈ table.modules ∧
      (∃ r ∈ m.scopes.localRefs 1, ∃ d, r.status = .resolved d ∧ m.scopes.Binds r.name 1 d) ∧
      ∃ r ∈ m.scopes.remoteRefs 1,
        r.status = .resolvedRemote r.module ∧ table.Exports r.module r.name := by
  have h : (do
      let table ← (compile selfImport { entryModule := "m" }).toOption
      let m ← table.modules.head?
      let r ← (m.scopes.localRefs 1).head?
      let q ← (m.scopes.remoteRefs 1).head?
      some (r.name, q.module, q.name)) = some ("f", "m", "f") := by decide +kernel
  simp only [Option.bind_eq_bind, Option.bind_eq_some_iff, Except.toOption_eq_some] at h
  obtain ⟨table, hc, m, hm, r, hr, q, hq, -⟩ := h
  have hm' := List.mem_of_head? hm
  have hres := compile_resolves hc hm' 1
  exact ⟨table, m, hc, hm', ⟨r, List.mem_of_head? hr, hres.1 r (List.mem_of_head? hr)⟩,
    q, List.mem_of_head? hq, hres.2 q (List.mem_of_head? hq)⟩

end JayFrontEnd
