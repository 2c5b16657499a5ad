import JayFrontEnd.Proofs.Program.Compile
import JayFrontEnd.Proofs.Program.ParseAll
import JayFrontEnd.Proofs.Scope.Order

/-!
# The outcome of a compilation

A program compiles if all that is discovered parses, each module can be analysed, each use of a name
is bound, and each use of another module's name is of one that a module of the program exports.
Otherwise the failure is the first: of the first phase that some module does not pass, in the first
such module in the order of discovery, at the first place there.
-/

namespace JayFrontEnd

open ScopeTree

/-! ## What the phases ask of a module -/

namespace ParsedModule

/-- The scopes of a module, as its analysis finds them. -/
def scopes (m : ParsedModule) : Except Fault ScopeTree :=
  match (Analyzer.ofModule m.name m.source).run m.tree with
  | (.ok (), a) => .ok a.scopes
  | (.error fault, _) => .error fault

/-- Every use of a name is bound. -/
def Closed (m : ParsedModule) : Prop :=
  ∀ t, m.scopes = .ok t → ∀ s, ∀ r ∈ t.localRefs s, ¬ t.Unbound s r

end ParsedModule

/-- One of the modules declares the name in its own scope. -/
def Exported (ms : List ParsedModule) (module name : String) : Prop :=
  ∃ m ∈ ms, m.name = module ∧ ∃ t, m.scopes = .ok t ∧ (t.declared? root name).isSome = true

/-- Every use of another module's name is of one that is exported. -/
def ParsedModule.Served (ms : List ParsedModule) (m : ParsedModule) : Prop :=
  ∀ t, m.scopes = .ok t → ∀ s, ∀ r ∈ t.remoteRefs s, Exported ms r.module r.name

/-- A program without faults. -/
structure Compiles (l : Locator) (config : CompileConfig) (ms : List ParsedModule) : Prop where
  discovers : l.Discovers config.entryModule ms
  complete : next? config.entryModule ms = none
  limit : ms.length ≤ config.maxModules
  analyzed : ∀ m ∈ ms, ∃ t, m.scopes = .ok t
  closed : ∀ m ∈ ms, m.Closed
  served : ∀ m ∈ ms, m.Served ms

def remoteFault (modules : List String) (r : RemoteRef) : Fault :=
  if r.module ∈ modules then .unresolvedRemoteSymbol r.module r.name r.position
  else .unknownModule r.module r.position

/-- The first failure of a compilation: the phase that some module does not pass, the first such
module, and what fails first in it. -/
inductive FirstFailure (l : Locator) (config : CompileConfig) : Phase → CompileFailure → Prop where
  /-- The modules before the one that is not loaded or does not parse are discovered. -/
  | parse {ms : List ParsedModule} {f : CompileFailure} : l.Discovers config.entryModule ms →
      ms.length ≤ config.maxModules →
      l.Ends config.entryModule config.maxModules ms (.error f) → FirstFailure l config .parse f
  | analyze {before after : List ParsedModule} {m : ParsedModule} {fault : Fault} :
      parseAll l config = .ok (before ++ m :: after) →
      (∀ n ∈ before, ∃ t, n.scopes = .ok t) → m.scopes = .error fault →
      FirstFailure l config .analyze ⟨m.name, .analyze, fault, some m.source⟩
  | linkLocal {before after : List ParsedModule} {m : ParsedModule} {t : ScopeTree} {s : ScopeId}
      {i : Nat} {r : LocalRef} : parseAll l config = .ok (before ++ m :: after) →
      (∀ n ∈ before ++ m :: after, ∃ t, n.scopes = .ok t) → (∀ n ∈ before, n.Closed) →
      m.scopes = .ok t → t.FirstUse t.localRefs t.Unbound s i r →
      FirstFailure l config .linkLocal
        ⟨m.name, .linkLocal, .unresolvedSymbol r.name r.position, some m.source⟩
  | linkRemote {ms before after : List ParsedModule} {m : ParsedModule} {t : ScopeTree}
      {s : ScopeId} {i : Nat} {r : RemoteRef} : parseAll l config = .ok ms →
      ms = before ++ m :: after → (∀ n ∈ ms, ∃ t, n.scopes = .ok t) → (∀ n ∈ ms, n.Closed) →
      (∀ n ∈ before, n.Served ms) → m.scopes = .ok t →
      t.FirstUse t.remoteRefs (fun _ r => ¬ Exported ms r.module r.name) s i r →
      FirstFailure l config .linkRemote
        ⟨m.name, .linkRemote, remoteFault (ms.map (·.name)) r, some m.source⟩

/-! ## Phase by phase -/

section Phases

variable {m : ParsedModule} {t : ScopeTree} {fault : Fault}

theorem ParsedModule.analyze_eq (m : ParsedModule) : m.analyze =
    match m.scopes with
    | .ok t => .ok ⟨m.name, m.source, m.tree, t⟩
    | .error fault => .error ⟨m.name, .analyze, fault, some m.source⟩ := by
  rw [m.analyze_eq_run]
  unfold ParsedModule.scopes
  rcases (Analyzer.ofModule m.name m.source).run m.tree with ⟨_ | _, a⟩ <;> rfl

theorem ParsedModule.wellFormed (h : m.scopes = .ok t) : t.WellFormed := by
  unfold ParsedModule.scopes at h
  split at h
  · next a ha =>
    cases h
    exact wellFormed_of_run ha
  · cases h

structure Analyzes (m : ParsedModule) (n : Module) : Prop where
  name : n.name = m.name
  source : n.source = m.source
  scopes : m.scopes = .ok n.scopes

theorem analyzes_of_analyze {n : Module} (h : m.analyze = .ok n) : Analyzes m n := by
  rw [m.analyze_eq] at h
  split at h
  · next t ht => cases h; exact ⟨rfl, rfl, ht⟩
  · cases h

theorem analyze_error {f : CompileFailure} (h : m.analyze = .error f) :
    ∃ fault, m.scopes = .error fault ∧ f = ⟨m.name, .analyze, fault, some m.source⟩ := by
  rw [m.analyze_eq] at h
  split at h
  · cases h
  · next fault hfault => cases h; exact ⟨fault, hfault, rfl⟩

/-- A module once it is analysed and linked within itself. -/
structure LinksLocally (m : ParsedModule) (n : Module) : Prop where
  name : n.name = m.name
  source : n.source = m.source
  scopes : ∃ t, m.scopes = .ok t ∧ LocallyLinked t n.scopes

theorem Analyzes.linkLocal_ok {k n : Module} (h : Analyzes m k) (hn : k.linkLocal = .ok n) :
    LinksLocally m n ∧ m.Closed := by
  have hwf := ParsedModule.wellFormed h.scopes
  rw [k.linkLocal_eq] at hn
  rcases hwf.linkLocal_cases with ⟨⟨u, hu⟩, hbound⟩ | ⟨u, s, i, x, -, hu⟩
  · rw [hu] at hn
    cases hn
    refine ⟨⟨h.name, h.source, _, h.scopes, hwf.locallyLinked hu⟩, fun t ht => ?_⟩
    cases ht.symm.trans h.scopes
    exact hbound
  · rw [hu] at hn
    cases hn

theorem Analyzes.linkLocal_error {k : Module} {f : CompileFailure} (h : Analyzes m k)
    (hf : k.linkLocal = .error f) :
    ∃ s i r, k.scopes.FirstUse k.scopes.localRefs k.scopes.Unbound s i r ∧
      f = ⟨m.name, .linkLocal, .unresolvedSymbol r.name r.position, some m.source⟩ := by
  have hwf := ParsedModule.wellFormed h.scopes
  rw [k.linkLocal_eq] at hf
  rcases hwf.linkLocal_cases with ⟨⟨u, hu⟩, -⟩ | ⟨u, s, i, x, hfirst, hu⟩
  · rw [hu] at hf
    cases hf
  · rw [hu] at hf
    cases hf
    exact ⟨s, i, x, hfirst, by rw [h.name, h.source]⟩

/-! ### Linking to the others -/

theorem resolve_cases (table : ModuleTable) (r : RemoteRef) :
    (∃ st, table.resolve r = .ok st) ∧ table.Exports r.module r.name ∨
      ¬ table.Exports r.module r.name ∧
        table.resolve r = .error (remoteFault table.names r) := by
  cases h : table.resolve r with
  | ok st => exact .inl ⟨⟨st, rfl⟩, (ModuleTable.resolve_eq_ok.1 h).2⟩
  | error fault =>
    refine .inr ⟨fun hexports => ?_, ?_⟩
    · cases h.symm.trans (ModuleTable.resolve_eq_ok.2 ⟨rfl, hexports⟩)
    · have hmem : r.module ∈ table.names ↔ (table.get? r.module).isSome = true :=
        table.contains_eq r.module ▸ ModuleTable.contains_iff.symm
      unfold ModuleTable.resolve at h
      split at h
      · next hnone =>
        rw [remoteFault, if_neg (by rw [hmem, hnone]; simp)]
        exact h.symm
      · next m hm =>
        rw [remoteFault, if_pos (by rw [hmem, hm]; rfl)]
        split at h
        · exact h.symm
        · cases h

/-- A module links to the others if all it uses is exported, and else fails at the first use of
something that is not. -/
theorem linkRemote_cases {u : ScopeTree} (hu : u.WellFormed) (table : ModuleTable) :
    (∃ rs, u.linkRemote table = .ok rs) ∧
        (∀ s, ∀ r ∈ u.remoteRefs s, table.Exports r.module r.name) ∨
      ∃ s i r, u.FirstUse u.remoteRefs (fun _ r => ¬ table.Exports r.module r.name) s i r ∧
        u.linkRemote table = .error (remoteFault table.names r) := by
  -- the work on one use fails as its resolution does
  have hwork : ∀ use : ScopeId × Nat × RemoteRef,
      (∃ x, (do pure ⟨use.1, use.2.1, ← table.resolve use.2.2⟩ : Except Fault RemoteResolution) =
        .ok x) ∧ table.Exports use.2.2.module use.2.2.name ∨
      ¬ table.Exports use.2.2.module use.2.2.name ∧
        (do pure ⟨use.1, use.2.1, ← table.resolve use.2.2⟩ : Except Fault RemoteResolution) =
          .error (remoteFault table.names use.2.2) := by
    rintro ⟨s, i, r⟩
    rcases resolve_cases table r with ⟨⟨st, hst⟩, hexports⟩ | ⟨hnot, herr⟩
    · exact .inl ⟨⟨_, by rw [hst]; rfl⟩, hexports⟩
    · exact .inr ⟨hnot, by rw [herr]; rfl⟩
  cases h : u.linkRemote table with
  | ok rs =>
    refine .inl ⟨⟨rs, rfl⟩, fun s r hr => ?_⟩
    obtain ⟨i, hi⟩ := List.getElem?_of_mem hr
    obtain ⟨x, hx⟩ := Except.exists_mapM_eq_ok.1 ⟨rs, h⟩ _ (hu.mem_remoteUses_iff.2 hi)
    rcases hwork (s, i, r) with ⟨-, hexports⟩ | ⟨-, herr⟩
    · exact hexports
    · cases hx.symm.trans herr
  | error fault =>
    obtain ⟨before, ⟨s, i, r⟩, after, hsplit, hbefore, herr⟩ := Except.mapM_eq_error.1 h
    rcases hwork (s, i, r) with ⟨⟨x, hx⟩, -⟩ | ⟨hnot, herr'⟩
    · cases hx.symm.trans herr
    · cases herr.symm.trans herr'
      refine .inr ⟨s, i, r, hu.firstUse lt_of_mem_remoteRefs hsplit (fun use huse hwrong => ?_)
        hnot, rfl⟩
      obtain ⟨x, hx⟩ := hbefore use huse
      rcases hwork use with ⟨-, hexports⟩ | ⟨-, herr⟩
      · exact hwrong hexports
      · cases hx.symm.trans herr

/-- In a table of modules that are linked within themselves, a module exports what its analysis has
found. -/
theorem exports_iff {ms : List ParsedModule} {table : ModuleTable}
    (h : List.Forall₂ LinksLocally ms table.modules) {module name : String} :
    table.Exports module name ↔ Exported ms module name := by
  constructor
  · rintro ⟨k, hk, hd⟩
    obtain ⟨hmem, hname⟩ := ModuleTable.get?_eq_some_iff.1 hk
    obtain ⟨n, hn, hnk⟩ := exists_of_mem_right h hmem
    obtain ⟨t, ht, hlinked⟩ := hnk.scopes
    exact ⟨n, hn, hnk.name ▸ hname, t, ht, hlinked.declarations.declared? _ _ ▸ hd⟩
  · rintro ⟨n, hn, rfl, t, ht, hd⟩
    obtain ⟨k, hk, hnk⟩ := exists_of_mem_left h hn
    obtain ⟨u, hu, hlinked⟩ := hnk.scopes
    cases hu.symm.trans ht
    exact ⟨k, ModuleTable.get?_eq_some_iff.2 ⟨hk, hnk.name⟩,
      (hlinked.declarations.declared? _ _).symm ▸ hd⟩

theorem names_of_linksLocally {ms : List ParsedModule} {ns : List Module}
    (h : List.Forall₂ LinksLocally ms ns) : ns.map (·.name) = ms.map (·.name) := by
  rw [← List.forall₂_eq_eq_eq, List.forall₂_map_left_iff, List.forall₂_map_right_iff]
  exact (h.imp fun _ _ h => h.name).flip

variable {ms : List ParsedModule} {table : ModuleTable} {k : Module}

/-- What linking to the others finds does not hang on the statuses within the module. -/
theorem LinksLocally.linkRemote_cases (h : LinksLocally m k)
    (hall : List.Forall₂ LinksLocally ms table.modules) :
    (∃ x, k.linkRemote table = .ok x) ∧ m.Served ms ∨
      ∃ t s i r, m.scopes = .ok t ∧
        t.FirstUse t.remoteRefs (fun _ r => ¬ Exported ms r.module r.name) s i r ∧
        k.linkRemote table = .error
          ⟨m.name, .linkRemote, remoteFault (ms.map (·.name)) r, some m.source⟩ := by
  obtain ⟨t, ht, hlinked⟩ := h.scopes
  have hwf := (ParsedModule.wellFormed ht).of_sameDeclarations hlinked.declarations
  rcases JayFrontEnd.linkRemote_cases hwf table with ⟨⟨rs, hrs⟩, hexports⟩ | ⟨s, i, r, hfirst, herr⟩
  · refine .inl ⟨⟨_, by rw [k.linkRemote_eq, hrs]⟩, fun u hu s r hr => ?_⟩
    cases ht.symm.trans hu
    exact (exports_iff hall).1 (hexports s r (hlinked.remoteRefs s ▸ hr))
  · refine .inr ⟨t, s, i, r, ht, ⟨?_, ?_, fun {q j y} hy hwrong => ?_⟩, ?_⟩
    · exact hlinked.remoteRefs s ▸ hfirst.use
    · exact fun hexported => hfirst.is_wrong ((exports_iff hall).2 hexported)
    · refine (hfirst.first (hlinked.remoteRefs q ▸ hy) fun hexports => ?_).imp_left fun hb =>
        hb.of_sameDeclarations hlinked.declarations.symm
      exact hwrong ((exports_iff hall).1 hexports)
    · rw [k.linkRemote_eq, herr, ModuleTable.names, names_of_linksLocally hall, h.name, h.source]

end Phases

/-! ## The whole -/

theorem ModuleTable.modules_ofList {ms : List Module} (h : (ms.map (·.name)).Nodup) :
    (ModuleTable.ofList ms).modules = ms := by
  suffices ∀ t : ModuleTable, (t.names ++ ms.map (·.name)).Nodup →
      (ms.foldl insert t).modules = t.modules ++ ms from this {} h
  induction ms with
  | nil => exact fun t _ => (List.append_nil _).symm
  | cons m ms ih =>
    intro t ht
    rw [List.map_cons, List.append_cons] at ht
    have hfresh : ¬ t.contains m.name = true := by
      rw [contains_iff]
      exact fun hmem => (List.nodup_append.1 (List.nodup_append.1 ht).1).2.2 _ hmem _
        (List.mem_singleton_self _) rfl
    have hinsert : (t.insert m).modules = t.modules ++ [m] := by
      rw [modules_insert, if_neg hfresh]
    rw [List.foldl_cons, ih (List.nodup_cons.1 h).2 _ (by simpa [names, hinsert] using ht), hinsert,
      List.append_assoc]
    rfl

/-- Modules are analysed in their order, up to the first that cannot be. -/
theorem analyze_cases (ms : List ParsedModule) :
    (∃ ks, ms.mapM (·.analyze) = .ok ks ∧ List.Forall₂ Analyzes ms ks) ∨
      ∃ before m after fault, ms = before ++ m :: after ∧ (∀ n ∈ before, ∃ t, n.scopes = .ok t) ∧
        m.scopes = .error fault ∧
        ms.mapM (·.analyze) = .error ⟨m.name, .analyze, fault, some m.source⟩ := by
  cases h : ms.mapM (·.analyze) with
  | ok ks => exact .inl ⟨ks, rfl, (Except.mapM_eq_ok.1 h).imp fun _ _ => analyzes_of_analyze⟩
  | error f =>
    obtain ⟨before, m, after, hms, hbefore, herr⟩ := Except.mapM_eq_error.1 h
    obtain ⟨fault, hfault, rfl⟩ := analyze_error herr
    refine .inr ⟨before, m, after, fault, hms, fun n hn => ?_, hfault, rfl⟩
    obtain ⟨k, hk⟩ := hbefore n hn
    exact ⟨_, (analyzes_of_analyze hk).scopes⟩

/-- Analysed modules are linked within themselves, up to the first that cannot be. -/
theorem linkLocal_cases {ms : List ParsedModule} {ks : List Module}
    (h : List.Forall₂ Analyzes ms ks) :
    (∃ ns, ks.mapM (·.linkLocal) = .ok ns ∧ List.Forall₂ LinksLocally ms ns) ∧
        (∀ m ∈ ms, m.Closed) ∨
      ∃ before m after t s i r, ms = before ++ m :: after ∧ (∀ n ∈ before, n.Closed) ∧
        m.scopes = .ok t ∧ t.FirstUse t.localRefs t.Unbound s i r ∧
        ks.mapM (·.linkLocal) = .error
          ⟨m.name, .linkLocal, .unresolvedSymbol r.name r.position, some m.source⟩ := by
  cases hks : ks.mapM (·.linkLocal) with
  | ok ns =>
    have hlinked := corresponding_trans h (Except.mapM_eq_ok.1 hks) Analyzes.linkLocal_ok
    refine .inl ⟨⟨ns, rfl, hlinked.imp fun _ _ h => h.1⟩, fun m hm => ?_⟩
    obtain ⟨n, -, hn⟩ := exists_of_mem_left hlinked hm
    exact hn.2
  | error f =>
    obtain ⟨before', k, after', hsplit, hbefore, herr⟩ := Except.mapM_eq_error.1 hks
    obtain ⟨before, m, after, hms, hk, hcorr⟩ := exists_split h hsplit
    obtain ⟨s, i, r, hfirst, rfl⟩ := hk.linkLocal_error herr
    refine .inr ⟨before, m, after, _, s, i, r, hms, fun n hn => ?_, hk.scopes, hfirst, rfl⟩
    obtain ⟨k', hk', hnk⟩ := exists_of_mem_left hcorr hn
    obtain ⟨n', hn'⟩ := hbefore k' hk'
    exact (hnk.linkLocal_ok hn').2

/-- Linked modules are linked to each other, up to the first that cannot be. -/
theorem linkAll_cases {ms : List ParsedModule} {ns : List Module} (hnodup : (ms.map (·.name)).Nodup)
    (h : List.Forall₂ LinksLocally ms ns) :
    (∃ table, (ModuleTable.ofList ns).linkAll = .ok table) ∧ (∀ m ∈ ms, m.Served ms) ∨
      ∃ before m after t s i r, ms = before ++ m :: after ∧ (∀ n ∈ before, n.Served ms) ∧
        m.scopes = .ok t ∧
        t.FirstUse t.remoteRefs (fun _ r => ¬ Exported ms r.module r.name) s i r ∧
        (ModuleTable.ofList ns).linkAll = .error
          ⟨m.name, .linkRemote, remoteFault (ms.map (·.name)) r, some m.source⟩ := by
  have hnames := names_of_linksLocally h
  have hmodules : (ModuleTable.ofList ns).modules = ns :=
    ModuleTable.modules_ofList (hnames ▸ hnodup)
  have hcases : ∀ {m k}, LinksLocally m k → _ := fun hk =>
    hk.linkRemote_cases (hmodules.symm ▸ h)
  have hlinkAll : (ModuleTable.ofList ns).linkAll =
      (ns.mapM fun k : Module => k.linkRemote (.ofList ns)).map fun outcomes => outcomes.foldl
        (fun t o => t.modifyScopes o.1 (·.applyRemote o.2)) (ModuleTable.ofList ns) := by
    rw [ModuleTable.linkAll_eq, hmodules]
    cases ns.mapM fun k : Module => k.linkRemote (.ofList ns) <;> rfl
  rw [hlinkAll]
  cases hns : ns.mapM fun k : Module => k.linkRemote (.ofList ns) with
  | ok outcomes =>
    refine .inl ⟨⟨_, rfl⟩, fun m hm => ?_⟩
    obtain ⟨n, hn, hmn⟩ := exists_of_mem_left h hm
    obtain ⟨x, hx⟩ := Except.exists_mapM_eq_ok.1 ⟨_, hns⟩ n hn
    rcases hcases hmn with ⟨-, hserved⟩ | ⟨_, _, _, _, -, -, herr⟩
    · exact hserved
    · cases hx.symm.trans herr
  | error f =>
    obtain ⟨before', k, after', hsplit, hbefore, herr⟩ := Except.mapM_eq_error.1 hns
    obtain ⟨before, m, after, hms, hk, hcorr⟩ := exists_split h hsplit
    rcases hcases hk with ⟨⟨x, hx⟩, -⟩ | ⟨t, s, i, r, ht, hfirst, herr'⟩
    · cases hx.symm.trans herr
    · cases herr.symm.trans herr'
      refine .inr ⟨before, m, after, t, s, i, r, hms, fun n hn => ?_, ht, hfirst, rfl⟩
      obtain ⟨k', hk', hnk⟩ := exists_of_mem_left hcorr hn
      obtain ⟨x, hx⟩ := hbefore k' hk'
      rcases hcases hnk with ⟨-, hserved⟩ | ⟨_, _, _, _, -, -, herr⟩
      · exact hserved
      · cases hx.symm.trans herr

theorem Locator.Ends.phase_eq {entry : String} {limit : Nat} {ms : List ParsedModule} {l : Locator}
    {f : CompileFailure} (h : l.Ends entry limit ms (.error f)) : f.phase = .parse := by
  rcases h.error_cases with ⟨name, problem, -, rfl, -⟩ | ⟨_, _, _, rfl, -⟩
  · unfold loadFailure
    split <;> rfl
  · rfl

variable {l : Locator} {config : CompileConfig}

/-- A compilation succeeds with a program without faults, or ends with its first failure. -/
theorem compile_cases (l : Locator) (config : CompileConfig) :
    (∃ table, compile l config = .ok table) ∧ (∃ ms, Compiles l config ms) ∨
      ∃ f, compile l config = .error f ∧ FirstFailure l config f.phase f := by
  rw [JayFrontEnd.compile_eq]
  cases hparsed : parseAll l config with
  | error f =>
    obtain ⟨ms, hms, hlimit, hends⟩ := parseAll_eq_iff.1 hparsed
    exact .inr ⟨f, rfl, hends.phase_eq ▸ .parse hms hlimit hends⟩
  | ok ms =>
    obtain ⟨ns, hms, hlimit, hends⟩ := parseAll_eq_iff.1 hparsed
    cases hends with
    | complete hcomplete =>
      simp only [Bind.bind, Except.bind]
      rcases analyze_cases ms with
        ⟨ks, hks, hanalyzed⟩ | ⟨before, m, after, fault, rfl, hbefore, hfault, herr⟩
      · simp only [hks]
        have hscopes : ∀ m ∈ ms, ∃ t, m.scopes = .ok t := fun m hm => by
          obtain ⟨k, -, hk⟩ := exists_of_mem_left hanalyzed hm
          exact ⟨_, hk.scopes⟩
        rcases linkLocal_cases hanalyzed with
          ⟨⟨ns, hns, hlinked⟩, hclosed⟩ | ⟨before, m, after, t, s, i, r, rfl, hbefore, ht, hr, herr⟩
        · simp only [hns]
          rcases linkAll_cases hms.nodup_names hlinked with
            ⟨htable, hserved⟩ | ⟨before, m, after, t, s, i, r, hsplit, hbefore, ht, hr, herr⟩
          · exact .inl ⟨htable, ms, hms, hcomplete, hlimit, hscopes, hclosed, hserved⟩
          · simp only [herr]
            exact .inr ⟨_, rfl,
              .linkRemote hparsed hsplit hscopes hclosed hbefore ht hr⟩
        · simp only [herr]
          exact .inr ⟨_, rfl, .linkLocal hparsed hscopes hbefore ht hr⟩
      · simp only [herr]
        exact .inr ⟨_, rfl, .analyze hparsed hbefore hfault⟩

/-! ## There is one outcome -/

theorem Compiles.parseAll {ms : List ParsedModule} (h : Compiles l config ms) :
    parseAll l config = .ok ms :=
  parseAll_eq_iff.2 ⟨ms, h.discovers, h.limit, .complete h.complete⟩

theorem not_closed_of_firstUse {m : ParsedModule} {t : ScopeTree} {s : ScopeId} {i : Nat}
    {r : LocalRef} (ht : m.scopes = .ok t) (h : t.FirstUse t.localRefs t.Unbound s i r) :
    ¬ m.Closed :=
  fun hclosed => hclosed t ht s r (List.mem_of_getElem? h.use) h.is_wrong

theorem not_served_of_firstUse {ms : List ParsedModule} {m : ParsedModule} {t : ScopeTree}
    {s : ScopeId} {i : Nat} {r : RemoteRef} (ht : m.scopes = .ok t)
    (h : t.FirstUse t.remoteRefs (fun _ r => ¬ Exported ms r.module r.name) s i r) :
    ¬ m.Served ms :=
  fun hserved => h.is_wrong (hserved t ht s r (List.mem_of_getElem? h.use))

section Passing

variable {ms : List ParsedModule} {ks ns : List Module}

theorem analyze_passes (h : ∀ m ∈ ms, ∃ t, m.scopes = .ok t) :
    ∃ ks, ms.mapM (·.analyze) = .ok ks ∧ List.Forall₂ Analyzes ms ks := by
  rcases analyze_cases ms with hok | ⟨before, m, after, fault, rfl, -, hfault, -⟩
  · exact hok
  · obtain ⟨t, ht⟩ := h m (by simp)
    cases ht.symm.trans hfault

theorem linkLocal_passes (hks : List.Forall₂ Analyzes ms ks) (h : ∀ m ∈ ms, m.Closed) :
    ∃ ns, ks.mapM (·.linkLocal) = .ok ns ∧ List.Forall₂ LinksLocally ms ns := by
  rcases linkLocal_cases hks with ⟨hok, -⟩ | ⟨before, m, after, t, s, i, r, rfl, -, ht, hr, -⟩
  · exact hok
  · exact absurd (h m (by simp)) (not_closed_of_firstUse ht hr)

theorem linkAll_passes (hnodup : (ms.map (·.name)).Nodup) (hns : List.Forall₂ LinksLocally ms ns)
    (h : ∀ m ∈ ms, m.Served ms) : ∃ table, (ModuleTable.ofList ns).linkAll = .ok table := by
  rcases linkAll_cases hnodup hns with
    ⟨hok, -⟩ | ⟨before, m, after, t, s, i, r, hsplit, -, ht, hr, -⟩
  · exact hok
  · exact absurd (h m (by rw [hsplit]; simp)) (not_served_of_firstUse ht hr)

end Passing

theorem Compiles.compile_eq {ms : List ParsedModule} (h : Compiles l config ms) :
    ∃ table, compile l config = .ok table := by
  obtain ⟨ks, hks, hanalyzed⟩ := analyze_passes h.analyzed
  obtain ⟨ns, hns, hlinked⟩ := linkLocal_passes hanalyzed h.closed
  obtain ⟨table, htable⟩ := linkAll_passes h.discovers.nodup_names hlinked h.served
  refine ⟨table, ?_⟩
  simp only [JayFrontEnd.compile_eq, h.parseAll, Bind.bind, Except.bind, hks, hns, htable]

/-- A compilation with a first failure ends with it. -/
theorem FirstFailure.compile_eq {p : Phase} {f : CompileFailure} (h : FirstFailure l config p f) :
    compile l config = .error f := by
  rw [JayFrontEnd.compile_eq]
  cases h with
  | parse hms hlimit hends =>
    rw [parseAll_eq_iff.2 ⟨_, hms, hlimit, hends⟩]
    rfl
  | @analyze before after m fault hparsed hbefore hfault =>
    have hm : ¬ ∃ t, m.scopes = .ok t := fun ⟨t, ht⟩ => by cases ht.symm.trans hfault
    simp only [hparsed, Bind.bind, Except.bind]
    rcases analyze_cases (before ++ m :: after) with
      ⟨ks, -, hks⟩ | ⟨before', m', after', fault', hsplit, hbefore', hfault', herr⟩
    · obtain ⟨k, -, hk⟩ := exists_of_mem_left hks (x := m) (by simp)
      exact absurd ⟨_, hk.scopes⟩ hm
    · have hm' : ¬ ∃ t, m'.scopes = .ok t := fun ⟨t, ht⟩ => by cases ht.symm.trans hfault'
      obtain ⟨rfl, rfl, rfl⟩ := split_unique hsplit hbefore hm hbefore' hm'
      cases hfault.symm.trans hfault'
      simp only [herr]
  | @linkLocal before after m t s i r hparsed hscopes hbefore ht hr =>
    have hm := not_closed_of_firstUse ht hr
    obtain ⟨ks, hks, hanalyzed⟩ := analyze_passes hscopes
    simp only [hparsed, Bind.bind, Except.bind, hks]
    rcases linkLocal_cases hanalyzed with
      ⟨-, hclosed⟩ | ⟨before', m', after', t', s', i', r', hsplit, hbefore', ht', hr', herr⟩
    · exact absurd (hclosed m (by simp)) hm
    · obtain ⟨rfl, rfl, rfl⟩ :=
        split_unique hsplit hbefore hm hbefore' (not_closed_of_firstUse ht' hr')
      cases ht.symm.trans ht'
      cases hr.unique hr'
      simp only [herr]
  | @linkRemote ms before after m t s i r hparsed hsplit hscopes hclosed hbefore ht hr =>
    have hm := not_served_of_firstUse ht hr
    obtain ⟨ks, hks, hanalyzed⟩ := analyze_passes hscopes
    obtain ⟨ns, hns, hlinked⟩ := linkLocal_passes hanalyzed hclosed
    obtain ⟨_, hms, -, hends⟩ := parseAll_eq_iff.1 hparsed
    cases hends
    simp only [hparsed, Bind.bind, Except.bind, hks, hns]
    rcases linkAll_cases hms.nodup_names hlinked with
      ⟨-, hserved⟩ | ⟨before', m', after', t', s', i', r', hsplit', hbefore', ht', hr', herr⟩
    · exact absurd (hserved m (by rw [hsplit]; simp)) hm
    · obtain ⟨rfl, rfl, rfl⟩ := split_unique (hsplit.symm.trans hsplit') hbefore hm hbefore'
        (not_served_of_firstUse ht' hr')
      cases ht.symm.trans ht'
      cases hr.unique hr'
      simp only [herr]

/-- What a compilation comes to. It succeeds with a program without faults, and fails with the first
failure there is; the phase in which the compiler is left says which. -/
theorem compile_outcome (l : Locator) (config : CompileConfig) :
    ((∃ table, compile l config = .ok table) ↔ ∃ ms, Compiles l config ms) ∧
    (∀ f, compile l config = .error f ↔ FirstFailure l config f.phase f) ∧
    ∀ p, ((Compiler.compile l config).runFrom p).1 = compile l config ∧
      (((Compiler.compile l config).runFrom p).2 = .done ↔ ∃ table, compile l config = .ok table) ∧
      (((Compiler.compile l config).runFrom p).2 = .failed ↔
        ∃ f, compile l config = .error f) := by
  refine ⟨⟨fun ⟨table, htable⟩ => ?_, fun ⟨ms, hms⟩ => hms.compile_eq⟩,
    fun f => ⟨fun hf => ?_, fun hf => hf.compile_eq⟩, fun p => ?_⟩
  · rcases compile_cases l config with ⟨-, hms⟩ | ⟨f, hf, -⟩
    · exact hms
    · cases htable.symm.trans hf
  · rcases compile_cases l config with ⟨⟨table, htable⟩, -⟩ | ⟨g, hg, hfirst⟩
    · cases htable.symm.trans hf
    · cases hg.symm.trans hf
      exact hfirst
  · rw [runFrom_compile]
    cases compile l config <;> simp [Phase.left]

end JayFrontEnd
