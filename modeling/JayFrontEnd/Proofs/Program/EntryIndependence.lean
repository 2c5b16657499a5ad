import JayFrontEnd.Proofs.Program.FirstFailure
import Mathlib.Data.List.Perm.Subperm

/-!
# Where a program is entered

Two entry modules that lead to each other have the same program, as a set: the modules that each
leads to. What becomes of a module is a matter of the module alone once all it uses is there, and
whether some module fails a phase is a matter of the set. So the two compilations end alike, up to
the order of the modules.
-/

namespace JayFrontEnd

open ScopeTree Relation

/-! ## The modules found -/

namespace Locator

variable {l : Locator} {entry a b : String} {ms ns : List ParsedModule}

theorem IsProgram.mem_names_iff (h : l.IsProgram entry ms) {name : String} :
    name ∈ ms.map (·.name) ↔ ReflTransGen l.Imports entry name := by
  constructor
  · intro hname
    obtain ⟨m, hm, rfl⟩ := List.mem_map.1 hname
    exact h.reachable m hm
  · intro hreach
    induction hreach with
    | refl => exact List.mem_of_head? h.head
    | tail _ himports ih =>
      obtain ⟨m, hm, hname⟩ := List.mem_map.1 ih
      obtain ⟨n, hn, rfl, i, hi, rfl⟩ := himports
      obtain rfl := (h.parses m hm).eq hn hname
      obtain ⟨k, hk, hmodule⟩ := h.closed m hm i hi
      exact List.mem_map.2 ⟨k, hk, hmodule⟩

/-- Programs of the same module names are the same up to order. -/
theorem IsProgram.perm (ha : l.IsProgram a ms) (hb : l.IsProgram b ns)
    (h : ∀ name, name ∈ ms.map (·.name) ↔ name ∈ ns.map (·.name)) : ms.Perm ns := by
  have hmem : ∀ {xs ys : List ParsedModule}, (∀ m ∈ xs, l.Parses m) → (∀ m ∈ ys, l.Parses m) →
      (∀ name, name ∈ xs.map (·.name) → name ∈ ys.map (·.name)) → ∀ m ∈ xs, m ∈ ys := by
    intro xs ys hxs hys hsub m hm
    obtain ⟨n, hn, hname⟩ := List.mem_map.1 (hsub _ (List.mem_map_of_mem hm))
    exact (hys n hn).eq (hxs m hm) hname ▸ hn
  refine (List.perm_ext_iff_of_nodup (.of_map _ ha.nodup) (.of_map _ hb.nodup)).2 fun m => ?_
  exact ⟨hmem ha.parses hb.parses (fun name => (h name).1) m,
    hmem hb.parses ha.parses (fun name => (h name).2) m⟩

theorem isProgram_of_parseAll {config : CompileConfig} (h : parseAll l config = .ok ms) :
    l.IsProgram config.entryModule ms := by
  obtain ⟨_, hms, -, hends⟩ := parseAll_eq_iff.1 h
  cases hends with
  | complete hnext => exact hms.isProgram hnext

theorem length_le_of_parseAll {config : CompileConfig} (h : parseAll l config = .ok ms) :
    ms.length ≤ config.maxModules := by
  obtain ⟨_, _, hlimit, hends⟩ := parseAll_eq_iff.1 h
  cases hends
  exact hlimit

theorem reach_of_parseAll (config : CompileConfig) (name : String)
    (h : (parseAll l config).toOption.any (·.any (·.name == name)) = true) :
    ReflTransGen l.Imports config.entryModule name := by
  obtain ⟨ms, hms, hany⟩ := (Option.any_eq_true _ _).1 h
  obtain ⟨m, hm, hname⟩ := List.any_eq_true.1 hany
  refine (isProgram_of_parseAll (Except.toOption_eq_some.1 hms)).mem_names_iff.1 ?_
  exact List.mem_map.2 ⟨m, hm, beq_iff_eq.1 hname⟩

/-- Where a module of a program leads to is in the program, so the search from it ends well, within
the limit that the program keeps. -/
theorem IsProgram.parseAll_eq_ok (h : l.IsProgram a ms) (hab : ReflTransGen l.Imports a b)
    {limit : Nat} (hlimit : ms.length ≤ limit) : ∃ ns, parseAll l ⟨b, limit⟩ = .ok ns := by
  obtain ⟨ns, hns, hlength, hends⟩ :=
    (parseAll_eq_iff (x := parseAll l ⟨b, limit⟩)).1 rfl
  have hfound : ∀ name ∈ discoveryOrder b ns, name ∈ ms.map (·.name) := fun name hname =>
    h.mem_names_iff.2 (hab.trans (hns.reachable name hname))
  have hnext : ∀ {name}, next? b ns = some name → name ∈ ms.map (·.name) := fun hname =>
    hfound _ (List.mem_of_getElem? hname)
  generalize parseAll l ⟨b, limit⟩ = x at hends
  cases hends with
  | complete => exact ⟨ns, rfl⟩
  | overLimit hname hfull =>
    -- all modules found and the next one are among those of the program
    have hnames : ns.map (·.name) ⊆ ms.map (·.name) := fun name hmem =>
      hfound name (List.mem_of_mem_take (hns.names_eq ▸ hmem))
    have hsub : ns.map (·.name) ++ [_] ⊆ ms.map (·.name) :=
      List.append_subset.2 ⟨hnames, List.forall_mem_singleton.2 (hnext hname)⟩
    have hle := ((hns.nodup_next hname).subperm hsub).length_le
    simp only [List.length_append, List.length_map, List.length_singleton] at hle
    have hfull : ns.length = limit := hfull
    omega
  | unloaded hname _ hfails =>
    obtain ⟨m, hm, rfl⟩ := List.mem_map.1 (hnext hname)
    cases hfails.symm.trans (h.parses m hm).loads
  | unparsed hname _ hloads hfails =>
    obtain ⟨m, hm, rfl⟩ := List.mem_map.1 (hnext hname)
    cases hloads.symm.trans (h.parses m hm).loads
    obtain ⟨_, hparse, -⟩ := (h.parses m hm).parses
    cases hfails.symm.trans hparse

/-- Two modules that lead to each other have the same program up to order. -/
theorem parseAll_perm (hab : ReflTransGen l.Imports a b) (hba : ReflTransGen l.Imports b a)
    {limit : Nat} (h : parseAll l ⟨a, limit⟩ = .ok ms) :
    ∃ ns, parseAll l ⟨b, limit⟩ = .ok ns ∧ ms.Perm ns := by
  have ha := isProgram_of_parseAll h
  obtain ⟨ns, hns⟩ := ha.parseAll_eq_ok hab (length_le_of_parseAll h)
  have hb := isProgram_of_parseAll hns
  refine ⟨ns, hns, ha.perm hb fun name => ?_⟩
  rw [ha.mem_names_iff, hb.mem_names_iff]
  exact ⟨hba.trans, hab.trans⟩

end Locator

/-! ## What becomes of a module -/

/-- The module as it is in a table when all has gone well. -/
def ParsedModule.compiled? (m : ParsedModule) : Option Module :=
  m.scopes.toOption.map fun t => ⟨m.name, m.source, m.tree, t.linkLocal.2.resolveRemote⟩

/-- What is left of a module when it is analysed and linked within itself. -/
theorem eq_of_linkLocal {m : ParsedModule} {k n : Module} (hk : m.analyze = .ok k)
    (hn : k.linkLocal = .ok n) :
    ∃ t, m.scopes = .ok t ∧ n = ⟨m.name, m.source, m.tree, t.linkLocal.2⟩ := by
  rw [m.analyze_eq] at hk
  split at hk
  · next t ht =>
    cases hk
    refine ⟨t, ht, ?_⟩
    rw [Module.linkLocal_eq] at hn
    split at hn
    · next u hu =>
      cases hn
      simp only [hu]
    · cases hn
  · cases hk

variable {l : Locator} {config : CompileConfig} {ms ns : List ParsedModule} {table : ModuleTable}

/-- The modules of a compiled program are what becomes of those that were parsed. -/
theorem modules_of_compile (hms : parseAll l config = .ok ms)
    (h : compile l config = .ok table) : table.modules = ms.filterMap (·.compiled?) := by
  rw [compile_eq] at h
  obtain ⟨_, hparsed, h⟩ := Except.bind_eq_ok.1 h
  cases hms.symm.trans hparsed
  obtain ⟨analyzed, hanalyzed, h⟩ := Except.bind_eq_ok.1 h
  obtain ⟨linked, hlinked, h⟩ := Except.bind_eq_ok.1 h
  have hlocal := corresponding_trans (Except.mapM_eq_ok.1 hanalyzed) (Except.mapM_eq_ok.1 hlinked)
    eq_of_linkLocal
  have hnames : linked.map (·.name) = ms.map (·.name) := by
    rw [← List.forall₂_eq_eq_eq, List.forall₂_map_left_iff, List.forall₂_map_right_iff]
    exact (hlocal.imp fun _ _ ⟨_, _, h⟩ => h ▸ rfl).flip
  have hnodup : (linked.map (·.name)).Nodup := hnames ▸ (Locator.isProgram_of_parseAll hms).nodup
  have hmodules := ModuleTable.modules_ofList hnodup
  have hremote := ModuleTable.modules_of_linkAll h
  rw [hmodules] at hremote
  refine (filterMap_of_corresponding (corresponding_trans hlocal hremote ?_)).symm
  rintro m _ _ ⟨t, ht, rfl⟩ ⟨rs, hrs, rfl⟩
  rw [ParsedModule.compiled?, ht, ScopeTree.applyRemote_eq_resolveRemote hrs]
  rfl

/-! ## Which phase a program does not pass -/

/-- The modules do not all pass the phase, but they do all that come before. -/
inductive FailsIn (ms : List ParsedModule) : Phase → Prop where
  | analyze : (¬ ∀ m ∈ ms, ∃ t, m.scopes = .ok t) → FailsIn ms .analyze
  | linkLocal : (∀ m ∈ ms, ∃ t, m.scopes = .ok t) → (¬ ∀ m ∈ ms, m.Closed) → FailsIn ms .linkLocal
  | linkRemote : (∀ m ∈ ms, ∃ t, m.scopes = .ok t) → (∀ m ∈ ms, m.Closed) →
      (¬ ∀ m ∈ ms, m.Served ms) → FailsIn ms .linkRemote

namespace FailsIn

variable {p q : Phase} {f : CompileFailure}

theorem unique (hp : FailsIn ms p) (hq : FailsIn ms q) : p = q := by
  cases hp <;> cases hq <;> first | rfl | contradiction

theorem not_compiles (h : FailsIn ms p) : ¬ Compiles l config ms := by
  intro hc
  cases h with
  | analyze hnot => exact hnot hc.analyzed
  | linkLocal _ hnot => exact hnot hc.closed
  | linkRemote _ _ hnot => exact hnot hc.served

/-- A failure after all has been parsed is of the phase that the modules do not pass. -/
theorem of_compile (hms : parseAll l config = .ok ms) (h : compile l config = .error f) :
    FailsIn ms f.phase := by
  rcases compile_cases l config with ⟨⟨table, htable⟩, -⟩ | ⟨g, hg, hfirst⟩
  · cases htable.symm.trans h
  cases hg.symm.trans h
  generalize f.phase = p at hfirst
  cases hfirst with
  | parse hns hlimit hends =>
    cases hms.symm.trans (parseAll_eq_iff.2 ⟨_, hns, hlimit, hends⟩)
  | analyze hparsed _ hfault =>
    cases hms.symm.trans hparsed
    refine .analyze fun hall => ?_
    obtain ⟨t, ht⟩ := hall _ (List.mem_append_right _ List.mem_cons_self)
    cases ht.symm.trans hfault
  | linkLocal hparsed hscopes _ ht hr =>
    cases hms.symm.trans hparsed
    exact .linkLocal hscopes fun hall => not_closed_of_firstUse ht hr (hall _ (by simp))
  | linkRemote hparsed hsplit hscopes hclosed _ ht hr =>
    cases hms.symm.trans hparsed
    exact .linkRemote hscopes hclosed fun hall =>
      not_served_of_firstUse ht hr (hall _ (by simp [hsplit]))

/-- The order of the modules is of no account. -/
theorem perm (hperm : ms.Perm ns) (h : FailsIn ms p) : FailsIn ns p := by
  have hall : ∀ {P : ParsedModule → Prop}, (∀ m ∈ ms, P m) ↔ ∀ m ∈ ns, P m := fun {P} =>
    forall_congr' fun m => imp_congr_left hperm.mem_iff
  have hexported : ∀ module name, Exported ms module name ↔ Exported ns module name :=
    fun module name => exists_congr fun m => and_congr_left' hperm.mem_iff
  have hserved : ∀ m : ParsedModule, m.Served ms ↔ m.Served ns := fun m => by
    simp only [ParsedModule.Served, hexported]
  cases h with
  | analyze hnot => exact .analyze (mt hall.2 hnot)
  | linkLocal hscopes hnot => exact .linkLocal (hall.1 hscopes) (mt hall.2 hnot)
  | linkRemote hscopes hclosed hnot =>
    refine .linkRemote (hall.1 hscopes) (hall.1 hclosed) fun hns => hnot ?_
    exact fun m hm => (hserved m).2 (hns m (hperm.mem_iff.1 hm))

end FailsIn

/-! ## The whole -/

/-- Two entry modules that lead to each other are as good as each other: if the program of one
compiles, so does that of the other, to the same modules up to their order, and if it is all parsed
and then fails in a phase, so does the other, in the same phase. -/
theorem compile_of_mutual_reach {a b : String} (hab : ReflTransGen l.Imports a b)
    (hba : ReflTransGen l.Imports b a) (limit : Nat) :
    (∀ table, compile l ⟨a, limit⟩ = .ok table →
      ∃ table', compile l ⟨b, limit⟩ = .ok table' ∧ table.modules.Perm table'.modules) ∧
    ∀ f, compile l ⟨a, limit⟩ = .error f → (∃ ms, parseAll l ⟨a, limit⟩ = .ok ms) →
      ∃ f', compile l ⟨b, limit⟩ = .error f' ∧ f'.phase = f.phase := by
  constructor
  · intro table htable
    obtain ⟨ms, hms, -⟩ := Except.bind_eq_ok.1 (compile_eq .. ▸ htable)
    obtain ⟨ns, hns, hperm⟩ := Locator.parseAll_perm hab hba hms
    cases hb : compile l ⟨b, limit⟩ with
    | ok table' =>
      refine ⟨table', rfl, ?_⟩
      rw [modules_of_compile hms htable, modules_of_compile hns hb]
      exact hperm.filterMap _
    | error f =>
      -- the modules do not pass a phase, so they do not from `a` either
      have hfails := (FailsIn.of_compile hns hb).perm hperm.symm
      obtain ⟨ks, hks⟩ := ((compile_cases l ⟨a, limit⟩).resolve_right
        fun ⟨g, hg, _⟩ => by cases htable.symm.trans hg).2
      cases hms.symm.trans hks.parseAll
      exact absurd hks hfails.not_compiles
  · rintro f hf ⟨ms, hms⟩
    obtain ⟨ns, hns, hperm⟩ := Locator.parseAll_perm hab hba hms
    have hfails := (FailsIn.of_compile hms hf).perm hperm
    rcases compile_cases l ⟨b, limit⟩ with ⟨-, ks, hks⟩ | ⟨f', hf', -⟩
    · cases hns.symm.trans hks.parseAll
      exact absurd hks hfails.not_compiles
    · exact ⟨f', hf', (FailsIn.of_compile hns hf').unique hfails⟩

/-- Two modules that import each other; the one calls a function of the other. -/
def callers (function : String) : Locator :=
  ((({} : Buffers).addModule "a" "import \"b\"\nfunc f() \x7b\n\x7d\n").addModule "b"
    s!"import \"a\"\nfunc g() \x7b\n  a.{function}()\n\x7d\n").locator

theorem compile_of_mutual_reach_callers :
    (∃ table table', compile (callers "f") ⟨"a", 2⟩ = .ok table ∧
      compile (callers "f") ⟨"b", 2⟩ = .ok table' ∧ table.modules.Perm table'.modules) ∧
    ∃ f f', compile (callers "g") ⟨"a", 2⟩ = .error f ∧
      compile (callers "g") ⟨"b", 2⟩ = .error f' ∧ f.phase = .linkRemote ∧ f'.phase = f.phase := by
  have hf := compile_of_mutual_reach (l := callers "f")
    (Locator.reach_of_parseAll ⟨"a", 2⟩ "b" (by decide +kernel))
    (Locator.reach_of_parseAll ⟨"b", 2⟩ "a" (by decide +kernel)) 2
  have hparsed : (parseAll (callers "g") ⟨"a", 2⟩).toOption.any (·.any (·.name == "b")) = true := by
    decide +kernel
  have hg := compile_of_mutual_reach (l := callers "g")
    (Locator.reach_of_parseAll ⟨"a", 2⟩ "b" hparsed)
    (Locator.reach_of_parseAll ⟨"b", 2⟩ "a" (by decide +kernel)) 2
  have hok : (compile (callers "f") ⟨"a", 2⟩).toOption.isSome = true := by decide +kernel
  obtain ⟨table, htable⟩ := Option.isSome_iff_exists.1 hok
  have htable := Except.toOption_eq_some.1 htable
  obtain ⟨table', htable', hperm⟩ := hf.1 table htable
  have hfails : (compile (callers "g") ⟨"a", 2⟩).map (·.names) =
      .error ⟨"b", .linkRemote, .unresolvedRemoteSymbol "a" "g" 26,
        some ⟨[⟨"b.j", "import \"a\"\nfunc g() \x7b\n  a.g()\n\x7d\n"⟩]⟩⟩ := by decide +kernel
  obtain ⟨ms, hms, -⟩ := (Option.any_eq_true _ _).1 hparsed
  have hfails := Except.map_eq_error.1 hfails
  obtain ⟨f', hf', hphase⟩ := hg.2 _ hfails ⟨ms, Except.toOption_eq_some.1 hms⟩
  exact ⟨⟨table, table', htable, htable', hperm⟩, _, f', hfails, hf', rfl, hphase⟩

end JayFrontEnd
