import JayFrontEnd.Proofs.Grammar.FirstError
import JayFrontEnd.Proofs.Program.Discovery

/-!
# Parsing all modules

What comes out when the entry module and all that it leads to are parsed: a program, or a failure
that says which module is not there and who asks for it first. No more modules are loaded than may
be parsed, whatever imports what.
-/

namespace JayFrontEnd

namespace Locator

variable {l l' : Locator} {entry : String} {limit : Nat} {ms : List ParsedModule}
  {x : Except CompileFailure (List ParsedModule)}

/-- One module imports the other. -/
def Imports (l : Locator) (a b : String) : Prop :=
  ∃ m, l.Parses m ∧ m.name = a ∧ ∃ i ∈ m.tree.directives, i.module = b

/-- The modules of a program: those that the entry module leads to, breadth first. -/
structure IsProgram (l : Locator) (entry : String) (ms : List ParsedModule) : Prop where
  parses : ∀ m ∈ ms, l.Parses m
  nodup : (ms.map (·.name)).Nodup
  head : (ms.map (·.name)).head? = some entry
  closed : ∀ m ∈ ms, ∀ i ∈ m.tree.directives, ∃ n ∈ ms, n.name = i.module
  reachable : ∀ m ∈ ms, Relation.ReflTransGen l.Imports entry m.name
  order : ms.map (·.name) = discoveryOrder entry ms
  /-- The directives of a module are taken in the order of its text. -/
  directives : ∀ m ∈ ms, m.tree.directives.Pairwise fun i j => i.position ≤ j.position

theorem Parses.exists_tokens {m : ParsedModule} (h : l.Parses m) : ∃ w tail,
    lex TokenRule.jay m.source.chars = .ok (w ++ tail) ∧ Spells .root w m.tree := by
  obtain ⟨-, output, hparse, htree⟩ := h
  obtain ⟨tokens, hlex, hparse⟩ := Except.bind_eq_ok.1 hparse
  obtain ⟨-, w, tail, rfl, hspells⟩ := Jay.parse_eq_ok hparse
  exact ⟨w, tail, hlex, htree ▸ hspells⟩

/-- The directives of a module stand in the tree as they do in the text. -/
theorem Parses.directives_sorted {m : ParsedModule} (h : l.Parses m) :
    m.tree.directives.Pairwise fun i j => i.position ≤ j.position := by
  obtain ⟨w, tail, hlex, hspells⟩ := h.exists_tokens
  obtain ⟨modules, hsub, -, hdirectives⟩ := Jay.directives_of_spells_root hspells
  rw [hdirectives, List.pairwise_map]
  exact (lexed_of_lex hlex).sorted.sublist (hsub.trans (List.sublist_append_left ..))

theorem parse_congr (h : l'.locate? = l.locate?) (source : Source) :
    l'.parse source = l.parse source := by
  unfold Locator.parse
  rw [h]

namespace Discovers

theorem reachable (h : l.Discovers entry ms) :
    ∀ name ∈ discoveryOrder entry ms, Relation.ReflTransGen l.Imports entry name := by
  induction h with
  | start =>
    intro name hname
    rcases mem_discoveryOrder.1 hname with rfl | ⟨_, hm, -⟩
    · exact .refl
    · cases hm
  | @next ms m _ hnext hm ih =>
    intro name hname
    rcases mem_discoveryOrder.1 hname with rfl | ⟨n, hn, i, hi, rfl⟩
    · exact .refl
    · rcases List.mem_append.1 hn with hn | hn
      · exact ih _ (mem_discoveryOrder.2 (.inr ⟨n, hn, i, hi, rfl⟩))
      · obtain rfl := List.mem_singleton.1 hn
        exact .tail (ih _ (List.mem_of_getElem? hnext)) ⟨n, hm, rfl, i, hi, rfl⟩

/-- When nothing is left of the order, what has been found is a program. -/
theorem isProgram (h : l.Discovers entry ms) (hnext : next? entry ms = none) :
    l.IsProgram entry ms := by
  have horder : ms.map (·.name) = discoveryOrder entry ms := by
    rw [h.names_eq, List.take_of_length_le (List.getElem?_eq_none_iff.1 hnext)]
  refine ⟨h.parses, h.nodup_names, horder ▸ head?_discoveryOrder entry ms, fun m hm i hi => ?_,
    fun m hm => ?_, horder, fun m hm => (h.parses m hm).directives_sorted⟩
  · have hmem : i.module ∈ ms.map (·.name) :=
      horder ▸ mem_discoveryOrder.2 (.inr ⟨m, hm, i, hi, rfl⟩)
    exact List.mem_map.1 hmem
  · exact h.reachable _ (horder ▸ List.mem_map_of_mem hm)

theorem nodup_next (h : l.Discovers entry ms) {name : String} (hnext : next? entry ms = some name) :
    (ms.map (·.name) ++ [name]).Nodup := by
  obtain ⟨hlt, hname⟩ := List.getElem?_eq_some_iff.1 hnext
  rw [h.names_eq, ← hname, ← List.take_succ_eq_append_getElem hlt]
  exact (nodup_discoveryOrder entry ms).sublist (List.take_sublist ..)

theorem congr (h : l.Discovers entry ms) (hlocate : l'.locate? = l.locate?)
    (hload : ∀ name ∈ ms.map (·.name), l'.load name none = l.load name none) :
    l'.Discovers entry ms := by
  induction h with
  | start => exact .start
  | @next ms m _ hnext hm ih =>
    rw [List.map_append, List.forall_mem_append] at hload
    refine .next (ih hload.1) hnext ⟨(hload.2 _ (List.mem_singleton_self _)).trans hm.loads, ?_⟩
    rw [parse_congr hlocate]
    exact hm.parses

end Discovers

/-- What the search comes to hangs on the modules found and at most one more. -/
theorem Ends.exists_loaded (h : l.Ends entry limit ms x) (hms : l.Discovers entry ms)
    (hlimit : ms.length ≤ limit) : ∃ loaded : List String, loaded.Nodup ∧ loaded.length ≤ limit ∧
      ∀ l' : Locator, l'.locate? = l.locate? →
        (∀ name ∈ loaded, l'.load name none = l.load name none) →
        l'.Discovers entry ms ∧ l'.Ends entry limit ms x := by
  have hfound : (ms.map (·.name)).length ≤ limit := by rwa [List.length_map]
  -- one more module has been loaded if the search has ended at it
  have hmore : ∀ {name}, next? entry ms = some name → ms.length < limit →
      (∀ l' : Locator, l'.locate? = l.locate? → l'.load name none = l.load name none →
        l'.Ends entry limit ms x) → ∃ loaded : List String, loaded.Nodup ∧
          loaded.length ≤ limit ∧ ∀ l' : Locator, l'.locate? = l.locate? →
            (∀ name ∈ loaded, l'.load name none = l.load name none) →
            l'.Discovers entry ms ∧ l'.Ends entry limit ms x := by
    intro name hnext hlt hends
    refine ⟨ms.map (·.name) ++ [name], hms.nodup_next hnext, ?_, fun l' hlocate hload => ?_⟩
    · rw [List.length_append, List.length_map, List.length_singleton]
      exact hlt
    · rw [List.forall_mem_append] at hload
      exact ⟨hms.congr hlocate hload.1, hends l' hlocate (hload.2 _ (List.mem_singleton_self _))⟩
  cases h with
  | complete hnext =>
    exact ⟨_, hms.nodup_names, hfound, fun l' hlocate hload =>
      ⟨hms.congr hlocate hload, .complete hnext⟩⟩
  | overLimit hnext hlength =>
    exact ⟨_, hms.nodup_names, hfound, fun l' hlocate hload =>
      ⟨hms.congr hlocate hload, .overLimit hnext hlength⟩⟩
  | unloaded hnext hlt hfails =>
    exact hmore hnext hlt fun l' _ hload => .unloaded hnext hlt (hload.trans hfails)
  | unparsed hnext hlt hloads hfails =>
    refine hmore hnext hlt fun l' hlocate hload => .unparsed hnext hlt (hload.trans hloads) ?_
    rw [parse_congr hlocate]
    exact hfails

end Locator

/-- A failure to load a module is attributed to the module that imports it first, at its first
directive for it. There is none when the entry module is not loaded, and nothing else is yet. -/
def AttributedToImporter (entry : String) (ms : List ParsedModule) (f : CompileFailure)
    (module : String) (offset : Option Nat) : Prop :=
  (∃ m i, firstImporter? ms module = some (m, i) ∧ f.module = m.name ∧
    offset = some i.position ∧ f.source = some m.source) ∨
  (ms = [] ∧ module = entry ∧ f.module = entry ∧ offset = none ∧ f.source = none)

open Locator

variable {l : Locator} {entry name : String} {ms : List ParsedModule}

theorem attributed_loadFailure (hnext : next? entry ms = some name)
    (problem : LoadProblem) : ∃ offset,
      (loadFailure ms name problem).fault = .moduleLoad name offset problem ∧
      AttributedToImporter entry ms (loadFailure ms name problem) name offset := by
  unfold loadFailure
  rcases hfirst : firstImporter? ms name with _ | ⟨m, i⟩
  · -- all but the entry module have an importer
    obtain ⟨hlt, hname⟩ := List.getElem?_eq_some_iff.1 hnext
    have hentry : name = entry := by
      by_contra hne
      have hsome := firstImporter?_isSome (hname ▸ List.getElem_mem hlt) hne
      rw [hfirst] at hsome
      cases hsome
    have hfirst : (discoveryOrder entry ms)[0]? = some entry :=
      List.head?_eq_getElem? ▸ head?_discoveryOrder entry ms
    have hzero := (List.getElem?_inj hlt (nodup_discoveryOrder entry ms)).1
      (hnext.trans ((congrArg some hentry).trans hfirst.symm))
    exact ⟨none, rfl, .inr ⟨List.eq_nil_of_length_eq_zero hzero, hentry, hentry, rfl, rfl⟩⟩
  · exact ⟨_, rfl, .inl ⟨m, i, hfirst, rfl, rfl, rfl⟩⟩

/-- A text that does not parse is not the fault of a missing module. -/
theorem ne_moduleLoad_of_parse {source : Source} {fault : Fault}
    (h : l.parse source = .error fault) (module : String) (offset : Option Nat)
    (problem : LoadProblem) : fault ≠ .moduleLoad module offset problem := by
  unfold Locator.parse at h
  cases hlex : lex TokenRule.jay source.chars with
  | error e =>
    obtain ⟨_, rfl, -⟩ := boundary_of_lex_error hlex
    rw [hlex] at h
    cases h
    exact nofun
  | ok tokens =>
    rw [hlex] at h
    obtain ⟨_, _, _, _, _, _, rfl⟩ := Jay.exists_points h
    exact nofun

/-- A search fails because a module cannot be loaded, or because its text does not parse. -/
theorem Locator.Ends.error_cases {limit : Nat} {f : CompileFailure}
    (h : l.Ends entry limit ms (.error f)) :
    (∃ name problem, next? entry ms = some name ∧ f = loadFailure ms name problem ∧
      ∀ n, problem = .tooManyModules n → ms.length = limit) ∨
    ∃ name source fault, f = ⟨name, .parse, fault, some source⟩ ∧
      l.parse source = .error fault := by
  cases h with
  | overLimit hnext hlength => exact .inl ⟨_, _, hnext, rfl, fun _ _ => hlength⟩
  | @unloaded name problem hnext _ hload =>
    refine .inl ⟨_, _, hnext, rfl, fun n hn => ?_⟩
    rcases l.load_eq name with ⟨source, hok⟩ | ⟨problem', hne, herr⟩
    · cases hload.symm.trans (hok none)
    · cases hload.symm.trans (herr none)
      exact absurd hn (hne n)
  | unparsed _ _ _ hparse => exact .inr ⟨_, _, _, rfl, hparse⟩

/-- What a parse of all modules does. -/
theorem parseAll_discovers (l : Locator) (config : CompileConfig) :
    -- no more modules are loaded than may be parsed
    (∃ loaded : List String, loaded.Nodup ∧ loaded.length ≤ config.maxModules ∧
      ∀ l' : Locator, l'.locate? = l.locate? →
        (∀ name ∈ loaded, l'.load name none = l.load name none) →
        parseAll l' config = parseAll l config) ∧
    -- it succeeds with a program
    (∀ ms, parseAll l config = .ok ms → ms.length ≤ config.maxModules ∧
      l.IsProgram config.entryModule ms) ∧
    -- it stops at the limit when all modules up to there have been parsed and another is asked for
    ((∃ f name offset, parseAll l config = .error f ∧
        f.fault = .moduleLoad name offset (.tooManyModules config.maxModules)) ↔
      ∃ ms, l.Discovers config.entryModule ms ∧ ms.length = config.maxModules ∧
        (next? config.entryModule ms).isSome = true) ∧
    -- a module that is not loaded is the next one, and is reported where it is first asked for
    (∀ f name offset problem, parseAll l config = .error f →
      f.fault = .moduleLoad name offset problem → ∃ ms, l.Discovers config.entryModule ms ∧
        next? config.entryModule ms = some name ∧
        AttributedToImporter config.entryModule ms f name offset) ∧
    -- only the entry module has no source to report it in
    (∀ f, parseAll l config = .error f → f.source = none → f.module = config.entryModule ∧
      ∃ problem, f.fault = .moduleLoad config.entryModule none problem) := by
  obtain ⟨ms, hms, hlimit, hends⟩ := (parseAll_eq_iff (x := parseAll l config)).1 rfl
  refine ⟨?_, fun ns hok => ?_, ⟨?_, ?_⟩, ?_, ?_⟩
  · obtain ⟨loaded, hnodup, hlength, hloaded⟩ := hends.exists_loaded hms hlimit
    refine ⟨loaded, hnodup, hlength, fun l' hlocate hload => parseAll_eq_iff.2 ?_⟩
    obtain ⟨hms', hends'⟩ := hloaded l' hlocate hload
    exact ⟨ms, hms', hlimit, hends'⟩
  · rw [hok] at hends
    cases hends with
    | complete hnext => exact ⟨hlimit, hms.isProgram hnext⟩
  · rintro ⟨f, name, offset, hf, hfault⟩
    rw [hf] at hends
    rcases hends.error_cases with ⟨name', problem, hnext, rfl, hmany⟩ | ⟨_, _, fault, rfl, hparse⟩
    · obtain ⟨_, hfault', -⟩ := attributed_loadFailure hnext problem
      cases hfault.symm.trans hfault'
      exact ⟨ms, hms, hmany _ rfl, hnext ▸ rfl⟩
    · exact absurd hfault (ne_moduleLoad_of_parse hparse _ _ _)
  · rintro ⟨ns, hns, hlength, hnext⟩
    obtain ⟨name, hnext⟩ := Option.isSome_iff_exists.1 hnext
    obtain ⟨offset, hfault, -⟩ :=
      attributed_loadFailure hnext (.tooManyModules config.maxModules)
    exact ⟨_, name, offset, parseAll_eq_iff.2 ⟨ns, hns, Nat.le_of_eq hlength,
      .overLimit hnext hlength⟩, hfault⟩
  · intro f name offset problem hf hfault
    rw [hf] at hends
    rcases hends.error_cases with ⟨name', problem', hnext, rfl, -⟩ | ⟨_, _, fault, rfl, hparse⟩
    · obtain ⟨_, hfault', hattributed⟩ := attributed_loadFailure hnext problem'
      cases hfault.symm.trans hfault'
      exact ⟨ms, hms, hnext, hattributed⟩
    · exact absurd hfault (ne_moduleLoad_of_parse hparse _ _ _)
  · intro f hf hsource
    rw [hf] at hends
    rcases hends.error_cases with ⟨name, problem, hnext, rfl, -⟩ | ⟨_, _, fault, rfl, -⟩
    · obtain ⟨_, hfault, ⟨_, _, _, _, _, hsome⟩ | ⟨-, rfl, hmodule, rfl, -⟩⟩ :=
        attributed_loadFailure hnext problem
      · cases hsource.symm.trans hsome
      · exact ⟨hmodule, problem, hfault⟩
    · cases hsource

/-- Two modules that import each other, and one of them itself. -/
def mutualImports : Locator :=
  ((({} : Buffers).addModule "a" "import \"b\"\nimport \"a\"\n").addModule "b"
    "import \"a\"\n").locator

theorem parseAll_discovers_mutualImports :
    (∃ ms, parseAll mutualImports { entryModule := "a" } = .ok ms ∧
      mutualImports.IsProgram "a" ms) ∧
    (∃ f ms, parseAll mutualImports { entryModule := "a", maxModules := 1 } = .error f ∧
      AttributedToImporter "a" ms f "b" (some 7)) ∧
    ∃ f, parseAll mutualImports { entryModule := "a", maxModules := 0 } = .error f ∧
      f.source = none ∧ f.module = "a" := by
  have hok : (parseAll mutualImports { entryModule := "a" }).toOption.isSome = true := by
    decide +kernel
  obtain ⟨ms, hms⟩ := Option.isSome_iff_exists.1 hok
  have hms := Except.toOption_eq_some.1 hms
  have hone : (parseAll mutualImports { entryModule := "a", maxModules := 1 }).map
      (·.map (·.name)) = .error ⟨"a", .parse, .moduleLoad "b" (some 7) (.tooManyModules 1),
        some ⟨[⟨"a.j", "import \"b\"\nimport \"a\"\n"⟩]⟩⟩ := by decide +kernel
  have hzero : (parseAll mutualImports { entryModule := "a", maxModules := 0 }).map
      (·.map (·.name)) = .error ⟨"a", .parse, .moduleLoad "a" none (.tooManyModules 0), none⟩ := by
    decide +kernel
  have hone := Except.map_eq_error.1 hone
  have hzero := Except.map_eq_error.1 hzero
  obtain ⟨ns, -, -, hattributed⟩ := (parseAll_discovers mutualImports
    { entryModule := "a", maxModules := 1 }).2.2.2.1 _ _ _ _ hone rfl
  exact ⟨⟨ms, hms, ((parseAll_discovers mutualImports { entryModule := "a" }).2.1 ms hms).2⟩,
    ⟨_, ns, hone, hattributed⟩, _, hzero, rfl, ((parseAll_discovers mutualImports
      { entryModule := "a", maxModules := 0 }).2.2.2.2 _ hzero rfl).1⟩

end JayFrontEnd
