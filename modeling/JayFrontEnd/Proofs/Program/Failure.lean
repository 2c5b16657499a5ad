import JayFrontEnd.Proofs.Analysis.Faults
import JayFrontEnd.Proofs.Program.FirstFailure

/-!
# The failures of a compilation

Each phase has faults of its own, and no compilation ends with a fault of the grammar. A failure can
be shown in the source of the module it is attributed to: what it points at is a token there, or the
place where the text is cut off. Only when the entry module is not there is nothing to show.
-/

namespace JayFrontEnd

/-- The phase in which a fault comes up. What is wrong with a grammar, or with an offset that is to
be shown, comes up in none. -/
def Fault.phase? : Fault → Option Phase
  | unexpectedInput _ | parse .. | moduleLoad .. => some .parse
  | duplicateSymbol .. | typeMismatch .. | unknownType .. => some .analyze
  | unresolvedSymbol .. => some .linkLocal
  | unknownModule .. | unresolvedRemoteSymbol .. => some .linkRemote
  | grammar _ | positionOutOfRange _ => none

def CompileConfig.EntryMissing (config : CompileConfig) (l : Locator) : Prop :=
  config.maxModules = 0 ∨ ∃ fault, l.load config.entryModule none = .error fault

/-- The fault comes up in the phase, and what it points at can be shown in the source. So can the
place where a name stood first. -/
structure Pinned (source : Source) (phase : Phase) (fault : Fault) : Prop where
  phase : fault.phase? = some phase
  offset : ∃ offset, fault.offset? = some offset ∧ source.Shows offset
  first : ∀ {name offset first link}, fault = .duplicateSymbol name offset first link →
    ∃ p, source.position? first = some p ∧ link = p.link

variable {l : Locator} {config : CompileConfig} {source : Source} {fault : Fault} {offset : Nat}
  {m : ParsedModule} {ms : List ParsedModule} {f : CompileFailure}

/-! ## Parsing -/

theorem Locator.parse_nil (l : Locator) :
    l.parse {} = .ok ⟨.mk 0 NodeTag.root.name (.list []), []⟩ := rfl

theorem files_ne_nil_of_parse (h : l.parse source = .error fault) : source.files ≠ [] := by
  obtain ⟨files⟩ := source
  rintro rfl
  cases l.parse_nil.symm.trans h

/-- The tree of a module is that of the tokens `w`, which can be shown in its source. -/
structure ParsedModule.ReadFrom (m : ParsedModule) (w tail : List Token) : Prop where
  tokens : lex TokenRule.jay m.source.chars = .ok (w ++ tail)
  spells : Spells .root w m.tree
  shows : ∀ t ∈ w, m.source.Shows t.position

theorem Locator.Parses.exists_readFrom (h : l.Parses m) : ∃ w tail, m.ReadFrom w tail := by
  by_cases hfiles : m.source.files = []
  · obtain ⟨-, output, hparse, htree⟩ := h
    obtain ⟨name, ⟨files⟩, tree⟩ := m
    subst hfiles
    cases l.parse_nil.symm.trans hparse
    exact ⟨[], [⟨0, Token.eos, none⟩], rfl,
      htree ▸ @Spells.root [] [] [] 0 (.inl rfl) nofun nofun, nofun⟩
  · obtain ⟨w, tail, hlex, hspells⟩ := h.exists_tokens
    refine ⟨w, tail, hlex, hspells, fun t ht => Source.position?_isSome_iff.2 ⟨hfiles, ?_⟩⟩
    exact (lexed_of_lex hlex).boundary t (List.mem_append_left _ ht)

theorem exists_offset_eq {ts : List Token} (hts : ts ≠ []) (j : Nat) :
    ∃ t ∈ ts, (Input.tokens ts).offset j = t.position := by
  cases hj : ts[j]? with
  | some t => exact ⟨t, List.mem_of_getElem? hj, by simp [Input.offset, hj]⟩
  | none =>
    refine ⟨_, List.getLast_mem hts, ?_⟩
    simp [Input.offset, hj, List.getLast?_eq_some_getLast hts]

theorem pinned_of_parse (h : l.parse source = .error fault) : Pinned source .parse fault := by
  have hfiles := files_ne_nil_of_parse h
  unfold Locator.parse at h
  cases hlex : lex TokenRule.jay source.chars with
  | error e =>
    obtain ⟨offset, rfl, hoffset⟩ := boundary_of_lex_error hlex
    rw [hlex] at h
    cases h
    exact ⟨rfl, ⟨offset, rfl, Source.position?_isSome_iff.2 ⟨hfiles, hoffset⟩⟩, nofun⟩
  | ok ts =>
    rw [hlex] at h
    have hlexed := lexed_of_lex hlex
    obtain ⟨j, hj⟩ := Jay.exists_points h
    obtain ⟨err, -, hj', rfl⟩ := hj.fault
    have hne : ts ≠ [] := by
      obtain ⟨body, stop, rfl, -⟩ := hlexed.ends
      simp
    obtain ⟨t, ht, hoffset⟩ := exists_offset_eq hne j
    refine ⟨rfl, ⟨_, rfl, Source.position?_isSome_iff.2 ⟨hfiles, ?_⟩⟩, nofun⟩
    exact hj' ▸ hoffset ▸ hlexed.boundary t ht

theorem ParsedModule.ReadFrom.worded {w tail : List Token} (h : m.ReadFrom w tail) : Worded w :=
  fun t ht => worded_of_lex h.tokens t (List.mem_append_left _ ht)

theorem ParsedModule.ReadFrom.shows_of_standsAt {w tail : List Token} (h : m.ReadFrom w tail)
    (ho : StandsAt w offset) : m.source.Shows offset := by
  obtain ⟨t, ht, rfl⟩ := ho
  exact h.shows t ht

theorem Locator.Parses.shows_directive (h : l.Parses m) {i : Import} (hi : i ∈ m.tree.directives) :
    m.source.Shows i.position := by
  obtain ⟨w, tail, hread⟩ := h.exists_readFrom
  have hdirective := Jay.directiveAt_of_spells_root hread.spells hread.worded (List.infix_refl w) hi
  exact hread.shows_of_standsAt hdirective.standsAt

/-! ## Analysis and linking -/

theorem ParsedModule.ReadFrom.pinned_of_reports {w tail : List Token} (h : m.ReadFrom w tail)
    (hfault : m.source.Reports w fault) : Pinned m.source .analyze fault := by
  cases hfault with
  | duplicateSymbol ho _ hp =>
    exact ⟨rfl, ⟨_, rfl, h.shows_of_standsAt ho.standsAt⟩, fun h => by cases h; exact ⟨_, hp, rfl⟩⟩
  | typeMismatch ho => exact ⟨rfl, ⟨_, rfl, h.shows_of_standsAt ho⟩, nofun⟩
  | unknownType ho => exact ⟨rfl, ⟨_, rfl, h.shows_of_standsAt ho.standsAt⟩, nofun⟩

theorem ParsedModule.scopes_eq (m : ParsedModule) : m.scopes =
    ((Analyzer.ofModule m.name m.source).follow m.tree.events).map (·.scopes) := by
  have hrun : m.scopes = (Analysis.outcome (Analysis.statements m.tree.items)
      (.ofModule m.name m.source)).map (·.2.scopes) := by
    unfold ParsedModule.scopes Analyzer.run Analysis.outcome
    rcases Analysis.statements m.tree.items (.ofModule m.name m.source) with ⟨_ | _, a⟩ <;> rfl
  rw [hrun, (Analysis.replays_statement.2 m.tree.items).outcome_eq (.ofModule m.name m.source)]
  show _ = ((Analyzer.ofModule m.name m.source).follow (Event.ofStatements m.tree.items)).map _
  cases (Analyzer.ofModule m.name m.source).follow (Event.ofStatements m.tree.items) <;> rfl

/-- What the analysis of a module comes to stands among its tokens. -/
theorem ParsedModule.ReadFrom.located {w tail : List Token} (h : m.ReadFrom w tail) :
    (∀ t, m.scopes = .ok t → t.Located w) ∧
      ∀ fault, m.scopes = .error fault → m.source.Reports w fault := by
  obtain ⟨hok, herror⟩ := (Analyzer.WellFormed.ofModule m.name m.source).follow_located h.shows
    (.ofModule w m.name) (located_events h.spells h.worded (List.infix_refl w))
  rw [m.scopes_eq]
  refine ⟨fun t ht => ?_, fun fault hfault => herror fault (Except.map_eq_error.1 hfault)⟩
  cases hfollow : (Analyzer.ofModule m.name m.source).follow m.tree.events with
  | error fault => rw [hfollow] at ht; cases ht
  | ok b =>
    rw [hfollow] at ht
    cases ht
    exact hok b hfollow

theorem pinned_remoteFault (modules : List String) {r : RemoteRef} (h : source.Shows r.position) :
    Pinned source .linkRemote (remoteFault modules r) := by
  unfold remoteFault
  split <;> exact ⟨rfl, ⟨_, rfl, h⟩, nofun⟩

/-! ## All failures -/

theorem not_entryMissing (h : l.Discovers config.entryModule ms) (hne : ms ≠ [])
    (hlimit : ms.length ≤ config.maxModules) : ¬ config.EntryMissing l := by
  have hpos := List.length_pos_iff.2 hne
  have hhead : (ms.map (·.name)).head? = some config.entryModule := by
    rw [h.names_eq, List.head?_take, if_neg (Nat.ne_of_gt hpos), head?_discoveryOrder]
  obtain ⟨m, hm, hname⟩ := List.mem_map.1 (List.mem_of_head? hhead)
  rintro (hzero | ⟨fault, hfault⟩)
  · omega
  · cases hfault.symm.trans (hname ▸ (h.parses m hm).loads)

/-- The failure is one of a module that is at hand, and can be shown there. -/
def CompileFailure.Shown (l : Locator) (f : CompileFailure) : Prop :=
  ∃ source, f.source = some source ∧ l.load f.module none = .ok source ∧
    Pinned source f.phase f.fault

/-- The entry module is not there, or the failure can be shown. -/
def CompileFailure.Told (l : Locator) (config : CompileConfig) (f : CompileFailure) : Prop :=
  config.EntryMissing l ∧ (∃ problem, f = ⟨config.entryModule, .parse,
      .moduleLoad config.entryModule none problem, none⟩) ∨
    ¬ config.EntryMissing l ∧ f.Shown l

theorem told_loadFailure {name : String} {problem : LoadProblem}
    (hms : l.Discovers config.entryModule ms) (hlimit : ms.length ≤ config.maxModules)
    (hnext : next? config.entryModule ms = some name)
    (hentry : name = config.entryModule → ms = [] → config.EntryMissing l) :
    (loadFailure ms name problem).Told l config := by
  obtain ⟨offset, -, hattributed⟩ := attributed_loadFailure hnext problem
  unfold loadFailure
  rcases hfirst : firstImporter? ms name with _ | ⟨m, i⟩
  · rcases hattributed with ⟨_, _, hsome, -⟩ | ⟨hnil, rfl, -⟩
    · cases hfirst.symm.trans hsome
    · exact .inl ⟨hentry rfl hnil, problem, rfl⟩
  · obtain ⟨hm, hi, -⟩ := firstImporter?_eq_some hfirst
    have hparses := hms.parses m hm
    refine .inr ⟨not_entryMissing hms (List.ne_nil_of_mem hm) hlimit, m.source, rfl, hparses.loads,
      rfl, ⟨i.position, rfl, hparses.shows_directive hi⟩, nofun⟩

/-- A text that does not parse is at hand, and so is the entry module. -/
theorem told_unparsed {name : String} (hms : l.Discovers config.entryModule ms)
    (hlt : ms.length < config.maxModules) (hnext : next? config.entryModule ms = some name)
    (hload : l.load name none = .ok source) (hparse : l.parse source = .error fault) :
    CompileFailure.Told l config ⟨name, .parse, fault, some source⟩ := by
  refine .inr ⟨?_, source, rfl, hload, pinned_of_parse hparse⟩
  by_cases hnil : ms = []
  · subst hnil
    cases hnext
    rintro (hzero | ⟨fault, hfault⟩)
    · exact Nat.ne_of_gt hlt hzero
    · cases hload.symm.trans hfault
  · exact not_entryMissing hms hnil (Nat.le_of_lt hlt)

theorem told_parsed {phase : Phase} (hparsed : parseAll l config = .ok ms) (hm : m ∈ ms)
    (h : ∀ {w tail}, m.ReadFrom w tail → Pinned m.source phase fault) :
    CompileFailure.Told l config ⟨m.name, phase, fault, some m.source⟩ := by
  obtain ⟨ns, hns, hlimit, hends⟩ := parseAll_eq_iff.1 hparsed
  cases hends
  have hparses := hns.parses m hm
  obtain ⟨w, tail, hread⟩ := hparses.exists_readFrom
  exact .inr ⟨not_entryMissing hns (List.ne_nil_of_mem hm) hlimit, m.source, rfl, hparses.loads,
    h hread⟩

theorem told_of_firstFailure {p : Phase} (h : FirstFailure l config p f) : f.Told l config := by
  cases h with
  | parse hms hlimit hends =>
    cases hends with
    | overLimit hnext hlength =>
      exact told_loadFailure hms hlimit hnext fun _ hnil => .inl (by rw [← hlength, hnil]; rfl)
    | unloaded hnext _ hload =>
      exact told_loadFailure hms hlimit hnext fun hname _ => .inr ⟨_, hname ▸ hload⟩
    | unparsed hnext hlt hload hparse => exact told_unparsed hms hlt hnext hload hparse
  | analyze hparsed _ hfault =>
    exact told_parsed hparsed (by simp) fun hm => hm.pinned_of_reports (hm.located.2 _ hfault)
  | @linkLocal before after m t s i r hparsed _ _ ht hr =>
    refine told_parsed hparsed (by simp) fun hm => ⟨rfl, ⟨r.position, rfl, ?_⟩, nofun⟩
    have huse := (hm.located.1 t ht).localRefs s r (List.mem_of_getElem? hr.use)
    exact hm.shows_of_standsAt huse.standsAt
  | @linkRemote ms before after m t s i r hparsed hsplit _ _ _ ht hr =>
    refine told_parsed hparsed (by simp [hsplit]) fun hm => pinned_remoteFault _ ?_
    have huse := (hm.located.1 t ht).remoteRefs s r (List.mem_of_getElem? hr.use)
    exact hm.shows_of_standsAt huse.namedAt.standsAt

/-- A failure is of a kind that its phase allows, and can be shown in the source of the module it is
attributed to, unless the entry module is not there. -/
theorem compile_failure_shown (h : compile l config = .error f) :
    f.fault.phase? = some f.phase ∧
    -- an offset is one of the text of the module, and not inside a character
    (∀ offset, f.fault.offset? = some offset → ∃ source, f.source = some source ∧
      l.load f.module none = .ok source ∧ offset ≤ source.length ∧
      Text.Boundary offset source.chars) ∧
    (f.source = none ↔ config.EntryMissing l) ∧
    (f.diagnostic? = none ↔ config.EntryMissing l) ∧
    -- where a name stood first is told by file, line and column
    (∀ name offset first link, f.fault = .duplicateSymbol name offset first link →
      ∃ source p, f.source = some source ∧ source.position? first = some p ∧ link = p.link) := by
  have htold : f.Told l config := by
    rcases compile_cases l config with ⟨⟨table, htable⟩, -⟩ | ⟨g, hg, hfirst⟩
    · cases htable.symm.trans h
    · cases hg.symm.trans h
      exact told_of_firstFailure hfirst
  rcases htold with ⟨hmissing, problem, rfl⟩ | ⟨hthere, source, hsource, hload, hpinned⟩
  · exact ⟨rfl, nofun, iff_of_true rfl hmissing, iff_of_true rfl hmissing, nofun⟩
  · obtain ⟨offset, hoffset, hshows⟩ := hpinned.offset
    obtain ⟨p, hp⟩ := Option.isSome_iff_exists.1 hshows
    have hdiagnostic : f.diagnostic? = some ⟨p.link, f.fault.message, p.lineText, p.column⟩ := by
      simp [CompileFailure.diagnostic?, Diagnostic.of?, hsource, hoffset, hp]
    refine ⟨hpinned.phase, fun o ho => ?_, iff_of_false (by simp [hsource]) hthere,
      iff_of_false (by simp [hdiagnostic]) hthere, fun name o first link hfault => ?_⟩
    · cases ho.symm.trans hoffset
      have hboundary := (Source.position?_isSome_iff.1 hshows).2
      exact ⟨source, hsource, hload, hboundary.le, hboundary⟩
    · obtain ⟨q, hq, hlink⟩ := hpinned.first hfault
      exact ⟨source, q, hsource, hq, hlink⟩

/-- An imported module that declares a name twice, behind characters of more than one byte. -/
def declaredTwice : Locator :=
  ((({} : Buffers).addModule "main" "import \"lib\"\n").addModule "lib"
    "// ü\nvar x\nvar x\n").locator

theorem compile_failure_shown_declaredTwice :
    (∃ f, compile declaredTwice {} = .error f ∧ f.fault.phase? = some .analyze ∧
      f.diagnostic? ≠ none ∧ ∃ source p, f.source = some source ∧ source.position? 10 = some p ∧
        "lib.j:2:5" = p.link) ∧
    ∃ f, compile declaredTwice { entryModule := "other" } = .error f ∧ f.source = none ∧
      f.diagnostic? = none := by
  have htwice : (compile declaredTwice {}).map (fun _ => ()) = .error ⟨"lib", .analyze,
      .duplicateSymbol "x" 16 10 "lib.j:2:5", some ⟨[⟨"lib.j", "// ü\nvar x\nvar x\n"⟩]⟩⟩ := by
    decide +kernel
  have hother : (compile declaredTwice { entryModule := "other" }).map (fun _ => ()) =
      .error ⟨"other", .parse, .moduleLoad "other" none .notLocated, none⟩ := by
    decide +kernel
  have htwice := Except.map_eq_error.1 htwice
  have hother := Except.map_eq_error.1 hother
  have hthere : ¬ ({} : CompileConfig).EntryMissing declaredTwice := by
    rintro (hzero | ⟨fault, hfault⟩)
    · cases hzero
    · cases hfault
  have hmissing : ({ entryModule := "other" } : CompileConfig).EntryMissing declaredTwice :=
    .inr ⟨_, rfl⟩
  exact ⟨⟨_, htwice, (compile_failure_shown htwice).1,
    fun h => hthere ((compile_failure_shown htwice).2.2.2.1.1 h),
    (compile_failure_shown htwice).2.2.2.2 _ _ _ _ rfl⟩,
    _, hother, (compile_failure_shown hother).2.2.1.2 hmissing,
    (compile_failure_shown hother).2.2.2.1.2 hmissing⟩

end JayFrontEnd
