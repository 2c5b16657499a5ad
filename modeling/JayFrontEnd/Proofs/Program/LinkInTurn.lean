import JayFrontEnd.Proofs.Program.FirstFailure
import JayFrontEnd.Proofs.Scope.Operation

/-!
# Linking modules one after the other

What linking a module to those of a table comes to, for one module and for all. `RemoteOutcome` says
it of one: what is found is a status for every use of another module's name, in linking order, and
applying it sets these statuses and nothing else; or linking fails at the first use of something
that the table does not have.

Of the table, linking looks at the names of the modules and at what they declare in their own
scopes, and of the module at no mark. Marking the uses of one module therefore makes no difference
to the others, and the modules of a table can be linked in any order, each of them marked before the
next is linked (`linkInTurn`): the table they leave is the one that compiling makes of it.
-/

namespace JayFrontEnd

open ScopeTree

/-! ## One module -/

def RemoteResolution.slot (x : RemoteResolution) : Slot := (x.scope, x.index)

namespace ScopeTree

variable {t u : ScopeTree} {table table' : ModuleTable} {rs : List RemoteResolution}

/-- What applying `rs` to `t` is to come to: every use of another module's name has the status of
being resolved to that module, and nothing else has changed. -/
structure AppliesTo (rs : List RemoteResolution) (t : ScopeTree) : Prop where
  marked : ∀ {s : ScopeId} {i : Nat} {r : RemoteRef}, (t.remoteRefs s)[i]? = some r →
    ((t.applyRemote rs).remoteRefs s)[i]? = some { r with status := .resolvedRemote r.module }
  rest : UseKind.remotes.unmarked (t.applyRemote rs) = UseKind.remotes.unmarked t

/-- The outcome of linking `t` to the modules of a table. -/
inductive RemoteOutcome (t : ScopeTree) (table : ModuleTable) :
    Except Fault (List RemoteResolution) → Prop where
  /-- What is found is in linking order, so that nothing is found twice, and has every use. -/
  | links {rs : List RemoteResolution} : rs.Pairwise (fun x y => t.Precedes x.slot y.slot) →
      (∀ x, x ∈ rs ↔ ∃ r, (t.remoteRefs x.scope)[x.index]? = some r ∧
        x.status = .resolvedRemote r.module) →
      AppliesTo rs t → RemoteOutcome t table (.ok rs)
  | stops {s : ScopeId} {i : Nat} {r : RemoteRef} :
      t.FirstUse t.remoteRefs (fun _ r => ¬ table.Exports r.module r.name) s i r →
      RemoteOutcome t table (.error (remoteFault table.names r))

section Outcome

variable (ht : t.WellFormed)
include ht

theorem WellFormed.appliesTo (h : t.linkRemote table = .ok rs) : AppliesTo rs t where
  marked {s i r} hr := by
    have hmarks : rs.map (fun x => (x.scope, x.index, x.status)) =
        t.remoteUses.map fun use => (use.1, use.2.1, .resolvedRemote use.2.2.module) := by
      rw [eq_of_linkRemote h, List.map_map]
      rfl
    have hnodup : ((rs.map fun x => (x.scope, x.index, x.status)).map slotOf).Nodup := by
      rw [hmarks, List.map_map]
      exact ht.nodup_slots t.remoteRefs
    have hmem : (s, i, RefStatus.resolvedRemote r.module) ∈
        rs.map fun x => (x.scope, x.index, x.status) := by
      rw [hmarks]
      exact List.mem_map.2 ⟨(s, i, r), ht.mem_remoteUses_iff.2 hr, rfl⟩
    rw [applyRemote_eq_marked]
    exact (UseKind.remotes.getElem?_marked_of_mem hnodup hmem).trans (congrArg (Option.map _) hr)
  rest := t.unmarked_applyRemote rs

theorem WellFormed.remoteOutcome (table : ModuleTable) :
    t.RemoteOutcome table (t.linkRemote table) := by
  rcases linkRemote_cases ht table with ⟨⟨rs, hrs⟩, -⟩ | ⟨s, i, r, hfirst, herr⟩
  · rw [hrs]
    refine .links ?_ (fun x => ?_) (ht.appliesTo hrs)
    · rw [eq_of_linkRemote hrs, List.pairwise_map]
      exact ht.uses_sorted t.remoteRefs
    · rw [eq_of_linkRemote hrs, List.mem_map]
      constructor
      · rintro ⟨⟨s, i, r⟩, hr, rfl⟩
        exact ⟨r, ht.mem_remoteUses_iff.1 hr, rfl⟩
      · obtain ⟨s, i, status⟩ := x
        rintro ⟨r, hr, rfl⟩
        exact ⟨(s, i, r), ht.mem_remoteUses_iff.2 hr, rfl⟩
  · rw [herr]
    exact .stops hfirst

theorem WellFormed.exists_linkRemote_iff (table : ModuleTable) :
    (∃ rs, t.linkRemote table = .ok rs) ↔
      ∀ s, ∀ r ∈ t.remoteRefs s, table.Exports r.module r.name := by
  rcases linkRemote_cases ht table with ⟨hok, hall⟩ | ⟨s, i, r, hfirst, herr⟩
  · exact iff_of_true hok hall
  · refine iff_of_false (fun ⟨rs, hrs⟩ => ?_) fun hall => ?_
    · cases hrs.symm.trans herr
    · exact hfirst.is_wrong (hall s r (List.mem_of_getElem? hfirst.use))

end Outcome

end ScopeTree

/-! ## What linking looks at -/

namespace ModuleTable

variable {t u : ModuleTable}

/-- The tables have modules of the same names, which declare the same names in their own scopes. -/
structure LooksLike (t u : ModuleTable) : Prop where
  names : ∀ name, name ∈ u.names ↔ name ∈ t.names
  exports : ∀ module name, u.Exports module name ↔ t.Exports module name

theorem LooksLike.resolve (h : t.LooksLike u) (r : RemoteRef) : u.resolve r = t.resolve r := by
  have hfault : remoteFault u.names r = remoteFault t.names r := by
    simp only [remoteFault, h.names]
  rcases resolve_cases t r with ⟨⟨st, hst⟩, hexports⟩ | ⟨hnot, herr⟩
  · rw [hst, resolve_eq_ok.2 ⟨(resolve_eq_ok.1 hst).1, (h.exports ..).2 hexports⟩]
  · rcases resolve_cases u r with ⟨-, hexports⟩ | ⟨-, herr'⟩
    · exact absurd ((h.exports ..).1 hexports) hnot
    · rw [herr, herr', hfault]

end ModuleTable

namespace ScopeTree

variable {t u : ScopeTree} {table table' : ModuleTable}

/-- Linking to the others, without looking at marks. -/
theorem linkRemote_eq (t : ScopeTree) (table : ModuleTable) : t.linkRemote table =
    (t.remoteUses.map fun use => (use.1, use.2.1, UseKind.remotes.reset use.2.2)).mapM
      (fun use => do pure ⟨use.1, use.2.1, ← table.resolve use.2.2⟩) := by
  rw [List.mapM_map]
  rfl

/-- The trees are the same but for the marks on their uses. -/
def SameButMarks (t u : ScopeTree) : Prop :=
  UseKind.locals.unmarked (UseKind.remotes.unmarked t) =
    UseKind.locals.unmarked (UseKind.remotes.unmarked u)

theorem linkRemote_of_looksLike (h : table.LooksLike table') (t : ScopeTree) :
    t.linkRemote table' = t.linkRemote table := by
  simp only [linkRemote, h.resolve]

theorem linkRemote_of_sameButMarks (h : t.SameButMarks u) (table : ModuleTable) :
    u.linkRemote table = t.linkRemote table := by
  have hsame : SameDeclarations t u :=
    ((UseKind.remotes.sameDeclarations_unmarked t).trans
      (UseKind.locals.sameDeclarations_of_unmarked h)).trans
        (UseKind.remotes.sameDeclarations_unmarked u).symm
  have hrefs : ∀ s, (t.remoteRefs s).map UseKind.remotes.reset =
      (u.remoteRefs s).map UseKind.remotes.reset := by
    intro s
    have hu := remoteRefs_of_unmarked h s
    exact (UseKind.remotes.refs_unmarked t s).symm.trans
      (hu.trans (UseKind.remotes.refs_unmarked u s))
  rw [linkRemote_eq, linkRemote_eq]
  exact congrArg (List.mapM _) (map_uses hsame.walk hrefs).symm

end ScopeTree

/-! ## All modules, one after the other -/

/-- The module with all its uses of other modules' names resolved. -/
def Module.resolveRemote (m : Module) : Module := { m with scopes := m.scopes.resolveRemote }

namespace ModuleTable

variable {t u : ModuleTable} {name : String} {names : List String} {f : CompileFailure}

/-- Links the module of a name to those of the table, and marks its uses at once. -/
def linkOne (t : ModuleTable) (name : String) : Except CompileFailure ModuleTable :=
  match t.get? name with
  | none => .ok t
  | some m => do
    let (name, rs) ← m.linkRemote t
    pure (t.modifyScopes name (·.applyRemote rs))

/-- Links the modules of these names one after the other, each to those of the table as it is by
then. -/
def linkInTurn (t : ModuleTable) (names : List String) : Except CompileFailure ModuleTable :=
  names.foldlM linkOne t

/-- Marking uses shows nowhere outside. -/
theorem looksLike_modifyScopes {g : ScopeTree → ScopeTree} (hg : ∀ t, SameDeclarations t (g t)) :
    t.LooksLike (t.modifyScopes name g) where
  names n := by rw [names_modifyScopes]
  exports module n := by
    simp only [Exports, get?_modifyScopes, Option.map_eq_some_iff]
    constructor
    · rintro ⟨_, ⟨m, hm, rfl⟩, hd⟩
      refine ⟨m, hm, ?_⟩
      split at hd
      · rwa [Module.scopes_mapScopes, (hg _).declared?] at hd
      · exact hd
    · rintro ⟨m, hm, hd⟩
      refine ⟨_, ⟨m, hm, rfl⟩, ?_⟩
      split
      · rwa [Module.scopes_mapScopes, (hg _).declared?]
      · exact hd

/-- Resolving the uses of one module makes no difference to whether the others link. -/
theorem links_modifyScopes (h : name ∉ names) :
    (∀ m ∈ (t.modifyScopes name (·.resolveRemote)).modules, m.name ∈ names →
      ∃ rs, m.scopes.linkRemote (t.modifyScopes name (·.resolveRemote)) = .ok rs) ↔
    ∀ m ∈ t.modules, m.name ∈ names → ∃ rs, m.scopes.linkRemote t = .ok rs := by
  have hlooks : t.LooksLike (t.modifyScopes name (·.resolveRemote)) :=
    looksLike_modifyScopes fun _ => .applyRemote ..
  simp only [linkRemote_of_looksLike hlooks, modules_modifyScopes]
  refine List.forall_mem_map.trans (forall₂_congr fun m _ => ?_)
  by_cases hm : m.name = name
  · simp only [Module.mapScopes, hm, if_true]
    exact iff_of_true (fun hmem => absurd hmem h) fun hmem => absurd hmem h
  · simp only [hm, if_false]

theorem mem_names {m : Module} (hm : m ∈ t.modules) : m.name ∈ t.names :=
  List.mem_map.2 ⟨m, hm, rfl⟩

/-- The table with the uses resolved in the modules of some names. -/
def resolveNamed (t : ModuleTable) (names : List String) : ModuleTable :=
  { t with
    modules := t.modules.map fun m => if m.name ∈ names then m.resolveRemote else m
    indexed := t.indexed.of_names (by
      rw [List.map_map]
      refine List.map_congr_left fun m _ => ?_
      rw [Function.comp_apply]
      split <;> rfl) }

theorem resolveNamed_nil (t : ModuleTable) : t.resolveNamed [] = t := by
  simp [resolveNamed]

theorem resolveNamed_cons (h : name ∉ names) :
    t.resolveNamed (name :: names) =
      (t.modifyScopes name (·.resolveRemote)).resolveNamed names := by
  refine ModuleTable.ext ?_ (index_modifyScopes t name _ :).symm
  simp only [resolveNamed, modules_modifyScopes, List.map_map]
  refine List.map_congr_left fun m _ => ?_
  simp only [Function.comp_apply, List.mem_cons]
  by_cases hm : m.name = name
  · subst hm
    simp only [eq_self, if_true, true_or, Module.mapScopes, if_neg h]
    rfl
  · simp only [hm, if_false, false_or]

theorem modules_resolveNamed_names (t : ModuleTable) :
    (t.resolveNamed t.names).modules = t.modules.map (·.resolveRemote) :=
  List.map_congr_left fun _ hm => if_pos (mem_names hm)

theorem linkRemote_eq_ok_iff {m : Module} {o : String × List RemoteResolution} :
    m.linkRemote t = .ok o ↔ o.1 = m.name ∧ m.scopes.linkRemote t = .ok o.2 := by
  obtain ⟨name, rs⟩ := o
  rw [m.linkRemote_eq]
  cases m.scopes.linkRemote t with
  | error fault => simp
  | ok rs' => simp [eq_comm]

theorem phase_of_linkRemote {m : Module} (h : m.linkRemote t = .error f) :
    f.phase = .linkRemote := by
  rw [m.linkRemote_eq] at h
  split at h
  · cases h
  · cases h
    rfl

/-- The step lemma: if a module links, its uses are resolved. -/
theorem linkOne_eq_ok {m : Module} (hm : m ∈ t.modules) : t.linkOne m.name = .ok u ↔
    (∃ rs, m.scopes.linkRemote t = .ok rs) ∧ u = t.modifyScopes m.name (·.resolveRemote) := by
  have hget : t.get? m.name = some m := get?_eq_some_iff.2 ⟨hm, rfl⟩
  have happly : ∀ {rs}, m.scopes.linkRemote t = .ok rs →
      t.modifyScopes m.name (·.applyRemote rs) = t.modifyScopes m.name (·.resolveRemote) := by
    intro rs hrs
    refine ModuleTable.ext ?_ (by rw [index_modifyScopes, index_modifyScopes])
    rw [modules_modifyScopes, modules_modifyScopes]
    refine List.map_congr_left fun n hn => ?_
    split
    · next hname =>
      obtain rfl := eq_of_name hn hm hname
      exact congrArg (fun v => { n with scopes := v }) (applyRemote_eq_resolveRemote hrs)
    · rfl
  unfold linkOne
  rw [hget]
  simp only [Except.bind_eq_ok, linkRemote_eq_ok_iff]
  constructor
  · rintro ⟨⟨_, rs⟩, ⟨rfl, hrs⟩, hu⟩
    cases hu
    exact ⟨⟨rs, hrs⟩, happly hrs⟩
  · rintro ⟨⟨rs, hrs⟩, rfl⟩
    exact ⟨(m.name, rs), ⟨rfl, hrs⟩, congrArg Except.ok (happly hrs)⟩

/-- The run lemma: linking in turn goes through if each of the modules links to those of the table
as it is at first, and resolves the uses of all of them. -/
theorem linkInTurn_eq_ok (hnames : names.Nodup) (hsub : names ⊆ t.names) :
    t.linkInTurn names = .ok u ↔
      (∀ m ∈ t.modules, m.name ∈ names → ∃ rs, m.scopes.linkRemote t = .ok rs) ∧
        u = t.resolveNamed names := by
  induction names generalizing t with
  | nil =>
    rw [resolveNamed_nil]
    refine ⟨fun h => ⟨fun _ _ hm => absurd hm List.not_mem_nil, ?_⟩, fun h => by rw [h.2]; rfl⟩
    cases h
    rfl
  | cons name names ih =>
    obtain ⟨hname, hnodup⟩ := List.nodup_cons.1 hnames
    obtain ⟨m, hm, rfl⟩ := List.mem_map.1 (hsub (List.mem_cons_self ..))
    have hsame := t.names_modifyScopes m.name (·.resolveRemote)
    have hsub' : names ⊆ (t.modifyScopes m.name (·.resolveRemote)).names := fun n hn =>
      hsame ▸ hsub (List.mem_cons_of_mem _ hn)
    have hrest := links_modifyScopes (t := t) hname
    rw [linkInTurn, List.foldlM_cons, Except.bind_eq_ok, resolveNamed_cons hname]
    simp only [linkOne_eq_ok hm]
    constructor
    · rintro ⟨_, ⟨hrs, rfl⟩, hu⟩
      obtain ⟨hall, hu⟩ := (ih hnodup hsub').1 hu
      refine ⟨fun k hk hmem => ?_, hu⟩
      rcases List.mem_cons.1 hmem with hkm | hmem
      · rwa [eq_of_name hk hm hkm]
      · exact hrest.1 hall k hk hmem
    · rintro ⟨hall, hu⟩
      refine ⟨_, ⟨hall m hm (List.mem_cons_self ..), rfl⟩,
        (ih hnodup hsub').2 ⟨hrest.2 fun k hk hmem => ?_, hu⟩⟩
      exact hall k hk (List.mem_cons_of_mem _ hmem)

theorem linkAll_eq_ok : t.linkAll = .ok u ↔
    (∀ m ∈ t.modules, ∃ rs, m.scopes.linkRemote t = .ok rs) ∧ u = t.resolveNamed t.names := by
  have hok : ∀ {u}, t.linkAll = .ok u →
      (∀ m ∈ t.modules, ∃ rs, m.scopes.linkRemote t = .ok rs) ∧ u = t.resolveNamed t.names := by
    intro u hu
    have hmodules := modules_of_linkAll hu
    refine ⟨fun m hm => ?_, ?_⟩
    · obtain ⟨_, -, rs, hrs, -⟩ := exists_of_mem_left hmodules hm
      exact ⟨rs, hrs⟩
    · refine ModuleTable.ext ?_ (index_of_linkAll hu :)
      rw [modules_resolveNamed_names, eq_comm, ← List.forall₂_eq_eq_eq, List.forall₂_map_left_iff]
      refine hmodules.imp ?_
      rintro m _ ⟨rs, hrs, rfl⟩
      rw [applyRemote_eq_resolveRemote hrs]
      rfl
  refine ⟨hok, fun ⟨hall, hu⟩ => ?_⟩
  have hexists : ∃ outcomes, t.modules.mapM (·.linkRemote t) = .ok outcomes := by
    refine Except.exists_mapM_eq_ok.2 fun m hm => ?_
    obtain ⟨rs, hrs⟩ := hall m hm
    exact ⟨(m.name, rs), linkRemote_eq_ok_iff.2 ⟨rfl, hrs⟩⟩
  obtain ⟨outcomes, houtcomes⟩ := hexists
  obtain ⟨v, hv⟩ : ∃ v, t.linkAll = .ok v := by
    rw [linkAll_eq, houtcomes]
    exact ⟨_, rfl⟩
  rw [hv, hu, (hok hv).2]

theorem phase_of_linkAll (h : t.linkAll = .error f) : f.phase = .linkRemote := by
  rw [linkAll_eq] at h
  cases hmodules : t.modules.mapM (·.linkRemote t) with
  | ok outcomes =>
    rw [hmodules] at h
    cases h
  | error f' =>
    rw [hmodules] at h
    cases h
    obtain ⟨_, m, _, -, -, herr⟩ := Except.mapM_eq_error.1 hmodules
    exact phase_of_linkRemote herr

theorem phase_of_linkOne (h : t.linkOne name = .error f) : f.phase = .linkRemote := by
  unfold linkOne at h
  split at h
  · cases h
  · next m _ =>
    cases hm : m.linkRemote t with
    | ok o =>
      rw [hm] at h
      cases h
    | error f' =>
      rw [hm] at h
      cases h
      exact phase_of_linkRemote hm

theorem phase_of_linkInTurn (h : t.linkInTurn names = .error f) : f.phase = .linkRemote := by
  induction names generalizing t with
  | nil => cases h
  | cons name names ih =>
    rw [linkInTurn, List.foldlM_cons] at h
    cases hone : t.linkOne name with
    | ok u =>
      rw [hone] at h
      exact ih h
    | error f' =>
      rw [hone] at h
      cases h
      exact phase_of_linkOne hone

end ModuleTable

/-! ## The whole -/

/-- What linking modules to each other comes to. A module links to those of a table if the table has
all that the module uses, and the outcome is as `RemoteOutcome` says. It hangs on no mark, and of
the table on nothing that is inside a module. So all modules of a table can be linked one after the
other, in any order, and the table is the one that linking all of them first would have made;
or both fail, in the same phase. -/
theorem linkRemote_outcome (ms : List Module) {t : ScopeTree} (ht : t.Built) :
    ((∃ rs, t.linkRemote (.ofList ms) = .ok rs) ↔
      ∀ s, ∀ r ∈ t.remoteRefs s, (ModuleTable.ofList ms).Exports r.module r.name) ∧
    t.RemoteOutcome (.ofList ms) (t.linkRemote (.ofList ms)) ∧
    (∀ u table, t.SameButMarks u → (ModuleTable.ofList ms).LooksLike table →
      u.linkRemote table = t.linkRemote (.ofList ms)) ∧
    ∀ names, names.Perm (ModuleTable.ofList ms).names →
      (∀ table, (ModuleTable.ofList ms).linkInTurn names = .ok table ↔
        (ModuleTable.ofList ms).linkAll = .ok table) ∧
      ∀ f, (ModuleTable.ofList ms).linkInTurn names = .error f ∨
        (ModuleTable.ofList ms).linkAll = .error f → f.phase = .linkRemote := by
  have hwf := ht.wellFormed
  have hnodup := (ModuleTable.ofList ms).nodup_names
  refine ⟨hwf.exists_linkRemote_iff _, hwf.remoteOutcome _, fun u table hu htable => ?_,
    fun names hnames => ⟨fun table => ?_, ?_⟩⟩
  · rw [linkRemote_of_looksLike htable, linkRemote_of_sameButMarks hu]
  · have hresolve : (ModuleTable.ofList ms).resolveNamed names =
        (ModuleTable.ofList ms).resolveNamed (ModuleTable.ofList ms).names := by
      simp only [ModuleTable.resolveNamed, hnames.mem_iff]
    rw [ModuleTable.linkInTurn_eq_ok (hnames.nodup_iff.2 hnodup) hnames.subset,
      ModuleTable.linkAll_eq_ok, hresolve]
    refine and_congr_left' (forall₂_congr fun m hm => ?_)
    exact forall_prop_of_true (hnames.mem_iff.2 (ModuleTable.mem_names hm))
  · rintro f (hf | hf)
    · exact ModuleTable.phase_of_linkInTurn hf
    · exact ModuleTable.phase_of_linkAll hf

/-- The scopes of a module that uses its own function and one of another module, in its function and
outside of it. -/
def mutualScopes : ScopeTree :=
  let t := ((ofModule "a").addChild root "f" .function).2
  let t := Operation.perform (.define root "f" (.function [] none) 5) t
  ((t.addRemoteRef 1 "a" "f" 10).addRemoteRef 1 "b" "g" 20).addRemoteRef root "b" "g" 30

theorem built_mutualScopes : mutualScopes.Built := by
  have h := (Built.ofModule "a").perform (.addChild root "f" .function) (by decide)
  replace h := h.perform (.define root "f" (.function [] none) 5) (by decide)
  replace h := h.perform (.addRemoteRef 1 "a" "f" 10) (by decide)
  replace h := h.perform (.addRemoteRef 1 "b" "g" 20) (by decide)
  exact h.perform (.addRemoteRef root "b" "g" 30) (by decide)

/-- That module, and the other one, which uses the function of the first. -/
def mutualModules : List Module :=
  let other := Operation.perform (.define root "g" (.function [] none) 5) (ofModule "b")
  let tree : Node := .mk 0 "" (.list [])
  [⟨"a", {}, tree, mutualScopes⟩, ⟨"b", {}, tree, other.addRemoteRef root "a" "f" 10⟩]

theorem linkRemote_outcome_mutual :
    mutualScopes.RemoteOutcome (.ofList mutualModules) (.ok [⟨root, 0, .resolvedRemote "b"⟩,
      ⟨1, 0, .resolvedRemote "a"⟩, ⟨1, 1, .resolvedRemote "b"⟩]) ∧
    ∃ table, (ModuleTable.ofList mutualModules).linkInTurn ["b", "a"] = .ok table ∧
      (ModuleTable.ofList mutualModules).linkAll = .ok table := by
  obtain ⟨-, houtcome, -, hturn⟩ := linkRemote_outcome mutualModules built_mutualScopes
  have hperm : ["b", "a"].Perm (ModuleTable.ofList mutualModules).names := by decide
  exact ⟨houtcome, _, rfl, ((hturn _ hperm).1 _).1 rfl⟩

end JayFrontEnd
