import JayFrontEnd.Proofs.Analysis.DepthFirst
import JayFrontEnd.Proofs.Analysis.Record
import JayFrontEnd.Proofs.Analysis.SourceOrder
import JayFrontEnd.Proofs.Grammar.Imports
import JayFrontEnd.Proofs.Program.Compile

/-!
# The scope tree of a module

What an analysis leaves is the lexical structure of the module. Its scopes are those of the syntax
tree, numbered as they come in the text, and each has the names that are declared and used in it.
Of a text's tree, they and their names stand in the order of the text.
-/

namespace JayFrontEnd

open Finding

/-! ## Lists -/

theorem filterMap_sublist_filterMap {α β : Type} {f g : α → Option β}
    (h : ∀ {x y}, f x = some y → g x = some y) (xs : List α) :
    (xs.filterMap f).Sublist (xs.filterMap g) := by
  induction xs with
  | nil => exact .slnil
  | cons x xs ih =>
    cases hf : f x with
    | none =>
      rw [List.filterMap_cons_none hf]
      cases hg : g x with
      | none => rwa [List.filterMap_cons_none hg]
      | some y =>
        rw [List.filterMap_cons_some hg]
        exact .cons y ih
    | some y =>
      rw [List.filterMap_cons_some hf, List.filterMap_cons_some (h hf)]
      exact .cons_cons y ih

/-- The elements at the indices whose elements pass a test are those that pass it. -/
theorem map_filter_range {α : Type} (xs : List α) (p : α → Bool) :
    ((List.range xs.length).filter fun i => xs[i]?.any p).map (xs[·]?) =
      (xs.filter p).map some := by
  have hall : (List.range xs.length).map (xs[·]?) = xs.map some := by
    refine List.ext_getElem (by simp) fun i h h' => ?_
    simp only [List.length_map] at h'
    simp [h']
  have hmap := List.filter_map (f := (xs[·]?)) (p := Option.any p) (l := List.range xs.length)
  rw [hall, List.filter_map] at hmap
  exact hmap.symm

theorem filter_found {β : Type} (g : Mention ⊕ Node → Option β) (s : ScopeId)
    (fs : List Finding) :
    ((fs.filterMap fun f => (g f.2).map (f.1, ·)).filter (·.1 == s)).map (·.2) =
      (within s fs).filterMap g := by
  induction fs with
  | nil => rfl
  | cons f fs ih =>
    have hwithin : within s (f :: fs) = (if f.1 = s then [f.2] else []) ++ within s fs := by
      unfold within
      by_cases hs : f.1 = s <;> simp [hs]
    rw [hwithin, List.filterMap_append, ← ih]
    cases hg : g f.2 with
    | none =>
      rw [List.filterMap_cons_none (by rw [hg]; rfl)]
      split <;> simp [hg]
    | some y =>
      rw [List.filterMap_cons_some (by rw [hg]; rfl)]
      by_cases hs : f.1 = s <;> simp [hs, hg]

/-! ## The scopes of a module -/

namespace ScopeTree

/-- The scope of a number is the one of a module, function or block in a module's tree. -/
structure ShowsScope (t : ScopeTree) (module : String) (tree : Node) (s : ScopeId) (n : Node) :
    Prop where
  head : (t.scope? s).map (fun x => (x.name, x.kind)) = some (n.scopeHead module)
  /-- The scopes in it are those of the functions and blocks in it. -/
  children : (t.children s).map (tree.scopes[·]?) = n.innerScopes.map some
  symbols : (t.symbols.filter (·.scope == s)).map (fun y => (y.name, y.position)) =
    n.scopeMentions.filterMap Mention.declaration?
  /-- No name is declared twice, and each has its symbol. -/
  nodup : ((t.symbols.filter (·.scope == s)).map Symbol.name).Nodup
  declared?_iff : ∀ name i, t.declared? s name = some i ↔
    ∃ y, t.symbol? i = some y ∧ y.name = name ∧ y.scope = s
  /-- Of the uses of a name, the first one is kept. -/
  localRefs : t.localRefs s =
    (n.scopeMentions.filterMap Mention.localRef?).eraseDupsBy LocalRef.same
  remoteRefs : t.remoteRefs s =
    (n.scopeMentions.filterMap Mention.remoteRef?).eraseDupsBy RemoteRef.same

/-- The scopes are those of the tree of a module, numbered as they come there. -/
structure Shows (t : ScopeTree) (module : String) (tree : Node) : Prop where
  length : t.scopes.length = tree.scopes.length
  scopes : ∀ {s n}, tree.scopes[s]? = some n → t.ShowsScope module tree s n

theorem WellFormed.nodup_names {t : ScopeTree} (ht : t.WellFormed) (s : ScopeId) :
    ((t.symbols.filter (·.scope == s)).map Symbol.name).Nodup := by
  refine List.pairwise_map.2 (List.pairwise_filter.2 (List.pairwise_iff_getElem.2 ?_))
  intro i j hi hj hij hyi hyj hname
  have hsymbol : ∀ {k : Nat} (hk : k < t.symbols.length), (t.symbols[k].scope == s) = true →
      t.declared? s t.symbols[k].name = some k := fun hk h =>
    ht.declared?_iff.2 ⟨_, List.getElem?_eq_getElem hk, rfl, beq_iff_eq.1 h⟩
  have heq := (hsymbol hi hyi).symm.trans (hname ▸ hsymbol hj hyj)
  exact Nat.ne_of_lt hij (Option.some.inj heq)

section Shows

variable {t : ScopeTree} {module : String} {tree : Node}

theorem localRefs_ofModule (s : ScopeId) : (ScopeTree.ofModule module).localRefs s = [] := by
  cases s <;> rfl

theorem remoteRefs_ofModule (s : ScopeId) : (ScopeTree.ofModule module).remoteRefs s = [] := by
  cases s <;> rfl

/-- The scopes of a module with the scopes they are in. -/
def framesOf (tree : Node) : List (Option ScopeId × Node) :=
  (none, tree) :: (opened tree.moduleRecord).map fun f => (some f.1, f.2)

theorem scopes_framesOf (h : tree.IsModule) : tree.scopes = (framesOf tree).map (·.2) := by
  rw [h.scopes_eq, framesOf, List.map_cons, List.map_map]
  rfl

theorem scopeHead_of_isModule (h : tree.IsModule) : tree.scopeHead module = (module, .module) := by
  unfold Node.IsModule Node.opensScope at h
  unfold Node.scopeHead
  split <;> simp_all

theorem frames_of_records (hm : tree.IsModule)
    (h : (ScopeTree.ofModule module).Records module tree.moduleRecord t) :
    t.scopes.map Scope.frame = (framesOf tree).map fun f => (f.2.scopeHead module, f.1) := by
  rw [h.frames, framesOf, List.map_cons, List.map_map, scopeHead_of_isModule hm]
  rfl

theorem parent?_of_records (hm : tree.IsModule)
    (h : (ScopeTree.ofModule module).Records module tree.moduleRecord t) (r : ScopeId) :
    t.parent? r = (framesOf tree)[r]?.bind (·.1) := by
  have hframe := congrArg (fun l => l[r]?.bind (·.2)) (frames_of_records hm h)
  simp only [List.getElem?_map, Option.bind_map] at hframe
  exact hframe

/-- The children of a scope have the numbers of the scopes that are in it. -/
theorem children_of_records (ht : t.WellFormed) (hm : tree.IsModule)
    (h : (ScopeTree.ofModule module).Records module tree.moduleRecord t) (s : ScopeId) :
    (t.children s).map (tree.scopes[·]?) =
      ((within s tree.moduleRecord).filterMap Sum.getRight?).map some := by
  have hparent := parent?_of_records hm h
  have hchildren : t.children s = (List.range (framesOf tree).length).filter fun r =>
      (framesOf tree)[r]?.any (·.1 == some s) := by
    refine List.Pairwise.eq_of_mem_iff (ht.children_sorted s) (List.pairwise_lt_range.filter _)
      fun r => ?_
    rw [ht.mem_children, hparent, List.mem_filter, List.mem_range]
    cases hf : (framesOf tree)[r]? with
    | none => simp
    | some f => simp [(List.getElem?_eq_some_iff.1 hf).1]
  have hinner : ((framesOf tree).filter (·.1 == some s)).map (·.2) =
      (within s tree.moduleRecord).filterMap Sum.getRight? := by
    rw [← filter_found, framesOf, List.filter_cons_of_neg (by simp), List.filter_map, List.map_map]
    refine congrArg (List.map _) (List.filter_congr fun f _ => ?_)
    simp [beq_eq_decide]
  have hscopes : ∀ r : ScopeId, tree.scopes[r]? = ((framesOf tree)[r]?).map (·.2) := fun r => by
    rw [scopes_framesOf hm, List.getElem?_map]
  have hmap := congrArg (List.map (Option.map (·.2)))
    (map_filter_range (framesOf tree) (·.1 == some s))
  rw [List.map_map, List.map_map] at hmap
  rw [hchildren, ← hinner, List.map_map]
  simp only [hscopes]
  exact hmap

theorem shows_of_records (ht : t.WellFormed) (hm : tree.IsModule)
    (h : (ScopeTree.ofModule module).Records module tree.moduleRecord t) : t.Shows module tree := by
  have hframes := frames_of_records hm h
  refine ⟨?_, fun {s n} hs => ?_⟩
  · simpa [scopes_framesOf hm] using congrArg List.length hframes
  have hwithin := hm.within_moduleRecord hs
  have hmentions : mentionsIn s tree.moduleRecord = n.scopeMentions := by
    rw [mentionsIn, hwithin, n.getLeft?_scopeFindings]
  refine ⟨?_, ?_, ?_, ht.nodup_names s, fun name i => ht.declared?_iff, ?_, ?_⟩
  · have hframe := congrArg (·[s]?) hframes
    rw [scopes_framesOf hm] at hs
    simp only [List.getElem?_map] at hframe hs
    obtain ⟨f, hf, rfl⟩ := Option.map_eq_some_iff.1 hs
    rw [hf] at hframe
    obtain ⟨x, hx, hframe⟩ := Option.map_eq_some_iff.1 hframe
    rw [ScopeTree.scope?, hx]
    exact congrArg (some ·.1) hframe
  · rw [children_of_records ht hm h, hwithin, n.getRight?_scopeFindings]
  · have hsites := congrArg (fun l => (l.filter (·.1 == s)).map (·.2)) h.symbols
    rw [← hmentions, mentionsIn, List.filterMap_filterMap, ← filter_found]
    rw [List.filter_map, List.map_map] at hsites
    exact hsites
  · rw [h.localRefs, hmentions, localRefs_ofModule, foldl_addNew_nil]
  · rw [h.remoteRefs, hmentions, remoteRefs_ofModule, foldl_addNew_nil]

end Shows

/-! ## The order of the text -/

/-- Walks go by number, and what is recorded stands in order. -/
structure InOrder (t : ScopeTree) (tree : Node) : Prop where
  walk : t.walk = List.range t.scopes.length
  scopes : (tree.scopes.tail.map Node.position).Pairwise (· < ·)
  symbols : (t.symbols.map Symbol.position).Pairwise (· < ·)
  localRefs : ∀ s, ((t.localRefs s).map LocalRef.position).Pairwise (· < ·)
  remoteRefs : ∀ s, ((t.remoteRefs s).map RemoteRef.position).Pairwise (· < ·)

section InOrder

variable {t : ScopeTree} {module : String} {fs : List Finding}

theorem declared_sublist (fs : List Finding) :
    ((declared fs).map (·.2.2)).Sublist (places fs) := by
  rw [declared, List.map_filterMap]
  refine filterMap_sublist_filterMap (fun {f p} h => ?_) fs
  obtain ⟨r, m | n⟩ := f
  · cases m <;> cases h
    rfl
  · cases h

/-- What is read off the mentions in one scope stands where they do. -/
theorem mentionsIn_sublist {β : Type} {g : Mention → Option β} {position : β → Nat}
    (hg : ∀ {m y}, g m = some y → position y = m.name.position) (s : ScopeId)
    (fs : List Finding) : (((mentionsIn s fs).filterMap g).map position).Sublist (places fs) := by
  rw [mentionsIn, within, List.filterMap_filterMap, List.filterMap_filterMap, List.map_filterMap]
  refine filterMap_sublist_filterMap (fun {f p} h => ?_) fs
  obtain ⟨y, hy, rfl⟩ := Option.map_eq_some_iff.1 h
  obtain ⟨x, hx, hx'⟩ := Option.bind_eq_some_iff.1 hy
  obtain ⟨m, hm, hgm⟩ := Option.bind_eq_some_iff.1 hx'
  split at hx
  · cases hx
    rw [hm, Option.map_some, hg hgm]
  · cases hx

theorem symbols_sorted (h : (ScopeTree.ofModule module).Records module fs t)
    (hfs : (places fs).Pairwise (· < ·)) : (t.symbols.map Symbol.position).Pairwise (· < ·) := by
  have hsites := congrArg (List.map (·.2.2)) h.symbols
  rw [List.map_map] at hsites
  have hpositions : t.symbols.map Symbol.position = (declared fs).map (·.2.2) := hsites
  rw [hpositions]
  exact hfs.sublist (declared_sublist fs)

theorem localRefs_sorted (h : (ScopeTree.ofModule module).Records module fs t)
    (hfs : (places fs).Pairwise (· < ·)) (s : ScopeId) :
    ((t.localRefs s).map LocalRef.position).Pairwise (· < ·) := by
  have hrefs : ∀ {m y}, Mention.localRef? m = some y → y.position = m.name.position := by
    intro m y hy
    cases m <;> cases hy
    rfl
  rw [h.localRefs, localRefs_ofModule, foldl_addNew_nil]
  refine hfs.sublist (.trans ((eraseDupsBy_sublist _ _).map _) ?_)
  exact mentionsIn_sublist hrefs s fs

theorem remoteRefs_sorted (h : (ScopeTree.ofModule module).Records module fs t)
    (hfs : (places fs).Pairwise (· < ·)) (s : ScopeId) :
    ((t.remoteRefs s).map RemoteRef.position).Pairwise (· < ·) := by
  have hrefs : ∀ {m y}, Mention.remoteRef? m = some y → y.position = m.name.position := by
    intro m y hy
    cases m <;> cases hy
    rfl
  rw [h.remoteRefs, remoteRefs_ofModule, foldl_addNew_nil]
  refine hfs.sublist (.trans ((eraseDupsBy_sublist _ _).map _) ?_)
  exact mentionsIn_sublist hrefs s fs

end InOrder

end ScopeTree

theorem isModule_of_spells {w : List Token} {tree : Node} (h : Spells .root w tree) :
    tree.IsModule := by
  cases h with
  | root => rfl
  | list hq => cases hq
  | operand hq => rcases hq with hq | hq <;> cases hq
  | operator _ _ _ hk => cases hk

/-- The marks of the tokens that a tree is read from are sorted. -/
theorem marks_sorted_of_lex_append {text : List Char} {w tail : List Token}
    (h : lex TokenRule.jay text = .ok (w ++ tail)) : (marks w).Pairwise (· < ·) := by
  have hsorted := marks_sorted_of_lex h
  rw [List.filter_append] at hsorted
  exact List.pairwise_map.2 (List.pairwise_append.1 hsorted).1

/-- When an analysis accepts the tree of a text, its scope tree shows it, in the order of the text.
The scopes are those of the module and of all functions and blocks in it. -/
theorem scopes_of_text {text : List Char} {ts : List Token} {hasModule? : Option (String → Bool)}
    {out : ParseOutput} {module : String} {source : Source} {a : Analyzer}
    (hlex : lex TokenRule.jay text = .ok ts) (hparse : Jay.parse hasModule? ts = .ok out)
    (hrun : (Analyzer.ofModule module source).run out.tree = (.ok (), a)) :
    a.scopes.Shows module out.tree ∧ a.scopes.InOrder out.tree ∧
      ∀ m : Node, m.opensScope = true → (m ∈ out.tree.scopes ↔ m.IsAmong out.tree.items) := by
  obtain ⟨-, w, tail, rfl, hspells⟩ := Jay.parse_eq_ok hparse
  have hmodule := isModule_of_spells hspells
  have ha := Analyzer.WellFormed.ofModule module source
  have hfollow := (Analyzer.run_eq_ok ha).1 hrun
  have hscopes := (ha.follow hfollow).wellFormed.scopes
  have hrecords := Analyzer.records_of_run hrun
  have hmarks := marks_sorted_of_lex_append hlex
  have hin : Node.StatementsIn w out.tree.items := inOrder_of_spells hspells
  have hplaces := hmarks.sublist (hin.places ScopeTree.root 1)
  refine ⟨ScopeTree.shows_of_records hscopes hmodule hrecords, ⟨?_, ?_, ?_, ?_, ?_⟩,
    fun m hm => hmodule.mem_scopes_iff hm⟩
  · exact ((Analyzer.DepthFirst.ofModule module source).follow hfollow).scopes.walk_eq hscopes
  · rw [hmodule.scopes_eq, List.tail_cons, Node.moduleRecord, Node.opened_record.2]
    exact hmarks.sublist hin.scopes
  · exact ScopeTree.symbols_sorted hrecords hplaces
  · exact ScopeTree.localRefs_sorted hrecords hplaces
  · exact ScopeTree.remoteRefs_sorted hrecords hplaces

/-- A function with a block in it, where a name is used twice. -/
def nested : List Char :=
  "var x = 1\nfunc f(p int) \x7b\n  x = p\n  \x7b\n    var y = m.g(x, x)\n  \x7d\n\x7d\n".toList

theorem scopes_of_text_nested : ∃ ts out a, lex TokenRule.jay nested = .ok ts ∧
    Jay.parse none ts = .ok out ∧ (Analyzer.ofModule "main" {}).run out.tree = (.ok (), a) ∧
    a.scopes.scopes.length = 3 ∧ a.scopes.Shows "main" out.tree ∧ a.scopes.InOrder out.tree := by
  have h : (do
      let ts ← lex TokenRule.jay nested
      let out ← Jay.parse none ts
      let answer := (Analyzer.ofModule "main" {}).run out.tree
      answer.1
      pure answer.2.scopes.scopes.length) = Except.ok 3 := by decide +kernel
  obtain ⟨ts, hlex, h⟩ := Except.bind_eq_ok.1 h
  obtain ⟨out, hparse, h⟩ := Except.bind_eq_ok.1 h
  obtain ⟨⟨⟩, hok, h⟩ := Except.bind_eq_ok.1 h
  have hrun : (Analyzer.ofModule "main" {}).run out.tree = (.ok (), _) := Prod.ext hok rfl
  have hscopes := scopes_of_text hlex hparse hrun
  exact ⟨ts, out, _, hlex, hparse, hrun, Except.ok.inj h, hscopes.1, hscopes.2.1⟩

end JayFrontEnd
