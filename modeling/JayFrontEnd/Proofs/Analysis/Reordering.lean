import JayFrontEnd.Proofs.Analysis.LexicalStructure
import JayFrontEnd.Proofs.Scope.Renumbering
import Mathlib.Logic.Equiv.Basic

/-!
# Declarations in another order

The scopes of a module are numbered as they come in its text, so those of a declaration make a block
of numbers. When the declarations are put in another order, the blocks change places as wholes, and
nothing else changes: `exists_reorders` finds the new numbers. So a name means the same wherever
its declaration stands, and a module links within itself in any order of its declarations.
-/

namespace JayFrontEnd

open Finding

/-! ## Blocks of numbers -/

/-- A scope found in a tree, with the scope around it, and its number. -/
abbrev NumberedScope := (ScopeId × Node) × ScopeId

namespace NumberedScope

def renumber (f : ScopeId → ScopeId) (x : NumberedScope) : NumberedScope :=
  ((f x.1.1, x.1.2), f x.2)

end NumberedScope

namespace Node

/-- The scopes found in some statements of scope `s`, numbered from `next` on. -/
def numbered (s next : ScopeId) (ns : List Node) : List NumberedScope :=
  (opened (recordAll s next ns)).zipIdx next

def scopeCount (ns : List Node) : Nat := ((ns.filter opensScope).flatMap scopes).length

variable {s next : ScopeId} {ns ms : List Node}

theorem length_opened (s next : ScopeId) (ns : List Node) :
    (opened (recordAll s next ns)).length = scopeCount ns := by
  rw [scopeCount, ← opened_record.2 s next ns, List.length_map]

theorem length_numbered : (numbered s next ns).length = scopeCount ns := by
  rw [numbered, List.length_zipIdx, length_opened]

theorem numbered_cons (s next : ScopeId) (n : Node) (ns : List Node) :
    numbered s next (n :: ns) = numbered s next [n] ++ numbered s (next + scopeCount [n]) ns := by
  have hone : ∀ k, recordAll s k [n] = record s k n := fun k => by
    rw [recordAll_cons, recordAll, List.append_nil]
  simp only [numbered, recordAll_cons, opened_append, List.zipIdx_append,
    ← length_opened s next [n], hone]

/-- Under numbers that keep the block together, what is found is the same. -/
theorem opened_renumber (f : ScopeId → ScopeId) :
    (∀ s next n, ∀ next', (∀ i < (opened (record s next n)).length, f (next + i) = next' + i) →
      opened (record (f s) next' n) = (opened (record s next n)).map (Prod.map f id)) ∧
    ∀ s next ns, ∀ next',
      (∀ i < (opened (recordAll s next ns)).length, f (next + i) = next' + i) →
      opened (recordAll (f s) next' ns) = (opened (recordAll s next ns)).map (Prod.map f id) := by
  refine record.mutual_induct _ _ (fun s next n ih next' hf => ?_) (fun s next next' hf => ?_)
    fun s next n ns ihn ihs next' hf => ?_
  · cases hn : n.opensScope with
    | false => simp [record_of_not_opensScope hn]
    | true =>
      simp only [record_of_opensScope hn, opened_append, opened_mentions, opened_cons_scope,
        List.nil_append, List.length_cons, List.map_cons] at hf ⊢
      have hnext : f next = next' := hf 0 (Nat.succ_pos _)
      have hinner := ih (next' + 1) fun i hi => by
        have hlater := hf (i + 1) (Nat.succ_lt_succ hi)
        rw [Nat.add_assoc next 1 i, Nat.add_comm 1 i, hlater]
        exact (Nat.add_right_comm next' 1 i).symm
      rw [hnext] at hinner
      rw [hinner]
      rfl
  · simp [recordAll, opened]
  · simp only [recordAll_cons, opened_append, List.length_append, List.map_append] at hf ⊢
    have hn := ihn next' fun i hi => hf i (Nat.lt_add_right _ hi)
    have hns := ihs (next' + (opened (record s next n)).length) fun i hi => by
      rw [Nat.add_assoc, hf _ (Nat.add_lt_add_left hi _), Nat.add_assoc]
    rw [hn, List.length_map, hns]

theorem numbered_renumber {f : ScopeId → ScopeId} {next' : ScopeId}
    (hf : ∀ i < scopeCount ns, f (next + i) = next' + i) :
    numbered (f s) next' ns = (numbered s next ns).map (NumberedScope.renumber f) := by
  have hopened := (opened_renumber f).2 s next ns next' fun i hi => hf i (length_opened .. ▸ hi)
  have hshift : ∀ {xs : List (ScopeId × Node)} {k k' : ScopeId},
      (∀ i < xs.length, f (k + i) = k' + i) → (xs.map (Prod.map f id)).zipIdx k' =
        (xs.zipIdx k).map (NumberedScope.renumber f) := by
    intro xs
    induction xs with
    | nil => exact fun _ => rfl
    | cons x xs ih =>
      intro k k' hk
      have hhere : f k = k' := hk 0 (Nat.succ_pos _)
      have hrest := @ih (k + 1) (k' + 1) fun i hi => by
        rw [Nat.add_assoc, Nat.add_comm 1 i, hk (i + 1) (Nat.succ_lt_succ hi)]
        exact (Nat.add_right_comm k' 1 i).symm
      rw [List.map_cons, List.zipIdx_cons, List.zipIdx_cons, List.map_cons, hrest, ← hhere]
      rfl
  rw [numbered, hopened, hshift fun i hi => hf i (length_opened .. ▸ hi)]
  rfl

/-- The new numbers of two blocks that change places, of `m` and `n` numbers from `b` on. -/
def exchange (b m n i : Nat) : Nat :=
  if i < b ∨ b + m + n ≤ i then i else if i < b + m then i + n else i - m

theorem exchange_exchange (b m n i : Nat) : exchange b n m (exchange b m n i) = i := by
  unfold exchange
  split
  · next h => rw [if_pos (by omega)]
  · split
    · rw [if_neg (by omega), if_neg (by omega)]
      omega
    · rw [if_neg (by omega), if_pos (by omega)]
      omega

theorem exchange_first {b m n i : Nat} (hi : i < m) : exchange b m n (b + i) = b + n + i := by
  rw [exchange, if_neg (by omega), if_pos (by omega)]
  omega

theorem exchange_second {b m n i : Nat} (hi : i < n) : exchange b m n (b + m + i) = b + i := by
  rw [exchange, if_neg (by omega), if_neg (by omega)]
  omega

def exchanged (b m n : Nat) : Equiv.Perm ScopeId where
  toFun := exchange b m n
  invFun := exchange b n m
  left_inv := exchange_exchange b m n
  right_inv := exchange_exchange b n m

/-- Under new numbers, from `next` on, the scopes of some statements are those of the others. -/
structure Reorders (s next : ScopeId) (ns ms : List Node) (σ : Equiv.Perm ScopeId) : Prop where
  fixed : ∀ i, i < next ∨ next + scopeCount ns ≤ i → σ i = i
  found : (numbered s next ms).Perm ((numbered s next ns).map (NumberedScope.renumber σ))

theorem Reorders.scopeCount_eq {σ : Equiv.Perm ScopeId} (h : Reorders s next ns ms σ) :
    scopeCount ms = scopeCount ns := by
  have hlength := h.found.length_eq
  rwa [List.length_map, length_numbered, length_numbered] at hlength

theorem scopeCount_cons (n : Node) (ns : List Node) :
    scopeCount (n :: ns) = scopeCount [n] + scopeCount ns := by
  have hlength := congrArg List.length (numbered_cons 0 0 n ns)
  rwa [List.length_append, length_numbered, length_numbered, length_numbered] at hlength

/-- Statements in another order have the same scopes under new numbers. The induction is on the
order; what it does to a scope around that is not among them is nothing. -/
theorem exists_reorders (h : ns.Perm ms) (hs : s < next) : ∃ σ, Reorders s next ns ms σ := by
  induction h generalizing next with
  | nil => exact ⟨.refl _, fun _ _ => rfl, by simp [numbered, recordAll, opened]⟩
  | @cons n ns ms _ ih =>
    obtain ⟨σ, hσ⟩ := ih (Nat.lt_add_right (scopeCount [n]) hs)
    have hsame : numbered s next [n] = (numbered s next [n]).map (NumberedScope.renumber σ) := by
      have hrenumber := @numbered_renumber s next [n] σ next fun i hi =>
        hσ.fixed _ (.inl (Nat.add_lt_add_left hi next))
      rwa [hσ.fixed s (.inl (Nat.lt_add_right _ hs))] at hrenumber
    refine ⟨σ, fun i hi => hσ.fixed i ?_, ?_⟩
    · rw [scopeCount_cons] at hi
      exact hi.imp (Nat.lt_add_right _) (Nat.add_assoc next _ _ ▸ ·)
    · rw [numbered_cons, numbered_cons s next n ns, List.map_append, ← hsame]
      exact hσ.found.append_left _
  | swap m n ns =>
    let σ := exchanged next (scopeCount [n]) (scopeCount [m])
    have hfixed : ∀ i, i < next ∨ next + scopeCount [n] + scopeCount [m] ≤ i → σ i = i :=
      fun i hi => if_pos hi
    have hscope : σ s = s := hfixed s (.inl hs)
    have hn := @numbered_renumber s next [n] σ (next + scopeCount [m]) fun i => exchange_first
    have hm := @numbered_renumber s (next + scopeCount [n]) [m] σ next fun i => exchange_second
    have hns := @numbered_renumber s (next + scopeCount [n] + scopeCount [m]) ns σ
      (next + scopeCount [m] + scopeCount [n]) fun i _ => by
        rw [hfixed _ (.inr (Nat.le_add_right ..)), Nat.add_right_comm next]
    rw [hscope] at hn hm hns
    refine ⟨σ, fun i hi => hfixed i ?_, ?_⟩
    · rw [scopeCount_cons, scopeCount_cons m, ← Nat.add_assoc, ← Nat.add_assoc] at hi
      exact hi.imp_right (Nat.le_trans (Nat.le_add_right ..))
    · rw [numbered_cons s next m (n :: ns), numbered_cons s (next + scopeCount [m]) n ns,
        numbered_cons s next n (m :: ns), numbered_cons s (next + scopeCount [n]) m ns,
        List.map_append, List.map_append, ← hn, ← hm, ← hns]
      exact List.perm_append_comm_assoc ..
  | @trans ns ms ls _ _ ih ih' =>
    obtain ⟨σ, hσ⟩ := ih hs
    obtain ⟨τ, hτ⟩ := ih' hs
    refine ⟨σ.trans τ, fun i hi => ?_, ?_⟩
    · show τ (σ i) = i
      rw [hσ.fixed i hi, hτ.fixed i (hσ.scopeCount_eq.symm ▸ hi)]
    · refine hτ.found.trans ?_
      have hmap := hσ.found.map (NumberedScope.renumber τ)
      rwa [List.map_map] at hmap

/-! ## Modules -/

/-- A name is mentioned in the scope of a number. -/
def MentionsIn (tree : Node) (s : ScopeId) (m : Mention) : Prop :=
  ∃ n, tree.scopes[s]? = some n ∧ m ∈ n.scopeMentions

/-- The scopes of one module are those of the other under new numbers, apart from the modules
themselves. -/
structure SameScopes (σ : Equiv.Perm ScopeId) (tree tree' : Node) : Prop where
  root : σ ScopeTree.root = ScopeTree.root
  scopes : ∀ {s}, s ≠ ScopeTree.root → tree'.scopes[σ s]? = tree.scopes[s]?

variable {tree tree' : Node} {σ : Equiv.Perm ScopeId}

theorem Reorders.root (h : Reorders ScopeTree.root 1 ns ms σ) :
    σ ScopeTree.root = ScopeTree.root :=
  h.fixed _ (.inl Nat.zero_lt_one)

/-- What is found in the one module is found in the other, in the scope around it. -/
theorem Reorders.frames (h : Reorders ScopeTree.root 1 tree.items tree'.items σ) {s : ScopeId}
    (hs : s ≠ ScopeTree.root) : (ScopeTree.framesOf tree')[σ s]? =
      ((ScopeTree.framesOf tree)[s]?).map fun f => (f.1.map σ, f.2) := by
  have hσ : σ s ≠ ScopeTree.root := fun hroot => hs (σ.injective (hroot.trans h.root.symm))
  have hframes : ∀ {m : Node} {r : ScopeId}, r ≠ ScopeTree.root → (ScopeTree.framesOf m)[r]? =
      ((opened m.moduleRecord)[r - 1]?).map fun f => (some f.1, f.2) := by
    intro m r hr
    rw [ScopeTree.framesOf, List.getElem?_cons, if_neg (show ¬r = 0 from hr),
      List.getElem?_map]
  have hnumbered : ∀ {m : Node} {r : ScopeId} {x : ScopeId × Node}, r ≠ ScopeTree.root →
      ((opened m.moduleRecord)[r - 1]? = some x ↔
        (x, r) ∈ Node.numbered ScopeTree.root 1 m.items) := by
    intro m r x hr
    rw [Node.numbered, List.mk_mem_zipIdx_iff_le_and_getElem?_sub]
    exact (and_iff_right (Nat.pos_of_ne_zero hr)).symm
  have hfound : (opened tree'.moduleRecord)[σ s - 1]? =
      ((opened tree.moduleRecord)[s - 1]?).map (Prod.map σ id) := by
    refine Option.ext fun x => ?_
    rw [hnumbered hσ, h.found.mem_iff, Option.map_eq_some_iff]
    constructor
    · intro hx
      obtain ⟨⟨y, r⟩, hy, heq⟩ := List.mem_map.1 hx
      obtain ⟨rfl, hr⟩ := Prod.mk.inj heq
      obtain rfl := σ.injective hr
      exact ⟨y, (hnumbered hs).2 hy, rfl⟩
    · rintro ⟨y, hy, rfl⟩
      exact List.mem_map.2 ⟨(y, s), (hnumbered hs).1 hy, rfl⟩
  rw [hframes hσ, hframes hs, hfound, Option.map_map, Option.map_map]
  rfl

theorem Reorders.sameScopes (h : Reorders ScopeTree.root 1 tree.items tree'.items σ)
    (ht : tree.IsModule) (ht' : tree'.IsModule) : SameScopes σ tree tree' where
  root := h.root
  scopes {s} hs := by
    rw [ScopeTree.scopes_framesOf ht, ScopeTree.scopes_framesOf ht', List.getElem?_map,
      List.getElem?_map, h.frames hs, Option.map_map]
    rfl

theorem SameScopes.mentionsIn_iff (h : SameScopes σ tree tree') (ht : tree.IsModule)
    (ht' : tree'.IsModule) (hitems : tree.items.Perm tree'.items) {s : ScopeId} {m : Mention} :
    tree'.MentionsIn (σ s) m ↔ tree.MentionsIn s m := by
  by_cases hs : s = ScopeTree.root
  · have hroot : ∀ {n : Node}, n.IsModule →
        (n.MentionsIn ScopeTree.root m ↔ m ∈ n.items.flatMap mentions) := by
      intro n hn
      rw [MentionsIn, n.scopes_eq, ScopeTree.root, List.getElem?_cons_zero]
      simp only [Option.some.injEq, exists_eq_left', scopeMentions, hn.parameters_eq, scopeBody,
        show n.opensScope = false from hn, Bool.false_eq_true, if_false, List.map_nil,
        List.nil_append]
    rw [hs, h.root, hroot ht, hroot ht']
    exact (hitems.flatMap_right mentions).mem_iff.symm
  · rw [MentionsIn, h.scopes hs]
    rfl

end Node

/-! ## Scope trees -/

namespace ScopeTree

variable {module : String} {tree tree' : Node} {t t' : ScopeTree} {s : ScopeId} {name : String}
  {σ : Equiv.Perm ScopeId}

theorem Shows.isSome_declared? (h : t.Shows module tree) : (t.declared? s name).isSome = true ↔
    ∃ m, tree.MentionsIn s m ∧ m.declaration?.map Prod.fst = some name := by
  cases hn : tree.scopes[s]? with
  | none =>
    have hs : t.scopes.length ≤ s := h.length ▸ List.getElem?_eq_none_iff.1 hn
    rw [declared?, scope?_eq_none hs]
    refine iff_of_false Bool.false_ne_true ?_
    rintro ⟨_, ⟨_, hn', -⟩, -⟩
    cases hn.symm.trans hn'
  | some n =>
    have hs := h.scopes hn
    have hnames : (t.symbols.filter (·.scope == s)).map Symbol.name =
        (n.scopeMentions.filterMap Mention.declaration?).map Prod.fst := by
      rw [← hs.symbols, List.map_map]
      rfl
    have hdeclared : (t.declared? s name).isSome = true ↔
        name ∈ (t.symbols.filter (·.scope == s)).map Symbol.name := by
      rw [Option.isSome_iff_exists, List.mem_map]
      constructor
      · rintro ⟨i, hi⟩
        obtain ⟨y, hy, hname, hscope⟩ := (hs.declared?_iff name i).1 hi
        exact ⟨y, List.mem_filter.2 ⟨List.mem_of_getElem? hy, beq_iff_eq.2 hscope⟩, hname⟩
      · rintro ⟨y, hy, hname⟩
        obtain ⟨hy, hscope⟩ := List.mem_filter.1 hy
        obtain ⟨i, hi⟩ := List.getElem?_of_mem hy
        exact ⟨i, (hs.declared?_iff name i).2 ⟨y, hi, hname, beq_iff_eq.1 hscope⟩⟩
    rw [hdeclared, hnames]
    simp [Node.MentionsIn, hn, List.map_filterMap]

theorem Shows.mem_names_iff (h : t.Shows module tree) :
    name ∈ (t.localRefs s).map LocalRef.name ↔
      ∃ m, tree.MentionsIn s m ∧ m.localRef?.map LocalRef.name = some name := by
  cases hn : tree.scopes[s]? with
  | none =>
    have hs : t.scopes.length ≤ s := h.length ▸ List.getElem?_eq_none_iff.1 hn
    rw [localRefs, scope?_eq_none hs]
    refine iff_of_false List.not_mem_nil ?_
    rintro ⟨_, ⟨_, hn', -⟩, -⟩
    cases hn.symm.trans hn'
  | some n =>
    have hnames : name ∈ (t.localRefs s).map LocalRef.name ↔
        name ∈ (n.scopeMentions.filterMap Mention.localRef?).map LocalRef.name := by
      rw [(h.scopes hn).localRefs]
      refine ⟨fun h => ((eraseDupsBy_sublist _ _).map _).subset h, fun h => ?_⟩
      obtain ⟨r, hr, rfl⟩ := List.mem_map.1 h
      obtain ⟨q, hq, hlike⟩ := exists_mem_eraseDupsBy LocalRef.same hr
      refine List.mem_map.2 ⟨q, hq, ?_⟩
      rcases hlike with rfl | hlike
      · rfl
      · exact (beq_iff_eq.1 hlike).symm
    rw [hnames]
    simp [Node.MentionsIn, hn, List.map_filterMap]

/-- What is recorded of the modules are the same scopes under new numbers. -/
theorem Renumbers.of_records (h : Node.Reorders root 1 tree.items tree'.items σ)
    (hitems : tree.items.Perm tree'.items) (hm : tree.IsModule) (hm' : tree'.IsModule)
    (ht : t.WellFormed) (ht' : t'.WellFormed)
    (hrecords : (ofModule module).Records module tree.moduleRecord t)
    (hrecords' : (ofModule module).Records module tree'.moduleRecord t') : t.Renumbers σ t' := by
  have hshows := shows_of_records ht hm hrecords
  have hshows' := shows_of_records ht' hm' hrecords'
  have hmentions : ∀ s m, tree'.MentionsIn (σ s) m ↔ tree.MentionsIn s m :=
    fun _ _ => (h.sameScopes hm hm').mentionsIn_iff hm hm' hitems
  refine ⟨fun s => ?_, fun s name => ?_, fun s name => ?_⟩
  · rw [parent?_of_records hm hrecords, parent?_of_records hm' hrecords']
    by_cases hs : s = root
    · rw [hs, h.root]
      rfl
    · rw [h.frames hs, Option.bind_map, Option.map_bind]
      rfl
  · rw [Bool.eq_iff_iff, hshows.isSome_declared?, hshows'.isSome_declared?]
    simp only [hmentions]
  · rw [hshows.mem_names_iff, hshows'.mem_names_iff]
    simp only [hmentions]

end ScopeTree

/-- A module links within itself in any order of its items or in none, and then a name means the
same in each of its scopes, whatever the order. -/
theorem linkLocal_of_reordered {hasModule? : Option (String → Bool)} {ts : List Token}
    {out : ParseOutput} {tree' : Node} {module : String} {source source' : Source}
    {a a' : Analyzer} (hparse : Jay.parse hasModule? ts = .ok out)
    (hkind : tree'.kind = out.tree.kind) (hitems : out.tree.items.Perm tree'.items)
    (hrun : (Analyzer.ofModule module source).run out.tree = (.ok (), a))
    (hrun' : (Analyzer.ofModule module source').run tree' = (.ok (), a')) :
    ((∃ u, a.scopes.linkLocal = (.ok (), u)) ↔ ∃ v, a'.scopes.linkLocal = (.ok (), v)) ∧
      a.scopes.Shows module out.tree ∧ a'.scopes.Shows module tree' ∧
      ∃ σ, out.tree.SameScopes σ tree' ∧ a.scopes.Renumbers σ a'.scopes ∧
        ∀ u v, a.scopes.linkLocal = (.ok (), u) → a'.scopes.linkLocal = (.ok (), v) →
          ScopeTree.ResolvesAlike σ u v := by
  obtain ⟨-, w, tail, -, hspells⟩ := Jay.parse_eq_ok hparse
  have hm := isModule_of_spells hspells
  have hm' : tree'.IsModule := by
    unfold Node.IsModule Node.opensScope at hm ⊢
    rwa [hkind]
  have hwf := wellFormed_of_run hrun
  have hwf' := wellFormed_of_run hrun'
  have hrecords := Analyzer.records_of_run hrun
  have hrecords' := Analyzer.records_of_run hrun'
  obtain ⟨σ, hσ⟩ := Node.exists_reorders hitems (show ScopeTree.root < 1 from Nat.zero_lt_one)
  have hrenumbers := ScopeTree.Renumbers.of_records hσ hitems hm hm' hwf hwf'
    hrecords hrecords'
  refine ⟨⟨hrenumbers.linkLocal_ok hwf hwf',
      hrenumbers.symm.linkLocal_ok hwf' hwf⟩,
    ScopeTree.shows_of_records hwf hm hrecords,
    ScopeTree.shows_of_records hwf' hm' hrecords', σ, hσ.sameScopes hm hm', hrenumbers,
    fun u v hu hv => ?_⟩
  exact hrenumbers.resolvesAlike (hwf.locallyLinked hu) (hwf'.locallyLinked hv)

/-- Functions that call each other before a variable that both use. -/
def mutualCallers : List Char :=
  "func f() \x7b\n  g(x)\n\x7d\nfunc g() \x7b\n  var y = x\n  f()\n\x7d\nvar x = 1\n".toList

theorem linkLocal_of_reordered_reverse : ∃ ts out a a' u v σ,
    lex TokenRule.jay mutualCallers = .ok ts ∧ Jay.parse none ts = .ok out ∧
    (Analyzer.ofModule "main" {}).run out.tree = (.ok (), a) ∧
    (Analyzer.ofModule "main" {}).run (.mk 0 "root" (.list out.tree.items.reverse)) =
      (.ok (), a') ∧
    a.scopes.linkLocal = (.ok (), u) ∧ a'.scopes.linkLocal = (.ok (), v) ∧
    a.scopes.scopes.length = 3 ∧ ScopeTree.ResolvesAlike σ u v := by
  have h : (do
      let ts ← lex TokenRule.jay mutualCallers
      let out ← Jay.parse none ts
      let answer := (Analyzer.ofModule "main" {}).run out.tree
      let answer' := (Analyzer.ofModule "main" {}).run (.mk 0 "root" (.list out.tree.items.reverse))
      answer.1
      answer'.1
      answer.2.scopes.linkLocal.1
      answer'.2.scopes.linkLocal.1
      pure (answer.2.scopes.scopes.length, out.tree.kind)) = Except.ok (3, "root") := by
    decide +kernel
  obtain ⟨ts, hlex, h⟩ := Except.bind_eq_ok.1 h
  obtain ⟨out, hparse, h⟩ := Except.bind_eq_ok.1 h
  obtain ⟨⟨⟩, hok, h⟩ := Except.bind_eq_ok.1 h
  obtain ⟨⟨⟩, hok', h⟩ := Except.bind_eq_ok.1 h
  obtain ⟨⟨⟩, hlink, h⟩ := Except.bind_eq_ok.1 h
  obtain ⟨⟨⟩, hlink', h⟩ := Except.bind_eq_ok.1 h
  obtain ⟨hlength, hkind⟩ := Prod.mk.inj (Except.ok.inj h)
  have hrun : (Analyzer.ofModule "main" {}).run out.tree = (.ok (), _) := Prod.ext hok rfl
  let tree' : Node := .mk 0 "root" (.list out.tree.items.reverse)
  have hkind' : tree'.kind = out.tree.kind := hkind.symm
  have hitems : out.tree.items.Perm tree'.items := (List.reverse_perm _).symm
  have hrun' : (Analyzer.ofModule "main" {}).run tree' = (.ok (), _) := Prod.ext hok' rfl
  obtain ⟨-, -, -, σ, -, -, hresolves⟩ :=
    linkLocal_of_reordered hparse hkind' hitems hrun hrun'
  exact ⟨ts, out, _, _, _, _, σ, hlex, hparse, hrun, hrun', Prod.ext hlink rfl,
    Prod.ext hlink' rfl, hlength, hresolves _ _ (Prod.ext hlink rfl) (Prod.ext hlink' rfl)⟩

end JayFrontEnd
