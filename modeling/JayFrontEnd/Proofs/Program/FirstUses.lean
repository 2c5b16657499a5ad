import JayFrontEnd.Proofs.Analysis.Record
import JayFrontEnd.Proofs.Program.LinkInTurn
import JayFrontEnd.Proofs.Scope.LinkOutcome

/-!
# Keeping the first use of a name

A scope keeps one use of each name, the first. `record` does so, and `recordFully` is the same
recording with every use kept. What comes of them differs in the uses alone, and there it is the
list of all uses against that of the first ones (`KeepsFirst`).

Whether a use can be resolved hangs on its scope and its name. So of all uses that cannot be, the
one that linking comes to first is the first of its name in its scope, and linking finds the same
fault in both trees, or none in both and then the same scope for every use.
-/

namespace JayFrontEnd

/-! ## The first of their like -/

section Firsts

variable {α : Type} {r : α → α → Bool} {xs ys : List α} {x : α} {i : Nat}

/-- A test that does not tell apart what is alike finds the first that passes it among the first of
their like. -/
theorem find?_eraseDupsBy {p : α → Bool} (hp : ∀ {x y}, r x y = true → p x = p y) (xs : List α) :
    (xs.eraseDupsBy r).find? p = xs.find? p := by
  have hfold : ∀ ys : List α, (xs.foldl (addNew r) ys).find? p = (ys ++ xs).find? p := by
    induction xs with
    | nil => simp
    | cons x xs ih =>
      intro ys
      rw [List.foldl_cons, ih, addNew]
      split
      · next hany =>
        obtain ⟨y, hy, hxy⟩ := List.any_eq_true.1 hany
        simp only [List.find?_append, List.find?_cons]
        cases hx : p x with
        | false => rfl
        | true =>
          have hfound : (ys.find? p).isSome := List.find?_isSome.2 ⟨y, hy, (hp hxy).symm.trans hx⟩
          obtain ⟨z, hz⟩ := Option.isSome_iff_exists.1 hfound
          rw [hz]
          rfl
      · rw [List.append_assoc, List.singleton_append]
  rw [← foldl_addNew_nil]
  exact hfold []

/-- The first for which something holds that is true of all its like comes first among the first of
their like as well. -/
theorem exists_first_eraseDupsBy {P : α → Prop} (hP : ∀ {x y}, r x y = true → (P x ↔ P y))
    (hi : xs[i]? = some x) (hx : P x)
    (hfirst : ∀ {j : Nat} {y : α}, xs[j]? = some y → P y → i ≤ j) :
    ∃ j, (xs.eraseDupsBy r)[j]? = some x ∧
      ∀ {k : Nat} {y : α}, (xs.eraseDupsBy r)[k]? = some y → P y → j ≤ k := by
  classical
  have hfind : xs.find? (fun y => decide (P y)) = some x := by
    obtain ⟨hlt, hget⟩ := List.getElem?_eq_some_iff.1 hi
    refine List.find?_eq_some_iff_getElem.2 ⟨decide_eq_true hx, i, hlt, hget, fun j hj => ?_⟩
    have hj' : xs[j]? = some xs[j] := List.getElem?_eq_getElem (Nat.lt_trans hj hlt)
    simpa using fun h => Nat.not_le_of_gt hj (hfirst hj' h)
  rw [← find?_eraseDupsBy (r := r) fun h => decide_eq_decide.2 (hP h)] at hfind
  obtain ⟨-, j, hj, hget, hbefore⟩ := List.find?_eq_some_iff_getElem.1 hfind
  refine ⟨j, List.getElem?_eq_some_iff.2 ⟨hj, hget⟩, fun {k y} hk hy => ?_⟩
  refine Nat.le_of_not_lt fun hlt => ?_
  obtain ⟨_, rfl⟩ := List.getElem?_eq_some_iff.1 hk
  simpa [hy] using hbefore k hlt

end Firsts

namespace ScopeTree

variable {t u full kept : ScopeTree} {s : ScopeId} {op : Operation} {ops : List Operation}
  {table : ModuleTable}

/-! ## Two ways to record -/

namespace Operation

/-- Whether an operation adds something to a tree; the others set marks. -/
def adds : Operation → Bool
  | addChild .. | define .. | addLocalRef .. | addRemoteRef .. => true
  | linkLocal | applyRemote _ => false

/-- The tree after an operation, if every use is kept. -/
def performFully : Operation → ScopeTree → ScopeTree
  | addLocalRef s name position, t =>
    t.modifyScope s fun x => { x with localRefs := x.localRefs ++ [{ name, position }] }
  | addRemoteRef s module name position, t =>
    t.modifyScope s fun x => { x with remoteRefs := x.remoteRefs ++ [{ module, name, position }] }
  | op, t => op.perform t

end Operation

def record (ops : List Operation) (t : ScopeTree) : ScopeTree :=
  ops.foldl (fun t op => op.perform t) t

def recordFully (ops : List Operation) (t : ScopeTree) : ScopeTree :=
  ops.foldl (fun t op => op.performFully t) t

/-- Each operation names scopes that the tree has by then. -/
def AllFit : List Operation → ScopeTree → Prop
  | [], _ => True
  | op :: ops, t => op.Fits t ∧ AllFit ops (op.perform t)

instance AllFit.decidable : ∀ (ops : List Operation) (t : ScopeTree), Decidable (AllFit ops t)
  | [], _ => isTrue trivial
  | op :: ops, t =>
    have := AllFit.decidable ops (op.perform t)
    inferInstanceAs (Decidable (op.Fits t ∧ AllFit ops (op.perform t)))

/-- The trees are the same but for their uses: of those in `full`, the first of each name is in
`kept`. -/
structure KeepsFirst (full kept : ScopeTree) : Prop where
  declarations : SameDeclarations full kept
  localRefs : ∀ s, kept.localRefs s = (full.localRefs s).eraseDupsBy LocalRef.same
  remoteRefs : ∀ s, kept.remoteRefs s = (full.remoteRefs s).eraseDupsBy RemoteRef.same

theorem SameDeclarations.addChild {p : ScopeId} (h : SameDeclarations t u)
    (hp : p < t.scopes.length) (name : String) (kind : ScopeKind) :
    SameDeclarations (t.addChild p name kind).2 (u.addChild p name kind).2 where
  length := by rw [length_addChild, length_addChild, h.length]
  parent? r := by rw [parent?_addChild, parent?_addChild, h.length, h.parent?]
  children r := by
    rw [children_addChild hp, children_addChild (h.length ▸ hp), h.length, h.children]
  declared? r n := by rw [declared?_addChild, declared?_addChild, h.declared?]
  symbols := h.symbols

theorem SameDeclarations.define (h : SameDeclarations t u) (hs : s < t.scopes.length)
    (name : String) (kind : SymbolKind) (position : Nat) :
    (∃ i, t.define s name kind position = .error i ∧ u.define s name kind position = .error i) ∨
      ∃ i t' u', t.define s name kind position = .ok (i, t') ∧
        u.define s name kind position = .ok (i, u') ∧ SameDeclarations t' u' := by
  cases ht : t.define s name kind position with
  | error i =>
    have hi := (h.declared? ..).trans (define_eq_error ht)
    exact .inl ⟨i, rfl, by rw [ScopeTree.define, hi]⟩
  | ok v =>
    obtain ⟨i, t'⟩ := v
    obtain ⟨hnone, hi, -⟩ := define_eq_ok ht
    obtain ⟨u', hu⟩ : ∃ u', u.define s name kind position = .ok (i, u') :=
      ⟨_, by rw [ScopeTree.define, (h.declared? ..).trans hnone, hi, h.symbols]⟩
    refine .inr ⟨i, t', u', rfl, hu, ⟨?_, fun r => ?_, fun r => ?_, fun r n => ?_, ?_⟩⟩
    · rw [length_of_define ht, length_of_define hu, h.length]
    · rw [parent?_of_define ht, parent?_of_define hu, h.parent?]
    · rw [children_of_define ht, children_of_define hu, h.children]
    · rw [declared?_of_define ht hs, declared?_of_define hu (h.length ▸ hs), h.symbols,
        h.declared?]
    · rw [symbols_of_define ht, symbols_of_define hu, h.symbols]

namespace KeepsFirst

theorem ofModule (module : String) :
    KeepsFirst (ScopeTree.ofModule module) (ScopeTree.ofModule module) where
  declarations := .refl _
  localRefs s := by rcases s with _ | s <;> rfl
  remoteRefs s := by rcases s with _ | s <;> rfl

theorem addChild (h : KeepsFirst full kept) {p : ScopeId} (hp : p < full.scopes.length)
    (name : String) (kind : ScopeKind) :
    KeepsFirst (full.addChild p name kind).2 (kept.addChild p name kind).2 where
  declarations := h.declarations.addChild hp name kind
  localRefs r := localRefs_addChild.trans ((h.localRefs r).trans
    (congrArg (List.eraseDupsBy _) localRefs_addChild.symm))
  remoteRefs r := remoteRefs_addChild.trans ((h.remoteRefs r).trans
    (congrArg (List.eraseDupsBy _) remoteRefs_addChild.symm))

theorem define (h : KeepsFirst full kept) {s : ScopeId} (hs : s < full.scopes.length)
    (name : String) (kind : SymbolKind) (position : Nat) :
    KeepsFirst ((Operation.define s name kind position).perform full)
      ((Operation.define s name kind position).perform kept) := by
  rcases h.declarations.define hs name kind position with
    ⟨i, hfull, hkept⟩ | ⟨i, t', u', hfull, hkept, hsame⟩
  · simpa only [Operation.perform, hfull, hkept] using h
  · simp only [Operation.perform, hfull, hkept]
    refine ⟨hsame, fun r => ?_, fun r => ?_⟩
    · rw [localRefs_of_define hkept, localRefs_of_define hfull, h.localRefs]
    · rw [remoteRefs_of_define hkept, remoteRefs_of_define hfull, h.remoteRefs]

theorem addLocalRef (h : KeepsFirst full kept) {s : ScopeId} (hs : s < full.scopes.length)
    (name : String) (position : Nat) :
    KeepsFirst ((Operation.addLocalRef s name position).performFully full)
      (kept.addLocalRef s name position) := by
  have hall : SameDeclarations full ((Operation.addLocalRef s name position).performFully full) :=
    .modifyScope (fun _ => rfl) (fun _ => rfl) fun _ => rfl
  refine ⟨hall.symm.trans (h.declarations.trans (.addLocalRef ..)), fun r => ?_, fun r => ?_⟩
  · simp only [Operation.performFully]
    rw [localRefs_addLocalRef (h.declarations.length ▸ hs), h.localRefs, h.localRefs,
      localRefs_modifyScope_uses (g := (· ++ [LocalRef.mk name position .pending]))
        fun hle => absurd hs (Nat.not_lt_of_le hle)]
    by_cases hr : s = r
    · subst hr
      simp only [true_and, if_true, eraseDupsBy_concat, addNew_eq, LocalRef.same, beq_iff_eq,
        ne_eq, eq_comm (a := name)]
    · rw [if_neg fun hc => hr hc.1, if_neg hr]
  · simp only [Operation.performFully]
    rw [remoteRefs_addLocalRef, h.remoteRefs]
    refine congrArg (List.eraseDupsBy _) (Eq.symm ?_)
    exact remoteRefs_modifyScope fun _ => rfl

theorem addRemoteRef (h : KeepsFirst full kept) {s : ScopeId} (hs : s < full.scopes.length)
    (module name : String) (position : Nat) :
    KeepsFirst ((Operation.addRemoteRef s module name position).performFully full)
      (kept.addRemoteRef s module name position) := by
  have hall : SameDeclarations full
      ((Operation.addRemoteRef s module name position).performFully full) :=
    .modifyScope (fun _ => rfl) (fun _ => rfl) fun _ => rfl
  refine ⟨hall.symm.trans (h.declarations.trans (.addRemoteRef ..)), fun r => ?_, fun r => ?_⟩
  · simp only [Operation.performFully]
    rw [localRefs_addRemoteRef, h.localRefs]
    refine congrArg (List.eraseDupsBy _) (Eq.symm ?_)
    exact localRefs_modifyScope fun _ => rfl
  · simp only [Operation.performFully]
    rw [remoteRefs_addRemoteRef (h.declarations.length ▸ hs), h.remoteRefs, h.remoteRefs,
      remoteRefs_modifyScope_uses (g := (· ++ [RemoteRef.mk module name position .pending]))
        fun hle => absurd hs (Nat.not_lt_of_le hle)]
    by_cases hr : s = r
    · subst hr
      simp only [true_and, if_true, eraseDupsBy_concat, addNew_eq, RemoteRef.same,
        Bool.and_eq_true, beq_iff_eq, eq_comm (a := module), eq_comm (a := name)]
    · rw [if_neg fun hc => hr hc.1, if_neg hr]

/-- The step lemma. -/
theorem perform (h : KeepsFirst full kept) (hop : op.adds = true) (hfits : op.Fits kept) :
    KeepsFirst (op.performFully full) (op.perform kept) := by
  have hscope : ∀ s ∈ op.named, s < full.scopes.length := fun s hs =>
    h.declarations.length ▸ hfits s hs
  cases op with
  | addChild p name kind => exact h.addChild (hscope p (List.mem_singleton_self p)) name kind
  | define s name kind position =>
    exact h.define (hscope s (List.mem_singleton_self s)) name kind position
  | addLocalRef s name position =>
    exact h.addLocalRef (hscope s (List.mem_singleton_self s)) name position
  | addRemoteRef s module name position =>
    exact h.addRemoteRef (hscope s (List.mem_singleton_self s)) module name position
  | linkLocal => cases hop
  | applyRemote rs => cases hop

end KeepsFirst

/-- The run lemma. -/
theorem KeepsFirst.record (h : KeepsFirst full kept) (hkept : kept.Sound)
    (hops : ∀ op ∈ ops, op.adds = true) (hfits : AllFit ops kept) :
    KeepsFirst (recordFully ops full) (record ops kept) ∧ (ScopeTree.record ops kept).Sound := by
  induction ops generalizing full kept with
  | nil => exact ⟨h, hkept⟩
  | cons op ops ih =>
    obtain ⟨hop, hops⟩ := List.forall_mem_cons.1 hops
    exact ih (h.perform hop hfits.1) (hkept.perform hfits.1) hops hfits.2

/-! ## What linking finds -/

section Linking

variable {ρ : Type} {refs refs' : ScopeId → List ρ} {like : ρ → ρ → Bool}
  {wrong : ScopeId → ρ → Prop} {i : Nat} {x : ρ}

/-- The first use that is wrong is the first of its like in its scope. -/
theorem FirstUse.first_of_like (h : t.FirstUse refs wrong s i x)
    (hwrong : ∀ {s x y}, like x y = true → (wrong s x ↔ wrong s y)) {j : Nat} {y : ρ} (hj : j < i)
    (hy : (refs s)[j]? = some y) : like x y = false := by
  refine Bool.eq_false_iff.2 fun hlike => ?_
  rcases h.first hy ((hwrong hlike).1 h.is_wrong) with hbefore | ⟨-, hle⟩
  · exact hbefore.asymm hbefore
  · exact Nat.not_le_of_gt hj hle

/-- So it is found among the first uses too, and it is the first wrong one there. -/
theorem FirstUse.of_eraseDupsBy (h : full.FirstUse refs wrong s i x)
    (hsame : SameDeclarations full kept) (hrefs : ∀ s, refs' s = (refs s).eraseDupsBy like)
    (hwrong : ∀ {s x y}, like x y = true → (wrong s x ↔ wrong s y)) :
    ∃ j, kept.FirstUse refs' wrong s j x := by
  obtain ⟨j, hj, hfirst⟩ := exists_first_eraseDupsBy (r := like) (fun hxy => hwrong hxy) h.use
    h.is_wrong fun hy hwrong => (h.first hy hwrong).elim
      (fun hbefore => absurd hbefore hbefore.asymm) (·.2)
  refine ⟨j, (hrefs s).symm ▸ hj, h.is_wrong, fun {r k y} hy hywrong => ?_⟩
  rw [hrefs] at hy
  obtain ⟨k', hk'⟩ := List.getElem?_of_mem ((eraseDupsBy_sublist _ _).subset
    (List.mem_of_getElem? hy))
  rcases h.first hk' hywrong with hbefore | ⟨rfl, -⟩
  · exact .inl (hbefore.of_sameDeclarations hsame)
  · exact .inr ⟨rfl, hfirst hy hywrong⟩

end Linking

namespace KeepsFirst

variable (h : KeepsFirst full kept) (hfull : full.WellFormed)
include h hfull

theorem wellFormed : kept.WellFormed := hfull.of_sameDeclarations h.declarations

theorem linkLocal_eq : kept.linkLocal.1 = full.linkLocal.1 := by
  have hunbound : kept.Unbound = full.Unbound := by
    funext s r
    refine propext (not_congr (exists_congr fun d => ?_))
    exact ⟨(·.of_sameDeclarations h.declarations.symm), (·.of_sameDeclarations h.declarations)⟩
  rcases hfull.linkLocal_cases with ⟨⟨u, hu⟩, hall⟩ | ⟨u, s, i, x, hfirst, hu⟩
  · rcases (h.wellFormed hfull).linkLocal_cases with ⟨⟨v, hv⟩, -⟩ | ⟨v, s, j, y, hfirst, -⟩
    · rw [hu, hv]
    · have hy := List.mem_of_getElem? hfirst.use
      rw [h.localRefs] at hy
      exact absurd (hunbound ▸ hfirst.is_wrong) (hall s y ((eraseDupsBy_sublist _ _).subset hy))
  · obtain ⟨j, hkept⟩ := hfirst.of_eraseDupsBy h.declarations h.localRefs fun {s a b} hab => by
      unfold Unbound
      rw [beq_iff_eq.1 hab]
    rw [← hunbound] at hkept
    rcases (h.wellFormed hfull).linkLocal_cases with ⟨-, hall⟩ | ⟨v, r, k, y, hfirst', hv⟩
    · exact absurd hkept.is_wrong (hall s x (List.mem_of_getElem? hkept.use))
    · rw [hu, hv, hkept.unique hfirst']

theorem linkRemote_eq_error_iff (table : ModuleTable) (e : Fault) :
    kept.linkRemote table = .error e ↔ full.linkRemote table = .error e := by
  rcases linkRemote_cases hfull table with ⟨⟨rs, hrs⟩, hall⟩ | ⟨s, i, x, hfirst, herr⟩
  · rcases linkRemote_cases (h.wellFormed hfull) table with ⟨⟨rs', hrs'⟩, -⟩ | ⟨s, j, y, hfirst, -⟩
    · exact iff_of_false (fun he => by cases hrs'.symm.trans he) fun he => by
        cases hrs.symm.trans he
    · have hy := List.mem_of_getElem? hfirst.use
      rw [h.remoteRefs] at hy
      exact absurd (hall s y ((eraseDupsBy_sublist _ _).subset hy)) hfirst.is_wrong
  · obtain ⟨j, hkept⟩ := hfirst.of_eraseDupsBy h.declarations h.remoteRefs fun {s a b} hab => by
      obtain ⟨hmodule, hname⟩ := Bool.and_eq_true_iff.1 hab
      rw [beq_iff_eq.1 hmodule, beq_iff_eq.1 hname]
    rcases linkRemote_cases (h.wellFormed hfull) table with ⟨-, hall⟩ | ⟨r, k, y, hfirst', herr'⟩
    · exact absurd (hall s x (List.mem_of_getElem? hkept.use)) hkept.is_wrong
    · rw [herr, herr', hkept.unique hfirst']

/-- If linking goes through, every use of a name in a scope is resolved to the scope that the first
one is resolved to. -/
theorem resolved_alike (hok : full.linkLocal.1 = .ok ()) {s : ScopeId} {i : Nat} {r : LocalRef}
    (hr : (full.localRefs s)[i]? = some r) :
    ∃ (d : ScopeId) (j : Nat) (first : LocalRef), first.name = r.name ∧
      (kept.localRefs s)[j]? = some first ∧
      (full.linkLocal.2.localRefs s)[i]? = some { r with status := .resolved d } ∧
      (kept.linkLocal.2.localRefs s)[j]? = some { first with status := .resolved d } := by
  have hkept := h.wellFormed hfull
  have hfullOutcome := hfull.linkOutcome
  have hkeptOutcome := hkept.linkOutcome
  rw [hok] at hfullOutcome
  rw [h.linkLocal_eq hfull, hok] at hkeptOutcome
  cases hfullOutcome with
  | links hfullResolved =>
    cases hkeptOutcome with
    | links hkeptResolved =>
      obtain ⟨d, hd, hmark⟩ := hfullResolved hr
      obtain ⟨first, hfirst, hsame⟩ :=
        exists_mem_eraseDupsBy LocalRef.same (List.mem_of_getElem? hr)
      have hname : first.name = r.name := by
        rcases hsame with rfl | hsame
        · rfl
        · exact (beq_iff_eq.1 hsame).symm
      rw [← h.localRefs] at hfirst
      obtain ⟨j, hj⟩ := List.getElem?_of_mem hfirst
      obtain ⟨e, he, hmark'⟩ := hkeptResolved hj
      rw [hfull.findsIn_iff] at hd
      rw [hkept.findsIn_iff, h.declarations.declaring?, hname, hd] at he
      cases he
      exact ⟨d, j, first, hname, hj, hmark, hmark'⟩

end KeepsFirst

/-- Recording the first use of a name only, in place of all uses, loses nothing, whatever is
recorded. Linking a module within itself has one outcome in both trees; if it goes through, every
use is resolved to the scope of the first. Linking to the modules of any table fails in both trees,
and in the same way, or in neither. That is because the first use that cannot be resolved is always
the first of its name in its scope. -/
theorem linking_of_firstUses {module : String} (hops : ∀ op ∈ ops, op.adds = true)
    (hfits : AllFit ops (.ofModule module)) :
    let full := recordFully ops (.ofModule module)
    let kept := record ops (.ofModule module)
    KeepsFirst full kept ∧
    kept.linkLocal.1 = full.linkLocal.1 ∧
    (full.linkLocal.1 = .ok () → ∀ (s : ScopeId) (i : Nat) (r : LocalRef),
      (full.localRefs s)[i]? = some r →
      ∃ (d : ScopeId) (j : Nat) (first : LocalRef), first.name = r.name ∧
        (kept.localRefs s)[j]? = some first ∧
        (full.linkLocal.2.localRefs s)[i]? = some { r with status := .resolved d } ∧
        (kept.linkLocal.2.localRefs s)[j]? = some { first with status := .resolved d }) ∧
    (∀ (table : ModuleTable) (e : Fault),
      kept.linkRemote table = .error e ↔ full.linkRemote table = .error e) ∧
    (∀ (s : ScopeId) (i : Nat) (r : LocalRef),
      full.FirstUse full.localRefs full.Undeclared s i r →
      ∀ (j : Nat) (x : LocalRef), j < i → (full.localRefs s)[j]? = some x → x.name ≠ r.name) ∧
    ∀ (table : ModuleTable) (s : ScopeId) (i : Nat) (r : RemoteRef), full.FirstUse full.remoteRefs
      (fun _ r => ¬ table.Exports r.module r.name) s i r →
      ∀ (j : Nat) (x : RemoteRef), j < i → (full.remoteRefs s)[j]? = some x →
        ¬ (x.module = r.module ∧ x.name = r.name) := by
  intro full kept
  obtain ⟨hfirst, hsound⟩ := (KeepsFirst.ofModule module).record (.ofModule module) hops hfits
  have hfull : full.WellFormed := hsound.wellFormed.of_sameDeclarations hfirst.declarations.symm
  refine ⟨hfirst, hfirst.linkLocal_eq hfull, fun hok s i r => hfirst.resolved_alike hfull hok,
    hfirst.linkRemote_eq_error_iff hfull, fun s i r huse j x hj hx hname => ?_,
    fun table s i r huse j x hj hx hname => ?_⟩
  · have hlike : LocalRef.same r x = false := huse.first_of_like (fun {s a b} hab => by
      unfold Undeclared
      rw [beq_iff_eq.1 hab]) hj hx
    simp [LocalRef.same, hname] at hlike
  · have hlike : RemoteRef.same r x = false := huse.first_of_like (fun {s a b} hab => by
      obtain ⟨hmodule, hname⟩ := Bool.and_eq_true_iff.1 hab
      rw [beq_iff_eq.1 hmodule, beq_iff_eq.1 hname]) hj hx
    simp [RemoteRef.same, hname] at hlike

/-- Names that are used before they are declared, in a scope and around it, and used again after a
name that nothing declares. -/
def repeatedUses : List Operation :=
  [.addLocalRef root "x" 3, .addChild root "f" .function, .addLocalRef 1 "x" 10,
    .addLocalRef 1 "y" 20, .addLocalRef 1 "x" 30, .addLocalRef 1 "y" 40,
    .addRemoteRef 1 "m" "g" 50, .addRemoteRef 1 "m" "g" 60, .define root "x" (.variable none) 70]

theorem linking_of_firstUses_repeated :
    let full := recordFully repeatedUses (.ofModule "main")
    let kept := record repeatedUses (.ofModule "main")
    KeepsFirst full kept ∧ (full.localRefs 1).length = 4 ∧ (kept.localRefs 1).length = 2 ∧
      full.linkLocal.1 = .error (.unresolvedSymbol "y" 20) ∧
      kept.linkLocal.1 = .error (.unresolvedSymbol "y" 20) ∧
      kept.linkRemote {} = .error (.unknownModule "m" 50) := by
  obtain ⟨hfirst, hlocal, -, hremote, -⟩ :=
    @linking_of_firstUses repeatedUses "main" (by decide) (by decide)
  have hfull : (recordFully repeatedUses (.ofModule "main")).linkLocal.1 =
      .error (.unresolvedSymbol "y" 20) := by decide
  exact ⟨hfirst, by decide, by decide, hfull, hlocal.trans hfull, (hremote {} _).2 (by decide)⟩

end ScopeTree

end JayFrontEnd
