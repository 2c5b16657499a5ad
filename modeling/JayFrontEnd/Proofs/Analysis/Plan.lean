import JayFrontEnd.Proofs.Analysis.Follow
import JayFrontEnd.Proofs.Scope.Operation

/-!
# What an analyzer may be asked to do

`Plan` is anything that can be done with an analyzer and its scope tree: one operation after the
other, each chosen by what came of the ones before, where work in a new scope is itself a plan. A
plan may enter scopes that it does not leave, leave more than it has entered, give up in the middle
of a scope or carry on after a refusal. Whatever it does, at every moment the tree is consistent and
the current scope is one of it.
-/

namespace JayFrontEnd.Analyzer

open ScopeTree

/-- Leaves the analyzer as it was if an operation fails. -/
def attempt (a : Analyzer) : Except Fault Analyzer → Except Fault Unit × Analyzer
  | .ok b => (.ok (), b)
  | .error fault => (.error fault, a)

inductive Operation where
  | enter (name : String) (kind : ScopeKind)
  | exit
  | register (name : String) (kind : SymbolKind) (position : Nat)
  | assign (name : String) (type : Option PrimitiveType) (position : Nat)
  | expectLocal (name : String) (position : Nat)
  | expectRemote (module name : String) (position : Nat)
  /-- Something done with the tree itself. -/
  | tree (op : ScopeTree.Operation)

namespace Operation

def perform : Operation → Analyzer → Except Fault Unit × Analyzer
  | enter name kind, a => (.ok (), a.enterScope name kind)
  | exit, a => (.ok (), a.exitScope)
  | register name kind position, a => a.attempt (a.register name kind position)
  | assign name type position, a => a.attempt (a.assign name type position)
  | expectLocal name position, a => (.ok (), a.expectLocal name position)
  | expectRemote module name position, a => (.ok (), a.expectRemote module name position)
  | tree op, a => (.ok (), { a with scopes := op.perform a.scopes })

/-- Only what is done with the tree itself names scopes. -/
def Fits : Operation → Analyzer → Prop
  | tree op, a => op.Fits a.scopes
  | _, _ => True

end Operation

inductive Plan where
  | done (outcome : Except Fault Unit)
  | step (op : Operation) (next : Except Fault Unit → Analyzer → Plan)
  | inScope (name : String) (kind : ScopeKind) (body : Plan)
      (next : Except Fault Unit → Analyzer → Plan)

namespace Plan

def run : Plan → Analyzer → Except Fault Unit × Analyzer
  | done outcome, a => (outcome, a)
  | step op next, a =>
    let (outcome, b) := op.perform a
    (next outcome b).run b
  | inScope name kind body next, a =>
    let (outcome, b) := a.inScope name kind body.run
    (next outcome b).run b

/-- The analyzer after each operation, also within new scopes; the first is the one at the start. -/
def moments : Plan → Analyzer → List Analyzer
  | done _, a => [a]
  | step op next, a =>
    let (outcome, b) := op.perform a
    a :: (next outcome b).moments b
  | inScope name kind body next, a =>
    let (outcome, b) := a.inScope name kind body.run
    a :: body.moments (a.enterScope name kind) ++ (next outcome b).moments b

/-- Every operation names scopes that the tree has by then. -/
def Fits : Plan → Analyzer → Prop
  | done _, _ => True
  | step op next, a =>
    let (outcome, b) := op.perform a
    op.Fits a ∧ (next outcome b).Fits b
  | inScope name kind body next, a =>
    let (outcome, b) := a.inScope name kind body.run
    body.Fits (a.enterScope name kind) ∧ (next outcome b).Fits b

theorem run_mem_moments (p : Plan) (a : Analyzer) : (p.run a).2 ∈ p.moments a := by
  induction p generalizing a with
  | done outcome => exact List.mem_singleton_self a
  | step op next ih => exact List.mem_cons_of_mem _ (ih ..)
  | inScope name kind body next _ ih => exact List.mem_append_right _ (ih ..)

end Plan

/-- The tree is sound and the current scope is one of it. -/
structure Sound (a : Analyzer) : Prop where
  scopes : a.scopes.Sound
  current_lt : a.current < a.scopes.scopes.length

theorem Sound.ofModule (module : String) (source : Source) :
    (Analyzer.ofModule module source).Sound :=
  ⟨.ofModule module, Nat.one_pos⟩

/-- What is kept by everything that is done with an analyzer. -/
structure Retains (a b : Analyzer) : Prop where
  sound : b.Sound
  /-- No scope is taken away. -/
  length_le : a.scopes.scopes.length ≤ b.scopes.scopes.length

variable {a b c : Analyzer} {op : Operation}

theorem Retains.refl (h : a.Sound) : a.Retains a := ⟨h, Nat.le_refl _⟩

theorem Retains.trans (h : a.Retains b) (h' : b.Retains c) : a.Retains c :=
  ⟨h'.sound, Nat.le_trans h.length_le h'.length_le⟩

theorem Retains.backTo (h : a.Retains b) {s : ScopeId} (hs : s < a.scopes.scopes.length) :
    a.Retains { b with current := s } :=
  ⟨⟨h.sound.scopes, Nat.lt_of_lt_of_le hs h.length_le⟩, h.length_le⟩

namespace Sound

theorem tree (h : a.Sound) {op : ScopeTree.Operation} (hop : op.Fits a.scopes) :
    a.Retains { a with scopes := op.perform a.scopes } :=
  have hlen := length_le_perform op a.scopes
  ⟨⟨h.scopes.perform hop, Nat.lt_of_lt_of_le h.current_lt hlen⟩, hlen⟩

/-- An operation of the tree that names the current scope. -/
theorem inCurrent (h : a.Sound) (op : ScopeTree.Operation) (hop : op.named = [a.current]) :
    op.Fits a.scopes := by
  intro s hs
  rw [hop, List.mem_singleton] at hs
  exact hs ▸ h.current_lt

theorem enterScope (h : a.Sound) (name : String) (kind : ScopeKind) :
    a.Retains (a.enterScope name kind) := by
  have htree := h.tree (h.inCurrent (.addChild a.current name kind) rfl)
  refine ⟨⟨htree.sound.scopes, ?_⟩, htree.length_le⟩
  simp [Analyzer.enterScope]

theorem exitScope (h : a.Sound) : a.Retains a.exitScope := by
  unfold Analyzer.exitScope
  split
  · next p hp =>
    have hlt : p < a.current := h.scopes.wellFormed.parent?_lt hp
    exact (Retains.refl h).backTo (Nat.lt_trans hlt h.current_lt)
  · exact .refl h

theorem register (h : a.Sound) {name : String} {kind : SymbolKind} {position : Nat}
    (hb : a.register name kind position = .ok b) : a.Retains b := by
  obtain ⟨i, scopes, hd, rfl⟩ := register_eq_ok hb
  have htree := h.tree (h.inCurrent (.define a.current name kind position) rfl)
  simpa only [ScopeTree.Operation.perform, hd] using htree

theorem assign (h : a.Sound) {name : String} {type : Option PrimitiveType} {position : Nat}
    (hb : a.assign name type position = .ok b) : a.Retains b := by
  obtain rfl | ⟨t, i, y, -, -, -, rfl⟩ := assign_eq_ok hb
  · exact .refl h
  · have hscopes : (a.scopes.setKind i (.variable (some t))).Sound :=
      ⟨h.scopes.wellFormed.setKind i _, h.scopes.distinct.setKind i _⟩
    exact ⟨⟨hscopes, h.current_lt⟩, Nat.le_refl _⟩

theorem attempt (h : a.Sound) {x : Except Fault Analyzer} (hx : ∀ b, x = .ok b → a.Retains b) :
    a.Retains (a.attempt x).2 := by
  cases x with
  | ok b => exact hx b rfl
  | error fault => exact .refl h

/-- The step lemma. -/
theorem perform (h : a.Sound) (hop : op.Fits a) : a.Retains (op.perform a).2 := by
  cases op with
  | enter name kind => exact h.enterScope name kind
  | exit => exact h.exitScope
  | register name kind position => exact h.attempt fun b => h.register
  | assign name type position => exact h.attempt fun b => h.assign
  | expectLocal name position =>
    exact h.tree (h.inCurrent (.addLocalRef a.current name position) rfl)
  | expectRemote module name position =>
    exact h.tree (h.inCurrent (.addRemoteRef a.current module name position) rfl)
  | tree op => exact h.tree hop

/-- Whatever is done in a new scope, the scope it was entered from is still there afterwards. -/
theorem inScope (h : a.Sound) {β : Type} {name : String} {kind : ScopeKind}
    {body : Analyzer → β × Analyzer}
    (hbody : (a.enterScope name kind).Retains (body (a.enterScope name kind)).2) :
    a.Retains (a.inScope name kind body).2 :=
  ((h.enterScope name kind).trans hbody).backTo h.current_lt

/-- The run lemma. -/
theorem run (h : a.Sound) {p : Plan} (hp : p.Fits a) : a.Retains (p.run a).2 := by
  induction p generalizing a with
  | done outcome => exact .refl h
  | step op next ih =>
    have hstep := h.perform hp.1
    exact hstep.trans (ih _ _ hstep.sound hp.2)
  | inScope name kind body next ihBody ih =>
    have hstep := h.inScope (ihBody (h.enterScope name kind).sound hp.1)
    exact hstep.trans (ih _ _ hstep.sound hp.2)

/-- What holds after a run holds all the way. -/
theorem moments (h : a.Sound) {p : Plan} (hp : p.Fits a) : ∀ b ∈ p.moments a, b.Sound := by
  induction p generalizing a with
  | done outcome => simpa [Plan.moments] using h
  | step op next ih =>
    have hstep := h.perform hp.1
    exact List.forall_mem_cons.2 ⟨h, ih _ _ hstep.sound hp.2⟩
  | inScope name kind body next ihBody ih =>
    have henter := (h.enterScope name kind).sound
    have hstep := h.inScope (henter.run hp.1)
    refine List.forall_mem_cons.2 ⟨h, List.forall_mem_append.2 ⟨?_, ?_⟩⟩
    · exact ihBody henter hp.1
    · exact ih _ _ hstep.sound hp.2

/-- The scope around the current one, if that is not the module's own. -/
theorem exitScope_cases (h : a.Sound) :
    a.current = root ∧ a.exitScope = a ∨
      a.current ≠ root ∧ a.scopes.parent? a.current = some a.exitScope.current := by
  by_cases hr : a.current = root
  · left
    have hp : a.scopes.parent? a.current = none := hr ▸ h.scopes.wellFormed.parent?_root
    exact ⟨hr, by simp only [Analyzer.exitScope, hp]⟩
  · right
    obtain ⟨p, hp⟩ := h.scopes.wellFormed.exists_parent hr h.current_lt
    refine ⟨hr, ?_⟩
    simp only [Analyzer.exitScope, hp]

end Sound

/-- Whatever is done with the analyzer of a module, its tree is consistent all the way, and the
current scope is one of it. Work in a new scope ends where it started, with the outcome that the
work has; and no exit leaves the module's own scope. -/
theorem Plan.consistent_throughout (p : Plan) (module : String) (source : Source)
    (hp : p.Fits (.ofModule module source)) :
    (p.run (.ofModule module source)).2 ∈ p.moments (.ofModule module source) ∧
    ∀ a ∈ p.moments (.ofModule module source),
      a.scopes.Consistent ∧ a.current < a.scopes.scopes.length ∧
      (∀ name kind (body : Plan), body.Fits (a.enterScope name kind) →
        let (outcome, b) := a.inScope name kind body.run
        outcome = (body.run (a.enterScope name kind)).1 ∧ b.current = a.current ∧
          b.scopes.Consistent ∧ b.current < b.scopes.scopes.length) ∧
      (a.current = root ∧ a.exitScope = a ∨
        a.current ≠ root ∧ a.scopes.parent? a.current = some a.exitScope.current) := by
  refine ⟨p.run_mem_moments _, fun a ha => ?_⟩
  have hsound : a.Sound := (Sound.ofModule module source).moments hp a ha
  refine ⟨hsound.scopes.consistent, hsound.current_lt, ?_, hsound.exitScope_cases⟩
  intro name kind body hbody
  have hback := hsound.inScope ((hsound.enterScope name kind).sound.run hbody)
  exact ⟨rfl, rfl, hback.sound.scopes.consistent, hback.sound.current_lt⟩

/-- Gives up in a block inside a function, at a name that the block has already; then leaves more
than it has entered, and adds a scope to the block. -/
def Plan.givesUp : Plan :=
  let body : Plan := .step (.enter "block" .block) fun _ _ =>
    .step (.register "x" (.variable none) 3) fun _ _ =>
    .step (.register "x" (.variable none) 9) fun outcome _ => .done outcome
  .inScope "f" .function body fun outcome _ =>
    .step .exit fun _ _ => .step (.tree (.addChild 2 "late" .block)) fun _ _ => .done outcome

theorem Plan.consistent_throughout_givesUp :
    let (outcome, a) := Plan.givesUp.run (.ofModule "main" {})
    outcome = .error (.duplicateSymbol "x" 9 3 "offset 3") ∧ a.current = root ∧
      a.scopes.scopes.length = 4 ∧ a.scopes.Consistent :=
  have hfits : Plan.givesUp.Fits (.ofModule "main" {}) :=
    ⟨⟨trivial, trivial, trivial, trivial⟩, trivial,
      List.forall_mem_singleton.2 (by decide), trivial⟩
  have hrun := Plan.consistent_throughout Plan.givesUp "main" {} hfits
  ⟨rfl, rfl, rfl, (hrun.2 _ hrun.1).1⟩

end JayFrontEnd.Analyzer
