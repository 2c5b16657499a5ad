import JayFrontEnd.Program.Compile
import Mathlib.Data.List.Monad

/-!
# The phases of a compiler

A piece of work leads from a phase to another: it ends there, or else with a failure. Leading
composes, so what each piece of a compilation does settles the whole: `compile_eq` puts its outcome
together from those of the phases, and `runFrom_compile` says in which phase the compiler is left,
whatever it has done before.
-/

namespace JayFrontEnd

/-- The phase that work meant to end in `q` does end in. -/
def Phase.left {α : Type} (q : Phase) : Except CompileFailure α → Phase
  | .ok _ => q
  | .error _ => .failed

namespace Compiler

variable {α β : Type}

/-- From phase `p` the work has the outcome `x`, and ends in `q` unless it fails. -/
def Leads (w : Compiler α) (p : Phase) (x : Except CompileFailure α) (q : Phase) : Prop :=
  w.runFrom p = (x, q.left x)

theorem Leads.fst {w : Compiler α} {p : Phase} {x : Except CompileFailure α} {q : Phase}
    (h : w.Leads p x q) : (w.runFrom p).1 = x :=
  congrArg Prod.fst h

theorem leads_pure (a : α) (p : Phase) : Leads (pure a) p (pure a) p := rfl

theorem leads_fail (module : String) (source : Option Source) (fault : Fault) (p q : Phase) :
    Leads (fail module source fault : Compiler α) p (.error ⟨module, p, fault, source⟩) q := rfl

theorem leads_enter (next p : Phase) : Leads (enter next) p (pure ()) next := rfl

theorem runFrom_bind (w : Compiler α) (f : α → Compiler β) (p : Phase) : (w >>= f).runFrom p =
    match w.runFrom p with
    | (.ok a, q) => (f a).runFrom q
    | (.error e, q) => (.error e, q) := by
  unfold runFrom
  rw [ExceptT.run_bind, StateT.run_bind]
  rcases w.run.run p with ⟨_ | _, q⟩ <;> rfl

theorem Leads.bind {w : Compiler α} {f : α → Compiler β} {x : Except CompileFailure α}
    {g : α → Except CompileFailure β} {p q r : Phase} (hw : w.Leads p x q)
    (hf : ∀ a, (f a).Leads q (g a) r) : (w >>= f).Leads p (x >>= g) r := by
  unfold Leads
  rw [runFrom_bind, show w.runFrom p = _ from hw]
  cases x with
  | ok a => exact hf a
  | error e => rfl

theorem Leads.mapM {f : α → Compiler β} {g : α → Except CompileFailure β} {p : Phase}
    (hf : ∀ a, (f a).Leads p (g a) p) (as : List α) : (as.mapM f).Leads p (as.mapM g) p := by
  induction as with
  | nil => rfl
  | cons a as ih =>
    rw [List.mapM_cons, List.mapM_cons]
    exact (hf a).bind fun b => ih.bind fun bs => leads_pure (b :: bs) p

/-! ## Each piece of a compilation -/

/-- Discovery stays in the phase, whatever the phase is. -/
theorem leads_discover (l : Locator) (limit budget : Nat) (queue : List Pending)
    (seen : List String) (parsed : List ParsedModule) (p : Phase) :
    (discover l limit budget queue seen parsed).Leads p
      ((discover l limit budget queue seen parsed).runFrom p).1 p := by
  induction budget generalizing queue seen parsed with
  | zero => cases queue <;> rfl
  | succ budget ih =>
    cases queue with
    | nil => rfl
    | cons next queue =>
      unfold discover
      split
      · rfl
      · split
        · rfl
        · exact ih ..

theorem leads_parseAll (l : Locator) (config : CompileConfig) :
    (parseAll l config).Leads .parse (JayFrontEnd.parseAll l config) .parse :=
  leads_discover ..

theorem leads_analyze (m : ParsedModule) : (analyze m).Leads .analyze m.analyze .analyze := by
  unfold ParsedModule.analyze analyze
  split <;> rfl

theorem leads_linkLocal (m : Module) : (linkLocal m).Leads .linkLocal m.linkLocal .linkLocal := by
  unfold Module.linkLocal linkLocal
  split <;> rfl

theorem leads_linkRemote (table : ModuleTable) (m : Module) :
    (linkRemote table m).Leads .linkRemote (m.linkRemote table) .linkRemote := by
  unfold Module.linkRemote linkRemote
  split <;> rfl

theorem leads_linkAll (t : ModuleTable) : (linkAll t).Leads .linkRemote
    (do
      let outcomes ← t.modules.mapM (·.linkRemote t)
      pure (outcomes.foldl (fun t o => t.modifyScopes o.1 (·.applyRemote o.2)) t))
    .linkRemote :=
  (Leads.mapM (leads_linkRemote t) t.modules).bind fun _ => leads_pure ..

end Compiler

open Compiler

/-! ## Outcomes -/

theorem ParsedModule.analyze_eq_run (m : ParsedModule) : m.analyze =
    match (Analyzer.ofModule m.name m.source).run m.tree with
    | (.ok (), a) => .ok ⟨m.name, m.source, m.tree, a.scopes⟩
    | (.error fault, _) => .error ⟨m.name, .analyze, fault, some m.source⟩ := by
  unfold ParsedModule.analyze Compiler.analyze
  rcases (Analyzer.ofModule m.name m.source).run m.tree with ⟨_ | _, a⟩ <;> rfl

theorem Module.linkLocal_eq (m : Module) : m.linkLocal =
    match m.scopes.linkLocal with
    | (.ok (), scopes) => .ok { m with scopes }
    | (.error fault, _) => .error ⟨m.name, .linkLocal, fault, some m.source⟩ := by
  unfold Module.linkLocal Compiler.linkLocal
  rcases m.scopes.linkLocal with ⟨_ | _, t⟩ <;> rfl

theorem Module.linkRemote_eq (m : Module) (table : ModuleTable) : m.linkRemote table =
    match m.scopes.linkRemote table with
    | .ok rs => .ok (m.name, rs)
    | .error fault => .error ⟨m.name, .linkRemote, fault, some m.source⟩ := by
  unfold Module.linkRemote Compiler.linkRemote
  cases m.scopes.linkRemote table <;> rfl

theorem ModuleTable.linkAll_eq (t : ModuleTable) : t.linkAll = (do
    let outcomes ← t.modules.mapM (·.linkRemote t)
    pure (outcomes.foldl (fun t o => t.modifyScopes o.1 (·.applyRemote o.2)) t)) :=
  (leads_linkAll t).fst

variable (l : Locator) (config : CompileConfig) (p : Phase)

/-- A compilation is a phase after the other. -/
theorem leads_compile : (Compiler.compile l config).Leads p
    (do
      let parsed ← parseAll l config
      let analyzed ← parsed.mapM (·.analyze)
      let linked ← analyzed.mapM (·.linkLocal)
      (ModuleTable.ofList linked).linkAll)
    .done := by
  have hlast (t : ModuleTable) :
      (do let table ← Compiler.linkAll t; enter .done; pure table).Leads .linkRemote
        t.linkAll .done := by
    rw [← bind_pure t.linkAll, t.linkAll_eq]
    exact (leads_linkAll t).bind fun table => (leads_enter .done _).bind fun _ => leads_pure table _
  exact (leads_enter .parse p).bind fun _ =>
    (leads_parseAll l config).bind fun parsed =>
    (leads_enter .analyze _).bind fun _ =>
    (Leads.mapM leads_analyze parsed).bind fun analyzed =>
    (leads_enter .linkLocal _).bind fun _ =>
    (Leads.mapM leads_linkLocal analyzed).bind fun linked =>
    (leads_enter .linkRemote _).bind fun _ => hlast (.ofList linked)

theorem compile_eq : compile l config = (do
    let parsed ← parseAll l config
    let analyzed ← parsed.mapM (·.analyze)
    let linked ← analyzed.mapM (·.linkLocal)
    (ModuleTable.ofList linked).linkAll) :=
  (leads_compile l config .initial).fst

/-- A compiler is done or has failed, whatever phase it was in before. -/
theorem runFrom_compile : (Compiler.compile l config).runFrom p =
    (compile l config, Phase.done.left (compile l config)) := by
  rw [compile_eq]
  exact leads_compile l config p

end JayFrontEnd
