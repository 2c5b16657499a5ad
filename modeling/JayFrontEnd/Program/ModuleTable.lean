import JayFrontEnd.Node
import JayFrontEnd.Scope.Tree
import JayFrontEnd.Source

/-!
# Modules

A module has its source, its syntax tree and its scopes. A table holds modules in the order in which
their names first came; a module of a name that is there takes the place of the earlier one. An
index leads from a name to the place of its module.
-/

namespace JayFrontEnd

structure Module where
  name : String
  source : Source
  tree : Node
  scopes : ScopeTree
  deriving Repr

def Module.mapScopes (f : ScopeTree → ScopeTree) (m : Module) : Module :=
  { m with scopes := f m.scopes }

@[simp] theorem Module.scopes_mapScopes (f : ScopeTree → ScopeTree) (m : Module) :
    (m.mapScopes f).scopes = f m.scopes := rfl

/-- The index leads from a name to where the modules have one of that name. -/
def Indexes (index : List (String × Nat)) (modules : List Module) : Prop :=
  ∀ name i, index.lookup name = some i ↔ modules[i]?.map (·.name) = some name

namespace Indexes

variable {index : List (String × Nat)} {modules : List Module}

theorem empty : Indexes [] [] := by simp [Indexes]

/-- The index stays right as long as names stay where they are. -/
theorem of_names {modules' : List Module} (h : Indexes index modules)
    (hnames : modules'.map (·.name) = modules.map (·.name)) : Indexes index modules' := by
  intro name i
  rw [h name i, ← List.getElem?_map, ← List.getElem?_map, hnames]

theorem mapScopes (h : Indexes index modules) (f : ScopeTree → ScopeTree) (i : Nat) :
    Indexes index (modules.modify i (.mapScopes f)) := by
  refine h.of_names (List.ext_getElem? fun j => ?_)
  rw [List.getElem?_map, List.getElem?_map, List.getElem?_modify]
  cases modules[j]? with
  | none => rfl
  | some m => split <;> rfl

theorem set (h : Indexes index modules) {m : Module} {i : Nat}
    (hi : index.lookup m.name = some i) : Indexes index (modules.set i m) := by
  refine h.of_names ?_
  have hname : (modules.map (·.name))[i]? = some m.name := by
    rw [List.getElem?_map]
    exact (h _ _).1 hi
  obtain ⟨hlt, hname⟩ := List.getElem?_eq_some_iff.1 hname
  rw [List.map_set, ← hname, List.set_getElem_self]

theorem concat (h : Indexes index modules) {m : Module} (hm : index.lookup m.name = none) :
    Indexes (index ++ [(m.name, modules.length)]) (modules ++ [m]) := by
  intro name i
  rw [List.lookup_append, List.getElem?_append]
  by_cases hname : name = m.name
  · subst hname
    have hfresh : modules[i]?.map (·.name) ≠ some m.name := fun hi => by
      cases hm.symm.trans ((h m.name i).2 hi)
    rw [hm, Option.none_or, List.lookup_cons_self]
    split
    · next hlt => exact iff_of_false (fun hi => Nat.ne_of_gt hlt (Option.some.inj hi)) hfresh
    · next hge =>
      rw [List.getElem?_singleton]
      split
      · exact iff_of_true (congrArg some (by omega)) rfl
      · exact iff_of_false (fun hi => by cases hi; omega) nofun
  · have hold : List.lookup name [(m.name, modules.length)] = none := by simp [hname]
    rw [hold, Option.or_none, h name i]
    split
    · rfl
    · next hge =>
      rw [List.getElem?_eq_none (Nat.le_of_not_lt hge), List.getElem?_singleton]
      split <;> simp [Ne.symm hname]

end Indexes

@[ext] structure ModuleTable where
  modules : List Module := []
  index : List (String × Nat) := []
  indexed : Indexes index modules := by exact .empty
  deriving Repr

namespace ModuleTable

/-- The module of a name: the index says where it is. -/
def get? (t : ModuleTable) (name : String) : Option Module :=
  (t.index.lookup name).bind fun i => t.modules[i]?

def contains (t : ModuleTable) (name : String) : Bool := (t.index.lookup name).isSome

def names (t : ModuleTable) : List String := t.modules.map (·.name)

def insert (t : ModuleTable) (m : Module) : ModuleTable :=
  match h : t.index.lookup m.name with
  | some i => { t with modules := t.modules.set i m, indexed := t.indexed.set h }
  | none =>
    { modules := t.modules ++ [m]
      index := t.index ++ [(m.name, t.modules.length)]
      indexed := t.indexed.concat h }

def ofList (ms : List Module) : ModuleTable := ms.foldl insert {}

def modifyScopes (t : ModuleTable) (name : String) (f : ScopeTree → ScopeTree) : ModuleTable :=
  match t.index.lookup name with
  | some i =>
    { t with
      modules := t.modules.modify i (.mapScopes f)
      indexed := t.indexed.mapScopes f i }
  | none => t

end ModuleTable

end JayFrontEnd
