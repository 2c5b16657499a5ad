import JayFrontEnd.Program.ModuleTable
import JayFrontEnd.Proofs.Repetition
import Mathlib.Data.List.Induction
import Mathlib.Data.List.Nodup

/-!
# Module tables

A table is a list of modules and an index into it, side by side. As the index leads from the name of
each module to its place and from no other name anywhere, no name is there twice, a module is found
by its name, and what is done at the place that the index gives is done to the module of that name
and to no other. So a table that modules have been inserted into is an ordered map: it gives the
latest module of each name, and lists the names by when they first came.
-/

namespace JayFrontEnd.ModuleTable

variable {t : ModuleTable} {m n : Module} {name : String} {i : Nat}

/-! ## The index -/

theorem exists_of_lookup (h : t.index.lookup name = some i) :
    ∃ m, t.modules[i]? = some m ∧ m.name = name :=
  Option.map_eq_some_iff.1 ((t.indexed name i).1 h)

theorem lookup_name (h : t.modules[i]? = some m) : t.index.lookup m.name = some i :=
  (t.indexed m.name i).2 (congrArg (Option.map (·.name)) h)

theorem get?_eq_some_iff : t.get? name = some m ↔ m ∈ t.modules ∧ m.name = name := by
  constructor
  · intro h
    obtain ⟨i, hi, hm⟩ := Option.bind_eq_some_iff.1 h
    obtain ⟨n, hn, hname⟩ := exists_of_lookup hi
    cases hm.symm.trans hn
    exact ⟨List.mem_of_getElem? hm, hname⟩
  · rintro ⟨hm, rfl⟩
    obtain ⟨i, hi⟩ := List.getElem?_of_mem hm
    exact Option.bind_eq_some_iff.2 ⟨i, lookup_name hi, hi⟩

theorem contains_eq (t : ModuleTable) (name : String) :
    t.contains name = (t.get? name).isSome := by
  unfold contains get?
  cases h : t.index.lookup name with
  | none => rfl
  | some i =>
    obtain ⟨m, hm, -⟩ := exists_of_lookup h
    rw [Option.bind_some, hm]
    rfl

theorem contains_iff : t.contains name ↔ name ∈ t.names := by
  rw [contains_eq, Option.isSome_iff_exists, names, List.mem_map]
  exact exists_congr fun _ => get?_eq_some_iff

/-- A name at two places would be led to both of them. -/
theorem nodup_names (t : ModuleTable) : t.names.Nodup := by
  refine List.nodup_iff_injective_getElem.2 fun i j hij => Fin.ext ?_
  have hplace (k : Fin t.names.length) : t.index.lookup t.names[k.val] = some k.val := by
    refine (t.indexed _ _).2 ?_
    rw [← List.getElem?_map]
    exact List.getElem?_eq_getElem k.isLt
  have hname : t.names[i.val] = t.names[j.val] := hij
  exact Option.some.inj ((hplace i).symm.trans (hname ▸ hplace j))

theorem eq_of_name (hm : m ∈ t.modules) (hn : n ∈ t.modules) (h : m.name = n.name) : m = n :=
  List.inj_on_of_nodup_map t.nodup_names hm hn h

/-- The module that is found by a name is the one of that name. -/
theorem get?_eq_find? (t : ModuleTable) (name : String) :
    t.get? name = t.modules.find? (·.name == name) := by
  refine Option.ext fun m => get?_eq_some_iff.trans ?_
  constructor
  · rintro ⟨hm, rfl⟩
    cases hn : t.modules.find? (·.name == m.name) with
    | none => exact absurd (List.find?_eq_none.1 hn m hm) (by simp)
    | some n =>
      have hname := beq_iff_eq.1 (List.find?_some hn :)
      rw [eq_of_name (List.mem_of_find?_eq_some hn) hm hname]
  · exact fun h => ⟨List.mem_of_find?_eq_some h, beq_iff_eq.1 (List.find?_some h :)⟩

/-- What is done where the index leads is done to the module of the name. -/
theorem modify_eq_map (h : t.index.lookup name = some i) (f : Module → Module) :
    t.modules.modify i f = t.modules.map fun m => if m.name = name then f m else m := by
  refine List.ext_getElem? fun j => ?_
  rw [List.getElem?_modify, List.getElem?_map]
  cases hm : t.modules[j]? with
  | none => rfl
  | some m =>
    have hplace : i = j ↔ m.name = name := by
      constructor
      · rintro rfl
        obtain ⟨n, hn, hname⟩ := exists_of_lookup h
        rwa [Option.some.inj (hm.symm.trans hn)]
      · rintro rfl
        exact Option.some.inj (h.symm.trans (lookup_name hm))
    simp [hplace]

/-! ## Inserting -/

theorem insert_of_lookup (h : t.index.lookup m.name = some i) :
    (t.insert m).modules = t.modules.set i m := by
  unfold insert
  split
  · next j hj => rw [Option.some.inj (h.symm.trans hj)]
  · next hnone => cases h.symm.trans hnone

theorem insert_of_lookup_none (h : t.index.lookup m.name = none) :
    (t.insert m).modules = t.modules ++ [m] := by
  unfold insert
  split
  · next i hi => cases h.symm.trans hi
  · rfl

theorem modules_insert (t : ModuleTable) (m : Module) :
    (t.insert m).modules = if t.contains m.name then
      t.modules.map fun n => if n.name = m.name then m else n else t.modules ++ [m] := by
  unfold contains
  cases h : t.index.lookup m.name with
  | none => exact insert_of_lookup_none h
  | some i =>
    rw [insert_of_lookup h, List.set_eq_modify, modify_eq_map h]
    rfl

theorem mem_modules_insert :
    n ∈ (t.insert m).modules ↔ n = m ∨ n ∈ t.modules ∧ n.name ≠ m.name := by
  rw [modules_insert]
  split
  · next hm =>
    obtain ⟨k, hk, hname⟩ := List.mem_map.1 (contains_iff.1 hm)
    rw [List.mem_map]
    constructor
    · rintro ⟨l, hl, rfl⟩
      split
      · exact .inl rfl
      · next hne => exact .inr ⟨hl, hne⟩
    · rintro (rfl | ⟨hn, hne⟩)
      · exact ⟨k, hk, if_pos hname⟩
      · exact ⟨n, hn, if_neg hne⟩
  · next hm =>
    have hne : n ∈ t.modules → n.name ≠ m.name := fun hn hname =>
      hm (contains_iff.2 (List.mem_map.2 ⟨n, hn, hname⟩))
    rw [List.mem_append, List.mem_singleton, or_comm, and_iff_left_of_imp hne]

/-- A name is added unless it is there. -/
theorem names_insert (t : ModuleTable) (m : Module) :
    (t.insert m).names = addNew (· == ·) t.names m.name := by
  have hany : t.names.any (m.name == ·) = true ↔ t.contains m.name = true := by
    simp [contains_iff]
  rw [names, modules_insert, addNew]
  by_cases h : t.contains m.name = true
  · rw [if_pos h, if_pos (hany.2 h), List.map_map]
    refine List.map_congr_left fun n _ => ?_
    show (if n.name = m.name then m else n).name = n.name
    split
    · next h => exact h.symm
    · rfl
  · rw [if_neg h, if_neg (hany.not.2 h), List.map_append, List.map_singleton]
    rfl

theorem get?_insert (t : ModuleTable) (m : Module) (name : String) :
    (t.insert m).get? name = if name = m.name then some m else t.get? name := by
  refine Option.ext fun n => ?_
  rw [get?_eq_some_iff, mem_modules_insert]
  by_cases hname : name = m.name
  · subst hname
    rw [if_pos rfl, Option.some_inj, or_and_right]
    exact ⟨fun h => h.elim (·.1.symm) fun h => absurd h.2 h.1.2, fun h => .inl ⟨h.symm, h ▸ rfl⟩⟩
  · rw [if_neg hname, get?_eq_some_iff]
    constructor
    · rintro ⟨rfl | ⟨hn, -⟩, rfl⟩
      · exact absurd rfl hname
      · exact ⟨hn, rfl⟩
    · rintro ⟨hn, rfl⟩
      exact ⟨.inr ⟨hn, hname⟩, rfl⟩

/-! ## Changing a module -/

theorem modules_modifyScopes (t : ModuleTable) (name : String) (f : ScopeTree → ScopeTree) :
    (t.modifyScopes name f).modules =
      t.modules.map fun m => if m.name = name then m.mapScopes f else m := by
  unfold modifyScopes
  cases h : t.index.lookup name with
  | some i => exact modify_eq_map h _
  | none =>
    have hne : ∀ m ∈ t.modules, m.name ≠ name := by
      rintro m hm rfl
      obtain ⟨i, hi⟩ := List.getElem?_of_mem hm
      cases h.symm.trans (lookup_name hi)
    exact ((List.map_congr_left fun m hm => if_neg (hne m hm)).trans (List.map_id' _)).symm

theorem index_modifyScopes (t : ModuleTable) (name : String) (f : ScopeTree → ScopeTree) :
    (t.modifyScopes name f).index = t.index := by
  unfold modifyScopes
  split <;> rfl

theorem names_modifyScopes (t : ModuleTable) (name : String) (f : ScopeTree → ScopeTree) :
    (t.modifyScopes name f).names = t.names := by
  rw [names, modules_modifyScopes, List.map_map]
  refine List.map_congr_left fun m _ => ?_
  simp only [Function.comp_apply]
  split <;> rfl

theorem get?_modifyScopes {f : ScopeTree → ScopeTree} (other : String) :
    (t.modifyScopes name f).get? other =
      (t.get? other).map fun m => if m.name = name then m.mapScopes f else m := by
  have hname : ∀ m : Module, (if m.name = name then m.mapScopes f else m).name = m.name := by
    intro m
    split <;> rfl
  rw [get?_eq_find?, get?_eq_find?, modules_modifyScopes, List.find?_map]
  congr 2
  funext m
  exact congrArg (· == other) (hname m)

/-! ## Tables of modules that have been inserted -/

def latest? (ms : List Module) (name : String) : Option Module :=
  ms.reverse.find? (·.name == name)

theorem latest?_concat (ms : List Module) (m : Module) (name : String) :
    latest? (ms ++ [m]) name = if name = m.name then some m else latest? ms name := by
  rw [latest?, List.reverse_concat, List.find?_cons]
  by_cases h : name = m.name
  · rw [if_pos h, beq_iff_eq.2 h.symm]
  · rw [if_neg h, beq_false_of_ne (Ne.symm h)]
    rfl

theorem ofList_concat (ms : List Module) (m : Module) :
    ofList (ms ++ [m]) = (ofList ms).insert m := List.foldl_concat ..

theorem get?_ofList (ms : List Module) (name : String) :
    (ofList ms).get? name = latest? ms name := by
  induction ms using List.reverseRecOn with
  | nil => rfl
  | append_singleton ms m ih => rw [ofList_concat, get?_insert, latest?_concat, ih]

theorem mem_of_mem_ofList {ms : List Module} (h : m ∈ (ofList ms).modules) : m ∈ ms := by
  have hlatest : latest? ms m.name = some m :=
    (get?_ofList ms m.name).symm.trans (get?_eq_some_iff.2 ⟨h, rfl⟩)
  exact List.mem_reverse.1 (List.mem_of_find?_eq_some hlatest)

/-- The names in the order in which they first came. -/
theorem names_ofList (ms : List Module) : (ofList ms).names = (ms.map (·.name)).eraseDups := by
  induction ms using List.reverseRecOn with
  | nil => rfl
  | append_singleton ms m ih =>
    rw [ofList_concat, names_insert, ih, List.map_append, List.map_singleton]
    exact (eraseDupsBy_concat ..).symm

theorem map_get?_names (t : ModuleTable) : t.names.map t.get? = t.modules.map some := by
  rw [names, List.map_map]
  exact List.map_congr_left fun m hm => get?_eq_some_iff.2 ⟨hm, rfl⟩

/-- The table is a map from names to modules with the names in order, and has come about by putting
these modules into it. -/
structure OrderedMap (t : ModuleTable) (ms : List Module) : Prop where
  get?_eq : ∀ name, t.get? name = latest? ms name
  contains_eq : ∀ name, t.contains name = (t.get? name).isSome
  names_eq : t.names = (ms.map (·.name)).eraseDups
  modules_eq : t.modules.map some = t.names.map (latest? ms)
  length_eq : t.modules.length = (ms.map (·.name)).eraseDups.length
  /-- Every entry of the index leads into the list, to a module of the name. -/
  inside : ∀ name i, t.index.lookup name = some i →
    ∃ hi : i < t.modules.length, t.modules[i].name = name
  /-- No place in the list is left out. -/
  indexed : ∀ i (hi : i < t.modules.length), t.index.lookup t.modules[i].name = some i
  /-- A change by name is made to the module that is found by the name, and to no other. -/
  changed : ∀ name f, (t.modifyScopes name f).names = t.names ∧
    ∀ other, (t.modifyScopes name f).get? other =
      if other = name then (latest? ms name).map (.mapScopes f) else latest? ms other

/-- Modules may be put into a table in any order and any number of times: what comes of it is an
ordered map. -/
theorem orderedMap_ofList (ms : List Module) : (ofList ms).OrderedMap ms where
  get?_eq := get?_ofList ms
  contains_eq := contains_eq (ofList ms)
  names_eq := names_ofList ms
  modules_eq := by rw [← map_get?_names, funext (get?_ofList ms)]
  length_eq := by rw [← names_ofList, names, List.length_map]
  inside name i hi := by
    obtain ⟨m, hm, hname⟩ := exists_of_lookup hi
    obtain ⟨hlt, rfl⟩ := List.getElem?_eq_some_iff.1 hm
    exact ⟨hlt, hname⟩
  indexed i hi := lookup_name (List.getElem?_eq_getElem hi)
  changed name f := by
    refine ⟨names_modifyScopes .., fun other => ?_⟩
    rw [get?_modifyScopes, get?_ofList]
    cases h : latest? ms other with
    | none =>
      split
      · next hother => rw [← hother, h]; rfl
      · rfl
    | some m =>
      have hname : m.name = other := (get?_eq_some_iff.1 ((get?_ofList ms other).trans h)).2
      rw [Option.map_some, hname]
      split
      · next hother => rw [← hother, h]; rfl
      · rfl

end JayFrontEnd.ModuleTable
