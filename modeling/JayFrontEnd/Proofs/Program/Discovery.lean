import JayFrontEnd.Program.Compile
import JayFrontEnd.Proofs.Grammar.Imports
import JayFrontEnd.Proofs.Outcome
import JayFrontEnd.Proofs.Program.Phases
import Mathlib.Data.List.Nodup
import Mathlib.Logic.Relation

/-!
# Which modules are found

The order of discovery is the entry module and then, module by module and directive by directive,
what has not come before. `Discovers` builds lists of modules along this order, `Ends` says how the
search ends after such a list, and a parse of all modules does just that. The queue of the search is
what is left of the order, each name with the first directive for it.
-/

namespace JayFrontEnd

theorem nodup_eraseDups {α : Type} [BEq α] [LawfulBEq α] : ∀ xs : List α, xs.eraseDups.Nodup
  | [] => List.nodup_nil
  | x :: xs => by
    rw [List.eraseDups_cons, List.nodup_cons]
    exact ⟨by simp, nodup_eraseDups _⟩
termination_by xs => xs.length
decreasing_by exact Nat.lt_succ_of_le (List.length_filter_le ..)

/-- When all have different names, one is found by its name. -/
theorem find?_of_nodup {α : Type} {name : α → String} {xs : List α} (h : (xs.map name).Nodup)
    {x : α} (hx : x ∈ xs) : xs.find? (name · == name x) = some x := by
  cases hy : xs.find? (name · == name x) with
  | none => exact absurd (List.find?_eq_none.1 hy x hx) (by simp)
  | some y =>
    have hname := beq_iff_eq.1 (List.find?_some hy :)
    rw [List.inj_on_of_nodup_map h (List.mem_of_find?_eq_some hy) hx hname]

/-! ## The order of discovery -/

/-- The entry module, and then what the modules import, each name where it comes first. -/
def discoveryOrder (entry : String) (ms : List ParsedModule) : List String :=
  (entry :: ms.flatMap fun m => m.tree.directives.map (·.module)).eraseDups

/-- The module that is to be parsed after the given ones. -/
def next? (entry : String) (ms : List ParsedModule) : Option String :=
  (discoveryOrder entry ms)[ms.length]?

/-- The first of the modules that imports the name, and its first directive for it. -/
def firstImporter? (ms : List ParsedModule) (name : String) : Option (ParsedModule × Import) :=
  ms.findSome? fun m => (m.tree.directives.find? (·.module == name)).map (m, ·)

section Order

variable {entry name : String} {ms ns : List ParsedModule} {m : ParsedModule}

theorem nodup_discoveryOrder (entry : String) (ms : List ParsedModule) :
    (discoveryOrder entry ms).Nodup :=
  nodup_eraseDups _

theorem mem_discoveryOrder : name ∈ discoveryOrder entry ms ↔
    name = entry ∨ ∃ m ∈ ms, ∃ i ∈ m.tree.directives, i.module = name := by
  simp only [discoveryOrder, List.mem_eraseDups, List.mem_cons, List.mem_flatMap, List.mem_map]

theorem discoveryOrder_append (entry : String) (ms ns : List ParsedModule) :
    discoveryOrder entry (ms ++ ns) = discoveryOrder entry ms ++
      ((ns.flatMap fun m => m.tree.directives.map (·.module)).filter
        (!(discoveryOrder entry ms).contains ·)).eraseDups := by
  unfold discoveryOrder
  rw [List.flatMap_append, ← List.cons_append, List.eraseDups_append, List.removeAll]
  congr 2
  refine List.filter_congr fun x _ => congrArg (! ·) (Bool.eq_iff_iff.2 ?_)
  simp only [List.contains_iff_mem, List.mem_eraseDups]

theorem head?_discoveryOrder (entry : String) (ms : List ParsedModule) :
    (discoveryOrder entry ms).head? = some entry := by
  rw [discoveryOrder, List.eraseDups_cons]
  rfl

theorem firstImporter?_eq_none : firstImporter? ms name = none ↔
    ∀ m ∈ ms, ∀ i ∈ m.tree.directives, i.module ≠ name := by
  simp [firstImporter?]

theorem firstImporter?_eq_some {i : Import} (h : firstImporter? ms name = some (m, i)) :
    m ∈ ms ∧ i ∈ m.tree.directives ∧ i.module = name := by
  obtain ⟨n, hn, h⟩ := List.exists_of_findSome?_eq_some h
  obtain ⟨j, hj, h⟩ := Option.map_eq_some_iff.1 h
  cases h
  have hi := List.find?_some hj
  exact ⟨hn, List.mem_of_find?_eq_some hj, beq_iff_eq.1 hi⟩

theorem firstImporter?_append (ms ns : List ParsedModule) (name : String) :
    firstImporter? (ms ++ ns) name = (firstImporter? ms name).or (firstImporter? ns name) :=
  List.findSome?_append

theorem firstImporter?_isSome (h : name ∈ discoveryOrder entry ms) (hne : name ≠ entry) :
    (firstImporter? ms name).isSome = true := by
  obtain ⟨m, hm, i, hi, hname⟩ := (mem_discoveryOrder.1 h).resolve_left hne
  rw [Option.isSome_iff_ne_none]
  exact fun hnone => firstImporter?_eq_none.1 hnone m hm i hi hname

end Order

/-! ## Discoveries -/

namespace Locator

/-- The module is what there is under its name, and parses. -/
structure Parses (l : Locator) (m : ParsedModule) : Prop where
  loads : l.load m.name none = .ok m.source
  parses : ∃ output, l.parse m.source = .ok output ∧ output.tree = m.tree

/-- The modules are the first ones in the order of discovery, and each loads and parses. -/
inductive Discovers (l : Locator) (entry : String) : List ParsedModule → Prop where
  | start : l.Discovers entry []
  | next {ms : List ParsedModule} {m : ParsedModule} : l.Discovers entry ms →
      next? entry ms = some m.name → l.Parses m → l.Discovers entry (ms ++ [m])

variable {l : Locator} {entry : String} {ms ns : List ParsedModule} {m n : ParsedModule}

def file (l : Locator) (module : String) (offset : Option Nat) (path : String) :
    Except Fault SourceFile :=
  match l.read path with
  | .ok text => .ok ⟨path, text⟩
  | .error problem => .error (.moduleLoad module offset (.unreadable path problem))

/-- Where a module is asked for is of no account, unless it cannot be loaded: then it is not there
or one of its files cannot be read. -/
theorem load_eq (l : Locator) (module : String) :
    (∃ source, ∀ offset, l.load module offset = .ok source) ∨
      ∃ problem, (∀ limit, problem ≠ .tooManyModules limit) ∧
        ∀ offset, l.load module offset = .error (.moduleLoad module offset problem) := by
  unfold load
  cases l.locate? module with
  | none => exact .inr ⟨.notLocated, nofun, fun _ => rfl⟩
  | some paths =>
    have hfile : ∀ path, (∃ file, ∀ offset, l.file module offset path = .ok file) ∨
        ∃ why : String × ReadProblem, ∀ offset, l.file module offset path =
          .error (.moduleLoad module offset (.unreadable why.1 why.2)) := by
      intro path
      unfold file
      cases l.read path with
      | ok text => exact .inl ⟨_, fun _ => rfl⟩
      | error problem => exact .inr ⟨(path, problem), fun _ => rfl⟩
    refine (Except.mapM_uniform hfile paths).imp
      (fun ⟨files, h⟩ => ⟨⟨files⟩, fun offset => ?_⟩)
      fun ⟨why, h⟩ => ⟨.unreadable why.1 why.2, nofun, fun offset => ?_⟩
    all_goals exact congrArg (· >>= fun files => .ok (⟨files⟩ : Source)) (h offset)

theorem Parses.eq (hm : l.Parses m) (hn : l.Parses n) (h : m.name = n.name) : m = n := by
  obtain ⟨hsource, output, hparse, htree⟩ := hm
  obtain ⟨hsource', output', hparse', htree'⟩ := hn
  obtain ⟨name, source, tree⟩ := m
  obtain ⟨name', source', tree'⟩ := n
  dsimp only at h hsource hsource' hparse hparse' htree htree'
  subst h
  cases hsource.symm.trans hsource'
  cases hparse.symm.trans hparse'
  rw [← htree, ← htree']

namespace Discovers

theorem parses (h : l.Discovers entry ms) : ∀ m ∈ ms, l.Parses m := by
  induction h with
  | start => exact nofun
  | next _ _ hm ih => exact List.forall_mem_append.2 ⟨ih, List.forall_mem_singleton.2 hm⟩

theorem names_eq (h : l.Discovers entry ms) :
    ms.map (·.name) = (discoveryOrder entry ms).take ms.length := by
  induction h with
  | start => rfl
  | @next ms m _ hnext _ ih =>
    obtain ⟨hlt, hname⟩ := List.getElem?_eq_some_iff.1 hnext
    rw [List.map_append, ih, discoveryOrder_append, List.length_append, List.length_singleton,
      List.take_append_of_le_length hlt, List.take_succ_eq_append_getElem hlt, hname]
    rfl

theorem nodup_names (h : l.Discovers entry ms) : (ms.map (·.name)).Nodup :=
  h.names_eq ▸ (nodup_discoveryOrder entry ms).sublist (List.take_sublist ..)

theorem take (h : l.Discovers entry ms) (n : Nat) : l.Discovers entry (ms.take n) := by
  induction h with
  | start => rw [List.take_nil]; exact .start
  | @next ms m h hnext hm ih =>
    by_cases hn : n ≤ ms.length
    · rw [List.take_append_of_le_length hn]
      exact ih
    · rw [List.take_of_length_le (by rw [List.length_append, List.length_singleton]; omega)]
      exact .next h hnext hm

theorem eq_of_length_eq (h : l.Discovers entry ms) (h' : l.Discovers entry ns)
    (hlength : ms.length = ns.length) : ms = ns := by
  induction h generalizing ns with
  | start => exact (List.eq_nil_of_length_eq_zero hlength.symm).symm
  | @next ms m _ hnext hm ih =>
    cases h' with
    | start => simp at hlength
    | @next ns n h' hnext' hn =>
      simp only [List.length_append, List.length_singleton, Nat.add_right_cancel_iff] at hlength
      cases ih h' hlength
      cases hm.eq hn (Option.some.inj (hnext.symm.trans hnext'))
      rfl

/-- Of two lists of modules found, the shorter is a beginning of the longer. -/
theorem eq_take (h : l.Discovers entry ms) (h' : l.Discovers entry ns)
    (hlength : ms.length ≤ ns.length) : ms = ns.take ms.length :=
  h.eq_of_length_eq (h'.take _) (by rw [List.length_take, Nat.min_eq_left hlength])

end Discovers

end Locator

/-! ## The queue -/

section Queue

variable {importer : String} {seen : List String} {p : Pending}

theorem newImports_append (importer : String) (is js : List Import) (seen : List String) :
    newImports importer (is ++ js) seen =
      ((newImports importer is seen).1 ++
          (newImports importer js (newImports importer is seen).2).1,
        (newImports importer js (newImports importer is seen).2).2) := by
  induction is generalizing seen with
  | nil => rfl
  | cons i is ih =>
    simp only [List.cons_append, newImports]
    split
    · exact ih seen
    · simp only [ih, List.cons_append]

theorem newImports_cons_of_mem {i : Import} (h : i.module ∈ seen) (is : List Import) :
    newImports importer (i :: is) seen = newImports importer is seen := by
  rw [newImports, if_pos (List.contains_iff_mem.2 h)]

theorem newImports_cons_of_not_mem {i : Import} (h : i.module ∉ seen) (is : List Import) :
    newImports importer (i :: is) seen =
      (⟨i.module, some (importer, i.position)⟩ :: (newImports importer is (i.module :: seen)).1,
        (newImports importer is (i.module :: seen)).2) := by
  rw [newImports, if_neg fun hc => h (List.contains_iff_mem.1 hc)]

theorem mem_seen_newImports {name : String} {is : List Import} :
    name ∈ (newImports importer is seen).2 ↔ name ∈ seen ∨ ∃ i ∈ is, i.module = name := by
  induction is generalizing seen with
  | nil => exact ⟨.inl, fun h => h.resolve_right nofun⟩
  | cons i is ih =>
    by_cases h : i.module ∈ seen
    · rw [newImports_cons_of_mem h, ih]
      simp only [List.mem_cons, exists_eq_or_imp]
      exact ⟨.imp_right .inr, fun hname => hname.elim .inl (.imp_left (· ▸ h))⟩
    · rw [newImports_cons_of_not_mem h, ih]
      simp only [List.mem_cons, exists_eq_or_imp]
      tauto

theorem newImports_addImports (importer : String) (is js : List Import) (seen : List String) :
    newImports importer (addImports is js) seen = newImports importer (is ++ js) seen := by
  induction js generalizing is with
  | nil => rw [List.append_nil]; rfl
  | cons j js ih =>
    have hstep : addImports is (j :: js) =
        addImports (if is.any (·.module == j.module) then is else is ++ [j]) js := rfl
    rw [hstep, ih]
    split
    · next h =>
      obtain ⟨i, hi, hname⟩ := List.any_eq_true.1 h
      have hseen : j.module ∈ (newImports importer is seen).2 :=
        mem_seen_newImports.2 (.inr ⟨i, hi, beq_iff_eq.1 hname⟩)
      rw [newImports_append, newImports_append, newImports_cons_of_mem hseen]
    · rw [List.append_assoc, List.singleton_append]

/-- The modules put in the queue are those that have not been seen, each once. -/
theorem names_newImports (importer : String) (is : List Import) (seen : List String) :
    (newImports importer is seen).1.map (·.name) =
      ((is.map (·.module)).filter (!seen.contains ·)).eraseDups := by
  induction is generalizing seen with
  | nil => rfl
  | cons i is ih =>
    by_cases h : i.module ∈ seen
    · rw [newImports_cons_of_mem h, ih, List.map_cons,
        List.filter_cons_of_neg (by simpa using h)]
    · rw [newImports_cons_of_not_mem h, List.map_cons, ih, List.map_cons,
        List.filter_cons_of_pos (by simpa using h), List.eraseDups_cons, List.filter_filter]
      simp only [List.contains_cons, Bool.not_or]

theorem not_mem_seen {is : List Import} (h : p ∈ (newImports importer is seen).1) :
    p.name ∉ seen := by
  have hname := List.mem_map_of_mem (f := (·.name)) h
  rw [names_newImports, List.mem_eraseDups, List.mem_filter] at hname
  simpa using hname.2

/-- A module is put in the queue for the first directive that asks for it. -/
theorem importer_newImports {is : List Import} (h : p ∈ (newImports importer is seen).1) :
    p.importer = (is.find? (·.module == p.name)).map fun i => (importer, i.position) := by
  induction is generalizing seen with
  | nil => cases h
  | cons i is ih =>
    by_cases hi : i.module ∈ seen
    · rw [newImports_cons_of_mem hi] at h
      have hne : i.module ≠ p.name := fun he => not_mem_seen h (he ▸ hi)
      rw [List.find?_cons_of_neg (by simpa using hne)]
      exact ih h
    · rw [newImports_cons_of_not_mem hi] at h
      rcases List.mem_cons.1 h with rfl | h
      · rw [List.find?_cons_of_pos (by simp)]
        rfl
      · have hne : i.module ≠ p.name := fun he => not_mem_seen h (he ▸ List.mem_cons_self ..)
        rw [List.find?_cons_of_neg (by simpa using hne)]
        exact ih h

end Queue

/-! ## The search -/

/-- How a module that is not loaded is reported: at the first directive for it, if there is one. -/
def loadFailure (ms : List ParsedModule) (name : String) (problem : LoadProblem) :
    CompileFailure :=
  match firstImporter? ms name with
  | some (m, i) => ⟨m.name, .parse, .moduleLoad name (some i.position) problem, some m.source⟩
  | none => ⟨name, .parse, .moduleLoad name none problem, none⟩

namespace Locator

variable {l : Locator} {entry : String} {limit budget : Nat} {queue : List Pending}
  {seen : List String} {ms : List ParsedModule} {p : Pending}

/-- How the search ends after the modules `ms` have been found. -/
inductive Ends (l : Locator) (entry : String) (limit : Nat) (ms : List ParsedModule) :
    Except CompileFailure (List ParsedModule) → Prop where
  | complete : next? entry ms = none → l.Ends entry limit ms (.ok ms)
  | overLimit {name : String} : next? entry ms = some name → ms.length = limit →
      l.Ends entry limit ms (.error (loadFailure ms name (.tooManyModules limit)))
  | unloaded {name : String} {problem : LoadProblem} : next? entry ms = some name →
      ms.length < limit → l.load name none = .error (.moduleLoad name none problem) →
      l.Ends entry limit ms (.error (loadFailure ms name problem))
  | unparsed {name : String} {source : Source} {fault : Fault} : next? entry ms = some name →
      ms.length < limit → l.load name none = .ok source → l.parse source = .error fault →
      l.Ends entry limit ms (.error ⟨name, .parse, fault, some source⟩)

/-- In the middle of a search: the queue is what is left of the order of discovery. -/
structure Searches (l : Locator) (entry : String) (queue : List Pending) (seen : List String)
    (ms : List ParsedModule) : Prop where
  discovers : l.Discovers entry ms
  order : ms.map (·.name) ++ queue.map (·.name) = discoveryOrder entry ms
  seen : ∀ name, name ∈ seen ↔ name ∈ discoveryOrder entry ms
  importers : ∀ p ∈ queue, p.importer =
    (firstImporter? ms p.name).map fun (m, i) => (m.name, i.position)

namespace Searches

theorem start (l : Locator) (entry : String) : l.Searches entry [⟨entry, none⟩] [entry] [] where
  discovers := .start
  order := rfl
  seen := fun name => by rw [mem_discoveryOrder]; simp
  importers := fun p hp => by rw [List.mem_singleton.1 hp]; rfl

theorem next?_eq (h : l.Searches entry queue seen ms) :
    next? entry ms = queue.head?.map (·.name) := by
  rw [next?, ← h.order, List.getElem?_append_right (by rw [List.length_map]), List.length_map,
    Nat.sub_self, ← List.head?_eq_getElem?, List.head?_map]

/-- The entry module is the first in the queue, or has left it. -/
theorem entry_not_mem_queue (h : l.Searches entry (p :: queue) seen ms) :
    entry ∉ queue.map (·.name) := by
  have hnodup := nodup_discoveryOrder entry ms
  have hhead := head?_discoveryOrder entry ms
  rw [← h.order, List.map_cons, ← List.singleton_append, ← List.append_assoc] at hnodup hhead
  rw [List.head?_append_of_ne_nil _ (by simp)] at hhead
  exact fun hmem => (List.nodup_append.1 hnodup).2.2 _ (List.mem_of_head? hhead) _ hmem rfl

theorem failure_eq (h : l.Searches entry (p :: queue) seen ms) (problem : LoadProblem) :
    ((Compiler.failAtImport p ms (.moduleLoad p.name p.offset? problem)).runFrom .parse).1 =
      (.error (loadFailure ms p.name problem) : Except CompileFailure (List ParsedModule)) := by
  have himporter := h.importers p (List.mem_cons_self ..)
  have hrun := Compiler.leads_fail (α := List ParsedModule) (p.blamed ms).1 (p.blamed ms).2
    (.moduleLoad p.name p.offset? problem) .parse .parse
  refine hrun.fst.trans ?_
  unfold Pending.blamed Pending.offset? loadFailure
  rcases hfirst : firstImporter? ms p.name with _ | ⟨m, i⟩
  all_goals
    rw [hfirst] at himporter
    rw [himporter]
  · rfl
  · have hfind := find?_of_nodup h.discovers.nodup_names (firstImporter?_eq_some hfirst).1
    simp only [Option.map_some, hfind]

theorem step (h : l.Searches entry (p :: queue) seen ms) {source : Source} {output : ParseOutput}
    (hload : l.load p.name none = .ok source) (hparse : l.parse source = .ok output) :
    l.Searches entry (queue ++ (newImports p.name output.imports seen).1)
      (newImports p.name output.imports seen).2 (ms ++ [⟨p.name, source, output.tree⟩]) := by
  obtain ⟨tokens, -, hparse'⟩ := Except.bind_eq_ok.1 hparse
  rw [(Jay.parse_eq_ok hparse').1, newImports_addImports, List.nil_append]
  have hseen : ∀ x, seen.contains x = (discoveryOrder entry ms).contains x := fun x =>
    Bool.eq_iff_iff.2 (by rw [List.contains_iff_mem, List.contains_iff_mem, h.seen])
  have horder := discoveryOrder_append entry ms [⟨p.name, source, output.tree⟩]
  rw [List.flatMap_singleton] at horder
  refine ⟨.next h.discovers (h.next?_eq.trans rfl) ⟨hload, output, hparse, rfl⟩, ?_, ?_, ?_⟩
  · rw [horder, List.map_append, List.map_append, names_newImports]
    simp only [hseen]
    rw [← List.append_assoc, List.append_assoc (ms.map _)]
    exact congrArg (· ++ _) h.order
  · intro name
    rw [mem_seen_newImports, h.seen, mem_discoveryOrder, mem_discoveryOrder, or_assoc]
    simp only [List.mem_append, List.mem_singleton, or_and_right, exists_or, exists_eq_left]
  · intro q hq
    rw [firstImporter?_append]
    rcases List.mem_append.1 hq with hq | hq
    · -- what is still in the queue is imported by something already
      have hmem : q.name ∈ discoveryOrder entry ms := by
        rw [← h.order]
        exact List.mem_append_right _ (List.mem_map_of_mem (List.mem_cons_of_mem _ hq))
      have hsome := firstImporter?_isSome hmem fun he =>
        h.entry_not_mem_queue (he ▸ List.mem_map_of_mem hq)
      obtain ⟨x, hx⟩ := Option.isSome_iff_exists.1 hsome
      rw [h.importers q (List.mem_cons_of_mem _ hq), hx]
      rfl
    · have hnone : firstImporter? ms q.name = none := by
        have hfresh := not_mem_seen hq
        rw [h.seen, mem_discoveryOrder, not_or] at hfresh
        exact firstImporter?_eq_none.2 fun m hm i hi he => hfresh.2 ⟨m, hm, i, hi, he⟩
      rw [importer_newImports hq, hnone]
      simp [firstImporter?, Function.comp_def]

end Searches

theorem discover_ends (h : l.Searches entry queue seen ms) (hlimit : budget + ms.length = limit) :
    ∃ ns, l.Discovers entry ns ∧ ns.length ≤ limit ∧
      l.Ends entry limit ns
        ((Compiler.discover l limit budget queue seen ms).runFrom .parse).1 := by
  induction budget generalizing queue seen ms with
  | zero =>
    cases queue with
    | nil =>
      refine ⟨ms, h.discovers, by omega, ?_⟩
      unfold Compiler.discover
      exact .complete h.next?_eq
    | cons p queue =>
      refine ⟨ms, h.discovers, by omega, ?_⟩
      unfold Compiler.discover
      rw [h.failure_eq]
      exact .overLimit h.next?_eq (by omega)
  | succ budget ih =>
    cases queue with
    | nil =>
      refine ⟨ms, h.discovers, by omega, ?_⟩
      unfold Compiler.discover
      exact .complete h.next?_eq
    | cons p queue =>
      unfold Compiler.discover
      rcases l.load_eq p.name with ⟨source, hload⟩ | ⟨problem, -, hload⟩
      · simp only [hload]
        cases hparse : l.parse source with
        | error fault =>
          exact ⟨ms, h.discovers, by omega, .unparsed h.next?_eq (by omega) (hload none) hparse⟩
        | ok output =>
          refine ih (h.step (hload none) hparse) ?_
          rw [List.length_append, List.length_singleton]
          omega
      · simp only [hload, h.failure_eq]
        exact ⟨ms, h.discovers, by omega, .unloaded h.next?_eq (by omega) (hload none)⟩

/-! ## There is one end -/

variable {ns : List ParsedModule} {m : ParsedModule}
  {x y : Except CompileFailure (List ParsedModule)}

theorem Discovers.last (h : l.Discovers entry (ms ++ [m])) :
    next? entry ms = some m.name ∧ l.Parses m := by
  generalize hns : ms ++ [m] = ns at h
  cases h with
  | start => simp at hns
  | next _ hnext hm =>
    obtain ⟨rfl, hlast⟩ := List.append_inj' hns rfl
    cases hlast
    exact ⟨hnext, hm⟩

/-- Where the search ends, no more modules are found. -/
theorem Ends.length_le (h : l.Ends entry limit ms x) (hms : l.Discovers entry ms)
    (hns : l.Discovers entry ns) (hlimit : ns.length ≤ limit) : ns.length ≤ ms.length := by
  by_contra hlt
  rw [Nat.not_le] at hlt
  have hmore := hns.take (ms.length + 1)
  rw [List.take_succ_eq_append_getElem hlt, ← hms.eq_take hns (Nat.le_of_lt hlt)] at hmore
  obtain ⟨hnext, hloads, output, hparses, -⟩ := hmore.last
  cases h with
  | complete hnone => cases hnone.symm.trans hnext
  | overLimit _ hlength => omega
  | unloaded hname _ hload =>
    cases hname.symm.trans hnext
    cases hload.symm.trans hloads
  | unparsed hname _ hload hparse =>
    cases hname.symm.trans hnext
    cases hload.symm.trans hloads
    cases hparse.symm.trans hparses

theorem Ends.unique (h : l.Ends entry limit ms x) (h' : l.Ends entry limit ms y) : x = y := by
  cases h with
  | complete hnone =>
    cases h' with
    | complete => rfl
    | overLimit hname | unloaded hname | unparsed hname => cases hnone.symm.trans hname
  | overLimit hname hlength =>
    cases h' with
    | complete hnone => cases hnone.symm.trans hname
    | overLimit hname' => cases hname.symm.trans hname'; rfl
    | unloaded _ hlt | unparsed _ hlt => exact absurd hlength (Nat.ne_of_lt hlt)
  | unloaded hname hlt hload =>
    cases h' with
    | complete hnone => cases hnone.symm.trans hname
    | overLimit _ hlength => exact absurd hlength (Nat.ne_of_lt hlt)
    | unloaded hname' _ hload' | unparsed hname' _ hload' =>
      cases hname.symm.trans hname'
      cases hload.symm.trans hload'
      try rfl
  | unparsed hname hlt hload hparse =>
    cases h' with
    | complete hnone => cases hnone.symm.trans hname
    | overLimit _ hlength => exact absurd hlength (Nat.ne_of_lt hlt)
    | unloaded hname' _ hload' =>
      cases hname.symm.trans hname'
      cases hload.symm.trans hload'
    | unparsed hname' _ hload' hparse' =>
      cases hname.symm.trans hname'
      cases hload.symm.trans hload'
      cases hparse.symm.trans hparse'
      rfl

end Locator

open Locator

variable {l : Locator} {config : CompileConfig} {x : Except CompileFailure (List ParsedModule)}

/-- The modules that a parse of all modules finds, and how it ends after them. -/
theorem parseAll_eq_iff : parseAll l config = x ↔ ∃ ms, l.Discovers config.entryModule ms ∧
    ms.length ≤ config.maxModules ∧ l.Ends config.entryModule config.maxModules ms x := by
  obtain ⟨ms, hms, hlimit, hends⟩ := discover_ends (Searches.start l config.entryModule)
    (Nat.add_zero config.maxModules)
  refine ⟨fun h => ⟨ms, hms, hlimit, h ▸ hends⟩, ?_⟩
  rintro ⟨ns, hns, hlimit', hends'⟩
  have hlength := Nat.le_antisymm (hends'.length_le hns hms hlimit)
    (hends.length_le hms hns hlimit')
  cases hms.eq_of_length_eq hns hlength
  exact hends.unique hends'

end JayFrontEnd
