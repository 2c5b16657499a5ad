import JayFrontEnd.Proofs.Analysis.Program

/-!
# The lexical structure of a module

A module, a function or a block has a scope of its own. What stands in it are the parameters of the
function and the names that its statements mention, but not those in functions and blocks among
them. All of this is read off the syntax tree, and so is the record of a tree: what is found in
which scope, as a walk over the tree comes to it, if scopes are numbered in this order.
-/

namespace JayFrontEnd

/-- How a name is mentioned. -/
inductive Mention where
  | declared (name : Node)
  | used (name : Node)
  /-- The name of a function in another module, in a call. -/
  | called (module name : Node)

namespace Mention

def name : Mention → Node
  | declared n | used n | called _ n => n

def declaration? : Mention → Option (String × Nat)
  | declared n => some (n.textD, n.position)
  | _ => none

def localRef? : Mention → Option LocalRef
  | used n => some { name := n.textD, position := n.position }
  | _ => none

def remoteRef? : Mention → Option RemoteRef
  | called m n => some { module := m.textD, name := n.textD, position := n.position }
  | _ => none

end Mention

namespace Node

def part (n : Node) (field : String) : List Node := (n.field? field).toList

theorem part_eq {n m : Node} {field : String} (h : n.field? field = some m) :
    n.part field = [m] := by
  rw [part, h, Option.toList_some]

theorem sizeOf_lt_of_mem_part {n m : Node} {field : String} (h : m ∈ n.part field) :
    sizeOf m < sizeOf n :=
  sizeOf_field?_lt (Option.mem_toList.1 h)

theorem sizeOf_lt_of_mem_arguments {n m : Node} (h : m ∈ n.arguments) : sizeOf m < sizeOf n :=
  Nat.lt_trans (List.sizeOf_lt_of_mem h) n.sizeOf_arguments_lt

theorem sizeOf_innerStatements_lt {n : Node} : sizeOf n.innerStatements < sizeOf n := by
  have hnil : sizeOf ([] : List Node) < sizeOf n := by
    obtain ⟨position, kind, value⟩ := n
    cases value <;> simp <;> omega
  unfold innerStatements
  split
  · cases hbody : n.field? "body" with
    | none => exact hnil
    | some body => exact Nat.lt_trans body.sizeOf_items_lt (sizeOf_field?_lt hbody)
  · exact n.sizeOf_items_lt
  · exact hnil

def callee (n : Node) : List Mention :=
  (n.part "name").map fun name => (n.field? "module").elim (.used name) (.called · name)

/-- The names an expression mentions: identifiers and names of calls, also in operands and in
arguments. -/
def namesIn (n : Node) : List Mention :=
  match NodeTag.ofName? n.kind with
  | some tag =>
    if tag.isOperator then
      ((n.part "lhs").attach.flatMap fun ⟨l, _⟩ => l.namesIn) ++
        (n.part "rhs").attach.flatMap fun ⟨r, _⟩ => r.namesIn
    else if tag = .functionCall then n.callee ++ n.arguments.attach.flatMap fun ⟨x, _⟩ => x.namesIn
    else []
  | none => if TokenKind.ofName? n.kind = some .identifier then [.used n] else []
termination_by sizeOf n
decreasing_by
  · exact sizeOf_lt_of_mem_part ‹_›
  · exact sizeOf_lt_of_mem_part ‹_›
  · exact sizeOf_lt_of_mem_arguments ‹_›

section equations

variable {n : Node} {tag : NodeTag}

theorem namesIn_operator (ht : NodeTag.ofName? n.kind = some tag) (hop : tag.isOperator = true) :
    n.namesIn = (n.part "lhs").flatMap namesIn ++ (n.part "rhs").flatMap namesIn := by
  rw [namesIn, ht]
  simp only [hop, if_true, List.flatMap_subtype, List.unattach_attach]

theorem namesIn_call (ht : NodeTag.ofName? n.kind = some .functionCall) :
    n.namesIn = n.callee ++ n.arguments.flatMap namesIn := by
  rw [namesIn, ht]
  simp only [NodeTag.isOperator, Bool.false_eq_true, if_false, if_true, List.flatMap_subtype,
    List.unattach_attach]

theorem namesIn_other (ht : NodeTag.ofName? n.kind = some tag) (hop : tag.isOperator = false)
    (hc : tag ≠ .functionCall) : n.namesIn = [] := by
  rw [namesIn, ht]
  simp only [hop, Bool.false_eq_true, if_false, hc]

theorem namesIn_leaf (ht : NodeTag.ofName? n.kind = none) :
    n.namesIn = if TokenKind.ofName? n.kind = some .identifier then [.used n] else [] := by
  rw [namesIn, ht]

end equations

/-- The names a statement mentions in the scope it stands in. -/
def mentions (n : Node) : List Mention :=
  match NodeTag.ofName? n.kind with
  | some .variableDecl => (n.part "name").map .declared ++ (n.part "value").flatMap namesIn
  | some .functionDecl => (n.part "name").map .declared
  | some .assignment => (n.part "name").map .used ++ (n.part "value").flatMap namesIn
  | some .functionCall => n.callee ++ n.arguments.flatMap namesIn
  | _ => []

/-! ## Scopes -/

def opensScope (n : Node) : Bool :=
  match NodeTag.ofName? n.kind with
  | some .functionDecl | some .block => true
  | _ => false

/-- The statements in the scope of a module, a function or a block. -/
def scopeBody (n : Node) : List Node := if n.opensScope then n.innerStatements else n.items

theorem sizeOf_lt_of_mem_scopeBody {n m : Node} (h : m ∈ n.scopeBody) : sizeOf m < sizeOf n := by
  refine Nat.lt_trans (List.sizeOf_lt_of_mem h) ?_
  unfold scopeBody
  split
  · exact sizeOf_innerStatements_lt
  · exact n.sizeOf_items_lt

def parameters (n : Node) : List Node :=
  match NodeTag.ofName? n.kind with
  | some .functionDecl => (((n.field? "params").map (·.items)).getD []).flatMap (·.part "name")
  | _ => []

/-- All the names that are mentioned directly in a scope. -/
def scopeMentions (n : Node) : List Mention :=
  n.parameters.map .declared ++ n.scopeBody.flatMap mentions

def innerScopes (n : Node) : List Node := n.scopeBody.filter opensScope

/-- A module, function or block and all the functions and blocks in it, as they come in the text. -/
def scopes (n : Node) : List Node := n :: n.innerScopes.attach.flatMap fun ⟨m, _⟩ => m.scopes
termination_by sizeOf n
decreasing_by exact sizeOf_lt_of_mem_scopeBody (List.mem_filter.1 ‹_›).1

/-- The name and the kind of a scope, in a module of a name. -/
def scopeHead (module : String) (n : Node) : String × ScopeKind :=
  match NodeTag.ofName? n.kind with
  | some .functionDecl => (((n.field? "name").map textD).getD "", .function)
  | some .block => ("block", .block)
  | _ => (module, .module)

end Node

/-! ## The record of a tree -/

/-- What is found, and in which scope: a name that is mentioned, or a scope. -/
abbrev Finding := ScopeId × (Mention ⊕ Node)

namespace Finding

def mentions (s : ScopeId) (ms : List Mention) : List Finding := ms.map fun m => (s, .inl m)

/-- The scopes that are found, with the scopes they are in. -/
def opened (fs : List Finding) : List (ScopeId × Node) :=
  fs.filterMap fun f => f.2.getRight?.map (f.1, ·)

def within (s : ScopeId) (fs : List Finding) : List (Mention ⊕ Node) :=
  fs.filterMap fun f => if f.1 = s then some f.2 else none

end Finding

namespace Node

mutual

/-- What is found in a statement that stands in scope `s`, if the next scope gets the number
`next`. -/
def record (s next : ScopeId) (n : Node) : List Finding :=
  Finding.mentions s n.mentions ++
    if n.opensScope then
      (s, .inr n) :: (Finding.mentions next (n.parameters.map .declared) ++
        recordAll next (next + 1) n.innerStatements)
    else []
termination_by 2 * sizeOf n + 1
decreasing_by
  have := n.sizeOf_innerStatements_lt
  omega

def recordAll (s next : ScopeId) : List Node → List Finding
  | [] => []
  | n :: ns =>
    let fs := record s next n
    fs ++ recordAll s (next + (Finding.opened fs).length) ns
termination_by ns => 2 * sizeOf ns
decreasing_by all_goals (simp only [List.cons.sizeOf_spec]; omega)

end

end Node

/-! ## What a record says of each scope -/

namespace Finding

variable {s : ScopeId} {fs gs : List Finding}

@[simp] theorem opened_append : opened (fs ++ gs) = opened fs ++ opened gs :=
  List.filterMap_append

@[simp] theorem within_append : within s (fs ++ gs) = within s fs ++ within s gs :=
  List.filterMap_append

@[simp] theorem opened_mentions (ms : List Mention) : opened (mentions s ms) = [] := by
  simp [opened, mentions]

@[simp] theorem opened_cons_scope (n : Node) : opened ((s, .inr n) :: fs) = (s, n) :: opened fs :=
  rfl

theorem within_mentions (s r : ScopeId) (ms : List Mention) :
    within r (mentions s ms) = if s = r then ms.map .inl else [] := by
  unfold within mentions
  rw [List.filterMap_map]
  split
  · next h =>
    simp only [h, Function.comp_def, if_true]
    exact congrFun List.filterMap_eq_map ms
  · next h => simp [h]

theorem within_cons_scope (s r : ScopeId) (n : Node) (fs : List Finding) :
    within r ((s, .inr n) :: fs) = if s = r then .inr n :: within r fs else within r fs := by
  unfold within
  by_cases h : s = r <;> simp [h]

theorem within_eq_nil (h : ∀ f ∈ fs, f.1 ≠ s) : within s fs = [] :=
  List.filterMap_eq_nil_iff.2 fun f hf => if_neg (h f hf)

end Finding

open Finding

namespace Node

/-- What is found in the scope that a statement stands in. -/
def findings (n : Node) : List (Mention ⊕ Node) :=
  n.mentions.map .inl ++ if n.opensScope then [.inr n] else []

def scopeFindings (n : Node) : List (Mention ⊕ Node) :=
  n.parameters.map (fun p => .inl (.declared p)) ++ n.scopeBody.flatMap findings

theorem scopes_eq (n : Node) : n.scopes = n :: n.innerScopes.flatMap scopes := by
  rw [scopes]
  simp only [List.flatMap_subtype, List.unattach_attach]

theorem record_of_opensScope {n : Node} (h : n.opensScope = true) (s next : ScopeId) :
    record s next n = Finding.mentions s n.mentions ++
      (s, .inr n) :: (Finding.mentions next (n.parameters.map .declared) ++
        recordAll next (next + 1) n.innerStatements) := by
  rw [record, if_pos h]

theorem record_of_not_opensScope {n : Node} (h : n.opensScope = false) (s next : ScopeId) :
    record s next n = Finding.mentions s n.mentions := by
  rw [record, h, if_neg Bool.false_ne_true, List.append_nil]

theorem recordAll_cons (s next : ScopeId) (n : Node) (ns : List Node) :
    recordAll s next (n :: ns) =
      record s next n ++ recordAll s (next + (opened (record s next n)).length) ns := by
  rw [recordAll]

/-- What is found in a statement is in the scope it stands in, or in one of those made for it. -/
theorem scope_of_mem_record :
    (∀ s next n, ∀ f ∈ record s next n,
      f.1 = s ∨ next ≤ f.1 ∧ f.1 < next + (opened (record s next n)).length) ∧
    ∀ s next ns, ∀ f ∈ recordAll s next ns,
      f.1 = s ∨ next ≤ f.1 ∧ f.1 < next + (opened (recordAll s next ns)).length := by
  refine record.mutual_induct _ _ (fun s next n ih f hf => ?_) (fun s next f hf => ?_)
    fun s next n ns ihn ihs f hf => ?_
  · have hmentions : ∀ {r ms}, f ∈ Finding.mentions r ms → f.1 = r := fun h => by
      obtain ⟨m, -, rfl⟩ := List.mem_map.1 h
      rfl
    cases hn : n.opensScope with
    | false =>
      rw [record_of_not_opensScope hn] at hf
      exact .inl (hmentions hf)
    | true =>
      rw [record_of_opensScope hn] at hf ⊢
      simp only [opened_append, opened_mentions, opened_cons_scope, List.nil_append,
        List.length_cons]
      rcases List.mem_append.1 hf with hf | hf
      · exact .inl (hmentions hf)
      rcases List.mem_cons.1 hf with rfl | hf
      · exact .inl rfl
      rcases List.mem_append.1 hf with hf | hf
      · obtain rfl := hmentions hf
        exact .inr ⟨Nat.le_refl _, Nat.lt_add_of_pos_right (Nat.succ_pos _)⟩
      · rw [← Nat.add_assoc, Nat.add_right_comm]
        rcases ih f hf with rfl | ⟨h, h'⟩
        · exact .inr ⟨Nat.le_refl _, Nat.lt_add_right _ (Nat.lt_succ_self _)⟩
        · exact .inr ⟨Nat.le_of_succ_le h, h'⟩
  · rw [recordAll] at hf
    cases hf
  · rw [recordAll_cons] at hf ⊢
    rw [opened_append, List.length_append, ← Nat.add_assoc]
    rcases List.mem_append.1 hf with hf | hf
    · exact (ihn f hf).imp_right fun h => ⟨h.1, Nat.lt_add_right _ h.2⟩
    · exact (ihs f hf).imp_right fun h => ⟨Nat.le_of_add_right_le h.1, h.2⟩

/-- The scopes that are found are those in the tree, in this order. -/
theorem opened_record :
    (∀ s next n, (opened (record s next n)).map (·.2) = if n.opensScope then n.scopes else []) ∧
    ∀ s next ns,
      (opened (recordAll s next ns)).map (·.2) = (ns.filter opensScope).flatMap scopes := by
  refine record.mutual_induct _ _ (fun s next n ih => ?_) (fun s next => ?_)
    fun s next n ns ihn ihs => ?_
  · cases hn : n.opensScope with
    | false => simp [record_of_not_opensScope hn]
    | true => simp [record_of_opensScope hn, ih, scopes_eq n, innerScopes, scopeBody, hn]
  · rw [recordAll]
    rfl
  · rw [recordAll_cons, opened_append, List.map_append, ihn, ihs, List.filter_cons]
    split <;> simp

/-- What is found in the scope around, if the numbers of new scopes are larger than its own. -/
theorem within_record :
    (∀ s next n, s < next → within s (record s next n) = n.findings) ∧
    ∀ s next ns, s < next → within s (recordAll s next ns) = ns.flatMap findings := by
  refine record.mutual_induct _ _ (fun s next n _ h => ?_) (fun s next _ => ?_)
    fun s next n ns ihn ihs h => ?_
  · have hinner : within s (recordAll next (next + 1) n.innerStatements) = [] :=
      within_eq_nil fun f hf hs => by
        rcases scope_of_mem_record.2 _ _ _ f hf with rfl | h'
        · exact Nat.ne_of_gt h hs
        · exact Nat.lt_irrefl _ (Nat.lt_trans (hs ▸ h'.1) h)
    cases hn : n.opensScope with
    | false => simp [record_of_not_opensScope hn, within_mentions, findings, hn]
    | true =>
      have hne : next ≠ s := Nat.ne_of_gt h
      simp [record_of_opensScope hn, within_mentions, within_cons_scope, findings, hn, hinner,
        hne]
  · rw [recordAll]
    rfl
  · rw [recordAll_cons, within_append, ihn h, ihs (Nat.lt_add_right _ h), List.flatMap_cons]

/-- What is found in the scopes inside: the one at index `i` has the number `next + i`. -/
theorem within_record_inner :
    (∀ s next n, s < next → ∀ (i : Nat) (m : Node),
      ((opened (record s next n)).map (·.2))[i]? = some m →
        within (next + i) (record s next n) = m.scopeFindings) ∧
    ∀ s next ns, s < next → ∀ (i : Nat) (m : Node),
      ((opened (recordAll s next ns)).map (·.2))[i]? = some m →
        within (next + i) (recordAll s next ns) = m.scopeFindings := by
  refine record.mutual_induct _ _ (fun s next n ih h i m hm => ?_) (fun s next _ i m hm => ?_)
    fun s next n ns ihn ihs h i m hm => ?_
  · have hne : s ≠ next + i := Nat.ne_of_lt (Nat.lt_add_right _ h)
    cases hn : n.opensScope with
    | false => simp [record_of_not_opensScope hn] at hm
    | true =>
      rw [record_of_opensScope hn] at hm ⊢
      simp only [opened_append, opened_mentions, opened_cons_scope, List.nil_append,
        List.map_cons] at hm
      simp only [within_append, within_cons_scope, within_mentions, if_neg hne, List.nil_append]
      cases i with
      | zero =>
        obtain rfl : n = m := by simpa using hm
        rw [Nat.add_zero, if_pos rfl, within_record.2 _ _ _ (Nat.lt_succ_self next), List.map_map,
          scopeFindings, scopeBody, if_pos hn]
        rfl
      | succ i =>
        rw [if_neg (Nat.ne_of_lt (Nat.lt_add_of_pos_right (Nat.succ_pos i))), List.nil_append,
          Nat.add_left_comm, Nat.add_comm i]
        exact ih (Nat.lt_succ_self next) i m hm
  · rw [recordAll] at hm
    cases hm
  · rw [recordAll_cons] at hm ⊢
    rw [opened_append, List.map_append] at hm
    rw [within_append]
    rcases Nat.lt_or_ge i (opened (record s next n)).length with hi | hi
    · rw [List.getElem?_append_left (by rwa [List.length_map])] at hm
      have hlater : within (next + i)
          (recordAll s (next + (opened (record s next n)).length) ns) = [] := by
        refine within_eq_nil fun f hf hs => ?_
        rcases scope_of_mem_record.2 _ _ _ f hf with h' | h'
        · exact absurd (hs ▸ h') (Nat.ne_of_gt (Nat.lt_add_right _ h))
        · exact absurd (hs ▸ h'.1) (Nat.not_le_of_gt (Nat.add_lt_add_left hi _))
      rw [ihn h i m hm, hlater, List.append_nil]
    · obtain ⟨j, rfl⟩ := Nat.exists_eq_add_of_le hi
      rw [List.getElem?_append_right (by simp), List.length_map, Nat.add_sub_cancel_left] at hm
      have hearlier : within (next + ((opened (record s next n)).length + j))
          (record s next n) = [] := by
        refine within_eq_nil fun f hf hs => ?_
        rcases scope_of_mem_record.1 _ _ _ f hf with h' | h'
        · exact absurd (hs ▸ h') (Nat.ne_of_gt (Nat.lt_add_right _ h))
        · exact absurd (hs ▸ h'.2) (Nat.not_lt_of_le (Nat.add_le_add_left (Nat.le_add_right ..) _))
      rw [hearlier, List.nil_append, ← Nat.add_assoc]
      exact ihs (Nat.lt_add_right _ h) j m hm

/-! ### Modules -/

theorem getLeft?_scopeFindings (n : Node) :
    n.scopeFindings.filterMap Sum.getLeft? = n.scopeMentions := by
  have h : ∀ m : Node, m.findings.filterMap Sum.getLeft? = m.mentions := fun m => by
    unfold findings
    split <;> simp [Function.comp_def]
  simp only [scopeFindings, scopeMentions, List.filterMap_append, List.filterMap_flatMap, h]
  simp [Function.comp_def]

theorem getRight?_scopeFindings (n : Node) :
    n.scopeFindings.filterMap Sum.getRight? = n.innerScopes := by
  have h : ∀ ns : List Node,
      (ns.flatMap findings).filterMap Sum.getRight? = ns.filter opensScope := by
    intro ns
    induction ns with
    | nil => rfl
    | cons m ns ih =>
      rw [List.flatMap_cons, List.filterMap_append, ih, List.filter_cons, findings]
      split <;> simp
  rw [scopeFindings, List.filterMap_append, h]
  simp [Function.comp_def, innerScopes]

def IsModule (tree : Node) : Prop := tree.opensScope = false

/-- What is found in a module, whose own scope has the number zero. -/
def moduleRecord (tree : Node) : List Finding := recordAll ScopeTree.root 1 tree.items

variable {tree : Node}

theorem IsModule.scopes_eq (h : tree.IsModule) :
    tree.scopes = tree :: (opened tree.moduleRecord).map (·.2) := by
  rw [tree.scopes_eq, moduleRecord, opened_record.2, innerScopes, scopeBody, h,
    if_neg Bool.false_ne_true]

theorem isAmong_cons_iff {m n : Node} {ns : List Node} :
    m.IsAmong (n :: ns) ↔ m = n ∨ m.IsAmong n.innerStatements ∨ m.IsAmong ns := by
  constructor
  · rintro (_ | h | h)
    · exact .inl rfl
    · exact .inr (.inr h)
    · exact .inr (.inl h)
  · rintro (rfl | h | h)
    · exact .here
    · exact .inner h
    · exact .later h

/-- The scopes that statements make are those of all functions and blocks among them. -/
theorem mem_scopes_of_statements {m : Node} (hm : m.opensScope = true) :
    (∀ (_ _ : ScopeId) n, m ∈ (if n.opensScope then n.scopes else []) ↔
      m = n ∨ m.IsAmong n.innerStatements) ∧
    ∀ (_ _ : ScopeId) ns, m ∈ (ns.filter opensScope).flatMap scopes ↔ m.IsAmong ns := by
  refine record.mutual_induct _ _ (fun _ _ n ih => ?_) (fun _ _ => ?_)
    fun _ _ n ns ihn ihs => ?_
  · cases hn : n.opensScope with
    | false =>
      have hinner : n.innerStatements = [] := by
        unfold opensScope at hn
        unfold innerStatements
        split <;> simp_all
      rw [hinner, if_neg Bool.false_ne_true]
      refine iff_of_false List.not_mem_nil ?_
      rintro (rfl | h)
      · exact absurd (hm.symm.trans hn) Bool.noConfusion
      · cases h
    | true =>
      rw [if_pos rfl, scopes_eq, List.mem_cons, innerScopes, scopeBody, if_pos hn]
      exact or_congr_right ih
  · refine iff_of_false List.not_mem_nil fun h => ?_
    cases h
  · rw [isAmong_cons_iff, ← or_assoc, ← ihn, ← ihs, List.filter_cons]
    split <;> simp

theorem IsModule.mem_scopes_iff (h : tree.IsModule) {m : Node} (hm : m.opensScope = true) :
    m ∈ tree.scopes ↔ m.IsAmong tree.items := by
  rw [tree.scopes_eq, innerScopes, scopeBody, h, if_neg Bool.false_ne_true, List.mem_cons,
    (mem_scopes_of_statements hm).2 0 0]
  exact or_iff_right fun he => absurd (hm.symm.trans (he ▸ h)) Bool.noConfusion

theorem IsModule.parameters_eq (h : tree.IsModule) : tree.parameters = [] := by
  unfold IsModule opensScope at h
  unfold parameters
  split <;> simp_all

/-- The scopes of a module are numbered as they come in the text. -/
theorem IsModule.within_moduleRecord (h : tree.IsModule) {s : ScopeId} {n : Node}
    (hs : tree.scopes[s]? = some n) : within s tree.moduleRecord = n.scopeFindings := by
  rw [h.scopes_eq] at hs
  cases s with
  | zero =>
    obtain rfl : tree = n := by simpa using hs
    rw [moduleRecord, ScopeTree.root, within_record.2 _ _ _ Nat.zero_lt_one, scopeFindings,
      h.parameters_eq, scopeBody, h, if_neg Bool.false_ne_true]
    rfl
  | succ s =>
    rw [Nat.succ_eq_one_add]
    exact within_record_inner.2 _ _ _ Nat.zero_lt_one s n hs

end Node

end JayFrontEnd
