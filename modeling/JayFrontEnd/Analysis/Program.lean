import JayFrontEnd.Analysis.Analyzer
import JayFrontEnd.Node
import JayFrontEnd.Vocabulary.NodeTag

/-!
# Analysis of a module

Walks the tree of a module and tells the analyzer what it finds. A function has one scope for its
parameters and its body; a block among statements has a scope of its own. A declaration stands where
its name does. `infer` notes the names an expression uses and gives its type, if that is known: an
operator needs two operands of one type.
-/

namespace JayFrontEnd

namespace Node

theorem sizeOf_lookup_lt {name : String} {m : Node} :
    ∀ {fields : List (String × Option Node)}, (fields.lookup name).join = some m →
      sizeOf m < sizeOf fields
  | [], h => by simp at h
  | (n, o) :: fields, h => by
    rw [List.lookup_cons] at h
    split at h
    · obtain rfl : o = some m := by simpa using h
      simp; omega
    · have := sizeOf_lookup_lt h
      simp; omega

theorem sizeOf_field?_lt {n m : Node} {name : String} (h : n.field? name = some m) :
    sizeOf m < sizeOf n := by
  obtain ⟨position, kind, value⟩ := n
  cases value with
  | composite fields =>
    have := sizeOf_lookup_lt (show (fields.lookup name).join = some m from h)
    simp; omega
  | _ => exact absurd h (by simp [field?, Node.value, Value.field?])

theorem sizeOf_items_lt (n : Node) : sizeOf n.items < sizeOf n := by
  obtain ⟨position, kind, value⟩ := n
  cases value <;> simp [items, Node.value, Value.items] <;> omega

/-- A field that has to be there. -/
def require (n : Node) (name : String) : Except Fault { m : Node // n.field? name = some m } :=
  match n.field? name with
  | some m => .ok ⟨m, rfl⟩
  | none => .error (.grammar (.missingField n.kind name))

end Node

/-- Work on an analyzer, which keeps what it has recorded when the work fails. -/
abbrev Analysis := ExceptT Fault (StateM Analyzer)

namespace Analysis

def attempt (f : Analyzer → Except Fault Analyzer) : Analysis Unit := do
  match f (← get) with
  | .ok a => set a
  | .error fault => throw fault

def expectLocal (n : Node) : Analysis Unit := modify fun a => a.expectLocal n.textD n.position

def expectRemote (module n : Node) : Analysis Unit :=
  modify fun a => a.expectRemote module.textD n.textD n.position

def register (n : Node) (kind : SymbolKind) : Analysis Unit :=
  attempt fun a => a.register n.textD kind n.position

/-- Assigns a value to the name that a node has for its text. -/
def assign (n : Node) (type : Option PrimitiveType) (value : Node) : Analysis Unit :=
  attempt fun a => a.assign n.textD type value.position

def inScope (name : String) (kind : ScopeKind) (body : Analysis Unit) : Analysis Unit :=
  fun a => a.inScope name kind body

def declaredType (n : Node) : Analysis PrimitiveType := Analyzer.resolveType n.textD n.position

def declaredType? : Option Node → Analysis (Option PrimitiveType)
  | none => pure none
  | some n => some <$> declaredType n

/-- The type of an operator's value. -/
def operatorType : Option PrimitiveType → Option PrimitiveType → Option PrimitiveType
  | some l, some r => if l = r then some l else none
  | _, _ => none

mutual

def infer (n : Node) : Analysis (Option PrimitiveType) :=
  match NodeTag.ofName? n.kind with
  | some .add | some .subtract | some .multiply | some .divide => do
    let ⟨lhs, _⟩ ← n.require "lhs"
    let l ← infer lhs
    let ⟨rhs, _⟩ ← n.require "rhs"
    let r ← infer rhs
    pure (operatorType l r)
  | some .functionCall => do
    functionCall n
    pure none
  | some _ => pure none
  | none =>
    match TokenKind.ofName? n.kind with
    | some .identifier => do
      expectLocal n
      pure ((← get).variableType? n.textD)
    | some literal => pure (PrimitiveType.ofLiteral? literal)
    | none => pure none
termination_by 2 * sizeOf n + 1
decreasing_by
  · have := Node.sizeOf_field?_lt ‹n.field? "lhs" = some lhs›
    omega
  · have := Node.sizeOf_field?_lt ‹n.field? "rhs" = some rhs›
    omega
  · omega

/-- Notes the name that a call uses, and what its arguments use. -/
def functionCall (n : Node) : Analysis Unit := do
  let ⟨name, _⟩ ← n.require "name"
  match n.field? "module" with
  | some module => expectRemote module name
  | none => expectLocal name
  match _h : n.field? "args" with
  | some args => inferAll args.items
  | none => pure ()
termination_by 2 * sizeOf n
decreasing_by
  have := Node.sizeOf_field?_lt _h
  have := args.sizeOf_items_lt
  omega

def inferAll : List Node → Analysis Unit
  | [] => pure ()
  | n :: ns => do
    let _ ← infer n
    inferAll ns
termination_by ns => 2 * sizeOf ns
decreasing_by all_goals (simp only [List.cons.sizeOf_spec]; omega)

end

/-- The parameters of a function: their names and types. -/
def params : List Node → Analysis (List (Node × PrimitiveType))
  | [] => pure []
  | p :: ps => do
    let ⟨name, _⟩ ← p.require "name"
    let ⟨type, _⟩ ← p.require "type"
    let t ← declaredType type
    pure ((name, t) :: (← params ps))

def variableDecl (n : Node) : Analysis Unit := do
  let ⟨name, _⟩ ← n.require "name"
  register name (.variable (← declaredType? (n.field? "type")))
  match n.field? "value" with
  | some value => assign name (← infer value) value
  | none => pure ()

def assignment (n : Node) : Analysis Unit := do
  let ⟨name, _⟩ ← n.require "name"
  let ⟨value, _⟩ ← n.require "value"
  expectLocal name
  assign name (← infer value) value

mutual

def statement (n : Node) : Analysis Unit :=
  match NodeTag.ofName? n.kind with
  | some .variableDecl => variableDecl n
  | some .functionDecl => do
    let ⟨name, _⟩ ← n.require "name"
    let ⟨body, _⟩ ← n.require "body"
    let params ← params (((n.field? "params").map (·.items)).getD [])
    let returns ← declaredType? (n.field? "returns")
    register name (.function (params.map (·.2)) returns)
    inScope name.textD .function do
      params.forM fun (p, t) => register p (.variable (some t))
      statements body.items
  | some .assignment => assignment n
  | some .functionCall => functionCall n
  | some .block => inScope "block" .block (statements n.items)
  | _ => pure ()
termination_by 2 * sizeOf n + 1
decreasing_by
  · have := Node.sizeOf_field?_lt ‹n.field? "body" = some body›
    have := body.sizeOf_items_lt
    omega
  · have := n.sizeOf_items_lt
    omega

def statements : List Node → Analysis Unit
  | [] => pure ()
  | n :: ns => do
    statement n
    statements ns
termination_by ns => 2 * sizeOf ns
decreasing_by all_goals (simp only [List.cons.sizeOf_spec]; omega)

end

end Analysis

def Analyzer.run (a : Analyzer) (tree : Node) : Except Fault Unit × Analyzer :=
  Analysis.statements tree.items a

end JayFrontEnd
