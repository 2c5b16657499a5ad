import JayFrontEnd.Analysis.Program
import JayFrontEnd.Proofs.Scope.Growth

/-!
# Analysis as a sequence of events

What the analysis of a module tells the analyzer is a list of events that hangs on the syntax tree
alone: scopes are entered and left, names declared and used, values assigned. `Node.events` lists
them, and `Analyzer.follow` lets an analyzer follow a list of them up to the first that it refuses.
Each event keeps an analyzer well-formed and lets its scope tree grow.
-/

namespace JayFrontEnd

inductive Event where
  | enter (name : String) (kind : ScopeKind)
  | leave
  | declare (name : Node) (kind : SymbolKind)
  | use (name : Node)
  | useRemote (module name : Node)
  /-- The value of the second node is assigned to the name of the first. -/
  | assign (name value : Node)
  | refuse (fault : Fault)
  deriving DecidableEq

def NodeTag.isOperator : NodeTag → Bool
  | add | subtract | multiply | divide => true
  | _ => false

namespace Node

/-- The type of an expression, if `known` tells the types of variables. -/
def typeIn (known : String → Option PrimitiveType) (n : Node) : Option PrimitiveType :=
  match NodeTag.ofName? n.kind with
  | some tag =>
    if tag.isOperator then
      match _hl : n.field? "lhs", _hr : n.field? "rhs" with
      | some l, some r => Analysis.operatorType (l.typeIn known) (r.typeIn known)
      | _, _ => none
    else none
  | none =>
    match TokenKind.ofName? n.kind with
    | some .identifier => known n.textD
    | some literal => PrimitiveType.ofLiteral? literal
    | none => none
termination_by sizeOf n
decreasing_by
  · exact sizeOf_field?_lt _hl
  · exact sizeOf_field?_lt _hr

def arguments (n : Node) : List Node := ((n.field? "args").map (·.items)).getD []

theorem sizeOf_arguments_lt (n : Node) : sizeOf n.arguments < sizeOf n := by
  unfold arguments
  cases hargs : n.field? "args" with
  | none =>
    obtain ⟨position, kind, value⟩ := n
    cases value <;> simp <;> omega
  | some args => exact Nat.lt_trans args.sizeOf_items_lt (sizeOf_field?_lt hargs)

end Node

namespace Event

/-- What follows from something that may be missing; if it is, the analysis is refused. -/
def whenOk {α : Type} (x : Except Fault α) (es : α → List Event) : List Event :=
  match x with
  | .ok a => es a
  | .error fault => [.refuse fault]

mutual

/-- The events of an expression: the uses of names in it. -/
def ofExpression (n : Node) : List Event :=
  match NodeTag.ofName? n.kind with
  | some tag =>
    if tag.isOperator then
      whenOk (n.require "lhs") fun ⟨l, _⟩ => ofExpression l ++
        whenOk (n.require "rhs") fun ⟨r, _⟩ => ofExpression r
    else if tag = .functionCall then ofCall n
    else []
  | none => if TokenKind.ofName? n.kind = some .identifier then [.use n] else []
termination_by 2 * sizeOf n + 1
decreasing_by
  · have := Node.sizeOf_field?_lt ‹n.field? "lhs" = some l›
    omega
  · have := Node.sizeOf_field?_lt ‹n.field? "rhs" = some r›
    omega
  · omega

def ofCall (n : Node) : List Event :=
  whenOk (n.require "name") fun name =>
    (n.field? "module").elim (.use name.1) (.useRemote · name.1) :: ofExpressions n.arguments
termination_by 2 * sizeOf n
decreasing_by
  have := n.sizeOf_arguments_lt
  omega

def ofExpressions : List Node → List Event
  | [] => []
  | n :: ns => ofExpression n ++ ofExpressions ns
termination_by ns => 2 * sizeOf ns
decreasing_by all_goals (simp only [List.cons.sizeOf_spec]; omega)

end

def declaredType (n : Node) : Except Fault PrimitiveType := Analyzer.resolveType n.textD n.position

def declaredType? : Option Node → Except Fault (Option PrimitiveType)
  | none => .ok none
  | some n => some <$> declaredType n

/-- The parameters of a function: their names and types. -/
def params : List Node → Except Fault (List (Node × PrimitiveType))
  | [] => .ok []
  | p :: ps => do
    let ⟨name, _⟩ ← p.require "name"
    let ⟨type, _⟩ ← p.require "type"
    let t ← declaredType type
    pure ((name, t) :: (← params ps))

/-- The events of giving a name the value of an expression. -/
def ofValue (name value : Node) : List Event := ofExpression value ++ [.assign name value]

def ofVariableDecl (n : Node) : List Event :=
  whenOk (n.require "name") fun ⟨name, _⟩ =>
  whenOk (declaredType? (n.field? "type")) fun type =>
    .declare name (.variable type) ::
      match n.field? "value" with
      | some value => ofValue name value
      | none => []

def ofAssignment (n : Node) : List Event :=
  whenOk (n.require "name") fun ⟨name, _⟩ =>
  whenOk (n.require "value") fun ⟨value, _⟩ =>
    .use name :: ofValue name value

mutual

def ofStatement (n : Node) : List Event :=
  match NodeTag.ofName? n.kind with
  | some .variableDecl => ofVariableDecl n
  | some .functionDecl =>
    whenOk (n.require "name") fun ⟨name, _⟩ =>
    whenOk (n.require "body") fun ⟨body, _⟩ =>
    whenOk (params (((n.field? "params").map (·.items)).getD [])) fun params =>
    whenOk (declaredType? (n.field? "returns")) fun returns =>
      .declare name (.function (params.map (·.2)) returns) ::
        (.enter name.textD .function ::
          (params.map (fun (p, t) => .declare p (.variable (some t))) ++ ofStatements body.items) ++
          [.leave])
  | some .assignment => ofAssignment n
  | some .functionCall => ofCall n
  | some .block => .enter "block" .block :: ofStatements n.items ++ [.leave]
  | _ => []
termination_by 2 * sizeOf n + 1
decreasing_by
  · have := Node.sizeOf_field?_lt ‹n.field? "body" = some body›
    have := body.sizeOf_items_lt
    omega
  · have := n.sizeOf_items_lt
    omega

def ofStatements : List Node → List Event
  | [] => []
  | n :: ns => ofStatement n ++ ofStatements ns
termination_by ns => 2 * sizeOf ns
decreasing_by all_goals (simp only [List.cons.sizeOf_spec]; omega)

end

end Event

def Node.events (tree : Node) : List Event := Event.ofStatements tree.items

namespace Analyzer

def step (a : Analyzer) : Event → Except Fault Analyzer
  | .enter name kind => .ok (a.enterScope name kind)
  | .leave => .ok a.exitScope
  | .declare n kind => a.register n.textD kind n.position
  | .use n => .ok (a.expectLocal n.textD n.position)
  | .useRemote module n => .ok (a.expectRemote module.textD n.textD n.position)
  | .assign n value => a.assign n.textD (value.typeIn a.variableType?) value.position
  | .refuse fault => .error fault

def follow (a : Analyzer) (es : List Event) : Except Fault Analyzer := es.foldlM step a

end Analyzer

end JayFrontEnd
