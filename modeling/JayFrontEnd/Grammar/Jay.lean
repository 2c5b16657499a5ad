import JayFrontEnd.Parsing.Apply
import JayFrontEnd.Vocabulary.NodeTag
import JayFrontEnd.Vocabulary.TokenKind

/-!
# The grammar of Jay

A module is a list of import directives and declarations. A statement ends with a line break, which
may be missing before a closing brace. Operators of one strength group to the right:

    root          = NEWLINE? directive* declStatement*
    directive     = IMPORT STRING NEWLINE
    declStatement = (functionDecl | variableDecl) NEWLINE
    statement     = (variableDecl | assignment | functionCall | block) NEWLINE
    variableDecl  = VAR IDENTIFIER IDENTIFIER? ('=' expression)?
    functionDecl  = FUNC IDENTIFIER '(' params? ')' IDENTIFIER? block
    params        = param (',' param)*
    param         = IDENTIFIER IDENTIFIER
    block         = '{' NEWLINE? statement* '}'
    assignment    = IDENTIFIER '=' expression
    functionCall  = IDENTIFIER ('.' IDENTIFIER)? '(' callArgs? ')'
    callArgs      = expression (',' expression)*
    expression    = product (('+' | '-') expression)?
    product       = (parenthesis | functionCall | basicExpression) (('*' | '/') product)?
    parenthesis   = '(' expression ')'

Rules that only choose pass on the node they chose, so that a tree holds no node for them.
-/

namespace JayFrontEnd.Jay

def tok (k : TokenKind) : Atom := .token k.name

def ref (t : NodeTag) : Atom := .rule t.name

def expect (k : TokenKind) (next : Node → Script) : Script := .one [tok k] next

def apply (t : NodeTag) (next : Node → Script) : Script := .one [ref t] next

def contents : Script :=
  .any [ref .importDirective] fun imports =>
  .any [ref .declStatement] fun declarations =>
  .value (.list (imports ++ declarations))

def root : Script :=
  .opt [tok .newline] fun _ => contents

def importDirective : Script :=
  expect .importKeyword fun _ =>
  expect .string fun module =>
  expect .newline fun _ =>
  .importModule module.textD module.position <|
  .value (.composite [("module", some module)])

def declStatement : Script :=
  .one [.named "declaration" (ref .functionDecl), .named "declaration" (ref .variableDecl)] fun d =>
  expect .newline fun _ =>
  .node d

def statement : Script :=
  .one [ref .variableDecl, ref .assignment, ref .functionCall, ref .block] fun s =>
  .unlessAt TokenKind.curlEnd.name (expect .newline fun _ => .node s) (.node s)

/-- The value that a declaration gives its variable. -/
def initializer : Script :=
  expect .equals fun _ =>
  apply .expression fun value =>
  .node value

def variableDecl : Script :=
  expect .varKeyword fun _ =>
  expect .identifier fun name =>
  .opt [tok .identifier] fun type =>
  .opt [.inline "initializer" initializer] fun value =>
  .value (.composite [("name", some name), ("type", type), ("value", value)])

def functionDecl : Script :=
  expect .funcKeyword fun _ =>
  expect .identifier fun name =>
  expect .parenStart fun _ =>
  .opt [ref .params] fun params =>
  expect .parenEnd fun _ =>
  .opt [tok .identifier] fun returns =>
  apply .block fun body =>
  .value (.composite
    [("name", some name), ("params", params), ("returns", returns), ("body", some body)])

def nextParam : Script :=
  expect .comma fun _ =>
  .one [.named "parameter" (ref .param)] fun param =>
  .node param

def params : Script :=
  apply .param fun first =>
  .any [.inline "parameter" nextParam] fun others =>
  .value (.list (first :: others))

def param : Script :=
  expect .identifier fun name =>
  expect .identifier fun type =>
  .value (.composite [("name", some name), ("type", some type)])

def block : Script :=
  expect .curlStart fun _ =>
  .opt [tok .newline] fun _ =>
  .any [ref .statement] fun statements =>
  expect .curlEnd fun _ =>
  .value (.list statements)

def assignment : Script :=
  expect .identifier fun name =>
  expect .equals fun _ =>
  apply .expression fun value =>
  .value (.composite [("name", some name), ("value", some value)])

def member : Script :=
  expect .dot fun _ =>
  expect .identifier fun name =>
  .node name

def functionCall : Script :=
  expect .identifier fun first =>
  .opt [.inline "member" member] fun member =>
  expect .parenStart fun _ =>
  .opt [ref .callArgs] fun args =>
  expect .parenEnd fun _ =>
  .value (.composite
    [("module", member.map fun _ => first), ("name", some (member.getD first)), ("args", args)])

def nextArg : Script :=
  expect .comma fun _ =>
  apply .expression fun arg =>
  .node arg

def callArgs : Script :=
  apply .expression fun first =>
  .any [.inline "argument" nextArg] fun others =>
  .value (.list (first :: others))

def operator? (kind : String) : Option NodeTag :=
  match TokenKind.ofName? kind with
  | some .add => some .add
  | some .sub => some .subtract
  | some .mul => some .multiply
  | some .div => some .divide
  | _ => none

/-- An operator between two operands; the node starts where the left one does. -/
def binary (start : Nat) (operator lhs rhs : Node) : Node :=
  let kind := ((operator? operator.kind).map NodeTag.name).getD operator.kind
  .mk start kind (.composite [("lhs", some lhs), ("rhs", some rhs)])

def expression : Script :=
  .offset fun start =>
  .rule "product" fun lhs =>
  .opt [tok .add, tok .sub] fun operator =>
  match operator with
  | none => .node lhs
  | some operator =>
    apply .expression fun rhs =>
    .node (binary start operator lhs rhs)

def product : Script :=
  .offset fun start =>
  .one [ref .parenthesis, ref .functionCall, ref .basicExpression] fun lhs =>
  .opt [tok .mul, tok .div] fun operator =>
  match operator with
  | none => .node lhs
  | some operator =>
    .rule "product" fun rhs =>
    .node (binary start operator lhs rhs)

def basicExpression : Script :=
  .one [tok .identifier, tok .string, tok .integer, tok .float] .node

def parenthesis : Script :=
  expect .parenStart fun _ =>
  apply .expression fun inner =>
  expect .parenEnd fun _ =>
  .node inner

def grammar : Grammar where
  root := NodeTag.root.name
  rules :=
    [(NodeTag.root.name, root),
      (NodeTag.importDirective.name, importDirective),
      (NodeTag.declStatement.name, declStatement),
      (NodeTag.statement.name, statement),
      (NodeTag.variableDecl.name, variableDecl),
      (NodeTag.functionDecl.name, functionDecl),
      (NodeTag.params.name, params),
      (NodeTag.param.name, param),
      (NodeTag.block.name, block),
      (NodeTag.assignment.name, assignment),
      (NodeTag.functionCall.name, functionCall),
      (NodeTag.callArgs.name, callArgs),
      (NodeTag.expression.name, expression),
      ("product", product),
      (NodeTag.parenthesis.name, parenthesis),
      (NodeTag.basicExpression.name, basicExpression)]

/-- The tree of a module's tokens. With `hasModule?`, a directive may only ask for a module that
there is. -/
def parse (hasModule? : Option (String → Bool)) (ts : List Token) : Except Fault ParseOutput :=
  grammar.parse { input := .tokens ts, hasModule? }

end JayFrontEnd.Jay
