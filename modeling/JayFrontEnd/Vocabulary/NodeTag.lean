/-!
# The nodes of Jay

The tags of syntax tree nodes. All but the operators are also rules of the grammar; a node that is a
token bears the token's kind and has no tag.
-/

namespace JayFrontEnd

inductive NodeTag where
  | root
  | importDirective
  | declStatement
  | statement
  | variableDecl
  | functionDecl
  | params
  | param
  | block
  | assignment
  | functionCall
  | callArgs
  | expression
  | add
  | subtract
  | multiply
  | divide
  | parenthesis
  | basicExpression
  deriving DecidableEq, Repr

namespace NodeTag

def all : List NodeTag :=
  [root, importDirective, declStatement, statement, variableDecl, functionDecl, params, param,
    block, assignment, functionCall, callArgs, expression, add, subtract, multiply, divide,
    parenthesis, basicExpression]

def name : NodeTag → String
  | root => "root"
  | importDirective => "import"
  | declStatement => "declStatement"
  | statement => "statement"
  | variableDecl => "variableDecl"
  | functionDecl => "functionDecl"
  | params => "params"
  | param => "param"
  | block => "block"
  | assignment => "assignment"
  | functionCall => "functionCall"
  | callArgs => "callArgs"
  | expression => "expression"
  | add => "add"
  | subtract => "subtract"
  | multiply => "multiply"
  | divide => "divide"
  | parenthesis => "parenthesis"
  | basicExpression => "basicExpression"

def isRule : NodeTag → Bool
  | add | subtract | multiply | divide => false
  | _ => true

def ofName? (name : String) : Option NodeTag := all.find? (·.name == name)

end NodeTag

end JayFrontEnd
