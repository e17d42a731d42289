import ProgramTree.Schema

/-!
Hooks: the places at which a scripted pass can step in, and their names.
-/

namespace ProgramTree

namespace Category

def hookName : Category → String
  | module => "module"
  | expression => "expr"
  | statement => "stmt"
  | object => "object"

def all : List Category :=
  [module, expression, statement, object]

end Category

namespace Tag

def hookName : Tag → String
  | processor => "processor"
  | graph => "graph"
  | nameSpace => "namespace"
  | constant => "constant"
  | binaryOperator => "binary_operator"
  | unaryOperator => "unary_operator"
  | ternaryOp => "ternary_op"
  | assignment => "assignment"
  | variableRef => "variable_ref"
  | variableDeclaration => "variable_declaration"
  | callOrCast => "call_or_cast"
  | functionCall => "function_call"
  | typeCast => "type_cast"
  | arrayElementRef => "array_element_ref"
  | structMemberRef => "struct_member_ref"
  | preOrPostIncOrDec => "pre_or_post_inc_or_dec"
  | subscriptWithBrackets => "subscript_with_brackets"
  | subscriptWithChevrons => "subscript_with_chevrons"
  | qualifiedIdentifier => "qualified_identifier"
  | dotOperator => "dot_operator"
  | typeMetaFunction => "type_meta_function"
  | commaSeparatedList => "comma_separated_list"
  | concreteType => "concrete_type"
  | inputEndpointRef => "input_endpoint_ref"
  | outputEndpointRef => "output_endpoint_ref"
  | processorRef => "processor_ref"
  | writeToEndpoint => "write_to_endpoint"
  | processorProperty => "processor_property"
  | advanceClock => "advance_clock"
  | block => "block"
  | expressionStatement => "expression_statement"
  | ifStatement => "if"
  | loopStatement => "loop"
  | returnStatement => "return"
  | breakStatement => "break"
  | continueStatement => "continue"
  | noopStatement => "noop"
  | function => "function"
  | structDeclaration => "struct_declaration"
  | usingDeclaration => "using_declaration"
  | endpointDeclaration => "endpoint_declaration"
  | connection => "connection"
  | processorInstance => "processor_instance"
  | processorAliasDeclaration => "processor_alias"
  | staticAssertion => "static_assertion"
  | annotationObject => "annotation"

end Tag

namespace Session

inductive Hook where
  | entry (category : Category)
  | method (tag : Tag)
  /-- An element of a sequence that is walked by itself. -/
  | item
  deriving DecidableEq, Repr

namespace Hook

def name : Hook → String
  | entry c => c.hookName
  | method t => t.hookName
  | item => "item"

instance : Named Hook where
  all := item :: Category.all.map entry ++ Tag.all.map method
  name := name

/-- Methods are called through an entry point and are not counted by themselves. -/
def isCounted : Hook → Bool
  | method _ => false
  | _ => true

end Hook

inductive Entry where
  | whole
  | enter (category : Category)
  | dispatch (category : Category)
  | walk (tag : Tag)
  deriving DecidableEq, Repr

/-- The functions a pass can start at, by name. Only variants with children have one for walking. -/
def Entry.named : List (String × Entry) :=
  Category.all.map (fun c => (c.hookName, enter c)) ++
  Category.all.map (fun c => ("dispatch_" ++ c.hookName, dispatch c)) ++
  (Tag.all.filter fun t => !t.lanes.isEmpty).map fun t => ("walk_" ++ t.hookName, walk t)

end Session

end ProgramTree
