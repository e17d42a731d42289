import ProgramTree.Named

/-!
The taxonomy of nodes: four categories and the variants of each. The order of the variants, modules
first and objects last, is the order in which tags are listed and compared.
-/

namespace ProgramTree

/-- What a node can be used as. A child slot asks for one category, and a node entered through a
slot of another category is an error. -/
inductive Category where
  | module
  | expression
  | statement
  | object
  deriving DecidableEq, Repr

namespace Category

def name : Category → String
  | module => "module"
  | expression => "expression"
  | statement => "statement"
  | object => "object"

def handleName : Category → String
  | module => "ModuleId"
  | expression => "ExprId"
  | statement => "StmtId"
  | object => "ObjectId"

end Category

inductive Tag where
  | processor
  | graph
  | nameSpace
  | constant
  | binaryOperator
  | unaryOperator
  | ternaryOp
  | assignment
  | variableRef
  | variableDeclaration
  | callOrCast
  | functionCall
  | typeCast
  | arrayElementRef
  | structMemberRef
  | preOrPostIncOrDec
  | subscriptWithBrackets
  | subscriptWithChevrons
  | qualifiedIdentifier
  | dotOperator
  | typeMetaFunction
  | commaSeparatedList
  | concreteType
  | inputEndpointRef
  | outputEndpointRef
  | processorRef
  | writeToEndpoint
  | processorProperty
  | advanceClock
  | block
  | expressionStatement
  | ifStatement
  | loopStatement
  | returnStatement
  | breakStatement
  | continueStatement
  | noopStatement
  | function
  | structDeclaration
  | usingDeclaration
  | endpointDeclaration
  | connection
  | processorInstance
  | processorAliasDeclaration
  | staticAssertion
  | annotationObject
  deriving DecidableEq, Repr

namespace Tag

def name : Tag → String
  | processor => "Processor"
  | graph => "Graph"
  | nameSpace => "Namespace"
  | constant => "Constant"
  | binaryOperator => "BinaryOperator"
  | unaryOperator => "UnaryOperator"
  | ternaryOp => "TernaryOp"
  | assignment => "Assignment"
  | variableRef => "VariableRef"
  | variableDeclaration => "VariableDeclaration"
  | callOrCast => "CallOrCast"
  | functionCall => "FunctionCall"
  | typeCast => "TypeCast"
  | arrayElementRef => "ArrayElementRef"
  | structMemberRef => "StructMemberRef"
  | preOrPostIncOrDec => "PreOrPostIncOrDec"
  | subscriptWithBrackets => "SubscriptWithBrackets"
  | subscriptWithChevrons => "SubscriptWithChevrons"
  | qualifiedIdentifier => "QualifiedIdentifier"
  | dotOperator => "DotOperator"
  | typeMetaFunction => "TypeMetaFunction"
  | commaSeparatedList => "CommaSeparatedList"
  | concreteType => "ConcreteType"
  | inputEndpointRef => "InputEndpointRef"
  | outputEndpointRef => "OutputEndpointRef"
  | processorRef => "ProcessorRef"
  | writeToEndpoint => "WriteToEndpoint"
  | processorProperty => "ProcessorProperty"
  | advanceClock => "AdvanceClock"
  | block => "Block"
  | expressionStatement => "ExpressionStatement"
  | ifStatement => "IfStatement"
  | loopStatement => "LoopStatement"
  | returnStatement => "ReturnStatement"
  | breakStatement => "BreakStatement"
  | continueStatement => "ContinueStatement"
  | noopStatement => "NoopStatement"
  | function => "Function"
  | structDeclaration => "StructDeclaration"
  | usingDeclaration => "UsingDeclaration"
  | endpointDeclaration => "EndpointDeclaration"
  | connection => "Connection"
  | processorInstance => "ProcessorInstance"
  | processorAliasDeclaration => "ProcessorAliasDeclaration"
  | staticAssertion => "StaticAssertion"
  | annotationObject => "Annotation"

def category : Tag → Category
  | processor | graph | nameSpace => .module
  | block | expressionStatement | ifStatement | loopStatement | returnStatement
  | breakStatement | continueStatement | noopStatement => .statement
  | function | structDeclaration | usingDeclaration | endpointDeclaration | connection
  | processorInstance | processorAliasDeclaration | staticAssertion | annotationObject => .object
  | _ => .expression

def all : List Tag :=
  [processor, graph, nameSpace, constant, binaryOperator, unaryOperator, ternaryOp, assignment,
   variableRef, variableDeclaration, callOrCast, functionCall, typeCast, arrayElementRef,
   structMemberRef, preOrPostIncOrDec, subscriptWithBrackets, subscriptWithChevrons,
   qualifiedIdentifier, dotOperator, typeMetaFunction, commaSeparatedList, concreteType,
   inputEndpointRef, outputEndpointRef, processorRef, writeToEndpoint, processorProperty,
   advanceClock, block, expressionStatement, ifStatement, loopStatement, returnStatement,
   breakStatement, continueStatement, noopStatement, function, structDeclaration,
   usingDeclaration, endpointDeclaration, connection, processorInstance,
   processorAliasDeclaration, staticAssertion, annotationObject]

def rank (t : Tag) : Nat :=
  all.idxOf t

end Tag

instance : Named Tag where
  all := Tag.all
  name := Tag.name

end ProgramTree
