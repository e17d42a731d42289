import ProgramTree.Record
import ProgramTree.Tag

/-!
The fields of every variant. Fields that hold children stand in the order in which the children are
visited.
-/

namespace ProgramTree

namespace Tag

open FieldType

/-- The fields that a node of this variant stores. -/
def fields : Tag → List Field
  | processor =>
    [⟨"name", text⟩, ⟨"endpoints", sequence .object⟩, ⟨"structures", sequence .object⟩,
     ⟨"usings", sequence .object⟩, ⟨"state_variables", sequence .expression⟩,
     ⟨"functions", sequence .object⟩]
  | graph =>
    [⟨"name", text⟩, ⟨"endpoints", sequence .object⟩, ⟨"instances", sequence .object⟩,
     ⟨"aliases", sequence .object⟩, ⟨"connections", sequence .object⟩,
     ⟨"constants", sequence .expression⟩]
  | nameSpace =>
    [⟨"name", text⟩, ⟨"sub_modules", sequence .module⟩, ⟨"structures", sequence .object⟩,
     ⟨"usings", sequence .object⟩, ⟨"constants", sequence .expression⟩,
     ⟨"functions", sequence .object⟩]
  | constant => [⟨"value", literal⟩]
  | binaryOperator =>
    [⟨"op", word .binaryOp⟩, ⟨"lhs", child .expression⟩, ⟨"rhs", child .expression⟩]
  | unaryOperator => [⟨"op", word .unaryOp⟩, ⟨"source", child .expression⟩]
  | ternaryOp =>
    [⟨"condition", child .expression⟩, ⟨"true_branch", child .expression⟩,
     ⟨"false_branch", child .expression⟩]
  | assignment => [⟨"target", child .expression⟩, ⟨"new_value", child .expression⟩]
  | variableRef => [⟨"variable", link .expression⟩]
  | variableDeclaration =>
    [⟨"name", text⟩, ⟨"declared_type", optional .expression⟩,
     ⟨"initial_value", optional .expression⟩, ⟨"annotation", optional .object⟩,
     ⟨"is_constant", flag⟩]
  | callOrCast =>
    [⟨"arguments", optional .expression⟩, ⟨"name_or_type", child .expression⟩,
     ⟨"is_method_call", flag⟩]
  | functionCall => [⟨"function", link .object⟩, ⟨"arguments", optional .expression⟩]
  | typeCast => [⟨"target_type", word .primitiveType⟩, ⟨"source", child .expression⟩]
  | arrayElementRef =>
    [⟨"object", child .expression⟩, ⟨"start_index", child .expression⟩,
     ⟨"end_index", optional .expression⟩, ⟨"is_slice", flag⟩]
  | structMemberRef => [⟨"object", child .expression⟩, ⟨"member", text⟩]
  | preOrPostIncOrDec =>
    [⟨"target", child .expression⟩, ⟨"is_increment", flag⟩, ⟨"is_post", flag⟩]
  | subscriptWithBrackets => [⟨"lhs", child .expression⟩, ⟨"rhs", optional .expression⟩]
  | subscriptWithChevrons => [⟨"lhs", child .expression⟩, ⟨"rhs", child .expression⟩]
  | qualifiedIdentifier => [⟨"path", path⟩]
  | dotOperator => [⟨"lhs", child .expression⟩, ⟨"rhs", text⟩]
  | typeMetaFunction => [⟨"op", word .metaOp⟩, ⟨"source", child .expression⟩]
  | commaSeparatedList => [⟨"items", sequence .expression⟩]
  | concreteType => [⟨"ty", word .primitiveType⟩]
  | inputEndpointRef => [⟨"input", link .object⟩]
  | outputEndpointRef => [⟨"output", link .object⟩]
  | processorRef => [⟨"processor", link .module⟩]
  | writeToEndpoint => [⟨"target", child .expression⟩, ⟨"value", child .expression⟩]
  | processorProperty => [⟨"property", word .propertyKind⟩]
  | advanceClock => []
  | block => [⟨"statements", sequence .statement⟩]
  | expressionStatement => [⟨"expression", child .expression⟩]
  | ifStatement =>
    [⟨"condition", child .expression⟩, ⟨"true_branch", child .statement⟩,
     ⟨"false_branch", optional .statement⟩, ⟨"is_const", flag⟩]
  | loopStatement =>
    [⟨"iterator", optional .statement⟩, ⟨"body", optional .statement⟩,
     ⟨"condition", optional .expression⟩, ⟨"num_iterations", optional .expression⟩,
     ⟨"is_do_loop", flag⟩]
  | returnStatement => [⟨"value", optional .expression⟩]
  | breakStatement => []
  | continueStatement => []
  | noopStatement => []
  | function =>
    [⟨"name", text⟩, ⟨"return_type", child .expression⟩, ⟨"parameters", sequence .expression⟩,
     ⟨"block", optional .statement⟩, ⟨"is_event_handler", flag⟩]
  | structDeclaration => [⟨"name", text⟩, ⟨"members", labelled "ty"⟩]
  | usingDeclaration => [⟨"name", text⟩, ⟨"target_type", optional .expression⟩]
  | endpointDeclaration =>
    [⟨"name", text⟩, ⟨"direction", word .endpointDirection⟩, ⟨"details", details⟩,
     ⟨"child_path", childPath⟩, ⟨"annotation", optional .object⟩]
  | connection =>
    [⟨"source", connectionEnd⟩, ⟨"dest", connectionEnd⟩, ⟨"interpolation", word .interpolation⟩,
     ⟨"delay_length", optional .expression⟩]
  | processorInstance =>
    [⟨"name", text⟩, ⟨"target_processor", child .expression⟩,
     ⟨"specialisation_args", sequence .expression⟩, ⟨"clock_multiplier", optional .expression⟩,
     ⟨"clock_divider", optional .expression⟩]
  | processorAliasDeclaration => [⟨"name", text⟩]
  | staticAssertion => [⟨"condition", child .expression⟩, ⟨"message", text⟩]
  | annotationObject => [⟨"properties", labelled "value"⟩]

/-- The lanes of a variant, in the order in which they are walked. -/
def lanes (t : Tag) : List Lane :=
  lanesOf t.fields

end Tag

end ProgramTree
