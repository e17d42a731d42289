import ProgramTree.Named

/-!
The fixed word lists of the tree: operators, primitive types, and the kinds of endpoints,
connections and processor properties. `Vocabulary` names the lists themselves, so that a field can
say which one its word comes from.
-/

namespace ProgramTree

inductive PrimitiveType where
  | void
  | bool
  | int32
  | int64
  | float32
  | float64
  | string
  deriving DecidableEq, Repr

inductive BinaryOp where
  | add
  | subtract
  | multiply
  | divide
  | modulo
  | bitwiseAnd
  | bitwiseOr
  | bitwiseXor
  | leftShift
  | rightShift
  | logicalAnd
  | logicalOr
  | equals
  | notEquals
  | lessThan
  | lessThanOrEqual
  | greaterThan
  | greaterThanOrEqual
  deriving DecidableEq, Repr

inductive UnaryOp where
  | negate
  | logicalNot
  | bitwiseNot
  deriving DecidableEq, Repr

inductive MetaOp where
  | type
  | size
  | elementType
  | primitiveType
  | isStruct
  | isArray
  | isFloat
  | isInt
  | makeConst
  | removeReference
  deriving DecidableEq, Repr

inductive PropertyKind where
  | period
  | frequency
  | id
  | session
  deriving DecidableEq, Repr

inductive EndpointDirection where
  | input
  | output
  deriving DecidableEq, Repr

inductive EndpointKind where
  | stream
  | value
  | event
  deriving DecidableEq, Repr

inductive InterpolationType where
  | none
  | latch
  | linear
  | sinc
  | fast
  | best
  deriving DecidableEq, Repr

instance : Named PrimitiveType where
  all := [.void, .bool, .int32, .int64, .float32, .float64, .string]
  name
    | .void => "Void"
    | .bool => "Bool"
    | .int32 => "Int32"
    | .int64 => "Int64"
    | .float32 => "Float32"
    | .float64 => "Float64"
    | .string => "String"

instance : Named BinaryOp where
  all := [.add, .subtract, .multiply, .divide, .modulo, .bitwiseAnd, .bitwiseOr, .bitwiseXor,
    .leftShift, .rightShift, .logicalAnd, .logicalOr, .equals, .notEquals, .lessThan,
    .lessThanOrEqual, .greaterThan, .greaterThanOrEqual]
  name
    | .add => "Add"
    | .subtract => "Subtract"
    | .multiply => "Multiply"
    | .divide => "Divide"
    | .modulo => "Modulo"
    | .bitwiseAnd => "BitwiseAnd"
    | .bitwiseOr => "BitwiseOr"
    | .bitwiseXor => "BitwiseXor"
    | .leftShift => "LeftShift"
    | .rightShift => "RightShift"
    | .logicalAnd => "LogicalAnd"
    | .logicalOr => "LogicalOr"
    | .equals => "Equals"
    | .notEquals => "NotEquals"
    | .lessThan => "LessThan"
    | .lessThanOrEqual => "LessThanOrEqual"
    | .greaterThan => "GreaterThan"
    | .greaterThanOrEqual => "GreaterThanOrEqual"

instance : Named UnaryOp where
  all := [.negate, .logicalNot, .bitwiseNot]
  name
    | .negate => "Negate"
    | .logicalNot => "LogicalNot"
    | .bitwiseNot => "BitwiseNot"

instance : Named MetaOp where
  all := [.type, .size, .elementType, .primitiveType, .isStruct, .isArray, .isFloat, .isInt,
    .makeConst, .removeReference]
  name
    | .type => "Type"
    | .size => "Size"
    | .elementType => "ElementType"
    | .primitiveType => "PrimitiveType"
    | .isStruct => "IsStruct"
    | .isArray => "IsArray"
    | .isFloat => "IsFloat"
    | .isInt => "IsInt"
    | .makeConst => "MakeConst"
    | .removeReference => "RemoveReference"

instance : Named PropertyKind where
  all := [.period, .frequency, .id, .session]
  name
    | .period => "Period"
    | .frequency => "Frequency"
    | .id => "Id"
    | .session => "Session"

instance : Named EndpointDirection where
  all := [.input, .output]
  name
    | .input => "Input"
    | .output => "Output"

instance : Named EndpointKind where
  all := [.stream, .value, .event]
  name
    | .stream => "Stream"
    | .value => "Value"
    | .event => "Event"

instance : Named InterpolationType where
  all := [.none, .latch, .linear, .sinc, .fast, .best]
  name
    | .none => "None"
    | .latch => "Latch"
    | .linear => "Linear"
    | .sinc => "Sinc"
    | .fast => "Fast"
    | .best => "Best"

/-- A word list from which a field takes its word. -/
inductive Vocabulary where
  | primitiveType
  | binaryOp
  | unaryOp
  | metaOp
  | propertyKind
  | endpointDirection
  | interpolation
  deriving DecidableEq, Repr

namespace Vocabulary

abbrev Word : Vocabulary → Type
  | primitiveType => PrimitiveType
  | binaryOp => BinaryOp
  | unaryOp => UnaryOp
  | metaOp => MetaOp
  | propertyKind => PropertyKind
  | endpointDirection => EndpointDirection
  | interpolation => InterpolationType

instance named : (v : Vocabulary) → Named v.Word
  | primitiveType => inferInstanceAs (Named PrimitiveType)
  | binaryOp => inferInstanceAs (Named BinaryOp)
  | unaryOp => inferInstanceAs (Named UnaryOp)
  | metaOp => inferInstanceAs (Named MetaOp)
  | propertyKind => inferInstanceAs (Named PropertyKind)
  | endpointDirection => inferInstanceAs (Named EndpointDirection)
  | interpolation => inferInstanceAs (Named InterpolationType)

instance decidableEq : (v : Vocabulary) → DecidableEq v.Word
  | primitiveType => inferInstanceAs (DecidableEq PrimitiveType)
  | binaryOp => inferInstanceAs (DecidableEq BinaryOp)
  | unaryOp => inferInstanceAs (DecidableEq UnaryOp)
  | metaOp => inferInstanceAs (DecidableEq MetaOp)
  | propertyKind => inferInstanceAs (DecidableEq PropertyKind)
  | endpointDirection => inferInstanceAs (DecidableEq EndpointDirection)
  | interpolation => inferInstanceAs (DecidableEq InterpolationType)

end Vocabulary

end ProgramTree
