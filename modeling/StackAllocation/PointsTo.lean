import Mathlib.Data.Int.Notation
import Mathlib.Data.Nat.Notation

/-!
# The connection graph

The graph of escape analysis. Its nodes are Java objects (allocations, calls that
return objects, constants), local variables, fields (address expressions) and
arraycopies. An edge leads from a local variable or a field to what it may refer to,
from an object to its fields, and from the destination of an arraycopy through the
arraycopy to its source. Every node knows its users; a local variable's users
include, marked, the fields it is the base of.

Nodes are numbered. The sources' pointers to `phantom_obj` and `null_obj` are the
numbers 0 and 1.
-/

namespace StackAllocation

/-- `PointsToNode::EscapeState`, in the order of the sources' comparisons. -/
inductive EscapeState : Type where
  | unknown | noEscape | argEscape | globalEscape
  deriving DecidableEq, Repr

/-- The number of an escape state. -/
def EscapeState.toNat : EscapeState → ℕ
  | .unknown => 0
  | .noEscape => 1
  | .argEscape => 2
  | .globalEscape => 3

/-- `PointsToNode::NodeType`. -/
inductive NodeType : Type where
  | javaObject | localVar | field | arraycopy
  deriving DecidableEq, Repr

/-- What the ideal node of a Java object is. -/
inductive IdealKind : Type where
  /-- an `Allocate` or `AllocateArray` -/
  | allocate
  /-- a `CallStaticJava` -/
  | callStaticJava
  /-- the constant `NULL` -/
  | nullConP
  /-- anything else: parameters, other constants, the top of the phantom object -/
  | other
  deriving DecidableEq, Repr

/-- An entry of `_uses`: a node that refers to this one, or a field this one is the base of
(`is_base_use`). -/
inductive Use : Type where
  | edge (n : ℕ)
  | base (f : ℕ)
  deriving DecidableEq, Repr

/-- A `PointsToNode` with the fields of its subclasses. -/
structure PointsToNode : Type where
  /-- `_type` -/
  type : NodeType
  /-- `_node` -/
  ideal : IdealKind
  /-- `_edges` -/
  edges : List ℕ
  /-- `_uses` -/
  uses : List Use
  /-- `_bases` of a field -/
  bases : List ℕ
  /-- `_offset` of a field; `none` is `Type::OffsetBot` -/
  offset : Option ℤ
  /-- `_is_oop` of a field -/
  isOop : Bool
  /-- `_escape` -/
  escapeState : EscapeState
  /-- `_fields_escape` -/
  fieldsEscapeState : EscapeState
  /-- `ScalarReplaceable` -/
  scalarReplaceable : Bool
  /-- `PointsToUnknown` -/
  hasUnknownPtr : Bool
  /-- `ArraycopySrc` -/
  arraycopySrc : Bool
  /-- `ArraycopyDst` -/
  arraycopyDst : Bool
  /-- `_has_unknown_base` of a field -/
  hasUnknownBase : Bool
  deriving DecidableEq, Repr

/-- The nodes of a connection graph. -/
abbrev Nodes := ℕ → PointsToNode

/-- `phantom_obj`, which stands for all objects the analysis does not see. -/
def phantomObj : ℕ := 0

/-- `null_obj`. -/
def nullObj : ℕ := 1

/-- A node that has no edges yet. -/
def blankNode (type : NodeType) (ideal : IdealKind) (es : EscapeState) : PointsToNode where
  type := type
  ideal := ideal
  edges := []
  uses := []
  bases := []
  offset := none
  isOop := false
  escapeState := es
  fieldsEscapeState := es
  scalarReplaceable := true
  hasUnknownPtr := false
  arraycopySrc := false
  arraycopyDst := false
  hasUnknownBase := false

end StackAllocation
