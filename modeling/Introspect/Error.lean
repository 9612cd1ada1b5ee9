/-!
The ways in which a query, a path or a match can fail, each with the text that reports it.
-/

namespace Introspect

inductive Error where
  | parse (path message : String)
  | memberNotFound (ty member : String)
  | notWritable (path reason : String)
  /-- `index` is the first argument that no overload of the right arity accepts. -/
  | overloadMismatch (method : String) (index : Option Nat) (reason : String)
  | typeResolution (name reason : String)
  | constraintUnsatisfied (param ty reason : String)
  | inferenceIncomplete (ty : String) (missing : List String)
  | cyclicDependency (ty : String) (cycle : List String)
  | nullReference (segment : String)
  | indexOutOfRange (index length : Nat)
  | typeMismatch (expected found : String)
  | invalidExpression (text message : String)
  | generic (message : String)
  deriving DecidableEq

namespace Error

def message : Error → String
  | parse path message => s!"parse error in `{path}`: {message}"
  | memberNotFound ty member => s!"member `{member}` not found on `{ty}`"
  | notWritable path reason => s!"`{path}` is not writable: {reason}"
  | overloadMismatch method _ reason =>
    s!"no overload of `{method}` accepts the supplied arguments: {reason}"
  | typeResolution name reason => s!"cannot resolve type `{name}`: {reason}"
  | constraintUnsatisfied param ty reason =>
    s!"`{ty}` does not satisfy the constraints of `{param}`: {reason}"
  | inferenceIncomplete ty missing =>
    "cannot infer " ++ ", ".intercalate missing ++ s!" for `{ty}`"
  | cyclicDependency ty cycle =>
    s!"generic parameters of `{ty}` depend on each other cyclically: " ++ " -> ".intercalate cycle
  | nullReference segment => s!"null reference while reading `{segment}`"
  | indexOutOfRange index length => s!"index {index} is out of range for length {length}"
  | typeMismatch expected found => s!"type mismatch: expected {expected}, found {found}"
  | invalidExpression text message => s!"invalid expression `{text}`: {message}"
  | generic message => s!"Generic error: {message}"

def kind : Error → String
  | parse .. => "Parse"
  | memberNotFound .. => "MemberNotFound"
  | notWritable .. => "NotWritable"
  | overloadMismatch .. => "OverloadMismatch"
  | typeResolution .. => "TypeResolution"
  | constraintUnsatisfied .. => "ConstraintUnsatisfied"
  | inferenceIncomplete .. => "InferenceIncomplete"
  | cyclicDependency .. => "CyclicDependency"
  | nullReference .. => "NullReference"
  | indexOutOfRange .. => "IndexOutOfRange"
  | typeMismatch .. => "TypeMismatch"
  | invalidExpression .. => "InvalidExpression"
  | generic .. => "Generic"

/-- The last part of the diagnostic code. -/
def code : Error → String
  | parse .. => "parse"
  | memberNotFound .. => "member_not_found"
  | notWritable .. => "not_writable"
  | overloadMismatch .. => "overload_mismatch"
  | typeResolution .. => "type_resolution"
  | constraintUnsatisfied .. => "constraint_unsatisfied"
  | inferenceIncomplete .. => "inference_incomplete"
  | cyclicDependency .. => "cyclic_dependency"
  | nullReference .. => "null_reference"
  | indexOutOfRange .. => "index_out_of_range"
  | typeMismatch .. => "type_mismatch"
  | invalidExpression .. => "invalid_expression"
  | generic .. => "generic"

/-- Advice for the reader of the error, where there is any. -/
def help? : Error → Option String
  | cyclicDependency .. => some "break the cycle by removing one of the constraints"
  | _ => none

end Error

end Introspect
