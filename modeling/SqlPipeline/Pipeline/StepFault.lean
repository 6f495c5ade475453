import SqlPipeline.Text

/-!
# Faults of a pipeline document

What can be wrong with one step of a pipeline document before any operator is
built from it: a field that is missing, a field of the wrong shape, or a step
that cannot stand where it does.
-/

namespace SqlPipeline.Pipeline

/-- What is wrong with a step. -/
inductive StepFault where
  /-- The document is not a list of steps, or an empty one. -/
  | noSteps
  | notAnObject
  | firstNotTable
  | missing (key : Text)
  | notString (key : Text)
  | notStringList (key : Text)
  | notPairList (key : Text)
  | notPair (key : Text)
  | notList (key : Text)
  | notOrderTerm (key : Text)
  | notBoolean (key : Text)
  | notLimit
  | unknownJoinType (name : Text)
  | suffixCount
  | mappingNotList
  | mappingNotPair
  | notProbabilities
  | needsCallerCode
  | tableNotFirst
  | unknownOperator (name : Text)
  deriving Repr, DecidableEq

/-- A name between double quotes. -/
def inQuotes (key : Text) : Text := Text.doubleQuote :: key ++ [Text.doubleQuote]

/-- The wording of a fault. -/
def StepFault.message : StepFault → Text
  | noSteps => "pipeline must be a non-empty array of steps"
  | notAnObject => "step must be an object"
  | firstNotTable => "first step must be \x7b\"op\": \"table\"\x7d"
  | missing key => "missing " ++ inQuotes key
  | notString key => inQuotes key ++ " must be a string"
  | notStringList key => inQuotes key ++ " must be an array of strings"
  | notPairList key => inQuotes key ++ " must be an array of pairs"
  | notPair key => inQuotes key ++ " entries must be [\"target\", \"expression\"]"
  | notList key => inQuotes key ++ " must be an array"
  | notOrderTerm key => inQuotes key ++ " entries must be strings or objects"
  | notBoolean key => inQuotes key ++ " must be a boolean"
  | notLimit => "\"limit\" must be a non-negative integer"
  | unknownJoinType name => "unknown join_type '" ++ name ++ "' (use inner|left|right|full)"
  | suffixCount => "\"suffixes\" must hold exactly two strings"
  | mappingNotList => "\"mapping\" must be an array of [new, old] pairs"
  | mappingNotPair => "\"mapping\" entries must be [new, old] pairs"
  | notProbabilities => "\"probs\" must be an array of numbers"
  | needsCallerCode => "external_transform needs caller code and cannot be loaded from JSON"
  | tableNotFirst => "\"table\" is only valid as the first step"
  | unknownOperator name => "unknown op '" ++ name ++ "'"

end SqlPipeline.Pipeline
