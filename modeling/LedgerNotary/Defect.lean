/-! The rules that a threshold key and a transaction can break, each with its wording. -/

namespace LedgerNotary

inductive KeyDefect
  | tooDeep
  | zeroThreshold
  | noChildren
  | zeroWeight
  | duplicateChild
  | unreachable
deriving DecidableEq, Repr

def KeyDefect.message : KeyDefect → String
  | .tooDeep => "nesting too deep"
  | .zeroThreshold => "threshold must be positive"
  | .noChildren => "no children"
  | .zeroWeight => "child weight must be positive"
  | .duplicateChild => "duplicate child key"
  | .unreachable => "threshold unreachable"

inductive LayoutDefect
  | noGroups
  | tooManyGroups
  | tooManyComponents
  | missingGroups
  | crowdedSingleton
  | zeroSalt
  | inputsWithoutNotary
  | windowWithoutNotary
  | duplicateInput
  | noLeaves
deriving DecidableEq, Repr

def LayoutDefect.message : LayoutDefect → String
  | .noGroups => "component group list is empty"
  | .tooManyGroups => "too many component groups"
  | .tooManyComponents => "too many components in a group"
  | .missingGroups => "missing component groups"
  | .crowdedSingleton => "singleton group holds more than one component"
  | .zeroSalt => "privacy salt must not be all zeros"
  | .inputsWithoutNotary => "transaction with inputs must name a notary"
  | .windowWithoutNotary => "transaction with a time window must name a notary"
  | .duplicateInput => "duplicate input state"
  | .noLeaves => "cannot build a Merkle tree from zero leaves"

end LedgerNotary
