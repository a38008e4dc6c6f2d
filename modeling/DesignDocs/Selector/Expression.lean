import DesignDocs.Selector.Basic

namespace DesignDocs

namespace Selector

inductive Comparison
  | eq
  | ne
  | gt
  | gte
  | lt
  | lte
  deriving DecidableEq

def Comparison.operator : Comparison → String
  | eq => "$eq"
  | ne => "$ne"
  | gt => "$gt"
  | gte => "$gte"
  | lt => "$lt"
  | lte => "$lte"

structure Predicate where
  comparison : Comparison
  argument : Value

def Predicate.operator (p : Predicate) : String := p.comparison.operator

inductive ListOperator
  | among
  | notAmong
  | all
  deriving DecidableEq

def ListOperator.operator : ListOperator → String
  | among => "$in"
  | notAmong => "$nin"
  | all => "$all"

inductive Connective
  | and
  | or
  | nor
  deriving DecidableEq

def Connective.operator : Connective → String
  | and => "$and"
  | or => "$or"
  | nor => "$nor"

inductive Condition
  | compare (c : Comparison) (argument : Value)
  | present (b : Bool)
  | typeOf (name : String)
  | list (op : ListOperator) (values : List Value)
  | size (length : UInt64)
  | modulo (divisor remainder : Int64)
  | regex (pattern : String)
  | elemMatch (predicates : List Predicate)

inductive ConditionFault
  | tooFewValues (op : ListOperator)
  | zeroDivisor
  | noPredicate
  | repeatedOperator (c : Comparison)

def ConditionFault.error : ConditionFault → DesignError
  | tooFewValues op => .of .invalidSelector (op.operator ++ " needs at least two values")
  | zeroDivisor => .of .invalidSelector "Divisor of $mod cannot be zero"
  | noPredicate => .of .invalidSelector "$elemMatch needs at least one predicate"
  | repeatedOperator c =>
    .of .invalidSelector ("Operator " ++ c.operator ++ " is repeated inside $elemMatch")

/-- The object that maps each predicate's operator to its argument. -/
def Predicate.collect (before : Object) : List Predicate → Except ConditionFault Object
  | [] => .ok before
  | p :: ps =>
    if h : p.operator ∈ before.names then .error (.repeatedOperator p.comparison)
    else collect (before.push p.operator p.argument h) ps

namespace Condition

def entry : Condition → Except ConditionFault (String × Value)
  | compare c v => .ok (c.operator, v)
  | present b => .ok ("$exists", .bool b)
  | typeOf name => .ok ("$type", .string name)
  | list op values =>
    if values.length < 2 then .error (.tooFewValues op)
    else .ok (op.operator, .array values)
  | size n => .ok ("$size", .number (.ofUInt64 n))
  | modulo divisor remainder =>
    if divisor = 0 then .error .zeroDivisor
    else .ok ("$mod", .array [.number (.ofInt64 divisor), .number (.ofInt64 remainder)])
  | regex pattern => .ok ("$regex", .string pattern)
  | elemMatch [] => .error .noPredicate
  | elemMatch predicates => do
    let o ← Predicate.collect .empty predicates
    return ("$elemMatch", .object o)

end Condition

def onField (field operator : String) (argument : Value) : Selector :=
  ⟨.singleton field (.object (.singleton operator argument))⟩

def condition (field : String) (c : Condition) : Except DesignError Selector :=
  match c.entry with
  | .ok (operator, argument) => .ok (onField field operator argument)
  | .error f => .error f.error

def combine (c : Connective) (operands : List Selector) : Selector :=
  ⟨.singleton c.operator (.array (operands.map toValue))⟩

def negate (s : Selector) : Selector := ⟨.singleton "$not" s.toValue⟩

end Selector

/-- Conditions put together with connectives. An expression is built from the innermost and leftmost
part on, and its error is the first one met. -/
inductive SelectorExpression
  | condition (field : String) (c : Selector.Condition)
  | combine (c : Selector.Connective) (operands : List SelectorExpression)
  | negate (operand : SelectorExpression)
  | given (s : Selector)

namespace SelectorExpression

mutual

def build : SelectorExpression → Except DesignError Selector
  | condition field c => Selector.condition field c
  | combine c operands => (buildAll operands).map (Selector.combine c)
  | negate operand => operand.build.map Selector.negate
  | given s => .ok s

def buildAll : List SelectorExpression → Except DesignError (List Selector)
  | [] => .ok []
  | e :: es => do
    let s ← e.build
    let ss ← buildAll es
    return s :: ss

end

end SelectorExpression

end DesignDocs
