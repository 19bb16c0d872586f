import RecordStore.KeyRange

/-!
Comparison mappings, such as one with the operators `gte` and `lt`, as descriptors of ranges, and
descriptors as ranges of keys. A mapping has one operator, or one of each side; anything that is
not a mapping stands for itself.
-/

namespace RecordStore
namespace RangeExpression

/-- The operators that bound a range from below, and whether the bound is included. -/
def lower? : Value → Option Bool
  | .text "gt" => some false
  | .text "gte" => some true
  | _ => none

/-- The operators that bound a range from above, and whether the bound is included. -/
def upper? : Value → Option Bool
  | .text "lt" => some false
  | .text "lte" => some true
  | _ => none

def isEqual : Value → Bool
  | .text "eq" => true
  | _ => false

/-- The descriptor of one operator with its operand. -/
def single (operator operand : Value) : Except Failure Value :=
  if isEqual operator then .ok (.descriptor (.equals operand))
  else match lower? operator, upper? operator with
    | some inclusive, _ => .ok (.descriptor (.lower operand (.bool inclusive)))
    | _, some inclusive => .ok (.descriptor (.upper operand (.bool inclusive)))
    | none, none => .error (.unknownOperator operator)

/-- The descriptor of two operators, in either order. -/
def pair (first second : Value × Value) : Except Failure Value :=
  match lower? first.1, upper? second.1, lower? second.1, upper? first.1 with
  | some i, some j, _, _ => .ok (.descriptor (.bound first.2 second.2 (.bool i) (.bool j)))
  | _, _, some i, some j => .ok (.descriptor (.bound second.2 first.2 (.bool i) (.bool j)))
  | _, _, _, _ => .error (.unpairedOperators [first.1, second.1])

/-- Translates a comparison mapping. -/
def translate : Value → Except Failure Value
  | .dict [(operator, operand)] => single operator operand
  | .dict [first, second] => pair first second
  | .dict members => .error (.operatorCount members.length)
  | v => .ok v

/-- Turns a descriptor into a range of keys, and the unbounded one into null. -/
def toNative : Value → Except Failure Value
  | .descriptor (.equals v) => (KeyRange.only v).map .keyRange
  | .descriptor (.lower v inclusive) => (KeyRange.lowerBound v (!inclusive.isTrue)).map .keyRange
  | .descriptor (.upper v inclusive) => (KeyRange.upperBound v (!inclusive.isTrue)).map .keyRange
  | .descriptor (.bound l u i j) => (KeyRange.bound l u (!i.isTrue) (!j.isTrue)).map .keyRange
  | .descriptor .unbounded => .ok .null
  | v => .ok v

/-- The range or key that an argument stands for. -/
def resolve (v : Value) : Except Failure Value := do
  let descriptor ← translate v
  toNative descriptor

end RangeExpression
end RecordStore
