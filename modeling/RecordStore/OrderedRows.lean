/-!
Rows of keys with values, in ascending order of their keys and with no key twice. The order is
given with each insertion.
-/

namespace RecordStore
namespace OrderedRows

variable {κ α : Type}

/-- Puts a row in its place, or in the place of the row with the same key. -/
def insert (lt : κ → κ → Bool) (key : κ) (value : α) : List (κ × α) → List (κ × α)
  | [] => [(key, value)]
  | (k, v) :: rest =>
    if lt key k then (key, value) :: (k, v) :: rest
    else if lt k key then (k, v) :: insert lt key value rest
    else (key, value) :: rest

/-- Puts an element in its place among others, once. -/
def insertOnce (lt : κ → κ → Bool) (x : κ) : List κ → List κ
  | [] => [x]
  | y :: rest =>
    if lt x y then x :: y :: rest
    else if lt y x then y :: insertOnce lt x rest
    else y :: rest

end OrderedRows
end RecordStore
