import RecordStore.Value.Basic

/-!
Equality of values. Loose equality compares truth values and numbers of every kind by their
numeric value, at any depth; strict equality also asks that the two values be of one kind at the
top.
-/

namespace RecordStore
namespace Value

/-- The number that a value counts as: booleans are one and zero. -/
inductive Numeric where
  | whole (n : Int)
  | double (x : Double)

def numeric? : Value → Option Numeric
  | bool b => some (.whole (if b then 1 else 0))
  | int n => some (.whole n)
  | float x => some (.double x)
  | _ => none

def Numeric.equals : Numeric → Numeric → Bool
  | .whole m, .whole n => m == n
  | .whole n, .double x => x.equalsInt n
  | .double x, .whole n => x.equalsInt n
  | .double x, .double y => x.equals y

def numericEquals (v w : Value) : Bool :=
  match v.numeric?, w.numeric? with
  | some m, some n => m.equals n
  | _, _ => false

mutual

/-- Loose equality. Sets and mappings are equal when they have as many members and each member of
the first is one of the second; a function equals nothing. -/
def equals : Value → Value → Bool
  | null, null => true
  | text s, text t => s == t
  | bytes b, bytes c => b == c
  | date d, date e => d.equals e
  | list items, list others => allEqual items others
  | tuple items, tuple others => allEqual items others
  | set items, set others => items.length == others.length && allIn items others
  | dict members, dict others => members.length == others.length && membersIn members others
  | ellipsis, ellipsis => true
  | descriptor (.equals v), descriptor (.equals w) => equals v w
  | descriptor (.lower v i), descriptor (.lower w j) => equals v w && equals i j
  | descriptor (.upper v i), descriptor (.upper w j) => equals v w && equals i j
  | descriptor (.bound l u i j), descriptor (.bound l' u' i' j') =>
    equals l l' && equals u u' && equals i i' && equals j j'
  | descriptor .unbounded, descriptor .unbounded => true
  | keyRange r, keyRange q => rangeEquals r q
  | bare v, bare w => equals v w
  | keyed k v, keyed l w => equals k l && equals v w
  | v, w => numericEquals v w
termination_by structural v => v

def allEqual : List Value → List Value → Bool
  | [], [] => true
  | v :: vs, w :: ws => equals v w && allEqual vs ws
  | _, _ => false
termination_by structural vs => vs

def allIn : List Value → List Value → Bool
  | [], _ => true
  | v :: vs, others => others.any (fun w => equals v w) && allIn vs others
termination_by structural vs => vs

def membersIn : List (Value × Value) → List (Value × Value) → Bool
  | [], _ => true
  | (k, v) :: rest, others =>
    others.any (fun m => equals k m.1 && equals v m.2) && membersIn rest others
termination_by structural members => members

def rangeEquals : KeyRange Value → KeyRange Value → Bool
  | ⟨l, u, lo, uo, _, _⟩, ⟨l', u', lo', uo', _, _⟩ =>
    equals l l' && equals u u' && lo == lo' && uo == uo'
termination_by structural r => r

end

/-- The kinds that strict equality tells apart; all numbers that are not truth values are of one. -/
def strictKind (v : Value) : Kind :=
  match v.kind with
  | .int => .float
  | k => k

/-- Equality of values of one kind. -/
def strictEquals (v w : Value) : Bool := v.strictKind == w.strictKind && v.equals w

/-- The elements without those that equal an earlier one. -/
def distinctBy (same : Value → Value → Bool) (items : List Value) : List Value :=
  items.foldl (fun kept v => if kept.any (same · v) then kept else kept ++ [v]) []

/-- A set of the given elements; of equal ones the first is kept. -/
def ofElements (items : List Value) : Value := set (distinctBy equals items)

/-- The members of a mapping after a key is given a value. A key that is there keeps its place. -/
def insertMember (key value : Value) : List (Value × Value) → List (Value × Value)
  | [] => [(key, value)]
  | (k, v) :: rest =>
    if k.equals key then (k, value) :: rest else (k, v) :: insertMember key value rest

/-- A mapping of the given members; a repeated key keeps its first place and takes its last
value. -/
def ofMembers (members : List (Value × Value)) : Value :=
  dict (members.foldl (fun kept (k, v) => insertMember k v kept) [])

end Value
end RecordStore
