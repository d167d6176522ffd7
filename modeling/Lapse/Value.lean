import Lapse.Number.Layout
import Lapse.Text.Quoted

namespace Lapse

/-- A dictionary's fields stand in the order of their names. -/
inductive Value
  | null
  | bool (b : Bool)
  | int (i : Int)
  | float (x : Binary64)
  | text (s : String)
  | tuple (vs : List Value)
  | list (vs : List Value)
  | dict (fields : List (String × Value))
  deriving Inhabited

/-- A number in the form in which equal numbers are the same: an integer, or a datum that equals
none. -/
inductive Quantity
  | integer (i : Int)
  | other (x : Binary64)
  deriving DecidableEq

def Quantity.ofBool (b : Bool) : Quantity := .integer (if b then 1 else 0)

def Quantity.ofFloat (x : Binary64) : Quantity :=
  match x.integer? with
  | some i => .integer i
  | none => .other x

def Quantity.equal (a b : Quantity) : Bool :=
  a = b && match a with
    | .integer _ => true
    | .other x => !x.isNan

namespace Value

def quantity? : Value → Option Quantity
  | bool b => some (.ofBool b)
  | int i => some (.integer i)
  | float x => some (.ofFloat x)
  | _ => none

mutual

/-- Sameness as written: kinds are told apart, also those of numbers. -/
def identical : Value → Value → Bool
  | null, null => true
  | bool a, bool b => a == b
  | int a, int b => a == b
  | float a, float b => a.canonical = b.canonical
  | text a, text b => a == b
  | tuple as, tuple bs => identicalAll as bs
  | list as, list bs => identicalAll as bs
  | dict as, dict bs => identicalFields as bs
  | _, _ => false

def identicalAll : List Value → List Value → Bool
  | [], [] => true
  | a :: as, b :: bs => identical a b && identicalAll as bs
  | _, _ => false

def identicalFields : List (String × Value) → List (String × Value) → Bool
  | [], [] => true
  | (m, a) :: as, (n, b) :: bs => m == n && identical a b && identicalFields as bs
  | _, _ => false

end

mutual

/-- Equality of values: numbers of all kinds by what they stand for, the rest by parts. -/
def equal : Value → Value → Bool
  | null, null => true
  | text a, text b => a == b
  | tuple as, tuple bs => equalAll as bs
  | list as, list bs => equalAll as bs
  | dict as, dict bs => equalFields as bs
  | a, b =>
    match a.quantity?, b.quantity? with
    | some p, some q => p.equal q
    | _, _ => false

def equalAll : List Value → List Value → Bool
  | [], [] => true
  | a :: as, b :: bs => equal a b && equalAll as bs
  | _, _ => false

def equalFields : List (String × Value) → List (String × Value) → Bool
  | [], [] => true
  | (m, a) :: as, (n, b) :: bs => m == n && equal a b && equalFields as bs
  | _, _ => false

end

def isTrue : Value → Bool
  | null => false
  | bool b => b
  | int i => i ≠ 0
  | float x => !x.isZero
  | text s => s ≠ ""
  | tuple vs => !vs.isEmpty
  | list vs => !vs.isEmpty
  | dict fields => !fields.isEmpty

mutual

/-- Integers are written in full, however long: `digitLimit` bounds what is read only, and no
fault of writing is modelled. -/
def write : Value → String
  | null => "None"
  | bool b => if b then "True" else "False"
  | int i => toString i
  | float x => x.write .standard
  | text s => quoted s
  | tuple [] => "()"
  | tuple [v] => "(" ++ write v ++ ",)"
  | tuple (v :: vs) => "(" ++ write v ++ writeRest vs ++ ")"
  | list [] => "[]"
  | list (v :: vs) => "[" ++ write v ++ writeRest vs ++ "]"
  | dict [] => "\x7b\x7d"
  | dict ((n, v) :: fields) =>
    "\x7b" ++ quoted n ++ ": " ++ write v ++ writeRestFields fields ++ "\x7d"

def writeRest : List Value → String
  | [] => ""
  | v :: vs => ", " ++ write v ++ writeRest vs

def writeRestFields : List (String × Value) → String
  | [] => ""
  | (n, v) :: fields => ", " ++ quoted n ++ ": " ++ write v ++ writeRestFields fields

end

end Value

end Lapse
