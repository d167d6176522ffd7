import Lapse.Key
import Lapse.Numeral.Real

namespace Lapse

inductive Kind
  | value
  | runtime
  | type
  | zeroDivision
  | library
  | validation
  | boom
  | fatal
  deriving DecidableEq

inductive NonNumber
  | null
  | tuple
  | list
  | dict
  deriving DecidableEq

inductive Fault
  | raised (kind : Kind) (message : String)
  | unhashable (what : Unkeyed)
  | recursive (key : Key)
  /-- Disposal actions failed, each for what stands before its fault. -/
  | disposal (failures : List (Value × Fault))
  | notAnInteger (what : NonNumber)
  | notAReal (what : NonNumber)
  | unreadInteger (text : String)
  | integerTooLong (digits : Nat)
  | unreadReal (text : String)
  | integerOfNan
  | integerOfInfinity
  | realOfLargeInteger
  | nonPositiveInterval (interval : Binary64)
  | readOnly (field : String)
  | noField
  | cancelled
  deriving Inhabited

namespace Fault

/-- Whether a fault is one that clearing, sweeping and patrols set aside to go on; a fatal fault
and a cancellation are not. -/
def isOrdinary : Fault → Bool
  | raised kind _ => kind ≠ .fatal
  | cancelled => false
  | _ => true

def isLibrary : Fault → Bool
  | raised kind _ => kind = .library || kind = .validation
  | disposal _ => true
  | nonPositiveInterval _ => true
  | _ => false

def isValidation : Fault → Bool
  | raised kind _ => kind = .validation
  | nonPositiveInterval _ => true
  | _ => false

def isDisposal : Fault → Bool
  | disposal _ => true
  | _ => false

end Fault

def NonNumber.name : NonNumber → String
  | null => "NoneType"
  | tuple => "tuple"
  | list => "list"
  | dict => "dict"

def Unkeyed.name : Unkeyed → String
  | list => "list"
  | dict => "dict"

def quoteLimit : Nat := 200

def Fault.message : Fault → String
  | raised _ message => message
  | unhashable what => "unhashable type: '" ++ what.name ++ "'"
  | recursive key => "Recursive compute_if_absent for key " ++ key.write
  | disposal failures =>
    "Disposal failed for " ++ toString failures.length ++ " cache entries: " ++
      ", ".intercalate (failures.map (·.1.write))
  | notAnInteger what =>
    "int() argument must be a string, a bytes-like object or a real number, not '" ++
      what.name ++ "'"
  | notAReal what => "float() argument must be a string or a real number, not '" ++ what.name ++ "'"
  | unreadInteger text =>
    "invalid literal for int() with base 10: " ++
      String.ofList ((quoted text).toList.take quoteLimit)
  | integerTooLong digits =>
    "Exceeds the limit (" ++ toString digitLimit ++
      " digits) for integer string conversion: value has " ++ toString digits ++
      " digits; use sys.set_int_max_str_digits() to increase the limit"
  | unreadReal text => "could not convert string to float: " ++ quoted text
  | integerOfNan => "cannot convert float NaN to integer"
  | integerOfInfinity => "cannot convert float infinity to integer"
  | realOfLargeInteger => "int too large to convert to float"
  | nonPositiveInterval interval => "interval_seconds must be > 0, got " ++ interval.write .standard
  | readOnly field => "cannot assign to field " ++ quoted field
  | noField => "super(type, obj): obj must be an instance or subtype of type"
  | cancelled => ""

namespace Binary64

def toInteger (x : Binary64) : Except Fault Int :=
  match x.datum with
  | .nan => .error .integerOfNan
  | .infinite _ => .error .integerOfInfinity
  | .finite negative m q =>
    let (num, den) := dyadic m q
    .ok (signed negative (num / den))

end Binary64

namespace Value

def toInteger : Value → Except Fault Int
  | bool b => .ok (if b then 1 else 0)
  | int i => .ok i
  | float x => x.toInteger
  | text s =>
    match readInteger s with
    | .ok i => .ok i
    | .error .malformed => .error (.unreadInteger s)
    | .error (.tooLong digits) => .error (.integerTooLong digits)
  | null => .error (.notAnInteger .null)
  | tuple _ => .error (.notAnInteger .tuple)
  | list _ => .error (.notAnInteger .list)
  | dict _ => .error (.notAnInteger .dict)

def toReal : Value → Except Fault Binary64
  | bool b => .ok (.ofRatio false (if b then 1 else 0) 1)
  | int i =>
    match Binary64.ofInt? i with
    | some x => .ok x
    | none => .error .realOfLargeInteger
  | float x => .ok x
  | text s =>
    match readReal? s with
    | some x => .ok x
    | none => .error (.unreadReal s)
  | null => .error (.notAReal .null)
  | tuple _ => .error (.notAReal .tuple)
  | list _ => .error (.notAReal .list)
  | dict _ => .error (.notAReal .dict)

def toKey (source : Nat) (v : Value) : Except Fault Key :=
  match Key.ofValue source v with
  | .ok k => .ok k
  | .error what => .error (.unhashable what)

end Value

end Lapse
