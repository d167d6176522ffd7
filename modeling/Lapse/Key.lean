import Lapse.Value

namespace Lapse

/-- A not-a-number equals only itself, so it carries the number of the call that brought it. One
not-a-number that two calls share is outside the model. -/
inductive Key
  | null
  | bool (b : Bool)
  | int (i : Int)
  | float (x : Binary64)
  | nan (source : Nat)
  | text (s : String)
  | tuple (ks : List Key)
  deriving Inhabited

inductive Unkeyed
  | list
  | dict
  deriving DecidableEq

namespace Key

mutual

/-- The key that a call numbered `source` means by a value; the first part that is no key decides
the refusal. -/
def ofValue (source : Nat) : Value → Except Unkeyed Key
  | .null => .ok null
  | .bool b => .ok (bool b)
  | .int i => .ok (int i)
  | .float x => .ok (if x.isNan then nan source else float x)
  | .text s => .ok (text s)
  | .tuple vs => (ofValues source vs).map tuple
  | .list _ => .error .list
  | .dict _ => .error .dict

def ofValues (source : Nat) : List Value → Except Unkeyed (List Key)
  | [] => .ok []
  | v :: vs => do return (← ofValue source v) :: (← ofValues source vs)

end

mutual

def toValue : Key → Value
  | null => .null
  | bool b => .bool b
  | int i => .int i
  | float x => .float x
  | nan _ => .float .nan
  | text s => .text s
  | tuple ks => .tuple (toValues ks)

def toValues : List Key → List Value
  | [] => []
  | k :: ks => toValue k :: toValues ks

end

def write (k : Key) : String := k.toValue.write

def ofQuantity : Quantity → Key
  | .integer i => int i
  | .other x => float x

mutual

def normal : Key → Key
  | bool b => ofQuantity (.ofBool b)
  | float x => ofQuantity (.ofFloat x)
  | tuple ks => tuple (normals ks)
  | k => k

def normals : List Key → List Key
  | [] => []
  | k :: ks => normal k :: normals ks

end

mutual

def beq : Key → Key → Bool
  | null, null => true
  | bool a, bool b => a == b
  | int a, int b => a == b
  | float a, float b => a = b
  | nan a, nan b => a == b
  | text a, text b => a == b
  | tuple as, tuple bs => beqAll as bs
  | _, _ => false

def beqAll : List Key → List Key → Bool
  | [], [] => true
  | a :: as, b :: bs => beq a b && beqAll as bs
  | _, _ => false

end

mutual

theorem beq_iff : ∀ a b : Key, beq a b = true ↔ a = b
  | a, b => by
    cases a <;> cases b <;> simp [beq]
    exact beqAll_iff _ _

theorem beqAll_iff : ∀ as bs : List Key, beqAll as bs = true ↔ as = bs
  | [], [] => by simp [beqAll]
  | [], _ :: _ => by simp [beqAll]
  | _ :: _, [] => by simp [beqAll]
  | a :: as, b :: bs => by simp [beqAll, beq_iff a b, beqAll_iff as bs]

end

instance : DecidableEq Key := fun a b => decidable_of_iff _ (beq_iff a b)

def same (a b : Key) : Bool := a.normal = b.normal

theorem same_iff {a b : Key} : a.same b = true ↔ a.normal = b.normal := by simp [same]

@[simp] theorem same_refl (a : Key) : a.same a = true := same_iff.2 rfl

theorem same_symm {a b : Key} (h : a.same b = true) : b.same a = true :=
  same_iff.2 (same_iff.1 h).symm

theorem same_comm (a b : Key) : a.same b = b.same a :=
  Bool.eq_iff_iff.2 ⟨same_symm, same_symm⟩

theorem same_trans {a b c : Key} (hab : a.same b = true) (hbc : b.same c = true) :
    a.same c = true :=
  same_iff.2 ((same_iff.1 hab).trans (same_iff.1 hbc))

end Key

end Lapse
