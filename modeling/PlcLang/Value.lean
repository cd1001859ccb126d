import PlcLang.Decimal

namespace PlcLang

inductive Value
  | nil
  | boolean (value : Bool)
  | integer (value : Int)
  | decimal (value : Decimal)
  | character (value : String)
  | string (value : String)
  | list (address : Nat)

namespace Value

def typeName : Value → String
  | nil => "Nil"
  | boolean _ => "Boolean"
  | integer _ => "Integer"
  | decimal _ => "Decimal"
  | character _ => "Character"
  | string _ => "String"
  | list _ => "List"

/-- Whether a value can be a key: a list changes in place, and Nil is no key either. -/
def hashable : Value → Bool
  | nil | list _ => false
  | _ => true

def scalarEqual : Value → Value → Bool
  | nil, nil => true
  | boolean a, boolean b => a == b
  | integer a, integer b => a == b
  | decimal a, decimal b => a.same b
  | character a, character b => a == b
  | string a, string b => a == b
  | _, _ => false

def less? : Value → Value → Option Bool
  | integer a, integer b => some (a < b)
  | decimal a, decimal b => some (a.lt b)
  | character a, character b => some (a < b)
  | string a, string b => some (a < b)
  | _, _ => none

def scalarText : Value → String
  | nil => "NIL"
  | boolean true => "TRUE"
  | boolean false => "FALSE"
  | integer n => toString n
  | decimal d => d.toText
  | character s => s
  | string s => s
  | list _ => ""

end Value

/-- The elements of each list, by address. -/
structure Heap where
  lists : Array (Array Value) := #[]

namespace Heap

def get? (h : Heap) (address : Nat) : Option (Array Value) := h.lists[address]?

def elements (h : Heap) (address : Nat) : Array Value := (h.get? address).getD #[]

def alloc (h : Heap) (elements : Array Value) : Value × Heap :=
  (.list h.lists.size, ⟨h.lists.push elements⟩)

def write (h : Heap) (address index : Nat) (value : Value) : Heap :=
  ⟨h.lists.modify address (·.setIfInBounds index value)⟩

/-- The text of a value, if lists are nested in it less deep than the budget says. -/
def text? (h : Heap) : Nat → Value → Option String
  | 0, _ => none
  | depth + 1, .list address => do
    let parts ← (h.elements address).toList.mapM (text? h depth)
    return "[" ++ ", ".intercalate parts ++ "]"
  | _ + 1, value => some value.scalarText

/-- Whether two values are equal, if the answer does not take looking into lists as deep as the
budget. A list equals itself without looking. -/
def equal? (h : Heap) : Nat → Value → Value → Option Bool
  | 0, _, _ => none
  | depth + 1, .list a, .list b =>
    if a = b then some true
    else if (h.elements a).size ≠ (h.elements b).size then some false
    else ((h.elements a).toList.zip (h.elements b).toList).allM fun (v, w) => equal? h depth v w
  | _ + 1, v, w => some (v.scalarEqual w)

end Heap

end PlcLang
