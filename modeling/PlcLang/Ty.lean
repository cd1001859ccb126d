namespace PlcLang

inductive Ty
  | nil
  | boolean
  | integer
  | decimal
  | character
  | string
  | comparable
  | any
deriving DecidableEq

namespace Ty

def name : Ty → String
  | nil => "Nil"
  | boolean => "Boolean"
  | integer => "Integer"
  | decimal => "Decimal"
  | character => "Character"
  | string => "String"
  | comparable => "Comparable"
  | any => "Any"

def ofName? : String → Option Ty
  | "Nil" => some nil
  | "Boolean" => some boolean
  | "Integer" => some integer
  | "Decimal" => some decimal
  | "Character" => some character
  | "String" => some string
  | "Comparable" => some comparable
  | "Any" => some any
  | _ => none

def numeric : Ty → Bool
  | integer | decimal => true
  | _ => false

def ordered : Ty → Bool
  | integer | decimal | character | string => true
  | _ => false

/-- Whether a value of type `source` may be stored where `target` is expected. -/
def assignable (target source : Ty) : Bool :=
  match target with
  | any => source.ordered || source == boolean || source == any
  | comparable => source.ordered || source == comparable
  | _ => target == source

end Ty

end PlcLang
