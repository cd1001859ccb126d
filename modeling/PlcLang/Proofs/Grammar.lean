import PlcLang.Proofs.LexicalRules
import PlcLang.Tree.Parser

namespace PlcLang

/-- Which token lists spell which things. -/
abbrev Rule (α : Type) := List Token → α → Prop

namespace Rule

variable {α : Type}

/-- One token with the given text, whatever its kind; it stands for its offset. -/
inductive Word (text : String) : Rule Nat
  | mk {t : Token} : t.text = text → Word text [t] t.offset

/-- One identifier that is no keyword. -/
inductive Name : Rule String
  | mk {t : Token} : t.isName → Name [t] t.text

inductive Annotation : Rule String
  | mk {w n : List Token} {o : Nat} {type : String} :
      Word ":" w o → Name n type → Annotation (w ++ n) type

inductive Optional (word : String) (G : Rule α) : Rule (Option α)
  | none : Optional word G [] none
  | some {w ts : List Token} {o : Nat} {a : α} :
      Word word w o → G ts a → Optional word G (w ++ ts) (some a)

inductive Many (G : Rule α) : Rule (List α)
  | nil : Many G [] []
  | cons {ts us : List Token} {a : α} {as : List α} :
      G ts a → Many G us as → Many G (ts ++ us) (a :: as)

inductive AfterComma (G : Rule α) : Rule α
  | mk {w ts : List Token} {o : Nat} {a : α} :
      Word "," w o → G ts a → AfterComma G (w ++ ts) a

inductive Separated (G : Rule α) : Rule (List α)
  | mk {ts us : List Token} {a : α} {as : List α} :
      G ts a → Many (AfterComma G) us as → Separated G (ts ++ us) (a :: as)

inductive UpTo (close : String) (G : Rule α) : Rule (List α)
  | empty {w : List Token} {o : Nat} : Word close w o → UpTo close G w []
  | items {ts w : List Token} {o : Nat} {as : List α} :
      Separated G ts as → Word close w o → UpTo close G (ts ++ w) as

end Rule

open Rule

/-- How loosely an operator binds: its operands are chains of tighter operators. What is no operator
binds nothing. -/
def BinOp.level : BinOp → Nat
  | mul | div | pow => 1
  | add | sub => 2
  | lt | gt | eq | ne => 3
  | and | or => 4
  | other _ => 5

inductive Literal.Spells : Token → Literal → Prop
  | nil {t : Token} : t.text = "NIL" → Spells t .nil
  | true {t : Token} : t.text = "TRUE" → Spells t (.boolean true)
  | false {t : Token} : t.text = "FALSE" → Spells t (.boolean false)
  | integer {t : Token} {d : Decimal} : t.kind = .integer → Decimal.ofText? t.text = some d →
      Spells t (.integer d.truncate)
  | decimal {t : Token} {d : Decimal} : t.kind = .decimal → Decimal.ofText? t.text = some d →
      Spells t (.decimal d)
  | character {t : Token} {value : String} : t.kind = .character →
      Escape.decode (Expr.literalBody t.text) = some value → Spells t (.character value)
  | string {t : Token} {value : String} : t.kind = .string →
      Escape.decode (Expr.literalBody t.text) = some value → Spells t (.string value)

namespace Expr

/-- A left-associative chain of operands with operators of one level in between. -/
inductive Chain (level : Nat) (G : Rule Expr) : Rule Expr
  | operand {ts : List Token} {e : Expr} : G ts e → Chain level G ts e
  | binary {ts w us : List Token} {o : Nat} {op : BinOp} {left right : Expr} :
      Chain level G ts left → op.level = level → Word op.symbol w o → G us right →
      Chain level G (ts ++ w ++ us) (.binary ⟨left.offset, none⟩ op left right)

/-- Expressions without operators outside of brackets; `E` is for what brackets hold. -/
inductive Primary (E : Rule Expr) : Rule Expr
  | literal {t : Token} {value : Literal} : value.Spells t →
      Primary E [t] (.literal ⟨t.offset, none⟩ value)
  | group {w ts w' : List Token} {o o' : Nat} {e : Expr} :
      Word "(" w o → E ts e → Word ")" w' o' →
      Primary E (w ++ ts ++ w') (.group ⟨o, none⟩ e)
  | call {t : Token} {w ts : List Token} {o : Nat} {arguments : List Expr} :
      t.isName → Word "(" w o → UpTo ")" E ts arguments →
      Primary E ([t] ++ w ++ ts) (.call ⟨t.offset, none⟩ t.text arguments none)
  | element {t : Token} {w ts w' : List Token} {o o' : Nat} {index : Expr} :
      t.isName → Word "[" w o → E ts index → Word "]" w' o' →
      Primary E ([t] ++ w ++ ts ++ w') (.element ⟨t.offset, none⟩ t.text index none)
  | access {t : Token} : t.isName → Primary E [t] (.access ⟨t.offset, none⟩ t.text none)
  | list {w ts : List Token} {o : Nat} {elements : List Expr} :
      Word "[" w o → UpTo "]" E ts elements → Primary E (w ++ ts) (.list ⟨o, none⟩ elements)

/-- The four levels of operators, from the tightest to the loosest. -/
def Rules (E : Rule Expr) : Rule Expr := Chain 4 (Chain 3 (Chain 2 (Chain 1 (Primary E))))

/-- Expressions whose brackets nest so deep at most; a pair of brackets counts for two. -/
def Within : Nat → Rule Expr
  | depth + 2 => Rules (Within depth)
  | _ => fun _ _ => False

end Expr

namespace Case

inductive Rules (E : Rule Expr) (S : Rule Stmt) : Rule Case
  | mk {w ts c us : List Token} {o o' : Nat} {value : Expr} {body : List Stmt} :
      Word "CASE" w o → E ts value → Word ":" c o' → Many S us body →
      Rules E S (w ++ ts ++ c ++ us) (.mk o (some value) body)

inductive Default (S : Rule Stmt) : Rule (List Case)
  | none : Default S [] []
  | some {w us : List Token} {o : Nat} {body : List Stmt} :
      Word "DEFAULT" w o → Many S us body → Default S (w ++ us) [.mk o none body]

end Case

namespace Stmt

inductive Rules (E : Rule Expr) (S : Rule Stmt) : Rule Stmt
  | declaration {w n ts vs c : List Token} {o o' : Nat} {name : String}
      {typeName : Option String} {value : Option Expr} :
      Word "LET" w o → Name n name → Optional ":" Name ts typeName → Optional "=" E vs value →
      Word ";" c o' → Rules E S (w ++ n ++ ts ++ vs ++ c) (.declaration o name typeName value none)
  | switch {w ts cs ds c : List Token} {o o' : Nat} {condition : Expr}
      {cases default : List Case} :
      Word "SWITCH" w o → E ts condition → Many (Case.Rules E S) cs cases →
      Case.Default S ds default → Word "END" c o' →
      Rules E S (w ++ ts ++ cs ++ ds ++ c) (.switch o condition (cases ++ default))
  | ifElse {w ts d bs es c : List Token} {o o' o'' : Nat} {condition : Expr}
      {thenBody : List Stmt} {elseBody : Option (List Stmt)} :
      Word "IF" w o → E ts condition → Word "DO" d o' → Many S bs thenBody →
      Optional "ELSE" (Many S) es elseBody → Word "END" c o'' →
      Rules E S (w ++ ts ++ d ++ bs ++ es ++ c)
        (.ifElse o condition thenBody (elseBody.getD []))
  | whileDo {w ts d bs c : List Token} {o o' o'' : Nat} {condition : Expr} {body : List Stmt} :
      Word "WHILE" w o → E ts condition → Word "DO" d o' → Many S bs body → Word "END" c o'' →
      Rules E S (w ++ ts ++ d ++ bs ++ c) (.whileDo o condition body)
  | returnNil {w c : List Token} {o o' : Nat} : Word "RETURN" w o → Word ";" c o' →
      Rules E S (w ++ c) (.ret o none)
  | returnValue {w ts c : List Token} {o o' : Nat} {value : Expr} :
      Word "RETURN" w o → E ts value → Word ";" c o' →
      Rules E S (w ++ ts ++ c) (.ret o (some value))
  | expression {ts c : List Token} {o : Nat} {value : Expr} :
      E ts value → Word ";" c o → Rules E S (ts ++ c) (.expression value.offset value)
  | assignment {ts w vs c : List Token} {o o' : Nat} {receiver value : Expr} :
      E ts receiver → Word "=" w o → E vs value → Word ";" c o' →
      Rules E S (ts ++ w ++ vs ++ c) (.assignment receiver.offset receiver value)

def Within : Nat → Rule Stmt
  | depth + 1 => Rules (Expr.Within depth) (Within depth)
  | 0 => fun _ _ => False

end Stmt

namespace Global

inductive Declared (E : Rule Expr) : Rule Global
  | list {w n ts e b vs c : List Token} {o o' bracket o'' : Nat} {name typeName : String}
      {elements : List Expr} :
      Word "LIST" w o → Name n name → Annotation ts typeName → Word "=" e o' →
      Word "[" b bracket → Separated E vs elements → Word "]" c o'' →
      Declared E (w ++ n ++ ts ++ e ++ b ++ vs ++ c)
        ⟨o, name, typeName, true, some (.list ⟨bracket, none⟩ elements), none⟩
  | mutable {w n ts vs : List Token} {o : Nat} {name typeName : String} {value : Option Expr} :
      Word "VAR" w o → Name n name → Annotation ts typeName → Optional "=" E vs value →
      Declared E (w ++ n ++ ts ++ vs) ⟨o, name, typeName, true, value, none⟩
  | immutable {w n ts e vs : List Token} {o o' : Nat} {name typeName : String} {value : Expr} :
      Word "VAL" w o → Name n name → Annotation ts typeName → Word "=" e o' → E vs value →
      Declared E (w ++ n ++ ts ++ e ++ vs) ⟨o, name, typeName, false, some value, none⟩

inductive Rules (E : Rule Expr) : Rule Global
  | mk {ts c : List Token} {o : Nat} {decl : Global} :
      Declared E ts decl → Word ";" c o → Rules E (ts ++ c) decl

end Global

namespace Function

inductive Parameter : Rule (String × String)
  | mk {n ts : List Token} {name typeName : String} :
      Name n name → Annotation ts typeName → Parameter (n ++ ts) (name, typeName)

inductive Rules (S : Rule Stmt) : Rule Function
  | mk {w n b ps ts d bs c : List Token} {o o' o'' o₃ : Nat} {name : String}
      {parameters : List (String × String)} {returnType : Option String} {body : List Stmt} :
      Word "FUN" w o → Name n name → Word "(" b o' → UpTo ")" Parameter ps parameters →
      Optional ":" Name ts returnType → Word "DO" d o'' → Many S bs body → Word "END" c o₃ →
      Rules S (w ++ n ++ b ++ ps ++ ts ++ d ++ bs ++ c)
        ⟨o, name, parameters.map Prod.fst, parameters.map Prod.snd, returnType, body, none⟩

end Function

namespace Program

inductive Rules (E : Rule Expr) (S : Rule Stmt) : Rule Program
  | mk {gs fs : List Token} {globals : List Global} {functions : List Function} :
      Many (Global.Rules E) gs globals → Many (Function.Rules S) fs functions →
      Rules E S (gs ++ fs) ⟨globals, functions⟩

def Within (depth : Nat) : Rule Program := Rules (Expr.Within depth) (Stmt.Within depth)

/-- The grammar as such, which knows no bound. -/
def Derives (ts : List Token) (p : Program) : Prop := ∃ depth, Within depth ts p

end Program

end PlcLang
