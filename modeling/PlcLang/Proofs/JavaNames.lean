import PlcLang.Proofs.FilledTrees
import PlcLang.Proofs.JavaReading
import PlcLang.Proofs.JavaTotal
import PlcLang.Proofs.TokenOffsets

namespace PlcLang

open Java

namespace Java

def IdentifierRest (c : Char) : Prop := Lexeme.Letter c ∨ Lexeme.Digit c ∨ c = '_' ∨ c = '$'

instance (c : Char) : Decidable (IdentifierRest c) :=
  inferInstanceAs (Decidable (Lexeme.Letter c ∨ Lexeme.Digit c ∨ c = '_' ∨ c = '$'))

def Identifier (w : String) : Prop :=
  ∃ c cs, w.toList = c :: cs ∧ (Lexeme.Letter c ∨ c = '_' ∨ c = '$') ∧ ∀ d ∈ cs, IdentifierRest d

theorem Identifier.rest {w : String} (h : Identifier w) : ∀ d ∈ w.toList, IdentifierRest d := by
  obtain ⟨c, cs, heq, hc, hcs⟩ := h
  rw [heq, List.forall_mem_cons]
  exact ⟨hc.imp_right .inr, hcs⟩

end Java

/-- An identifier of the language is one of Java unless it has a character that only the language
allows. -/
theorem Lexeme.Is.javaIdentifier_iff {w : String} (h : Lexeme.Is .identifier w.toList []) :
    Java.Identifier w ↔ '@' ∉ w.toList ∧ '-' ∉ w.toList := by
  constructor
  · intro hw
    exact ⟨fun hmem => absurd (hw.rest _ hmem) (by decide),
      fun hmem => absurd (hw.rest _ hmem) (by decide)⟩
  · rintro ⟨hat, hdash⟩
    generalize hw : w.toList = ds at h hat hdash
    cases h with
    | @name c cs _ hc hcs _ =>
        refine ⟨c, cs, hw, .inl hc, fun d hd => ?_⟩
        obtain hletter | hdigit | rfl | rfl := hcs d hd
        · exact .inl hletter
        · exact .inr (.inl hdigit)
        · exact .inr (.inr (.inl rfl))
        · exact absurd (List.mem_cons_of_mem c hd) hdash
    | atName => exact absurd List.mem_cons_self hat

namespace Node

/-- The names that the node itself has in the text of the program. -/
def names : Node → List String
  | expr (.access _ name _) | expr (.element _ name _ _) | expr (.call _ name _ _) => [name]
  | stmt (.declaration _ name _ _ _) => [name]
  | global g => [g.name]
  | function f => f.name :: f.parameters
  | _ => []

def javaNames : Node → List String
  | expr (.access _ _ slot) | expr (.element _ _ _ slot) => slot.toList.map Variable.javaName
  | expr (.call _ _ _ slot) => slot.toList.map Signature.javaName
  | stmt (.declaration _ _ _ _ slot) => slot.toList.map Variable.javaName
  | global g => g.slot.toList.map Variable.javaName
  | function f => f.slot.toList.flatMap fun s =>
    s.javaName :: (f.parameters.zip s.parameters).map Prod.fst
  | _ => []

theorem names_erase (n : Node) : n.erase.names = n.names := by
  cases n with
  | expr e => cases e <;> simp only [erase, Expr.erase] <;> rfl
  | stmt x => cases x <;> simp only [erase, Stmt.erase] <;> rfl
  | branch c =>
      obtain ⟨offset, value, body⟩ := c
      rfl
  | global g | function f => rfl

end Node

namespace Rule

variable {α : Type} {G : Rule α} {ts : List Token} {as : List α} {good : Token → Prop}
  {P : α → Prop} (hG : ∀ us a, (∀ t ∈ us, good t) → G us a → P a)
include hG

theorem Many.holds (h : Many G ts as) (hts : ∀ t ∈ ts, good t) : ∀ a ∈ as, P a := by
  induction h with
  | nil => exact nofun
  | cons ha _ ih =>
      obtain ⟨hus, hvs⟩ := List.forall_mem_append.mp hts
      exact List.forall_mem_cons.mpr ⟨hG _ _ hus ha, ih hvs⟩

theorem Separated.holds (h : Separated G ts as) (hts : ∀ t ∈ ts, good t) : ∀ a ∈ as, P a := by
  cases h with
  | mk ha hrest =>
      obtain ⟨hus, hvs⟩ := List.forall_mem_append.mp hts
      refine List.forall_mem_cons.mpr ⟨hG _ _ hus ha, hrest.holds (fun us a hus h => ?_) hvs⟩
      cases h with
      | mk _ ha => exact hG _ _ (List.forall_mem_append.mp hus).2 ha

theorem UpTo.holds {close : String} (h : UpTo close G ts as) (hts : ∀ t ∈ ts, good t) :
    ∀ a ∈ as, P a := by
  cases h with
  | empty _ => exact nofun
  | items hitems _ => exact hitems.holds hG (List.forall_mem_append.mp hts).1

end Rule

open Rule

abbrev Token.Names (good : String → Prop) (t : Token) : Prop := t.isName = true → good t.text

section Spelled

variable {good : String → Prop} {ts : List Token}

theorem Rule.Name.holds {name : String} (h : Name ts name) (hts : ∀ t ∈ ts, t.Names good) :
    good name := by
  cases h with
  | mk ht => exact hts _ (List.mem_singleton_self _) ht

theorem Expr.Chain.of_operand {G : Rule Expr} {level : Nat} {e : Expr}
    (he : ∀ info op left right, e ≠ .binary info op left right) (h : Chain level G ts e) :
    G ts e := by
  cases h with
  | operand h => exact h
  | binary => exact absurd rfl (he _ _ _ _)

theorem Expr.Within.primary {depth : Nat} {e : Expr} (h : Within depth ts e)
    (he : ∀ info op left right, e ≠ .binary info op left right) :
    ∃ inner, Primary (Within inner) ts e := by
  match depth, h with
  | depth + 2, h =>
    exact ⟨depth, (((Chain.of_operand he h).of_operand he).of_operand he).of_operand he⟩

theorem Expr.Primary.names_hold {E : Rule Expr} {e : Expr} (h : Primary E ts e)
    (hts : ∀ t ∈ ts, t.Names good) : ∀ w ∈ (Node.expr e).names, good w := by
  cases h with
  | literal | group | list => exact nofun
  | access ht =>
      exact List.forall_mem_singleton.mpr (hts _ (List.mem_singleton_self _) ht)
  | call ht | element ht =>
      refine List.forall_mem_singleton.mpr (hts _ ?_ ht)
      simp

theorem Stmt.Rules.names_hold {E : Rule Expr} {S : Rule Stmt} {x : Stmt} (h : Rules E S ts x)
    (hts : ∀ t ∈ ts, t.Names good) : ∀ w ∈ (Node.stmt x).names, good w := by
  cases h with
  | declaration _ hname =>
      simp only [List.forall_mem_append] at hts
      exact List.forall_mem_singleton.mpr (hname.holds hts.1.1.1.2)
  | _ => exact nofun

theorem Global.Rules.names_hold {E : Rule Expr} {g : Global} (h : Rules E ts g)
    (hts : ∀ t ∈ ts, t.Names good) : good g.name := by
  cases h with
  | mk hdecl _ =>
      cases hdecl with
      | list _ hname | mutable _ hname | immutable _ hname =>
          simp only [List.forall_mem_append] at hts
          exact hname.holds (by tauto)

theorem Function.Rules.names_hold {S : Rule Stmt} {f : Function} (h : Rules S ts f)
    (hts : ∀ t ∈ ts, t.Names good) : ∀ w ∈ (Node.function f).names, good w := by
  cases h with
  | mk _ hname _ hparameters =>
      simp only [List.forall_mem_append] at hts
      refine List.forall_mem_cons.mpr ⟨hname.holds (by tauto), List.forall_mem_map.mpr ?_⟩
      refine hparameters.holds (fun us parameter (hus : ∀ t ∈ us, t.Names good) h => ?_) (by tauto)
      cases h with
      | mk hname _ => exact hname.holds (List.forall_mem_append.mp hus).1

theorem Node.DerivedFrom.names_hold {n : Node} (h : n.DerivedFrom ts)
    (hts : ∀ t ∈ ts, t.Names good) : ∀ w ∈ n.names, good w := by
  cases n with
  | expr e =>
      obtain ⟨depth, h⟩ := h
      cases e with
      | access | element | call =>
          obtain ⟨inner, h⟩ := Expr.Within.primary h nofun
          exact h.names_hold hts
      | _ => exact nofun
  | stmt x =>
      obtain ⟨_ | depth, h⟩ := h
      · exact h.elim
      · exact Stmt.Rules.names_hold h hts
  | branch c => exact nofun
  | global g => exact List.forall_mem_singleton.mpr (Global.Rules.names_hold h hts)
  | function f => exact Function.Rules.names_hold h hts

end Spelled

namespace Program

variable {allowed : Ty → Prop} {funs : String → Nat → Option Signature} {text : String}
  {p q : Program} {depth : Nat} {n : Node}

/-- Every name in a program that is read from a text is an identifier of the text. -/
theorem names_lexed (h : ofText text = .ok p) (hn : p.Contains n) :
    ∀ w ∈ n.names, Lexeme.Is .identifier w.toList [] := by
  obtain ⟨ts, hts, hp⟩ := ofText_eq_ok.mp h
  have hlexed := Token.lexed_of_listOfText hts
  obtain ⟨us, hus, hlaid⟩ := (derives_of_parsed hlexed hp).laid_node hn
  cases hlaid with
  | mk hderived _ _ =>
      refine hderived.names_hold fun t ht hname => ?_
      have hwf := hlexed t (hus.subset ht)
      rwa [Token.WellFormed, (Token.isName_iff.mp hname).1] at hwf

/-- A callee has the name by which it is called in Java as well, except for the one that prints. -/
theorem Callees.javaName (h : q.Callees funs) {name : String} {arity : Nat} {s : Signature}
    (hs : funs name arity = some s) :
    s.javaName = name ∨ s = .print ∧ name = "print" ∧ arity = 1 := by
  obtain ⟨signatures, hdeclared, rfl⟩ := h
  have hkey := Env.lookupIn_key hs
  obtain rfl | hmem := List.mem_cons.mp (Env.mem_of_lookupIn hs)
  · exact .inr ⟨rfl, hkey.1.symm, hkey.2.symm⟩
  · obtain ⟨f, _, hname, hjava, _⟩ := hdeclared s hmem
    exact .inl (hjava.trans (hname.symm.trans hkey.1))

end Program

def Node.CallsPrint (n : Node) : Prop :=
  ∃ info argument slot, n = .expr (.call info "print" [argument] slot)

def Node.Paired : Node → Prop
  | function f => f.parameters.length = f.parameterTypes.length
  | _ => True

theorem Node.Accepted.javaNames_eq {allowed : Ty → Prop} {funs : String → Nat → Option Signature}
    {q : Program} {n : Node} (h : n.Accepted allowed funs) (hfuns : q.Callees funs)
    (hpaired : n.Paired) :
    n.javaNames = n.names ∨ n.CallsPrint ∧ n.javaNames = ["System.out.println"] := by
  have hsymbol {slot : Option Variable} {name : String} {b : Binding}
      (h : (Slots.filled allowed).symbol slot name b) : slot.toList.map Variable.javaName = [name] := by
    obtain ⟨⟨v, rfl, _, rfl, _⟩, _⟩ := h
    rfl
  cases n with
  | expr e =>
      obtain ⟨Γ, T, rfl, he⟩ := h
      cases he with
      | literal | group | binary | list => exact .inl rfl
      | access _ _ hslot | element _ _ _ hslot => exact .inl (hsymbol hslot)
      | @call info name arguments slot s _ hs _ _ _ _ hslot =>
          obtain ⟨rfl, _⟩ := hslot
          obtain hjava | ⟨rfl, rfl, hlength⟩ := hfuns.javaName hs
          · exact .inl (congrArg (fun w => [w]) hjava)
          · obtain ⟨argument, rfl⟩ := List.length_eq_one_iff.mp hlength
            exact .inr ⟨⟨info, argument, _, rfl⟩, rfl⟩
  | stmt x =>
      obtain ⟨returns, Γ, Δ, _, hx⟩ := h
      cases hx with
      | declarationOfType _ hslot | declarationOfValue _ _ hslot | declarationOfBoth _ _ _ hslot =>
          exact .inl (hsymbol hslot)
      | _ => exact .inl rfl
  | branch c => exact .inl rfl
  | global g =>
      obtain ⟨Γ, T, _, hg⟩ := h
      exact .inl (hsymbol hg.2.2.2)
  | function f =>
      obtain ⟨Γ, s, _, ⟨_, hjava, htypes, _⟩, _, _, ⟨hslot, _⟩⟩ := h
      have hlength : f.parameters.length ≤ s.parameters.length := by
        rw [hpaired, ← htypes, List.length_map]
      left
      simp only [javaNames, names, hslot, Option.toList_some, List.flatMap_singleton, hjava,
        List.map_fst_zip hlength]

theorem Node.DerivedFrom.paired {n : Node} {ts : List Token} (h : n.DerivedFrom ts) : n.Paired := by
  cases n with
  | function f =>
      have hrules : Function.Rules (Limit Stmt.Within) ts f := h
      cases hrules
      simp [Node.Paired]
  | _ => trivial

theorem Node.paired_erase (n : Node) : n.erase.Paired ↔ n.Paired := by
  cases n <;> rfl

namespace Expr

/-- A piece that the expression is written with: a literal in it, a name in it, or a fixed sign. -/
inductive Writes (e : Expr) : Piece → Prop
  | literal {info : Info} {value : Literal} :
      (Node.expr e).Has (.expr (.literal info value)) → Writes e (.atom value.javaText)
  | name {n : Node} {w : String} :
      (Node.expr e).Has n → w ∈ n.javaNames → Writes e (.atom w)
  | power : Writes e (.atom "Math.pow")
  | operator {op : BinOp} : (precedence? op).isSome → Writes e (.operator op)
  | comma : Writes e .comma
  | opening (b : Bracket) : Writes e (.opening b)
  | closing (b : Bracket) : Writes e (.closing b)

variable {e : Expr} {piece : Piece} {ps : List Piece}

theorem Writes.above {a : Expr} (h : a.Writes piece) (ha : a ∈ e.children) : e.Writes piece := by
  have hchild : Node.expr a ∈ (Node.expr e).children := List.mem_map_of_mem ha
  cases h with
  | literal hhas => exact .literal (.child hchild hhas)
  | name hhas hw => exact .name (.child hchild hhas) hw
  | power => exact .power
  | operator hop => exact .operator hop
  | comma => exact .comma
  | opening b => exact .opening b
  | closing b => exact .closing b

theorem writes_enclosed (b : Bracket) (h : ∀ piece ∈ ps, e.Writes piece) :
    ∀ piece ∈ enclosed b ps, e.Writes piece := by
  refine List.forall_mem_append.mpr ⟨List.forall_mem_cons.mpr ⟨.opening b, h⟩, ?_⟩
  exact List.forall_mem_singleton.mpr (.closing b)

theorem writes_listed (b : Bracket) {parts : List (List Piece)}
    (h : ∀ ps ∈ parts, ∀ piece ∈ ps, e.Writes piece) :
    ∀ piece ∈ listed b parts, e.Writes piece := by
  refine writes_enclosed b ?_
  cases parts with
  | nil => exact nofun
  | cons first others =>
      obtain ⟨hfirst, hothers⟩ := List.forall_mem_cons.mp h
      rw [intercalate_comma_cons]
      refine List.forall_mem_append.mpr ⟨hfirst, fun piece hpiece => ?_⟩
      obtain ⟨ps, hps, hpiece⟩ := List.mem_flatMap.mp hpiece
      obtain rfl | hpiece := List.mem_cons.mp hpiece
      · exact .comma
      · exact hothers ps hps piece hpiece

theorem writes_operand {c : Prop} [Decidable c] (h : ∀ piece ∈ ps, e.Writes piece) :
    ∀ piece ∈ if c then enclosed .round ps else ps, e.Writes piece := by
  split
  · exact writes_enclosed .round h
  · exact h

theorem variableName_eq_ok {slot : Option Variable} {w : String} :
    variableName slot = .ok w ↔ w ∈ slot.toList.map Variable.javaName := by
  cases slot with
  | none => exact ⟨nofun, nofun⟩
  | some v =>
      rw [variableName, pure_eq_ok]
      simp [eq_comm]

mutual

theorem pieces_written (e : Expr) {ps : List Piece} (h : e.pieces = .ok ps) :
    ∀ piece ∈ ps, e.Writes piece := by
  cases e with
  | literal info value =>
      simp only [pieces, bind_eq_ok, pure_eq_ok, Literal.java_eq_ok] at h
      obtain ⟨_, ⟨_, rfl⟩, rfl⟩ := h
      exact List.forall_mem_singleton.mpr (.literal .refl)
  | group info inner =>
      simp only [pieces, bind_eq_ok, pure_eq_ok] at h
      obtain ⟨qs, hinner, rfl⟩ := h
      refine writes_enclosed .round fun piece hpiece => ?_
      exact (pieces_written inner hinner piece hpiece).above List.mem_cons_self
  | binary info op left right =>
      have hleft {qs : List Piece} (h : left.pieces = .ok qs) (piece : Piece)
          (hpiece : piece ∈ qs) : (binary info op left right).Writes piece :=
        (pieces_written left h piece hpiece).above List.mem_cons_self
      have hright {qs : List Piece} (h : right.pieces = .ok qs) (piece : Piece)
          (hpiece : piece ∈ qs) : (binary info op left right).Writes piece :=
        (pieces_written right h piece hpiece).above (List.mem_cons_of_mem left List.mem_cons_self)
      obtain ⟨qs, hqs, rs, hrs, rfl | ⟨p, hp, rfl⟩⟩ := binary_pieces h
      · refine List.forall_mem_cons.mpr ⟨.power, writes_listed .round ?_⟩
        exact List.forall_mem_cons.mpr ⟨hleft hqs, List.forall_mem_singleton.mpr (hright hrs)⟩
      · refine List.forall_mem_append.mpr ⟨writes_operand (hleft hqs), ?_⟩
        refine List.forall_mem_cons.mpr ⟨.operator ?_, writes_operand (hright hrs)⟩
        rw [hp]
        rfl
  | access info name slot =>
      simp only [pieces, bind_eq_ok, pure_eq_ok, variableName_eq_ok] at h
      obtain ⟨w, hw, rfl⟩ := h
      exact List.forall_mem_singleton.mpr (.name .refl hw)
  | element info name index slot =>
      simp only [pieces, bind_eq_ok, pure_eq_ok, variableName_eq_ok] at h
      obtain ⟨w, hw, qs, hqs, rfl⟩ := h
      refine List.forall_mem_cons.mpr ⟨.name .refl hw, writes_enclosed .square ?_⟩
      exact fun piece hpiece => (pieces_written index hqs piece hpiece).above List.mem_cons_self
  | call info name arguments slot =>
      cases slot with
      | none =>
          rw [pieces] at h
          cases h
      | some s =>
          simp only [pieces, bind_eq_ok, pure_eq_ok] at h
          obtain ⟨parts, hparts, rfl⟩ := h
          refine List.forall_mem_cons.mpr ⟨.name .refl List.mem_cons_self, writes_listed .round ?_⟩
          intro qs hqs piece hpiece
          obtain ⟨a, ha, hwrites⟩ := piecesEach_written arguments hparts qs hqs
          exact (hwrites piece hpiece).above ha
  | list info elements =>
      simp only [pieces, bind_eq_ok, pure_eq_ok] at h
      obtain ⟨parts, hparts, rfl⟩ := h
      refine writes_listed .curly fun qs hqs piece hpiece => ?_
      obtain ⟨a, ha, hwrites⟩ := piecesEach_written elements hparts qs hqs
      exact (hwrites piece hpiece).above ha
  | unknown start node =>
      rw [pieces] at h
      cases h

theorem piecesEach_written (es : List Expr) {parts : List (List Piece)}
    (h : piecesEach es = .ok parts) :
    ∀ ps ∈ parts, ∃ e ∈ es, ∀ piece ∈ ps, e.Writes piece := by
  cases es with
  | nil =>
      rw [piecesEach, pure_eq_ok] at h
      subst h
      exact nofun
  | cons e es =>
      simp only [piecesEach, bind_eq_ok, pure_eq_ok] at h
      obtain ⟨ps, hps, rest, hrest, rfl⟩ := h
      refine List.forall_mem_cons.mpr ⟨⟨e, List.mem_cons_self, pieces_written e hps⟩, ?_⟩
      intro qs hqs
      obtain ⟨a, ha, hwrites⟩ := piecesEach_written es hrest qs hqs
      exact ⟨a, List.mem_cons_of_mem e ha, hwrites⟩

end

end Expr

/-- The names of the node in Java are the names that it has in the text of the program, as they
are, but for the function that prints. Each is an identifier of the language, and one of Java where
it has no character that only the language allows. -/
structure Node.Named (n : Node) : Prop where
  verbatim : n.javaNames = n.names ∨ n.CallsPrint ∧ n.javaNames = ["System.out.println"]
  lexed : ∀ w ∈ n.names, Lexeme.Is .identifier w.toList []
  javaIdentifier : ∀ w ∈ n.names, (Java.Identifier w ↔ '@' ∉ w.toList ∧ '-' ∉ w.toList)

theorem Node.Named.written {n : Node} (h : n.Named) {w : String} (hw : w ∈ n.javaNames) :
    Lexeme.Is .identifier w.toList [] ∨ w = "System.out.println" := by
  obtain heq | ⟨_, heq⟩ := h.verbatim
  · exact .inl (h.lexed w (heq ▸ hw))
  · exact .inr (List.mem_singleton.mp (heq ▸ hw))

namespace Program

variable {text : String} {p q : Program} {depth : Nat}

theorem exists_parsed {n : Node} (h : ofText text = .ok p) (hq : p.checkWithin depth = .ok q)
    (hn : q.Contains n) : (∀ w ∈ n.names, Lexeme.Is .identifier w.toList []) ∧ n.Paired := by
  obtain ⟨m, hm, hsame⟩ := hn.transfer (checkWithin_annotates hq).1.symm
  constructor
  · rw [← n.names_erase, ← hsame, m.names_erase]
    exact names_lexed h hm
  · rw [← n.paired_erase, ← hsame, m.paired_erase]
    obtain ⟨ts, hts, hp⟩ := ofText_eq_ok.mp h
    obtain ⟨us, _, hlaid⟩ := (derives_of_parsed (Token.lexed_of_listOfText hts) hp).laid_node hm
    cases hlaid with
    | mk hderived _ _ => exact hderived.paired

theorem named (h : ofText text = .ok p) (hq : p.checkWithin depth = .ok q) {n : Node}
    (hn : q.Contains n) : n.Named := by
  obtain ⟨funs, hfuns, haccepted⟩ := (typed_of_checkWithin hq).accepted hn
  obtain ⟨hlexed, hpaired⟩ := exists_parsed h hq hn
  exact ⟨haccepted.javaNames_eq hfuns hpaired, hlexed, fun w hw => (hlexed w hw).javaIdentifier_iff⟩

/-- In the text in Java of a program that is read and checked, every name is written as it is, and
expressions are written with these names, literals and fixed signs. -/
theorem java_names (h : ofText text = .ok p) (hq : p.checkWithin depth = .ok q) :
    (∀ n, q.Contains n → n.Named) ∧
      ∀ e, q.Contains (.expr e) → ∃ ps, e.pieces = .ok ps ∧ ∀ piece ∈ ps, e.Writes piece := by
  refine ⟨fun n => named h hq, fun e he => ?_⟩
  obtain ⟨funs, _, Γ, T, _, htype⟩ := (typed_of_checkWithin hq).accepted he
  obtain ⟨ps, hps⟩ := htype.emits
  exact ⟨ps, hps, e.pieces_written hps⟩

/-- `FUN main(): Integer DO LET a-b = 7; RETURN a-b; END` -/
def dashed : Program :=
  ⟨[], [⟨0, "main", [], [], some "Integer", [
    .declaration 23 "a-b" none (some (.literal ⟨33, none⟩ (.integer 7))) none,
    .ret 36 (some (.access ⟨43, none⟩ "a-b" none))], none⟩]⟩

def dashedChecked : Program :=
  let v : Variable := ⟨0, "a-b", "a-b", .integer, true⟩
  ⟨[], [⟨0, "main", [], [], some "Integer", [
    .declaration 23 "a-b" none (some (.literal ⟨33, some .integer⟩ (.integer 7))) (some v),
    .ret 36 (some (.access ⟨43, some .integer⟩ "a-b" (some v)))],
    some ⟨"main", "main", [], .integer⟩⟩]⟩

theorem dashed_ofText :
    ofText "FUN main(): Integer DO LET a-b = 7; RETURN a-b; END" = .ok dashed := by
  let ts : List Token := [⟨.identifier, "FUN", 0⟩, ⟨.identifier, "main", 4⟩, ⟨.operator, "(", 8⟩,
    ⟨.operator, ")", 9⟩, ⟨.operator, ":", 10⟩, ⟨.identifier, "Integer", 12⟩,
    ⟨.identifier, "DO", 20⟩, ⟨.identifier, "LET", 23⟩, ⟨.identifier, "a-b", 27⟩,
    ⟨.operator, "=", 31⟩, ⟨.integer, "7", 33⟩, ⟨.operator, ";", 34⟩, ⟨.identifier, "RETURN", 36⟩,
    ⟨.identifier, "a-b", 43⟩, ⟨.operator, ";", 46⟩, ⟨.identifier, "END", 48⟩]
  exact ofText_eq_ok.mpr ⟨ts, by decide +kernel, rfl⟩

theorem dashed_check : dashed.checkWithin 20 = .ok dashedChecked := rfl

/-- A name is written that Java reads as a subtraction. -/
theorem dashes_break_names :
    let name : Expr := .access ⟨43, some .integer⟩ "a-b" (some ⟨0, "a-b", "a-b", .integer, true⟩)
    ofText "FUN main(): Integer DO LET a-b = 7; RETURN a-b; END" = .ok dashed ∧
      dashed.check = .ok dashedChecked ∧ dashedChecked.Contains (.expr name) ∧
      "a-b" ∈ (Node.expr name).javaNames ∧
      (Stmt.ret 36 (some name)).java 0 = .ok ["return a-b;"] ∧ ¬ Java.Identifier "a-b" := by
  refine ⟨dashed_ofText, rfl, ⟨_, List.mem_cons_self, ?_⟩, List.mem_cons_self, rfl, ?_⟩
  · exact .child (List.mem_cons_of_mem _ List.mem_cons_self) (.child List.mem_cons_self .refl)
  · intro hidentifier
    exact absurd (hidentifier.rest '-' (by decide)) (by decide)

theorem dashed_java_names :
    ofText "FUN main(): Integer DO LET a-b = 7; RETURN a-b; END" = .ok dashed ∧
      dashed.checkWithin 20 = .ok dashedChecked ∧
      (∀ n, dashedChecked.Contains n → n.Named) ∧
      ∀ e, dashedChecked.Contains (.expr e) →
        ∃ ps, e.pieces = .ok ps ∧ ∀ piece ∈ ps, e.Writes piece :=
  ⟨dashed_ofText, dashed_check, java_names dashed_ofText dashed_check⟩

end Program

end PlcLang
