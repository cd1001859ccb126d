import PlcLang.Proofs.DerivedTrees
import PlcLang.Proofs.GrammarDepth
import PlcLang.Proofs.TreeNodes

namespace PlcLang

open Rule

namespace Node

def DerivedFrom : Node → List Token → Prop
  | expr e, ts => Limit Expr.Within ts e
  | stmt x, ts => Limit Stmt.Within ts x
  | branch c, ts => Case.Rules (Limit Expr.Within) (Limit Stmt.Within) ts c ∨
    Case.Default (Limit Stmt.Within) ts [c]
  | global g, ts => Global.Rules (Limit Expr.Within) ts g
  | function f, ts => Function.Rules (Limit Stmt.Within) ts f

def StartsAt (n : Node) (ts : List Token) : Prop := ts.head?.map Token.offset = some n.offset

mutual

/-- The tokens are what the node is derived from, and the nodes below it have parts of them. -/
inductive Laid : Node → List Token → Prop
  | mk {n : Node} {ts : List Token} :
      n.DerivedFrom ts → n.StartsAt ts → LaidEach n.children ts → Laid n ts

/-- The nodes have parts of the tokens that follow each other, with other tokens around them. -/
inductive LaidEach : List Node → List Token → Prop
  | nil {ts : List Token} : LaidEach [] ts
  | cons {n : Node} {ns : List Node} {gap us ts : List Token} :
      Laid n us → LaidEach ns ts → LaidEach (n :: ns) (gap ++ us ++ ts)

end

variable {n : Node} {ns ms : List Node} {ts us : List Token}

theorem StartsAt.append (h : n.StartsAt ts) (us : List Token) : n.StartsAt (ts ++ us) := by
  cases ts with
  | nil => cases h
  | cons t ts => exact h

theorem StartsAt.mem (h : n.StartsAt ts) : ∃ t ∈ ts, t.offset = n.offset := by
  obtain ⟨t, ht, hoffset⟩ := Option.map_eq_some_iff.mp h
  exact ⟨t, List.mem_of_mem_head? ht, hoffset⟩

theorem Laid.startsAt (h : n.Laid ts) : n.StartsAt ts := by
  cases h with
  | mk _ hstarts _ => exact hstarts

namespace LaidEach

theorem before (h : LaidEach ns ts) (us : List Token) : LaidEach ns (us ++ ts) := by
  cases h with
  | nil => exact .nil
  | @cons n ns gap vs ts hn hns =>
      have hcons : LaidEach (n :: ns) (us ++ gap ++ vs ++ ts) := .cons hn hns
      simpa only [List.append_assoc] using hcons

theorem append (h : LaidEach ns ts) (h' : LaidEach ms us) : LaidEach (ns ++ ms) (ts ++ us) := by
  induction ns generalizing ts with
  | nil => exact h'.before ts
  | cons n ns ih =>
      cases h with
      | @cons _ _ gap vs ws hn hns =>
          rw [List.append_assoc]
          exact .cons hn (ih hns)

theorem after (h : LaidEach ns ts) (us : List Token) : LaidEach ns (ts ++ us) := by
  have hnil : LaidEach [] us := .nil
  have happend := h.append hnil
  rwa [List.append_nil] at happend

theorem one (h : n.Laid ts) : LaidEach [n] ts := by
  have hcons : LaidEach [n] ([] ++ ts ++ []) := .cons h .nil
  rwa [List.nil_append, List.append_nil] at hcons

theorem mem (h : LaidEach ns ts) (hn : n ∈ ns) : ∃ us, us <:+: ts ∧ n.Laid us := by
  induction ns generalizing ts with
  | nil => cases hn
  | cons m ns ih =>
      cases h with
      | @cons _ _ gap us ws hm hns =>
          obtain rfl | hn := List.mem_cons.mp hn
          · exact ⟨us, ⟨gap, ws, rfl⟩, hm⟩
          · obtain ⟨vs, hvs, hlaid⟩ := ih hns hn
            exact ⟨vs, hvs.trans (List.infix_append' (gap ++ us) ws []) |>.trans (by simp), hlaid⟩

end LaidEach

section Lists

variable {α : Type} {G : Rule α} {f : α → Node} (hG : ∀ ts a, G ts a → (f a).Laid ts)
  {as : List α} {value : Option α}
include hG

theorem laidEach_many (h : Many G ts as) : LaidEach (as.map f) ts := by
  induction h with
  | nil => exact .nil
  | cons ha _ ih => exact (LaidEach.one (hG _ _ ha)).append ih

theorem laidEach_separated (h : Separated G ts as) : LaidEach (as.map f) ts := by
  cases h with
  | mk ha hrest =>
      refine (LaidEach.one (hG _ _ ha)).append ?_
      clear ha
      induction hrest with
      | nil => exact .nil
      | cons hcomma _ ih =>
          cases hcomma with
          | mk _ ha => exact ((LaidEach.one (hG _ _ ha)).before _).append ih

theorem laidEach_upTo {close : String} (h : UpTo close G ts as) : LaidEach (as.map f) ts := by
  cases h with
  | empty _ => exact .nil
  | items hitems _ => exact (laidEach_separated hG hitems).after _

theorem laidEach_optional {word : String} (h : Rule.Optional word G ts value) :
    LaidEach (value.toList.map f) ts := by
  cases h with
  | none => exact .nil
  | some _ ha => exact (LaidEach.one (hG _ _ ha)).before _

end Lists

end Node

open Node (LaidEach)

theorem Rule.Word.startsAt {text : String} {w : List Token} {o : Nat} (h : Word text w o)
    {n : Node} (hn : n.offset = o) : n.StartsAt w := by
  cases h with
  | mk _ => exact congrArg some hn.symm

namespace Expr

variable {depth : Nat} {ts : List Token} {e : Expr}

/-- What is to be shown of an expression to lay it, apart from its derivation. -/
def Spans (e : Expr) (ts : List Token) : Prop :=
  (Node.expr e).StartsAt ts ∧ LaidEach (e.children.map .expr) ts

theorem Primary.spans {E : Rule Expr} (hE : ∀ ts e, E ts e → (Node.expr e).Laid ts)
    (h : Primary E ts e) : e.Spans ts := by
  cases h with
  | literal _ | access _ => exact ⟨rfl, .nil⟩
  | group hw he _ =>
      exact ⟨((hw.startsAt rfl).append _).append _, ((LaidEach.one (hE _ _ he)).before _).after _⟩
  | call _ _ harguments => exact ⟨rfl, (Node.laidEach_upTo hE harguments).before _⟩
  | element _ _ he _ => exact ⟨rfl, ((LaidEach.one (hE _ _ he)).before _).after _⟩
  | list hw helements =>
      exact ⟨(hw.startsAt rfl).append _, (Node.laidEach_upTo hE helements).before _⟩

/-- Chains of all levels are expressions, so that each operand has a derivation of its own. -/
theorem Chain.spans {G : Rule Expr} {level : Nat} (hle : Le (Chain level G) (Limit Within))
    (hG : ∀ ts e, G ts e → e.Spans ts) (h : Chain level G ts e) : e.Spans ts := by
  induction h with
  | operand he => exact hG _ _ he
  | @binary ts w us o op left right hleft _ _ hright ih =>
      have hstarts : (Node.expr (.binary ⟨left.offset, none⟩ op left right)).StartsAt ts := ih.1
      have hlaid := Node.Laid.mk (n := .expr _) (hle hleft) ih.1 ih.2
      have hlaid' := Node.Laid.mk (n := .expr _) (hle (.operand hright)) (hG _ _ hright).1
        (hG _ _ hright).2
      exact ⟨(hstarts.append _).append _, ((LaidEach.one hlaid).after _).append (.one hlaid')⟩

theorem Within.laid : ∀ {depth : Nat} {ts : List Token} {e : Expr}, Within depth ts e →
    (Node.expr e).Laid ts
  | depth + 2, ts, e, h => by
    have h₀ : ∀ ts e, Primary (Within depth) ts e → e.Spans ts :=
      fun _ _ => Primary.spans fun _ _ => Within.laid
    have l₄ : Le (Chain 4 (Chain 3 (Chain 2 (Chain 1 (Primary (Within depth)))))) (Limit Within) :=
      fun h => ⟨depth + 2, h⟩
    have l₃ : Le (Chain 3 (Chain 2 (Chain 1 (Primary (Within depth))))) (Limit Within) :=
      fun h => l₄ (.operand h)
    have l₂ : Le (Chain 2 (Chain 1 (Primary (Within depth)))) (Limit Within) :=
      fun h => l₃ (.operand h)
    have l₁ : Le (Chain 1 (Primary (Within depth))) (Limit Within) := fun h => l₂ (.operand h)
    have hspans := Chain.spans l₄ (fun _ _ => Chain.spans l₃ fun _ _ => Chain.spans l₂
      fun _ _ => Chain.spans l₁ h₀) h
    exact .mk ⟨depth + 2, h⟩ hspans.1 hspans.2

theorem Chain.left_offset {G : Rule Expr} {level : Nat} {info : Info} {op : BinOp}
    {left right : Expr} (hG : ∀ ts, G ts (.binary info op left right) → info.offset = left.offset)
    (h : Chain level G ts (.binary info op left right)) : info.offset = left.offset := by
  cases h with
  | operand he => exact hG _ he
  | binary => rfl

theorem Within.left_offset {info : Info} {op : BinOp} {left right : Expr}
    (h : Within depth ts (.binary info op left right)) : info.offset = left.offset := by
  match depth, h with
  | depth + 2, h =>
    have hprimary (ts : List Token) (h : Primary (Within depth) ts (.binary info op left right)) :
        info.offset = left.offset := nomatch h
    exact Chain.left_offset (fun _ => Chain.left_offset fun _ => Chain.left_offset fun _ =>
      Chain.left_offset hprimary) h

theorem Chain.of_literal {G : Rule Expr} {level : Nat} {info : Info} {value : Literal}
    (h : Chain level G ts (.literal info value)) : G ts (.literal info value) := by
  cases h with
  | operand he => exact he

theorem Within.literal_spelled {info : Info} {value : Literal}
    (h : Within depth ts (.literal info value)) : ∃ t ∈ ts, value.Spells t := by
  match depth, h with
  | depth + 2, h =>
    cases h.of_literal.of_literal.of_literal.of_literal with
    | literal ht => exact ⟨_, List.mem_singleton_self _, ht⟩

end Expr

section Statements

variable {depth : Nat} {ts : List Token}

theorem Case.Rules.laid (hS : ∀ ts x, Stmt.Within depth ts x → (Node.stmt x).Laid ts) {c : Case}
    (h : Case.Rules (Expr.Within depth) (Stmt.Within depth) ts c) : (Node.branch c).Laid ts := by
  refine .mk (.inl (Case.Rules.mono (le_limit _ depth) (le_limit _ depth) h)) ?_ ?_
  · cases h with
    | mk hw _ _ _ => exact (((hw.startsAt rfl).append _).append _).append _
  · cases h with
    | mk _ he _ hbody =>
        exact (((LaidEach.one he.laid).before _).after _).append (Node.laidEach_many hS hbody)

theorem Case.Default.laid (hS : ∀ ts x, Stmt.Within depth ts x → (Node.stmt x).Laid ts)
    {cs : List Case} (h : Case.Default (Stmt.Within depth) ts cs) :
    LaidEach (cs.map .branch) ts := by
  cases h with
  | none => exact .nil
  | some hw hbody =>
      refine .one (.mk (.inr (Case.Default.mono (le_limit _ depth) (.some hw hbody))) ?_ ?_)
      · exact (hw.startsAt rfl).append _
      · exact (Node.laidEach_many hS hbody).before _

theorem Stmt.Rules.spans (hS : ∀ ts x, Stmt.Within depth ts x → (Node.stmt x).Laid ts) {x : Stmt}
    (h : Stmt.Rules (Expr.Within depth) (Stmt.Within depth) ts x) :
    (Node.stmt x).StartsAt ts ∧ LaidEach x.children ts := by
  have hE (ts : List Token) (e : Expr) (h : Expr.Within depth ts e) := h.laid
  cases h with
  | declaration hw _ _ hvs _ =>
      exact ⟨((((hw.startsAt rfl).append _).append _).append _).append _,
        ((Node.laidEach_optional hE hvs).before _).after _⟩
  | switch hw he hcs hds _ =>
      refine ⟨((((hw.startsAt rfl).append _).append _).append _).append _, ?_⟩
      have hcases := Node.laidEach_many (fun _ _ hc => Case.Rules.laid hS hc) hcs
      rw [children, List.map_append]
      refine LaidEach.after ?_ _
      exact (((LaidEach.one he.laid).before _).append hcases).append (Case.Default.laid hS hds)
  | ifElse hw he _ hbs hes _ =>
      refine ⟨(((((hw.startsAt rfl).append _).append _).append _).append _).append _, ?_⟩
      refine LaidEach.after ?_ _
      refine LaidEach.append ((((LaidEach.one he.laid).before _).after _).append
        (Node.laidEach_many hS hbs)) ?_
      cases hes with
      | none => exact .nil
      | some _ hes => exact (Node.laidEach_many hS hes).before _
  | whileDo hw he _ hbs _ =>
      exact ⟨((((hw.startsAt rfl).append _).append _).append _).append _,
        ((((LaidEach.one he.laid).before _).after _).append (Node.laidEach_many hS hbs)).after _⟩
  | returnNil hw _ => exact ⟨(hw.startsAt rfl).append _, .nil⟩
  | returnValue hw he _ =>
      exact ⟨((hw.startsAt rfl).append _).append _, ((LaidEach.one he.laid).before _).after _⟩
  | @expression ts c o value he _ =>
      have hstarts : (Node.stmt (.expression value.offset value)).StartsAt ts := he.laid.startsAt
      exact ⟨hstarts.append _, (LaidEach.one he.laid).after _⟩
  | @assignment ts w vs c o o' receiver value he _ hv _ =>
      have hstarts : (Node.stmt (.assignment receiver.offset receiver value)).StartsAt ts :=
        he.laid.startsAt
      exact ⟨((hstarts.append _).append _).append _,
        (((LaidEach.one he.laid).after _).append (.one hv.laid)).after _⟩

theorem Stmt.Within.laid {x : Stmt} (h : Stmt.Within depth ts x) : (Node.stmt x).Laid ts := by
  induction depth generalizing ts x with
  | zero => exact h.elim
  | succ depth ih =>
      obtain ⟨hstarts, hchildren⟩ := Stmt.Rules.spans (fun _ _ => ih) h
      exact .mk ⟨depth + 1, h⟩ hstarts hchildren

theorem Global.Rules.laid {g : Global} (h : Global.Rules (Expr.Within depth) ts g) :
    (Node.global g).Laid ts := by
  have hE (ts : List Token) (e : Expr) (h : Expr.Within depth ts e) := h.laid
  have hderived := Global.Rules.mono (le_limit _ depth) h
  cases h with
  | mk hdecl _ =>
      cases hdecl with
      | @list w n us e b vs c o o' bracket o'' name typeName elements hw _ _ _ hb hvs hc =>
          refine .mk hderived ?_ ?_
          · refine Node.StartsAt.append ?_ _
            exact ((((((hw.startsAt rfl).append _).append _).append _).append _).append _).append _
          · -- The brackets of the list belong to its expression.
            have helements : Expr.Primary (Expr.Within depth) (b ++ (vs ++ c))
                (.list ⟨bracket, none⟩ elements) := .list hb (.items hvs hc)
            have hlist : Expr.Within (depth + 2) (b ++ (vs ++ c)) (.list ⟨bracket, none⟩ elements) :=
              .operand (.operand (.operand (.operand helements)))
            have hlaid := (LaidEach.one hlist.laid).before (w ++ n ++ us ++ e)
            refine LaidEach.after ?_ _
            simp only [List.append_assoc] at hlaid ⊢
            exact hlaid
      | mutable hw _ _ hvs =>
          refine .mk hderived (Node.StartsAt.append ?_ _) ?_
          · exact (((hw.startsAt rfl).append _).append _).append _
          · exact ((Node.laidEach_optional hE hvs).before _).after _
      | immutable hw _ _ _ hvs =>
          refine .mk hderived (Node.StartsAt.append ?_ _) ?_
          · exact ((((hw.startsAt rfl).append _).append _).append _).append _
          · exact ((LaidEach.one hvs.laid).before _).after _

theorem Function.Rules.laid {f : Function} (h : Function.Rules (Stmt.Within depth) ts f) :
    (Node.function f).Laid ts := by
  refine .mk (Function.Rules.mono (le_limit _ depth) h) ?_ ?_
  · cases h with
    | mk hw _ _ _ _ _ _ _ =>
        exact (((((((hw.startsAt rfl).append _).append _).append _).append _).append _).append
          _).append _
  · cases h with
    | mk _ _ _ _ _ _ hbs _ =>
        exact ((Node.laidEach_many (fun _ _ h => h.laid) hbs).before _).after _

end Statements

namespace Program

variable {ts : List Token} {p : Program}

theorem Derives.laid (h : Derives ts p) : LaidEach p.nodes ts := by
  obtain ⟨depth, h⟩ := h
  cases h with
  | mk hgs hfs =>
      have hglobals := Node.laidEach_many (fun _ _ h => h.laid) hgs
      exact hglobals.append (Node.laidEach_many (fun _ _ h => h.laid) hfs)

theorem Derives.laid_node (h : Derives ts p) {n : Node} (hn : p.Contains n) :
    ∃ us, us <:+: ts ∧ n.Laid us := by
  refine hn.induction (fun n hmem => h.laid.mem hmem) ?_
  rintro n ⟨us, hus, hlaid⟩ m hm
  cases hlaid with
  | mk _ _ hchildren =>
      obtain ⟨vs, hvs, hm⟩ := hchildren.mem hm
      exact ⟨vs, hvs.trans hus, hm⟩

theorem Derives.offset_mem (h : Derives ts p) {n : Node} (hn : p.Contains n) :
    ∃ t ∈ ts, t.offset = n.offset := by
  obtain ⟨us, hus, hlaid⟩ := h.laid_node hn
  obtain ⟨t, ht, hoffset⟩ := hlaid.startsAt.mem
  exact ⟨t, hus.subset ht, hoffset⟩

theorem Derives.left_offset (h : Derives ts p) {info : Info} {op : BinOp} {left right : Expr}
    (hn : p.Contains (.expr (.binary info op left right))) : info.offset = left.offset := by
  obtain ⟨us, _, hlaid⟩ := h.laid_node hn
  cases hlaid with
  | mk hderived _ _ =>
      obtain ⟨depth, hwithin⟩ := hderived
      exact hwithin.left_offset

theorem Derives.literal_spelled (h : Derives ts p) {info : Info} {value : Literal}
    (hn : p.Contains (.expr (.literal info value))) : ∃ t ∈ ts, value.Spells t := by
  obtain ⟨us, hus, hlaid⟩ := h.laid_node hn
  cases hlaid with
  | mk hderived _ _ =>
      obtain ⟨depth, hwithin⟩ := hderived
      obtain ⟨t, ht, hspells⟩ := hwithin.literal_spelled
      exact ⟨t, hus.subset ht, hspells⟩

end Program

end PlcLang
