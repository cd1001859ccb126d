import PlcLang.Proofs.Grammar

namespace PlcLang

open Rule

namespace Expr

inductive Has : Expr → Expr → Prop
  | refl {e : Expr} : Has e e
  | group {info : Info} {inner x : Expr} : Has inner x → Has (.group info inner) x
  | left {info : Info} {op : BinOp} {left right x : Expr} :
      Has left x → Has (.binary info op left right) x
  | right {info : Info} {op : BinOp} {left right x : Expr} :
      Has right x → Has (.binary info op left right) x
  | index {info : Info} {name : String} {index x : Expr} {slot : Option Variable} :
      Has index x → Has (.element info name index slot) x
  | argument {info : Info} {name : String} {arguments : List Expr} {slot : Option Signature}
      {a x : Expr} : a ∈ arguments → Has a x → Has (.call info name arguments slot) x
  | element {info : Info} {elements : List Expr} {a x : Expr} :
      a ∈ elements → Has a x → Has (.list info elements) x

/-- How loosely the outermost operator binds; there is none around brackets, names and literals. -/
def looseness : Expr → Nat
  | .binary _ op _ _ => op.level
  | _ => 0

/-- An operator of the language with a tighter right operand, or any other expression of the
language. -/
def Formed : Expr → Prop
  | .binary _ op _ right => op.level < 5 ∧ right.looseness < op.level
  | .unknown _ _ => False
  | _ => True

end Expr

inductive Stmt.Has : Stmt → Expr → Prop
  | expression {o : Nat} {value x : Expr} : value.Has x → Has (.expression o value) x
  | declaration {o : Nat} {name : String} {typeName : Option String} {value x : Expr}
      {slot : Option Variable} :
      value.Has x → Has (.declaration o name typeName (some value) slot) x
  | receiver {o : Nat} {receiver value x : Expr} :
      receiver.Has x → Has (.assignment o receiver value) x
  | assigned {o : Nat} {receiver value x : Expr} :
      value.Has x → Has (.assignment o receiver value) x
  | ifCondition {o : Nat} {condition x : Expr} {thenBody elseBody : List Stmt} :
      condition.Has x → Has (.ifElse o condition thenBody elseBody) x
  | ifThen {o : Nat} {condition x : Expr} {thenBody elseBody : List Stmt} {s : Stmt} :
      s ∈ thenBody → Has s x → Has (.ifElse o condition thenBody elseBody) x
  | ifElse {o : Nat} {condition x : Expr} {thenBody elseBody : List Stmt} {s : Stmt} :
      s ∈ elseBody → Has s x → Has (.ifElse o condition thenBody elseBody) x
  | switchCondition {o : Nat} {condition x : Expr} {cases : List Case} :
      condition.Has x → Has (.switch o condition cases) x
  | caseValue {o : Nat} {condition value x : Expr} {cases : List Case} {c : Case} :
      c ∈ cases → c.value = some value → value.Has x → Has (.switch o condition cases) x
  | caseBody {o : Nat} {condition x : Expr} {cases : List Case} {c : Case} {s : Stmt} :
      c ∈ cases → s ∈ c.body → Has s x → Has (.switch o condition cases) x
  | whileCondition {o : Nat} {condition x : Expr} {body : List Stmt} :
      condition.Has x → Has (.whileDo o condition body) x
  | whileBody {o : Nat} {condition x : Expr} {body : List Stmt} {s : Stmt} :
      s ∈ body → Has s x → Has (.whileDo o condition body) x
  | ret {o : Nat} {value x : Expr} : value.Has x → Has (.ret o (some value)) x

inductive Program.Has (p : Program) (x : Expr) : Prop
  | inGlobal {g : Global} {value : Expr} : g ∈ p.globals → g.value = some value → value.Has x → Has p x
  | inFunction {f : Function} {s : Stmt} : f ∈ p.functions → s ∈ f.body → s.Has x → Has p x

namespace Rule

variable {α : Type} {G : Rule α} {ts : List Token} {as : List α}

theorem Many.derived (h : Many G ts as) : ∀ a ∈ as, ∃ us, G us a := by
  induction h with
  | nil => simp
  | cons hG _ ih =>
    intro a ha
    rcases List.mem_cons.1 ha with rfl | ha
    · exact ⟨_, hG⟩
    · exact ih a ha

theorem Separated.derived (h : Separated G ts as) : ∀ a ∈ as, ∃ us, G us a := by
  cases h with
  | mk hG hrest =>
    intro a ha
    rcases List.mem_cons.1 ha with rfl | ha
    · exact ⟨_, hG⟩
    · obtain ⟨us, hcomma⟩ := hrest.derived a ha
      cases hcomma with
      | mk _ hG => exact ⟨_, hG⟩

theorem UpTo.derived {close : String} (h : UpTo close G ts as) : ∀ a ∈ as, ∃ us, G us a := by
  cases h with
  | empty _ => simp
  | items hitems _ => exact hitems.derived

theorem Optional.derived {word : String} {a : α} (h : Optional word G ts (Option.some a)) :
    ∃ us, G us a := by
  cases h with
  | some _ hG => exact ⟨_, hG⟩

end Rule

namespace Expr

variable {E : Rule Expr} {ts : List Token} {e : Expr}

def Proper (e : Expr) : Prop := ∀ x, e.Has x → x.Formed

theorem Primary.proper (hE : ∀ ts e, E ts e → e.Proper) (h : Primary E ts e) :
    e.Proper ∧ e.looseness = 0 := by
  cases h with
  | literal _ | access _ =>
    refine ⟨?_, rfl⟩
    intro x hx
    cases hx with
    | refl => trivial
  | group _ he _ =>
    refine ⟨?_, rfl⟩
    intro x hx
    cases hx with
    | refl => trivial
    | group hx => exact hE _ _ he x hx
  | call _ _ hargs =>
    refine ⟨?_, rfl⟩
    intro x hx
    cases hx with
    | refl => trivial
    | argument ha hx =>
      obtain ⟨us, he⟩ := hargs.derived _ ha
      exact hE us _ he x hx
  | element _ _ he _ =>
    refine ⟨?_, rfl⟩
    intro x hx
    cases hx with
    | refl => trivial
    | index hx => exact hE _ _ he x hx
  | list _ helements =>
    refine ⟨?_, rfl⟩
    intro x hx
    cases hx with
    | refl => trivial
    | element ha hx =>
      obtain ⟨us, he⟩ := helements.derived _ ha
      exact hE us _ he x hx

theorem Chain.proper {level : Nat} {G : Rule Expr} (hlevel : level < 4)
    (hG : ∀ ts e, G ts e → e.Proper ∧ e.looseness ≤ level) {ts : List Token} {e : Expr}
    (h : Chain (level + 1) G ts e) : e.Proper ∧ e.looseness ≤ level + 1 := by
  induction h with
  | operand he =>
    obtain ⟨hproper, hle⟩ := hG _ _ he
    exact ⟨hproper, by omega⟩
  | binary _ hop _ hright ih =>
    obtain ⟨hproper, hle⟩ := hG _ _ hright
    refine ⟨?_, by simp only [looseness]; omega⟩
    intro x hx
    cases hx with
    | refl => exact ⟨by omega, by omega⟩
    | left hx => exact ih.1 x hx
    | right hx => exact hproper x hx

theorem Within.proper : ∀ {depth : Nat} {ts : List Token} {e : Expr}, Within depth ts e → e.Proper
  | depth + 2, ts, e, h => by
    have h₀ : ∀ ts e, Primary (Within depth) ts e → e.Proper ∧ e.looseness ≤ 0 := by
      intro ts e h
      obtain ⟨hproper, heq⟩ := Primary.proper (fun _ _ => Within.proper) h
      exact ⟨hproper, by omega⟩
    have h₁ : ∀ ts e, Chain 1 (Primary (Within depth)) ts e → e.Proper ∧ e.looseness ≤ 1 :=
      fun _ _ => Chain.proper (by omega) h₀
    have h₂ : ∀ ts e, Chain 2 (Chain 1 (Primary (Within depth))) ts e →
        e.Proper ∧ e.looseness ≤ 2 := fun _ _ => Chain.proper (by omega) h₁
    have h₃ : ∀ ts e, Chain 3 (Chain 2 (Chain 1 (Primary (Within depth)))) ts e →
        e.Proper ∧ e.looseness ≤ 3 := fun _ _ => Chain.proper (by omega) h₂
    exact (Chain.proper (by omega) h₃ h).1

end Expr

theorem Case.derived {E : Rule Expr} {S : Rule Stmt} {cs ds : List Token} {cases default : List Case}
    (hcs : Many (Rules E S) cs cases) (hds : Default S ds default) {c : Case}
    (hc : c ∈ cases ++ default) :
    (∀ value, c.value = some value → ∃ us, E us value) ∧ ∃ us, Many S us c.body := by
  rcases List.mem_append.1 hc with hc | hc
  · obtain ⟨us, h⟩ := hcs.derived c hc
    cases h with
    | mk _ he _ hbody =>
      refine ⟨?_, _, hbody⟩
      rintro value ⟨⟩
      exact ⟨_, he⟩
  · cases hds with
    | none => simp at hc
    | some _ hbody =>
      obtain rfl := List.mem_singleton.1 hc
      exact ⟨nofun, _, hbody⟩

namespace Stmt

variable {E : Rule Expr} {S : Rule Stmt} {ts : List Token}

def Proper (s : Stmt) : Prop := ∀ x, s.Has x → x.Formed

variable (hE : ∀ ts e, E ts e → e.Proper) (hS : ∀ ts s, S ts s → s.Proper)
include hS

theorem proper_of_many {body : List Stmt} (h : Many S ts body) : ∀ s ∈ body, s.Proper := by
  intro s hs
  obtain ⟨us, hs⟩ := h.derived s hs
  exact hS us s hs

include hE

theorem proper_of_cases {cs ds : List Token} {cases default : List Case}
    (hcs : Many (Case.Rules E S) cs cases) (hds : Case.Default S ds default) :
    ∀ c ∈ cases ++ default,
      (∀ value, c.value = some value → value.Proper) ∧ ∀ s ∈ c.body, s.Proper := by
  intro c hc
  obtain ⟨hvalue, us, hbody⟩ := Case.derived hcs hds hc
  refine ⟨?_, proper_of_many hS hbody⟩
  intro value h
  obtain ⟨vs, he⟩ := hvalue value h
  exact hE vs value he

theorem Rules.proper {s : Stmt} (h : Rules E S ts s) : s.Proper := by
  intro x hx
  cases h with
  | declaration _ _ _ hvs _ =>
    cases hx with
    | declaration hx =>
      obtain ⟨us, he⟩ := hvs.derived
      exact hE us _ he x hx
  | switch _ he hcs hds _ =>
    have hcases := proper_of_cases hE hS hcs hds
    cases hx with
    | switchCondition hx => exact hE _ _ he x hx
    | caseValue hc hvalue hx => exact (hcases _ hc).1 _ hvalue x hx
    | caseBody hc hs hx => exact (hcases _ hc).2 _ hs x hx
  | ifElse _ he _ hbs hes _ =>
    cases hx with
    | ifCondition hx => exact hE _ _ he x hx
    | ifThen hs hx => exact proper_of_many hS hbs _ hs x hx
    | ifElse hs hx =>
      cases hes with
      | none => simp at hs
      | some _ hes => exact proper_of_many hS hes _ hs x hx
  | whileDo _ he _ hbs _ =>
    cases hx with
    | whileCondition hx => exact hE _ _ he x hx
    | whileBody hs hx => exact proper_of_many hS hbs _ hs x hx
  | returnNil _ _ => cases hx
  | returnValue _ he _ =>
    cases hx with
    | ret hx => exact hE _ _ he x hx
  | expression he _ =>
    cases hx with
    | expression hx => exact hE _ _ he x hx
  | assignment he _ hv _ =>
    cases hx with
    | receiver hx => exact hE _ _ he x hx
    | assigned hx => exact hE _ _ hv x hx

omit hE hS in
theorem Within.proper {depth : Nat} {ts : List Token} {s : Stmt} (h : Within depth ts s) :
    s.Proper := by
  induction depth generalizing ts s with
  | zero => exact h.elim
  | succ depth ih => exact Rules.proper (fun _ _ => Expr.Within.proper) (fun _ _ => ih) h

end Stmt

theorem Global.Rules.proper {E : Rule Expr} {ts : List Token} {g : Global}
    (hE : ∀ ts e, E ts e → e.Proper) (h : Rules E ts g) {value : Expr} (hvalue : g.value = some value) :
    value.Proper := by
  cases h with
  | mk hdecl _ =>
    cases hdecl with
    | list _ _ _ _ _ hvs _ =>
      obtain rfl := Option.some.inj hvalue
      intro x hx
      cases hx with
      | refl => trivial
      | element ha hx =>
        obtain ⟨us, he⟩ := hvs.derived _ ha
        exact hE us _ he x hx
    | mutable _ _ _ hvs =>
      have hsome : _ = some value := hvalue
      subst hsome
      obtain ⟨us, he⟩ := hvs.derived
      exact hE us _ he
    | immutable _ _ _ _ he =>
      obtain rfl := Option.some.inj hvalue
      exact hE _ _ he

/-- No derived program holds an expression that only trees made by hand hold, and every right
operand binds tighter than the operator in front of it. -/
theorem Program.Derives.formed {ts : List Token} {p : Program} (h : Derives ts p) {x : Expr}
    (hx : p.Has x) : x.Formed := by
  obtain ⟨depth, h⟩ := h
  cases h with
  | mk hgs hfs =>
    cases hx with
    | inGlobal hg hvalue hx =>
      obtain ⟨us, hg⟩ := hgs.derived _ hg
      exact hg.proper (fun _ _ => Expr.Within.proper) hvalue x hx
    | inFunction hf hs hx =>
      obtain ⟨us, hf⟩ := hfs.derived _ hf
      cases hf with
      | mk _ _ _ _ _ _ hbs _ =>
        exact Stmt.proper_of_many (fun _ _ => Stmt.Within.proper) hbs _ hs x hx

end PlcLang
