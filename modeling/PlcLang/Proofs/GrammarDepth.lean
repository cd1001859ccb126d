import PlcLang.Proofs.Grammar

namespace PlcLang

namespace Rule

variable {α : Type}

def Le (G H : Rule α) : Prop := ∀ {ts : List Token} {a : α}, G ts a → H ts a

/-- A rule for each depth, and larger depths lose nothing. -/
def Grows (W : Nat → Rule α) : Prop := ∀ {d d' : Nat}, d ≤ d' → Le (W d) (W d')

/-- The rule without a bound on the depth. -/
def Limit (W : Nat → Rule α) : Rule α := fun ts a => ∃ depth, W depth ts a

theorem le_limit (W : Nat → Rule α) (depth : Nat) : Le (W depth) (Limit W) := fun h => ⟨depth, h⟩

section Growth

variable {G H : Rule α} (hle : Le G H)
include hle

theorem Optional.mono (word : String) : Le (Optional word G) (Optional word H) := by
  intro ts a h
  cases h with
  | none => exact .none
  | some hw hG => exact .some hw (hle hG)

theorem Many.mono : Le (Many G) (Many H) := by
  intro ts as h
  induction h with
  | nil => exact .nil
  | cons hG _ ih => exact .cons (hle hG) ih

theorem AfterComma.mono : Le (AfterComma G) (AfterComma H) := by
  intro ts a h
  cases h with
  | mk hw hG => exact .mk hw (hle hG)

theorem Separated.mono : Le (Separated G) (Separated H) := by
  intro ts as h
  cases h with
  | mk hG hrest => exact .mk (hle hG) (Many.mono (AfterComma.mono hle) hrest)

theorem UpTo.mono (close : String) : Le (UpTo close G) (UpTo close H) := by
  intro ts as h
  cases h with
  | empty hw => exact .empty hw
  | items hitems hw => exact .items (Separated.mono hle hitems) hw

end Growth

section Bounds

variable {β γ : Type} {W : Nat → Rule α} {V : Nat → Rule β} {U : Nat → Rule γ}
  {ts us vs : List Token} {a : α} {b : β} {c : γ}

theorem exists_common (hW : Grows W) (hV : Grows V) (ha : Limit W ts a) (hb : Limit V us b) :
    ∃ depth, W depth ts a ∧ V depth us b := by
  obtain ⟨d, ha⟩ := ha
  obtain ⟨d', hb⟩ := hb
  exact ⟨max d d', hW (Nat.le_max_left d d') ha, hV (Nat.le_max_right d d') hb⟩

theorem exists_common_three (hW : Grows W) (hV : Grows V) (hU : Grows U) (ha : Limit W ts a)
    (hb : Limit V us b) (hc : Limit U vs c) :
    ∃ depth, W depth ts a ∧ V depth us b ∧ U depth vs c := by
  obtain ⟨d, ha, hb⟩ := exists_common hW hV ha hb
  obtain ⟨d', hc⟩ := hc
  have hle := Nat.le_max_left d d'
  exact ⟨max d d', hW hle ha, hV hle hb, hU (Nat.le_max_right d d') hc⟩

end Bounds

/-- Whatever needs some depth in the unbounded rule needs one depth: how a rule built from another
one passes to the limit. -/
def Finitary {β : Type} (T : Rule α → Rule β) : Prop :=
  ∀ {W : Nat → Rule α}, Grows W → Le (T (Limit W)) (Limit fun depth => T (W depth))

theorem finitary_optional (word : String) : Finitary (Optional (α := α) word) := by
  intro W _ ts a h
  cases h with
  | none => exact ⟨0, .none⟩
  | some hw hG =>
    obtain ⟨depth, hG⟩ := hG
    exact ⟨depth, .some hw hG⟩

theorem finitary_many : Finitary (Many (α := α)) := by
  intro W hW ts as h
  induction h with
  | nil => exact ⟨0, .nil⟩
  | cons hG _ ih =>
    have hmany : Grows fun depth => Many (W depth) := fun hle => Many.mono (hW hle)
    obtain ⟨depth, hG, hrest⟩ := exists_common hW hmany hG ih
    exact ⟨depth, .cons hG hrest⟩

theorem finitary_afterComma : Finitary (AfterComma (α := α)) := by
  intro W _ ts a h
  cases h with
  | mk hw hG =>
    obtain ⟨depth, hG⟩ := hG
    exact ⟨depth, .mk hw hG⟩

theorem finitary_separated : Finitary (Separated (α := α)) := by
  intro W hW ts as h
  have hcomma : Grows fun depth => AfterComma (W depth) := fun hle => AfterComma.mono (hW hle)
  cases h with
  | mk hG hrest =>
    have hmany : Grows fun depth => Many (AfterComma (W depth)) := fun hle => Many.mono (hcomma hle)
    have hrest' := finitary_many hcomma (Many.mono (finitary_afterComma hW) hrest)
    obtain ⟨depth, hG, hrest⟩ := exists_common hW hmany hG hrest'
    exact ⟨depth, .mk hG hrest⟩

theorem finitary_upTo (close : String) : Finitary (UpTo (α := α) close) := by
  intro W hW ts as h
  cases h with
  | empty hw => exact ⟨0, .empty hw⟩
  | items hitems hw =>
    obtain ⟨depth, hitems⟩ := finitary_separated hW hitems
    exact ⟨depth, .items hitems hw⟩

end Rule

open Rule

namespace Expr

theorem Chain.mono {G H : Rule Expr} (level : Nat) (hle : Le G H) :
    Le (Chain level G) (Chain level H) := by
  intro ts e h
  induction h with
  | operand he => exact .operand (hle he)
  | binary _ hlevel hw hright ih => exact .binary ih hlevel hw (hle hright)

theorem Primary.mono {E E' : Rule Expr} (hle : Le E E') : Le (Primary E) (Primary E') := by
  intro ts e h
  cases h with
  | literal hv => exact .literal hv
  | group hw he hw' => exact .group hw (hle he) hw'
  | call ht hw hargs => exact .call ht hw (UpTo.mono hle ")" hargs)
  | element ht hw he hw' => exact .element ht hw (hle he) hw'
  | access ht => exact .access ht
  | list hw helements => exact .list hw (UpTo.mono hle "]" helements)

theorem Rules.mono {E E' : Rule Expr} (hle : Le E E') : Le (Rules E) (Rules E') :=
  Chain.mono 4 (Chain.mono 3 (Chain.mono 2 (Chain.mono 1 (Primary.mono hle))))

theorem within_grows : Grows Within
  | 0, _, _ => fun h => h.elim
  | 1, _, _ => fun h => h.elim
  | d + 2, d', hle => by
    obtain ⟨d', rfl⟩ : ∃ n, d' = n + 2 := ⟨d' - 2, by omega⟩
    exact Rules.mono (within_grows (by omega))

theorem finitary_chain (level : Nat) : Finitary (Chain level) := by
  intro W hW ts e h
  induction h with
  | operand he =>
    obtain ⟨depth, he⟩ := he
    exact ⟨depth, .operand he⟩
  | binary _ hlevel hw hright ih =>
    have hchain : Grows fun depth => Chain level (W depth) := fun hle => Chain.mono level (hW hle)
    obtain ⟨depth, hleft, hright⟩ := exists_common hchain hW ih hright
    exact ⟨depth, .binary hleft hlevel hw hright⟩

theorem finitary_primary : Finitary Primary := by
  intro W hW ts e h
  cases h with
  | literal hv => exact ⟨0, .literal hv⟩
  | group hw he hw' =>
    obtain ⟨depth, he⟩ := he
    exact ⟨depth, .group hw he hw'⟩
  | call ht hw hargs =>
    obtain ⟨depth, hargs⟩ := finitary_upTo ")" hW hargs
    exact ⟨depth, .call ht hw hargs⟩
  | element ht hw he hw' =>
    obtain ⟨depth, he⟩ := he
    exact ⟨depth, .element ht hw he hw'⟩
  | access ht => exact ⟨0, .access ht⟩
  | list hw helements =>
    obtain ⟨depth, helements⟩ := finitary_upTo "]" hW helements
    exact ⟨depth, .list hw helements⟩

theorem finitary_rules : Finitary Rules := by
  intro W hW ts e h
  have h₀ : Grows fun d => Primary (W d) := fun hle => Primary.mono (hW hle)
  have h₁ : Grows fun d => Chain 1 (Primary (W d)) := fun hle => Chain.mono 1 (h₀ hle)
  have h₂ : Grows fun d => Chain 2 (Chain 1 (Primary (W d))) := fun hle => Chain.mono 2 (h₁ hle)
  have h₃ : Grows fun d => Chain 3 (Chain 2 (Chain 1 (Primary (W d)))) :=
    fun hle => Chain.mono 3 (h₂ hle)
  have l₁ : Le (Chain 1 (Primary (Limit W))) (Limit fun d => Chain 1 (Primary (W d))) := fun h =>
    finitary_chain 1 h₀ (Chain.mono 1 (finitary_primary hW) h)
  have l₂ : Le (Chain 2 (Chain 1 (Primary (Limit W)))) (Limit fun d =>
      Chain 2 (Chain 1 (Primary (W d)))) := fun h =>
    finitary_chain 2 h₁ (Chain.mono 2 l₁ h)
  have l₃ : Le (Chain 3 (Chain 2 (Chain 1 (Primary (Limit W))))) (Limit fun d =>
      Chain 3 (Chain 2 (Chain 1 (Primary (W d))))) := fun h =>
    finitary_chain 3 h₂ (Chain.mono 3 l₂ h)
  exact finitary_chain 4 h₃ (Chain.mono 4 l₃ h)

/-- Without a bound, expressions are what the rules say of them. -/
theorem limit_within_iff {ts : List Token} {e : Expr} :
    Limit Within ts e ↔ Rules (Limit Within) ts e := by
  constructor
  · rintro ⟨depth, h⟩
    match depth, h with
    | depth + 2, h => exact Rules.mono (le_limit Within depth) h
  · intro h
    obtain ⟨depth, h⟩ := finitary_rules within_grows h
    exact ⟨depth + 2, h⟩

/-- They are the least solution of the rules. -/
theorem within_le {E : Rule Expr} (h : Le (Rules E) E) : ∀ depth, Le (Within depth) E
  | 0 => fun h => h.elim
  | 1 => fun h => h.elim
  | depth + 2 => fun he => h (Rules.mono (within_le h depth) he)

end Expr

section Statements

variable {E E' : Rule Expr} {S S' : Rule Stmt} {W : Nat → Rule Expr} {V : Nat → Rule Stmt}

section Growth

variable (hE : Le E E') (hS : Le S S')
include hE hS

theorem Case.Rules.mono : Le (Case.Rules E S) (Case.Rules E' S') := by
  intro ts c h
  cases h with
  | mk hw he hc hbody => exact .mk hw (hE he) hc (Many.mono hS hbody)

omit hE in
theorem Case.Default.mono : Le (Case.Default S) (Case.Default S') := by
  intro ts cs h
  cases h with
  | none => exact .none
  | some hw hbody => exact .some hw (Many.mono hS hbody)

theorem Stmt.Rules.mono : Le (Stmt.Rules E S) (Stmt.Rules E' S') := by
  intro ts a h
  cases h with
  | declaration hw hn htype hvs hc => exact .declaration hw hn htype (Optional.mono hE "=" hvs) hc
  | switch hw he hcs hds hc =>
    exact .switch hw (hE he) (Many.mono (Case.Rules.mono hE hS) hcs) (Case.Default.mono hS hds) hc
  | ifElse hw he hd hbs hes hc =>
    exact .ifElse hw (hE he) hd (Many.mono hS hbs) (Optional.mono (Many.mono hS) "ELSE" hes) hc
  | whileDo hw he hd hbs hc => exact .whileDo hw (hE he) hd (Many.mono hS hbs) hc
  | returnNil hw hc => exact .returnNil hw hc
  | returnValue hw he hc => exact .returnValue hw (hE he) hc
  | expression he hc => exact .expression (hE he) hc
  | assignment he hw hv hc => exact .assignment (hE he) hw (hE hv) hc

omit hS in
theorem Global.Rules.mono : Le (Global.Rules E) (Global.Rules E') := by
  intro ts g h
  cases h with
  | mk hdecl hc =>
    refine .mk ?_ hc
    cases hdecl with
    | list hw hn hts he hb hvs hc => exact .list hw hn hts he hb (Separated.mono hE hvs) hc
    | mutable hw hn hts hvs => exact .mutable hw hn hts (Optional.mono hE "=" hvs)
    | immutable hw hn hts he hvs => exact .immutable hw hn hts he (hE hvs)

omit hE in
theorem Function.Rules.mono : Le (Function.Rules S) (Function.Rules S') := by
  intro ts f h
  cases h with
  | mk hw hn hb hps hts hd hbs hc => exact .mk hw hn hb hps hts hd (Many.mono hS hbs) hc

theorem Program.Rules.mono : Le (Program.Rules E S) (Program.Rules E' S') := by
  intro ts p h
  cases h with
  | mk hgs hfs =>
    exact .mk (Many.mono (Global.Rules.mono hE) hgs) (Many.mono (Function.Rules.mono hS) hfs)

end Growth

theorem Stmt.within_grows : Grows Stmt.Within := by
  intro d d' hle
  induction d generalizing d' with
  | zero =>
    intro ts a h
    exact h.elim
  | succ d ih =>
    obtain ⟨d', rfl⟩ : ∃ n, d' = n + 1 := ⟨d' - 1, by omega⟩
    have hle' : d ≤ d' := by omega
    intro ts a h
    exact Stmt.Rules.mono (Expr.within_grows hle') (ih hle') h

theorem Program.within_grows : Grows Program.Within := by
  intro d d' hle
  exact Program.Rules.mono (Expr.within_grows hle) (Stmt.within_grows hle)

section Limits

variable (hW : Grows W) (hV : Grows V)
include hV

theorem Case.exists_default {ts : List Token} {cs : List Case}
    (h : Case.Default (Limit V) ts cs) : Limit (fun depth => Case.Default (V depth)) ts cs := by
  cases h with
  | none => exact ⟨0, .none⟩
  | some hw hbody =>
    obtain ⟨depth, hbody⟩ := finitary_many hV hbody
    exact ⟨depth, .some hw hbody⟩

theorem Function.exists_rules {ts : List Token} {f : Function}
    (h : Function.Rules (Limit V) ts f) : Limit (fun depth => Function.Rules (V depth)) ts f := by
  cases h with
  | mk hw hn hb hps hts hd hbs hc =>
    obtain ⟨depth, hbs⟩ := finitary_many hV hbs
    exact ⟨depth, .mk hw hn hb hps hts hd hbs hc⟩

omit hV
include hW

theorem Global.exists_rules {ts : List Token} {g : Global} (h : Global.Rules (Limit W) ts g) :
    Limit (fun depth => Global.Rules (W depth)) ts g := by
  cases h with
  | mk hdecl hc =>
    cases hdecl with
    | list hw hn hts he hb hvs hc' =>
      obtain ⟨depth, hvs⟩ := finitary_separated hW hvs
      exact ⟨depth, .mk (.list hw hn hts he hb hvs hc') hc⟩
    | mutable hw hn hts hvs =>
      obtain ⟨depth, hvs⟩ := finitary_optional "=" hW hvs
      exact ⟨depth, .mk (.mutable hw hn hts hvs) hc⟩
    | immutable hw hn hts he hvs =>
      obtain ⟨depth, hvs⟩ := hvs
      exact ⟨depth, .mk (.immutable hw hn hts he hvs) hc⟩

include hV

theorem Case.exists_rules {ts : List Token} {c : Case} (h : Case.Rules (Limit W) (Limit V) ts c) :
    Limit (fun depth => Case.Rules (W depth) (V depth)) ts c := by
  have hbodies : Grows fun depth => Many (V depth) := fun hle => Many.mono (hV hle)
  cases h with
  | mk hw he hc hbody =>
    obtain ⟨depth, he, hbody⟩ := exists_common hW hbodies he (finitary_many hV hbody)
    exact ⟨depth, .mk hw he hc hbody⟩

theorem Stmt.exists_rules {ts : List Token} {a : Stmt} (h : Stmt.Rules (Limit W) (Limit V) ts a) :
    Limit (fun depth => Stmt.Rules (W depth) (V depth)) ts a := by
  have hbodies : Grows fun depth => Many (V depth) := fun hle => Many.mono (hV hle)
  have hvalues : Grows fun depth => Rule.Optional "=" (W depth) :=
    fun hle => Optional.mono (hW hle) "="
  have helses : Grows fun depth => Rule.Optional "ELSE" (Many (V depth)) :=
    fun hle => Optional.mono (hbodies hle) "ELSE"
  have hcase : Grows fun depth => Case.Rules (W depth) (V depth) :=
    fun hle => Case.Rules.mono (hW hle) (hV hle)
  have hcases : Grows fun depth => Many (Case.Rules (W depth) (V depth)) :=
    fun hle => Many.mono (hcase hle)
  have hdefaults : Grows fun depth => Case.Default (V depth) := fun hle => Case.Default.mono (hV hle)
  cases h with
  | declaration hw hn htype hvs hc =>
    obtain ⟨depth, hvs⟩ := finitary_optional "=" hW hvs
    exact ⟨depth, .declaration hw hn htype hvs hc⟩
  | switch hw he hcs hds hc =>
    have hcs' := finitary_many hcase (Many.mono (Case.exists_rules hW hV) hcs)
    obtain ⟨depth, he, hcs, hds⟩ :=
      exists_common_three hW hcases hdefaults he hcs' (Case.exists_default hV hds)
    exact ⟨depth, .switch hw he hcs hds hc⟩
  | ifElse hw he hd hbs hes hc =>
    have hes' := finitary_optional "ELSE" hbodies (Optional.mono (finitary_many hV) "ELSE" hes)
    obtain ⟨depth, he, hbs, hes⟩ :=
      exists_common_three hW hbodies helses he (finitary_many hV hbs) hes'
    exact ⟨depth, .ifElse hw he hd hbs hes hc⟩
  | whileDo hw he hd hbs hc =>
    obtain ⟨depth, he, hbs⟩ := exists_common hW hbodies he (finitary_many hV hbs)
    exact ⟨depth, .whileDo hw he hd hbs hc⟩
  | returnNil hw hc => exact ⟨0, .returnNil hw hc⟩
  | returnValue hw he hc =>
    obtain ⟨depth, he⟩ := he
    exact ⟨depth, .returnValue hw he hc⟩
  | expression he hc =>
    obtain ⟨depth, he⟩ := he
    exact ⟨depth, .expression he hc⟩
  | assignment he hw hv hc =>
    obtain ⟨depth, he, hv⟩ := exists_common hW hW he hv
    exact ⟨depth, .assignment he hw hv hc⟩

theorem Program.exists_rules {ts : List Token} {p : Program}
    (h : Program.Rules (Limit W) (Limit V) ts p) :
    Limit (fun depth => Program.Rules (W depth) (V depth)) ts p := by
  have hglobal : Grows fun depth => Global.Rules (W depth) := fun hle => Global.Rules.mono (hW hle)
  have hfunction : Grows fun depth => Function.Rules (V depth) :=
    fun hle => Function.Rules.mono (hV hle)
  have hglobals : Grows fun depth => Many (Global.Rules (W depth)) :=
    fun hle => Many.mono (hglobal hle)
  have hfunctions : Grows fun depth => Many (Function.Rules (V depth)) :=
    fun hle => Many.mono (hfunction hle)
  cases h with
  | mk hgs hfs =>
    have hgs' := finitary_many hglobal (Many.mono (Global.exists_rules hW) hgs)
    have hfs' := finitary_many hfunction (Many.mono (Function.exists_rules hV) hfs)
    obtain ⟨depth, hgs, hfs⟩ := exists_common hglobals hfunctions hgs' hfs'
    exact ⟨depth, .mk hgs hfs⟩

end Limits

theorem Stmt.limit_within_iff {ts : List Token} {a : Stmt} :
    Limit Stmt.Within ts a ↔ Stmt.Rules (Limit Expr.Within) (Limit Stmt.Within) ts a := by
  constructor
  · rintro ⟨depth, h⟩
    cases depth with
    | zero => exact h.elim
    | succ depth => exact Stmt.Rules.mono (le_limit _ depth) (le_limit _ depth) h
  · intro h
    obtain ⟨depth, h⟩ := Stmt.exists_rules Expr.within_grows Stmt.within_grows h
    exact ⟨depth + 1, h⟩

theorem Stmt.within_le (hE : Le (Expr.Rules E) E) (hS : Le (Stmt.Rules E S) S) (depth : Nat) :
    Le (Stmt.Within depth) S := by
  induction depth with
  | zero =>
    intro ts a h
    exact h.elim
  | succ depth ih =>
    intro ts a h
    exact hS (Stmt.Rules.mono (Expr.within_le hE depth) ih h)

theorem Program.derives_iff {ts : List Token} {p : Program} :
    Program.Derives ts p ↔ Program.Rules (Limit Expr.Within) (Limit Stmt.Within) ts p := by
  constructor
  · rintro ⟨depth, h⟩
    exact Program.Rules.mono (le_limit _ depth) (le_limit _ depth) h
  · intro h
    exact Program.exists_rules Expr.within_grows Stmt.within_grows h

end Statements

end PlcLang
