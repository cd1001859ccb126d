import PlcLang.Proofs.CheckedTrees
import PlcLang.Proofs.CheckerSound
import PlcLang.Proofs.JavaTotal
import PlcLang.Proofs.Resolution

namespace PlcLang

theorem Env.withParameters_funs (Γ : Env) (parameters : List (String × Ty)) :
    (Γ.withParameters parameters).funs = Γ.funs := by
  induction parameters generalizing Γ with
  | nil => rfl
  | cons p parameters ih => exact ih (Γ.declare p.1 ⟨p.2, true⟩)

theorem Stmt.Typed.funs_eq {σ : Slots} {returns : Ty} {Γ Δ : Env} {x : Stmt}
    (h : x.Typed σ returns Γ Δ) : Δ.funs = Γ.funs := by
  cases h <;> rfl

namespace Node

def Filled : Node → Prop
  | expr e => e.info.type.isSome ∧
    match e with
    | .access _ _ slot | .element _ _ _ slot => slot.isSome
    | .call _ _ _ slot => slot.isSome
    | _ => True
  | stmt (.declaration _ _ _ _ slot) => slot.isSome
  | global g => g.slot.isSome
  | function f => f.slot.isSome
  | stmt _ | branch _ => True

variable {allowed : Ty → Prop} {funs : String → Nat → Option Signature}

/-- The node follows the rules in some environment with the given functions. -/
def Accepted (allowed : Ty → Prop) (funs : String → Nat → Option Signature) : Node → Prop
  | expr e => ∃ Γ T, Γ.funs = funs ∧ e.HasType (.filled allowed) Γ T
  | stmt x => ∃ returns Γ Δ, Γ.funs = funs ∧ x.Typed (.filled allowed) returns Γ Δ
  | branch c =>
    (∀ e, c.value = some e → ∃ Γ T, Γ.funs = funs ∧ e.HasType (.filled allowed) Γ T) ∧
    ∃ returns Γ, Γ.funs = funs ∧ Stmt.BlockTyped (.filled allowed) returns Γ c.body
  | global g => ∃ Γ T, Γ.funs = funs ∧ g.Typed (.filled allowed) Γ T
  | function f => ∃ Γ s, Γ.funs = funs ∧ f.Declares s ∧ f.BodyTyped (.filled allowed) Γ s

theorem accepted_of_block {returns : Ty} {Γ : Env} {body : List Stmt}
    (h : Stmt.BlockTyped (.filled allowed) returns Γ body) (hΓ : Γ.funs = funs) :
    ∀ n ∈ body.map stmt, n.Accepted allowed funs := by
  induction body generalizing Γ with
  | nil => exact nofun
  | cons x body ih =>
      cases h with
      | cons hx hbody =>
          rw [List.map_cons, List.forall_mem_cons]
          exact ⟨⟨_, _, _, hΓ, hx⟩, ih hbody (hx.funs_eq.trans hΓ)⟩

theorem accepted_of_value {value : Option Expr}
    (h : ∀ e, value = some e → (expr e).Accepted allowed funs) :
    ∀ n ∈ value.toList.map expr, n.Accepted allowed funs := by
  cases value with
  | none => exact nofun
  | some e => simpa using h e rfl

theorem accepted_of_exprs {es : List Expr} (h : ∀ e ∈ es, (expr e).Accepted allowed funs) :
    ∀ n ∈ es.map expr, n.Accepted allowed funs :=
  List.forall_mem_map.mpr h

theorem accepted_of_stmt {returns : Ty} {Γ Δ : Env} {x : Stmt} (hΓ : Γ.funs = funs)
    (h : x.Typed (.filled allowed) returns Γ Δ) : ∀ n ∈ x.children, n.Accepted allowed funs := by
  cases h with
  | expression hcall => exact accepted_of_exprs (List.forall_mem_singleton.mpr ⟨_, _, hΓ, hcall⟩)
  | declarationOfType => exact nofun
  | declarationOfValue hvalue | declarationOfBoth hvalue =>
      exact accepted_of_exprs (List.forall_mem_singleton.mpr ⟨_, _, hΓ, hvalue⟩)
  | assignment hreceiver _ hvalue | elementAssignment hreceiver _ hvalue =>
      exact List.forall_mem_cons.mpr ⟨⟨_, _, hΓ, hreceiver⟩,
        List.forall_mem_singleton.mpr ⟨_, _, hΓ, hvalue⟩⟩
  | ifElse hcondition _ hthen helse =>
      refine List.forall_mem_cons.mpr ⟨⟨_, _, hΓ, hcondition⟩, ?_⟩
      exact List.forall_mem_append.mpr ⟨accepted_of_block hthen hΓ, accepted_of_block helse hΓ⟩
  | switch hcondition hvalues hbodies =>
      refine List.forall_mem_cons.mpr ⟨⟨_, _, hΓ, hcondition⟩, List.forall_mem_map.mpr ?_⟩
      exact fun c hc => ⟨fun e he => ⟨_, _, hΓ, hvalues c hc e he⟩, _, Γ.enter, hΓ, hbodies c hc⟩
  | whileDo hcondition hbody =>
      exact List.forall_mem_cons.mpr ⟨⟨_, _, hΓ, hcondition⟩, accepted_of_block hbody hΓ⟩
  | bareReturn => exact nofun
  | valueReturn hvalue => exact accepted_of_exprs (List.forall_mem_singleton.mpr ⟨_, _, hΓ, hvalue⟩)

theorem accepted_of_expr {Γ : Env} {e : Expr} {T : Ty} (hΓ : Γ.funs = funs)
    (h : e.HasType (.filled allowed) Γ T) : ∀ a ∈ e.children, (expr a).Accepted allowed funs := by
  cases h with
  | literal | access => exact nofun
  | group hinner => exact List.forall_mem_singleton.mpr ⟨_, _, hΓ, hinner⟩
  | binary hleft hright =>
      exact List.forall_mem_cons.mpr
        ⟨⟨_, _, hΓ, hleft⟩, List.forall_mem_singleton.mpr ⟨_, _, hΓ, hright⟩⟩
  | element _ hindex => exact List.forall_mem_singleton.mpr ⟨_, _, hΓ, hindex⟩
  | call _ _ hlen harguments =>
      intro a ha
      obtain ⟨T, ha⟩ := Resolution.arguments_typed hlen harguments a ha
      exact ⟨Γ, T, hΓ, ha⟩
  | list _ helements => exact fun a ha => ⟨_, _, hΓ, helements a ha⟩

theorem Accepted.child {n : Node} (h : n.Accepted allowed funs) :
    ∀ m ∈ n.children, m.Accepted allowed funs := by
  cases n with
  | expr e =>
      obtain ⟨Γ, T, hΓ, he⟩ := h
      exact accepted_of_exprs (accepted_of_expr hΓ he)
  | stmt x =>
      obtain ⟨returns, Γ, Δ, hΓ, hx⟩ := h
      exact accepted_of_stmt hΓ hx
  | branch c =>
      obtain ⟨hvalue, returns, Γ, hΓ, hbody⟩ := h
      exact List.forall_mem_append.mpr ⟨accepted_of_value hvalue, accepted_of_block hbody hΓ⟩
  | global g =>
      obtain ⟨Γ, T, hΓ, hg⟩ := h
      refine accepted_of_value fun e he => ?_
      obtain ⟨S, hS, _⟩ := hg.2.1 e he
      exact ⟨Γ, S, hΓ, hS⟩
  | function f =>
      obtain ⟨Γ, s, hΓ, _, hf⟩ := h
      exact accepted_of_block hf.2.1 ((Env.withParameters_funs _ _).trans hΓ)

theorem Accepted.filled {n : Node} (h : n.Accepted allowed funs) : n.Filled := by
  have hsymbol {slot : Option Variable} {name : String} {b : Binding}
      (h : (Slots.filled allowed).symbol slot name b) : slot.isSome := by
    obtain ⟨⟨v, rfl, _⟩, _⟩ := h
    rfl
  cases n with
  | expr e =>
      obtain ⟨Γ, T, _, he⟩ := h
      cases he with
      | literal _ htype | group _ htype | binary _ _ _ htype | list _ _ htype =>
          exact ⟨Option.isSome_of_eq_some htype.1, trivial⟩
      | access _ htype hslot | element _ _ htype hslot =>
          exact ⟨Option.isSome_of_eq_some htype.1, hsymbol hslot⟩
      | call _ _ _ _ htype hslot =>
          exact ⟨Option.isSome_of_eq_some htype.1, Option.isSome_of_eq_some hslot.1⟩
  | stmt x =>
      obtain ⟨returns, Γ, Δ, _, hx⟩ := h
      cases hx with
      | declarationOfType _ hslot | declarationOfValue _ _ hslot | declarationOfBoth _ _ _ hslot =>
          exact hsymbol hslot
      | _ => trivial
  | branch c => trivial
  | global g =>
      obtain ⟨Γ, T, _, hg⟩ := h
      exact hsymbol hg.2.2.2
  | function f =>
      obtain ⟨Γ, s, _, _, hf⟩ := h
      exact Option.isSome_of_eq_some hf.2.2.1

end Node

namespace Program

variable {allowed : Ty → Prop} {p q : Program} {depth : Nat}

theorem globals_accepted {Γ Δ : Env} {gs : List Global}
    (h : Global.ListTyped (.filled allowed) Γ gs Δ) :
    ∀ g ∈ gs, (Node.global g).Accepted allowed Γ.funs := by
  induction h with
  | nil => exact nofun
  | cons hg _ ih => exact List.forall_mem_cons.mpr ⟨⟨_, _, rfl, hg⟩, ih⟩

theorem functions_accepted {Γ : Env} {fs : List Function} {signatures : List Signature}
    (hdeclares : List.Forall₂ Function.Declares fs signatures)
    (h : List.Forall₂ (Function.BodyTyped (.filled allowed) Γ) fs signatures) :
    ∀ f ∈ fs, (Node.function f).Accepted allowed Γ.funs := by
  induction h with
  | nil => exact nofun
  | cons hf _ ih =>
      obtain ⟨hdeclare, hdeclares⟩ := List.forall₂_cons.mp hdeclares
      exact List.forall_mem_cons.mpr ⟨⟨_, _, rfl, hdeclare, hf⟩, ih hdeclares⟩

theorem exists_declares {fs : List Function} {signatures : List Signature}
    (h : List.Forall₂ Function.Declares fs signatures) :
    ∀ s ∈ signatures, ∃ f ∈ fs, f.Declares s := by
  induction h with
  | nil => exact nofun
  | @cons f s fs _ hf _ ih =>
      refine List.forall_mem_cons.mpr ⟨⟨f, List.mem_cons_self, hf⟩, fun s hs => ?_⟩
      obtain ⟨f', hmem, hf'⟩ := ih s hs
      exact ⟨f', List.mem_cons_of_mem f hmem, hf'⟩

/-- The functions that a program can call: the one that prints, and those that it declares. -/
def Callees (q : Program) (funs : String → Nat → Option Signature) : Prop :=
  ∃ signatures, (∀ s ∈ signatures, ∃ f ∈ q.functions, f.Declares s) ∧
    funs = Env.lookupIn (.print :: signatures)

theorem Typed.accepted (h : q.Typed (.filled allowed)) {n : Node} (hn : q.Contains n) :
    ∃ funs, q.Callees funs ∧ n.Accepted allowed funs := by
  obtain ⟨Γ, signatures, hglobals, hdeclares, _, _, hbodies⟩ := h
  have hcallees : q.Callees (Env.lookupIn (.print :: signatures)) :=
    ⟨signatures, exists_declares hdeclares, rfl⟩
  refine hn.induction (P := fun n => ∃ funs, q.Callees funs ∧ n.Accepted allowed funs)
    (List.forall_mem_append.mpr ⟨?_, ?_⟩) ?_
  · exact List.forall_mem_map.mpr fun g hg =>
      ⟨_, ⟨[], nofun, rfl⟩, globals_accepted hglobals g hg⟩
  · exact List.forall_mem_map.mpr fun f hf =>
      ⟨_, hcallees, functions_accepted hdeclares hbodies f hf⟩
  · rintro n ⟨funs, hfuns, haccepted⟩ m hm
    exact ⟨funs, hfuns, haccepted.child m hm⟩

/-- What an accepted program is turned into: the same tree, with all slots filled, where each
variable has the symbol of the innermost visible declaration of its name. No two declarations share
a symbol, and the tree has a text in Java, which is given unless it takes too many calls. -/
structure Annotates (p q : Program) : Prop where
  same : q.erase = p.erase
  filled : ∀ n, q.Contains n → n.Filled
  bound : ∃ created, q.Bound created ∧ (created.map Variable.id).Nodup
  emits : ∃ text, q.javaText = .ok text ∧
    q.java = if q.javaFrames ≤ Java.frameLimit then .ok text else .error .tooDeep

end Program

namespace Stmt

/-- As many `WHILE TRUE` as the number says, one in the other, around `RETURN 0`. -/
def loops (typed : Bool) : Nat → Stmt
  | 0 => .ret 0 (some (.literal ⟨0, if typed then some .integer else none⟩ (.integer 0)))
  | n + 1 =>
    .whileDo 0 (.literal ⟨0, if typed then some .boolean else none⟩ (.boolean true)) [loops typed n]

end Stmt

namespace Program

def loops (typed : Bool) (n : Nat) : Program where
  globals := []
  functions := [⟨0, "main", [], [], some "Integer", [.loops typed n],
    if typed then some ⟨"main", "main", [], .integer⟩ else none⟩]

end Program

end PlcLang
