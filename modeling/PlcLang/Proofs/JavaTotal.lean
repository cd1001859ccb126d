import PlcLang.Java
import PlcLang.Proofs.TypeRules

namespace PlcLang

namespace Java

variable {α β : Type} {x : Result α}

theorem bind_eq_ok {f : α → Result β} {b : β} :
    (x >>= f) = .ok b ↔ ∃ a, x = .ok a ∧ f a = .ok b := by
  cases x with
  | error why => exact ⟨nofun, nofun⟩
  | ok a => exact ⟨fun h => ⟨a, rfl, h⟩, fun ⟨_, ha, hb⟩ => by cases ha; exact hb⟩

theorem pure_eq_ok {a b : α} : (pure a : Result α) = .ok b ↔ a = b :=
  ⟨Except.ok.inj, congrArg Except.ok⟩

def Emits (x : Result α) : Prop := ∃ a, x = .ok a

theorem Emits.pure (a : α) : Emits (Pure.pure a : Result α) := ⟨a, rfl⟩

theorem Emits.bind {f : α → Result β} (hx : Emits x) (hf : ∀ a, Emits (f a)) : Emits (x >>= f) := by
  obtain ⟨a, rfl⟩ := hx
  exact hf a

theorem Emits.mapM {f : α → Result β} {as : List α} (h : ∀ a ∈ as, Emits (f a)) :
    Emits (as.mapM f) := by
  induction as with
  | nil => exact .pure []
  | cons a as ih =>
      obtain ⟨ha, has⟩ := List.forall_mem_cons.mp h
      rw [List.mapM_cons]
      exact ha.bind fun b => (ih has).bind fun bs => .pure _

end Java

open Java

variable {allowed : Ty → Prop} {Γ : Env} {level : Nat}

def Literal.Written (value : Literal) : Prop :=
  ∀ n, value = .integer n → n.natAbs < 10 ^ digitLimit

theorem Literal.java_of_written {value : Literal} (h : value.Written) :
    value.java = .ok value.javaText := by
  cases value with
  | integer n =>
      have hdigits := (Nat.length_toDigits_le_iff (by decide) (by decide)).mpr (h n rfl)
      rw [java, if_pos hdigits]
      rfl
  | _ => rfl

theorem Literal.java_of_long {n : Int} (h : 10 ^ digitLimit ≤ n.natAbs) :
    (integer n).java = .error .longNumeral := by
  have hdigits := mt (Nat.length_toDigits_le_iff (by decide) (by decide)).mp (Nat.not_lt.mpr h)
  rw [java, if_neg hdigits]
  rfl

theorem Literal.java_eq_ok {value : Literal} {text : String} :
    value.java = .ok text ↔ value.Written ∧ value.javaText = text := by
  constructor
  · intro h
    have hwritten : value.Written := by
      rintro n rfl
      by_contra hlong
      rw [java_of_long (Nat.le_of_not_lt hlong)] at h
      cases h
    rw [java_of_written hwritten] at h
    exact ⟨hwritten, Except.ok.inj h⟩
  · rintro ⟨hwritten, rfl⟩
    exact java_of_written hwritten

theorem Literal.HasType.written {value : Literal} {T : Ty} (h : value.HasType T) :
    value.Written := by
  rintro n rfl
  cases h with
  | integer hmin hmax =>
      have hdigits : n.natAbs < 10 ^ 10 := by omega
      exact Nat.lt_of_lt_of_le hdigits (Nat.pow_le_pow_right (by decide) (by decide))

theorem Expr.piecesEach_emits {es : List Expr} (h : ∀ e ∈ es, Emits e.pieces) :
    Emits (piecesEach es) := by
  induction es with
  | nil => exact .pure []
  | cons e es ih =>
      obtain ⟨he, hes⟩ := List.forall_mem_cons.mp h
      rw [piecesEach]
      exact he.bind fun ps => (ih hes).bind fun rest => .pure _

theorem BinOp.HasType.precedence {op : BinOp} {L R T : Ty} (h : op.HasType L R T) :
    op = .pow ∨ ∃ p, precedence? op = some p := by
  cases op with
  | pow => exact .inl rfl
  | other symbol => cases h <;> simp_all
  | _ => exact .inr ⟨_, rfl⟩

/-- An operator is written between its operands, once these are there, or in front of them. -/
theorem Expr.exists_pieces_binary {info : Info} {op : BinOp} {left right : Expr}
    (hop : op = .pow ∨ ∃ p, precedence? op = some p) :
    ∃ f : List Piece → List Piece → List Piece, (binary info op left right).pieces = (do
      return f (← left.pieces) (← right.pieces)) := by
  obtain rfl | ⟨p, hp⟩ := hop
  · refine ⟨fun qs rs => .atom "Math.pow" :: listed .round [qs, rs], ?_⟩
    rw [pieces]
  · refine ⟨fun qs rs => leftOperand p left qs ++ .operator op :: rightOperand p right rs, ?_⟩
    rw [pieces, hp]
    rintro rfl
    cases hp

theorem Expr.binary_emits {info : Info} {op : BinOp} {left right : Expr} {L R T : Ty}
    (hop : op.HasType L R T) (hleft : Emits left.pieces) (hright : Emits right.pieces) :
    Emits (binary info op left right).pieces := by
  obtain ⟨f, hf⟩ := exists_pieces_binary hop.precedence
  rw [hf]
  exact hleft.bind fun _ => hright.bind fun _ => .pure _

theorem Expr.HasType.emits {e : Expr} {T : Ty} (h : e.HasType (.filled allowed) Γ T) :
    Emits e.pieces := by
  induction h with
  | literal hvalue _ =>
      rw [pieces, Literal.java_of_written hvalue.written]
      exact .pure _
  | group _ _ ih =>
      rw [pieces]
      exact ih.bind fun _ => .pure _
  | binary _ _ hop _ ihleft ihright => exact binary_emits hop ihleft ihright
  | access _ _ hslot =>
      obtain ⟨⟨v, rfl, _⟩, _⟩ := hslot
      rw [pieces]
      exact .pure _
  | element _ _ _ hslot ih =>
      obtain ⟨⟨v, rfl, _⟩, _⟩ := hslot
      rw [pieces]
      exact Emits.bind (.pure _) fun _ => ih.bind fun _ => .pure _
  | @call info name arguments slot s types _ _ hlen _ _ hslot ih =>
      obtain ⟨rfl, _⟩ := hslot
      have harguments : ∀ e ∈ arguments, Emits e.pieces := by
        intro e he
        rw [← List.map_fst_zip (Nat.le_of_eq hlen)] at he
        obtain ⟨p, hp, rfl⟩ := List.mem_map.mp he
        exact ih p hp
      rw [pieces]
      exact (piecesEach_emits harguments).bind fun _ => .pure _
  | list _ _ _ ih =>
      rw [pieces]
      exact (piecesEach_emits ih).bind fun _ => .pure _

theorem Expr.HasType.java_emits {e : Expr} {T : Ty} (h : e.HasType (.filled allowed) Γ T) :
    Emits e.java :=
  h.emits.bind fun _ => .pure _

theorem Java.declarator_emits (type : Ty) (name : String) {value : Option Expr}
    (h : ∀ e, value = some e → Emits e.java) : Emits (declarator type name value) := by
  cases value with
  | none => exact .pure _
  | some e => exact (h e rfl).bind fun _ => .pure _

theorem Case.javaEach_emits {cases : List Case}
    (hvalues : ∀ c ∈ cases, ∀ e, c.value = some e → Emits e.java)
    (hbodies : ∀ c ∈ cases, ∀ level, Emits (Stmt.javaEach level c.body)) :
    Emits (javaEach level cases) := by
  induction cases with
  | nil =>
      rw [javaEach]
      exact .pure _
  | cons c cases ih =>
      obtain ⟨hvalue, hvalues⟩ := List.forall_mem_cons.mp hvalues
      obtain ⟨hbody, hbodies⟩ := List.forall_mem_cons.mp hbodies
      have hcase : Emits (c.java level) := by
        obtain ⟨offset, value, body⟩ := c
        cases value with
        | none =>
            rw [Case.java]
            exact (hbody _).bind fun _ => .pure _
        | some e =>
            rw [Case.java]
            exact (hvalue e rfl).bind fun _ => (hbody _).bind fun _ => .pure _
      rw [javaEach]
      exact hcase.bind fun _ => (ih hvalues hbodies).bind fun _ => .pure _

theorem Case.sizeOf_body_lt {c : Case} {cases : List Case} (h : c ∈ cases) :
    sizeOf c.body < sizeOf cases := by
  have hlt := List.sizeOf_lt_of_mem h
  obtain ⟨offset, value, body⟩ := c
  rw [mk.sizeOf_spec] at hlt
  simp only [Case.body]
  omega

mutual

theorem Stmt.Typed.emits {returns : Ty} {Γ Δ : Env} {x : Stmt}
    (h : x.Typed (.filled allowed) returns Γ Δ) (level : Nat) : Emits (x.java level) := by
  cases h with
  | expression hcall =>
      rw [Stmt.java]
      exact hcall.java_emits.bind fun _ => .pure _
  | declarationOfType _ hslot =>
      obtain ⟨⟨v, rfl, _⟩, _⟩ := hslot
      rw [Stmt.java]
      refine (declarator_emits _ _ ?_).bind fun _ => .pure _
      exact fun _ hnone => nomatch hnone
  | declarationOfValue hvalue _ hslot | declarationOfBoth hvalue _ _ hslot =>
      obtain ⟨⟨v, rfl, _⟩, _⟩ := hslot
      rw [Stmt.java]
      refine (declarator_emits _ _ ?_).bind fun _ => .pure _
      rintro e ⟨⟩
      exact hvalue.java_emits
  | assignment hreceiver _ hvalue _ | elementAssignment hreceiver _ hvalue _ =>
      rw [Stmt.java]
      exact hreceiver.java_emits.bind fun _ => hvalue.java_emits.bind fun _ => .pure _
  | ifElse hcondition _ hthen helse =>
      rw [Stmt.java]
      exact hcondition.java_emits.bind fun _ => (hthen.emits _).bind fun _ =>
        (helse.emits _).bind fun _ => .pure _
  | switch hcondition hvalues hbodies _ _ =>
      rw [Stmt.java]
      refine hcondition.java_emits.bind fun _ => (Case.javaEach_emits ?_ ?_).bind fun _ => .pure _
      · exact fun c hc e he => (hvalues c hc e he).java_emits
      · exact fun c hc level => (hbodies c hc).emits level
  | whileDo hcondition hbody =>
      rw [Stmt.java]
      exact hcondition.java_emits.bind fun _ => (hbody.emits _).bind fun _ => .pure _
  | bareReturn _ =>
      rw [Stmt.java]
      exact .pure _
  | valueReturn hvalue _ =>
      rw [Stmt.java]
      exact hvalue.java_emits.bind fun _ => .pure _
termination_by sizeOf x
decreasing_by
  all_goals simp only [Stmt.ifElse.sizeOf_spec, Stmt.switch.sizeOf_spec, Stmt.whileDo.sizeOf_spec]
  · omega
  · omega
  · have hbody := Case.sizeOf_body_lt hc
    omega
  · omega

theorem Stmt.BlockTyped.emits {returns : Ty} {Γ : Env} {xs : List Stmt}
    (h : BlockTyped (.filled allowed) returns Γ xs) (level : Nat) : Emits (javaEach level xs) := by
  cases h with
  | nil =>
      rw [javaEach]
      exact .pure _
  | cons hx hxs =>
      rw [javaEach]
      exact (hx.emits level).bind fun _ => (hxs.emits level).bind fun _ => .pure _
termination_by sizeOf xs
decreasing_by
  all_goals
    simp only [List.cons.sizeOf_spec]
    omega

end

theorem Global.Typed.emits {g : Global} {T : Ty} (h : g.Typed (.filled allowed) Γ T) :
    Emits g.java := by
  obtain ⟨_, hvalue, _, ⟨v, hv, _⟩, _⟩ := h
  rw [Global.java, hv]
  refine (declarator_emits _ _ fun e he => ?_).bind fun _ => .pure _
  obtain ⟨S, he, _⟩ := hvalue e he
  exact he.java_emits

theorem Function.BodyTyped.emits {f : Function} {s : Signature}
    (h : f.BodyTyped (.filled allowed) Γ s) : Emits f.java := by
  obtain ⟨_, hbody, hslot, _⟩ := h
  rw [Function.java, hslot]
  exact (hbody.emits 2).bind fun _ => .pure _

theorem Global.ListTyped.emits {Δ : Env} {gs : List Global}
    (h : ListTyped (.filled allowed) Γ gs Δ) : ∀ g ∈ gs, Emits g.java := by
  induction h with
  | nil => exact nofun
  | cons hg _ ih => exact List.forall_mem_cons.mpr ⟨hg.emits, ih⟩

theorem Function.bodies_emit {fs : List Function} {signatures : List Signature}
    (h : List.Forall₂ (BodyTyped (.filled allowed) Γ) fs signatures) : ∀ f ∈ fs, Emits f.java := by
  induction h with
  | nil => exact nofun
  | cons hf _ ih => exact List.forall_mem_cons.mpr ⟨hf.emits, ih⟩

/-- The text of a checked program, which there is if its rendering has room. -/
theorem Program.Typed.emits {p : Program} (h : p.Typed (.filled allowed)) :
    ∃ text, p.javaText = .ok text ∧
      p.java = if p.javaFrames ≤ frameLimit then .ok text else .error .tooDeep := by
  obtain ⟨Γ, signatures, hglobals, _, _, _, hbodies⟩ := h
  have hlines : Emits p.javaLines :=
    (Emits.mapM hglobals.emits).bind fun _ =>
      (Emits.mapM (Function.bodies_emit hbodies)).bind fun _ => .pure _
  obtain ⟨text, htext⟩ : Emits p.javaText := hlines.bind fun _ => .pure _
  refine ⟨text, htext, ?_⟩
  rw [java, htext]
  rfl

end PlcLang
