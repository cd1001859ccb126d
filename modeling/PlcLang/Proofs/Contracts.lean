import Mathlib.Order.WellFounded
import PlcLang.Proofs.RunPlan

namespace PlcLang

namespace Plan

variable {α β : Type} {P : Point → Prop}

def OnlyAsks (P : Point → Prop) : Plan α → Prop
  | done _ | stop _ => True
  | look next => ∀ s, (next s).OnlyAsks P
  | change _ next => next.OnlyAsks P
  | ask sub next => P sub ∧ ∀ r, (next r).OnlyAsks P

theorem OnlyAsks.bind {x : Plan α} {f : α → Plan β} (hx : x.OnlyAsks P)
    (hf : ∀ a, (f a).OnlyAsks P) : (x >>= f).OnlyAsks P := by
  change (x.bind f).OnlyAsks P
  induction x with
  | done a => exact hf a
  | stop why => trivial
  | look next ih => exact fun s => ih s (hx s)
  | change s next ih => exact ih hx
  | ask pt next ih => exact ⟨hx.1, fun r => ih r (hx.2 r)⟩

theorem OnlyAsks.atomic (m : Run α) : (atomic m).OnlyAsks P := by
  intro s
  simp only
  split <;> trivial

theorem OnlyAsks.await {pt : Point} (h : P pt) : (await pt).OnlyAsks P := ⟨h, fun _ => trivial⟩

theorem OnlyAsks.pure (a : α) : (Pure.pure a : Plan α).OnlyAsks P := trivial

theorem OnlyAsks.imp {Q : Point → Prop} {plan : Plan α} (h : plan.OnlyAsks P)
    (hPQ : ∀ pt, P pt → Q pt) : plan.OnlyAsks Q := by
  induction plan with
  | done a => trivial
  | stop why => trivial
  | look next ih => exact fun s => ih s (h s)
  | change s next ih => exact ih h
  | ask pt next ih => exact ⟨hPQ pt h.1, fun r => ih r (h.2 r)⟩

theorem OnlyAsks.asks {answer : (pt : Point) → Run pt.Result} {plan : Plan α}
    (h : plan.OnlyAsks P) {s t : Store} {sub : Point} (hasks : plan.Asks answer s sub t) : P sub := by
  induction plan generalizing s with
  | done a => exact hasks.elim
  | stop why => exact hasks.elim
  | look next ih => exact ih s (h s) hasks
  | change s' next ih => exact ih h hasks
  | ask pt next ih =>
      obtain ⟨rfl, _⟩ | ⟨r, s', _, hnext⟩ := hasks
      · exact h.1
      · exact ih r (h.2 r) hnext

end Plan

namespace Point

open Plan

def depth : Point → Nat
  | expr depth _ _ | exprs depth _ _ | stmt depth _ _ | stmts depth _ _ | loop _ depth _ _ _
  | select depth _ _ _ | call depth _ _ | globals depth _ | program depth _ => depth

def kind : Point → Nat
  | expr .. | stmt .. => 0
  | exprs .. | stmts .. | select .. => 1
  | loop .. | call .. => 2
  | globals .. => 3
  | program .. => 4

def left : Point → Nat
  | exprs _ _ es => es.length
  | stmts _ _ xs => xs.length
  | select _ _ _ cases => cases.length
  | loop n _ _ _ _ => n
  | globals _ gs => gs.length
  | _ => 0

def rank (pt : Point) : ℕ ×ₗ ℕ ×ₗ ℕ := toLex (pt.depth, toLex (pt.kind, pt.left))

theorem rank_lt_of_depth {sub pt : Point} (h : sub.depth < pt.depth) : sub.rank < pt.rank :=
  Prod.Lex.lt_iff.mpr (.inl h)

theorem rank_lt_of_kind {sub pt : Point} (hdepth : sub.depth = pt.depth) (h : sub.kind < pt.kind) :
    sub.rank < pt.rank :=
  Prod.Lex.lt_iff.mpr (.inr ⟨hdepth, Prod.Lex.lt_iff.mpr (.inl h)⟩)

theorem rank_lt_of_left {sub pt : Point} (hdepth : sub.depth = pt.depth)
    (hkind : sub.kind = pt.kind) (h : sub.left < pt.left) : sub.rank < pt.rank :=
  Prod.Lex.lt_iff.mpr (.inr ⟨hdepth, Prod.Lex.lt_iff.mpr (.inr ⟨hkind, h⟩)⟩)

theorem exprPlan_onlyAsks (depth scope : Nat) (e : Expr) :
    (exprPlan depth scope e).OnlyAsks fun sub => sub.depth ≤ depth := by
  have heval (e : Expr) : (eval depth scope e).OnlyAsks fun sub => sub.depth ≤ depth :=
    .await (Nat.le_refl depth)
  have hall (es : List Expr) : (evalAll depth scope es).OnlyAsks fun sub => sub.depth ≤ depth :=
    .await (Nat.le_refl depth)
  cases e with
  | literal info value => exact .pure _
  | group info inner => exact heval inner
  | binary info op left right =>
      cases op with
      | and =>
          refine (heval left).bind fun v => .bind (.atomic _) fun b => ?_
          cases b with
          | false => exact .pure _
          | true => exact (heval right).bind fun w => .bind (.atomic _) fun b => .pure _
      | or =>
          refine (heval left).bind fun v => .bind (.atomic _) fun b => ?_
          cases b with
          | false => exact (heval right).bind fun w => .bind (.atomic _) fun b => .pure _
          | true => exact .pure _
      | _ => exact (heval left).bind fun v => (heval right).bind fun w => .atomic _
  | access info name slot => exact .bind (.atomic _) fun found => .pure _
  | element info name index slot =>
      exact .bind (.atomic _) fun found => .bind (.atomic _) fun address => .bind (.atomic _)
        fun length => (heval index).bind fun v => .bind (.atomic _) fun i => .bind (.atomic _)
        fun elements => .pure _
  | call info name arguments slot =>
      exact .bind (.atomic _) fun r => (hall arguments).bind fun values =>
        .await (Nat.le_refl depth)
  | list info elements => exact (hall elements).bind fun values => .atomic _
  | unknown start node => trivial

theorem blockPlan_onlyAsks {P : Point → Prop} {depth : Nat} {body : List Stmt}
    (h : ∀ scope, P (stmts depth scope body)) (parent : Nat) :
    (blockPlan depth parent body).OnlyAsks P :=
  .bind (.atomic _) fun scope => .await (h scope)

theorem stmtPlan_onlyAsks (rounds depth scope : Nat) (x : Stmt) :
    (stmtPlan rounds depth scope x).OnlyAsks fun sub => sub.depth ≤ depth := by
  have heval (e : Expr) : (eval depth scope e).OnlyAsks fun sub => sub.depth ≤ depth :=
    .await (Nat.le_refl depth)
  have hblock (body : List Stmt) :
      (blockPlan depth scope body).OnlyAsks fun sub => sub.depth ≤ depth :=
    blockPlan_onlyAsks (fun _ => Nat.le_refl depth) scope
  cases x with
  | expression offset value => exact (heval value).bind fun v => .pure _
  | declaration offset name typeName value slot =>
      cases slot with
      | none => trivial
      | some slot =>
          cases value with
          | none => exact .bind (.atomic _) fun _ => .pure _
          | some value => exact (heval value).bind fun v => .bind (.atomic _) fun _ => .pure _
  | assignment offset receiver value =>
      cases receiver with
      | access info name slot =>
          exact .bind (.atomic _) fun found => .bind (.atomic _) fun _ => (heval value).bind
            fun v => .bind (.atomic _) fun _ => .pure _
      | element info name index slot =>
          exact .bind (.atomic _) fun found => .bind (.atomic _) fun _ => .bind (.atomic _)
            fun address => .bind (.atomic _) fun length => (heval index).bind fun v =>
            .bind (.atomic _) fun i => (heval value).bind fun w => .bind (.atomic _) fun _ =>
            .pure _
      | _ => trivial
  | ifElse offset condition thenBody elseBody =>
      refine (heval condition).bind fun v => .bind (.atomic _) fun b => ?_
      cases b with
      | false => exact hblock elseBody
      | true => exact hblock thenBody
  | switch offset condition cases =>
      exact (heval condition).bind fun v => .bind (.await (Nat.le_refl depth)) hblock
  | whileDo offset condition body => exact .await (Nat.le_refl depth)
  | ret offset value =>
      cases value with
      | none => exact .pure _
      | some value => exact (heval value).bind fun v => .pure _
  | unknown start node => trivial

theorem plan_onlyAsks (rounds : Nat) (pt : Point) :
    (pt.plan rounds).OnlyAsks fun sub => sub.rank < pt.rank := by
  cases pt with
  | expr depth scope e =>
      cases depth with
      | zero => trivial
      | succ depth =>
          exact (exprPlan_onlyAsks depth scope e).imp fun sub h =>
            rank_lt_of_depth (Nat.lt_succ_of_le h)
  | exprs depth scope es =>
      cases es with
      | nil => trivial
      | cons e es =>
          refine .bind (.await ?_) fun v => .bind (.await ?_) fun vs => trivial
          · exact rank_lt_of_kind rfl Nat.one_pos
          · exact rank_lt_of_left rfl rfl (Nat.lt_succ_self _)
  | stmt depth scope x =>
      cases depth with
      | zero => trivial
      | succ depth =>
          exact (stmtPlan_onlyAsks rounds depth scope x).imp fun sub h =>
            rank_lt_of_depth (Nat.lt_succ_of_le h)
  | stmts depth scope xs =>
      cases xs with
      | nil => trivial
      | cons x xs =>
          refine .bind (.await (rank_lt_of_kind rfl Nat.one_pos)) fun r => ?_
          cases r with
          | none => exact .await (rank_lt_of_left rfl rfl (Nat.lt_succ_self _))
          | some v => trivial
  | loop n depth scope condition body =>
      cases n with
      | zero => trivial
      | succ n =>
          refine .bind (.await (rank_lt_of_kind rfl Nat.two_pos)) fun v =>
            .bind (.atomic _) fun b => ?_
          cases b with
          | false => trivial
          | true =>
              have hblock : (blockPlan depth scope body).OnlyAsks fun sub =>
                  sub.rank < (loop (n + 1) depth scope condition body).rank := by
                refine blockPlan_onlyAsks (fun inner => ?_) scope
                exact rank_lt_of_kind rfl Nat.one_lt_two
              refine hblock.bind fun r => ?_
              cases r with
              | none => exact .await (rank_lt_of_left rfl rfl (Nat.lt_succ_self _))
              | some v => trivial
  | select depth scope v cases =>
      cases cases with
      | nil => trivial
      | cons c rest =>
          obtain ⟨offset, value, body⟩ := c
          cases value with
          | none => trivial
          | some e =>
              refine .bind (.await (rank_lt_of_kind rfl Nat.one_pos)) fun w =>
                .bind (.atomic _) fun b => ?_
              cases b with
              | false => exact .await (rank_lt_of_left rfl rfl (Nat.lt_succ_self _))
              | true => trivial
  | call depth r values =>
      obtain ⟨signature, body⟩ := r
      cases body with
      | print => exact .bind (.atomic _) fun text => .bind (.atomic _) fun _ => .pure _
      | block parameters statements home =>
          exact .bind (.atomic _) fun scope => .bind (.atomic _) fun _ =>
            .bind (.await (rank_lt_of_kind rfl Nat.one_lt_two)) fun r => .pure _
  | globals depth gs =>
      cases gs with
      | nil => trivial
      | cons g rest =>
          obtain ⟨offset, name, typeName, mutable, value, slot⟩ := g
          have hrest : (initAll depth rest).OnlyAsks fun sub =>
              sub.rank < (globals depth (⟨offset, name, typeName, mutable, value, slot⟩ :: rest)).rank :=
            .await (rank_lt_of_left rfl rfl (Nat.lt_succ_self _))
          cases slot with
          | none => trivial
          | some slot =>
              cases value with
              | none => exact .bind (.atomic _) fun _ => hrest
              | some e =>
                  exact .bind (.await (rank_lt_of_kind rfl (Nat.succ_pos 2))) fun v =>
                    .bind (.atomic _) fun _ => hrest
  | program depth p =>
      refine .bind (.await ?_) fun _ => .bind (.atomic _) fun _ => .bind (.atomic _)
        fun r => .await ?_
      · exact rank_lt_of_kind rfl (show 3 < 4 by decide)
      · exact rank_lt_of_kind rfl (show 2 < 4 by decide)

variable (rounds : Nat)

/-- The run from the first point and store comes to the second point in the second store. -/
inductive Reaches (start : Point) (s : Store) : Point → Store → Prop
  | refl : Reaches start s start s
  | step {pt sub : Point} {t u : Store} :
      Reaches start s pt t → (pt.plan rounds).Asks (run rounds) t sub u → Reaches start s sub u

/-- The store is there at some time of the run. -/
def Visits (start : Point) (s t : Store) : Prop :=
  ∃ pt u, Reaches rounds start s pt u ∧ (pt.plan rounds).Passes (run rounds) u t

theorem visits_end (start : Point) (s : Store) : Visits rounds start s (start.run rounds s).2 := by
  refine ⟨start, s, .refl, ?_⟩
  rw [congrFun (run_eq_follow rounds start) s]
  exact passes_end _ s

end Point

namespace Contract

open Point

variable {rounds : Nat} {ι : Type} {C : Contract ι} {fact : Point → Store → Prop}

/-- The plans of all points meet the contract, where a fact about the points may be used that the
points they ask for share. -/
structure Kept (rounds : Nat) (C : Contract ι) (fact : Point → Store → Prop) : Prop where
  closed : ∀ {pt sub : Point} {s t : Store}, fact pt s →
    (pt.plan rounds).Asks (run rounds) s sub t → fact sub t
  meets : ∀ {i : ι} {pt : Point} {s : Store}, fact pt s → C.inv s → C.pre i pt s →
    (pt.plan rounds).Meets (run rounds) (C.given fact) (C.post i pt s) s

theorem Kept.followed (h : C.Kept rounds fact) {i : ι} {pt : Point} {s : Store} (hfact : fact pt s)
    (hinv : C.inv s) (hpre : C.pre i pt s) :
    C.Ends (C.post i pt s) (pt.run rounds s) ∧
      (∀ sub t, (pt.plan rounds).Asks (run rounds) s sub t → C.inv t ∧ ∃ i, C.pre i sub t) ∧
      ∀ t, (pt.plan rounds).Passes (run rounds) s t → C.inv t := by
  induction hrank : pt.rank using WellFoundedLT.induction generalizing i pt s with
  | ind rank ih =>
      subst hrank
      have hmeets := (h.meets hfact hinv hpre).of_fact fun sub t => h.closed hfact
      rw [congrFun (run_eq_follow rounds pt) s]
      -- All points that the plan asks for are lower, whatever the answers to earlier ones are.
      refine hmeets.followed hinv fun sub t hasks hinv' i' hpre' => ?_
      exact (ih sub.rank ((plan_onlyAsks rounds pt).asks hasks) (h.closed hfact hasks) hinv' hpre'
        rfl).1

theorem Kept.reaches (h : C.Kept rounds fact) {start pt : Point} {s t : Store} {i : ι}
    (hfact : fact start s) (hinv : C.inv s) (hpre : C.pre i start s)
    (hreach : Reaches rounds start s pt t) : fact pt t ∧ C.inv t ∧ ∃ j, C.pre j pt t := by
  induction hreach with
  | refl => exact ⟨hfact, hinv, i, hpre⟩
  | step _ hasks ih =>
      obtain ⟨hfact', hinv', j, hpre'⟩ := ih
      exact ⟨h.closed hfact' hasks, (h.followed hfact' hinv' hpre').2.1 _ _ hasks⟩

end Contract

end PlcLang
