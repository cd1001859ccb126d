import PlcLang.Proofs.Relabeling
import PlcLang.Tree

namespace PlcLang

inductive Node
  | expr (e : Expr)
  | stmt (x : Stmt)
  | branch (c : Case)
  | global (g : Global)
  | function (f : Function)

def Expr.children : Expr → List Expr
  | .group _ inner => [inner]
  | .binary _ _ left right => [left, right]
  | .element _ _ index _ => [index]
  | .call _ _ arguments _ => arguments
  | .list _ elements => elements
  | _ => []

def Stmt.children : Stmt → List Node
  | .expression _ value => [.expr value]
  | .declaration _ _ _ value _ => value.toList.map .expr
  | .assignment _ receiver value => [.expr receiver, .expr value]
  | .ifElse _ condition thenBody elseBody =>
    .expr condition :: (thenBody.map .stmt ++ elseBody.map .stmt)
  | .switch _ condition cases => .expr condition :: cases.map .branch
  | .whileDo _ condition body => .expr condition :: body.map .stmt
  | .ret _ value => value.toList.map .expr
  | .unknown _ _ => []

def Stmt.offset : Stmt → Nat
  | .expression offset _ | .declaration offset _ _ _ _ | .assignment offset _ _
  | .ifElse offset _ _ _ | .switch offset _ _ | .whileDo offset _ _ | .ret offset _ => offset
  | .unknown start _ => start.getD 0

def Case.offset : Case → Nat
  | .mk offset _ _ => offset

namespace Node

def children : Node → List Node
  | expr e => e.children.map expr
  | stmt x => x.children
  | branch c => c.value.toList.map expr ++ c.body.map stmt
  | global g => g.value.toList.map expr
  | function f => f.body.map stmt

def offset : Node → Nat
  | expr e => e.offset
  | stmt x => x.offset
  | branch c => c.offset
  | global g => g.offset
  | function f => f.offset

inductive Has : Node → Node → Prop
  | refl {n : Node} : Has n n
  | child {n m x : Node} : m ∈ n.children → Has m x → Has n x

theorem Has.trans {n m x : Node} (h : n.Has m) (h' : m.Has x) : n.Has x := by
  induction h with
  | refl => exact h'
  | child hm _ ih => exact .child hm (ih h')

end Node

namespace Program

def nodes (p : Program) : List Node := p.globals.map .global ++ p.functions.map .function

def Contains (p : Program) (n : Node) : Prop := ∃ root ∈ p.nodes, root.Has n

theorem Contains.below {p : Program} {n m : Node} (h : p.Contains n) (h' : n.Has m) :
    p.Contains m :=
  h.imp fun _ hroot => ⟨hroot.1, hroot.2.trans h'⟩

theorem Contains.child {p : Program} {n m : Node} (h : p.Contains n) (hm : m ∈ n.children) :
    p.Contains m :=
  h.below (.child hm .refl)

/-- What the outermost nodes have and each node passes to those right below it, all nodes have. -/
theorem Contains.induction {p : Program} {P : Node → Prop} (hroot : ∀ n ∈ p.nodes, P n)
    (hchild : ∀ n, P n → ∀ m ∈ n.children, P m) {n : Node} (h : p.Contains n) : P n := by
  obtain ⟨root, hmem, hhas⟩ := h
  have hP := hroot root hmem
  clear hmem
  induction hhas with
  | refl => exact hP
  | child hm _ ih => exact ih (hchild _ hP _ hm)

theorem Contains.global {p : Program} {g : Global} (h : p.Contains (.global g)) :
    g ∈ p.globals := by
  have hchild (n m : Node) (hm : m ∈ n.children) (g : Global) : m ≠ .global g := by
    rintro rfl
    cases n with
    | stmt x => cases x <;> simp [Node.children, Stmt.children] at hm
    | _ => simp [Node.children] at hm
  refine h.induction (P := fun n => ∀ g, n = .global g → g ∈ p.globals) ?_ ?_ g rfl
  · rintro _ hn g rfl
    obtain ⟨g', hg', heq⟩ | ⟨f, _, heq⟩ := (List.mem_append.mp hn).imp List.mem_map.mp List.mem_map.mp
    · cases heq
      exact hg'
    · cases heq
  · exact fun n _ m hm g hg => absurd hg (hchild n m hm g)

end Program

def Info.erase (info : Info) : Info := { info with type := none }

mutual

def Expr.erase : Expr → Expr
  | .literal info value => .literal info.erase value
  | .group info inner => .group info.erase inner.erase
  | .binary info op left right => .binary info.erase op left.erase right.erase
  | .access info name _ => .access info.erase name none
  | .element info name index _ => .element info.erase name index.erase none
  | .call info name arguments _ => .call info.erase name (Expr.eraseEach arguments) none
  | .list info elements => .list info.erase (Expr.eraseEach elements)
  | .unknown start node => .unknown start node

def Expr.eraseEach : List Expr → List Expr
  | [] => []
  | e :: rest => e.erase :: Expr.eraseEach rest

end

mutual

def Stmt.erase : Stmt → Stmt
  | .expression offset value => .expression offset value.erase
  | .declaration offset name typeName value _ =>
    .declaration offset name typeName (value.map Expr.erase) none
  | .assignment offset receiver value => .assignment offset receiver.erase value.erase
  | .ifElse offset condition thenBody elseBody =>
    .ifElse offset condition.erase (Stmt.eraseEach thenBody) (Stmt.eraseEach elseBody)
  | .switch offset condition cases => .switch offset condition.erase (Case.eraseEach cases)
  | .whileDo offset condition body => .whileDo offset condition.erase (Stmt.eraseEach body)
  | .ret offset value => .ret offset (value.map Expr.erase)
  | .unknown start node => .unknown start node

def Stmt.eraseEach : List Stmt → List Stmt
  | [] => []
  | x :: rest => x.erase :: Stmt.eraseEach rest

def Case.erase : Case → Case
  | .mk offset value body => .mk offset (value.map Expr.erase) (Stmt.eraseEach body)

def Case.eraseEach : List Case → List Case
  | [] => []
  | c :: rest => c.erase :: Case.eraseEach rest

end

def Global.erase (g : Global) : Global := { g with value := g.value.map Expr.erase, slot := none }

def Function.erase (f : Function) : Function := { f with body := f.body.map Stmt.erase, slot := none }

/-- The tree without types and symbols, as it is when nothing has been checked yet. -/
def Program.erase (p : Program) : Program :=
  ⟨p.globals.map Global.erase, p.functions.map Function.erase⟩

@[simp]
theorem Expr.eraseEach_eq_map (es : List Expr) : eraseEach es = es.map erase := by
  induction es with
  | nil => rw [eraseEach, List.map_nil]
  | cons e es ih => rw [eraseEach, ih, List.map_cons]

@[simp]
theorem Stmt.eraseEach_eq_map (xs : List Stmt) : eraseEach xs = xs.map erase := by
  induction xs with
  | nil => rw [eraseEach, List.map_nil]
  | cons x xs ih => rw [eraseEach, ih, List.map_cons]

@[simp]
theorem Case.eraseEach_eq_map (cs : List Case) : eraseEach cs = cs.map erase := by
  induction cs with
  | nil => rw [eraseEach, List.map_nil]
  | cons c cs ih => rw [eraseEach, ih, List.map_cons]

namespace Expr

theorem offset_erase (e : Expr) : e.erase.offset = e.offset := by
  cases e <;> simp only [erase] <;> rfl

theorem children_erase (e : Expr) : e.erase.children = e.children.map erase := by
  cases e <;> simp [erase, children]

end Expr

namespace Node

def erase : Node → Node
  | expr e => expr e.erase
  | stmt x => stmt x.erase
  | branch c => branch c.erase
  | global g => global g.erase
  | function f => function f.erase

theorem offset_erase (n : Node) : n.erase.offset = n.offset := by
  cases n with
  | expr e => exact e.offset_erase
  | stmt x => cases x <;> simp only [erase, Stmt.erase] <;> rfl
  | branch c =>
      obtain ⟨offset, value, body⟩ := c
      simp only [erase, Case.erase]
      rfl
  | global g | function f => rfl

theorem children_erase (n : Node) : n.erase.children = n.children.map erase := by
  have hvalue (value : Option Expr) : (value.map Expr.erase).toList.map expr =
      (value.toList.map expr).map erase := by
    cases value <;> rfl
  have hbody (body : List Stmt) : (body.map Stmt.erase).map stmt = (body.map stmt).map erase := by
    rw [List.map_map, List.map_map]
    rfl
  cases n with
  | expr e =>
      rw [erase, children, children, e.children_erase, List.map_map, List.map_map]
      rfl
  | stmt x =>
      cases x with
      | declaration offset name typeName value slot =>
          simp only [erase, Stmt.erase, children, Stmt.children, hvalue]
      | ret offset value => simp only [erase, Stmt.erase, children, Stmt.children, hvalue]
      | ifElse offset condition thenBody elseBody =>
          simp only [erase, Stmt.erase, children, Stmt.children, Stmt.eraseEach_eq_map, hbody,
            List.map_cons, List.map_append]
      | whileDo offset condition body =>
          simp only [erase, Stmt.erase, children, Stmt.children, Stmt.eraseEach_eq_map, hbody,
            List.map_cons]
      | switch offset condition cases =>
          simp only [erase, Stmt.erase, children, Stmt.children, Case.eraseEach_eq_map,
            List.map_cons, List.map_map]
          rfl
      | expression | assignment | unknown =>
          simp only [erase, Stmt.erase, children, Stmt.children, List.map_cons, List.map_nil]
  | branch c =>
      obtain ⟨offset, value, body⟩ := c
      simp only [erase, Case.erase, children, Case.value, Case.body, Stmt.eraseEach_eq_map, hvalue,
        hbody, List.map_append]
  | global g => exact hvalue g.value
  | function f => exact hbody f.body

theorem erase_eq_literal {n : Node} {info : Info} {value : Literal}
    (h : n.erase = (expr (.literal info value)).erase) :
    ∃ info', n = expr (.literal info' value) := by
  cases n with
  | expr e =>
      have he : e.erase = (Expr.literal info value).erase := expr.inj h
      cases e with
      | literal info' value' =>
          simp only [Expr.erase, Expr.literal.injEq] at he
          exact ⟨info', he.2 ▸ rfl⟩
      | _ =>
          simp only [Expr.erase] at he
          cases he
  | _ => cases h

theorem Has.transfer {n n' x : Node} (h : n.Has x) (hsame : n'.erase = n.erase) :
    ∃ x', n'.Has x' ∧ x'.erase = x.erase := by
  induction h generalizing n' with
  | refl => exact ⟨n', .refl, hsame⟩
  | @child n m x hm _ ih =>
      have hmem : m.erase ∈ n'.children.map erase := by
        rw [← children_erase, hsame, children_erase]
        exact List.mem_map_of_mem hm
      obtain ⟨m', hm', herase⟩ := List.mem_map.mp hmem
      obtain ⟨x', hx', hsame'⟩ := ih herase
      exact ⟨x', .child hm' hx', hsame'⟩

end Node

theorem Program.nodes_erase (p : Program) : p.erase.nodes = p.nodes.map Node.erase := by
  simp only [nodes, erase, List.map_append, List.map_map]
  rfl

/-- Programs that are the same but for slots contain nodes that are the same but for slots. -/
theorem Program.Contains.transfer {p q : Program} {n : Node} (h : p.Contains n)
    (hsame : q.erase = p.erase) : ∃ m, q.Contains m ∧ m.erase = n.erase := by
  obtain ⟨root, hroot, hhas⟩ := h
  have hmem : root.erase ∈ q.nodes.map Node.erase := by
    rw [← nodes_erase, hsame, nodes_erase]
    exact List.mem_map_of_mem hroot
  obtain ⟨root', hroot', herase⟩ := List.mem_map.mp hmem
  obtain ⟨m, hm, hsame'⟩ := hhas.transfer herase
  exact ⟨m, ⟨root', hroot', hm⟩, hsame'⟩

end PlcLang
