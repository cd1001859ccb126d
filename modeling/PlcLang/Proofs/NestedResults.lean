import PlcLang.Proofs.Rendering
import PlcLang.Proofs.RunFunctions

namespace PlcLang

namespace Heap

variable {h : Heap}

/-- The first list has a number in it, and each of the others the list before it. -/
structure Chain (n : Nat) (h : Heap) : Prop where
  size : h.lists.size = n + 1
  first : h.elements 0 = #[.integer 1]
  next : ∀ k < n, h.elements (k + 1) = #[.list k]

theorem Chain.nested {n : Nat} (hc : h.Chain n) {k m : Nat} (hk : k ≤ n) (hm : m ≤ k + 1) :
    h.Nested m (.list k) := by
  induction k generalizing m with
  | zero =>
      cases m with
      | zero => trivial
      | succ m =>
          obtain rfl : m = 0 := by omega
          refine ⟨0, rfl, .integer 1, ?_, trivial⟩
          rw [hc.first]
          exact Array.mem_singleton_self _
  | succ k ih =>
      cases m with
      | zero => trivial
      | succ m =>
          refine ⟨k + 1, rfl, .list k, ?_, ih (Nat.le_of_succ_le hk) (Nat.le_of_succ_le_succ hm)⟩
          rw [hc.next k hk]
          exact Array.mem_singleton_self _

theorem elements_alloc (h : Heap) (vs : Array Value) (a : Nat) :
    (h.alloc vs).2.elements a = if a = h.lists.size then vs else h.elements a := by
  simp only [Heap.alloc, elements, get?, Array.getElem?_push]
  split <;> rfl

theorem Chain.alloc {n : Nat} (hc : h.Chain n) : (h.alloc #[.list n]).2.Chain (n + 1) where
  size := by
    rw [Heap.alloc, Array.size_push, hc.size]
  first := by
    rw [elements_alloc, hc.size, if_neg (by omega), hc.first]
  next k hk := by
    rw [elements_alloc, hc.size]
    split
    · next heq =>
        cases heq
        rfl
    · exact hc.next k (by omega)

end Heap

namespace Run

variable {s t : Store} {scope : Nat} {name : String}

end Run

namespace Nesting

open Run

variable {s t : Store} {rounds depth scope k n : Nat}

def listVariable : Variable := ⟨0, "x", "x", .integer, true⟩

def countVariable : Variable := ⟨1, "i", "i", .integer, true⟩

def read (offset : Nat) (v : Variable) : Expr :=
  .access ⟨offset, some .integer⟩ v.name (some v)

def number (offset n : Nat) : Expr := .literal ⟨offset, some .integer⟩ (.integer n)

def condition (n : Nat) : Expr :=
  .binary ⟨49, some .boolean⟩ .lt (read 49 countVariable) (number 51 n)

def wrap : Stmt :=
  .assignment 58 (read 58 listVariable) (.list ⟨60, some .integer⟩ [read 61 listVariable])

def increment : Stmt :=
  .assignment 65 (read 65 countVariable)
    (.binary ⟨67, some .integer⟩ .add (read 67 countVariable) (number 69 1))

def body (n : Nat) : List Stmt :=
  [.declaration 23 "x" none (some (.list ⟨29, some .integer⟩ [number 30 1])) (some listVariable),
    .declaration 34 "i" none (some (number 40 0)) (some countVariable),
    .whileDo 43 (condition n) [wrap, increment],
    .ret 76 (some (read 83 listVariable))]

def signature : Signature := ⟨"main", "main", [], .integer⟩

/-- `FUN main(): Integer DO LET x=[1]; LET i=0; WHILE i<n DO x=[x]; i=i+1; END RETURN x; END` -/
def program (n : Nat) : Program :=
  ⟨[], [⟨0, "main", [], [], some "Integer", body n, some signature⟩]⟩

structure Nests (k : Nat) (s : Store) : Prop where
  ordered : s.Ordered
  size : 1 < s.size
  list : s.cell? 1 "x" = some ⟨.integer, true, .list k⟩
  count : s.cell? 1 "i" = some ⟨.integer, true, .integer k⟩
  chain : s.heap.Chain k

/-- The scope is that of main, or an empty one in it. -/
def InMain (s : Store) (scope : Nat) : Prop :=
  scope = 1 ∨ s.parent? scope = some 1 ∧ ∀ name, s.cell? scope name = none

theorem InMain.found {name : String} {cell : Cell} (h : InMain s scope) (hs : s.Ordered)
    (hcell : s.cell? 1 name = some cell) : s.scopes.findVariable? scope name = some (1, cell) := by
  have hmain : s.scopes.findVariable? 1 name = some (1, cell) := by
    rw [Store.findVariable?_eq hs, hcell]
    rfl
  obtain rfl | ⟨hparent, hnone⟩ := h
  · exact hmain
  · rw [Store.findVariable?_eq hs, hnone, hparent]
    exact hmain

theorem Nests.opened (h : Nests k s) : Nests k (s.opened 1) where
  ordered := h.ordered.opened h.size
  size := by
    rw [Store.size_opened]
    exact Nat.lt_succ_of_lt h.size
  list := (Store.cell?_opened s 1 1 "x").trans h.list
  count := (Store.cell?_opened s 1 1 "i").trans h.count
  chain := h.chain

theorem InMain.define (h : InMain s scope) (name : String) (cell : Cell) :
    InMain (s.define 1 name cell) scope := by
  by_cases hmain : scope = 1
  · exact .inl hmain
  · obtain ⟨hparent, hnone⟩ := h.resolve_left hmain
    refine .inr ⟨(Store.parent?_define s 1 name cell scope).trans hparent, fun n => ?_⟩
    rw [Store.cell?_define_of_ne s 1 name cell (Ne.symm hmain), hnone]

def called (n : Nat) : Store :=
  (Store.initial.defineRoutine 0 ⟨signature, .block [] (body n) 0⟩).opened 0

def start (n : Nat) : Store :=
  (((called n).alloc [.integer 1]).define 1 "x" ⟨.integer, true, .list 0⟩).define 1 "i"
    ⟨.integer, true, .integer 0⟩

end Nesting

end PlcLang
