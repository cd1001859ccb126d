import PlcLang.Proofs.Persistence
import PlcLang.Proofs.ScopeFrame

namespace PlcLang

open Point
open Relation (ReflTransGen)

/-- The frame law for the run of a program: what is left as it is by the expressions, the statements
and the single steps of the run. -/
structure Program.RunsFramed (q : Program) (l : Limits) : Prop where
  /-- An expression gives no scope a variable and changes values of the outermost scope only. -/
  evaluated : ∀ depth scope e s t,
    Reaches l.rounds (program l.depth q) Store.initial (expr depth scope e) s →
    Visits l.rounds (expr depth scope e) s t →
    s.Extends (fun _ => True) t ∧ s.Persists t ∧
      ∀ i < s.size, i ≠ Store.root → t.cell? i = s.cell? i
  /-- A statement gives no scope but its own a variable, and its own only what it declares. -/
  executed : ∀ depth scope x s t,
    Reaches l.rounds (program l.depth q) Store.initial (stmt depth scope x) s →
    Visits l.rounds (stmt depth scope x) s t →
    s.Extends (· ≠ scope) t ∧ (t.binding? scope = s.binding? scope ∨
      t.binding? scope = x.declare (s.binding? scope))
  /-- A statement that comes to its end has declared what it declares. -/
  declared : ∀ depth scope x s r t,
    Reaches l.rounds (program l.depth q) Store.initial (stmt depth scope x) s →
    x.exec l.rounds depth scope s = (.ok r, t) →
    t.binding? scope = x.declare (s.binding? scope)
  /-- What is declared is new in its scope. -/
  names : ∀ pt s, Reaches l.rounds (program l.depth q) Store.initial pt s → pt.NamesNew s
  step : ∀ s t, Steps l.rounds (program l.depth q) Store.initial s t → s.Persists t
  /-- There are no other stores in the run than those that its steps lead to. -/
  leads : ∀ t, Visits l.rounds (program l.depth q) Store.initial t →
    ReflTransGen (Steps l.rounds (program l.depth q) Store.initial) Store.initial t

namespace Program

variable {p q : Program}

/-- Every run of a checked program keeps to the frame law. -/
theorem runs_framed {depth : Nat} (h : p.checkWithin depth = .ok q) (l : Limits) :
    q.RunsFramed l := by
  have hq : q.Typed (.filled fun _ => True) :=
    (checkWithin_sound (fun _ _ => trivial) (fun _ _ => trivial) h).2
  have hready {pt : Point} {s : Store}
      (hreach : Reaches l.rounds (program l.depth q) Store.initial pt s) : pt.Ready s :=
    hreach.ready (initial_ready l.depth q)
  exact {
    evaluated := fun depth scope e s t hreach hvisits => by
      obtain ⟨hextends, hcells⟩ := (hready hreach).expr_frame hvisits
      exact ⟨hextends, persists_of_visits hq hreach hvisits, hcells⟩
    executed := fun depth scope x s t hreach => (hready hreach).stmt_frame
    declared := fun depth scope x s r t hreach hrun => ((hready hreach).framed hrun).2.2
    names := fun pt s => namesNew_of_reaches hq
    step := fun s t => persists_of_step hq
    leads := fun t => Visits.leads }

/-- The call in main of `adder`, and the stores before and after it. -/
def adderCall : Expr :=
  let ns : Variable := ⟨2, "ns", "ns", .integer, true⟩
  .call ⟨0, some .integer⟩ "add"
    [.element ⟨0, some .integer⟩ "ns" (.literal ⟨0, some .integer⟩ (.integer 1)) (some ns)]
    (some ⟨"add", "add", [.integer], .integer⟩)

def adderBefore : Store :=
  let ns : Expr := .list ⟨0, some .integer⟩ [.literal ⟨0, some .integer⟩ (.integer 3),
    .literal ⟨0, some .integer⟩ (.integer 4)]
  let globals := (initGlobals ⟨9, 9⟩ adderChecked.globals Store.initial).2
  let functions := (addFunctions Store.root adderChecked.functions globals).2
  ((Stmt.declaration 0 "ns" none (some ns) (some ⟨2, "ns", "ns", .integer, true⟩)).exec 9 9 1
    (functions.opened Store.root)).2

def adderAfter : Store := (adderCall.eval 9 8 1 adderBefore).2

theorem adder_call_framed : adder.check = .ok adderChecked ∧
    Reaches 9 (program 9 adderChecked) Store.initial (expr 8 1 adderCall) adderBefore ∧
    adderBefore.cell? Store.root "total" = some ⟨.integer, true, .integer 2⟩ ∧
    adderAfter.cell? Store.root "total" = some ⟨.integer, true, .integer 6⟩ ∧
    adderAfter.binding? Store.root = adderBefore.binding? Store.root ∧
    adderAfter.cell? 1 = adderBefore.cell? 1 := by
  have hstart : Reaches 9 (program 9 adderChecked) Store.initial _ _ := .refl
  have hmain := hstart.step (Or.inr ⟨(), _, rfl, Or.inl ⟨rfl, rfl⟩⟩)
  have hrest := (hmain.step (Or.inl ⟨rfl, rfl⟩)).step (Or.inr ⟨none, _, rfl, Or.inl ⟨rfl, rfl⟩⟩)
  have hassignment := hrest.step (Or.inl ⟨rfl, rfl⟩)
  have hreach : Reaches 9 (program 9 adderChecked) Store.initial (expr 8 1 adderCall) adderBefore :=
    hassignment.step (Or.inr ⟨.integer 0, _, rfl, Or.inl ⟨rfl, rfl⟩⟩)
  obtain ⟨hextends, _, hcells⟩ := (runs_framed adder_check ⟨9, 9⟩).evaluated 8 1 adderCall
    adderBefore adderAfter hreach (visits_end 9 _ _)
  have hsize : 1 < adderBefore.size := by decide
  refine ⟨adder_check, hreach, rfl, rfl, ?_, hcells 1 hsize (by decide)⟩
  exact hextends.binding Store.root (Nat.lt_trans Nat.one_pos hsize) trivial

end Program

end PlcLang
