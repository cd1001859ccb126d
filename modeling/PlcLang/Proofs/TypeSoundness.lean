import PlcLang.Proofs.Conformance
import PlcLang.Proofs.RunNodes

namespace PlcLang

open Point

/-- What the point gives is of the type that the expression or the function there has. -/
def Point.ResultHolds : (pt : Point) → pt.Result → Store → Prop
  | expr _ _ e, v, t => ∃ T, e.info.type = some T ∧ t.heap.Holds T v
  | call _ r _, v, t => t.heap.Holds r.signature.returns v
  | program .., v, t => t.heap.Holds .integer v
  | _, _, _ => True

/-- Where the names Any and Comparable are not written, no variable is of these types. -/
theorem Point.Known.not_breaks {pt : Point} {s : Store} (h : pt.Known Ty.Concrete s) {rounds : Nat}
    {made : Nat → Ty → Prop} : ¬ pt.Breaks rounds made s := by
  intro hbreaks
  cases hbreaks with
  | mk hslot _ _ _ _ _ _ _ _ =>
      obtain ⟨Γ, Δ, returns, _, hx⟩ := h.checked
      cases hx with
      | elementAssignment hreceiver _ _ _ =>
          obtain ⟨_, b, _, ⟨v, hv, _, _, rfl⟩, hconcrete⟩ := hreceiver.element_parts
          cases hv
          exact hslot hconcrete

theorem Point.Gives.resultHolds {pt : Point} {s t : Store} {r : pt.Result} {types : List Ty}
    (h : pt.Gives Ty.Concrete types r) (hknown : pt.Known Ty.Concrete s)
    {made : Nat → Ty → Prop} (ht : t.Agrees Ty.Concrete made types) : pt.ResultHolds r t := by
  cases pt with
  | expr depth scope e =>
      obtain ⟨Γ, T, _, he⟩ := hknown.checked
      obtain ⟨hslot, hT⟩ := he.slot_eq
      exact ⟨T, hslot, ht.holds hT (h T hslot)⟩
  | call depth routine values =>
      have hreturns : routine.signature.returns.Concrete := by
        obtain rfl | ⟨_, _, _, _, _, _, _, hreturns⟩ := hknown.checked.1
        · exact ⟨nofun, nofun⟩
        · exact hreturns
      exact ht.holds hreturns h
  | program depth p =>
      have hinteger : Ty.integer.Concrete := ⟨nofun, nofun⟩
      exact ht.holds hinteger h
  | _ => trivial

namespace Program

variable {p q : Program}

theorem typed_of_names {depth : Nat} (h : p.checkWithin depth = .ok q) (hany : "Any" ∉ p.typeNames)
    (hcomparable : "Comparable" ∉ p.typeNames) : q.Typed (.filled Ty.Concrete) := by
  refine (checkWithin_sound (fun _ => id) (fun T hT => ⟨?_, ?_⟩) h).2
  · rintro rfl
    exact hany hT
  · rintro rfl
    exact hcomparable hT

theorem not_breaking_of_typed (hq : q.Typed (.filled Ty.Concrete)) (l : Limits) :
    ¬ Breaking l.rounds (q.Breaks l) (program l.depth q) Store.initial :=
  fun ⟨_, _, hreach, hbreaks⟩ => (known_of_reaches hq hreach).not_breaks hbreaks

/-- In every run of a checked program in which the names Any and Comparable are not written, each
expression and each call gives a value of its type, and each variable holds a value of its type in
every store of the run. -/
theorem values_have_types {depth : Nat} (h : p.checkWithin depth = .ok q)
    (hany : "Any" ∉ p.typeNames) (hcomparable : "Comparable" ∉ p.typeNames) (l : Limits) :
    (∀ pt s r t, Reaches l.rounds (program l.depth q) Store.initial pt s →
      pt.run l.rounds s = (.ok r, t) → pt.ResultHolds r t) ∧
    (∀ t, Visits l.rounds (program l.depth q) Store.initial t → ∀ scope name cell,
      t.cell? scope name = some cell → t.heap.Holds cell.type cell.value) ∧
    ∀ v t, (q.main l).run Store.initial = (.ok v, t) → t.heap.Holds .integer v := by
  have hq := typed_of_names h hany hcomparable
  have hwhole := not_breaking_of_typed hq l
  have hresult (pt : Point) (s : Store) (r : pt.Result) (t : Store)
      (hreach : Reaches l.rounds (program l.depth q) Store.initial pt s)
      (hrun : pt.run l.rounds s = (.ok r, t)) : pt.ResultHolds r t := by
    have hpoint : ¬ Breaking l.rounds (q.Breaks l) pt s := fun h => hwhole (.of_reaches hreach h)
    obtain ⟨types, ht, hr⟩ := gives_of_reachesBefore hq (hreach.before hwhole) hpoint hrun
    exact hr.resultHolds (known_of_reaches hq hreach) ht
  refine ⟨hresult, fun t hvisits scope name cell hcell => ?_, fun v t hrun => ?_⟩
  · obtain ⟨types, ht⟩ := agrees_of_visitsBefore hq (hvisits.before hwhole)
    obtain ⟨hconcrete, hconforms⟩ := ht.cells scope name cell hcell
    exact ht.holds hconcrete hconforms
  · exact hresult (program l.depth q) _ v t .refl hrun

def adderEnd : Except Stop Value × Store := (adderChecked.main .standard).run Store.initial

theorem adder_values_have_types : adder.check = .ok adderChecked ∧ "Any" ∉ adder.typeNames ∧
    "Comparable" ∉ adder.typeNames ∧
    (∃ v t, adderEnd = (.ok v, t) ∧ t.heap.Holds .integer v) ∧
    ∃ cell, adderEnd.2.cell? Store.root "total" = some cell ∧
      adderEnd.2.heap.Holds cell.type cell.value := by
  have hany : "Any" ∉ adder.typeNames := by decide
  have hcomparable : "Comparable" ∉ adder.typeNames := by decide
  obtain ⟨_, hcells, hmain⟩ := values_have_types adder_check hany hcomparable .standard
  refine ⟨adder_check, hany, hcomparable, ?_, ?_⟩
  · have hok : adderEnd.1.isOk = true := by decide +kernel
    cases hend : adderEnd with
    | mk r t =>
        rw [hend] at hok
        cases r with
        | ok v => exact ⟨v, t, rfl, hmain v t hend⟩
        | error why => cases hok
  · have hsome : (adderEnd.2.cell? Store.root "total").isSome = true := by decide +kernel
    obtain ⟨cell, hcell⟩ := Option.isSome_iff_exists.mp hsome
    exact ⟨cell, hcell, hcells adderEnd.2 (visits_end _ _ _) Store.root "total" cell hcell⟩

/-- An assignment to an element may be made through a variable of the type Any, whatever other
variables the list has. -/
def aliases : Program where
  globals := [⟨0, "x", "Integer", true, some (.list ⟨0, none⟩ [.literal ⟨0, none⟩ (.integer 1),
    .literal ⟨0, none⟩ (.integer 2)]), none⟩]
  functions := [⟨0, "main", [], [], some "Integer", [
    .declaration 0 "a" (some "Any") (some (.access ⟨0, none⟩ "x" none)) none,
    .assignment 0 (.element ⟨0, none⟩ "a" (.literal ⟨0, none⟩ (.integer 0)) none)
      (.literal ⟨0, none⟩ (.string "s")),
    .expression 0 (.call ⟨0, none⟩ "print" [.access ⟨0, none⟩ "x" none] none),
    .ret 0 (some (.literal ⟨0, none⟩ (.integer 0)))], none⟩]

def aliasesChecked : Program :=
  let x : Variable := ⟨0, "x", "x", .integer, true⟩
  let a : Variable := ⟨1, "a", "a", .any, true⟩
  let number (n : Int) : Expr := .literal ⟨0, some .integer⟩ (.integer n)
  { globals := [⟨0, "x", "Integer", true, some (.list ⟨0, some .integer⟩ [number 1, number 2]), some x⟩]
    functions := [⟨0, "main", [], [], some "Integer", [
      .declaration 0 "a" (some "Any") (some (.access ⟨0, some .integer⟩ "x" (some x))) (some a),
      .assignment 0 (.element ⟨0, some .any⟩ "a" (number 0) (some a))
        (.literal ⟨0, some .string⟩ (.string "s")),
      .expression 0 (.call ⟨0, some .nil⟩ "print" [.access ⟨0, some .integer⟩ "x" (some x)]
        (some .print)),
      .ret 0 (some (number 0))], some ⟨"main", "main", [], .integer⟩⟩] }

/-- At the end of the run of this program, a list with a string is the value of a variable of the
type Integer. -/
theorem aliases_break_types : ∃ q t cell, aliases.check = .ok q ∧
    Visits Limits.standard.rounds (program Limits.standard.depth q) Store.initial t ∧
    t.cell? Store.root "x" = some cell ∧ cell.type = .integer ∧ cell.value = .list 0 ∧
    ¬ t.heap.Holds cell.type cell.value := by
  refine ⟨aliasesChecked, _, ⟨.integer, true, .list 0⟩, rfl, visits_end _ _ _, rfl, rfl, rfl, ?_⟩
  intro hholds
  have helements : (((program Limits.standard.depth aliasesChecked).run Limits.standard.rounds
      Store.initial).2.heap.elements 0) = #[.string "s", .integer 2] := rfl
  have hfits := hholds (.string "s") (.element .self (helements ▸ by simp))
  simp [Value.Fits, Value.typeName, Ty.name] at hfits

/-- In every run of a checked program, the lists that variables of a scalar type hold keep to these
types, through whatever variable they are written to, until a value of another type is assigned to
an element of a list through a variable of the type Any or Comparable. -/
theorem lists_keep_types {depth : Nat} (h : p.checkWithin depth = .ok q) {l : Limits} {t : Store}
    (hvisits : VisitsBefore l.rounds (q.Breaks l) (program l.depth q) Store.initial t) {scope : Nat}
    {name : String} {cell : Cell} (hcell : t.cell? scope name = some cell)
    (htype : cell.type.Concrete) : t.heap.Holds cell.type cell.value := by
  obtain ⟨_, hq⟩ := checkWithin_sound (fun _ _ => trivial) (fun _ _ => trivial) h
  obtain ⟨types, ht⟩ := agrees_of_visitsBefore hq hvisits
  exact ht.holds htype (ht.cells scope name cell hcell).2

/-- A list of numbers that a variable of the type Integer and one of the type Any share is written
to through both. -/
def sharing : Program where
  globals := [⟨0, "x", "Integer", true, some (.list ⟨0, none⟩ [.literal ⟨0, none⟩ (.integer 1),
    .literal ⟨0, none⟩ (.integer 2)]), none⟩]
  functions := [⟨0, "main", [], [], some "Integer", [
    .declaration 0 "a" (some "Any") (some (.access ⟨0, none⟩ "x" none)) none,
    .assignment 0 (.element ⟨0, none⟩ "x" (.literal ⟨0, none⟩ (.integer 0)) none)
      (.literal ⟨0, none⟩ (.integer 3)),
    .assignment 0 (.element ⟨0, none⟩ "a" (.literal ⟨0, none⟩ (.integer 1)) none)
      (.literal ⟨0, none⟩ (.integer 7)),
    .ret 0 (some (.literal ⟨0, none⟩ (.integer 0)))], none⟩]

def sharingChecked : Program :=
  let x : Variable := ⟨0, "x", "x", .integer, true⟩
  let a : Variable := ⟨1, "a", "a", .any, true⟩
  let number (n : Int) : Expr := .literal ⟨0, some .integer⟩ (.integer n)
  { globals := [⟨0, "x", "Integer", true, some (.list ⟨0, some .integer⟩ [number 1, number 2]), some x⟩]
    functions := [⟨0, "main", [], [], some "Integer", [
      .declaration 0 "a" (some "Any") (some (.access ⟨0, some .integer⟩ "x" (some x))) (some a),
      .assignment 0 (.element ⟨0, some .integer⟩ "x" (number 0) (some x)) (number 3),
      .assignment 0 (.element ⟨0, some .any⟩ "a" (number 1) (some a)) (number 7),
      .ret 0 (some (number 0))], some ⟨"main", "main", [], .integer⟩⟩] }

theorem sharing_check : sharing.check = .ok sharingChecked := rfl

def sharingExprs : List Expr :=
  let x : Variable := ⟨0, "x", "x", .integer, true⟩
  let a : Variable := ⟨1, "a", "a", .any, true⟩
  let number (n : Int) : Expr := .literal ⟨0, some .integer⟩ (.integer n)
  [.list ⟨0, some .integer⟩ [number 1, number 2], .access ⟨0, some .integer⟩ "x" (some x),
    .element ⟨0, some .integer⟩ "x" (number 0) (some x),
    .element ⟨0, some .any⟩ "a" (number 1) (some a), number 0, number 1, number 2, number 3, number 7]

def sharingNodes : List Node :=
  sharingChecked.nodes ++ (sharingChecked.functions.flatMap Function.body).map .stmt ++
    sharingExprs.map .expr

theorem mem_sharingNodes {n : Node} (h : sharingChecked.Contains n) : n ∈ sharingNodes := by
  refine h.induction (fun n hn => List.mem_append_left _ (List.mem_append_left _ hn)) ?_
  simp [sharingExprs, sharingChecked, nodes, Node.children, Stmt.children, Expr.children]

theorem sharing_list {info : Info} {es : List Expr}
    (h : sharingChecked.Contains (.expr (.list info es))) : info.type = some .integer := by
  have hall : ∀ n ∈ sharingNodes, ∀ info es, n = .expr (.list info es) →
      info.type = some .integer := by
    simp [sharingNodes, sharingExprs, sharingChecked, nodes]
  exact hall _ (mem_sharingNodes h) info es rfl

theorem sharing_assignment {offset : Nat} {info : Info} {name : String} {index value : Expr}
    {slot : Variable} (h : sharingChecked.Contains
      (.stmt (.assignment offset (.element info name index (some slot)) value))) :
    slot.type = .integer ∨ value = .literal ⟨0, some .integer⟩ (.integer 7) := by
  have hall : ∀ n ∈ sharingNodes, ∀ offset info name index slot value,
      n = .stmt (.assignment offset (.element info name index (some slot)) value) →
      slot.type = .integer ∨ value = .literal ⟨0, some .integer⟩ (.integer 7) := by
    simp [sharingNodes, sharingExprs, sharingChecked, nodes]
    constructor
    · rintro _ _ _ _ _ _ - - - - rfl -
      exact .inl rfl
    · rintro _ _ _ _ _ _ - - - - - rfl
      exact .inr rfl
  exact hall _ (mem_sharingNodes h) offset info name index slot value rfl

/-- Nothing but numbers is assigned to elements in this program. -/
theorem sharing_not_breaking (l : Limits) :
    ¬ Breaking l.rounds (sharingChecked.Breaks l) (program l.depth sharingChecked)
      Store.initial := by
  rintro ⟨pt, s, hreach, hbreaks⟩
  cases hbreaks with
  | @mk _ _ _ depth _ _ _ _ _ _ _ _ _ _ _ _ T hslot _ _ _ _ hvalue hmade _ hforeign =>
      obtain ⟨pt', s', hreach', hmakes⟩ := hmade
      have hinteger : T = .integer := by
        cases hmakes with
        | mk _ htype =>
            rw [sharing_list (traced_of_reaches hreach').1] at htype
            exact (Option.some.inj htype).symm
      subst hinteger
      obtain hslotType | rfl := sharing_assignment (traced_of_reaches hreach).1
      · rw [hslotType] at hslot
        exact hslot ⟨by decide, by decide⟩
      · cases depth with
        | zero => cases hvalue
        | succ depth =>
            cases hvalue
            exact hforeign rfl

def sharingEnd : Store := ((sharingChecked.main .standard).run Store.initial).2

theorem sharing_keeps_types : sharing.check = .ok sharingChecked ∧
    VisitsBefore Limits.standard.rounds (sharingChecked.Breaks .standard)
      (program Limits.standard.depth sharingChecked) Store.initial sharingEnd ∧
    sharingEnd.cell? Store.root "x" = some ⟨.integer, true, .list 0⟩ ∧
    sharingEnd.cell? 1 "a" = some ⟨.any, true, .list 0⟩ ∧
    sharingEnd.heap.elements 0 = #[.integer 3, .integer 7] ∧
    sharingEnd.heap.Holds .integer (.list 0) := by
  have hvisits : VisitsBefore Limits.standard.rounds (sharingChecked.Breaks .standard)
      (program Limits.standard.depth sharingChecked) Store.initial sharingEnd :=
    (visits_end _ _ _).before (sharing_not_breaking .standard)
  have hcell : sharingEnd.cell? Store.root "x" = some ⟨.integer, true, .list 0⟩ := rfl
  exact ⟨sharing_check, hvisits, hcell, rfl, rfl,
    lists_keep_types sharing_check hvisits hcell ⟨nofun, nofun⟩⟩

end Program

end PlcLang
