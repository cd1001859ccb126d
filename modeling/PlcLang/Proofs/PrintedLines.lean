import PlcLang.Proofs.RunValues

namespace PlcLang

open Plan Point
open Relation (ReflTransGen)

theorem Run.Gives.output {α : Type} {m : Run α} {s : Store} {P : α → Prop} {Q : Stop → Prop}
    (h : m.Gives s P Q) : (m s).2.output = s.output := by
  obtain ⟨_, heq, _⟩ | ⟨_, heq, _⟩ := h <;> rw [heq]

def Plan.Mute {α : Type} (rounds : Nat) (plan : Plan α) : Prop :=
  ∀ s, plan.Moves (run rounds) (fun u u' => u'.output = u.output) s

namespace Mute

variable {rounds depth scope : Nat} {α β : Type}

theorem done (a : α) : (Plan.done a).Mute rounds := fun _ => .done a

theorem stop (why : Stop) : (Plan.stop why : Plan α).Mute rounds := fun _ => .stop why

theorem await (pt : Point) : (Plan.await pt).Mute rounds := fun _ => .await pt

theorem atomic {m : Run α} (h : ∀ s, (m s).2.output = s.output) : (Plan.atomic m).Mute rounds :=
  fun s => .atomic (h s)

theorem bind {x : Plan α} {f : α → Plan β} (hx : x.Mute rounds) (hf : ∀ a, (f a).Mute rounds) :
    (x >>= f).Mute rounds :=
  fun s => .bind (hx s) fun a t _ => hf a t

theorem asked {pt : Point} {f : pt.Result → Plan β} (hf : ∀ r, (f r).Mute rounds) :
    (Plan.await pt >>= f).Mute rounds := bind (await pt) hf

theorem acted {m : Run α} {f : α → Plan β} (h : ∀ s, (m s).2.output = s.output)
    (hf : ∀ a, (f a).Mute rounds) : (Plan.atomic m >>= f).Mute rounds := bind (atomic h) hf

theorem decided {e : Expr} {f : Bool → Plan α} (hf : ∀ b, (f b).Mute rounds) :
    (do
      let v ← eval depth scope e
      let b ← Plan.atomic (Run.truth e.offset v)
      f b).Mute rounds :=
  asked fun v => acted (fun _ => (Run.truth_gives _ v).output) hf

theorem blockPlan (depth parent : Nat) (xs : List Stmt) :
    (Point.blockPlan depth parent xs).Mute rounds := acted (fun _ => rfl) fun _ => await _

theorem exprPlan (depth scope : Nat) (e : Expr) : (Point.exprPlan depth scope e).Mute rounds := by
  cases e with
  | literal info value => exact done _
  | group info inner => exact await _
  | binary info op left right =>
      cases op with
      | and =>
          refine decided fun b => ?_
          cases b with
          | false => exact done _
          | true => exact decided fun _ => done _
      | or =>
          refine decided fun b => ?_
          cases b with
          | false => exact decided fun _ => done _
          | true => exact done _
      | _ =>
          refine asked fun v => asked fun w => atomic fun _ => ?_
          exact (Run.operate_gives depth _ _ v w).output
  | access info name slot => exact acted (fun _ => (Run.lookup_gives scope name _).output) fun _ => done _
  | element info name index slot =>
      refine acted (fun _ => (Run.lookup_gives scope name _).output) fun found => ?_
      refine acted (fun _ => (Run.addressOf_gives name _ found.2.value).output) fun address => ?_
      refine acted (fun _ => (Run.lengthOf_gives address).output) fun length => ?_
      refine asked fun v => acted (fun _ => (Run.position_gives _ _ v).output) fun i => ?_
      exact acted (fun _ => rfl) fun _ => done _
  | call info name arguments slot =>
      refine acted (fun _ => (Run.lookupRoutine_gives scope name _ _).output) fun r => ?_
      exact asked fun _ => await _
  | list info elements => exact asked fun _ => atomic fun _ => rfl
  | unknown start node => exact stop _

theorem stmtPlan (depth scope : Nat) (x : Stmt) :
    (Point.stmtPlan rounds depth scope x).Mute rounds := by
  cases x with
  | expression offset value => exact asked fun _ => done _
  | declaration offset name typeName value slot =>
      cases slot with
      | none => exact stop _
      | some slot =>
          cases value with
          | none => exact acted (fun _ => rfl) fun _ => done _
          | some value => exact asked fun _ => acted (fun _ => rfl) fun _ => done _
  | assignment offset receiver value =>
      cases receiver with
      | access info name slot =>
          refine acted (fun _ => (Run.lookup_gives scope name _).output) fun found => ?_
          refine acted (fun _ => (Run.requireMutable_gives found.2 name offset).output) fun _ => ?_
          exact asked fun _ => acted (fun _ => rfl) fun _ => done _
      | element info name index slot =>
          refine acted (fun _ => (Run.lookup_gives scope name _).output) fun found => ?_
          refine acted (fun _ => (Run.requireMutable_gives found.2 name offset).output) fun _ => ?_
          refine acted (fun _ => (Run.addressOf_gives name _ found.2.value).output) fun address => ?_
          refine acted (fun _ => (Run.lengthOf_gives address).output) fun length => ?_
          refine asked fun v => acted (fun _ => (Run.position_gives _ _ v).output) fun i => ?_
          exact asked fun _ => acted (fun _ => rfl) fun _ => done _
      | _ => exact stop _
  | ifElse offset condition thenBody elseBody =>
      refine decided fun b => ?_
      cases b with
      | false => exact blockPlan depth scope elseBody
      | true => exact blockPlan depth scope thenBody
  | switch offset condition cases =>
      exact asked fun _ => asked fun body => blockPlan depth scope body
  | whileDo offset condition body => exact await _
  | ret offset value =>
      cases value with
      | none => exact done _
      | some value => exact asked fun _ => done _
  | unknown start node => exact stop _

end Mute

namespace Point

/-- What a step does to the output: nothing, or a call of print adds the text of its argument as a
line. -/
inductive Prints (pt : Point) (u : Store) : Option String → Store → Prop
  | nothing {u' : Store} : u'.output = u.output → Prints pt u none u'
  | line {depth : Nat} {signature : Signature} {values : List Value} {text : String} :
      pt = call depth ⟨signature, .print⟩ values →
      u.heap.text? depth (values.headD .nil) = some text →
      Prints pt u (some text) { u with output := u.output ++ text ++ "\n" }

variable {rounds : Nat} {pt : Point} {s u u' : Store}

end Point

def textOfLines (lines : List String) : String := String.join (lines.map (· ++ "\n"))

theorem textOfLines_append (lines lines' : List String) :
    textOfLines (lines ++ lines') = textOfLines lines ++ textOfLines lines' := by
  simp only [textOfLines, List.map_append, String.join_append]

theorem textOfLines_singleton (line : String) : textOfLines [line] = line ++ "\n" := by
  simp only [textOfLines, List.map_cons, List.map_nil, String.join_cons, String.join_nil,
    String.append_empty]

namespace Program

variable {l : Limits} {q : Program} {lines : List String} {s : Store}

/-- The lines that a run has printed when its steps have led to a store. -/
inductive Printed (l : Limits) (q : Program) : List String → Store → Prop
  | start : Printed l q [] Store.initial
  | step {lines : List String} {line : Option String} {pt : Point} {s u u' : Store} :
      Printed l q lines u → Reaches l.rounds (program l.depth q) Store.initial pt s →
      (pt.plan l.rounds).Steps (Point.run l.rounds) s u u' → pt.Prints u line u' →
      Printed l q (lines ++ line.toList) u'

theorem Printed.output (h : Printed l q lines s) : s.output = textOfLines lines := by
  induction h with
  | start => rfl
  | step _ _ _ hprints ih =>
      cases hprints with
      | nothing hsame => rw [hsame, ih, Option.toList_none, List.append_nil]
      | line _ _ =>
          rw [Option.toList_some, textOfLines_append, textOfLines_singleton, ← ih,
            String.append_assoc]

end Program

end PlcLang
