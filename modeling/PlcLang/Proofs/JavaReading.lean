import Mathlib.Data.List.Basic
import PlcLang.Proofs.JavaTotal
import PlcLang.Proofs.TreeNodes

namespace PlcLang

namespace Java

/-- What a reader of Java makes of an expression. Parentheses leave no trace in it. -/
inductive Tree
  | atom (text : String)
  | binary (op : BinOp) (left right : Tree)
  | call (name : String) (arguments : List Tree)
  | index (array position : Tree)
  | braces (elements : List Tree)

def ladder : List (List BinOp) :=
  [[.or], [.and], [.eq, .ne], [.lt, .gt], [.add, .sub], [.mul, .div]]

def OnRung (rung : Nat) (op : BinOp) : Prop := ∃ ops, ladder[rung]? = some ops ∧ op ∈ ops

/-- The pieces are an expression with no operator outside of brackets below the given rung. Behind
the last rung come expressions with an index, and then those without. -/
inductive Reads : Nat → List Piece → Tree → Prop
  | atom (text : String) : Reads 7 [.atom text] (.atom text)
  | round {ps : List Piece} {t : Tree} :
      Reads 0 ps t → Reads 7 (.opening .round :: ps ++ [.closing .round]) t
  | call {name : String} {parts : List (List Piece)} {ts : List Tree} :
      parts.length = ts.length → (∀ p ∈ parts.zip ts, Reads 0 p.1 p.2) →
      Reads 7 (.atom name :: .opening .round :: [.comma].intercalate parts ++ [.closing .round])
        (.call name ts)
  | braces {parts : List (List Piece)} {ts : List Tree} :
      parts.length = ts.length → (∀ p ∈ parts.zip ts, Reads 0 p.1 p.2) →
      Reads 7 (.opening .curly :: [.comma].intercalate parts ++ [.closing .curly]) (.braces ts)
  | index {ps qs : List Piece} {t u : Tree} : Reads 6 ps t → Reads 0 qs u →
      Reads 6 (ps ++ .opening .square :: qs ++ [.closing .square]) (.index t u)
  | binary {rung : Nat} {op : BinOp} {ps qs : List Piece} {t u : Tree} : OnRung rung op →
      Reads rung ps t → Reads (rung + 1) qs u →
      Reads rung (ps ++ .operator op :: qs) (.binary op t u)
  | tighter {rung : Nat} {ps : List Piece} {t : Tree} : Reads (rung + 1) ps t → Reads rung ps t

theorem Reads.loosen {j k : Nat} {ps : List Piece} {t : Tree} (h : Reads k ps t) (hjk : j ≤ k) :
    Reads j ps t := by
  obtain ⟨d, rfl⟩ := Nat.exists_eq_add_of_le hjk
  clear hjk
  induction d with
  | zero => exact h
  | succ d ih => exact ih (.tighter h)

theorem onRung_iff {k : Nat} {op : BinOp} : OnRung k op ↔ precedence? op = some (k + 1) := by
  constructor
  · rintro ⟨ops, hops, hop⟩
    rcases k with _ | _ | _ | _ | _ | _ | k <;>
      simp only [ladder, List.getElem?_cons_zero, List.getElem?_cons_succ, List.getElem?_nil,
        Option.some.injEq, reduceCtorEq] at hops <;>
      subst hops <;> simp only [List.mem_cons, List.not_mem_nil, or_false] at hop <;>
      rcases hop with rfl | rfl <;> rfl
  · intro h
    cases op <;> cases h <;> exact ⟨_, rfl, by decide⟩

theorem OnRung.unique {j k : Nat} {op : BinOp} (h : OnRung j op) (h' : OnRung k op) : j = k := by
  have heq := (onRung_iff.mp h).symm.trans (onRung_iff.mp h')
  exact Nat.succ.inj (Option.some.inj heq)

/-- What may follow an expression of the rung: nothing that would still belong to it. -/
def Stops (rung : Nat) : List Piece → Prop
  | .opening .round :: _ => False
  | .opening .square :: _ => 6 < rung
  | .operator op :: _ => ∀ k, OnRung k op → k < rung
  | _ => True

theorem Stops.mono {j k : Nat} {rest : List Piece} (h : Stops j rest) (hjk : j ≤ k) :
    Stops k rest := by
  unfold Stops at h ⊢
  split at h
  · exact h
  · exact Nat.lt_of_lt_of_le h hjk
  · exact fun i hi => Nat.lt_of_lt_of_le (h i hi) hjk
  · trivial

/-- What is read behind an expression of the rung and belongs to it: the operators of the rung with
their right operands or, behind the last one, indices. -/
inductive Climbs : Nat → Tree → List Piece → Tree → Prop
  | done {rung : Nat} {t : Tree} : Climbs rung t [] t
  | operand {rung : Nat} {op : BinOp} {qs us : List Piece} {t u v : Tree} : OnRung rung op →
      Reads (rung + 1) qs u → Climbs rung (.binary op t u) us v →
      Climbs rung t (.operator op :: qs ++ us) v
  | position {qs us : List Piece} {t u v : Tree} : Reads 0 qs u → Climbs 6 (.index t u) us v →
      Climbs 6 t (.opening .square :: qs ++ .closing .square :: us) v

theorem Climbs.trans {k : Nat} {us vs : List Piece} {t u v : Tree} (h : Climbs k t us u)
    (h' : Climbs k u vs v) : Climbs k t (us ++ vs) v := by
  induction h with
  | done => exact h'
  | operand hop hqs _ ih =>
      rw [List.append_assoc]
      exact .operand hop hqs (ih h')
  | position hqs _ ih =>
      rw [List.append_assoc]
      exact .position hqs (ih h')

theorem Reads.exists_climbs {k : Nat} {ps : List Piece} {t : Tree} (h : Reads k ps t) (hk : k ≤ 6) :
    ∃ qs us u, ps = qs ++ us ∧ Reads (k + 1) qs u ∧ Climbs k u us t := by
  induction h with
  | atom | round | call | braces => omega
  | tighter h _ => exact ⟨_, [], _, (List.append_nil _).symm, h, .done⟩
  | index _ hrs ih _ =>
      obtain ⟨qs, us, u, rfl, hqs, hus⟩ := ih hk
      refine ⟨qs, _, u, ?_, hqs, hus.trans (.position hrs .done)⟩
      simp
  | binary hop _ hrs ih _ =>
      obtain ⟨qs, us, u, rfl, hqs, hus⟩ := ih hk
      refine ⟨qs, _, u, ?_, hqs, hus.trans (.operand hop hrs .done)⟩
      simp

theorem Climbs.stops {k : Nat} {us rest : List Piece} {t u : Tree} (h : Climbs k t us u)
    (hrest : Stops k rest) : Stops (k + 1) (us ++ rest) := by
  cases h with
  | done => exact hrest.mono (Nat.le_succ k)
  | operand hop _ _ => exact fun j hj => Nat.lt_succ_of_le (Nat.le_of_eq (hj.unique hop))
  | position _ _ => exact Nat.lt_succ_self 6

/-- No other expression of the rung starts where one of at most `n` pieces does and stops where
nothing goes on. -/
def Unique (n k : Nat) : Prop :=
  ∀ ⦃ps qs rest rest' : List Piece⦄ ⦃t u : Tree⦄, ps.length ≤ n → Reads k ps t → Reads k qs u →
    ps ++ rest = qs ++ rest' → Stops k rest → Stops k rest' → ps = qs ∧ t = u

theorem Climbs.unique {n k : Nat} (hnext : Unique n (k + 1)) (hinner : ∀ m < n, Unique m 0)
    {us us' rest rest' : List Piece} {t u u' : Tree} (hn : us.length ≤ n) (h : Climbs k t us u)
    (h' : Climbs k t us' u') (heq : us ++ rest = us' ++ rest') (hrest : Stops k rest)
    (hrest' : Stops k rest') : us = us' ∧ u = u' := by
  induction h generalizing us' u' with
  | done =>
      cases h' with
      | done => exact ⟨rfl, rfl⟩
      | operand hop _ _ =>
          obtain rfl : rest = _ := heq
          exact absurd (hrest _ hop) (Nat.lt_irrefl _)
      | position _ _ =>
          obtain rfl : rest = _ := heq
          exact absurd hrest (Nat.lt_irrefl 6)
  | operand hop hqs hus ih =>
      cases h' with
      | done =>
          obtain rfl : _ = rest' := heq
          exact absurd (hrest' _ hop) (Nat.lt_irrefl _)
      | operand hop' hqs' hus' =>
          simp only [List.cons_append, List.append_assoc, List.cons.injEq, Piece.operator.injEq,
            List.length_cons, List.length_append] at heq hn
          obtain ⟨rfl, heq⟩ := heq
          obtain ⟨rfl, rfl⟩ := hnext (by omega) hqs hqs' heq (hus.stops hrest) (hus'.stops hrest')
          obtain ⟨rfl, rfl⟩ := ih hnext (by omega) hus' (List.append_cancel_left heq) hrest hrest'
          exact ⟨rfl, rfl⟩
      | position => simp at heq
  | position hqs hus ih =>
      cases h' with
      | done =>
          obtain rfl : _ = rest' := heq
          exact absurd hrest' (Nat.lt_irrefl 6)
      | operand => simp at heq
      | position hqs' hus' =>
          simp only [List.cons_append, List.append_assoc, List.cons.injEq, true_and,
            List.length_cons, List.length_append] at heq hn
          obtain ⟨rfl, rfl⟩ := hinner _ (by omega) (Nat.le_refl _) hqs hqs' heq trivial trivial
          have heq := List.append_cancel_left heq
          simp only [List.cons.injEq, true_and] at heq
          obtain ⟨rfl, rfl⟩ := ih hnext (by omega) hus' heq hrest hrest'
          exact ⟨rfl, rfl⟩

def Starts : List Piece → Prop
  | .atom _ :: _ => True
  | .opening b :: _ => b ≠ .square
  | _ => False

theorem Starts.append {ps : List Piece} (h : Starts ps) (qs : List Piece) : Starts (ps ++ qs) := by
  cases ps with
  | nil => exact h.elim
  | cons p ps => cases p <;> exact h

theorem Reads.starts {k : Nat} {ps : List Piece} {t : Tree} (h : Reads k ps t) : Starts ps := by
  induction h with
  | atom | call => trivial
  | round | braces => exact nofun
  | index _ _ ih _ =>
      rw [List.append_assoc]
      exact ih.append _
  | binary _ _ _ ih _ => exact ih.append _
  | tighter _ ih => exact ih

theorem intercalate_comma_cons (ps : List Piece) (parts : List (List Piece)) :
    [Piece.comma].intercalate (ps :: parts) = ps ++ parts.flatMap (Piece.comma :: ·) := by
  induction parts generalizing ps with
  | nil => simp
  | cons qs parts ih =>
      rw [List.intercalate_cons_cons, ih]
      simp

theorem length_le_intercalate {ps : List Piece} {parts : List (List Piece)} (h : ps ∈ parts) :
    ps.length ≤ ([Piece.comma].intercalate parts).length := by
  obtain ⟨first, others, rfl⟩ := List.exists_cons_of_ne_nil (List.ne_nil_of_mem h)
  rw [intercalate_comma_cons, List.length_append]
  obtain rfl | h := List.mem_cons.mp h
  · omega
  · have hsub : (Piece.comma :: ps).length ≤ (others.flatMap (Piece.comma :: ·)).length :=
      (List.sublist_flatten_of_mem (List.mem_map_of_mem h)).length_le
    rw [List.length_cons] at hsub
    omega

theorem Unique.parts {n : Nat} (hinner : Unique n 0) {b : Bracket} {rest rest' : List Piece}
    {parts parts' : List (List Piece)} {ts ts' : List Tree} (hn : ∀ ps ∈ parts, ps.length ≤ n)
    (hlen : parts.length = ts.length) (hlen' : parts'.length = ts'.length)
    (h : ∀ p ∈ parts.zip ts, Reads 0 p.1 p.2) (h' : ∀ p ∈ parts'.zip ts', Reads 0 p.1 p.2)
    (heq : parts.flatMap (Piece.comma :: ·) ++ .closing b :: rest =
      parts'.flatMap (Piece.comma :: ·) ++ .closing b :: rest') : parts = parts' ∧ ts = ts' := by
  have hstops (qss : List (List Piece)) (rest : List Piece) :
      Stops 0 (qss.flatMap (Piece.comma :: ·) ++ .closing b :: rest) := by
    cases qss <;> trivial
  induction parts generalizing ts parts' ts' with
  | nil =>
      obtain rfl := List.length_eq_zero_iff.mp hlen.symm
      cases parts' with
      | nil =>
          obtain rfl := List.length_eq_zero_iff.mp hlen'.symm
          exact ⟨rfl, rfl⟩
      | cons qs parts' => simp at heq
  | cons ps parts ih =>
      cases parts' with
      | nil => simp at heq
      | cons qs parts' =>
          obtain ⟨t, ts, rfl⟩ := List.exists_cons_of_length_eq_add_one hlen.symm
          obtain ⟨t', ts', rfl⟩ := List.exists_cons_of_length_eq_add_one hlen'.symm
          simp only [List.zip_cons_cons, List.forall_mem_cons] at h h' hn
          simp only [List.flatMap_cons, List.cons_append, List.append_assoc, List.cons.injEq,
            true_and] at heq
          obtain ⟨rfl, rfl⟩ := hinner hn.1 h.1 h'.1 heq (hstops _ _) (hstops _ _)
          obtain ⟨rfl, rfl⟩ := ih hn.2 (Nat.succ.inj hlen) (Nat.succ.inj hlen') h.2 h'.2
            (List.append_cancel_left heq)
          exact ⟨rfl, rfl⟩

theorem Unique.list {n : Nat} (hinner : Unique n 0) {b : Bracket} {rest rest' : List Piece}
    {parts parts' : List (List Piece)} {ts ts' : List Tree}
    (hn : ([Piece.comma].intercalate parts).length ≤ n)
    (hlen : parts.length = ts.length) (hlen' : parts'.length = ts'.length)
    (h : ∀ p ∈ parts.zip ts, Reads 0 p.1 p.2) (h' : ∀ p ∈ parts'.zip ts', Reads 0 p.1 p.2)
    (heq : [Piece.comma].intercalate parts ++ .closing b :: rest =
      [Piece.comma].intercalate parts' ++ .closing b :: rest') : parts = parts' ∧ ts = ts' := by
  cases parts with
  | nil =>
      obtain rfl := List.length_eq_zero_iff.mp hlen.symm
      cases parts' with
      | nil =>
          obtain rfl := List.length_eq_zero_iff.mp hlen'.symm
          exact ⟨rfl, rfl⟩
      | cons qs parts' =>
          obtain ⟨t', ts', rfl⟩ := List.exists_cons_of_length_eq_add_one hlen'.symm
          have hstarts := ((h' (qs, t') List.mem_cons_self).starts.append
            (parts'.flatMap (Piece.comma :: ·))).append (.closing b :: rest')
          rw [← intercalate_comma_cons, ← heq] at hstarts
          exact hstarts.elim
  | cons ps parts =>
      obtain ⟨t, ts, rfl⟩ := List.exists_cons_of_length_eq_add_one hlen.symm
      cases parts' with
      | nil =>
          have hstarts := ((h (ps, t) List.mem_cons_self).starts.append
            (parts.flatMap (Piece.comma :: ·))).append (.closing b :: rest)
          rw [← intercalate_comma_cons, heq] at hstarts
          exact hstarts.elim
      | cons qs parts' =>
          rw [intercalate_comma_cons, intercalate_comma_cons] at heq
          -- With a comma in front, the first parts are like all others.
          have hcomma := congrArg (Piece.comma :: ·) heq
          exact hinner.parts (fun p hp => Nat.le_trans (length_le_intercalate hp) hn) hlen hlen' h h'
            hcomma

theorem Reads.le_last {k : Nat} {ps : List Piece} {t : Tree} (h : Reads k ps t) : k ≤ 7 := by
  induction h with
  | binary _ _ _ ih _ => exact ih
  | tighter _ ih => exact Nat.le_of_succ_le ih
  | _ => decide

def Listed (parts : List (List Piece)) (ts : List Tree) : Prop :=
  parts.length = ts.length ∧ ∀ p ∈ parts.zip ts, Reads 0 p.1 p.2

inductive Simple : List Piece → Tree → Prop
  | atom (text : String) : Simple [.atom text] (.atom text)
  | round {ps : List Piece} {t : Tree} :
      Reads 0 ps t → Simple (.opening .round :: ps ++ [.closing .round]) t
  | call {name : String} {parts : List (List Piece)} {ts : List Tree} : Listed parts ts →
      Simple (.atom name :: .opening .round :: [.comma].intercalate parts ++ [.closing .round])
        (.call name ts)
  | braces {parts : List (List Piece)} {ts : List Tree} : Listed parts ts →
      Simple (.opening .curly :: [.comma].intercalate parts ++ [.closing .curly]) (.braces ts)

theorem Reads.simple {ps : List Piece} {t : Tree} (h : Reads 7 ps t) : Simple ps t := by
  cases h with
  | atom text => exact .atom text
  | round h => exact .round h
  | call hlen h => exact .call ⟨hlen, h⟩
  | braces hlen h => exact .braces ⟨hlen, h⟩
  | binary hop _ h => exact absurd h.le_last (by decide)
  | tighter h => exact absurd h.le_last (by decide)

theorem Simple.unique {n : Nat} (hinner : ∀ m < n, Unique m 0) {ps qs rest rest' : List Piece}
    {t u : Tree} (hn : ps.length ≤ n) (h : Simple ps t) (h' : Simple qs u)
    (heq : ps ++ rest = qs ++ rest') (hrest : Stops 7 rest) (hrest' : Stops 7 rest') :
    ps = qs ∧ t = u := by
  cases h with
  | atom text =>
      cases h' with
      | atom text' =>
          simp only [List.cons_append, List.cons.injEq, Piece.atom.injEq] at heq
          obtain ⟨rfl, _⟩ := heq
          exact ⟨rfl, rfl⟩
      | call =>
          simp only [List.cons_append, List.nil_append, List.cons.injEq] at heq
          obtain ⟨_, rfl⟩ := heq
          exact hrest.elim
      | round | braces => simp at heq
  | round ht =>
      cases h' with
      | round hu =>
          simp only [List.cons_append, List.append_assoc, List.cons.injEq, true_and,
            List.nil_append, List.length_cons, List.length_append, List.length_nil] at heq hn
          obtain ⟨rfl, rfl⟩ := hinner _ (by omega) (Nat.le_refl _) ht hu heq trivial trivial
          exact ⟨rfl, rfl⟩
      | atom | call | braces => simp at heq
  | call hts =>
      cases h' with
      | atom =>
          simp only [List.cons_append, List.nil_append, List.cons.injEq] at heq
          obtain ⟨_, rfl⟩ := heq
          exact hrest'.elim
      | call hus =>
          simp only [List.cons_append, List.append_assoc, List.cons.injEq, Piece.atom.injEq,
            true_and, List.nil_append, List.length_cons, List.length_append,
            List.length_nil] at heq hn
          obtain ⟨rfl, heq⟩ := heq
          obtain ⟨rfl, rfl⟩ := (hinner _ (by omega)).list (Nat.le_refl _) hts.1 hus.1 hts.2 hus.2 heq
          exact ⟨rfl, rfl⟩
      | round | braces => simp at heq
  | braces hts =>
      cases h' with
      | braces hus =>
          simp only [List.cons_append, List.append_assoc, List.cons.injEq, true_and,
            List.nil_append, List.length_cons, List.length_append, List.length_nil] at heq hn
          obtain ⟨rfl, rfl⟩ := (hinner _ (by omega)).list (Nat.le_refl _) hts.1 hus.1 hts.2 hus.2 heq
          exact ⟨rfl, rfl⟩
      | atom | call | round => simp at heq

theorem Unique.step {n k : Nat} (hk : k ≤ 6) (hnext : Unique n (k + 1))
    (hinner : ∀ m < n, Unique m 0) : Unique n k := by
  intro ps qs rest rest' t u hn hps hqs heq hrest hrest'
  obtain ⟨ps, us, t₀, rfl, hps, hus⟩ := hps.exists_climbs hk
  obtain ⟨qs, vs, u₀, rfl, hqs, hvs⟩ := hqs.exists_climbs hk
  rw [List.length_append] at hn
  rw [List.append_assoc, List.append_assoc] at heq
  obtain ⟨rfl, rfl⟩ := hnext (by omega) hps hqs heq (hus.stops hrest) (hvs.stops hrest')
  obtain ⟨rfl, rfl⟩ := hus.unique hnext hinner (by omega) hvs (List.append_cancel_left heq) hrest
    hrest'
  exact ⟨rfl, rfl⟩

theorem unique_upTo {n : Nat} (hinner : ∀ m < n, Unique m 0) {d : Nat} (hd : d ≤ 7) :
    Unique n (7 - d) := by
  induction d with
  | zero =>
      intro ps qs rest rest' t u hn hps hqs
      exact hps.simple.unique hinner hn hqs.simple
  | succ d ih =>
      have hnext := ih (Nat.le_of_succ_le hd)
      have heq : 7 - d = 7 - (d + 1) + 1 := by omega
      rw [heq] at hnext
      exact .step (by omega) hnext hinner

theorem unique_loosest (n : Nat) : Unique n 0 := by
  induction n using Nat.strongRecOn with
  | ind n ih => exact unique_upTo ih (Nat.le_refl 7)

/-- A piece list has no two readings. -/
theorem Reads.unique {ps : List Piece} {t u : Tree} (h : Reads 0 ps t) (h' : Reads 0 ps u) :
    t = u := by
  have hsame : ps ++ [] = ps ++ [] := rfl
  exact (unique_loosest ps.length (Nat.le_refl _) h h' hsame trivial trivial).2

end Java

open Java

mutual

/-- The tree of an expression in Java: a group is what it encloses, and a power is a call. -/
def Expr.javaTree : Expr → Tree
  | .literal _ value => .atom value.javaText
  | .group _ inner => inner.javaTree
  | .binary _ .pow left right => .call "Math.pow" [left.javaTree, right.javaTree]
  | .binary _ op left right => .binary op left.javaTree right.javaTree
  | .access _ name slot => .atom ((slot.map Variable.javaName).getD name)
  | .element _ name index slot => .index (.atom ((slot.map Variable.javaName).getD name)) index.javaTree
  | .call _ name arguments slot =>
    .call ((slot.map Signature.javaName).getD name) (Expr.javaTrees arguments)
  | .list _ elements => .braces (Expr.javaTrees elements)
  | .unknown _ node => .atom node

def Expr.javaTrees : List Expr → List Tree
  | [] => []
  | e :: rest => e.javaTree :: Expr.javaTrees rest

end

namespace Expr

def Written (e : Expr) : Prop :=
  ∀ info value, (Node.expr e).Has (.expr (.literal info value)) → value.Written

theorem Written.child {e a : Expr} (h : e.Written) (ha : a ∈ e.children) : a.Written :=
  fun info value hhas => h info value (.child (List.mem_map_of_mem ha) hhas)

theorem written_of_children {e : Expr} (hself : ∀ info value, e ≠ .literal info value)
    (h : ∀ a ∈ e.children, a.Written) : e.Written := by
  intro info value hhas
  cases hhas with
  | refl => exact absurd rfl (hself info value)
  | child hm hhas =>
      obtain ⟨a, ha, rfl⟩ := List.mem_map.mp hm
      exact h a ha info value hhas

/-- The rung on which the emitted form of an expression is read. -/
def rung (e : Expr) : Nat :=
  match outer? e with
  | some p => p - 1
  | none => 6

def Readable (e : Expr) : Prop := ∃ ps, e.pieces = .ok ps ∧ Reads e.rung ps e.javaTree

/-- An operand is put into parentheses where it would be read on a rung below the one wanted. -/
theorem operand_reads {e : Expr} {ps : List Piece} {k : Nat} (h : Reads e.rung ps e.javaTree)
    (hk : k ≤ 6) (test : Nat → Bool) (htest : ∀ p, test p = false → k ≤ p - 1) :
    Reads k (if (outer? e).any test then enclosed .round ps else ps) e.javaTree := by
  have hround : Reads k (enclosed .round ps) e.javaTree :=
    (Reads.round (h.loosen (Nat.zero_le _))).loosen (by omega)
  unfold rung at h
  cases hp : outer? e with
  | none =>
      rw [hp] at h
      exact h.loosen hk
  | some p =>
      rw [hp] at h
      rw [Option.any_some]
      split
      · exact hround
      · next hfalse => exact h.loosen (htest p (by simpa using hfalse))

theorem Readable.binary {info : Info} {op : BinOp} {left right : Expr} (hleft : left.Readable)
    (hright : right.Readable)
    (hop : op ∈ [.and, .or, .eq, .ne, .lt, .gt, .add, .sub, .mul, .div, .pow]) :
    (Expr.binary info op left right).Readable := by
  obtain ⟨ps, hps, hleft⟩ := hleft
  obtain ⟨qs, hqs, hright⟩ := hright
  by_cases hpow : op = .pow
  · subst hpow
    refine ⟨.atom "Math.pow" :: listed .round [ps, qs], ?_, ?_⟩
    · rw [pieces, hps, hqs]
      rfl
    · rw [javaTree]
      refine .tighter (.call rfl ?_)
      simp only [List.zip_cons_cons, List.zip_nil_right, List.forall_mem_cons]
      exact ⟨hleft.loosen (Nat.zero_le _), hright.loosen (Nat.zero_le _), nofun⟩
  · obtain ⟨k, hk, hp⟩ : ∃ k ≤ 5, precedence? op = some (k + 1) := by
      cases op with
      | pow => exact absurd rfl hpow
      | other symbol => simp at hop
      | _ => exact ⟨_, by decide, rfl⟩
    refine ⟨leftOperand (k + 1) left ps ++ .operator op :: rightOperand (k + 1) right qs, ?_, ?_⟩
    · rw [pieces, hp, hps, hqs]
      · rfl
      · exact hpow
    · have hrung : (Expr.binary info op left right).rung = k := by simp [rung, outer?, hp]
      rw [hrung, javaTree]
      · refine .binary (onRung_iff.mpr hp) ?_ ?_
        · exact operand_reads hleft (by omega) _ fun p hp => by simp at hp; omega
        · exact operand_reads hright (by omega) _ fun p hp => by simp at hp; omega
      · exact hpow

theorem binary_pieces {info : Info} {op : BinOp} {left right : Expr} {ps : List Piece}
    (h : (binary info op left right).pieces = .ok ps) :
    ∃ qs, left.pieces = .ok qs ∧ ∃ rs, right.pieces = .ok rs ∧
      (ps = .atom "Math.pow" :: listed .round [qs, rs] ∨
        ∃ p, precedence? op = some p ∧
          ps = leftOperand p left qs ++ .operator op :: rightOperand p right rs) := by
  by_cases hpow : op = .pow
  · subst hpow
    simp only [pieces, bind_eq_ok, pure_eq_ok] at h
    obtain ⟨qs, hqs, rs, hrs, rfl⟩ := h
    exact ⟨qs, hqs, rs, hrs, .inl rfl⟩
  · rw [pieces] at h
    · cases hp : precedence? op with
      | none =>
          rw [hp] at h
          cases h
      | some p =>
          simp only [hp, bind_eq_ok, pure_eq_ok] at h
          obtain ⟨qs, hqs, rs, hrs, rfl⟩ := h
          exact ⟨qs, hqs, rs, hrs, .inr ⟨p, rfl, rfl⟩⟩
    · exact hpow

mutual

theorem written_of_pieces (e : Expr) {ps : List Piece} (h : e.pieces = .ok ps) : e.Written := by
  cases e with
  | literal info value =>
      simp only [pieces, bind_eq_ok, Literal.java_eq_ok] at h
      obtain ⟨_, ⟨hvalue, _⟩, _⟩ := h
      intro info' value' hhas
      cases hhas with
      | refl => exact hvalue
      | child hm _ => cases hm
  | group info inner =>
      simp only [pieces, bind_eq_ok] at h
      obtain ⟨_, hinner, _⟩ := h
      exact written_of_children nofun (List.forall_mem_singleton.mpr (written_of_pieces inner hinner))
  | binary info op left right =>
      obtain ⟨qs, hleft, rs, hright, _⟩ := binary_pieces h
      exact written_of_children nofun (List.forall_mem_cons.mpr ⟨written_of_pieces left hleft,
        List.forall_mem_singleton.mpr (written_of_pieces right hright)⟩)
  | access => exact written_of_children nofun nofun
  | element info name index slot =>
      simp only [pieces, bind_eq_ok] at h
      obtain ⟨_, _, _, hindex, _⟩ := h
      exact written_of_children nofun (List.forall_mem_singleton.mpr (written_of_pieces index hindex))
  | call info name arguments slot =>
      cases slot with
      | none =>
          rw [pieces] at h
          cases h
      | some s =>
          simp only [pieces, bind_eq_ok] at h
          obtain ⟨_, harguments, _⟩ := h
          exact written_of_children nofun (written_of_piecesEach arguments harguments)
  | list info elements =>
      simp only [pieces, bind_eq_ok] at h
      obtain ⟨_, helements, _⟩ := h
      exact written_of_children nofun (written_of_piecesEach elements helements)
  | unknown => exact written_of_children nofun nofun

theorem written_of_piecesEach (es : List Expr) {parts : List (List Piece)}
    (h : piecesEach es = .ok parts) : ∀ e ∈ es, e.Written := by
  cases es with
  | nil => exact nofun
  | cons e es =>
      simp only [piecesEach, bind_eq_ok] at h
      obtain ⟨_, he, _, hes, _⟩ := h
      exact List.forall_mem_cons.mpr ⟨written_of_pieces e he, written_of_piecesEach es hes⟩

end

end Expr

end PlcLang
