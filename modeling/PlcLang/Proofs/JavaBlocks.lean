import PlcLang.Proofs.JavaLines

namespace PlcLang

open Java

namespace Java

def opens (l : String) : Bool := l.toList.getLast? == some '\x7b'

/-- Behind its spaces the line begins with a closing brace. -/
def closes (l : String) : Bool := (l.toList.dropWhile (· == ' ')).head? == some '\x7d'

/-- The nesting behind a line, if it closes no more than is open in front of it. -/
def nesting (n : Nat) (l : String) : Option Nat :=
  match n, closes l with
  | 0, true => none
  | n + 1, true => some (if opens l then n + 1 else n)
  | n, false => some (if opens l then n + 1 else n)

def nestings (n : Nat) : List String → Option (List Nat)
  | [] => some []
  | l :: ls => do
    let m ← nesting n l
    return m :: (← nestings m ls)

/-- From a nesting in front of the lines to one behind them, by way of those behind each. -/
inductive Nests : Nat → List String → List Nat → Nat → Prop
  | nil {n : Nat} : Nests n [] [] n
  | cons {n m k : Nat} {l : String} {ls : List String} {ms : List Nat} :
      nesting n l = some m → Nests m ls ms k → Nests n (l :: ls) (m :: ms) k

namespace Nests

variable {n m k : Nat} {l : String} {ls ls' : List String} {ms ks : List Nat}

theorem line (h : nesting n l = some m) : Nests n [l] [m] m := .cons h .nil

theorem append (h : Nests n ls ms m) (h' : Nests m ls' ks k) :
    Nests n (ls ++ ls') (ms ++ ks) k := by
  induction h with
  | nil => exact h'
  | cons hl _ ih => exact .cons hl (ih h')

theorem nestings_eq (h : Nests n ls ms m) : nestings n ls = some ms := by
  induction h with
  | nil => rfl
  | cons hl _ ih => rw [nestings, hl, Option.bind_eq_bind, Option.bind_some, ih]; rfl

end Nests

structure Edges (closing opening : Bool) (l : String) : Prop where
  flat : Flat l
  closes : Java.closes l = closing
  opens : Java.opens l = opening

instance (closing opening : Bool) (l : String) : Decidable (Edges closing opening l) :=
  decidable_of_iff (Flat l ∧ Java.closes l = closing ∧ Java.opens l = opening)
    ⟨fun ⟨hf, hc, ho⟩ => ⟨hf, hc, ho⟩, fun ⟨hf, hc, ho⟩ => ⟨hf, hc, ho⟩⟩

namespace Edges

variable {closing opening : Bool} {l : String} {n : Nat}

theorem plain (h : Edges false false l) (n : Nat) : nesting n l = some n := by
  cases n <;> simp [nesting, h.closes, h.opens]

theorem first (h : Edges false true l) (n : Nat) : nesting n l = some (n + 1) := by
  cases n <;> simp [nesting, h.closes, h.opens]

theorem middle (h : Edges true true l) (n : Nat) : nesting (n + 1) l = some (n + 1) := by
  simp [nesting, h.closes, h.opens]

theorem last (h : Edges true false l) (n : Nat) : nesting (n + 1) l = some n := by
  simp [nesting, h.closes, h.opens]

end Edges

/-- Lines whose braces are nested. -/
inductive Blocks : List String → Prop
  | nil : Blocks []
  | line {l : String} : Edges false false l → Blocks [l]
  | append {ls ls' : List String} : Blocks ls → Blocks ls' → Blocks (ls ++ ls')
  | block {first last : String} {ls : List String} :
      Edges false true first → Blocks ls → Edges true false last →
      Blocks (first :: ls ++ [last])
  | blocks {first middle last : String} {ls ls' : List String} :
      Edges false true first → Blocks ls → Edges true true middle → Blocks ls' →
      Edges true false last → Blocks (first :: ls ++ middle :: ls' ++ [last])

namespace Blocks

variable {ls : List String}

theorem flat (h : Blocks ls) : ∀ l ∈ ls, Flat l := by
  induction h with
  | nil => exact nofun
  | line hl => exact List.forall_mem_singleton.mpr hl.flat
  | append _ _ ih ih' => exact List.forall_mem_append.mpr ⟨ih, ih'⟩
  | block hfirst _ hlast ih =>
      exact List.forall_mem_append.mpr
        ⟨List.forall_mem_cons.mpr ⟨hfirst.flat, ih⟩, List.forall_mem_singleton.mpr hlast.flat⟩
  | blocks hfirst _ hmiddle _ hlast ih ih' =>
      exact List.forall_mem_append.mpr
        ⟨List.forall_mem_append.mpr ⟨List.forall_mem_cons.mpr ⟨hfirst.flat, ih⟩,
          List.forall_mem_cons.mpr ⟨hmiddle.flat, ih'⟩⟩, List.forall_mem_singleton.mpr hlast.flat⟩

theorem nests_block {first last : String} {n : Nat} {ms : List Nat}
    (hfirst : Edges false true first) (h : Nests (n + 1) ls ms (n + 1))
    (hlast : Edges true false last) :
    Nests n (first :: ls ++ [last]) ((n + 1) :: ms ++ [n]) n :=
  (Nests.cons (hfirst.first n) h).append (.line (hlast.last n))

theorem nests (h : Blocks ls) (n : Nat) : ∃ ms, Nests n ls ms n ∧ ∀ m ∈ ms, n ≤ m := by
  induction h generalizing n with
  | nil => exact ⟨[], .nil, nofun⟩
  | line hl => exact ⟨[n], .line (hl.plain n), List.forall_mem_singleton.mpr le_rfl⟩
  | append _ _ ih ih' =>
      obtain ⟨ms, hms, hle⟩ := ih n
      obtain ⟨ks, hks, hle'⟩ := ih' n
      exact ⟨ms ++ ks, hms.append hks, List.forall_mem_append.mpr ⟨hle, hle'⟩⟩
  | block hfirst _ hlast ih =>
      obtain ⟨ms, hms, hle⟩ := ih (n + 1)
      refine ⟨_, nests_block hfirst hms hlast, ?_⟩
      grind
  | blocks hfirst _ hmiddle _ hlast ih ih' =>
      obtain ⟨ms, hms, hle⟩ := ih (n + 1)
      obtain ⟨ks, hks, hle'⟩ := ih' (n + 1)
      have hinner := hms.append (.cons (hmiddle.middle n) hks)
      refine ⟨_, nests_block hfirst hinner hlast, ?_⟩
      grind

theorem plain (h : ∀ l ∈ ls, Edges false false l) : Blocks ls := by
  induction ls with
  | nil => exact .nil
  | cons l ls ih =>
      obtain ⟨hl, hls⟩ := List.forall_mem_cons.mp h
      exact .append (.line hl) (ih hls)

theorem flatten {parts : List (List String)} (h : ∀ ls ∈ parts, Blocks ls) :
    Blocks parts.flatten := by
  induction parts with
  | nil => exact .nil
  | cons ls parts ih =>
      obtain ⟨hls, hparts⟩ := List.forall_mem_cons.mp h
      exact hls.append (ih hparts)

end Blocks

/-- The text begins with something else than a space or a closing brace. -/
def begins (text : String) : Bool := text.toList.head?.any fun c => c != ' ' && c != '\x7d'

theorem begins_iff {text : String} :
    begins text = true ↔ ∃ c ∈ text.toList.head?, c ≠ ' ' ∧ c ≠ '\x7d' := by
  simp [begins, Option.any_eq_true]

theorem begins_append {text : String} (h : begins text = true) (rest : String) :
    begins (text ++ rest) = true := by
  obtain ⟨c, hc, hne⟩ := begins_iff.mp h
  refine begins_iff.mpr ⟨c, ?_, hne⟩
  rw [String.toList_append, List.head?_append, Option.mem_def.mp hc]
  rfl

/-- The text is that of the first characters of a line that closes nothing. -/
structure Front (text : String) : Prop where
  flat : Flat text
  begins : Java.begins text = true

instance (text : String) : Decidable (Front text) :=
  decidable_of_iff (Flat text ∧ begins text = true)
    ⟨fun ⟨hf, hb⟩ => ⟨hf, hb⟩, fun ⟨hf, hb⟩ => ⟨hf, hb⟩⟩

theorem Front.append {text rest : String} (h : Front text) (hrest : Flat rest) :
    Front (text ++ rest) :=
  ⟨flat_append.mpr ⟨h.flat, hrest⟩, begins_append h.begins rest⟩

theorem Front.not_closes {text : String} (h : Front text) : closes text = false := by
  obtain ⟨c, hc, hspace, hbrace⟩ := begins_iff.mp h.begins
  obtain ⟨cs, hcs⟩ := List.head?_eq_some_iff.mp hc
  simp [closes, hcs, hspace, hbrace]

theorem closes_line (n : Nat) (text : String) : closes (line n text) = closes text := by
  rw [closes, toList_line, List.dropWhile_append_of_pos]
  · rfl
  · intro c hc
    rw [List.eq_of_mem_replicate hc]
    rfl

theorem opens_append (text : String) {last : String} (h : last ≠ "") :
    opens (text ++ last) = opens last := by
  have hne : last.toList ≠ [] := fun hnil => h (String.toList_eq_nil_iff.mp hnil)
  rw [opens, opens, String.toList_append, List.getLast?_append_of_ne_nil _ hne]

theorem opens_line (n : Nat) {text : String} (h : text ≠ "") :
    opens (line n text) = opens text :=
  opens_append _ h

theorem Edges.indented {closing opening : Bool} {text : String} (h : Edges closing opening text)
    (hne : text ≠ "") (n : Nat) : Edges closing opening (line n text) :=
  ⟨flat_line h.flat, (closes_line n text).trans h.closes, (opens_line n hne).trans h.opens⟩

/-- The text is that of the last characters of a line, which opens a block or does not. -/
def Back (opening : Bool) (last : String) : Prop := last ≠ "" ∧ Flat last ∧ opens last = opening

instance (opening : Bool) (last : String) : Decidable (Back opening last) :=
  inferInstanceAs (Decidable (last ≠ "" ∧ Flat last ∧ opens last = opening))

theorem edges_line {text last : String} {opening : Bool} (n : Nat) (h : Front text)
    (hlast : Back opening last) : Edges false opening (line n (text ++ last)) := by
  obtain ⟨hne, hflat, hopens⟩ := hlast
  have hfront := h.append hflat
  refine Edges.indented ⟨hfront.flat, hfront.not_closes, ?_⟩ ?_ n
  · exact (opens_append text hne).trans hopens
  · exact fun hnil => hne (String.append_eq_empty_iff.mp hnil).2

theorem edges_close (n : Nat) : Edges true false (line n "\x7d") :=
  Edges.indented (by decide) (by decide) n

theorem Blocks.inBraces {header : String} {body : List String} (n : Nat) (hheader : Front header)
    (h : Blocks body) : Blocks (inBraces n header body) := by
  rw [Java.inBraces]
  split
  · exact .line (edges_line n hheader (by decide))
  · exact .block (edges_line n hheader (by decide)) h (edges_close n)

end Java

theorem Ty.java_front (type : Ty) : Front type.java := by
  cases type <;> decide

theorem Node.Named.front {n : Node} (h : n.Named) {w : String} (hw : w ∈ n.javaNames) :
    Front w := by
  have hletter {c : Char} (hc : Lexeme.Letter c) : c ≠ ' ' ∧ c ≠ '\x7d' := by
    constructor
    · rintro rfl
      exact absurd hc (by decide)
    · rintro rfl
      exact absurd hc (by decide)
  obtain hlexeme | rfl := h.written hw
  · refine ⟨h.flat hw, begins_iff.mpr ?_⟩
    generalize w.toList = ds at hlexeme
    cases hlexeme with
    | name hc => exact ⟨_, rfl, hletter hc⟩
    | atName => exact ⟨_, rfl, by decide⟩
  · decide

namespace Expr

variable {e : Expr} {text : String}

theorem java_front (hnamed : ∀ n, (Node.expr e).Has n → n.Named)
    (hname : (Node.expr e).names ≠ []) (h : e.java = .ok text) : Front text := by
  refine ⟨java_flat hnamed h, ?_⟩
  obtain ⟨ps, hps, htext⟩ := bind_eq_ok.mp h
  rw [← pure_eq_ok.mp htext]
  have hfront {w : String} (hw : w ∈ (Node.expr e).javaNames) (ps : List Piece) :
      begins (String.join ((Piece.atom w :: ps).map Piece.text)) = true := by
    rw [List.map_cons, String.join_cons]
    exact begins_append ((hnamed _ .refl).front hw).begins _
  cases e with
  | access info name slot =>
      simp only [pieces, bind_eq_ok, pure_eq_ok, variableName_eq_ok] at hps
      obtain ⟨w, hw, rfl⟩ := hps
      exact hfront hw []
  | element info name index slot =>
      simp only [pieces, bind_eq_ok, pure_eq_ok, variableName_eq_ok] at hps
      obtain ⟨w, hw, _, _, rfl⟩ := hps
      exact hfront hw _
  | call info name arguments slot =>
      cases slot with
      | none =>
          rw [pieces] at hps
          cases hps
      | some s =>
          simp only [pieces, bind_eq_ok, pure_eq_ok] at hps
          obtain ⟨_, _, rfl⟩ := hps
          exact hfront List.mem_cons_self _
  | _ => exact absurd rfl hname

end Expr

def Stmt.head? : Stmt → Option Expr
  | .expression _ value => some value
  | .assignment _ receiver _ => some receiver
  | _ => none

theorem Stmt.Typed.names_ne_nil {σ : Slots} {returns : Ty} {Γ Δ : Env} {x : Stmt}
    (h : x.Typed σ returns Γ Δ) : ∀ e ∈ x.head?, (Node.expr e).names ≠ [] := by
  cases h with
  | expression | assignment | elementAssignment =>
      rintro e ⟨⟩
      exact List.cons_ne_nil _ _
  | _ => exact nofun

/-- What is known of the names in a program and of the statements that begin with an expression. -/
structure Program.Printable (q : Program) : Prop where
  named : ∀ n, q.Contains n → n.Named
  head : ∀ x, q.Contains (.stmt x) → ∀ e ∈ x.head?, (Node.expr e).names ≠ []

namespace Program.Printable

variable {q : Program} {n : Nat} {text : String}

section

variable (hq : q.Printable)
include hq

theorem expr_flat {e : Expr} (he : q.Contains (.expr e)) (h : e.java = .ok text) : Flat text :=
  e.java_flat (fun n hn => hq.named n (he.below hn)) h

theorem head_front {x : Stmt} {e : Expr} (hx : q.Contains (.stmt x)) (hhead : x.head? = some e)
    (he : q.Contains (.expr e)) (h : e.java = .ok text) : Front text :=
  e.java_front (fun n hn => hq.named n (he.below hn)) (hq.head x hx e hhead) h

theorem declarator_front {type : Ty} {name : String} {value : Option Expr} (hname : Flat name)
    (hvalue : ∀ e ∈ value, q.Contains (.expr e)) (h : declarator type name value = .ok text) :
    Front text := by
  have hbrackets : Flat (if isList value then "[]" else "") := by
    split <;> decide
  have hhead := ((type.java_front.append hbrackets).append (by decide : Flat " ")).append hname
  cases value with
  | none => exact pure_eq_ok.mp h ▸ hhead
  | some e =>
      obtain ⟨right, hright, htext⟩ := bind_eq_ok.mp h
      rw [← pure_eq_ok.mp htext]
      exact (hhead.append (by decide)).append (hq.expr_flat (hvalue e rfl) hright)

theorem sentence_edges {x : Stmt} (hx : q.Contains (.stmt x)) (h : x.Sentence text) :
    Edges false false (Java.line n text) := by
  have hchild {m : Node} (hm : m ∈ x.children) : q.Contains m := hx.child hm
  cases h with
  | @expression offset value text htext =>
      have hvalue := hchild List.mem_cons_self
      exact edges_line n (hq.head_front hx rfl hvalue htext) (by decide)
  | @declaration offset name typeName value v text htext =>
      have hname : Front v.javaName := (hq.named _ hx).front List.mem_cons_self
      have hvalue : ∀ e ∈ value, q.Contains (.expr e) := fun e he =>
        hchild (List.mem_map_of_mem (Option.mem_toList.mpr he))
      exact edges_line n (hq.declarator_front hname.flat hvalue htext) (by decide)
  | @assignment offset receiver value left right hleft hright =>
      have hreceiver := hq.head_front hx rfl (hchild List.mem_cons_self) hleft
      have hvalue := hq.expr_flat (hchild (List.mem_cons_of_mem _ List.mem_cons_self)) hright
      exact edges_line n ((hreceiver.append (by decide)).append hvalue) (by decide)
  | bareReturn => exact Edges.indented (by decide) (by decide) n
  | @valueReturn offset value text htext =>
      have hvalue := hq.expr_flat (hchild List.mem_cons_self) htext
      exact edges_line n (Front.append (by decide) hvalue) (by decide)

end

mutual

theorem stmt_blocks (hq : q.Printable) (x : Stmt) {n : Nat} {ls : List String}
    (hx : q.Contains (.stmt x)) (h : x.java n = .ok ls) : Blocks ls := by
  have hchild {m : Node} (hm : m ∈ x.children) : q.Contains m := hx.child hm
  cases Stmt.lines_of_java h with
  | sentence hsentence => exact .line (hq.sentence_edges hx hsentence)
  | @ifElse offset condition thenBody elseBody text thenLines elseLines htext hthen helse =>
      have hcondition := hq.expr_flat (hchild List.mem_cons_self) htext
      have hheader : Edges false true (Java.line n ("if (" ++ text ++ ") \x7b")) :=
        edges_line n (Front.append (by decide) hcondition) (by decide)
      have hthen := hq.stmts_blocks thenBody
        (fun y hy => hchild (by simp [Stmt.children, hy])) hthen
      have helse := hq.stmts_blocks elseBody
        (fun y hy => hchild (by simp [Stmt.children, hy])) helse
      have helseLine : Edges true true (Java.line n "\x7d else \x7b") :=
        Edges.indented (by decide) (by decide) n
      split
      · rw [List.append_nil]
        exact .block hheader hthen (edges_close n)
      · exact .blocks hheader hthen helseLine helse (edges_close n)
  | @switch offset condition cases text body htext hbody =>
      have hcondition := hq.expr_flat (hchild List.mem_cons_self) htext
      have hheader : Edges false true (Java.line n ("switch (" ++ text ++ ") \x7b")) :=
        edges_line n (Front.append (by decide) hcondition) (by decide)
      have hbody := hq.cases_blocks cases
        (fun c hc => hchild (by simp [Stmt.children, hc])) hbody
      exact .block hheader hbody (edges_close n)
  | @whileDo offset condition body text bodyLines htext hbody =>
      have hcondition := hq.expr_flat (hchild List.mem_cons_self) htext
      have hbody := hq.stmts_blocks body (fun y hy => hchild (by simp [Stmt.children, hy])) hbody
      exact .inBraces n ((Front.append (by decide) hcondition).append (by decide)) hbody

theorem stmts_blocks (hq : q.Printable) (xs : List Stmt) {n : Nat} {ls : List String}
    (hxs : ∀ x ∈ xs, q.Contains (.stmt x)) (h : Stmt.javaEach n xs = .ok ls) : Blocks ls := by
  cases xs with
  | nil =>
      rw [Stmt.javaEach, pure_eq_ok] at h
      exact h ▸ .nil
  | cons x xs =>
      obtain ⟨hx, hxs⟩ := List.forall_mem_cons.mp hxs
      simp only [Stmt.javaEach, bind_eq_ok, pure_eq_ok] at h
      obtain ⟨first, hfirst, rest, hrest, rfl⟩ := h
      exact (hq.stmt_blocks x hx hfirst).append (hq.stmts_blocks xs hxs hrest)

theorem case_blocks (hq : q.Printable) (c : Case) {n : Nat} {ls : List String}
    (hc : q.Contains (.branch c)) (h : c.java n = .ok ls) : Blocks ls := by
  obtain ⟨offset, value, body⟩ := c
  have hbody : ∀ x ∈ body, q.Contains (.stmt x) := fun x hx =>
    hc.child (List.mem_append_right _ (List.mem_map_of_mem hx))
  cases value with
  | none =>
      simp only [Case.java, bind_eq_ok, pure_eq_ok] at h
      obtain ⟨rest, hrest, rfl⟩ := h
      have hdefault : Edges false false (Java.line n "default:") :=
        Edges.indented (by decide) (by decide) n
      exact (Blocks.line hdefault).append (hq.stmts_blocks body hbody hrest)
  | some value =>
      simp only [Case.java, bind_eq_ok, pure_eq_ok] at h
      obtain ⟨text, htext, rest, hrest, rfl⟩ := h
      have hvalue := hq.expr_flat (hc.child List.mem_cons_self) htext
      have hcase : Edges false false (Java.line n ("case " ++ text ++ ":")) :=
        edges_line n (Front.append (by decide) hvalue) (by decide)
      have hbreak : Edges false false (Java.line (n + 1) "break;") :=
        Edges.indented (by decide) (by decide) (n + 1)
      exact ((Blocks.line hcase).append (hq.stmts_blocks body hbody hrest)).append (.line hbreak)

theorem cases_blocks (hq : q.Printable) (cs : List Case) {n : Nat} {ls : List String}
    (hcs : ∀ c ∈ cs, q.Contains (.branch c)) (h : Case.javaEach n cs = .ok ls) : Blocks ls := by
  cases cs with
  | nil =>
      rw [Case.javaEach, pure_eq_ok] at h
      exact h ▸ .nil
  | cons c cs =>
      obtain ⟨hc, hcs⟩ := List.forall_mem_cons.mp hcs
      simp only [Case.javaEach, bind_eq_ok, pure_eq_ok] at h
      obtain ⟨first, hfirst, rest, hrest, rfl⟩ := h
      exact (hq.case_blocks c hc hfirst).append (hq.cases_blocks cs hcs hrest)

end

theorem global_edges (hq : q.Printable) {g : Global} (hg : q.Contains (.global g))
    (h : g.java = .ok text) : Edges false false text := by
  cases hslot : g.slot with
  | none =>
      rw [Global.java, hslot] at h
      cases h
  | some v =>
      simp only [Global.java, hslot, bind_eq_ok, pure_eq_ok] at h
      obtain ⟨field, hfield, rfl⟩ := h
      have hname : Front v.javaName := (hq.named _ hg).front (by simp [Node.javaNames, hslot])
      have hvalue : ∀ e ∈ g.value, q.Contains (.expr e) := fun e he =>
        hg.child (List.mem_map_of_mem (Option.mem_toList.mpr he))
      have hfront := hq.declarator_front hname.flat hvalue hfield
      refine edges_line 1 ?_ (by decide)
      split
      · exact hfront
      · exact Front.append (by decide) hfront.flat

theorem header_front (hq : q.Printable) {f : Function} {s : Signature}
    (hf : q.Contains (.function f)) (hslot : f.slot = some s) : Front (f.javaHeader s) := by
  have hnames : ∀ w ∈ s.javaName :: (f.parameters.zip s.parameters).map Prod.fst, Front w :=
    fun w hw => (hq.named _ hf).front (by simpa [Node.javaNames, hslot] using hw)
  obtain ⟨hname, hparameters⟩ := List.forall_mem_cons.mp hnames
  have hparameters : ∀ text ∈ (f.parameters.zip s.parameters).map
      (fun p => p.2.java ++ " " ++ p.1), Flat text := by
    refine List.forall_mem_map.mpr fun p hp => ?_
    have hspace := p.2.java_front.append (by decide : Flat " ")
    exact (hspace.append (hparameters p.1 (List.mem_map_of_mem hp)).flat).flat
  have hhead := (s.returns.java_front.append (by decide : Flat " ")).append hname.flat
  exact ((hhead.append (by decide)).append (flat_intercalate (by decide) hparameters)).append
    (by decide)

theorem function_blocks (hq : q.Printable) {f : Function} {ls : List String}
    (hf : q.Contains (.function f)) (h : f.java = .ok ls) : Blocks ls := by
  cases hslot : f.slot with
  | none =>
      rw [Function.java, hslot] at h
      cases h
  | some s =>
      simp only [Function.java, hslot, bind_eq_ok, pure_eq_ok] at h
      obtain ⟨body, hbody, rfl⟩ := h
      have hbody := hq.stmts_blocks f.body (fun x hx => hf.child (List.mem_map_of_mem hx)) hbody
      exact .inBraces 1 (hq.header_front hf hslot) hbody

end Program.Printable

theorem Java.exists_of_mapM {α β : Type} {f : α → Result β} {as : List α} {bs : List β}
    (h : as.mapM f = .ok bs) : ∀ b ∈ bs, ∃ a ∈ as, f a = .ok b := by
  induction as generalizing bs with
  | nil =>
      rw [List.mapM_nil, pure_eq_ok] at h
      subst h
      exact nofun
  | cons a as ih =>
      simp only [List.mapM_cons, bind_eq_ok, pure_eq_ok] at h
      obtain ⟨b, hb, rest, hrest, rfl⟩ := h
      refine List.forall_mem_cons.mpr ⟨⟨a, List.mem_cons_self, hb⟩, fun b' hb' => ?_⟩
      obtain ⟨a', ha', hfa⟩ := ih hrest b' hb'
      exact ⟨a', List.mem_cons_of_mem a ha', hfa⟩

namespace Program

variable {text : String} {p q : Program} {depth : Nat} {lines : List String}

theorem Printable.exists_body (hq : q.Printable) (h : q.javaLines = .ok lines) :
    ∃ body, lines = "public class Main \x7b" :: body ++ ["\x7d"] ∧ Blocks body := by
  simp only [javaLines, bind_eq_ok, pure_eq_ok] at h
  obtain ⟨globals, hglobals, functions, hfunctions, rfl⟩ := h
  have hblank : Blocks [""] := .line (by decide)
  have hfields : Blocks (if globals.isEmpty then [] else globals ++ [""]) := by
    split
    · exact .nil
    · refine (Blocks.plain fun l hl => ?_).append hblank
      obtain ⟨g, hg, hl⟩ := exists_of_mapM hglobals l hl
      exact hq.global_edges ⟨_, List.mem_append_left _ (List.mem_map_of_mem hg), .refl⟩ hl
  have hcall : Blocks [Java.line 2 "System.exit(new Main().main());"] :=
    .line (Edges.indented (by decide) (by decide) 2)
  have hentry : Blocks entry :=
    .block (Edges.indented (by decide) (by decide) 1) hcall (edges_close 1)
  have hmethods : Blocks (functions.flatMap ("" :: ·)) := by
    rw [List.flatMap_def]
    refine .flatten (List.forall_mem_map.mpr fun ls hls => ?_)
    obtain ⟨f, hf, hls⟩ := exists_of_mapM hfunctions ls hls
    exact hblank.append
      (hq.function_blocks ⟨_, List.mem_append_right _ (List.mem_map_of_mem hf), .refl⟩ hls)
  refine ⟨[""] ++ (if globals.isEmpty then [] else globals ++ [""]) ++ entry ++
    functions.flatMap ("" :: ·) ++ [""], ?_, ?_⟩
  · simp
  · exact (((hblank.append hfields).append hentry).append hmethods).append hblank

theorem printable (h : ofText text = .ok p) (hq : p.checkWithin depth = .ok q) : q.Printable := by
  refine ⟨fun n => named h hq, fun x hx => ?_⟩
  obtain ⟨_, _, _, _, _, _, hx⟩ := (typed_of_checkWithin hq).accepted hx
  exact hx.names_ne_nil

/-- The lines of a program in Java. -/
structure WellLaid (q : Program) (lines : List String) : Prop where
  /-- They are what the emitter writes, and it ends at the level at which it began. -/
  emitted : q.emit {} = .ok ((), ⟨lines, 0⟩)
  flat : ∀ l ∈ lines, '\n' ∉ l.toList ∧ '\r' ∉ l.toList
  /-- The lines of the text are the lines written, each with an end of its own. The text is given
  unless it takes too many calls. -/
  text : ∃ java, q.javaText = .ok java ∧
    (q.java = if q.javaFrames ≤ frameLimit then .ok java else .error .tooDeep) ∧
    java.toList.splitOn '\n' = lines.map String.toList ++ [[]]
  /-- Emitted at any level, a statement has the lines that it has at level zero, each behind four
  spaces for every level, and the level is left as it was. -/
  statements : ∀ x, q.Contains (.stmt x) → ∃ own, x.emit {} = .ok ((), ⟨own, 0⟩) ∧
    ∀ (before : List String) (n : Nat), x.emit ⟨before, n⟩ =
      .ok ((), ⟨before ++ own.map ("".pushn ' ' (4 * n) ++ ·), n⟩)
  /-- The nesting begins and ends at zero, and is above it behind each line but the last. -/
  nested : ∃ ms, nestings 0 lines = some (ms ++ [0]) ∧ ∀ m ∈ ms, 0 < m

theorem java_lines (h : ofText text = .ok p) (hq : p.checkWithin depth = .ok q) :
    ∃ lines, q.javaLines = .ok lines ∧ q.WellLaid lines := by
  have htyped := typed_of_checkWithin hq
  have hprintable := printable h hq
  obtain ⟨text, htext, hjava⟩ := htyped.emits
  obtain ⟨lines, hlines, hjoined⟩ := bind_eq_ok.mp htext
  obtain ⟨body, rfl, hblocks⟩ := hprintable.exists_body hlines
  have hfirst : Edges false true "public class Main \x7b" := by decide
  have hlast : Edges true false "\x7d" := by decide
  have hflat := (Blocks.block hfirst hblocks hlast).flat
  refine ⟨_, hlines, ?_, fun l hl => flat_iff.mp (hflat l hl), ⟨text, htext, hjava, ?_⟩,
    fun x hx => ?_, ?_⟩
  · have hemit := q.emit_writes []
    rw [hlines] at hemit
    exact hemit
  · rw [← pure_eq_ok.mp hjoined]
    exact splitOn_join hflat
  · obtain ⟨_, _, _, _, _, _, hx⟩ := htyped.accepted hx
    obtain ⟨own, hown⟩ := hx.emits 0
    refine ⟨own, ?_, fun before n => ?_⟩
    · have hemit := x.emit_writes 0 []
      rw [hown] at hemit
      exact hemit
    · have hemit := x.emit_writes n before
      have hindented := x.java_indented n 0
      rw [Nat.zero_add, hown] at hindented
      rw [hindented] at hemit
      exact hemit
  · obtain ⟨ms, hms, hle⟩ := hblocks.nests 1
    refine ⟨1 :: ms, ?_, List.forall_mem_cons.mpr ⟨Nat.one_pos, hle⟩⟩
    exact (Blocks.nests_block hfirst hms hlast).nestings_eq

/-- `FUN main(): Integer DO IF TRUE DO print("\x7b\n"); ELSE RETURN 1; END RETURN 0; END` -/
def branching : Program :=
  ⟨[], [⟨0, "main", [], [], some "Integer", [
    .ifElse 23 (.literal ⟨26, none⟩ (.boolean true))
      [.expression 34 (.call ⟨34, none⟩ "print" [.literal ⟨40, none⟩ (.string "\x7b\n")] none)]
      [.ret 53 (some (.literal ⟨60, none⟩ (.integer 1)))],
    .ret 67 (some (.literal ⟨74, none⟩ (.integer 0)))], none⟩]⟩

def branchingChecked : Program :=
  ⟨[], [⟨0, "main", [], [], some "Integer", [
    .ifElse 23 (.literal ⟨26, some .boolean⟩ (.boolean true))
      [.expression 34 (.call ⟨34, some .nil⟩ "print"
        [.literal ⟨40, some .string⟩ (.string "\x7b\n")] (some .print))]
      [.ret 53 (some (.literal ⟨60, some .integer⟩ (.integer 1)))],
    .ret 67 (some (.literal ⟨74, some .integer⟩ (.integer 0)))],
    some ⟨"main", "main", [], .integer⟩⟩]⟩

theorem branching_ofText : ofText
    "FUN main(): Integer DO IF TRUE DO print(\"\x7b\\n\"); ELSE RETURN 1; END RETURN 0; END" =
      .ok branching := by
  let ts : List Token := [⟨.identifier, "FUN", 0⟩, ⟨.identifier, "main", 4⟩, ⟨.operator, "(", 8⟩,
    ⟨.operator, ")", 9⟩, ⟨.operator, ":", 10⟩, ⟨.identifier, "Integer", 12⟩,
    ⟨.identifier, "DO", 20⟩, ⟨.identifier, "IF", 23⟩, ⟨.identifier, "TRUE", 26⟩,
    ⟨.identifier, "DO", 31⟩, ⟨.identifier, "print", 34⟩, ⟨.operator, "(", 39⟩,
    ⟨.string, "\"\x7b\\n\"", 40⟩, ⟨.operator, ")", 45⟩, ⟨.operator, ";", 46⟩,
    ⟨.identifier, "ELSE", 48⟩, ⟨.identifier, "RETURN", 53⟩, ⟨.integer, "1", 60⟩,
    ⟨.operator, ";", 61⟩, ⟨.identifier, "END", 63⟩, ⟨.identifier, "RETURN", 67⟩,
    ⟨.integer, "0", 74⟩, ⟨.operator, ";", 75⟩, ⟨.identifier, "END", 77⟩]
  exact ofText_eq_ok.mpr ⟨ts, by decide +kernel, rfl⟩

/-- A brace and a line end in a string do not count. -/
theorem branching_java_lines :
    ∃ lines, branchingChecked.javaLines = .ok lines ∧ branchingChecked.WellLaid lines ∧
      nestings 0 lines = some [1, 1, 2, 2, 1, 1, 2, 3, 3, 3, 3, 2, 2, 1, 1, 0] ∧
      lines = ["public class Main \x7b", "",
        "    public static void main(String[] args) \x7b",
        "        System.exit(new Main().main());", "    \x7d", "", "    int main() \x7b",
        "        if (true) \x7b", "            System.out.println(\"\x7b\\n\");",
        "        \x7d else \x7b", "            return 1;", "        \x7d", "        return 0;",
        "    \x7d", "", "\x7d"] := by
  have hcheck : branching.checkWithin 20 = .ok branchingChecked := rfl
  obtain ⟨lines, hlines, hlaid⟩ := java_lines branching_ofText hcheck
  obtain rfl := Except.ok.inj hlines
  exact ⟨_, rfl, hlaid, by decide, rfl⟩

end Program

end PlcLang
