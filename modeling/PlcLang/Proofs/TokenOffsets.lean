import PlcLang.Proofs.CheckedTrees
import PlcLang.Proofs.ErrorOffsets
import PlcLang.Proofs.RunNodes
import PlcLang.Proofs.SourceErrors
import PlcLang.Proofs.TokenSpans

namespace PlcLang

namespace Program

variable {text : String} {ts : List Token} {p : Program}

/-- The places that a program and what becomes of it speak of are places of the tokens. -/
structure Placed (p : Program) (ts : List Token) : Prop where
  /-- Globals and functions stand one after the other. -/
  outermost : Node.LaidEach p.nodes ts
  /-- Each node stands at a part of the tokens, and its children stand within this part. -/
  nodes : ∀ n, p.Contains n → ∃ us, us <:+: ts ∧ n.Laid us
  binaries : ∀ info op left right, p.Contains (.expr (.binary info op left right)) →
    info.offset = left.offset
  violations : ∀ depth v n, p.checkWithin depth = .error v → v.offset = some n →
    ∃ t ∈ ts, t.offset = n
  faults : ∀ depth q l f n, p.checkWithin depth = .ok q →
    (q.runWithin l).result = .error (.fault f) → f.offset = some n → ∃ t ∈ ts, t.offset = n

theorem Derives.placed (h : Derives ts p) : p.Placed ts where
  outermost := h.laid
  nodes _ := h.laid_node
  binaries _ _ _ _ := h.left_offset
  violations depth v n hcheck hv := by
    obtain ⟨node, hnode, rfl⟩ := checkWithin_offset depth hcheck hv
    exact h.offset_mem hnode
  faults depth q l f n hcheck hresult hf := by
    obtain ⟨node, hnode, rfl⟩ := fault_atNode hresult f n rfl hf
    -- The checked tree has the nodes of the parsed one, where the parser has placed them.
    obtain ⟨m, hm, hsame⟩ := hnode.transfer (checkWithin_annotates hcheck).1.symm
    rw [← node.offset_erase, ← hsame, m.offset_erase]
    exact h.offset_mem hm

/-- Every node of a text that parses has the offset of the first of the tokens that it is parsed
from, the tokens of its children stand one after the other among its own, and all violations and
faults of the text that have an offset have that of a token. -/
theorem offsets_at_tokens (h : ofText text = .ok p) :
    ∃ ts, Token.listOfText text = .ok ts ∧ p.Placed ts := by
  obtain ⟨ts, hts, hp⟩ := ofText_eq_ok.mp h
  exact ⟨ts, hts, (derives_of_parsed (Token.lexed_of_listOfText hts) hp).placed⟩

theorem sum_offsets_at_tokens :
    let text := "VAL x: Integer = (1 + 2) * 3;"
    let sum : Expr := .binary ⟨18, none⟩ .add (.literal ⟨18, none⟩ (.integer 1))
      (.literal ⟨22, none⟩ (.integer 2))
    let value : Expr := .binary ⟨17, none⟩ .mul (.group ⟨17, none⟩ sum)
      (.literal ⟨27, none⟩ (.integer 3))
    let p : Program := ⟨[⟨0, "x", "Integer", false, some value, none⟩], []⟩
    ofText text = .ok p ∧ ∃ ts, Token.listOfText text = .ok ts ∧ p.Placed ts := by
  intro text sum value p
  let ts : List Token := [⟨.identifier, "VAL", 0⟩, ⟨.identifier, "x", 4⟩, ⟨.operator, ":", 5⟩,
    ⟨.identifier, "Integer", 7⟩, ⟨.operator, "=", 15⟩, ⟨.operator, "(", 17⟩, ⟨.integer, "1", 18⟩,
    ⟨.operator, "+", 20⟩, ⟨.integer, "2", 22⟩, ⟨.operator, ")", 23⟩, ⟨.operator, "*", 25⟩,
    ⟨.integer, "3", 27⟩, ⟨.operator, ";", 28⟩]
  have hts : Token.listOfText text = .ok ts := by decide +kernel
  have h : ofText text = .ok p := ofText_eq_ok.mpr ⟨ts, hts, rfl⟩
  exact ⟨h, offsets_at_tokens h⟩

end Program

end PlcLang
