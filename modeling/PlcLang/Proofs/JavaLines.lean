import PlcLang.Proofs.BrokenLexemes
import PlcLang.Proofs.JavaEmitter
import PlcLang.Proofs.JavaNames
import PlcLang.Proofs.NumberTexts

namespace PlcLang

open Java

namespace Lexeme

instance (c : Char) : Decidable (LineEnd c) := inferInstanceAs (Decidable (c = '\n' ∨ c = '\r'))

theorem LineEnd.blank {c : Char} (h : LineEnd c) : Blank c := by
  obtain rfl | rfl := h <;> decide

theorem NameRest.not_lineEnd {c : Char} (h : NameRest c) : ¬ LineEnd c :=
  fun hline => hline.blank.not_rest h

theorem Letter.not_lineEnd {c : Char} (h : Letter c) : ¬ LineEnd c :=
  fun hline => h.not_blank hline.blank

theorem Digit.not_lineEnd {c : Char} (h : Digit c) : ¬ LineEnd c :=
  fun hline => h.not_blank hline.blank

theorem SignedWhole.not_lineEnd {ds : List Char} (h : SignedWhole ds) : ∀ c ∈ ds, ¬ LineEnd c := by
  cases h with
  | plain h => exact fun c hc => (h.digits_of.2 c hc).not_lineEnd
  | negative h =>
      exact List.forall_mem_cons.mpr ⟨by decide, fun c hc => (h.digits_of.2 c hc).not_lineEnd⟩

theorem Quotable.not_lineEnd {quote : Char} {cs : List Char} (h : Quotable quote cs) :
    ∀ c ∈ cs, ¬ LineEnd c := by
  cases h with
  | plain _ _ hn hr => exact List.forall_mem_singleton.mpr (not_or.mpr ⟨hn, hr⟩)
  | @escape c hc =>
      refine List.forall_mem_cons.mpr ⟨by decide, List.forall_mem_singleton.mpr ?_⟩
      rintro (rfl | rfl)
      · exact absurd hc (by decide)
      · exact absurd hc (by decide)

theorem Is.not_lineEnd {kind : TokenKind} {lexeme rest : List Char} (h : Is kind lexeme rest) :
    ∀ c ∈ lexeme, ¬ LineEnd c := by
  cases h with
  | name hc hcs =>
      exact List.forall_mem_cons.mpr ⟨hc.not_lineEnd, fun d hd => (hcs d hd).not_lineEnd⟩
  | atName hc hcs =>
      refine List.forall_mem_cons.mpr ⟨by decide, ?_⟩
      exact List.forall_mem_cons.mpr ⟨hc.not_lineEnd, fun d hd => (hcs d hd).not_lineEnd⟩
  | integer hds => exact hds.not_lineEnd
  | decimal hds _ hfs =>
      refine List.forall_mem_append.mpr ⟨hds.not_lineEnd, ?_⟩
      exact List.forall_mem_cons.mpr ⟨by decide, fun c hc => (hfs c hc).not_lineEnd⟩
  | character hcs =>
      refine List.forall_mem_append.mpr ⟨List.forall_mem_cons.mpr ⟨by decide, hcs.not_lineEnd⟩, ?_⟩
      exact List.forall_mem_singleton.mpr (by decide)
  | string hparts =>
      refine List.forall_mem_append.mpr ⟨List.forall_mem_cons.mpr ⟨by decide, fun c hc => ?_⟩, ?_⟩
      · obtain ⟨cs, hcs, hc⟩ := List.mem_flatten.mp hc
        exact (hparts cs hcs).not_lineEnd c hc
      · exact List.forall_mem_singleton.mpr (by decide)
  | @double c d _ hcd =>
      have hdoubles : ∀ p ∈ doubles, ¬ LineEnd p.1 ∧ ¬ LineEnd p.2 := by decide
      obtain ⟨hc, hd⟩ := hdoubles (c, d) hcd
      exact List.forall_mem_cons.mpr ⟨hc, List.forall_mem_singleton.mpr hd⟩
  | single hblank => exact List.forall_mem_singleton.mpr fun hline => hblank hline.blank

end Lexeme

namespace Java

def Flat (s : String) : Prop := ∀ c ∈ s.toList, ¬ Lexeme.LineEnd c

-- By name: there is an instance as well that goes through all characters.
instance (s : String) : Decidable (Flat s) :=
  List.decidableBAll (fun c => ¬ Lexeme.LineEnd c) s.toList

theorem flat_iff {s : String} : Flat s ↔ '\n' ∉ s.toList ∧ '\r' ∉ s.toList := by
  refine ⟨fun h => ⟨fun hn => h _ hn (.inl rfl), fun hr => h _ hr (.inr rfl)⟩, ?_⟩
  rintro ⟨hn, hr⟩ c hc (rfl | rfl)
  · exact hn hc
  · exact hr hc

theorem flat_append {s t : String} : Flat (s ++ t) ↔ Flat s ∧ Flat t := by
  simp only [Flat, String.toList_append, List.forall_mem_append]

theorem flat_join {ss : List String} (h : ∀ s ∈ ss, Flat s) : Flat (String.join ss) := by
  intro c hc
  rw [String.toList_join] at hc
  obtain ⟨s, hs, hc⟩ := List.mem_flatMap.mp hc
  exact h s hs c hc

theorem flat_intercalate {sep : String} (hsep : Flat sep) {ss : List String}
    (h : ∀ s ∈ ss, Flat s) : Flat (sep.intercalate ss) := by
  induction ss with
  | nil => exact nofun
  | cons s ss ih =>
      obtain ⟨hs, hss⟩ := List.forall_mem_cons.mp h
      cases ss with
      | nil => rwa [String.intercalate_singleton]
      | cons t ts =>
          rw [String.intercalate_cons_cons]
          exact flat_append.mpr ⟨flat_append.mpr ⟨hs, hsep⟩, ih hss⟩

theorem flat_line {n : Nat} {text : String} (h : Flat text) : Flat (line n text) := by
  intro c hc
  rw [toList_line] at hc
  obtain hc | hc := List.mem_append.mp hc
  · rw [List.eq_of_mem_replicate hc]
    decide
  · exact h c hc

theorem flat_quoted {quote : Char} (hquote : quote = '\'' ∨ quote = '"') (s : String) :
    Flat (quoted quote s) := by
  have hends : ¬ Lexeme.LineEnd quote := by
    obtain rfl | rfl := hquote <;> decide
  intro c hc
  rw [quoted_toList] at hc
  obtain hc | hc := List.mem_append.mp hc
  · obtain rfl | hc := List.mem_cons.mp hc
    · exact hends
    · obtain ⟨d, _, hc⟩ := List.mem_flatMap.mp hc
      exact (quotable_escapeChar hquote d).not_lineEnd c hc
  · rwa [List.mem_singleton.mp hc]

theorem splitOn_join {ls : List String} (h : ∀ l ∈ ls, Flat l) :
    (String.join (ls.map (· ++ "\n"))).toList.splitOn '\n' = ls.map String.toList ++ [[]] := by
  have hends (css : List (List Char)) :
      ['\n'].intercalate (css ++ [[]]) = css.flatMap (· ++ ['\n']) := by
    induction css with
    | nil => rfl
    | cons cs css ih =>
        rw [List.cons_append, List.intercalate_cons_of_ne_nil (by simp), ih, List.flatMap_cons]
  have htext : (String.join (ls.map (· ++ "\n"))).toList =
      ['\n'].intercalate (ls.map String.toList ++ [[]]) := by
    rw [hends, String.toList_join, List.flatMap_map, List.flatMap_map]
    exact List.flatMap_congr fun l _ => String.toList_append
  rw [htext, List.splitOn_intercalate _ ?_ (by simp)]
  have hfree : ∀ cs ∈ ls.map String.toList, '\n' ∉ cs :=
    List.forall_mem_map.mpr fun l hl => (flat_iff.mp (h l hl)).1
  exact List.forall_mem_append.mpr ⟨hfree, List.forall_mem_singleton.mpr List.not_mem_nil⟩

end Java

theorem Literal.ReadBack.flat {value : Literal} {kind : TokenKind} {text : String}
    (h : value.ReadBack kind text) : Flat text :=
  (Token.lexed_of_listOfText h.token _ (List.mem_singleton_self _)).not_lineEnd

theorem Literal.javaText_flat (value : Literal) : Flat value.javaText := by
  cases value with
  | nil => decide
  | boolean b => cases b <;> decide
  | integer n => exact (integer_readBack n).flat
  | decimal d =>
      obtain h | h := lt_or_ge d.exponent 0
      · exact (positional_readBack h).flat
      · obtain ⟨n, hread, _⟩ := positional_readBack_integer h
        exact hread.flat
  | character s => exact flat_quoted (.inl rfl) s
  | string s => exact flat_quoted (.inr rfl) s

theorem Node.Named.flat {n : Node} (h : n.Named) {w : String} (hw : w ∈ n.javaNames) : Flat w := by
  obtain hlexeme | rfl := h.written hw
  · exact hlexeme.not_lineEnd
  · decide

namespace Expr

variable {e : Expr} {text : String}

theorem Writes.flat {piece : Piece} (h : e.Writes piece)
    (hnamed : ∀ n, (Node.expr e).Has n → n.Named) : Flat piece.text := by
  cases h with
  | literal => exact Literal.javaText_flat _
  | name hhas hw => exact (hnamed _ hhas).flat hw
  | @operator op hop => cases op <;> first | decide | cases hop
  | power | comma => decide
  | opening b | closing b => cases b <;> decide

theorem java_flat (hnamed : ∀ n, (Node.expr e).Has n → n.Named) (h : e.java = .ok text) :
    Flat text := by
  obtain ⟨ps, hps, htext⟩ := bind_eq_ok.mp h
  rw [← pure_eq_ok.mp htext]
  exact flat_join (List.forall_mem_map.mpr fun piece hpiece =>
    (e.pieces_written hps piece hpiece).flat hnamed)

end Expr

end PlcLang
