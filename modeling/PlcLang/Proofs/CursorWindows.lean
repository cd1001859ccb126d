import PlcLang.Proofs.LexerExact

namespace PlcLang

/-- A token with the index that the cursor had when it gave the token. -/
structure Emission where
  token : Token
  stop : Nat

namespace Emission

/-- The token has the characters from its offset up to the index, as far as the text has any. -/
structure Covers (e : Emission) (text : String) : Prop where
  offset_le : e.token.offset ≤ e.stop
  text_eq : e.token.text.toList =
    (text.toList.drop e.token.offset).take (e.stop - e.token.offset)

/-- The window of the one ends where that of the other begins, or further in front. -/
def Before (e f : Emission) : Prop := e.stop ≤ f.token.offset

end Emission

namespace Cursor

inductive Action
  | peek (classes : List (Char → Bool))
  | accept (classes : List (Char → Bool))
  | advance
  | skip
  | emit (kind : TokenKind)
  | token

/-- The single steps of an action. -/
inductive Move
  | look
  | advance
  | skip
  | emit (kind : TokenKind)

def perform (c : Cursor) : Action → Option Token × Cursor
  | .peek _ => (none, c)
  | .accept classes => (none, (c.accept classes).2)
  | .advance => (none, c.advance)
  | .skip => (none, c.skip)
  | .emit kind => (some (c.emit kind).1, (c.emit kind).2)
  | .token => (c.token.1.toOption, c.token.2)

def results (c : Cursor) : List Action → List (Option Token × Cursor)
  | [] => []
  | a :: rest => c.perform a :: results (c.perform a).2 rest

def move (c : Cursor) : Move → Cursor
  | .look => c
  | .advance => c.advance
  | .skip => c.skip
  | .emit kind => (c.emit kind).2

def emission? (c : Cursor) : Move → Option Emission
  | .emit kind => some ⟨(c.emit kind).1, c.index⟩
  | _ => none

/-- A token that breaks off has moved the cursor up to there. -/
def movesOf (c : Cursor) : Action → List Move
  | .peek _ => [.look]
  | .accept classes =>
    .look :: if c.sees classes then List.replicate classes.length .advance else []
  | .advance => [.advance]
  | .skip => [.skip]
  | .emit kind => [.emit kind]
  | .token =>
    .look :: (List.replicate (Lexeme.read c.rest).taken .advance ++
      match (Lexeme.read c.rest).outcome with
      | .ok kind => [.emit kind]
      | .error _ => [])

def moves (c : Cursor) : List Action → List Move
  | [] => []
  | a :: rest => c.movesOf a ++ moves (c.perform a).2 rest

def path (c : Cursor) : List Move → List Cursor
  | [] => []
  | m :: ms => c.move m :: path (c.move m) ms

def emissions (c : Cursor) : List Move → List Emission
  | [] => []
  | m :: ms => (c.emission? m).toList ++ emissions (c.move m) ms

def start (c : Cursor) : Nat := c.index - c.length

/-- The cursor stands on the text or past its end, and its window has the characters that the text
has there. -/
structure Over (c : Cursor) (text : String) : Prop where
  length_le : c.length ≤ c.index
  rest_eq : c.rest = text.toList.drop c.index
  pending_eq : c.pending.reverse = (text.toList.drop c.start).take c.length

section Moves

variable {c : Cursor} {text : String} {m : Move}

theorem index_advance (c : Cursor) : c.advance.index = c.index + 1 := advanceBy_index 1 c

theorem length_advance (c : Cursor) : c.advance.length = c.length + 1 := by
  unfold advance
  split <;> rfl

theorem start_advance (c : Cursor) : c.advance.start = c.start := by
  rw [start, index_advance, length_advance, Nat.add_sub_add_right, start]

theorem start_skip (c : Cursor) : c.skip.start = c.index := Nat.sub_zero _

theorem start_le_index (c : Cursor) : c.start ≤ c.index := Nat.sub_le _ _

theorem over_ofText (text : String) : (ofText text).Over text := ⟨Nat.le_refl 0, rfl, rfl⟩

theorem Over.skip (h : c.Over text) : c.skip.Over text := ⟨Nat.zero_le _, h.rest_eq, rfl⟩

theorem Over.advance (h : c.Over text) : c.advance.Over text := by
  have hstart : c.start + c.length = c.index := Nat.sub_add_cancel h.length_le
  refine ⟨?_, ?_, ?_⟩
  · rw [index_advance, length_advance]
    exact Nat.succ_le_succ h.length_le
  · rw [advance_rest, index_advance, h.rest_eq, List.tail_drop]
  · have hnext : (text.toList.drop c.start)[c.length]? = c.rest.head? := by
      rw [List.getElem?_drop, hstart, h.rest_eq, List.head?_drop]
    rw [start_advance, length_advance, List.take_add_one, ← h.pending_eq, hnext]
    unfold Cursor.advance
    split
    · next hrest => simp [hrest]
    · next ch rest hrest => simp [hrest]

theorem Over.move (h : c.Over text) (m : Move) : (c.move m).Over text := by
  cases m with
  | look => exact h
  | advance => exact h.advance
  | skip | emit => exact h.skip

theorem index_le_move (c : Cursor) (m : Move) : c.index ≤ (c.move m).index := by
  cases m with
  | advance =>
      rw [move, index_advance]
      exact Nat.le_succ _
  | look | skip | emit => exact Nat.le_refl _

theorem start_le_move (c : Cursor) (m : Move) : c.start ≤ (c.move m).start := by
  cases m with
  | look => exact Nat.le_refl _
  | advance => exact Nat.le_of_eq (start_advance c).symm
  | skip | emit => exact (start_le_index c).trans_eq (start_skip c).symm

theorem emission?_eq_some {e : Emission} (h : c.emission? m = some e) :
    e.token.offset = c.start ∧ e.stop = (c.move m).start ∧ e.stop = c.index ∧
      e.token.text.toList = c.pending.reverse := by
  cases m with
  | emit kind =>
      obtain rfl := Option.some.inj h
      exact ⟨rfl, (start_skip c).symm, rfl, String.toList_ofList⟩
  | look | advance | skip => cases h

theorem Over.covers (h : c.Over text) {e : Emission} (he : c.emission? m = some e) :
    e.Covers text := by
  obtain ⟨hoffset, _, hstop, htext⟩ := emission?_eq_some he
  have hwidth : c.index - c.start = c.length := Nat.sub_sub_self h.length_le
  refine ⟨?_, ?_⟩
  · rw [hoffset, hstop]
    exact start_le_index c
  · rw [htext, h.pending_eq, hoffset, hstop, hwidth]

end Moves

section Paths

variable {c d : Cursor} {text : String} {e : Emission} {ms : List Move}

theorem path_append (c : Cursor) (ms ns : List Move) :
    c.path (ms ++ ns) = c.path ms ++ (ms.foldl move c).path ns := by
  induction ms generalizing c with
  | nil => rfl
  | cons m ms ih => rw [List.cons_append, path, path, ih, List.cons_append, List.foldl_cons]

theorem emissions_append (c : Cursor) (ms ns : List Move) :
    c.emissions (ms ++ ns) = c.emissions ms ++ (ms.foldl move c).emissions ns := by
  induction ms generalizing c with
  | nil => rfl
  | cons m ms ih =>
      rw [List.cons_append, emissions, emissions, ih, List.append_assoc, List.foldl_cons]

theorem foldl_mem_path (hms : ms ≠ []) (c : Cursor) : ms.foldl move c ∈ c.path ms := by
  induction ms generalizing c with
  | nil => exact absurd rfl hms
  | cons m ms ih =>
      rw [List.foldl_cons, path]
      cases ms with
      | nil => exact List.mem_cons_self
      | cons n ms => exact List.mem_cons_of_mem _ (ih (List.cons_ne_nil n ms) _)

theorem Over.of_mem_path (h : c.Over text) (hd : d ∈ c.path ms) : d.Over text := by
  induction ms generalizing c with
  | nil => cases hd
  | cons m ms ih =>
      obtain rfl | hd := List.mem_cons.mp hd
      · exact h.move m
      · exact ih (h.move m) hd

theorem index_le_of_mem_path (hd : d ∈ c.path ms) : c.index ≤ d.index := by
  induction ms generalizing c with
  | nil => cases hd
  | cons m ms ih =>
      obtain rfl | hd := List.mem_cons.mp hd
      · exact index_le_move c m
      · exact (index_le_move c m).trans (ih hd)

theorem path_forward (c : Cursor) (ms : List Move) :
    (c.path ms).Pairwise fun d d' => d.index ≤ d'.index := by
  induction ms generalizing c with
  | nil => exact .nil
  | cons m ms ih => exact .cons (fun _ => index_le_of_mem_path) (ih _)

theorem start_le_offset (he : e ∈ c.emissions ms) : c.start ≤ e.token.offset := by
  induction ms generalizing c with
  | nil => cases he
  | cons m ms ih =>
      obtain he | he := List.mem_append.mp he
      · rw [(emission?_eq_some (Option.mem_toList.mp he)).1]
      · exact (start_le_move c m).trans (ih he)

theorem emissions_before (c : Cursor) (ms : List Move) :
    (c.emissions ms).Pairwise Emission.Before := by
  induction ms generalizing c with
  | nil => exact .nil
  | cons m ms ih =>
      refine List.pairwise_append.mpr ⟨?_, ih _, ?_⟩
      · cases m with
        | emit kind => exact List.pairwise_singleton _ _
        | look | advance | skip => exact .nil
      · intro e he f hf
        have hstop := (emission?_eq_some (Option.mem_toList.mp he)).2.1
        exact hstop.trans_le (start_le_offset hf)

theorem Over.covers_of_mem (h : c.Over text) (he : e ∈ c.emissions ms) : e.Covers text := by
  induction ms generalizing c with
  | nil => cases he
  | cons m ms ih =>
      obtain he | he := List.mem_append.mp he
      · exact h.covers (Option.mem_toList.mp he)
      · exact ih (h.move m) he

end Paths

section Actions

variable (c : Cursor)

theorem foldl_advance (n : Nat) : (List.replicate n .advance).foldl move c = c.advanceBy n := by
  induction n generalizing c with
  | zero => rfl
  | succ n ih => exact ih c.advance

theorem emissions_advance (n : Nat) : c.emissions (List.replicate n .advance) = [] := by
  induction n generalizing c with
  | zero => rfl
  | succ n ih => exact ih c.advance

theorem movesOf_ne_nil (a : Action) : c.movesOf a ≠ [] := by
  cases a <;> exact List.cons_ne_nil _ _

theorem perform_eq (a : Action) :
    (c.movesOf a).foldl move c = (c.perform a).2 ∧
      (c.emissions (c.movesOf a)).map Emission.token = (c.perform a).1.toList := by
  cases a with
  | peek | advance | skip | emit => exact ⟨rfl, rfl⟩
  | accept classes =>
      rw [perform, movesOf, accept]
      split
      · exact ⟨foldl_advance c _, congrArg (List.map _) (emissions_advance c _)⟩
      · exact ⟨rfl, rfl⟩
  | token =>
      have htoken : c.token =
          (c.advanceBy (Lexeme.read c.rest).taken).finish (Lexeme.read c.rest).outcome := rfl
      rw [perform, movesOf, List.foldl_cons, emissions, List.foldl_append, emissions_append,
        foldl_advance, emissions_advance, htoken]
      cases (Lexeme.read c.rest).outcome with
      | ok kind => exact ⟨rfl, rfl⟩
      | error cause => exact ⟨rfl, rfl⟩

theorem results_sublist (actions : List Action) :
    ((c.results actions).map Prod.snd).Sublist (c.path (c.moves actions)) := by
  induction actions generalizing c with
  | nil => exact .slnil
  | cons a rest ih =>
      obtain ⟨hcursor, _⟩ := perform_eq c a
      have hmem := foldl_mem_path (movesOf_ne_nil c a) c
      rw [hcursor] at hmem
      rw [moves, path_append, hcursor]
      exact (List.singleton_sublist.mpr hmem).append (ih _)

theorem results_tokens (actions : List Action) :
    (c.results actions).filterMap Prod.fst =
      (c.emissions (c.moves actions)).map Emission.token := by
  induction actions generalizing c with
  | nil => rfl
  | cons a rest ih =>
      obtain ⟨hcursor, htoken⟩ := perform_eq c a
      rw [moves, emissions_append, List.map_append, hcursor, htoken, ← ih, results]
      cases h : (c.perform a).1 with
      | none => rw [List.filterMap_cons_none h]; rfl
      | some t => rw [List.filterMap_cons_some h]; rfl

end Actions

/-- Actions on a text, in any order, are made of moves. Behind each move the window is not wider
than the index, and no move takes the index back. The windows of the tokens that are given stand
one after the other without a common character, and each token has the characters of its window. -/
theorem windows_in_order (text : String) (actions : List Action) :
    let c := ofText text
    let moves := c.moves actions
    ((c.results actions).map Prod.snd).Sublist (c.path moves) ∧
      (c.results actions).filterMap Prod.fst = (c.emissions moves).map Emission.token ∧
      (∀ d ∈ c.path moves, d.length ≤ d.index) ∧
      ((c.path moves).Pairwise fun d d' => d.index ≤ d'.index) ∧
      (c.emissions moves).Pairwise Emission.Before ∧
      ∀ e ∈ c.emissions moves, e.Covers text := by
  intro c moves
  have hover : c.Over text := over_ofText text
  refine ⟨results_sublist c actions, results_tokens c actions, ?_, ?_, ?_, ?_⟩
  · exact fun d hd => (hover.of_mem_path hd).length_le
  · exact path_forward c moves
  · exact emissions_before c moves
  · exact fun e => hover.covers_of_mem

/-- What is left of a token that broke off belongs to the next one. -/
example : ((ofText "1.x").results [.token, .token]).map Prod.fst =
    [none, some ⟨.identifier, "1.x", 0⟩] := by
  decide

end Cursor

end PlcLang
