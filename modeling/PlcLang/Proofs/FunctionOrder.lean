import Mathlib.Data.List.Perm.Basic
import PlcLang.Proofs.CheckerRelabeling
import PlcLang.Proofs.RunRelabeling

namespace PlcLang

theorem Context.Alike.of_single {ctx ctx' : Context} (h : ctx.frames.length = 1)
    (h' : ctx'.frames.length = 1) (hvars : ctx'.findVariable? = ctx.findVariable?)
    (hfuns : ctx'.findFunction? = ctx.findFunction?) : ctx.Alike .unnumbered ctx' := by
  obtain ⟨frames, fresh⟩ := ctx
  obtain ⟨frames', fresh'⟩ := ctx'
  obtain ⟨frame, rfl⟩ := List.length_eq_one_iff.mp h
  obtain ⟨frame', rfl⟩ := List.length_eq_one_iff.mp h'
  have hvariable (f : Frame Variable Signature) (name : String) :
      Scope.findVariable? [f] name = f.findVariable? name :=
    (Scope.findVariable?_cons f [] name).trans Option.or_none
  have hfunction (f : Frame Variable Signature) (name : String) (arity : Nat) :
      Scope.findFunction? [f] name arity = f.findFunction? name arity :=
    (Scope.findFunction?_cons f [] name arity).trans Option.or_none
  refine ⟨.cons ⟨fun name => ?_, ?_⟩ .nil, fun _ => rfl⟩
  · rw [← hvariable frame, ← hvariable frame']
    exact congrArg (Option.map _) (congrFun hvars name)
  · funext name arity
    rw [← hfunction frame, ← hfunction frame']
    exact congrFun (congrFun hfuns name) arity

namespace Function

theorem checkBody_frames {depth : Nat} {ctx : Context} {f : Function} {s : Signature}
    {r : Function × Context} (h : f.checkBody depth ctx s = .ok r) : r.2.frames = ctx.frames := by
  simp only [checkBody, Check.bind_eq_ok] at h
  obtain ⟨inner, _, h⟩ := h
  split at h
  · cases h
    rfl
  · cases h

/-- What the function comes to with its body checked, where numbers do not count. -/
def checked? (depth : Nat) (ctx : Context) (pair : Function × Signature) : Option Function :=
  match (pair.1.relabel .unnumbered).checkBody depth ctx pair.2 with
  | .ok r => some (r.1.relabel .unnumbered)
  | .error _ => none

theorem checked?_of_alike (depth : Nat) {ctx ctx' : Context} (h : ctx.Alike .unnumbered ctx')
    (f : Function) (s : Signature) :
    (∃ r, f.checkBody depth ctx s = .ok r ∧ r.2.Alike .unnumbered ctx' ∧
      checked? depth ctx' (f, s) = some (r.1.relabel .unnumbered)) ∨
    ∃ v, f.checkBody depth ctx s = .error v ∧ checked? depth ctx' (f, s) = none := by
  have hbody := f.checkBody_alike h depth s
  unfold checked?
  cases hr : f.checkBody depth ctx s with
  | ok r =>
      cases hr' : (f.relabel .unnumbered).checkBody depth ctx' s with
      | ok r' =>
          rw [hr, hr'] at hbody
          cases hbody with
          | ok hbody =>
              refine .inl ⟨r, rfl, ⟨?_, fun _ => rfl⟩, congrArg some hbody.1⟩
              rw [checkBody_frames hr]
              exact h.frames
      | error v =>
          rw [hr, hr'] at hbody
          cases hbody
  | error v =>
      cases hr' : (f.relabel .unnumbered).checkBody depth ctx' s with
      | ok r' =>
          rw [hr, hr'] at hbody
          cases hbody
      | error v' => exact .inr ⟨v, rfl, rfl⟩

end Function

namespace Program

theorem checkBodies_ok {depth : Nat} {ctx ctx' : Context} (h : ctx.Alike .unnumbered ctx')
    {done gs : List Function} {pairs : List (Function × Signature)}
    (hok : checkBodies depth ctx done pairs = .ok gs) : ∃ rest, gs = done.reverse ++ rest ∧
      List.Forall₂ (fun pair g => Function.checked? depth ctx' pair =
        some (g.relabel .unnumbered)) pairs rest := by
  induction pairs generalizing ctx done with
  | nil =>
      cases hok
      exact ⟨[], (List.append_nil _).symm, .nil⟩
  | cons pair pairs ih =>
      obtain ⟨f, s⟩ := pair
      obtain ⟨r, hr, hctx, hchecked⟩ | ⟨v, hv, _⟩ := Function.checked?_of_alike depth h f s
      · rw [checkBodies, hr] at hok
        obtain ⟨rest, rfl, hrest⟩ := ih hctx hok
        exact ⟨r.1 :: rest, by simp, .cons hchecked hrest⟩
      · rw [checkBodies, hv] at hok
        cases hok

theorem checkBodies_of_checked {depth : Nat} {ctx ctx' : Context}
    (h : ctx.Alike .unnumbered ctx') (done : List Function) {pairs : List (Function × Signature)}
    (hall : ∀ pair ∈ pairs, (Function.checked? depth ctx' pair).isSome) :
    ∃ gs, checkBodies depth ctx done pairs = .ok gs := by
  induction pairs generalizing ctx done with
  | nil => exact ⟨_, rfl⟩
  | cons pair pairs ih =>
      obtain ⟨f, s⟩ := pair
      obtain ⟨hf, hall⟩ := List.forall_mem_cons.mp hall
      obtain ⟨r, hr, hctx, _⟩ | ⟨v, _, hnone⟩ := Function.checked?_of_alike depth h f s
      · obtain ⟨gs, hgs⟩ := ih hctx (r.1 :: done) hall
        refine ⟨gs, ?_⟩
        rw [checkBodies, hr]
        exact hgs
      · rw [hnone] at hf
        cases hf

theorem NewSignatures.perm {known : List Signature} {fs fs' : List Function}
    {signatures : List Signature} (h : NewSignatures known fs signatures) (hperm : fs.Perm fs') :
    ∃ signatures', NewSignatures known fs' signatures' ∧ signatures.Perm signatures' ∧
      (fs.zip signatures).Perm (fs'.zip signatures') := by
  obtain ⟨hfs, hnodup, hfresh⟩ := h
  have hpairs : List.Forall₂ (fun f pair => pair.1 = f ∧ f.Declares pair.2) fs
      (fs.zip signatures) := by
    clear hperm hnodup hfresh
    induction hfs with
    | nil => exact .nil
    | cons hf _ ih => exact .cons ⟨rfl, hf⟩ ih
  obtain ⟨pairs, hpairs', hzip⟩ := List.perm_comp_forall₂ hperm.symm hpairs
  have hsnd : pairs.Perm (fs.zip signatures) → (pairs.map Prod.snd).Perm signatures := by
    intro hzip
    have hmap := hzip.map Prod.snd
    rwa [List.map_snd_zip (Nat.le_of_eq hfs.length_eq.symm)] at hmap
  have hfs' : List.Forall₂ Function.Declares fs' (pairs.map Prod.snd) ∧
      fs'.zip (pairs.map Prod.snd) = pairs := by
    clear hsnd hzip hperm
    induction hpairs' with
    | nil => exact ⟨.nil, rfl⟩
    | @cons f pair _ _ hpair _ ih =>
        obtain ⟨rfl, hdeclares⟩ := hpair
        exact ⟨.cons hdeclares ih.1, congrArg (pair :: ·) ih.2⟩
  refine ⟨pairs.map Prod.snd, ⟨hfs'.1, ?_, ?_⟩, (hsnd hzip).symm, ?_⟩
  · exact ((hsnd hzip).map Signature.key).nodup_iff.mpr hnodup
  · exact fun s hs => hfresh s ((hsnd hzip).mem_iff.mp hs)
  · rw [hfs'.2]
    exact hzip.symm

theorem declared_alike {ctx : Context} (hctx : ctx.Functions [.print])
    {signatures signatures' : List Signature} (hnodup : (signatures.map Signature.key).Nodup)
    (hfresh : ∀ s ∈ signatures, s.key ∉ [Signature.print].map Signature.key)
    (hperm : signatures.Perm signatures') :
    (signatures.foldl Context.putFunction ctx).Alike .unnumbered
      (signatures'.foldl Context.putFunction ctx) := by
  have hnodup' := (hperm.map Signature.key).nodup_iff.mp hnodup
  have hfuns := functions_foldl hctx hnodup hfresh
  have hfuns' := functions_foldl hctx hnodup' fun s hs => hfresh s (hperm.mem_iff.mpr hs)
  have hall {signatures : List Signature} (hnodup : (signatures.map Signature.key).Nodup)
      (hfresh : ∀ s ∈ signatures, s.key ∉ [Signature.print].map Signature.key) :
      (([Signature.print] ++ signatures).map Signature.key).Nodup := by
    rw [List.singleton_append, List.map_cons, List.nodup_cons]
    refine ⟨fun hmem => ?_, hnodup⟩
    obtain ⟨s, hs, hkey⟩ := List.mem_map.mp hmem
    exact hfresh s hs (by simp [hkey])
  refine .of_single hfuns.1 hfuns'.1 ?_ ?_
  · rw [(foldl_variables ctx signatures).1, (foldl_variables ctx signatures').1]
  · refine hfuns'.2.trans (Eq.trans ?_ hfuns.2.symm)
    funext name arity
    ext s
    rw [lookupIn_eq_some (hall hnodup hfresh), lookupIn_eq_some
      (hall hnodup' fun s hs => hfresh s (hperm.mem_iff.mpr hs)), (hperm.append_left _).mem_iff]

theorem checkWithin_eq_ok {depth : Nat} {p q : Program} : p.checkWithin depth = .ok q ↔
    ∃ ctx signatures, checkGlobals depth .outermost [] p.globals = .ok (q.globals, ctx) ∧
      NewSignatures [.print] p.functions signatures ∧
      requireMain (signatures.foldl Context.putFunction ctx) = .ok () ∧
      checkBodies depth (signatures.foldl Context.putFunction ctx) []
        (p.functions.zip signatures) = .ok q.functions := by
  simp only [checkWithin, Check.bind_eq_ok, Check.pure_eq_ok, Prod.exists]
  constructor
  · rintro ⟨globals, ctx, hglobals, pairs, ctx', hdeclared, _, hmain, functions, hbodies, rfl⟩
    have hfuns := checkGlobals_functions hglobals .outermost
    obtain ⟨signatures, hnew, rfl, rfl⟩ := (declareFunctions_eq_ok hfuns).mp hdeclared
    exact ⟨ctx, signatures, hglobals, hnew, hmain, hbodies⟩
  · rintro ⟨ctx, signatures, hglobals, hnew, hmain, hbodies⟩
    have hfuns := checkGlobals_functions hglobals .outermost
    exact ⟨q.globals, ctx, hglobals, _, _,
      (declareFunctions_eq_ok hfuns).mpr ⟨signatures, hnew, rfl, rfl⟩, _, hmain, q.functions, hbodies,
      rfl⟩

variable {depth : Nat} {p p' q q' : Program}

/-- The functions of two checked programs go with those of the trees in the same way, where the
numbers of variables do not count. -/
def Paired (p p' q q' : Program) : Prop :=
  q.functions.length = p.functions.length ∧ q'.functions.length = p'.functions.length ∧
    (p.functions.zip (q.functions.map (Function.relabel .unnumbered))).Perm
      (p'.functions.zip (q'.functions.map (Function.relabel .unnumbered)))

theorem zip_checked {ctx : Context} {fs gs : List Function} {signatures : List Signature}
    (hlen : fs.length = signatures.length)
    (h : List.Forall₂ (fun pair g => Function.checked? depth ctx pair =
      some (g.relabel .unnumbered)) (fs.zip signatures) gs) :
    gs.length = fs.length ∧ fs.zip (gs.map (Function.relabel .unnumbered)) =
      (fs.zip signatures).filterMap fun pair =>
        (Function.checked? depth ctx pair).map (pair.1, ·) := by
  induction fs generalizing signatures gs with
  | nil =>
      cases h
      exact ⟨rfl, rfl⟩
  | cons f fs ih =>
      cases signatures with
      | nil => cases hlen
      | cons s signatures =>
          rw [List.zip_cons_cons, List.forall₂_cons_left_iff] at h
          obtain ⟨g, gs, hg, hgs, rfl⟩ := h
          obtain ⟨hlength, hzip⟩ := ih (Nat.succ.inj hlen) hgs
          refine ⟨congrArg (· + 1) hlength, ?_⟩
          have hpair : (Function.checked? depth ctx (f, s)).map (f, ·) =
              some (f, g.relabel .unnumbered) := by
            rw [hg, Option.map_some]
          simp only [List.map_cons, List.zip_cons_cons, List.filterMap_cons, hpair, hzip]

theorem checkWithin_perm (hglobals : p'.globals = p.globals)
    (hperm : p.functions.Perm p'.functions) (h : p.checkWithin depth = .ok q) :
    ∃ q', p'.checkWithin depth = .ok q' ∧ q'.globals = q.globals ∧ Paired p p' q q' := by
  obtain ⟨ctx, signatures, hg, hnew, hmain, hbodies⟩ := checkWithin_eq_ok.mp h
  obtain ⟨signatures', hnew', hperm', hpairs⟩ := hnew.perm hperm
  have hctx := checkGlobals_functions hg .outermost
  have halike := declared_alike hctx hnew.2.1 hnew.2.2 hperm'
  -- Both lists of bodies are compared with what the second context makes of each body.
  obtain ⟨rest, hrest, hchecked⟩ := checkBodies_ok halike hbodies
  obtain rfl : q.functions = rest := hrest
  have hall : ∀ pair ∈ p'.functions.zip signatures',
      (Function.checked? depth (signatures'.foldl Context.putFunction ctx) pair).isSome := by
    intro pair hpair
    obtain ⟨g, hg⟩ := exists_of_forall₂ hchecked pair (hpairs.mem_iff.mpr hpair)
    rw [hg]
    rfl
  obtain ⟨functions, hfunctions⟩ := checkBodies_of_checked (.refl _) [] hall
  obtain ⟨rest', hrest', hchecked'⟩ := checkBodies_ok (.refl _) hfunctions
  obtain rfl : functions = rest' := hrest'
  have hmain' : requireMain (signatures'.foldl Context.putFunction ctx) = .ok () := by
    unfold requireMain at hmain ⊢
    rwa [halike.findFunction?]
  obtain ⟨hlen, hzip⟩ := zip_checked hnew.1.length_eq hchecked
  obtain ⟨hlen', hzip'⟩ := zip_checked hnew'.1.length_eq hchecked'
  refine ⟨⟨q.globals, functions⟩, checkWithin_eq_ok.mpr ⟨ctx, signatures', ?_, hnew', hmain',
    hfunctions⟩, rfl, hlen, hlen', ?_⟩
  · rw [hglobals]
    exact hg
  · rw [hzip, hzip']
    exact hpairs.filterMap _

theorem relabel_unnumbered (why : Stop) : why.relabel .unnumbered = why := by
  cases why with
  | fault f => exact congrArg (fun o => Stop.fault ⟨f.cause, o⟩) Option.map_id'
  | _ => rfl

theorem report_eq {r r' : Report} (h : r.Alike .unnumbered r') : r' = r := by
  obtain ⟨output, result⟩ := r
  obtain ⟨output', result'⟩ := r'
  obtain ⟨houtput, hresult⟩ := h
  have hsame : result' = result := by
    cases hresult with
    | ok hv => exact congrArg _ hv.symm
    | error hwhy => rw [hwhy, relabel_unnumbered]
  exact congrArg₂ Report.mk houtput hsame

theorem runWithin_perm (hq : q.Callable) (hq' : q'.Callable) (hglobals : q'.globals = q.globals)
    (h : Paired p p' q q') (l : Limits) :
    q'.runWithin l = q.runWithin l := by
  obtain ⟨hlen, hlen', hzip⟩ := h
  have hfunctions : (q.functions.map (Function.relabel .unnumbered)).Perm
      (q'.functions.map (Function.relabel .unnumbered)) := by
    have hsnd := hzip.map Prod.snd
    rwa [List.map_snd_zip (by simp [hlen]), List.map_snd_zip (by simp [hlen'])] at hsnd
  have hleft := runWithin_relabel .unnumbered hq l
  have hright : (q'.runWithin l).Alike .unnumbered ((q.relabel .unnumbered).runWithin l) :=
    runWithin_alike (congrArg _ hglobals.symm) hfunctions hq' l
  exact (report_eq hright).symm.trans (report_eq hleft)

/-- The functions of a program may be permuted: it is accepted as before, each function is checked to
the same but for the numbers of its variables, and every run is the same. -/
theorem function_order_irrelevant (hglobals : p'.globals = p.globals)
    (hperm : p.functions.Perm p'.functions) (depth : Nat) :
    ((∃ q, p.checkWithin depth = .ok q) ↔ ∃ q', p'.checkWithin depth = .ok q') ∧
    ∀ q q', p.checkWithin depth = .ok q → p'.checkWithin depth = .ok q' →
      q'.globals = q.globals ∧ Paired p p' q q' ∧ ∀ l, q'.runWithin l = q.runWithin l := by
  constructor
  · constructor
    · rintro ⟨q, hq⟩
      obtain ⟨q', hq', _⟩ := checkWithin_perm hglobals hperm hq
      exact ⟨q', hq'⟩
    · rintro ⟨q', hq'⟩
      obtain ⟨q, hq, _⟩ := checkWithin_perm hglobals.symm hperm.symm hq'
      exact ⟨q, hq⟩
  · intro q q' hq hq'
    obtain ⟨r, hr, hglobals', hpaired⟩ := checkWithin_perm hglobals hperm hq
    obtain rfl : q' = r := Except.ok.inj (hq'.symm.trans hr)
    exact ⟨hglobals', hpaired, fun l => runWithin_perm (callable_of_check hq)
      (callable_of_check hq') hglobals' hpaired l⟩

theorem adder_order_irrelevant :
    let p' : Program := ⟨adder.globals, adder.functions.reverse⟩
    p'.globals = adder.globals ∧ adder.functions.Perm p'.functions ∧
      ((∃ q, adder.check = .ok q) ↔ ∃ q', p'.check = .ok q') ∧
      ∀ q q', adder.check = .ok q → p'.check = .ok q' →
        q'.globals = q.globals ∧ Paired adder p' q q' ∧ ∀ l, q'.runWithin l = q.runWithin l := by
  intro p'
  have hperm : adder.functions.Perm p'.functions := (List.reverse_perm _).symm
  have hglobals : p'.globals = adder.globals := rfl
  exact ⟨hglobals, hperm, function_order_irrelevant hglobals hperm checkDepth⟩

end Program

end PlcLang
