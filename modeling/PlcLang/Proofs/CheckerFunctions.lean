import Mathlib.Data.List.Nodup
import PlcLang.Proofs.CheckerContext

namespace PlcLang

namespace Function

theorem written_eq_ok {typeNames : List String} {offset : Nat} {types : List Ty} :
    typeNames.mapM (namedType · offset) = .ok types ↔ types.map Ty.name = typeNames := by
  rw [Check.mapM_eq_ok]
  simp only [namedType_eq_ok]
  induction typeNames generalizing types with
  | nil => rw [List.forall₂_nil_left_iff, List.map_eq_nil_iff]
  | cons name names ih =>
      rw [List.forall₂_cons_left_iff, List.map_eq_cons_iff]
      simp only [ih]
      constructor
      · rintro ⟨T, types, rfl, rfl, rfl⟩
        exact ⟨T, types, rfl, rfl, rfl⟩
      · rintro ⟨T, types, rfl, rfl, rfl⟩
        exact ⟨T, types, rfl, rfl, rfl⟩

theorem optional_eq_ok {typeName : Option String} {offset : Nat} {T : Ty} :
    (∃ r, typeName.mapM (namedType · offset) = (.ok r : Check (Option Ty)) ∧ r.getD .nil = T) ↔
      typeName = none ∧ T = .nil ∨ typeName = some T.name := by
  cases typeName with
  | none =>
      constructor
      · rintro ⟨r, hr, rfl⟩
        obtain rfl := Check.pure_eq_ok.mp hr
        exact .inl ⟨rfl, rfl⟩
      · rintro (⟨_, rfl⟩ | h)
        · exact ⟨none, rfl, rfl⟩
        · cases h
  | some typeName =>
      constructor
      · rintro ⟨r, hr, rfl⟩
        cases hn : namedType typeName offset with
        | error v =>
            rw [Option.mapM_some, hn] at hr
            cases hr
        | ok S =>
            rw [Option.mapM_some, hn] at hr
            cases hr
            exact .inr (congrArg some (namedType_eq_ok.mp hn).symm)
      · rintro (⟨h, _⟩ | h)
        · cases h
        · have hn : namedType typeName offset = .ok T :=
            namedType_eq_ok.mpr (Option.some.inj h).symm
          exact ⟨some T, by rw [Option.mapM_some, hn]; rfl, rfl⟩

theorem declare_eq_ok {ctx ctx' : Context} {f : Function} {s : Signature} :
    f.declare ctx = .ok (s, ctx') ↔
      f.Declares s ∧ ctx.ownsFunction s.name s.arity = false ∧ ctx' = ctx.putFunction s := by
  simp only [declare, Check.bind_eq_ok, Check.throw_bind, Check.ite_throw_eq_ok, Check.pure_eq_ok,
    Prod.mk.injEq, written_eq_ok, Bool.not_eq_true]
  constructor
  · rintro ⟨parameters, hp, r, hr, hown, rfl, rfl⟩
    exact ⟨⟨rfl, rfl, hp, optional_eq_ok.mp ⟨r, hr, rfl⟩⟩, hown, rfl⟩
  · obtain ⟨name, javaName, parameters, returns⟩ := s
    rintro ⟨⟨rfl, rfl, hp, hret⟩, hown, rfl⟩
    obtain ⟨r, hr, rfl⟩ := optional_eq_ok.mpr hret
    exact ⟨parameters, hp, r, hr, hown, rfl, rfl⟩

theorem declareParameters_ok_iff {ctx : Context} (hreg : ctx.Regular) (offset : Nat)
    {parameters : List (String × Ty)} :
    (∃ ctx', declareParameters ctx offset parameters = .ok ctx') ↔
      (parameters.map Prod.fst).Nodup ∧ ∀ p ∈ parameters, p.1 ∉ ctx.env.own := by
  induction parameters generalizing ctx with
  | nil => exact ⟨fun _ => ⟨List.nodup_nil, nofun⟩, fun _ => ⟨ctx, rfl⟩⟩
  | cons p parameters ih =>
      obtain ⟨name, T⟩ := p
      have henv := Context.env_putVariable hreg.frames_ne_nil name T true
      have hrest := ih (hreg.putVariable name T true)
      simp only [declareParameters, Check.bind_eq_ok, Prod.exists, Context.declare_eq_ok]
      constructor
      · rintro ⟨ctx', v, ctx₁, ⟨hown, hput⟩, h⟩
        obtain rfl : _ = ctx₁ := congrArg Prod.snd hput
        obtain ⟨hnodup, hfresh⟩ := hrest.mp ⟨ctx', h⟩
        rw [henv] at hfresh
        refine ⟨List.nodup_cons.mpr ⟨?_, hnodup⟩, List.forall_mem_cons.mpr ⟨hown, ?_⟩⟩
        · rw [List.mem_map]
          rintro ⟨q, hq, rfl⟩
          exact hfresh q hq (Set.mem_insert _ _)
        · exact fun q hq hmem => hfresh q hq (Set.mem_insert_of_mem _ hmem)
      · rintro ⟨hnodup, hfresh⟩
        obtain ⟨hname, hnodup⟩ := List.nodup_cons.mp hnodup
        obtain ⟨hown, hfresh⟩ := List.forall_mem_cons.mp hfresh
        have hfresh' : ∀ q ∈ parameters, q.1 ∉ (ctx.putVariable name T true).2.env.own := by
          rw [henv]
          rintro q hq (hq' | hq')
          · exact hname (List.mem_map.mpr ⟨q, hq, hq'⟩)
          · exact hfresh q hq hq'
        obtain ⟨ctx', h⟩ := hrest.mpr ⟨hnodup, hfresh'⟩
        exact ⟨ctx', _, _, ⟨hown, rfl⟩, h⟩

theorem declareParameters_env {ctx ctx' : Context} (hreg : ctx.Regular) {offset : Nat}
    {parameters : List (String × Ty)} (h : declareParameters ctx offset parameters = .ok ctx') :
    ctx'.env = ctx.env.withParameters parameters ∧ ctx'.Regular := by
  induction parameters generalizing ctx with
  | nil =>
      cases h
      exact ⟨rfl, hreg⟩
  | cons p parameters ih =>
      obtain ⟨name, T⟩ := p
      simp only [declareParameters, Check.bind_eq_ok, Prod.exists, Context.declare_eq_ok] at h
      obtain ⟨v, ctx₁, ⟨_, hput⟩, hrest⟩ := h
      obtain rfl : _ = ctx₁ := congrArg Prod.snd hput
      obtain ⟨henv, hreg'⟩ := ih (hreg.putVariable name T true) hrest
      rw [Context.env_putVariable hreg.frames_ne_nil] at henv
      exact ⟨henv, hreg'⟩

end Function

namespace Context

/-- Only the outermost frame is there, and it has exactly the listed functions. -/
def Functions (ctx : Context) (signatures : List Signature) : Prop :=
  ctx.frames.length = 1 ∧ ctx.env.funs = Env.lookupIn signatures

theorem lookupIn_isSome {signatures : List Signature} {name : String} {arity : Nat} :
    (Env.lookupIn signatures name arity).isSome ↔ (name, arity) ∈ signatures.map Signature.key := by
  simp [Env.lookupIn, List.find?_isSome, Signature.key]

theorem Functions.owns {ctx : Context} {signatures : List Signature} (h : ctx.Functions signatures)
    (name : String) (arity : Nat) :
    ctx.ownsFunction name arity = true ↔ (name, arity) ∈ signatures.map Signature.key := by
  obtain ⟨frames, fresh⟩ := ctx
  obtain ⟨hlen, hfuns⟩ := h
  obtain ⟨frame, rfl⟩ := List.length_eq_one_iff.mp hlen
  rw [← lookupIn_isSome, ← hfuns]
  simp [ownsFunction, env, findFunction?, Scope.findFunction?, Table.has, Frame.findFunction?]

theorem Functions.putFunction {ctx : Context} {signatures : List Signature} {s : Signature}
    (h : ctx.Functions signatures) (hs : s.key ∉ signatures.map Signature.key) :
    (ctx.putFunction s).Functions (signatures ++ [s]) := by
  obtain ⟨frames, fresh⟩ := ctx
  obtain ⟨hlen, hfuns⟩ := h
  obtain ⟨frame, rfl⟩ := List.length_eq_one_iff.mp hlen
  refine ⟨rfl, ?_⟩
  funext name arity
  have hold := congrFun (congrFun hfuns name) arity
  have hnew : (Env.lookupIn signatures s.name s.arity) = none := by
    rw [← Option.not_isSome_iff_eq_none, lookupIn_isSome]
    exact hs
  simp only [env, Context.putFunction, modifyInnermost, findFunction?, Scope.findFunction?_cons,
    Frame.findFunction?_putFunction, Env.lookupIn, List.find?_append] at hold hnew ⊢
  by_cases hk : s.name = name ∧ s.arity = arity
  · obtain ⟨rfl, rfl⟩ := hk
    rw [hnew]
    simp
  · rw [if_neg hk, hold, List.find?_cons_of_neg (by simpa using hk)]
    simp

theorem Functions.declare {ctx ctx' : Context} {signatures : List Signature}
    (h : ctx.Functions signatures) {name : String} {T : Ty} {mutable : Bool} {offset : Nat}
    {v : Variable} (hdecl : ctx.declare name T mutable offset = .ok (v, ctx')) :
    ctx'.Functions signatures := by
  obtain ⟨frames, fresh⟩ := ctx
  obtain ⟨hlen, hfuns⟩ := h
  obtain ⟨frame, rfl⟩ := List.length_eq_one_iff.mp hlen
  obtain rfl : _ = ctx' := congrArg Prod.snd (declare_eq_ok.mp hdecl).2
  exact ⟨rfl, hfuns⟩

theorem putFunction_variables (ctx : Context) (s : Signature) :
    (ctx.putFunction s).findVariable? = ctx.findVariable? ∧
      (ctx.putFunction s).env.own = ctx.env.own := by
  obtain ⟨frames, fresh⟩ := ctx
  cases frames with
  | nil => exact ⟨rfl, rfl⟩
  | cons frame outer => exact ⟨rfl, rfl⟩

theorem Functions.outermost : outermost.Functions [.print] := by
  refine ⟨rfl, ?_⟩
  rw [env_outermost]
  rfl

theorem Functions.regular {ctx : Context} {signatures : List Signature}
    (h : ctx.Functions signatures)
    (hvars : ∀ name v, ctx.findVariable? name = some v → v.name = name ∧ v.javaName = name) :
    ctx.Regular where
  frames_ne_nil hnil := by simp [Functions, hnil] at h
  variable_name := hvars
  function_key name arity s hs := by
    have hfound : ctx.env.funs name arity = some s := hs
    rw [h.2] at hfound
    exact Env.lookupIn_key hfound

end Context

theorem Global.check_functions {depth : Nat} {ctx ctx' : Context} {g g' : Global}
    (h : g.check depth ctx = .ok (g', ctx')) {signatures : List Signature}
    (hfuns : ctx.Functions signatures) : ctx'.Functions signatures := by
  obtain ⟨offset, name, typeName, mutable, value, slot⟩ := g
  cases value with
  | none =>
      simp only [check_bare, Check.bind_eq_ok, Check.pure_eq_ok, Prod.exists, Prod.mk.injEq] at h
      obtain ⟨T, _, v, ctx', hdecl, _, rfl⟩ := h
      exact hfuns.declare hdecl
  | some e =>
      simp only [check_value, Check.bind_eq_ok, Check.pure_eq_ok, Prod.exists, Prod.mk.injEq] at h
      obtain ⟨T, _, S, e', _, _, _, v, ctx', hdecl, _, rfl⟩ := h
      exact hfuns.declare hdecl

namespace Program

theorem checkGlobals_functions {depth : Nat} {ctx ctx' : Context} {gs done gs' : List Global}
    (h : checkGlobals depth ctx done gs = .ok (gs', ctx')) {signatures : List Signature}
    (hfuns : ctx.Functions signatures) : ctx'.Functions signatures := by
  induction gs generalizing ctx done with
  | nil =>
      cases h
      exact hfuns
  | cons g gs ih =>
      simp only [checkGlobals, Check.bind_eq_ok, Prod.exists] at h
      obtain ⟨g', ctx₁, hg, hrest⟩ := h
      exact ih hrest (g.check_functions hg hfuns)

/-- The signatures of functions that can be declared next to those of a context, one for each. -/
def NewSignatures (known : List Signature) (fs : List Function) (signatures : List Signature) :
    Prop :=
  List.Forall₂ Function.Declares fs signatures ∧ (signatures.map Signature.key).Nodup ∧
  ∀ s ∈ signatures, s.key ∉ known.map Signature.key

theorem fresh_append_singleton {known signatures : List Signature} {s : Signature} :
    (∀ s' ∈ signatures, s'.key ∉ (known ++ [s]).map Signature.key) ↔
      (∀ s' ∈ signatures, s'.key ∉ known.map Signature.key) ∧
        s.key ∉ signatures.map Signature.key := by
  simp only [List.map_append, List.map_singleton, List.mem_append, List.mem_singleton, not_or]
  constructor
  · intro h
    refine ⟨fun s' hs' => (h s' hs').1, fun hmem => ?_⟩
    obtain ⟨s', hs', hkey⟩ := List.mem_map.mp hmem
    exact (h s' hs').2 hkey
  · rintro ⟨h, hs⟩ s' hs'
    exact ⟨h s' hs', fun hkey => hs (hkey ▸ List.mem_map_of_mem hs')⟩

theorem declareFunctions_eq_ok {ctx ctx' : Context} {known : List Signature}
    (hknown : ctx.Functions known) {done pairs : List (Function × Signature)}
    {fs : List Function} :
    declareFunctions ctx done fs = .ok (pairs, ctx') ↔
      ∃ signatures, NewSignatures known fs signatures ∧
        pairs = done.reverse ++ fs.zip signatures ∧
        ctx' = signatures.foldl Context.putFunction ctx := by
  induction fs generalizing ctx done known with
  | nil =>
      rw [declareFunctions, Check.pure_eq_ok]
      constructor
      · intro h
        cases h
        exact ⟨[], ⟨.nil, List.nodup_nil, nofun⟩, by simp, rfl⟩
      · rintro ⟨signatures, ⟨hfs, _⟩, rfl, rfl⟩
        cases hfs
        simp
  | cons f fs ih =>
      simp only [declareFunctions, Check.bind_eq_ok, Prod.exists, Function.declare_eq_ok]
      constructor
      · rintro ⟨s, ctx₁, ⟨hf, hown, rfl⟩, hrest⟩
        have hnew : s.key ∉ known.map Signature.key := by
          rwa [← Bool.not_eq_true, hknown.owns] at hown
        obtain ⟨signatures, ⟨hfs, hnodup, hfresh⟩, rfl, rfl⟩ :=
          (ih (hknown.putFunction hnew)).mp hrest
        obtain ⟨hfresh, hs⟩ := fresh_append_singleton.mp hfresh
        exact ⟨s :: signatures, ⟨.cons hf hfs, List.nodup_cons.mpr ⟨hs, hnodup⟩,
          List.forall_mem_cons.mpr ⟨hnew, hfresh⟩⟩, by simp, rfl⟩
      · rintro ⟨signatures, ⟨hall, hnodup, hfresh⟩, rfl, rfl⟩
        obtain ⟨s, signatures, hf, hfs, rfl⟩ := List.forall₂_cons_left_iff.mp hall
        obtain ⟨hs, hnodup⟩ := List.nodup_cons.mp hnodup
        obtain ⟨hnew, hfresh⟩ := List.forall_mem_cons.mp hfresh
        have hown : ctx.ownsFunction s.name s.arity = false := by
          rwa [← Bool.not_eq_true, hknown.owns]
        exact ⟨s, _, ⟨hf, hown, rfl⟩, (ih (hknown.putFunction hnew)).mpr
          ⟨signatures, ⟨hfs, hnodup, fresh_append_singleton.mpr ⟨hfresh, hs⟩⟩, by simp, rfl⟩⟩

theorem functions_foldl {ctx : Context} {known signatures : List Signature}
    (hknown : ctx.Functions known) (hnodup : (signatures.map Signature.key).Nodup)
    (hfresh : ∀ s ∈ signatures, s.key ∉ known.map Signature.key) :
    (signatures.foldl Context.putFunction ctx).Functions (known ++ signatures) := by
  induction signatures generalizing ctx known with
  | nil => simpa using hknown
  | cons s signatures ih =>
      obtain ⟨hs, hnodup⟩ := List.nodup_cons.mp hnodup
      obtain ⟨hnew, hfresh⟩ := List.forall_mem_cons.mp hfresh
      have hrest := ih (hknown.putFunction hnew) hnodup
        (fresh_append_singleton.mpr ⟨hfresh, hs⟩)
      rwa [List.append_assoc] at hrest

theorem newSignatures_nodup {fs : List Function} {signatures : List Signature}
    (h : NewSignatures [.print] fs signatures) :
    ((Signature.print :: signatures).map Signature.key).Nodup := by
  rw [List.map_cons, List.nodup_cons]
  refine ⟨fun hmem => ?_, h.2.1⟩
  obtain ⟨s, hs, hkey⟩ := List.mem_map.mp hmem
  exact h.2.2 s hs (by simp [hkey])

theorem foldl_variables (ctx : Context) (signatures : List Signature) :
    (signatures.foldl Context.putFunction ctx).findVariable? = ctx.findVariable? ∧
      (signatures.foldl Context.putFunction ctx).env.own = ctx.env.own := by
  induction signatures generalizing ctx with
  | nil => exact ⟨rfl, rfl⟩
  | cons s signatures ih =>
      obtain ⟨hvars, hown⟩ := ctx.putFunction_variables s
      obtain ⟨hvars', hown'⟩ := ih (ctx.putFunction s)
      exact ⟨hvars'.trans hvars, hown'.trans hown⟩

theorem foldl_env {ctx : Context} (hfuns : ctx.Functions [.print]) (hreg : ctx.Regular)
    {fs : List Function} {signatures : List Signature}
    (hnew : NewSignatures [.print] fs signatures) :
    (signatures.foldl Context.putFunction ctx).env = ctx.env.withFunctions signatures ∧
      (signatures.foldl Context.putFunction ctx).Regular := by
  obtain ⟨hvars, hown⟩ := foldl_variables ctx signatures
  have hfuns' := functions_foldl hfuns hnew.2.1 hnew.2.2
  constructor
  · ext1
    · funext name
      exact congrArg (Option.map Variable.binding) (congrFun hvars name)
    · exact hown
    · exact hfuns'.2
  · refine hfuns'.regular fun name v hv => ?_
    rw [hvars] at hv
    exact hreg.variable_name name v hv

theorem lookupIn_eq_some {signatures : List Signature} (h : (signatures.map Signature.key).Nodup)
    {name : String} {arity : Nat} {s : Signature} :
    Env.lookupIn signatures name arity = some s ↔ s ∈ signatures ∧ s.name = name ∧ s.arity = arity := by
  constructor
  · intro hs
    exact ⟨Env.mem_of_lookupIn hs, Env.lookupIn_key hs⟩
  · rintro ⟨hmem, hname, harity⟩
    have hkey : s.key = (name, arity) := by rw [Signature.key, hname, harity]
    have hsome : (Env.lookupIn signatures name arity).isSome := by
      rw [Context.lookupIn_isSome, ← hkey]
      exact List.mem_map_of_mem hmem
    obtain ⟨s', hs'⟩ := Option.isSome_iff_exists.mp hsome
    obtain ⟨hname', harity'⟩ := Env.lookupIn_key hs'
    have hkey' : s'.key = (name, arity) := by rw [Signature.key, hname', harity']
    rw [hs', List.inj_on_of_nodup_map h (Env.mem_of_lookupIn hs') hmem (hkey'.trans hkey.symm)]

theorem requireMain_eq_ok {ctx : Context} {signatures : List Signature} {u : Unit}
    (h : ctx.Functions (.print :: signatures))
    (hnodup : ((Signature.print :: signatures).map Signature.key).Nodup) :
    requireMain ctx = .ok u ↔
      ∃ s ∈ signatures, s.name = "main" ∧ s.arity = 0 ∧ s.returns = .integer := by
  have hfind (s : Signature) : ctx.findFunction? "main" 0 = some s ↔
      s ∈ signatures ∧ s.name = "main" ∧ s.arity = 0 := by
    have hlookup : ctx.findFunction? "main" 0 = Env.lookupIn (.print :: signatures) "main" 0 :=
      congrFun (congrFun h.2 "main") 0
    rw [hlookup, lookupIn_eq_some hnodup, List.mem_cons]
    refine ⟨fun ⟨hmem, hkey⟩ => ⟨hmem.resolve_left ?_, hkey⟩, fun ⟨hmem, hkey⟩ => ⟨.inr hmem, hkey⟩⟩
    rintro rfl
    exact absurd hkey.1 (by decide)
  rw [requireMain]
  cases hmain : ctx.findFunction? "main" 0 with
  | none =>
      refine ⟨fun hf => (nomatch hf), ?_⟩
      rintro ⟨s, hs, hname, harity, _⟩
      have hs := (hfind s).mpr ⟨hs, hname, harity⟩
      rw [hmain] at hs
      cases hs
  | some s =>
      have hs := (hfind s).mp hmain
      dsimp only
      split
      · next hret => exact ⟨fun _ => ⟨s, hs.1, hs.2.1, hs.2.2, hret⟩, fun _ => rfl⟩
      · next hret =>
          refine ⟨fun hf => (nomatch hf), ?_⟩
          rintro ⟨s', hs', hname, harity, hret'⟩
          have hs' := (hfind s').mpr ⟨hs', hname, harity⟩
          rw [hmain] at hs'
          cases hs'
          exact absurd hret' hret

end Program

end PlcLang
