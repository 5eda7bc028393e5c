import Generics.Proofs.Completeness
import Generics.Proofs.Deciding

/-!
# Round trips

An open definition is recovered from its supertypes.  Where a single application of a definition lies
above it and mentions all its parameters, a request for an instance of that application is answered
with the same instance of the definition, if that can be constructed at all.
-/

namespace Generics

variable {c : Catalog} {base ts us : Types} {d g : DefId} {info : Definition} {args : List TypeId}
  {Ts : List Tree} {p : Param}

/-- Where arguments meet the constraints, these leave nothing to be inferred for an open definition:
what they mention is bound, and what they ask for lies above the arguments. -/
theorem supported_of_meets (hc : c.WellDeclared base) (hd : c.definitions.get? d = some info)
    (hmeets : MeetConstraints base d info Ts (Accepts c base)) {free : List Param}
    {f : Param → Tree} (hf : ∀ i < info.arity, f ⟨d, i⟩ = .param ⟨d, i⟩) {bound : Param → Prop}
    (hbound : ∀ q ∈ free, bound q) {i : Nat} {T : Tree} (hT : Ts[i]? = some T) :
    Unifier.Supported c base free f bound ⟨d, i⟩ T := by
  rintro decl k K hdecl hk hK -
  obtain ⟨K', hK', hwf, hown⟩ := hc.exists_constraint hdecl hk
  obtain rfl := hK.unique hK'
  have hself : K.subst f = K := by
    refine Tree.subst_eq_self fun q hq => ?_
    obtain rfl : q.owner = d := hown q hq
    exact hf q.index (Tree.index_lt_arity hd (hwf.isSome_param? hq))
  rw [hself]
  refine ⟨fun q hq _ => hbound q hq, fun e As heq => ?_⟩
  have hdecl' : info.params[i]? = some decl := by
    rw [← hdecl, Definitions.param?, hd, Option.bind_some]
  have haccepts := hmeets i decl T k K hdecl' hT hk hK
  rw [heq, Tree.subst_app] at haccepts
  obtain ⟨Ss, hS, hlen⟩ := haccepts.exists_app
  exact ⟨Ss, hS, hlen.trans (List.length_map _)⟩

/-- Types found for all parameters of an open definition are consistent with what they agree with. -/
theorem consistent_of_agrees {k : Closing} {found : Substitution} {n : Nat} {h : Param → Tree}
    (hagrees : found.Agrees ts h) (hcontains : ∀ i < n, found.contains ⟨k.definition, i⟩) :
    k.Consistent ts ((List.range n).map fun i => .param ⟨k.definition, i⟩) found h := by
  intro i F hF
  rw [List.getElem?_map, Option.map_eq_some_iff] at hF
  obtain ⟨j, hj, rfl⟩ := hF
  obtain ⟨hi, rfl⟩ := List.getElem?_eq_some_iff.1 hj
  rw [List.length_range] at hi
  rw [List.getElem_range]
  refine ⟨fun t ht => ?_, fun hnone => ?_⟩
  · rw [Tree.subst_param]
    exact hagrees _ t ht
  · have hsome := hcontains i hi
    rw [Substitution.contains, hnone] at hsome
    cases hsome

/-- Only parameters of `d` that have an argument have another image than themselves. -/
theorem rigid_assign (harity : info.arity = Ts.length) {free : List Param}
    (hfree : ∀ p, p ∈ free ↔ p.owner = d ∧ p.index < info.arity) : Rigid free (.assign d Ts) := by
  intro p hp
  rw [hfree, not_and, Nat.not_lt] at hp
  unfold Tree.assign
  split
  · rename_i howner
    rw [List.getElem?_eq_none (harity ▸ hp howner), Option.getD_none]
  · rfl

/-! ## Images of the application above an open definition -/

/-- The definition `d` takes the arguments `Xs`, and under them the only application of `g` above the
open definition becomes the abstraction. -/
structure Imaged (c : Catalog) (base ts : Types) (d g : DefId) (opened b : TypeId)
    (above : InternTable TypeId) (info : Definition) (Bs Xs : List Tree)
    (abstraction closed : TypeId) : Prop where
  overlying : Overlying c base ts d g opened b above info Bs
  wellformed : ∀ X ∈ Xs, X.Wellformed c.definitions
  arity : info.arity = Xs.length
  constraints : MeetConstraints base d info Xs (Accepts c base)
  constructible : Constructible c ts d Xs
  closed : ts.Unfolds closed (.apply d Xs)
  abstraction : ts.Unfolds abstraction (.app g (Bs.map (Tree.subst (.assign d Xs))))

/-- The definition has taken the arguments `xs`, and the application above it has been specialised to
them. -/
theorem Overlying.imaged {s s₁ s₂ : Session} (hc : c.Grounded base) {opened b : TypeId}
    {above : InternTable TypeId} {Bs Xs : List Tree}
    (hover : Overlying c base s.types d g opened b above info Bs) {xs : List TypeId}
    (hXs : List.Forall₂ s.types.Unfolds xs Xs) (hwf : ∀ X ∈ Xs, X.Wellformed c.definitions)
    {closed abstraction : TypeId} (hconstruct : Engine.construct c d xs s = (.ok closed, s₁))
    (himage : Engine.instantiate c b (.ofArgs d xs) s₁ = (abstraction, s₂)) :
    s.types.Grows s₂.types ∧
      Imaged c base s₂.types d g opened b above info Bs Xs abstraction closed := by
  -- construction
  obtain ⟨hgrow₁, ⟨hconstructed, -⟩, hlasts⟩ :=
    (Engine.settles_construct (d := d) hc hover.grows hXs).lasts.of_apply_eq hconstruct
  obtain ⟨hclosed, info', htakes⟩ := hconstructed closed rfl
  obtain rfl := Option.some.inj (htakes.known.symm.trans hover.known)
  have hXs₁ := Types.forall₂_unfolds_grow hXs hgrow₁
  -- the abstraction
  obtain ⟨hgrow₂, hA, -⟩ := (Engine.settles_instantiate hc.plain (hover.unfolds.grow hgrow₁)
    (Substitution.unfolds_ofArgs d hXs₁)).of_apply_eq himage
  rw [Tree.subst_app] at hA
  exact ⟨hgrow₁.trans hgrow₂, hover.grow hc (hgrow₁.trans hgrow₂), hwf, htakes.arity, htakes.constraints,
    constructible_of_lasts (Types.forall₂_unfolds_grow hXs₁ hgrow₂) hlasts hgrow₂,
    hclosed.grow hgrow₂, hA⟩

theorem exists_imaged {s s₁ s₂ s₃ s₄ : Session} (hc : c.Grounded s.types)
    (hd : c.definitions.get? d = some info) {opened b : TypeId} {above : InternTable TypeId}
    (hopen : Engine.definitionType c d s = (some opened, s₁))
    (habove : Engine.supertypes c opened s₁ = (above, s₂))
    (hunique : above.toList.filter ((c.view s₂.types).isApplicationOf g) = [b]) {xs : List TypeId}
    (hvalid : ∀ x ∈ xs, (c.view s₂.types).check x = .ok ()) {closed abstraction : TypeId}
    (hconstruct : Engine.construct c d xs s₂ = (.ok closed, s₃))
    (himage : Engine.instantiate c b (.ofArgs d xs) s₃ = (abstraction, s₄)) :
    ∃ Bs Xs, s₂.types.Unfolds b (.app g Bs) ∧ List.Forall₂ s₂.types.Unfolds xs Xs ∧
      Imaged c s.types s₄.types d g opened b above info Bs Xs abstraction closed := by
  obtain ⟨info', Bs, hover⟩ := exists_overlying hc hopen habove hunique
  obtain rfl := Option.some.inj (hover.known.symm.trans hd)
  obtain ⟨Xs, hXs⟩ := forall₂_of_forall_exists fun x hx =>
    (c.check_eq_ok_iff hc.plain).1 (hvalid x hx)
  have hwf : ∀ X ∈ Xs, X.Wellformed c.definitions := by
    intro X hX
    obtain ⟨x, -, -, hX⟩ := exists_of_mem_right hXs hX
    exact hX
  replace hXs : List.Forall₂ s₂.types.Unfolds xs Xs := hXs.imp fun _ _ h => h.1
  exact ⟨Bs, Xs, hover.unfolds, hXs, (hover.imaged hc hXs hwf hconstruct himage).2⟩

namespace Imaged

variable {opened b abstraction closed : TypeId} {above : InternTable TypeId} {Bs Xs : List Tree}
  {k : Closing} {found : Substitution}
  (h : Imaged c base ts d g opened b above info Bs Xs abstraction closed)

include h

theorem supported (hc : c.WellDeclared base) {free : List Param} {f : Param → Tree}
    (hfree : ∀ p, p ∈ free ↔ p.owner = d ∧ p.index < info.arity)
    (hf : ∀ i < info.arity, f ⟨d, i⟩ = .param ⟨d, i⟩) {bound : Param → Prop}
    (hbound : ∀ q ∈ free, bound q) {p : Param} (hp : p ∈ free) :
    Unifier.Supported c base free f bound p (.assign d Xs p) := by
  obtain ⟨rfl, hlt⟩ := (hfree p).1 hp
  have hX := List.getElem?_eq_getElem (h.arity ▸ hlt)
  exact (Tree.assign_of_getElem? hX).symm ▸
    supported_of_meets hc h.overlying.known h.constraints hf hbound hX

/-- Types found for all parameters close the open definition. -/
theorem solvable (hc : c.WellDeclared base) (hk : k.definition = d)
    (hfree : ∀ p, p ∈ k.free ↔ p.owner = d ∧ p.index < info.arity)
    (hagrees : found.Agrees us (.assign d Xs)) (hcontains : ∀ i < info.arity, found.contains ⟨d, i⟩) :
    k.Solvable c base us ((List.range info.arity).map fun i => .param ⟨d, i⟩) found
      (.assign d Xs) := by
  subst hk
  refine ⟨rigid_assign h.arity hfree, consistent_of_agrees hagrees hcontains, fun p hp => ?_, fun p hp =>
    h.supported hc hfree (fun i hi => ?_) (fun q hq => hq) hp⟩
  · obtain ⟨howner, hlt⟩ := (hfree p).1 hp
    obtain ⟨t, ht⟩ := Option.isSome_iff_exists.1 (hcontains p.index hlt)
    refine ⟨hp, p.index, .param p, t, ?_, by simp, ht⟩
    rw [List.getElem?_map, List.getElem?_range hlt, Option.map_some, ← howner]
  · exact Tree.assign_of_getElem? (by simp [hi])

/-- A request for the image is answered with the instance of `d`, if unification finds an argument for
every parameter. -/
theorem resolve_eq_valid (hc : c.WellDeclared base) (hgeneric : info.isGeneric) {s : Session}
    (hs : s.types = ts) {options : Options}
    (hunify : Engine.Settles (Request.unification c { abstraction, implementation := opened, options }
        ((c.view ts).paramsOf d opened) ((c.view ts).argsOf b) ((c.view ts).argsOf abstraction)) ts
      fun answer us cut => cut = false → ∃ found, answer = .ok found ∧
        found.Agrees us (.assign d Xs) ∧ ∀ i < info.arity, found.contains ⟨d, i⟩)
    (hlimit : Engine.cutShort
      (Request.resolve c { abstraction, implementation := opened, options }) s = false) :
    (Request.resolve c { abstraction, implementation := opened, options } s).1 =
      .ok (.valid closed) := by
  have hover := h.overlying
  have hopened := hover.unfolds_opened
  have hparams : ∀ p, p ∈ (c.view ts).params opened ↔ p.owner = d ∧ p.index < info.arity :=
    fun p => (c.mem_params_iff hc.plain hopened).trans Tree.mem_params_opened
  have hfree : (c.view ts).params opened ≠ [] :=
    List.ne_nil_of_mem ((hparams ⟨d, 0⟩).2 ⟨rfl, info.arity_pos hgeneric⟩)
  have hexamine : (c.view ts).examine abstraction opened =
      .ok ⟨d, (c.view ts).argsOf opened, (c.view ts).params opened⟩ := by
    refine (c.examine_eq_ok_iff hc.plain).2 ⟨⟨_, h.abstraction, ?_, by simp [Tree.definition?]⟩,
      ⟨_, hopened, Tree.wellformed_opened hover.known, Tree.definition?_opened ..⟩, rfl, rfl,
      fun p hp => ((hparams p).1 hp).1⟩
    rw [← Tree.subst_app]
    exact hover.wellformed_image hc.declared h.arity h.wellformed
  -- the only candidate
  obtain ⟨hgrow, answer, outcome, hbegins, hleads, hres⟩ :=
    (Request.settles_resolve_of_overlying (r := { abstraction, implementation := opened, options })
      hc.grounded hover hexamine hfree h.abstraction hopened).elim hs
  rw [hlimit] at hbegins hleads
  obtain ⟨vs, cut, hfinds, hvs, hcut⟩ := hunify.of_begins hbegins
  obtain ⟨found, hanswer, hagrees, hcontains⟩ := hfinds (hcut rfl)
  rw [Tree.args_opened] at hleads
  have hmap := Tree.map_assign_opened (d := d) h.arity.symm
  obtain ⟨closed', houtcome, hclosed'⟩ := hleads.complete rfl found (.assign d Xs) hanswer
    (h.solvable hc rfl hparams (hagrees.grow hvs) hcontains) (by rw [hmap]; exact h.constructible) (by
      rw [hmap, ← Tree.subst_app]
      exact hover.accepts_image hc h.arity)
  rw [hmap] at hclosed'
  rw [hres, houtcome, hclosed'.inj (h.closed.grow hgrow)]
  rfl

end Imaged

/-! ## Round trips -/

/-- An instance of the only application of `g` above the open definition `d` is served by the same
instance of `d`, if that application mentions all parameters and the instance can be constructed. -/
theorem closedImplementation_roundTrip {s s₁ s₂ s₃ s₄ : Session} (hc : c.WellDeclared s.types)
    (hd : c.definitions.get? d = some info) (hgeneric : info.isGeneric) {opened b : TypeId}
    {above : InternTable TypeId} (hopen : Engine.definitionType c d s = (some opened, s₁))
    (habove : Engine.supertypes c opened s₁ = (above, s₂))
    (hunique : above.toList.filter ((c.view s₂.types).isApplicationOf g) = [b])
    (hreaches : ∀ i < info.arity, ⟨d, i⟩ ∈ (c.view s₂.types).params b) {xs : List TypeId}
    (hvalid : ∀ x ∈ xs, (c.view s₂.types).check x = .ok ()) {closed abstraction : TypeId}
    (hconstruct : Engine.construct c d xs s₂ = (.ok closed, s₃))
    (himage : Engine.instantiate c b (.ofArgs d xs) s₃ = (abstraction, s₄))
    (hlimit : Engine.cutShort (Engine.closedImplementation c abstraction opened) s₄ = false) :
    (Engine.closedImplementation c abstraction opened s₄).1 = .ok (some closed) := by
  obtain ⟨Bs, Xs, hb, -, himaged⟩ :=
    exists_imaged hc.grounded hd hopen habove hunique hvalid hconstruct himage
  have hover := himaged.overlying
  have hdeclared : ∀ p, p ∈ (c.view s₄.types).paramsOf d opened ↔ p.owner = d ∧ p.index < info.arity :=
    fun p => Request.mem_paramsOf_opened hc.plain hover.unfolds_opened
  have hbound : ∀ p ∈ (c.view s₄.types).paramsOf d opened,
      FreeIn ((c.view s₄.types).paramsOf d opened) Bs p := by
    intro p hp
    obtain ⟨rfl, hlt⟩ := (hdeclared p).1 hp
    have hmentions := (c.mem_params_iff hc.plain hb).1 (hreaches p.index hlt)
    exact ⟨hp, by simpa using hmentions⟩
  suffices hres : (Request.resolve c { abstraction, implementation := opened } s₄).1 =
      .ok (.valid closed) from congrArg (Except.map Resolution.closed?) hres
  refine himaged.resolve_eq_valid hc hgeneric rfl ?_ hlimit
  refine (Request.settles_unification hc.grounded hover.grows
    (Engine.exists_argsOf_unfold hc.plain hover.unfolds)
    (Engine.exists_argsOf_unfold hc.plain himaged.abstraction)).mono ?_
  rintro answer us cut - ⟨-, hunifies⟩ hcut
  obtain ⟨found, hanswer, hagrees, hcontains⟩ := hunifies hcut _ (rigid_assign himaged.arity hdeclared) rfl
    fun p hp => himaged.supported hc hdeclared (fun _ _ => rfl) hbound hp.1
  exact ⟨found, hanswer, hagrees, fun i hi =>
    (hcontains _).2 (hbound _ ((hdeclared ⟨d, i⟩).2 ⟨rfl, hi⟩))⟩

/-! ## A swap -/

namespace SwapSample

/-- The class `D<T, U> : G<U, T>` where `T : L<U>`. -/
def swapping : Definition where
  kind := .classType
  name := ⟨5⟩
  params := [{ name := ⟨2⟩, constraints := [⟨2⟩] }, { name := ⟨4⟩ }]
  interfaces := [⟨3⟩]

/-- Interfaces `L<T>` and `G<T, U>`, the class `D`, and classes `C` and `E : L<C>`. -/
def catalog : Catalog where
  definitions.entries := #[
    { kind := .interfaceType, name := ⟨1⟩, params := [{ name := ⟨2⟩ }] },
    { kind := .interfaceType, name := ⟨3⟩, params := [{ name := ⟨2⟩ }, { name := ⟨4⟩ }] },
    swapping,
    { kind := .classType, name := ⟨6⟩ },
    { kind := .classType, name := ⟨7⟩, interfaces := [⟨6⟩] }]

/-- The parameters `T` and `U` of `D`, then `L<U>`, `G<U, T>`, `C`, `E` and `L<C>`. -/
def session : Session where
  types := .ofNodes [.param ⟨⟨3⟩, 0⟩, .param ⟨⟨3⟩, 1⟩, .app ⟨1⟩ [⟨1⟩], .app ⟨2⟩ [⟨1⟩, ⟨0⟩],
    .named ⟨4⟩, .named ⟨5⟩, .app ⟨1⟩ [⟨4⟩]]

/-- The session after the open type `D<T, U>` has been interned. -/
def opened : Session := (Engine.definitionType catalog ⟨3⟩ session).2

/-- What lies above `D<T, U>`, and the session after the enumeration. -/
def climbed : InternTable TypeId × Session := Engine.supertypes catalog ⟨7⟩ opened

/-- The session after `D<E, C>` has been constructed. -/
def constructed : Session := (Engine.construct catalog ⟨3⟩ [⟨5⟩, ⟨4⟩] climbed.2).2

/-- The session after `G<U, T>` has been specialised to `G<C, E>`. -/
def requested : Session := (Engine.instantiate catalog ⟨3⟩ (.ofArgs ⟨3⟩ [⟨5⟩, ⟨4⟩]) constructed).2

/-- `G<C, E>` is served by `D<E, C>`. -/
theorem closedImplementation_roundTrip_swap :
    (Engine.closedImplementation catalog ⟨9⟩ ⟨7⟩ requested).1 = .ok (some ⟨8⟩) := by
  have hopen : Engine.definitionType catalog ⟨3⟩ session = (some ⟨7⟩, opened) :=
    Prod.fst_eq_iff.1 (by decide +kernel)
  have hunique : climbed.1.toList.filter ((catalog.view climbed.2.types).isApplicationOf ⟨2⟩) =
      [⟨3⟩] := by decide +kernel
  have hconstruct : Engine.construct catalog ⟨3⟩ [⟨5⟩, ⟨4⟩] climbed.2 = (.ok ⟨8⟩, constructed) :=
    Prod.fst_eq_iff.1 (by decide +kernel)
  have himage : Engine.instantiate catalog ⟨3⟩ (.ofArgs ⟨3⟩ [⟨5⟩, ⟨4⟩]) constructed =
      (⟨9⟩, requested) := Prod.fst_eq_iff.1 (by decide +kernel)
  exact closedImplementation_roundTrip (by decide +kernel) rfl rfl hopen
    rfl hunique (by decide +kernel) (by decide +kernel) hconstruct himage
    (by decide +kernel)

end SwapSample

end Generics
