import Generics.Proofs.Containment

/-!
# Closed types resolve to themselves

A resolution that ends in a closed type has found a well-formed one that the abstraction accepts.
Where no parameter is left in it, it is an implementation that passes the examination, and a request
for it compares the two types once more: the answer is the closed type itself.
-/

namespace Generics

variable {c : Catalog} {base : Types} {r : Request} {s : Session} {closed : TypeId}

/-- To be well-formed passes on to arguments and to supertypes. -/
theorem hereditary_wellformed (hc : c.Declared base) :
    Hereditary c base (Tree.Wellformed c.definitions) where
  args hwf hA := hwf.of_mem_args hA
  above hwf h := h.wellformed_of_declared hc hwf

namespace Request

/-- The arguments of a closed type are bound to well-formed types, so it is well-formed. -/
theorem exists_closed_wellformed (hc : c.Declared s.types)
    (h : (r.resolve c s).1 = .ok (.valid closed)) :
    ∃ C, (r.resolve c s).2.types.Unfolds closed C ∧ C.Wellformed c.definitions ∧
      C.definition?.isSome := by
  obtain ⟨i, I, hi, hI, hgrow, hcases⟩ := of_resolve_eq_valid_of
    (P := fun i I us closed => ∃ f : Param → Tree, (∀ p ∈ i.free, (f p).Wellformed c.definitions) ∧
      us.Unfolds closed (.apply i.definition (I.args.map (Tree.subst f)))) hc.grounded
    (fun i A I us opened info hgrow _ hA hAwf _ hargs _ hopened =>
      settles_resolveOpen_within hc.grounded hgrow (hereditary_wellformed hc) hA hAwf hargs hopened) h
  obtain ⟨-, ⟨_, hI₀, hwf, hd⟩, -, hparams, -⟩ := (c.examine_eq_ok_iff hc.plain).1 hi
  obtain rfl := hI₀.unique hI
  split at hcases
  · obtain ⟨rfl, -⟩ := hcases
    exact ⟨_, hI.grow hgrow, hwf, by rw [hd, Option.isSome_some]⟩
  · obtain ⟨f, hf, hclosed⟩ := hcases
    obtain ⟨info, hinfo⟩ := hwf.exists_definition hd
    refine ⟨_, hclosed, Tree.wellformed_apply hinfo ?_ fun B hB => ?_, ?_⟩
    · rw [List.length_map, hwf.arity_eq hd hinfo]
    · obtain ⟨F, hF, rfl⟩ := List.mem_map.1 hB
      refine (hwf.of_mem_args hF).subst fun p hp => hf p ?_
      rw [hparams, c.mem_params_iff hc.plain hI]
      exact Tree.mem_params_of_mem_args hF hp
    · rw [Tree.definition?_apply, Option.isSome_some]

/-- The abstraction accepts a closed type, then and on every larger store. -/
theorem lasts_isAssignable (hc : c.Grounded s.types) (h : (r.resolve c s).1 = .ok (.valid closed)) :
    Engine.Lasts (Engine.isAssignable c r.abstraction closed) (r.resolve c s).2.types true := by
  obtain ⟨i, I, -, -, -, hcases⟩ := of_resolve_eq_valid hc h
  split at hcases
  · exact hcases.2
  · obtain ⟨found, xs, σ, h, -, -, hchecks⟩ := hcases
    exact hchecks.accepted

/-- An implementation without parameters is the answer if the abstraction is known to accept it. -/
theorem resolve_eq_valid_of_lasts {i : Implementation} (hplain : c.overrides = [])
    (hi : (c.view s.types).examine r.abstraction r.implementation = .ok i) (hfree : i.free = [])
    (haccepted : Engine.Lasts (Engine.isAssignable c r.abstraction r.implementation) s.types true) :
    (r.resolve c s).1 = .ok (.valid r.implementation) := by
  have hclosed : Engine.Settles (r.resolveClosed c) s.types fun outcome _ _ =>
      outcome = .valid r.implementation :=
    .of_lasts_bind haccepted (.report_bind c _ (.pure fun _ => rfl))
  exact ((settles_resolve_of_free_eq_nil (P := fun res _ _ => res = .ok (.valid r.implementation))
    hplain hi hfree (hclosed.map fun _ _ _ _ => congrArg Except.ok)).elim rfl).2

end Request

/-- A closed type that mentions no parameter resolves to itself, under any options. -/
theorem resolve_resolved (hc : c.Declared s.types) (h : (r.resolve c s).1 = .ok (.valid closed))
    (hclosed : (c.view (r.resolve c s).2.types).params closed = []) (options : Options) :
    (Request.resolve c { abstraction := r.abstraction, implementation := closed, options }
      (r.resolve c s).2).1 = .ok (.valid closed) := by
  obtain ⟨i, I, hi, -, hgrow, -⟩ := Request.of_resolve_eq_valid hc.grounded h
  obtain ⟨⟨A, hA, hAwf⟩, -⟩ := (c.examine_eq_ok_iff hc.plain).1 hi
  obtain ⟨C, hC, hCwf, hsome⟩ := Request.exists_closed_wellformed hc h
  obtain ⟨d, hd⟩ := Option.isSome_iff_exists.1 hsome
  have hexamine : (c.view (r.resolve c s).2.types).examine r.abstraction closed =
      .ok ⟨d, (c.view (r.resolve c s).2.types).argsOf closed, []⟩ :=
    (c.examine_eq_ok_iff hc.plain).2 ⟨⟨A, hA.grow hgrow, hAwf⟩, ⟨C, hC, hCwf, hd⟩, rfl,
      hclosed.symm, nofun⟩
  exact Request.resolve_eq_valid_of_lasts
    (r := { abstraction := r.abstraction, implementation := closed, options }) hc.plain hexamine rfl
    (Request.lasts_isAssignable hc.grounded h)

/-- The partial closure `D<C, C>` serves `G<C>` as it stands, also where the first match is taken. -/
theorem FixedSample.resolve_resolved_partial :
    (request.resolve catalog session).1 = .ok (.valid ⟨7⟩) ∧
    (Request.resolve catalog
      { abstraction := ⟨5⟩, implementation := ⟨7⟩, options := { ambiguity := .firstMatch } }
      (request.resolve catalog session).2).1 = .ok (.valid ⟨7⟩) := by
  have hc : catalog.Declared session.types := by decide +kernel
  have hrun : (request.resolve catalog session).1 = .ok (.valid ⟨7⟩) := by decide +kernel
  have hclosed : (catalog.view (request.resolve catalog session).2.types).params ⟨7⟩ = [] := by
    decide +kernel
  exact ⟨hrun, resolve_resolved hc hrun hclosed { ambiguity := .firstMatch }⟩

end Generics
