import Generics.Proofs.Soundness
import Generics.Store

/-!
# Malformed requests

A request is refused with an error exactly if it is malformed: if something that one of its types
mentions has a defect, if one of its types is a bare parameter, or if the implementation mentions a
parameter of another definition.  A refusal leaves the store as it was.  Whatever goes wrong after
the examination leads to an answer.
-/

namespace Generics

/-- Applications mention older types only. -/
def Types.Descends (ts : Types) : Prop := ∀ t n, ts.get? t = some n → ∀ a ∈ n.args, a.val < t.val

instance (ts : Types) : Decidable ts.Descends :=
  inferInstanceAs (Decidable (∀ t n, ts.get? t = some n → _))

/-! ## Defects -/

namespace View

/-- The type `u` is `t`, or it is an argument of a type that `t` reaches. -/
abbrev Reaches (v : View) : TypeId → TypeId → Prop :=
  Relation.ReflTransGen fun t u => u ∈ v.argsOf t

/-- What is wrong with a type itself, whatever its arguments are. -/
inductive Defect (v : View) (t : TypeId) : ResolveError → Prop
  | unknownType (h : v.node? t = none) : Defect v t (.unknownType t)
  | unknownParameter {p : Param} (h : v.node? t = some (.param p)) (hp : v.param? p = none) :
      Defect v t (.unknownParameter p)
  | unknownDefinition {n : Node} {d : DefId} (h : v.node? t = some n) (hn : n.definition? = some d)
      (hd : v.definition? d = none) : Defect v t (.unknownDefinition d)
  | arityMismatch {n : Node} {d : DefId} {info : Definition} (h : v.node? t = some n)
      (hn : n.definition? = some d) (hd : v.definition? d = some info)
      (harity : info.arity ≠ n.args.length) :
      Defect v t (.arityMismatch t info.arity n.args.length)

end View

namespace Catalog

variable {c : Catalog} {ts : Types} {t u : TypeId} {T : Tree} {p : Param}

/-- What a type reaches is a part of its tree. -/
theorem exists_unfolds_of_reaches (hplain : c.overrides = []) (ht : ts.Unfolds t T)
    (h : (c.view ts).Reaches t u) : ∃ U, ts.Unfolds u U ∧ (T.Wellformed c.definitions →
      U.Wellformed c.definitions) ∧ U.params ⊆ T.params := by
  induction h with
  | refl => exact ⟨T, ht, id, List.Subset.refl _⟩
  | tail _ ha ih =>
    obtain ⟨U, hU, hwf, hparams⟩ := ih
    obtain ⟨A, hA, haA⟩ := exists_of_mem_left (Engine.exists_argsOf_unfold hplain hU) ha
    exact ⟨A, haA, fun hT => (hwf hT).of_mem_args hA,
      fun p hp => hparams (Tree.mem_params_of_mem_args hA hp)⟩

/-- A tree mentions the parameters that its type reaches. -/
theorem mem_params_iff_reaches (hplain : c.overrides = []) (ht : ts.Unfolds t T) :
    p ∈ T.params ↔ ∃ u, (c.view ts).Reaches t u ∧ (c.view ts).node? u = some (.param p) := by
  constructor
  · intro hp
    induction T using Tree.induct generalizing t with
    | named d => simp at hp
    | param q =>
      obtain rfl : p = q := by simpa using hp
      cases ht with
      | param h => exact ⟨t, .refl, by rwa [view_node? hplain]⟩
    | app d As ih =>
      rw [Tree.params_app, List.mem_flatMap] at hp
      obtain ⟨A, hA, hp⟩ := hp
      obtain ⟨a, ha, haA⟩ := exists_of_mem_right (Engine.exists_argsOf_unfold hplain ht) hA
      obtain ⟨u, hau, hu⟩ := ih A hA haA hp
      exact ⟨u, .head ha hau, hu⟩
  · rintro ⟨u, htu, hu⟩
    obtain ⟨U, hU, -, hparams⟩ := exists_unfolds_of_reaches hplain ht htu
    rw [view_node? hplain] at hu
    refine hparams ?_
    rw [hU.unique (.param hu)]
    simp

/-- A well-formed type has no defect. -/
theorem not_defect_of_wellformed (hplain : c.overrides = []) (ht : ts.Unfolds t T)
    (hT : T.Wellformed c.definitions) (e : ResolveError) : ¬(c.view ts).Defect t e := by
  obtain ⟨node, hnode, hdefinition⟩ := ht.exists_node
  intro h
  cases h with
  | unknownType h =>
    rw [view_node? hplain, hnode] at h
    cases h
  | @unknownParameter p h hp =>
    rw [view_node? hplain] at h
    rw [ht.unique (.param h)] at hT
    cases hT with
    | param hparam =>
      rw [← view_param? c ts, hp] at hparam
      cases hparam
  | @unknownDefinition n d h hn hd =>
    obtain rfl := Option.some.inj (hnode.symm.trans (view_node? hplain ts ▸ h))
    obtain ⟨info, hinfo⟩ := hT.exists_definition (hdefinition.symm.trans hn)
    exact absurd (hinfo.symm.trans hd) nofun
  | @arityMismatch n d info h hn hd harity =>
    obtain rfl := Option.some.inj (hnode.symm.trans (view_node? hplain ts ▸ h))
    have hargs := (Engine.exists_argsOf_unfold hplain ht).length_eq
    rw [View.argsOf, h] at hargs
    exact harity ((hT.arity_eq (hdefinition.symm.trans hn) hd).trans hargs.symm)

/-- A type that reaches no defect is finite and well-formed. -/
theorem exists_wellformed_of_not_defect (hplain : c.overrides = []) (hdescends : ts.Descends)
    (h : ∀ u, (c.view ts).Reaches t u → ∀ e, ¬(c.view ts).Defect u e) :
    ∃ T, ts.Unfolds t T ∧ T.Wellformed c.definitions := by
  induction hn : t.val using Nat.strongRecOn generalizing t with
  | ind n ih =>
    have hself := h t .refl
    cases hget : ts.get? t with
    | none => exact absurd (.unknownType (by rw [view_node? hplain, hget])) (hself _)
    | some node =>
      have hnode : (c.view ts).node? t = some node := by rw [view_node? hplain, hget]
      have hargs : ∀ a ∈ node.args, ∃ A, ts.Unfolds a A ∧ A.Wellformed c.definitions := by
        intro a ha
        refine ih a.val (hn ▸ hdescends t node hget a ha) (fun u hau => h u (.head ?_ hau)) rfl
        rwa [View.argsOf, hnode]
      have hknown : ∀ d, node.definition? = some d →
          ∃ info, c.definitions.get? d = some info ∧ info.arity = node.args.length := by
        intro d hd
        cases hinfo : c.definitions.get? d with
        | none => exact absurd (.unknownDefinition hnode hd hinfo) (hself _)
        | some info => exact ⟨info, rfl, by_contra fun harity =>
            hself _ (.arityMismatch hnode hd hinfo harity)⟩
      cases node with
      | named d =>
        obtain ⟨info, hinfo, harity⟩ := hknown d rfl
        exact ⟨_, .named hget, .named hinfo harity⟩
      | param p =>
        cases hdecl : c.definitions.param? p with
        | none => exact absurd (.unknownParameter hnode hdecl) (hself _)
        | some decl => exact ⟨_, .param hget, .param (by simp [hdecl])⟩
      | app d args =>
        obtain ⟨info, hinfo, harity⟩ := hknown d rfl
        obtain ⟨As, hAs⟩ := forall₂_of_forall_exists hargs
        refine ⟨_, .app hget (hAs.imp fun _ _ h => h.1),
          .app hinfo (harity.trans hAs.length_eq) fun A hA => ?_⟩
        obtain ⟨a, -, -, hA⟩ := exists_of_mem_right hAs hA
        exact hA

/-- Types that unfold to well-formed trees are those that reach no defect. -/
theorem exists_wellformed_iff (hplain : c.overrides = []) (hdescends : ts.Descends) :
    (∃ T, ts.Unfolds t T ∧ T.Wellformed c.definitions) ↔
      ∀ u, (c.view ts).Reaches t u → ∀ e, ¬(c.view ts).Defect u e := by
  refine ⟨?_, exists_wellformed_of_not_defect hplain hdescends⟩
  rintro ⟨T, ht, hT⟩ u htu
  obtain ⟨U, hU, hwf, -⟩ := exists_unfolds_of_reaches hplain ht htu
  exact not_defect_of_wellformed hplain hU (hwf hT)

end Catalog

/-! ## Requests -/

/-- What makes a request malformed. -/
inductive Request.Malformed (v : View) (r : Request) : Prop
  | abstraction {u : TypeId} {e : ResolveError} (h : v.Reaches r.abstraction u) (hu : v.Defect u e)
  | implementation {u : TypeId} {e : ResolveError} (h : v.Reaches r.implementation u)
      (hu : v.Defect u e)
  | abstractionIsParameter {p : Param} (h : v.node? r.abstraction = some (.param p))
  | implementationIsParameter {p : Param} (h : v.node? r.implementation = some (.param p))
  | foreignParameter {d : DefId} {u : TypeId} {p : Param}
      (hd : v.definitionOf r.implementation = some d) (h : v.Reaches r.implementation u)
      (hu : v.node? u = some (.param p)) (hp : p.owner ≠ d)

namespace Request

variable {c : Catalog} {r : Request} {ts : Types} {e : ResolveError} {i : Implementation}

theorem exists_param_of_definition?_eq_none {t : TypeId} {T : Tree} (hplain : c.overrides = [])
    (ht : ts.Unfolds t T) (h : T.definition? = none) : ∃ p, (c.view ts).node? t = some (.param p) := by
  rw [Catalog.view_node? hplain]
  cases ht with
  | named => cases h
  | app => cases h
  | param hnode => exact ⟨_, hnode⟩

theorem definition?_eq_none_of_param {t : TypeId} {T : Tree} {p : Param} (hplain : c.overrides = [])
    (ht : ts.Unfolds t T) (h : (c.view ts).node? t = some (.param p)) : T.definition? = none := by
  rw [← c.definitionOf_eq hplain ht, View.definitionOf, h]
  rfl

/-- A malformed request does not pass the examination. -/
theorem not_malformed_of_examine_eq_ok (hplain : c.overrides = []) (hdescends : ts.Descends)
    (hi : (c.view ts).examine r.abstraction r.implementation = .ok i) :
    ¬r.Malformed (c.view ts) := by
  obtain ⟨⟨A, hA, hAwf, hAd⟩, ⟨I, hI, hIwf, hId⟩, -, hfree, hown⟩ :=
    (c.examine_eq_ok_iff hplain).1 hi
  rintro (@⟨u, e, h, hu⟩ | @⟨u, e, h, hu⟩ | h | h | @⟨d, u, p, hd, h, hu, hp⟩)
  · exact (Catalog.exists_wellformed_iff hplain hdescends).1 ⟨A, hA, hAwf⟩ u h e hu
  · exact (Catalog.exists_wellformed_iff hplain hdescends).1 ⟨I, hI, hIwf⟩ u h e hu
  · rw [definition?_eq_none_of_param hplain hA h] at hAd
    cases hAd
  · rw [definition?_eq_none_of_param hplain hI h] at hId
    cases hId
  · rw [c.definitionOf_eq hplain hI, hId] at hd
    refine hp ((hown p ?_).trans (Option.some.inj hd))
    rw [hfree, c.mem_params_iff hplain hI]
    exact (Catalog.mem_params_iff_reaches hplain hI).2 ⟨u, h, hu⟩

/-- A request passes the examination unless it is malformed. -/
theorem exists_examine_eq_ok_iff (hplain : c.overrides = []) (hdescends : ts.Descends) :
    (∃ i, (c.view ts).examine r.abstraction r.implementation = .ok i) ↔
      ¬r.Malformed (c.view ts) := by
  refine ⟨fun ⟨i, hi⟩ => not_malformed_of_examine_eq_ok hplain hdescends hi, fun h => ?_⟩
  obtain ⟨A, hA, hAwf⟩ := (Catalog.exists_wellformed_iff (t := r.abstraction) hplain hdescends).2
    fun u hu _ he => h (.abstraction hu he)
  obtain ⟨I, hI, hIwf⟩ := (Catalog.exists_wellformed_iff (t := r.implementation) hplain hdescends).2
    fun u hu _ he => h (.implementation hu he)
  have hAd : A.definition?.isSome := by
    rw [← Option.ne_none_iff_isSome]
    intro hnone
    obtain ⟨p, hp⟩ := exists_param_of_definition?_eq_none hplain hA hnone
    exact h (.abstractionIsParameter hp)
  obtain ⟨d, hd⟩ : ∃ d, I.definition? = some d := by
    rw [← Option.ne_none_iff_exists']
    intro hnone
    obtain ⟨p, hp⟩ := exists_param_of_definition?_eq_none hplain hI hnone
    exact h (.implementationIsParameter hp)
  refine ⟨⟨d, (c.view ts).argsOf r.implementation, (c.view ts).params r.implementation⟩,
    (c.examine_eq_ok_iff hplain).2
      ⟨⟨A, hA, hAwf, hAd⟩, ⟨I, hI, hIwf, hd⟩, rfl, rfl, fun p hp => ?_⟩⟩
  rw [c.mem_params_iff hplain hI] at hp
  obtain ⟨u, hu, hup⟩ := (Catalog.mem_params_iff_reaches hplain hI).1 hp
  by_contra hne
  exact h (.foreignParameter ((c.definitionOf_eq hplain hI).trans hd) hu hup hne)

/-- A request that does not pass the examination is refused at once. -/
theorem resolve_of_examine_eq_error {s : Session}
    (h : (c.view s.types).examine r.abstraction r.implementation = .error e) :
    r.resolve c s = (.error e, s) := by
  rw [resolve, Engine.bind_apply, Engine.query_apply, h]
  rfl

/-- A request that passes the examination is answered: its definition is known. -/
theorem exists_resolve_eq_ok {s : Session} (hplain : c.overrides = [])
    (h : (c.view s.types).examine r.abstraction r.implementation = .ok i) :
    ∃ o, (r.resolve c s).1 = .ok o := by
  obtain ⟨-, ⟨I, -, hwf, hd⟩, -⟩ := (c.examine_eq_ok_iff hplain).1 h
  obtain ⟨info, hinfo⟩ := hwf.exists_definition hd
  rw [resolve, Engine.bind_apply, Engine.query_apply, h]
  dsimp only
  split
  · exact ⟨_, rfl⟩
  · obtain ⟨-, -, hopened⟩ := (Engine.settles_definitionType c i.definition s.types).elim rfl
    rw [hinfo] at hopened
    obtain ⟨opened, heq, -⟩ := hopened
    rw [Engine.bind_apply, heq]
    exact ⟨_, rfl⟩

end Request

/-- Exactly the malformed requests are refused, and a refusal changes nothing; all others are
answered. -/
theorem resolve_eq_error_iff {s : Store} (hplain : s.catalog.overrides = [])
    (hdescends : s.session.types.Descends) (r : Request) :
    ((∃ e, (s.run fun c => r.resolve c).1 = .error e) ↔ r.Malformed s.view) ∧
      (∀ e, (s.run fun c => r.resolve c).1 = .error e → (s.run fun c => r.resolve c).2 = s) ∧
      (¬r.Malformed s.view → (s.run fun c => r.resolve c).1 = .ok .invalid ∨
        ∃ closed, (s.run fun c => r.resolve c).1 = .ok (.valid closed)) := by
  have hexamine := Request.exists_examine_eq_ok_iff (r := r) hplain hdescends
  have hanswer : (s.run fun c => r.resolve c).1 = (r.resolve s.catalog s.session).1 := rfl
  rw [hanswer]
  cases hi : s.view.examine r.abstraction r.implementation with
  | error e =>
    have hmalformed : r.Malformed s.view := by
      by_contra h
      obtain ⟨i, hok⟩ := hexamine.2 h
      cases hi.symm.trans hok
    have hresolve := Request.resolve_of_examine_eq_error hi
    refine ⟨⟨fun _ => hmalformed, fun _ => ⟨e, by rw [hresolve]⟩⟩, fun _ _ => ?_,
      fun h => absurd hmalformed h⟩
    rw [Store.run, hresolve]
  | ok i =>
    obtain ⟨o, ho⟩ := Request.exists_resolve_eq_ok hplain hi
    have hwell : ¬r.Malformed s.view := hexamine.1 ⟨i, hi⟩
    rw [ho]
    refine ⟨⟨nofun, fun h => absurd h hwell⟩, nofun, fun _ => ?_⟩
    cases o with
    | invalid => exact .inl rfl
    | valid closed => exact .inr ⟨closed, rfl⟩

namespace FixedSample

/-- A store in which `D` is applied to one argument, and `G` to that. -/
def crooked : Store where
  catalog := catalog
  session := { types := .ofNodes [.param ⟨⟨2⟩, 0⟩, .param ⟨⟨2⟩, 1⟩, .app ⟨1⟩ [⟨0⟩], .named ⟨3⟩,
    .app ⟨2⟩ [⟨0⟩, ⟨3⟩], .app ⟨1⟩ [⟨3⟩], .app ⟨2⟩ [⟨0⟩], .app ⟨1⟩ [⟨6⟩]] }

/-- A request for a `G<D<T>>` is refused, and the store stays as it was. -/
theorem resolve_eq_error_arity :
    (∃ e, (crooked.run fun c => Request.resolve c ⟨⟨7⟩, ⟨4⟩, {}⟩).1 = .error e) ∧
      (crooked.run fun c => Request.resolve c ⟨⟨7⟩, ⟨4⟩, {}⟩).2 = crooked := by
  have hreaches : crooked.view.Reaches ⟨7⟩ ⟨6⟩ := .single (by decide +kernel)
  have hnode : crooked.view.node? ⟨6⟩ = some (.app ⟨2⟩ [⟨0⟩]) := by decide +kernel
  obtain ⟨info, hinfo, harity⟩ :
      ∃ info, crooked.view.definition? ⟨2⟩ = some info ∧ info.arity = 2 :=
    ⟨_, rfl, rfl⟩
  have hdefect := View.Defect.arityMismatch hnode rfl hinfo (by simp [harity, Node.args])
  have hdescends : crooked.session.types.Descends := by decide +kernel
  obtain ⟨hiff, hsame, -⟩ := resolve_eq_error_iff (s := crooked) rfl hdescends ⟨⟨7⟩, ⟨4⟩, {}⟩
  obtain ⟨e, he⟩ := hiff.2 (.abstraction hreaches hdefect)
  exact ⟨⟨e, he⟩, hsame e he⟩

end FixedSample

end Generics
