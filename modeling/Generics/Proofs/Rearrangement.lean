import Generics.Proofs.Denotation.Resolving

/-!
# Declarations in another order

Catalogs that differ in the order of interfaces only have the same types above every type, and whatever
is read off declarations besides is the same.  So they examine requests alike, and a request may be
resolved to the same trees.
-/

namespace Generics

/-! ## Checks -/

namespace View

variable {v v' : View}

/-- Which parameters a type mentions does not depend on declarations. -/
theorem params_congr (hnode : v'.node? = v.node?) (hbound : v'.bound = v.bound) (t : TypeId) :
    v'.params t = v.params t := by
  have hwalk : ∀ n m t, v'.mentionsFrom n m t = v.mentionsFrom n m t := by
    intro n
    induction n with
    | zero => exact fun _ _ => rfl
    | succ n ih =>
      intro m t
      rw [mentionsFrom, mentionsFrom, hnode, show v'.mentionsFrom n = v.mentionsFrom n from
        funext fun m => funext fun t => ih m t]
  rw [params, params, addParams, addParams, hbound, hwalk]

/-- A check reads of declarations how many parameters there are, and nothing else. -/
theorem check_congr (hnode : v'.node? = v.node?) (hbound : v'.bound = v.bound)
    (harity : ∀ d, (v'.definition? d).map (·.arity) = (v.definition? d).map (·.arity))
    (hparam : ∀ p, v'.param? p = v.param? p) (t : TypeId) : v'.check t = v.check t := by
  have hcheckArity : ∀ t d args, v'.checkArity t d args = v.checkArity t d args := by
    intro t d args
    have h := harity d
    rw [checkArity, checkArity]
    cases hd' : v'.definition? d <;> cases hd : v.definition? d <;> simp_all
  have hwalk : ∀ n path good t, v'.checkFrom n path good t = v.checkFrom n path good t := by
    intro n
    induction n with
    | zero => exact fun _ _ _ => rfl
    | succ n ih =>
      intro path good t
      have hstep : v'.checkFrom n (t :: path) = v.checkFrom n (t :: path) :=
        funext fun good => funext fun t' => ih (t :: path) good t'
      simp only [checkFrom, hnode, hparam, hcheckArity, hstep]
  rw [check, check, hbound, hwalk]

end View

/-! ## Rearrangements -/

/-- The definitions are the same but for the order of their interfaces. -/
structure Catalog.Rearranges (c c' : Catalog) : Prop where
  overrides : c'.overrides = c.overrides
  definitions : ∀ d, ∃ is, (∀ info, c.definitions.get? d = some info → info.interfaces.Perm is) ∧
    c'.definitions.get? d = (c.definitions.get? d).map fun info => { info with interfaces := is }

namespace Catalog

/-- Declaring the interfaces of one definition in another order is a rearrangement. -/
theorem rearranges_update {c : Catalog} {d : DefId} {info : Definition} {is : List TypeId}
    (hinfo : c.definitions.get? d = some info) (hperm : info.interfaces.Perm is) :
    c.Rearranges
      { c with definitions := c.definitions.update d fun info => { info with interfaces := is } } where
  overrides := rfl
  definitions e := by
    rw [Definitions.get?_update]
    by_cases he : d = e
    · subst he
      exact ⟨is, fun info' hinfo' => Option.some.inj (hinfo.symm.trans hinfo') ▸ hperm, if_pos rfl⟩
    · rw [if_neg he]
      cases c.definitions.get? e with
      | none => exact ⟨[], nofun, rfl⟩
      | some info =>
        refine ⟨info.interfaces, fun info' hinfo' => ?_, rfl⟩
        cases hinfo'
        exact .refl _

namespace Rearranges

variable {c c' : Catalog} {base ts : Types} {L : Hierarchy} {d : DefId} {info : Definition} {p : Param}
  {m : Demand} {A I S T : Tree} {R : Tree → Tree → Prop}

theorem exists_definition (h : c.Rearranges c') (hinfo : c.definitions.get? d = some info) :
    ∃ is, info.interfaces.Perm is ∧
      c'.definitions.get? d = some { info with interfaces := is } := by
  obtain ⟨is, hperm, heq⟩ := h.definitions d
  exact ⟨is, hperm info hinfo, by rw [heq, hinfo, Option.map_some]⟩

theorem symm (h : c.Rearranges c') : c'.Rearranges c where
  overrides := h.overrides.symm
  definitions d := by
    obtain ⟨is, hperm, heq⟩ := h.definitions d
    rw [heq]
    cases hinfo : c.definitions.get? d with
    | none => exact ⟨[], nofun, rfl⟩
    | some info =>
      refine ⟨info.interfaces, fun info' hinfo' => ?_, rfl⟩
      cases hinfo'
      exact (hperm info hinfo).symm

/-- What does not read interfaces gives the same for each definition. -/
theorem map_get? {α : Type} (h : c.Rearranges c') {f : Definition → α}
    (hf : ∀ info is, f { info with interfaces := is } = f info) (d : DefId) :
    (c'.definitions.get? d).map f = (c.definitions.get? d).map f := by
  obtain ⟨is, -, heq⟩ := h.definitions d
  rw [heq, Option.map_map]
  exact congrArg (Option.map · _) (funext fun info => hf info is)

theorem param?_eq (h : c.Rearranges c') (p : Param) :
    c'.definitions.param? p = c.definitions.param? p := by
  obtain ⟨is, -, heq⟩ := h.definitions p.owner
  rw [Definitions.param?, Definitions.param?, heq, Option.bind_map]
  rfl

theorem grounded (h : c.Rearranges c') (hc : c.Grounded base) : c'.Grounded base where
  plain := h.overrides.trans hc.plain
  supertypes d info hinfo t ht := by
    obtain ⟨is, hperm, hinfo'⟩ := h.symm.exists_definition hinfo
    refine hc.supertypes d _ hinfo' t ?_
    rw [Definition.supertypes, List.mem_append] at ht ⊢
    exact ht.imp id hperm.mem_iff.1
  constraints p decl hdecl := hc.constraints p decl ((h.param?_eq p).symm.trans hdecl)

/-! ## Relations between types -/

theorem directSupertype (h : c.Rearranges c') (hST : DirectSupertype c base S T) :
    DirectSupertype c' base S T := by
  cases hST with
  | declared hd hinfo ht hT =>
    obtain ⟨is, hperm, hinfo'⟩ := h.exists_definition hinfo
    refine .declared hd hinfo' ?_ hT
    rw [Definition.supertypes, List.mem_append] at ht ⊢
    exact ht.imp id hperm.mem_iff.1
  | constraint hp hdecl ht hT => exact .constraint hp ((h.param?_eq _).trans hdecl) ht hT

/-- The same lies above every type. -/
theorem supertype_eq (h : c.Rearranges c') (base : Types) : Supertype c' base = Supertype c base := by
  have hdirect : DirectSupertype c' base = DirectSupertype c base := by
    funext S T
    exact propext ⟨h.symm.directSupertype, h.directSupertype⟩
  rw [Supertype, hdirect]

theorem constraints_hierarchy_eq (h : c.Rearranges c') (base : Types) :
    (c'.hierarchy base).constraints = (c.hierarchy base).constraints := by
  funext p
  rw [constraints_hierarchy, constraints_hierarchy, h.param?_eq]

/-- What does not read interfaces gives the same for the definition of a tree. -/
theorem map_definition {α : Type} (h : c.Rearranges c') {f : Definition → α}
    (hf : ∀ info is, f { info with interfaces := is } = f info) (T : Tree) :
    (T.definition?.bind c'.definitions.get?).map f = (T.definition?.bind c.definitions.get?).map f := by
  cases T.definition? with
  | none => rfl
  | some d => exact h.map_get? hf d

theorem promised (h : c.Rearranges c') (hp : Promised c base m p) : Promised c' base m p := by
  induction hp with
  | declared hdecl hm => exact .declared ((h.param?_eq _).trans hdecl) hm
  | @granted p decl k K kind hdecl hk hK hkind hm =>
    exact .granted ((h.param?_eq _).trans hdecl) hk hK
      ((h.map_definition (fun _ _ => rfl) K).trans hkind) hm
  | inherited hdecl hk hK hm _ ih => exact .inherited ((h.param?_eq _).trans hdecl) hk hK hm ih

theorem meets (h : c.Rearranges c') (hT : T.Meets c base m) : T.Meets c' base m := by
  cases hT with
  | provided hT =>
    have hany : ∀ o : Option Definition, o.any (·.provides m) = (o.map (·.provides m)).getD false := by
      rintro (_ | _) <;> rfl
    refine .provided ?_
    rwa [Tree.provides, hany, h.map_definition fun _ _ => rfl, ← hany]
  | promised hp => exact .promised (h.promised hp)

theorem acceptsBy (h : c.Rearranges c') (hTS : AcceptsBy c base R T S) : AcceptsBy c' base R T S := by
  cases hTS with
  | supertype hST => exact .supertype (h.supertype_eq base ▸ hST)
  | variant hinfo hkind hvariant hST hlen hargs =>
    obtain ⟨is, -, hinfo'⟩ := h.exists_definition hinfo
    refine .variant hinfo' hkind hvariant (h.supertype_eq base ▸ hST) hlen
      fun i v X Y hv hX hY => ?_
    cases hargs i v X Y hv hX hY with
    | same => exact .same v X
    | covariant hY hR => exact .covariant (h.meets hY) hR
    | contravariant hX hR => exact .contravariant (h.meets hX) hR

theorem accepts (h : c.Rearranges c') (hTS : Accepts c base T S) : Accepts c' base T S := by
  obtain ⟨R, hR, hTS⟩ := hTS
  exact ⟨R, fun T S hTS => h.acceptsBy (hR T S hTS), hTS⟩

/-! ## Resolutions -/

theorem accepts_eq (h : c.Rearranges c') (base : Types) : Accepts c' base = Accepts c base := by
  funext T S
  exact propext ⟨h.symm.accepts, h.accepts⟩

theorem admits (h : c.Rearranges c') {Xs : List Tree} (hXs : c.Admits base d Xs info) :
    ∃ info', c'.Admits base d Xs info' := by
  obtain ⟨is, -, hinfo⟩ := h.exists_definition hXs.known
  exact ⟨_, hinfo, hXs.arity, fun i decl X hdecl hX m hm => h.meets (hXs.specials i decl X hdecl hX m hm),
    fun i decl X k K hdecl hX hk hK => h.accepts (hXs.constraints i decl X k K hdecl hX hk hK)⟩

theorem approves (h : c.Rearranges c') {Xs : List Tree} (hXs : c.Approves base d A Xs) :
    c'.Approves base d A Xs where
  admitted := by
    obtain ⟨info, hinfo⟩ := hXs.admitted
    exact h.admits hinfo
  accepted := h.accepts hXs.accepted

/-- A candidate may be closed to the same trees. -/
theorem closeThrough_eq (h : c.Rearranges c') (base : Types) (L : Hierarchy) (d : DefId)
    (own free : List Param) (Fs : List Tree) (A B : Tree) :
    c'.closeThrough base L d own free Fs A B = c.closeThrough base L d own free Fs A B := by
  have happroves : ∀ Xs, c'.Approves base d A Xs = c.Approves base d A Xs := fun Xs =>
    propext ⟨h.symm.approves, h.approves⟩
  simp only [Catalog.closeThrough, Catalog.close, happroves]

theorem offers (h : c.Rearranges c') {O A B : Tree} (hB : Offers c base O A B) : Offers c' base O A B :=
  ⟨h.supertype_eq base ▸ hB.supertype, hB.serves⟩

theorem resolutions (h : c.Rearranges c') {o : Option Tree} (ho : c.resolutions base L A I o) :
    c'.resolutions base L A I o := by
  rcases ho with ⟨hnil, hgiven⟩ | ⟨hne, d, info, hd, hinfo, closed, hclosed, ho⟩
  · exact .inl ⟨hnil, by rwa [h.accepts_eq]⟩
  · obtain ⟨is, -, hinfo'⟩ := h.exists_definition hinfo
    have hoffers : ∀ O B, Offers c' base O A B = Offers c base O A B := fun O B =>
      propext ⟨h.symm.offers, h.offers⟩
    refine .inr ⟨hne, d, _, hd, hinfo', closed, fun B hB => ?_, ?_⟩
    · rw [h.closeThrough_eq]
      exact hclosed B (h.symm.offers hB)
    · simp only [hoffers]
      exact ho

/-! ## Examination -/

/-- A request is examined alike, whatever its types are. -/
theorem examine_eq (h : c.Rearranges c') (hplain : c.overrides = []) (abstraction implementation : TypeId) :
    (c'.view ts).examine abstraction implementation =
      (c.view ts).examine abstraction implementation := by
  have hnode : (c'.view ts).node? = (c.view ts).node? := by
    rw [view_node? hplain, view_node? (h.overrides.trans hplain)]
  have hbound : (c'.view ts).bound = (c.view ts).bound := by
    simp only [Catalog.view, h.overrides]
  have hcheck := View.check_congr hnode hbound (h.map_get? fun _ _ => rfl) h.param?_eq
  have hparam : (c'.view ts).isParam abstraction = (c.view ts).isParam abstraction := by
    rw [View.isParam, View.isParam, hnode]
  simp only [View.examine, hparam, hcheck, hnode, View.params_congr hnode hbound]

end Rearranges

end Catalog

end Generics
