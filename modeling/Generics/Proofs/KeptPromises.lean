import Generics.Proofs.Bounds

/-!
# Kept promises

A parameter meets a demand only if its declaration promises so: by itself, through the kind of a
constraint, or through another parameter that bounds it.  Arguments that the definition takes for its
parameters keep these promises.
-/

namespace Generics

/-! ## Sets of demands -/

namespace Special

variable {s : Special} {m : Demand}

theorem isEmpty_foldl_union (ds : List Demand) (s : Special) :
    (ds.foldl (fun s m => s ∪ m.toSpecial) s).isEmpty ↔
      s.isEmpty ∧ ∀ m ∈ ds, m.toSpecial.isEmpty := by
  induction ds generalizing s with
  | nil => simp
  | cons m ds ih =>
    have hunion : (s ∪ m.toSpecial).isEmpty ↔ s.isEmpty ∧ m.toSpecial.isEmpty := by
      simp only [isEmpty, beq_iff_eq]
      exact UInt8.or_eq_zero_iff
    rw [List.foldl_cons, ih, hunion, List.forall_mem_cons, and_assoc]

theorem isEmpty_ofDemands_iff {ds : List Demand} :
    (ofDemands ds).isEmpty ↔ ∀ m ∈ ds, m.toSpecial.isEmpty := by
  rw [ofDemands, isEmpty_foldl_union]
  exact and_iff_right rfl

theorem unnamed_mem_demands_iff {bits : UInt8} :
    .unnamed bits ∈ s.demands ↔ bits = s.unnamedBits ∧ bits ≠ 0 := by
  unfold demands
  by_cases h : s.unnamedBits = 0
  · simp [h]
  · simp only [beq_iff_eq, h, if_false, List.mem_append, List.mem_filter, List.mem_cons]
    constructor
    · rintro (⟨h, -⟩ | h) <;> simp_all
    · rintro ⟨rfl, -⟩
      simp

theorem mem_demands_iff (hm : m = .reference ∨ m = .value ∨ m = .constructible) :
    m ∈ s.demands ↔ s.includes m.toSpecial := by
  rw [demands, List.mem_append]
  constructor
  · rintro (h | h)
    · exact (List.mem_filter.1 h).2
    · rcases hm with rfl | rfl | rfl <;> split at h <;> simp at h
  · exact fun h => .inl (List.mem_filter.2 ⟨by simpa using hm, h⟩)

/-- No demand of a set is empty. -/
theorem isEmpty_toSpecial_of_mem_demands (h : m ∈ s.demands) : m.toSpecial.isEmpty = false := by
  cases m with
  | reference => rfl
  | value => rfl
  | constructible => rfl
  | unnamed bits => exact beq_eq_false_iff_ne.2 (unnamed_mem_demands_iff.1 h).2

end Special

theorem View.isEmpty_missing_iff {v : View} {t : TypeId} {s : Special} :
    (v.missing t s).isEmpty ↔ ∀ m ∈ s.demands, v.meets m t := by
  simp only [missing, Special.isEmpty_ofDemands_iff, List.mem_filter, Bool.not_eq_true',
    and_imp]
  refine forall₂_congr fun m hm => ?_
  rw [Special.isEmpty_toSpecial_of_mem_demands hm]
  cases v.meets m t <;> simp

/-- What provides all that a parameter demands provides what the parameter declares. -/
theorem Definition.provides_of_declares {info : Definition} {decl : ParamDecl} {s : Special}
    {m : Demand} (hm : m ∈ s.demands) (h : decl.declares m)
    (hall : ∀ m ∈ decl.special.demands, info.provides m) : info.provides m := by
  cases m with
  | reference =>
    have hincludes : decl.special.includes .reference := by
      simpa [ParamDecl.declares, Demand.toSpecial] using h
    exact hall _ ((Special.mem_demands_iff (by simp)).2 hincludes)
  | value =>
    have hincludes : decl.special.includes .value := by
      simpa [ParamDecl.declares, Demand.toSpecial] using h
    exact hall _ ((Special.mem_demands_iff (by simp)).2 hincludes)
  | constructible =>
    simp only [ParamDecl.declares, beq_self_eq_true, Bool.true_and, Bool.or_eq_true] at h
    rcases h with h | h
    · exact hall _ ((Special.mem_demands_iff (by simp)).2 h)
    · -- value types have a constructor
      have hvalue := hall .value ((Special.mem_demands_iff (by simp)).2 h)
      have hkind : info.kind = .structType := by simpa [provides] using hvalue
      simp [provides, hkind]
  | unnamed bits =>
    obtain ⟨hbits, hne⟩ := Special.unnamed_mem_demands_iff.1 hm
    have hincludes : decl.special.bits &&& bits = bits := by
      simpa [ParamDecl.declares, Special.includes, Demand.toSpecial] using h
    have hunnamed : decl.special.unnamedBits ≠ 0 := by
      intro hzero
      refine hne ?_
      rw [← hincludes, hbits, Special.unnamedBits, UInt8.and_comm s.bits, ← UInt8.and_assoc]
      rw [Special.unnamedBits] at hzero
      rw [hzero, UInt8.zero_and]
    exact hall (.unnamed decl.special.unnamedBits)
      (Special.unnamed_mem_demands_iff.2 ⟨rfl, hunnamed⟩)

namespace Tree

variable {ds : Definitions} {T : Tree} {kind : Kind} {f : Param → Tree} {m : Demand}

theorem exists_provides_eq (h : T.kind? ds = some kind) :
    ∃ info : Definition, info.kind = kind ∧ ∀ m, T.provides ds m = info.provides m := by
  obtain ⟨info, hinfo, rfl⟩ := Option.map_eq_some_iff.1 h
  exact ⟨info, rfl, fun m => by rw [provides, hinfo, Option.any_some]⟩

theorem isSome_definition?_of_provides (h : T.provides ds m) : T.definition?.isSome := by
  cases hd : T.definition? with
  | none => simp [provides, hd] at h
  | some d => rfl

theorem provides_subst (h : T.definition?.isSome) : (T.subst f).provides ds m = T.provides ds m := by
  obtain ⟨d, hd⟩ := Option.isSome_iff_exists.1 h
  rw [provides, provides, hd, definition?_subst hd]

theorem provides_reference_iff (h : T.kind? ds = some kind) :
    T.provides ds .reference ↔ kind ≠ .structType := by
  obtain ⟨info, rfl, hprovides⟩ := exists_provides_eq h
  simp [hprovides, Definition.provides]

theorem provides_value_iff (h : T.kind? ds = some kind) :
    T.provides ds .value ↔ kind = .structType := by
  obtain ⟨info, rfl, hprovides⟩ := exists_provides_eq h
  simp [hprovides, Definition.provides]

end Tree

/-! ## What classes and structs accept -/

namespace Accepts

variable {c : Catalog} {base : Types} {K X : Tree} {kind : Kind} (hplain : c.overrides = [])
  (hlayered : c.Layered base) (h : Accepts c base K X)

include h in
/-- Only interfaces accept more than what lies below them. -/
theorem supertype_of_kind? (hK : K.kind? c.definitions = some kind) (hkind : kind ≠ .interfaceType) :
    Supertype c base X K := by
  cases h.acceptsBy with
  | supertype h => exact h
  | variant hinfo hinterface =>
    rw [Tree.kind?_of_definition? rfl hinfo] at hK
    exact absurd (Option.some.inj hK ▸ hinterface) hkind

include hplain hlayered h

/-- A class accepts classes only. -/
theorem eq_classType (hX : X.kind? c.definitions = some kind)
    (hK : K.kind? c.definitions = some .classType) : kind = .classType :=
  (h.supertype_of_kind? hK nofun).eq_classType hplain hlayered hX hK

/-- A struct accepts itself only. -/
theorem eq_of_structType (hX : X.kind? c.definitions = some kind)
    (hK : K.kind? c.definitions = some .structType) : K = X :=
  (h.supertype_of_kind? hK nofun).eq_of_structType hplain hlayered hX hK

end Accepts

/-! ## Arguments keep promises -/

/-- Each of the arguments `xs` of `g` meets whatever special constraints its parameter meets. -/
def Catalog.KeepsPromises (c : Catalog) (ts : Types) (g : DefId) (xs : List TypeId) : Prop :=
  ∀ (i : Nat) (x q : TypeId) (s : Special), xs[i]? = some x → ts.get? q = some (.param ⟨g, i⟩) →
    ((c.view ts).missing q s).isEmpty → ((c.view ts).missing x s).isEmpty

/-- No parameter of `d` that bounds another declares itself a reference type. -/
def Catalog.NoReferenceBounds (c : Catalog) (ts : Types) (d : DefId) : Prop :=
  ∀ p decl, c.definitions.param? p = some decl → p.owner = d → ∀ k ∈ decl.constraints,
    (c.view ts).isParam k → ∀ q ∈ (c.view ts).params k, ∀ bound ∈ c.definitions.param? q,
      bound.declares .reference = false

instance (c : Catalog) (ts : Types) (d : DefId) : Decidable (c.NoReferenceBounds ts d) :=
  inferInstanceAs (Decidable (∀ _ _, _ → _))

/-- The parameter `p` is constrained by the parameter `q`. -/
def Catalog.BoundBy (c : Catalog) (ts : Types) (p q : Param) : Prop :=
  ∃ decl k, c.definitions.param? p = some decl ∧ k ∈ decl.constraints ∧ ts.get? k = some (.param q)

/-- Some parameter that bounds `p`, itself or through others, declares itself a reference type where
`Xs` has an interface for it. -/
def Catalog.ReferenceByInterface (c : Catalog) (ts : Types) (g : DefId) (Xs : List Tree) (p : Param) :
    Prop :=
  ∃ q decl, Relation.TransGen (c.BoundBy ts) p q ∧ c.definitions.param? q = some decl ∧
    decl.declares .reference ∧ (Tree.assign g Xs q).kind? c.definitions = some .interfaceType

section

variable {c : Catalog} {base ts us : Types} {g : DefId} {ginfo : Definition} {xs : List TypeId}
  {Xs : List Tree} {p : Param} {m : Demand} {s : Special}
  (hc : c.Declared base) (hlayered : c.Layered base) (hxs : List.Forall₂ ts.Unfolds xs Xs)
  (hkinds : ∀ X ∈ Xs, ∃ kind, X.kind? c.definitions = some kind)
  (htakes : Takes c base ts g xs Xs (Accepts c base) ginfo)

include hc hxs hkinds htakes in
/-- What a declaration demands of its argument, the argument provides. -/
theorem provides_of_declared {decl : ParamDecl} (hdecl : c.definitions.param? p = some decl)
    (hp : p.owner = g) (hm : m ∈ s.demands) (h : decl.declares m) :
    (Tree.assign g Xs p).provides c.definitions m := by
  subst hp
  obtain ⟨X, hdecl', hX, hassign⟩ := htakes.exists_getElem? hdecl
  obtain ⟨x, hx, hxX⟩ := exists_getElem?_of_forall₂ hxs.flip hX
  obtain ⟨kind, hkind⟩ := hkinds X (List.mem_of_getElem? hX)
  obtain ⟨info, -, hprovides⟩ := Tree.exists_provides_eq hkind
  rw [hassign, hprovides]
  refine Definition.provides_of_declares hm h fun m hm => ?_
  have hmeets := View.isEmpty_missing_iff.1 (htakes.specials p.index decl x hdecl' hx) m hm
  rwa [Catalog.meets_eq_provides hc.plain hxX (Tree.isSome_definition?_of_kind? hkind), hprovides]
    at hmeets

include hkinds htakes in
theorem exists_kind?_assign {decl : ParamDecl} (hdecl : c.definitions.param? p = some decl)
    (hp : p.owner = g) : ∃ kind, (Tree.assign g Xs p).kind? c.definitions = some kind := by
  subst hp
  obtain ⟨X, -, hX, hassign⟩ := htakes.exists_getElem? hdecl
  rw [hassign]
  exact hkinds X (List.mem_of_getElem? hX)

include hc in
/-- A parameter that bounds another belongs to the same definition. -/
theorem owner_of_boundBy {q : Param} (h : c.BoundBy base p q) : q.owner = p.owner := by
  obtain ⟨decl, k, hdecl, hk, hq⟩ := h
  obtain ⟨K, hK, -, hown⟩ := hc.exists_constraint hdecl hk
  obtain rfl := hK.unique (.param hq)
  exact hown q (by simp)

include hc in
theorem owner_of_bounds {q : Param} (h : Relation.TransGen (c.BoundBy base) p q) :
    q.owner = p.owner := by
  induction h with
  | single h => exact owner_of_boundBy hc h
  | tail _ h ih => exact (owner_of_boundBy hc h).trans ih

include hc in
theorem not_referenceByInterface (hbounds : c.NoReferenceBounds base g) (hp : p.owner = g) :
    ¬c.ReferenceByInterface base g Xs p := by
  rintro ⟨q, bound, hpq, hbound, hdeclares, -⟩
  obtain ⟨r, hpr, decl, k, hdecl, hk, hq⟩ := Relation.TransGen.tail'_iff.1 hpq
  have hr : r.owner = g := by
    rcases Relation.reflTransGen_iff_eq_or_transGen.1 hpr with rfl | hpr
    · exact hp
    · exact (owner_of_bounds hc hpr).trans hp
  have hisParam : (c.view base).isParam k := by
    rw [View.isParam, Catalog.view_node? hc.plain, hq]
  have hmem : q ∈ (c.view base).params k := by
    rw [c.mem_params_iff hc.plain (.param hq)]
    simp
  have hnot := hbounds r decl hdecl hr k hk hisParam q hmem bound hbound
  exact absurd (hnot.symm.trans hdeclares) Bool.false_ne_true

include hc hlayered hxs hkinds htakes in
/-- An argument for a parameter that is promised to be a reference type, but does not declare it, is a
class, unless the promise is one of a parameter that an interface stands for. -/
theorem kind?_of_promised_reference (hm : .reference ∈ s.demands) (h : Promised c base .reference p)
    (hp : p.owner = g) (hinterface : ¬c.ReferenceByInterface base g Xs p)
    (hnot : ∀ decl, c.definitions.param? p = some decl → decl.declares .reference = false) :
    (Tree.assign g Xs p).kind? c.definitions = some .classType := by
  induction h with
  | declared hdecl h => exact absurd (h.symm.trans (hnot _ hdecl)) nofun
  | @granted p decl k K kind hdecl hk hK hkind h =>
    obtain rfl : kind = .classType := by simpa [Kind.grants] using h
    obtain ⟨kind, hX⟩ := exists_kind?_assign hkinds htakes hdecl hp
    have haccepts := htakes.of_constraint hdecl hp hk hK
    rw [hX, haccepts.eq_classType hc.plain hlayered hX (Tree.kind?_subst hkind)]
  | @inherited p q decl k hdecl hk hK _ h ih =>
    have hpq : c.BoundBy base p q := by
      cases hK with
      | param hnode => exact ⟨decl, k, hdecl, hk, hnode⟩
    have hq : q.owner = g := (owner_of_boundBy hc hpq).trans hp
    have hclass : (Tree.assign g Xs q).kind? c.definitions = some .classType := by
      by_cases hbound : ∃ bound, c.definitions.param? q = some bound ∧ bound.declares .reference
      · obtain ⟨bound, hbound, hdeclares⟩ := hbound
        obtain ⟨kind, hX⟩ := exists_kind?_assign hkinds htakes hbound hq
        have hprovides := provides_of_declared hc hxs hkinds htakes hbound hq hm hdeclares
        rw [Tree.provides_reference_iff hX] at hprovides
        cases kind with
        | classType => exact hX
        | interfaceType => exact absurd ⟨q, bound, .single hpq, hbound, hdeclares, hX⟩ hinterface
        | structType => exact absurd rfl hprovides
      · refine ih hq (fun hq => hinterface ?_) fun bound hbound' => ?_
        · obtain ⟨r, bound, hqr, h⟩ := hq
          exact ⟨r, bound, .head hpq hqr, h⟩
        · exact Bool.eq_false_iff.2 fun h => hbound ⟨bound, hbound', h⟩
    obtain ⟨kind, hX⟩ := exists_kind?_assign hkinds htakes hdecl hp
    have haccepts := htakes.of_constraint hdecl hp hk hK
    rw [Tree.subst_param] at haccepts
    rw [hX, haccepts.eq_classType hc.plain hlayered hX hclass]

include hc hlayered hxs hkinds htakes in
/-- An argument for a parameter that is promised to be a value type is a struct. -/
theorem kind?_of_promised_value (hm : .value ∈ s.demands) (h : Promised c base .value p)
    (hp : p.owner = g) : (Tree.assign g Xs p).kind? c.definitions = some .structType := by
  induction h with
  | @declared p decl hdecl h =>
    obtain ⟨kind, hX⟩ := exists_kind?_assign hkinds htakes hdecl hp
    have hvalue := provides_of_declared hc hxs hkinds htakes hdecl hp hm h
    rw [hX, (Tree.provides_value_iff hX).1 hvalue]
  | @granted p decl k K kind hdecl hk hK hkind h =>
    obtain rfl : kind = .structType := by simpa [Kind.grants] using h
    obtain ⟨kind, hX⟩ := exists_kind?_assign hkinds htakes hdecl hp
    have haccepts := htakes.of_constraint hdecl hp hk hK
    have hstruct := Tree.kind?_subst (f := Tree.assign g Xs) hkind
    rw [← haccepts.eq_of_structType hc.plain hlayered hX hstruct, hstruct]
  | @inherited p q decl k hdecl hk hK _ h ih =>
    have hpq : c.BoundBy base p q := by
      cases hK with
      | param hnode => exact ⟨decl, k, hdecl, hk, hnode⟩
    have hstruct := ih ((owner_of_boundBy hc hpq).trans hp)
    obtain ⟨kind, hX⟩ := exists_kind?_assign hkinds htakes hdecl hp
    have haccepts := htakes.of_constraint hdecl hp hk hK
    rw [Tree.subst_param] at haccepts
    rw [← haccepts.eq_of_structType hc.plain hlayered hX hstruct, hstruct]

include hc hlayered hxs hkinds htakes

/-- Arguments keep the promises of their parameters. -/
theorem provides_of_promised (hm : m ∈ s.demands) (h : Promised c base m p) (hp : p.owner = g)
    (hinterface : m = .reference → ¬c.ReferenceByInterface base g Xs p) :
    (Tree.assign g Xs p).provides c.definitions m := by
  have hdeclared : (∃ decl, c.definitions.param? p = some decl ∧ decl.declares m) →
      (Tree.assign g Xs p).provides c.definitions m := fun ⟨decl, hdecl, h⟩ =>
    provides_of_declared hc hxs hkinds htakes hdecl hp hm h
  cases m with
  | reference =>
    by_cases hdecl : ∃ decl, c.definitions.param? p = some decl ∧ decl.declares .reference
    · exact hdeclared hdecl
    · have hclass := kind?_of_promised_reference hc hlayered hxs hkinds htakes hm h hp
        (hinterface rfl) fun decl hdecl' => Bool.eq_false_iff.2 fun h => hdecl ⟨decl, hdecl', h⟩
      exact (Tree.provides_reference_iff hclass).2 nofun
  | value =>
    have hstruct := kind?_of_promised_value hc hlayered hxs hkinds htakes hm h hp
    exact (Tree.provides_value_iff hstruct).2 rfl
  | constructible =>
    cases h with
    | declared hdecl h => exact hdeclared ⟨_, hdecl, h⟩
    | granted _ _ _ _ h => cases h
    | inherited _ _ _ h => cases h
  | unnamed bits =>
    cases h with
    | declared hdecl h => exact hdeclared ⟨_, hdecl, h⟩
    | granted _ _ _ _ h => cases h
    | inherited _ _ _ h => cases h

/-- An argument meets what is promised of its parameter. -/
theorem isEmpty_missing_of_promised (hbase : base.Grows us) {i : Nat} {x q : TypeId}
    (hx : xs[i]? = some x) (hq : us.get? q = some (.param ⟨g, i⟩))
    (hmissing : ((c.view us).missing q s).isEmpty)
    (hinterface : .reference ∈ s.demands → ¬c.ReferenceByInterface base g Xs ⟨g, i⟩) :
    ((c.view ts).missing x s).isEmpty := by
  obtain ⟨X, hX, hxX⟩ := exists_getElem?_of_forall₂ hxs hx
  rw [View.isEmpty_missing_iff] at hmissing ⊢
  intro m hm
  have hmeets := hmissing m hm
  rw [View.meets, Catalog.view_node? hc.plain, hq, Option.isNone_iff_eq_none] at hmeets
  have hprovides := provides_of_promised hc hlayered hxs hkinds htakes hm
    (c.promised_of_promiseFrom hc.grounded hbase hmeets) rfl fun h => hinterface (h ▸ hm)
  rw [Tree.assign_of_getElem? hX] at hprovides
  rwa [c.meets_eq_provides hc.plain hxX (Tree.isSome_definition?_of_provides hprovides)]

/-- Arguments meet what is promised of their parameters. -/
theorem keepsPromises_of_layered (hbounds : c.NoReferenceBounds base g) (hbase : base.Grows ts) :
    c.KeepsPromises ts g xs := fun _ _ _ _ hx hq hmissing =>
  isEmpty_missing_of_promised hc hlayered hxs hkinds htakes hbase hx hq hmissing fun _ =>
    not_referenceByInterface hc hbounds rfl

end

section

variable {c : Catalog} {base ts us : Types} {g : DefId} {xs args args' : List TypeId}
  {Xs Ts : List Tree} {info : Definition}

/-- Arguments over the parameters of `g` that meet the special constraints of a definition do so as
well once the parameters of `g` are replaced by types that keep their promises. -/
theorem MeetSpecials.subst_of_keepsPromises (hc : c.Declared base) (hbase : base.Grows ts)
    (hgrow : ts.Grows us) (hxs : List.Forall₂ ts.Unfolds xs Xs) (hkeeps : c.KeepsPromises ts g xs)
    (hargs : List.Forall₂ ts.Unfolds args Ts)
    (hargs' : List.Forall₂ us.Unfolds args' (Ts.map (Tree.subst (.assign g Xs))))
    (hown : ∀ T ∈ Ts, ∀ p ∈ T.params, p.owner = g) (h : MeetSpecials c ts info args) :
    MeetSpecials c us info args' := by
  intro i decl a' hdecl ha'
  obtain ⟨_, hT', haT'⟩ := exists_getElem?_of_forall₂ hargs' ha'
  rw [List.getElem?_map, Option.map_eq_some_iff] at hT'
  obtain ⟨T, hT, rfl⟩ := hT'
  obtain ⟨a, ha, haT⟩ := exists_getElem?_of_forall₂ hargs.flip hT
  have hmeets := h i decl a hdecl ha
  have hgrounded := hc.grounded.grow hbase
  cases hd : T.definition? with
  | some d =>
    have hsome : (T.subst (.assign g Xs)).definition?.isSome := by simp [Tree.definition?_subst hd]
    rw [View.isEmpty_missing_iff] at hmeets ⊢
    intro m hm
    have hprovides := hmeets m hm
    rw [c.meets_eq_provides hc.plain haT (by simp [hd])] at hprovides
    rwa [c.meets_eq_provides hc.plain haT' hsome, Tree.provides_subst (by simp [hd])]
  | none =>
    cases haT with
    | named => cases hd
    | app => cases hd
    | @param _ p hnode =>
      obtain rfl : p.owner = g := hown _ (List.mem_of_getElem? hT) p (by simp)
      rw [Tree.subst_param] at haT'
      cases hX : Xs[p.index]? with
      | some X =>
        obtain ⟨x, hx, hxX⟩ := exists_getElem?_of_forall₂ hxs.flip hX
        rw [Tree.assign_of_getElem? (d := p.owner) (i := p.index) hX] at haT'
        obtain rfl := haT'.inj (Types.Unfolds.grow hxX hgrow)
        rw [Catalog.missing_grow hgrounded hxX hgrow]
        exact hkeeps p.index a' a decl.special hx hnode hmeets
      | none =>
        -- a parameter without an argument stays what it is
        have hself : Tree.assign p.owner Xs p = .param p := by simp [Tree.assign, hX]
        have haT : ts.Unfolds a (.param p) := .param hnode
        rw [hself] at haT'
        obtain rfl := haT'.inj (haT.grow hgrow)
        rwa [Catalog.missing_grow hgrounded haT hgrow]

/-- Arguments that lie below their constraints and keep the promises of their parameters can take the
place of these. -/
theorem specialises_of_keepsPromises (hc : c.Declared base) (hbase : base.Grows ts)
    (hg : c.definitions.get? g = some info) (harity : info.arity = Xs.length)
    (hxs : List.Forall₂ ts.Unfolds xs Xs) (hkeeps : c.KeepsPromises ts g xs)
    (hopened : ∀ i < info.arity, ∃ q, ts.get? q = some (.param ⟨g, i⟩))
    (hbelow : MeetConstraints base g info Xs fun K X => Supertype c base X K) :
    Specialises c base g Xs where
  below p decl k K hdecl hp hk hK := by
    subst hp
    have hdecl' : info.params[p.index]? = some decl := by
      rw [← hdecl, Definitions.param?, hg, Option.bind_some]
    have hlt : p.index < Xs.length := harity ▸ (List.getElem?_eq_some_iff.1 hdecl').1
    have hX := List.getElem?_eq_getElem hlt
    rw [show Tree.assign p.owner Xs p = _ from Tree.assign_of_getElem? hX]
    exact hbelow p.index decl _ k K hdecl' hX hk hK
  reference := by
    rintro T ⟨-, hown⟩ (h | @⟨p, h⟩)
    · exact .provided (by rwa [Tree.provides_subst (Tree.isSome_definition?_of_provides h)])
    obtain rfl := hown p (by simp)
    rw [Tree.subst_param]
    cases hX : Xs[p.index]? with
    | none =>
      rw [show Tree.assign p.owner Xs p = .param p by simp [Tree.assign, hX]]
      exact .promised h
    | some X =>
      obtain ⟨x, hx, hxX⟩ := exists_getElem?_of_forall₂ hxs.flip hX
      obtain ⟨q, hq⟩ := hopened p.index (harity ▸ (List.getElem?_eq_some_iff.1 hX).1)
      have hmeets := hkeeps p.index x q .reference hx hq
      simp only [View.isEmpty_missing_iff, show Special.reference.demands = [.reference] from rfl,
        List.mem_singleton, forall_eq] at hmeets
      rw [show Tree.assign p.owner Xs p = X from Tree.assign_of_getElem? hX,
        ← c.meets_iff hc.grounded hbase hxX]
      exact hmeets ((c.meets_iff hc.grounded hbase (.param hq)).2 (.promised h))

end

end Generics
