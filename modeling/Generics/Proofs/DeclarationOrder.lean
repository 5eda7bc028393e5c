import Generics.Proofs.Denotation.Agreement
import Generics.Proofs.Independence
import Generics.Proofs.Rearrangement

/-!
# The order of declarations

When ambiguity is rejected, candidates that are closed to different types leave a request without an
answer, whatever their order.  Inference knows no such policy: of several supertypes that match a
constraint it takes the first.  So the order in which interfaces are declared decides the outcome of a
request in this one way, by what inference takes.
-/

namespace Generics

variable {c c' : Catalog} {base ts us : Types} {A X : Tree}

/-! ## What inference comes across -/

/-- The parts of `A`: itself, the arguments of its parts, and what is declared right above them. -/
inductive Part (c : Catalog) (base : Types) (A : Tree) : Tree → Prop
  | refl : Part c base A A
  | arg {S T : Tree} (hS : Part c base A S) (hT : T ∈ S.args) : Part c base A T
  | above {S T : Tree} (hS : Part c base A S) (h : DirectSupertype c base S T) : Part c base A T

theorem hereditary_part (c : Catalog) (base : Types) (A : Tree) : Hereditary c base (Part c base A) where
  args := .arg
  above := .above

/-- The types in `parts` are listed with their arguments and with all that lies above them. -/
structure Session.Encloses (s : Session) (c : Catalog) (parts : List TypeId) : Prop where
  args : ∀ t ∈ parts, ∀ a ∈ (c.view s.types).argsOf t, a ∈ parts
  above : ∀ t ∈ parts, Engine.cutShort (Engine.supertypes c t) s = false ∧
    (Engine.supertypes c t s).2.types.Grows s.types ∧ ∀ u ∈ (Engine.supertypes c t s).1.toList, u ∈ parts

instance (s : Session) (c : Catalog) (parts : List TypeId) : Decidable (s.Encloses c parts) :=
  decidable_of_iff _ ⟨fun h : _ ∧ _ => ⟨h.1, h.2⟩, fun h => ⟨h.1, h.2⟩⟩

theorem Part.exists_mem {s : Session} {parts : List TypeId} {t : TypeId} (hX : Part c s.types A X)
    (hc : c.Grounded s.types) (h : s.Encloses c parts) (ht : t ∈ parts) (hA : s.types.Unfolds t A) :
    ∃ x ∈ parts, s.types.Unfolds x X := by
  induction hX with
  | refl => exact ⟨t, ht, hA⟩
  | arg _ hT ih =>
    obtain ⟨x, hx, hS⟩ := ih
    obtain ⟨a, ha, haT⟩ := exists_of_mem_right (Engine.exists_argsOf_unfold hc.plain hS) hT
    exact ⟨a, h.args x hx a ha, haT⟩
  | above _ hST ih =>
    obtain ⟨x, hx, hS⟩ := ih
    obtain ⟨hcut, hgrows, hmem⟩ := h.above x hx
    have hfound := ((Engine.settles_supertypes hc (.refl _) hS).elim rfl).2
    rw [hcut] at hfound
    obtain ⟨u, hu, hT⟩ := hfound.complete rfl _ (.single hST)
    exact ⟨u, hmem u hu, hT.grow hgrows⟩

/-- Above `X`, the applications of each definition are found in the same order in both catalogs. -/
def Catalog.SameOrder (c c' : Catalog) (base : Types) (X : Tree) : Prop :=
  ∀ Ts Us, DepthFirst c base [] [X] Ts → DepthFirst c' base [] [X] Us → ∀ d n,
    Ts.filterMap (Tree.argsAs? d n) = Us.filterMap (Tree.argsAs? d n)

namespace Catalog.Rearranges

/-- Where no definition has two instances above a type, there is nothing that could change places. -/
theorem sameOrder_of_unambiguous (h : c.Rearranges c') (hX : Unambiguous c base X) :
    c.SameOrder c' base X := by
  intro Ts Us hTs hUs d n
  have hmem : ∀ T, T ∈ Ts ↔ Supertype c base X T := fun T => hTs.mem_iff
  have hmem' : ∀ T, T ∈ Us ↔ Supertype c base X T := fun T => h.supertype_eq base ▸ hUs.mem_iff
  have hinj : ∀ S T : Tree, ∀ As ∈ S.argsAs? d n, As ∈ T.argsAs? d n → S = T := fun S T As hS hT =>
    (Tree.argsAs?_eq_some_iff.1 hS).1.trans (Tree.argsAs?_eq_some_iff.1 hT).1.symm
  have hany : ∀ Ass : List (List Tree), Ass.Pairwise fun _ _ => True := fun _ =>
    List.pairwise_of_forall fun _ _ => trivial
  refine List.Perm.eq_of_pairwise (fun As Bs hAs hBs _ _ => ?_) (hany _) (hany _) ?_
  · obtain ⟨S, hS, hAs⟩ := List.mem_filterMap.1 hAs
    obtain ⟨U, hU, hBs⟩ := List.mem_filterMap.1 hBs
    obtain ⟨rfl, -⟩ := Tree.argsAs?_eq_some_iff.1 hAs
    obtain ⟨rfl, -⟩ := Tree.argsAs?_eq_some_iff.1 hBs
    exact (Tree.app.inj (hX _ _ d ((hmem _).1 hS) ((hmem' _).1 hU) rfl rfl)).2
  · refine (List.perm_ext_iff_of_nodup ((hTs.nodup .nil).filterMap hinj)
      ((hUs.nodup .nil).filterMap hinj)).2 fun As => ?_
    simp only [List.mem_filterMap, hmem, hmem']

theorem directSupertypes (h : c.Rearranges c') {Us : List Tree}
    (hsame : ∀ d, X.definition? = some d → c'.definitions.get? d = c.definitions.get? d)
    (hUs : DirectSupertypes c base X Us) : DirectSupertypes c' base X Us := by
  cases hUs with
  | declared hd hTs => exact .declared hd (hsame _ hd ▸ hTs)
  | constraints hp hTs => exact .constraints hp (h.param?_eq _ ▸ hTs)

/-- Where no definition of a part has been rearranged, everything is found in the same order. -/
theorem sameOrder_of_unmoved (h : c.Rearranges c') (hX : Part c base A X)
    (hsame : ∀ S d, Part c base A S → S.definition? = some d →
      c'.definitions.get? d = c.definitions.get? d) : c.SameOrder c' base X := by
  intro Ts Us hTs hUs d n
  have hpart : ∀ T ∈ [X], Part c base A T := by simpa using hX
  have hsearch : DepthFirst c' base [] [X] Ts := hTs.congr (hereditary_part c base A)
    (fun S _ hS => h.directSupertypes fun d => hsame S d hS) hpart
  rw [hsearch.unique hUs]

end Catalog.Rearranges

/-! ## What does not depend on the order -/

/-- If the request passes the examination, it makes no difference to what it is resolved to whether
inference goes through supertypes in the order in which `c` finds them, or in that of `c'`.  All else is as
`c` declares it. -/
def Request.Indifferent (c c' : Catalog) (ts : Types) (r : Request) : Prop :=
  ∀ i A I o o', (c.view ts).examine r.abstraction r.implementation = .ok i →
    ts.Unfolds r.abstraction A → ts.Unfolds r.implementation I →
    c.resolutions ts (c.hierarchy ts) A I o → c.resolutions ts (c'.hierarchy ts) A I o' → o = o'

/-- Nothing is inferred for an implementation without parameters. -/
theorem Request.indifferent_of_params_eq_nil {r : Request} (hplain : c.overrides = [])
    (h : (c.view ts).params r.implementation = []) : r.Indifferent c c' ts := by
  intro _ A I o o' _ _ hI
  refine Catalog.resolutions_eq_of_params_eq_nil (List.eq_nil_iff_forall_not_mem.2 fun p hp => ?_)
  rw [← c.mem_params_iff hplain hI, h] at hp
  cases hp

/-- If the applications of each definition are found in the same order above all parts of the abstraction,
inference takes the same. -/
theorem Request.indifferent_of_order {r : Request} (h : c.Rearranges c')
    (horder : ∀ A X, ts.Unfolds r.abstraction A → Part c ts A X → c.SameOrder c' ts X) :
    r.Indifferent c c' ts := by
  intro _ A _ _ _ _ hA _
  have halike : (c.hierarchy ts).Alike c ts (Part c ts A) (c'.hierarchy ts) :=
    ⟨fun _ _ hTs _ hT => (DepthFirst.mem_iff hTs).1 hT, fun X Ts Us hX => horder A X hA hX Ts Us,
      h.constraints_hierarchy_eq ts⟩
  exact Catalog.resolutions_eq (hereditary_part c ts A) halike .refl

/-- The outcomes are the same exactly if they are on trees. -/
theorem Resolution.Shows.sameOutcome_iff {o o' : Resolution} {y y' : Option Tree} (h : o.Shows ts y)
    (h' : o'.Shows us y') : SameOutcome ts us (.ok o) (.ok o') ↔ y = y' := by
  cases h with
  | invalid =>
    cases h' with
    | invalid => exact iff_of_true .invalid rfl
    | valid => exact ⟨nofun, nofun⟩
  | valid ht =>
    cases h' with
    | invalid => exact ⟨nofun, nofun⟩
    | valid hu =>
      constructor
      · rintro (_ | _ | ⟨ht', hu'⟩)
        rw [ht.unique ht', hu.unique hu']
      · rintro ⟨⟩
        exact .valid ht hu

/-- When ambiguity is rejected, the order in which interfaces are declared matters to the outcome of a
request that is not cut short exactly if it matters by what inference takes.  It does not if the
implementation mentions no parameters, or if above all parts of the abstraction the applications of each
definition are still found in the same order, as where there is only one instance of each
(`Catalog.Rearranges.sameOrder_of_unambiguous`) or where the definitions of these parts are those that were
not rearranged (`Catalog.Rearranges.sameOrder_of_unmoved`). -/
theorem resolve_rearranged {r : Request} {s : Session} (hc : c.Grounded s.types)
    (hrearranges : c.Rearranges c') (hreject : r.options.ambiguity = .reject)
    (hcut : Engine.cutShort (r.resolve c) s = false)
    (hcut' : Engine.cutShort (r.resolve c') s = false) :
    (SameOutcome (r.resolve c s).2.types (r.resolve c' s).2.types (r.resolve c s).1
        (r.resolve c' s).1 ↔ r.Indifferent c c' s.types) ∧
      ((c.view s.types).params r.implementation = [] → r.Indifferent c c' s.types) ∧
      ((∀ A X, s.types.Unfolds r.abstraction A → Part c s.types A X → c.SameOrder c' s.types X) →
        r.Indifferent c c' s.types) := by
  refine ⟨?_, Request.indifferent_of_params_eq_nil hc.plain, Request.indifferent_of_order hrearranges⟩
  have hsame : (c'.view s.types).examine r.abstraction r.implementation =
      (c.view s.types).examine r.abstraction r.implementation := hrearranges.examine_eq hc.plain _ _
  cases hi : (c.view s.types).examine r.abstraction r.implementation with
  | error e =>
    have hrefused : ∀ c : Catalog, (c.view s.types).examine r.abstraction r.implementation = .error e →
        (r.resolve c s).1 = .error e := fun c hi => by
      simp only [Request.resolve, Engine.bind_apply, Engine.query_apply, hi]
      rfl
    rw [hrefused c hi, hrefused c' (hsame.trans hi)]
    exact iff_of_true (.error e) fun _ _ _ _ _ hi' => by cases hi.symm.trans hi'
  | ok i =>
    obtain ⟨⟨A, hA, -⟩, ⟨I, hI, -⟩, -⟩ := (c.examine_eq_ok_iff hc.plain).1 hi
    obtain ⟨o, ho, y, hy, hshows⟩ :=
      ((Request.settles_resolve_among hc hreject hi hA hI).elim rfl).2 hcut
    obtain ⟨o', ho', y', hy', hshows'⟩ := ((Request.settles_resolve_among (hrearranges.grounded hc)
      hreject (hsame.trans hi) hA hI).elim rfl).2 hcut'
    rw [ho, ho', hshows.sameOutcome_iff hshows']
    constructor
    · -- each order gives one outcome only, which is that of the run
      rintro rfl _ A' I' x x' _ hA' hI' hx hx'
      obtain rfl := hA.unique hA'
      obtain rfl := hI.unique hI'
      exact (Catalog.resolutions_unique hx hy).trans
        (Catalog.resolutions_unique hy' (hrearranges.resolutions hx'))
    · intro hindifferent
      exact hindifferent i A I y y' hi hA hI hy (hrearranges.symm.resolutions hy')

/-! ## Interfaces in another order -/

namespace RearrangedSample

/-- Interfaces `L<T>` and `G<T>`, a class `D<T, U> : G<T>` where `T : L<U>`, classes `C`, `E` and
`F : L<C>, L<E>`, an interface `M` and a class `H : L<C>, M`. -/
def catalog : Catalog where
  definitions.entries := #[
    { kind := .interfaceType, name := ⟨1⟩, params := [{ name := ⟨2⟩ }] },
    { kind := .interfaceType, name := ⟨3⟩, params := [{ name := ⟨2⟩ }] },
    { kind := .classType, name := ⟨4⟩,
      params := [{ name := ⟨2⟩, constraints := [⟨2⟩] }, { name := ⟨5⟩ }], interfaces := [⟨3⟩] },
    { kind := .classType, name := ⟨6⟩ },
    { kind := .classType, name := ⟨7⟩ },
    { kind := .classType, name := ⟨8⟩, interfaces := [⟨6⟩, ⟨7⟩] },
    { kind := .interfaceType, name := ⟨9⟩ },
    { kind := .classType, name := ⟨10⟩, interfaces := [⟨6⟩, ⟨9⟩] }]

/-- The catalog with the interfaces of `d` in the order `is`. -/
def arranged (d : DefId) (is : List TypeId) : Catalog :=
  { catalog with
    definitions := catalog.definitions.update d fun info => { info with interfaces := is } }

/-- The parameters `T` and `U` of `D`, then `L<U>`, `G<T>`, `C`, `E`, `L<C>`, `L<E>`, `F`, `M`, `H`,
`D<T, U>`, `G<F>` and `G<H>`. -/
def session : Session where
  types := .ofNodes [.param ⟨⟨3⟩, 0⟩, .param ⟨⟨3⟩, 1⟩, .app ⟨1⟩ [⟨1⟩], .app ⟨2⟩ [⟨0⟩], .named ⟨4⟩,
    .named ⟨5⟩, .app ⟨1⟩ [⟨4⟩], .app ⟨1⟩ [⟨5⟩], .named ⟨6⟩, .named ⟨7⟩, .named ⟨8⟩,
    .app ⟨3⟩ [⟨0⟩, ⟨1⟩], .app ⟨2⟩ [⟨8⟩], .app ⟨2⟩ [⟨10⟩]]

/-- A request for a `G<H>` that `D<T, U>` is to serve. -/
def request : Request := { abstraction := ⟨13⟩, implementation := ⟨11⟩ }

/-- A request for a `G<F>` that `D<T, U>` is to serve. -/
def twofold : Request := { abstraction := ⟨12⟩, implementation := ⟨11⟩ }

/-- A `G<H>` is served by `D<H, C>`, whether `H` declares `L<C>` before `M` or after it; and this makes no
difference to a `G<F>` either, although both `L<C>` and `L<E>` lie above `F`. -/
theorem resolve_rearranged_other :
    (request.resolve catalog session).1 = .ok (.valid ⟨14⟩) ∧
    (request.resolve (arranged ⟨8⟩ [⟨9⟩, ⟨6⟩]) session).1 = .ok (.valid ⟨14⟩) ∧
    SameOutcome (request.resolve catalog session).2.types
      (request.resolve (arranged ⟨8⟩ [⟨9⟩, ⟨6⟩]) session).2.types
      (request.resolve catalog session).1
      (request.resolve (arranged ⟨8⟩ [⟨9⟩, ⟨6⟩]) session).1 ∧
    SameOutcome (twofold.resolve catalog session).2.types
      (twofold.resolve (arranged ⟨8⟩ [⟨9⟩, ⟨6⟩]) session).2.types
      (twofold.resolve catalog session).1
      (twofold.resolve (arranged ⟨8⟩ [⟨9⟩, ⟨6⟩]) session).1 := by
  have hc : catalog.Grounded session.types := Catalog.Declared.grounded (by decide +kernel)
  have hrearranges : catalog.Rearranges (arranged ⟨8⟩ [⟨9⟩, ⟨6⟩]) :=
    Catalog.rearranges_update rfl (.swap ..)
  refine ⟨by decide +kernel, by decide +kernel, ?_, ?_⟩
  · obtain ⟨hiff, -, horder⟩ := resolve_rearranged (r := request) hc hrearranges rfl (by decide +kernel)
      (by decide +kernel)
    refine hiff.2 (horder fun A X hA hX => hrearranges.sameOrder_of_unambiguous ?_)
    -- above `G<H>`, `H`, `L<C>`, `M` and `C` there are no two instances of one definition
    have hencloses : session.Encloses catalog [⟨13⟩, ⟨10⟩, ⟨6⟩, ⟨9⟩, ⟨4⟩] := by decide +kernel
    have hunique : ∀ t ∈ [⟨13⟩, ⟨10⟩, ⟨6⟩, ⟨9⟩, ⟨4⟩], ∀ u ∈ (Engine.supertypes catalog t session).1.toList,
        ∀ v ∈ (Engine.supertypes catalog t session).1.toList,
        ∀ d ∈ (catalog.view (Engine.supertypes catalog t session).2.types).definitionOf u,
          (catalog.view (Engine.supertypes catalog t session).2.types).definitionOf v = some d →
            u = v := by decide +kernel
    obtain ⟨t, ht, htX⟩ := hX.exists_mem hc hencloses (by decide) hA
    exact unambiguous_of_supertypes hc htX rfl (hencloses.above t ht).1 (hunique t ht)
  · obtain ⟨hiff, -, horder⟩ := resolve_rearranged (r := twofold) hc hrearranges rfl (by decide +kernel)
      (by decide +kernel)
    refine hiff.2 (horder fun A X hA hX => hrearranges.sameOrder_of_unmoved hX fun S d hS hd => ?_)
    -- `H` is not the definition of `G<F>`, `F`, `L<C>`, `L<E>`, `C` or `E`
    have hencloses : session.Encloses catalog [⟨12⟩, ⟨8⟩, ⟨6⟩, ⟨7⟩, ⟨4⟩, ⟨5⟩] := by decide +kernel
    have hother : ∀ t ∈ [⟨12⟩, ⟨8⟩, ⟨6⟩, ⟨7⟩, ⟨4⟩, ⟨5⟩],
        (catalog.view session.types).definitionOf t ≠ some ⟨8⟩ := by decide +kernel
    obtain ⟨t, ht, htS⟩ := hS.exists_mem hc hencloses (by decide) hA
    have hne : ⟨8⟩ ≠ d := by
      rintro rfl
      exact hother t ht (by rw [catalog.definitionOf_eq hc.plain htS, hd])
    exact (Definitions.get?_update ..).trans (if_neg hne)

/-- A `G<F>` is served by `D<F, C>` where `F` declares `L<C>` before `L<E>`, and by `D<F, E>` where it
declares `L<E>` first: inference from `F : L<U>` takes the first, although ambiguity is rejected. -/
theorem resolve_rearranged_twofold :
    catalog.Declared session.types ∧
    catalog.Rearranges (arranged ⟨6⟩ [⟨7⟩, ⟨6⟩]) ∧
    twofold.options.ambiguity = .reject ∧
    Engine.cutShort (twofold.resolve catalog) session = false ∧
    Engine.cutShort (twofold.resolve (arranged ⟨6⟩ [⟨7⟩, ⟨6⟩])) session = false ∧
    ¬SameOutcome (twofold.resolve catalog session).2.types
      (twofold.resolve (arranged ⟨6⟩ [⟨7⟩, ⟨6⟩]) session).2.types
      (twofold.resolve catalog session).1
      (twofold.resolve (arranged ⟨6⟩ [⟨7⟩, ⟨6⟩]) session).1 := by
  refine ⟨by decide +kernel, Catalog.rearranges_update rfl (.swap ..), rfl, by decide +kernel,
    by decide +kernel, fun hsame => ?_⟩
  have hrun : (twofold.resolve catalog session).1 = .ok (.valid ⟨14⟩) := by decide +kernel
  have hrun' : (twofold.resolve (arranged ⟨6⟩ [⟨7⟩, ⟨6⟩]) session).1 = .ok (.valid ⟨14⟩) := by
    decide +kernel
  rw [hrun, hrun'] at hsame
  cases hsame with
  | valid ht hu =>
    have hDFC : (twofold.resolve catalog session).2.types.get? ⟨14⟩ = some (.app ⟨3⟩ [⟨8⟩, ⟨4⟩]) := by
      decide +kernel
    have hDFE : (twofold.resolve (arranged ⟨6⟩ [⟨7⟩, ⟨6⟩]) session).2.types.get? ⟨14⟩ =
        some (.app ⟨3⟩ [⟨8⟩, ⟨5⟩]) := by
      decide +kernel
    have hfirst : _ = Tree.app ⟨3⟩ [.named ⟨6⟩, .named ⟨4⟩] := ht.unique (.app hDFC
      (.cons (.named (by decide +kernel)) (.cons (.named (by decide +kernel)) .nil)))
    have hsecond : _ = Tree.app ⟨3⟩ [.named ⟨6⟩, .named ⟨5⟩] := hu.unique (.app hDFE
      (.cons (.named (by decide +kernel)) (.cons (.named (by decide +kernel)) .nil)))
    simpa using hfirst.symm.trans hsecond

end RearrangedSample

end Generics
