import Generics.Proofs.Mirroring.Resolving
import Generics.Proofs.Replay

/-!
# What else the store holds

A resolution reads the definitions and types that its request leads to.  A store that holds more
definitions and more types gives other handles to the types that it adds, but its outcome is the same:
the same error, or nothing, or the same tree.  Two requests therefore do not disturb each other.
-/

namespace Generics

variable {c c' : Catalog} {ts us : Types} {t : TypeId} {T : Tree}

/-- The definition that a node mentions. -/
def Node.mentioned : Node → DefId
  | .named d => d
  | .app d _ => d
  | .param p => p.owner

/-- Every definition is the same in `ds'`. -/
def Definitions.Grows (ds ds' : Definitions) : Prop :=
  ∀ d info, ds.get? d = some info → ds'.get? d = some info

instance (ds ds' : Definitions) : Decidable (ds.Grows ds') :=
  inferInstanceAs (Decidable (∀ d info, ds.get? d = some info → _))

namespace Catalog

/-- Every definition that an interned type mentions is known. -/
def Covers (c : Catalog) (ts : Types) : Prop :=
  ∀ t n, ts.get? t = some n → (c.definitions.get? n.mentioned).isSome

instance (c : Catalog) (ts : Types) : Decidable (c.Covers ts) :=
  inferInstanceAs (Decidable (∀ t n, ts.get? t = some n → _))

/-- The definitions that are known. -/
abbrev Known (c : Catalog) (d : DefId) : Prop := (c.definitions.get? d).isSome

theorem Covers.over (h : c.Covers ts) (ht : ts.Unfolds t T) : T.Over c.Known := by
  induction T using Tree.induct generalizing t with
  | named d =>
    cases ht with
    | named ht => exact .named (h _ _ ht)
  | param p =>
    cases ht with
    | param ht => exact .param (h _ _ ht)
  | app d Ts ih =>
    cases ht with
    | app ht hargs =>
      refine .app (h _ _ ht) fun T hT => ?_
      obtain ⟨a, -, ha⟩ := exists_of_mem_right hargs hT
      exact ih T hT ha

/-- A catalog with more definitions coincides with this one on what is known. -/
theorem Covers.coincide (h : c.Covers ts) (hc : c.Grounded ts) (hplain : c'.overrides = [])
    (hgrow : c.definitions.Grows c'.definitions) : c.Coincide c' c.Known ts where
  plain := hc.plain
  plain' := hplain
  definitions d hd := by
    obtain ⟨info, hinfo⟩ := Option.isSome_iff_exists.1 hd
    rw [hinfo, hgrow d info hinfo]
  supertypes d info _ hd t ht := (hc.supertypes d info hd t ht).imp fun _ hT => ⟨h.over hT, hT, hT⟩
  constraints p decl _ hp t ht := (hc.constraints p decl hp t ht).imp fun _ hT => ⟨h.over hT, hT, hT⟩

end Catalog

/-- Outcomes on two stores are the same: one error, no closed form on either, or closed forms that
unfold to one tree. -/
inductive SameOutcome (ts us : Types) :
    Except ResolveError Resolution → Except ResolveError Resolution → Prop
  | error (e : ResolveError) : SameOutcome ts us (.error e) (.error e)
  | invalid : SameOutcome ts us (.ok .invalid) (.ok .invalid)
  | valid {t u : TypeId} {T : Tree} (ht : ts.Unfolds t T) (hu : us.Unfolds u T) :
      SameOutcome ts us (.ok (.valid t)) (.ok (.valid u))

theorem Resolution.Twin.sameOutcome {K : DefId → Prop} {o o' : Resolution} (h : o.Twin K ts us o') :
    SameOutcome ts us (.ok o) (.ok o') := by
  cases h with
  | invalid => exact .invalid
  | valid h =>
    obtain ⟨T, -, ht, hu⟩ := h
    exact .valid ht hu

/-- A request about types that both stores hold has the same outcome in both. -/
theorem Request.mirrors_resolve {K : DefId → Prop} {r : Request} {A I : Tree}
    (hc : c.Coincide c' K ts) (hgrow : ts.Grows us) (hA : ts.Unfolds r.abstraction A)
    (hAK : A.Over K) (hI : ts.Unfolds r.implementation I) (hIK : I.Over K) :
    Engine.Mirrors (r.resolve c) (r.resolve c') ts us fun o o' ts' us' =>
      SameOutcome ts' us' o o' := by
  have hr : r.Twin K ts us r := ⟨⟨A, hAK, hA, hA.grow hgrow⟩, ⟨I, hIK, hI, hI.grow hgrow⟩, rfl⟩
  unfold resolve
  refine .query_bind c c' ?_
  rw [Catalog.examine_eq hc.plain hc.plain' hc.definitions hgrow hA hAK hI hIK]
  cases hi : (c.view ts).examine r.abstraction r.implementation with
  | error e => exact .pure (.error e)
  | ok i =>
    obtain ⟨-, ⟨I', hI', -, hdefinition⟩, hargs, -⟩ := (c.examine_eq_ok_iff hc.plain).1 hi
    obtain rfl := hI'.unique hI
    have hd : K i.definition := by
      cases hIK with
      | named h => exact Option.some.inj hdefinition ▸ h
      | app h => exact Option.some.inj hdefinition ▸ h
      | param => cases hdefinition
    have hi' : (c'.view us).argsOf r.implementation = i.args := by
      rw [hargs, ← c.argsOf_grow hc.plain hI hgrow, View.argsOf, View.argsOf,
        Catalog.view_node? hc.plain, Catalog.view_node? hc.plain']
    have hFs := hc.forall₂_argsOf hr.implementation
    rw [← hargs, hi'] at hFs
    dsimp only
    split
    · exact (mirrors_resolveClosed hc (.refl ts) hgrow hr).map fun _ _ _ _ _ _ ho => ho.sameOutcome
    refine (Engine.mirrors_definitionType hc hd).bind ?_
    rintro _ _ ts' us' hts hus (hopened | _)
    · exact (mirrors_resolveOpen hc hts (hgrow.trans hus) (hr.grow hts hus) hd rfl
        (forall₂_twin_grow hFs hts hus) rfl hopened).map fun _ _ _ _ _ _ ho => ho.sameOutcome
    · exact .pure (.error _)

/-- Two sessions answer a request alike. -/
theorem Request.sameOutcome_of_grows {r : Request} {s t : Session} (hc : c.Ordered s.types)
    (hcovers : c.Covers s.types) (hplain : c'.overrides = [])
    (hdefinitions : c.definitions.Grows c'.definitions) (htypes : s.types.Grows t.types)
    (habstraction : r.abstraction.val < s.types.size)
    (himplementation : r.implementation.val < s.types.size) :
    SameOutcome (r.resolve c s).2.types (r.resolve c' t).2.types (r.resolve c s).1
      (r.resolve c' t).1 := by
  obtain ⟨A, hA⟩ := hc.exists_unfolds habstraction
  obtain ⟨I, hI⟩ := hc.exists_unfolds himplementation
  obtain ⟨o, ts', o', us', cut, hrun, hrun', -, -, hsame⟩ :=
    mirrors_resolve (hcovers.coincide hc.grounded hplain hdefinitions) htypes hA (hcovers.over hA) hI
      (hcovers.over hI)
  obtain ⟨rfl, rfl, -⟩ := hrun s rfl
  obtain ⟨rfl, rfl, -⟩ := hrun' t rfl
  exact hsame

/-- The outcome of a request is the same on every store that holds more definitions and more types, so
two requests have the same outcomes in either order. -/
theorem resolve_independent {r : Request} {s t : Session} (hc : c.Ordered s.types)
    (hcovers : c.Covers s.types) (hplain : c'.overrides = [])
    (hdefinitions : c.definitions.Grows c'.definitions) (htypes : s.types.Grows t.types)
    (habstraction : r.abstraction.val < s.types.size)
    (himplementation : r.implementation.val < s.types.size) :
    SameOutcome (r.resolve c s).2.types (r.resolve c' t).2.types (r.resolve c s).1
        (r.resolve c' t).1 ∧
      ∀ q : Request, q.abstraction.val < s.types.size → q.implementation.val < s.types.size →
        SameOutcome (r.resolve c s).2.types (r.resolve c (q.resolve c s).2).2.types
          (r.resolve c s).1 (r.resolve c (q.resolve c s).2).1 ∧
        SameOutcome (q.resolve c s).2.types (q.resolve c (r.resolve c s).2).2.types
          (q.resolve c s).1 (q.resolve c (r.resolve c s).2).1 := by
  have hgrows : ∀ q : Request, q.abstraction.val < s.types.size →
      q.implementation.val < s.types.size → s.types.Grows (q.resolve c s).2.types := by
    intro q hA hI
    obtain ⟨A, hA⟩ := hc.exists_unfolds hA
    obtain ⟨I, hI⟩ := hc.exists_unfolds hI
    exact ((Request.settles_resolve hc.grounded hA hI).elim rfl).1
  have hsame : c.definitions.Grows c.definitions := fun _ _ h => h
  refine ⟨Request.sameOutcome_of_grows hc hcovers hplain hdefinitions htypes habstraction
    himplementation, fun q hA hI => ⟨?_, ?_⟩⟩
  · exact Request.sameOutcome_of_grows hc hcovers hc.plain hsame (hgrows q hA hI) habstraction
      himplementation
  · exact Request.sameOutcome_of_grows hc hcovers hc.plain hsame
      (hgrows r habstraction himplementation) hA hI

namespace FixedSample

/-- The catalog with one more class, `E`. -/
def larger : Catalog := { catalog with
  definitions.entries := catalog.definitions.entries.push { kind := .classType, name := ⟨6⟩ } }

/-- The session after `E` and `G<E>` have been interned. -/
def busy : Session where
  types := .ofNodes [.param ⟨⟨2⟩, 0⟩, .param ⟨⟨2⟩, 1⟩, .app ⟨1⟩ [⟨0⟩], .named ⟨3⟩,
    .app ⟨2⟩ [⟨0⟩, ⟨3⟩], .app ⟨1⟩ [⟨3⟩], .named ⟨4⟩, .app ⟨1⟩ [⟨6⟩]]

/-- A request for a `G<T>` that `D<T, C>` is to serve. -/
def other : Request := { abstraction := ⟨2⟩, implementation := ⟨4⟩ }

/-- The request is answered with `D<C, C>`, whatever the handle of that type, also after the other
request. -/
theorem resolve_independent_larger :
    (request.resolve catalog session).1 = .ok (.valid ⟨7⟩) ∧
    (request.resolve larger busy).1 = .ok (.valid ⟨9⟩) ∧
    (other.resolve catalog session).1 = .ok (.valid ⟨4⟩) ∧
    SameOutcome (request.resolve catalog session).2.types (request.resolve larger busy).2.types
      (.ok (.valid ⟨7⟩)) (.ok (.valid ⟨9⟩)) ∧
    SameOutcome (request.resolve catalog session).2.types
      (request.resolve catalog (other.resolve catalog session).2).2.types
      (request.resolve catalog session).1
      (request.resolve catalog (other.resolve catalog session).2).1 := by
  have hrun : (request.resolve catalog session).1 = .ok (.valid ⟨7⟩) := by decide +kernel
  have hrun' : (request.resolve larger busy).1 = .ok (.valid ⟨9⟩) := by decide +kernel
  have hindependent := resolve_independent (c := catalog) (r := request) (s := session) (t := busy)
    (by decide +kernel) (by decide +kernel) (rfl : larger.overrides = []) (by decide +kernel)
    (by decide +kernel) (by decide +kernel) (by decide +kernel)
  refine ⟨hrun, hrun', by decide +kernel, ?_, ?_⟩
  · have hsame := hindependent.1
    rwa [hrun, hrun'] at hsame
  · exact (hindependent.2 other (by decide +kernel) (by decide +kernel)).1

end FixedSample

end Generics
