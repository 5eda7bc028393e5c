import Generics.Proofs.Deciding
import Generics.Proofs.Resolution

/-!
# Resolutions are sound

The closed type that a resolution answers with serves the abstraction and is an instance of the
implementation.  Both can be checked on the store that the resolution leaves behind: construction
and assignability answer there what they answered on the way.
-/

namespace Generics

/-! ## Stores whose types are finite -/

namespace Catalog

/-- No shape is replaced, declarations mention known types, and applications mention older types. -/
structure Ordered (c : Catalog) (ts : Types) : Prop where
  plain : c.overrides = []
  supertypes : ∀ d info, c.definitions.get? d = some info → ∀ t ∈ info.supertypes, t.val < ts.size
  constraints : ∀ d info, c.definitions.get? d = some info → ∀ decl ∈ info.params,
    ∀ t ∈ decl.constraints, t.val < ts.size
  arguments : ∀ t n, ts.get? t = some n → ∀ a ∈ n.args, a.val < t.val

instance (c : Catalog) (ts : Types) : Decidable (c.Ordered ts) :=
  decidable_of_iff _ ⟨fun h : _ ∧ _ ∧ _ ∧ _ => ⟨h.1, h.2.1, h.2.2.1, h.2.2.2⟩,
    fun h => ⟨h.plain, h.supertypes, h.constraints, h.arguments⟩⟩

theorem Ordered.exists_unfolds {c : Catalog} {ts : Types} (h : c.Ordered ts) {t : TypeId}
    (ht : t.val < ts.size) : ∃ T, ts.Unfolds t T := by
  induction hn : t.val using Nat.strongRecOn generalizing t with
  | ind n ih =>
    cases hget : ts.get? t with
    | none => exact absurd ((ts.get?_eq_none_iff t).1 hget) (Nat.not_le_of_lt ht)
    | some node =>
      cases node with
      | named d => exact ⟨_, .named hget⟩
      | param p => exact ⟨_, .param hget⟩
      | app d args =>
        have hargs : ∀ a ∈ args, ∃ A, ts.Unfolds a A := by
          intro a ha
          have hlt := h.arguments t _ hget a ha
          exact ih a.val (hn ▸ hlt) (Nat.lt_trans hlt ht) rfl
        obtain ⟨As, hAs⟩ := forall₂_of_forall_exists hargs
        exact ⟨_, .app hget hAs⟩

theorem Ordered.grounded {c : Catalog} {ts : Types} (h : c.Ordered ts) : c.Grounded ts where
  plain := h.plain
  supertypes d info hinfo t ht := h.exists_unfolds (h.supertypes d info hinfo t ht)
  constraints p decl hdecl t ht := by
    obtain ⟨info, hinfo, hdecl⟩ := Option.bind_eq_some_iff.1 hdecl
    exact h.exists_unfolds (h.constraints p.owner info hinfo decl (List.mem_of_getElem? hdecl) t ht)

end Catalog

/-! ## Sound outcomes -/

namespace Request

variable {c : Catalog} {base ts us : Types} {r : Request} {i : Implementation} {A I : Tree}
  {Fs : List Tree} {opened : TypeId} {O : Tree}

/-- `closed` is an instance of the implementation that passes its checks, now and later. -/
def Sound (c : Catalog) (base us : Types) (r : Request) (i : Implementation) (Fs : List Tree)
    (closed : TypeId) : Prop :=
  ∃ found xs σ h, (r.closing i).Solution c base us Fs found xs σ h ∧
    us.Unfolds closed (.apply i.definition (Fs.map (Tree.subst h))) ∧
    (r.closing i).Checks c us r.abstraction xs closed

theorem Sound.grow {closed : TypeId} (h : Sound c base ts r i Fs closed) (hgrow : ts.Grows us) :
    Sound c base us r i Fs closed := by
  obtain ⟨found, xs, σ, h, hsolution, hclosed, hchecks⟩ := h
  exact ⟨found, xs, σ, h, hsolution.grow hgrow, hclosed.grow hgrow, hchecks.grow hgrow⟩

/-- An implementation without parameters is the answer if the abstraction accepts it, unless a guard
objects, and only then. -/
theorem settles_resolveClosed (hc : c.Grounded base) (hbase : base.Grows ts)
    (hA : ts.Unfolds r.abstraction A) (hI : ts.Unfolds r.implementation I) :
    Engine.Settles (r.resolveClosed c) ts fun outcome us cut =>
      (∀ closed, outcome = .valid closed → closed = r.implementation ∧
        Engine.Lasts (Engine.isAssignable c r.abstraction r.implementation) us true) ∧
      (cut = false → Accepts c base A I → outcome = .valid r.implementation) := by
  unfold resolveClosed
  refine (Engine.settles_isAssignable hc hbase hA hI).lasts.bind ?_
  rintro valid us cut - ⟨⟨-, hcomplete⟩, hlasts⟩
  refine .report_bind c _ (.pure ⟨fun closed hclosed => ?_, fun hcut haccepts => ?_⟩)
  · cases valid with
    | true =>
      cases hclosed
      exact ⟨rfl, hlasts⟩
    | false => cases hclosed
  · rw [Bool.or_false] at hcut
    rw [hcomplete hcut haccepts, if_pos rfl]

/-- What is known of the end of a resolution through the open definition `O`, if `P` is known of the
types that candidates lead to, and if a candidate of which `Q` holds leads to one. -/
structure Ends (c : Catalog) (base us : Types) (r : Request) (opened : TypeId) (O A : Tree)
    (P : Types → Candidate → TypeId → Prop) (Q : Candidate → Prop) (closed : List TypeId)
    (cut : Bool) : Prop where
  found : ∃ above : InternTable TypeId, ∃ requested, Engine.Lasts (Engine.supertypes c opened) us above ∧
    us.get? r.abstraction = some requested ∧
    (∀ t ∈ closed, ∃ b ∈ (c.view us).candidatesAmong above.toList r.abstraction requested,
      (∃ B, b.Fits c base us O A B) ∧ P us b t) ∧
    (cut = false → (∃ b ∈ (c.view us).candidatesAmong above.toList r.abstraction requested, Q b) →
      closed ≠ [])
  nodup : closed.Nodup
  first : r.options.ambiguity = .firstMatch → closed.length ≤ 1

/-- What is known of every closed type that a candidate leads to is known of the closed types that the
resolution ends in. -/
theorem settles_resolveOpen_of {P : Types → Candidate → TypeId → Prop} {Q : Candidate → Prop}
    (hc : c.Grounded base) (hbase : base.Grows ts) (hA : ts.Unfolds r.abstraction A)
    (hopened : ts.Unfolds opened O) (hP : ∀ us vs b t, us.Grows vs → P us b t → P vs b t)
    (hclose : ∀ requested b B us, ts.Grows us → b.Fits c base us O A B →
      List.Forall₂ us.Unfolds requested A.args → Engine.Settles
        (r.closeThrough c (r.closing i) ((c.view ts).paramsOf i.definition opened) requested b) us
        fun outcome vs cut => (∀ t, outcome = .ok t → P vs b t) ∧
          (cut = false → Q b → ∃ t, outcome = .ok t)) :
    Engine.Settles (r.resolveOpen c i opened) ts fun outcome us cut => ∃ closed,
      outcome = .ofClosed closed ∧ Ends c base us r opened O A P Q closed cut := by
  unfold resolveOpen
  refine .query_bind c (fun vs hvs => c.paramsOf_grow hc.plain hopened hvs i.definition) ?_
  refine (Engine.settles_candidates hc hbase hopened hA).bind ?_
  rintro candidates us cut hgrow ⟨above, requested, hlasts, hnode, habove, rfl⟩
  have hA' := hA.grow hgrow
  have hfits := fun b => Engine.exists_fits (b := b) hc.plain habove hA' hnode
  split
  · rename_i hempty
    refine .report_bind c _ (.pure ⟨[], rfl, ⟨above, requested, hlasts, hnode, by simp, ?_⟩, .nil,
      fun _ => Nat.zero_le _⟩)
    rintro - ⟨b, hb, -⟩
    rw [List.isEmpty_iff.1 hempty] at hb
    cases hb
  refine .query_bind c (fun vs hvs => c.argsOf_grow hc.plain hA' hvs) ?_
  refine (settles_closedThrough (P := P) (Q := Q) hP (fun b hb vs hvs => ?_) .nil).bind ?_
  · obtain ⟨B, hB⟩ := hfits b hb
    exact hclose _ b B vs (hgrow.trans hvs) (hB.grow hvs)
      (Types.forall₂_unfolds_grow (Engine.exists_argsOf_unfold hc.plain hA') hvs)
  · rintro closed vs cut' hvs ⟨hfound, hnodup, hfirst, hnonempty⟩
    have hcandidates : (c.view vs).candidatesAmong above.toList r.abstraction requested =
        (c.view us).candidatesAmong above.toList r.abstraction requested :=
      Engine.candidatesAmong_grow hc.plain (fun u hu => (habove.sound u hu).imp fun _ => And.left)
        requested hvs
    have hends : ∀ cut'', (cut'' = false → cut' = false) →
        Ends c base vs r opened O A P Q closed cut'' := fun cut'' hcut'' =>
      ⟨⟨above, requested, hlasts.grow hvs, hvs _ _ hnode, fun t ht => by
        obtain ⟨b, hb, hPb⟩ := (hfound t ht).resolve_left List.not_mem_nil
        obtain ⟨B, hB⟩ := hfits b hb
        exact ⟨b, hcandidates ▸ hb, ⟨B, hB.grow hvs⟩, hPb⟩,
        fun hcut hQ => hnonempty (hcut'' hcut) (.inr (hcandidates ▸ hQ))⟩, hnodup, hfirst⟩
    have hcut : ∀ b : Bool, (cut || (cut' || b)) = false → cut' = false := fun b h => by
      simp only [Bool.or_eq_false_iff] at h
      exact h.2.1
    split
    · exact .report_bind c _ (.pure ⟨closed, rfl, hends _ (hcut _)⟩)
    · exact .pure ⟨closed, rfl, hends _ (hcut _)⟩

theorem Ends.of_eq_valid {us : Types} {P : Types → Candidate → TypeId → Prop} {Q : Candidate → Prop}
    {closed : List TypeId} {cut : Bool} {t : TypeId} (h : Ends c base us r opened O A P Q closed cut)
    (ht : Resolution.ofClosed closed = .valid t) : ∃ above : InternTable TypeId, ∃ requested b B,
      Engine.Lasts (Engine.supertypes c opened) us above ∧ us.get? r.abstraction = some requested ∧
      b ∈ (c.view us).candidatesAmong above.toList r.abstraction requested ∧
      b.Fits c base us O A B ∧ P us b t := by
  obtain ⟨above, requested, hlasts, hnode, hall, -⟩ := h.found
  unfold Resolution.ofClosed at ht
  split at ht
  · cases ht
    obtain ⟨b, hb, ⟨B, hB⟩, hP⟩ := hall t (List.mem_singleton_self t)
    exact ⟨above, requested, b, B, hlasts, hnode, hb, hB, hP⟩
  · cases ht

theorem settles_resolveOpen (hc : c.Grounded base) (hbase : base.Grows ts)
    (hA : ts.Unfolds r.abstraction A) (hargs : List.Forall₂ ts.Unfolds i.args Fs)
    (hopened : ts.Unfolds opened O) :
    Engine.Settles (r.resolveOpen c i opened) ts fun outcome us _ => ∀ closed,
      outcome = .valid closed → Sound c base us r i Fs closed := by
  refine (settles_resolveOpen_of (P := fun us _ t => Sound c base us r i Fs t) (Q := fun _ => False) hc
    hbase hA hopened (fun _ _ _ _ hvs h => h.grow hvs) ?_).mono ?_
  · intro requested b B us hus hB hAs
    refine (settles_closeThrough (k := r.closing i) _ _ hc (hbase.trans hus) (hA.grow hus)
      (Types.forall₂_unfolds_grow hargs hus) hB.args hAs).mono ?_
    rintro outcome vs _ - ⟨answer, -, hleads⟩
    refine ⟨fun t ht => ?_, fun _ => False.elim⟩
    obtain ⟨found, xs, σ, h, -, hsound⟩ := hleads.sound t ht
    exact ⟨found, xs, σ, h, hsound⟩
  · rintro _ us cut - ⟨closed, rfl, hends⟩ t ht
    obtain ⟨-, -, -, -, -, -, -, -, hsound⟩ := hends.of_eq_valid ht
    exact hsound

/-- What is known of the outcomes of requests through the open definition holds of a resolution that
ends in a closed type. -/
theorem of_resolve_eq_valid_of {s : Session} (hc : c.Grounded s.types) {closed : TypeId}
    {P : Implementation → Tree → Types → TypeId → Prop}
    (hopen : ∀ i A I us opened info, s.types.Grows us →
      (c.view s.types).examine r.abstraction r.implementation = .ok i →
      us.Unfolds r.abstraction A → A.Wellformed c.definitions →
      us.Unfolds r.implementation I → List.Forall₂ us.Unfolds i.args I.args →
      c.definitions.get? i.definition = some info →
      us.Unfolds opened (.opened i.definition info.arity) →
      Engine.Settles (r.resolveOpen c i opened) us fun outcome vs _ => ∀ closed,
        outcome = .valid closed → P i I vs closed)
    (h : (r.resolve c s).1 = .ok (.valid closed)) :
    ∃ i I, (c.view s.types).examine r.abstraction r.implementation = .ok i ∧
      s.types.Unfolds r.implementation I ∧ s.types.Grows (r.resolve c s).2.types ∧
      if i.free = [] then closed = r.implementation ∧
        Engine.Lasts (Engine.isAssignable c r.abstraction closed) (r.resolve c s).2.types true
      else P i I (r.resolve c s).2.types closed := by
  cases hi : (c.view s.types).examine r.abstraction r.implementation with
  | error e =>
    have hrun : Engine.Runs (r.resolve c) s.types (.error e) s.types false := by
      unfold resolve
      refine (Engine.Runs.query c _ s.types).bind ?_
      rw [hi]
      exact .pure _ s.types
    rw [(hrun s rfl).1] at h
    cases h
  | ok i =>
    obtain ⟨⟨A, hA, hAwf, -⟩, ⟨I, hI, hwf, hdefinition⟩, hargs, -⟩ :=
      (c.examine_eq_ok_iff hc.plain).1 hi
    have hFs : List.Forall₂ s.types.Unfolds i.args I.args := by
      rw [hargs]
      exact Engine.exists_argsOf_unfold hc.plain hI
    refine ⟨i, I, rfl, hI, ?_⟩
    split
    · rename_i hfree
      have hclosed : Engine.Settles (Except.ok (ε := ResolveError) <$> r.resolveClosed c) s.types
          fun res us _ => ∀ closed, res = .ok (.valid closed) → closed = r.implementation ∧
            Engine.Lasts (Engine.isAssignable c r.abstraction r.implementation) us true :=
        (settles_resolveClosed hc (.refl _) hA hI).map fun outcome us _ _ hQ closed heq =>
          hQ.1 closed (Except.ok.inj heq)
      obtain ⟨hgrow, hQ⟩ := (settles_resolve_of_free_eq_nil hc.plain hi hfree hclosed).elim rfl
      obtain ⟨rfl, hlasts⟩ := hQ closed h
      exact ⟨hgrow, rfl, hlasts⟩
    · rename_i hfree
      obtain ⟨info, hinfo⟩ := hwf.exists_definition hdefinition
      have hresolve := settles_resolve_of_free_ne_nil (P := fun res us _ => ∀ closed,
        res = .ok (.valid closed) → P i I us closed) hc.plain hi hfree <| by
        refine (Engine.settles_definitionType c i.definition s.types).bind ?_
        rintro o us _ hgrow ⟨rfl, hopened⟩
        simp only [hinfo] at hopened
        obtain ⟨opened, rfl, hopened⟩ := hopened
        exact (hopen i A I us opened info hgrow hi (hA.grow hgrow) hAwf (hI.grow hgrow)
          (Types.forall₂_unfolds_grow hFs hgrow) hinfo hopened).map fun outcome us _ _ hQ closed heq =>
            hQ closed (Except.ok.inj heq)
      obtain ⟨hgrow, hQ⟩ := hresolve.elim rfl
      exact ⟨hgrow, hQ closed h⟩

/-- A resolution that ends in a closed type. -/
theorem of_resolve_eq_valid {s : Session} (hc : c.Grounded s.types) {closed : TypeId}
    (h : (r.resolve c s).1 = .ok (.valid closed)) :
    ∃ i I, (c.view s.types).examine r.abstraction r.implementation = .ok i ∧
      s.types.Unfolds r.implementation I ∧ s.types.Grows (r.resolve c s).2.types ∧
      if i.free = [] then closed = r.implementation ∧
        Engine.Lasts (Engine.isAssignable c r.abstraction closed) (r.resolve c s).2.types true
      else Sound c s.types (r.resolve c s).2.types r i I.args closed :=
  of_resolve_eq_valid_of (P := fun i I us closed => Sound c s.types us r i I.args closed) hc
    (fun _ _ _ _ _ _ hgrow _ hA _ _ hargs _ hopened => settles_resolveOpen hc hgrow hA hargs hopened) h

end Request

/-! ## The closed type -/

/-- `closed` is `implementation` with exactly the parameters it mentions replaced as `σ` says, and its
definition can be applied to the arguments that result. -/
structure Instantiates (c : Catalog) (s : Session) (implementation closed : TypeId)
    (σ : Substitution) : Prop where
  domain : ∀ p, p ∈ σ.domain ↔ p ∈ (c.view s.types).params implementation
  image : (Engine.instantiate c implementation σ s).1 = closed
  /-- Arguments that mention no parameter are kept. -/
  fixed : ∀ (i : Nat) (a : TypeId), ((c.view s.types).argsOf implementation)[i]? = some a →
    (c.view s.types).params a = [] → ((c.view s.types).argsOf closed)[i]? = some a
  constructed : ∃ d, (c.view s.types).definitionOf implementation = some d ∧
    (Engine.construct c d ((c.view s.types).argsOf closed) s).1 = .ok closed

variable {c : Catalog} {r : Request}

theorem instantiates_of_sound {base : Types} {s s' : Session} (hplain : c.overrides = []) {i : Implementation}
    {I : Tree} {closed : TypeId} (hgrow : s.types.Grows s'.types)
    (hi : (c.view s.types).examine r.abstraction r.implementation = .ok i) (hfree : i.free ≠ [])
    (hI : s.types.Unfolds r.implementation I) (h : Request.Sound c base s'.types r i I.args closed) :
    ∃ σ, Instantiates c s' r.implementation closed σ := by
  obtain ⟨-, ⟨I', hI₀, -, hd⟩, -, hparams, -⟩ := (c.examine_eq_ok_iff hplain).1 hi
  obtain rfl := hI₀.unique hI
  obtain ⟨found, xs, σ, h, hsolution, hclosed, hchecks⟩ := h
  have hI' := hI.grow hgrow
  obtain ⟨p, hp⟩ := List.exists_mem_of_ne_nil _ hfree
  rw [hparams, c.mem_params_iff hplain hI, Tree.mem_params_iff_mem_args (by simp [hd])] at hp
  obtain ⟨A, hA, -⟩ := hp
  have happly := Tree.eq_apply_of_args_ne_nil hd (List.ne_nil_of_mem hA)
  have hsubst : I'.subst h = .apply i.definition (I'.args.map (Tree.subst h)) := by
    rw [← Tree.subst_apply, ← happly]
  -- The arguments of the closed type are those it was constructed from.
  have hxs : (c.view s'.types).argsOf closed = xs := by
    refine Types.forall₂_unfolds_inj (Engine.exists_argsOf_unfold hplain hclosed) ?_
    rw [Tree.args_apply]
    exact hsolution.args
  refine ⟨σ, fun p => ?_, ?_, fun j a ha hclosed => ?_, i.definition, ?_, ?_⟩
  · rw [← Substitution.contains_iff_mem_domain, hsolution.domain, c.params_grow hplain hI hgrow,
      ← hparams, Request.closing]
  · obtain ⟨hgrow', himage, -⟩ :=
      (Engine.settles_instantiate hplain hI' hsolution.unfolds).elim rfl
    exact himage.inj (hsubst ▸ hclosed.grow hgrow')
  · obtain ⟨F, hF, haF⟩ := exists_getElem?_of_forall₂ (Engine.exists_argsOf_unfold hplain hI') ha
    have hself : F.subst h = F := Tree.subst_eq_self fun p hp => by
      rw [← c.mem_params_iff hplain haF, hclosed] at hp
      cases hp
    obtain ⟨x, hx, hxF⟩ := exists_getElem?_of_forall₂ hsolution.args.flip
      (show (I'.args.map (Tree.subst h))[j]? = some F by rw [List.getElem?_map, hF, Option.map_some, hself])
    rw [hxs, hx, haF.inj hxF]
  · exact (c.definitionOf_eq hplain hI').trans hd
  · rw [hxs]
    exact hchecks.constructed.answer_eq (.refl _)

/-- A resolution is sound: the abstraction accepts the closed type, which is the implementation itself
if that mentions no parameter, and else an instance of it whose construction succeeds. -/
theorem resolve_sound {s : Session} (hc : c.Ordered s.types) {closed : TypeId}
    (h : (r.resolve c s).1 = .ok (.valid closed)) :
    (Engine.isAssignable c r.abstraction closed (r.resolve c s).2).1 = true ∧
      ((c.view s.types).params r.implementation = [] ∧ closed = r.implementation ∨
        ∃ σ, Instantiates c (r.resolve c s).2 r.implementation closed σ) := by
  obtain ⟨i, I, hi, hI, hgrow, hcases⟩ := Request.of_resolve_eq_valid hc.grounded h
  have hparams : i.free = (c.view s.types).params r.implementation :=
    ((c.examine_eq_ok_iff hc.plain).1 hi).2.2.2.1
  split at hcases
  · rename_i hfree
    obtain ⟨rfl, haccepted⟩ := hcases
    exact ⟨haccepted.answer_eq (.refl _), .inl ⟨hparams ▸ hfree, rfl⟩⟩
  · rename_i hfree
    refine ⟨?_, .inr (instantiates_of_sound hc.plain hgrow hi hfree hI hcases)⟩
    obtain ⟨found, xs, σ, h, -, -, hchecks⟩ := hcases
    exact hchecks.accepted.answer_eq (.refl _)

/-! ## A partial closure -/

namespace FixedSample

/-- An interface `G<T>`, a class `D<T, U> : G<T>`, and a class `C`. -/
def catalog : Catalog where
  definitions.entries := #[
    { kind := .interfaceType, name := ⟨1⟩, params := [{ name := ⟨2⟩ }] },
    { kind := .classType, name := ⟨3⟩, params := [{ name := ⟨2⟩ }, { name := ⟨4⟩ }],
      interfaces := [⟨2⟩] },
    { kind := .classType, name := ⟨5⟩ }]

/-- The parameters `T` and `U` of `D`, then `G<T>`, `C`, `D<T, C>` and `G<C>`. -/
def session : Session where
  types := .ofNodes [.param ⟨⟨2⟩, 0⟩, .param ⟨⟨2⟩, 1⟩, .app ⟨1⟩ [⟨0⟩], .named ⟨3⟩,
    .app ⟨2⟩ [⟨0⟩, ⟨3⟩], .app ⟨1⟩ [⟨3⟩]]

/-- A request for a `G<C>` that `D<T, C>` is to serve. -/
def request : Request := { abstraction := ⟨5⟩, implementation := ⟨4⟩ }

/-- The request ends in `D<C, C>`. -/
theorem resolve_sound_partial :
    (Engine.isAssignable catalog request.abstraction ⟨7⟩ (request.resolve catalog session).2).1 =
        true ∧
      ((catalog.view session.types).params request.implementation = [] ∧
          ⟨7⟩ = request.implementation ∨
        ∃ σ, Instantiates catalog (request.resolve catalog session).2 request.implementation ⟨7⟩ σ) :=
  have hordered : catalog.Ordered session.types := by decide +kernel
  have hrun : (request.resolve catalog session).1 = .ok (.valid ⟨7⟩) := by decide +kernel
  resolve_sound hordered hrun

end FixedSample

end Generics
