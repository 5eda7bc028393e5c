import Generics.Proofs.Supertyping
import Generics.Proofs.Deciding

/-!
# The order of discovery

An enumeration that is nowhere refused finds all supertypes in the order of a depth-first search, which
is determined by what the definitions declare and in which order.
-/

namespace Generics

/-! ## Depth-first search -/

/-- From `found`, with `pending` still to come, a depth-first search ends with `found'`: what is found
already is passed over, and what is right above a new find comes before everything else. -/
inductive DepthFirst (c : Catalog) (base : Types) : List Tree → List Tree → List Tree → Prop
  | done (found : List Tree) : DepthFirst c base found [] found
  | known {T : Tree} {found pending found' : List Tree} (hT : T ∈ found)
      (hrest : DepthFirst c base found pending found') : DepthFirst c base found (T :: pending) found'
  | discover {T : Tree} {Us found pending found' : List Tree} (hT : T ∉ found)
      (hUs : DirectSupertypes c base T Us)
      (hrest : DepthFirst c base (found ++ [T]) (Us ++ pending) found') :
      DepthFirst c base found (T :: pending) found'

namespace DepthFirst

variable {c : Catalog} {base : Types} {found pending found' Us Vs : List Tree} {S T U : Tree}

/-- The order of discovery is determined. -/
theorem unique (h : DepthFirst c base found pending Us) (h' : DepthFirst c base found pending Vs) :
    Us = Vs := by
  induction h with
  | done =>
    cases h'
    rfl
  | known hT _ ih =>
    cases h' with
    | known _ hrest => exact ih hrest
    | discover hT' => exact absurd hT hT'
  | discover hT hUs _ ih =>
    cases h' with
    | known hT' => exact absurd hT' hT
    | discover _ hUs' hrest => exact ih (hUs.unique hUs' ▸ hrest)

/-- Nothing is found twice. -/
theorem nodup (h : DepthFirst c base found pending found') (hfound : found.Nodup) : found'.Nodup := by
  induction h with
  | done => exact hfound
  | known _ _ ih => exact ih hfound
  | discover hT _ _ ih =>
    refine ih (List.nodup_append.2 ⟨hfound, List.nodup_singleton _, fun U hU V hV heq => hT ?_⟩)
    rwa [← List.mem_singleton.1 hV, ← heq]

theorem sound (h : DepthFirst c base found pending found') (hfound : ∀ T ∈ found, Supertype c base S T)
    (hpending : ∀ T ∈ pending, Supertype c base S T) : ∀ T ∈ found', Supertype c base S T := by
  induction h with
  | done => exact hfound
  | known _ _ ih => exact ih hfound (List.forall_mem_cons.1 hpending).2
  | discover _ hUs _ ih =>
    obtain ⟨hT, hpending⟩ := List.forall_mem_cons.1 hpending
    refine ih (List.forall_mem_append.2 ⟨hfound, by simpa using hT⟩)
      (List.forall_mem_append.2 ⟨fun U hU => hT.tail (hUs.mem_iff.1 hU), hpending⟩)

/-- A search ends only when all that is pending has been found, and all that is right above a find. -/
theorem explored (h : DepthFirst c base found pending found') :
    found ⊆ found' ∧ pending ⊆ found' ∧
      ∀ T ∈ found', T ∈ found ∨ ∀ U, DirectSupertype c base T U → U ∈ found' := by
  induction h with
  | done => exact ⟨List.Subset.refl _, List.nil_subset _, fun T hT => .inl hT⟩
  | known hT _ ih => exact ⟨ih.1, List.cons_subset.2 ⟨ih.1 hT, ih.2.1⟩, ih.2.2⟩
  | discover _ hUs _ ih =>
    obtain ⟨hfound, hpending, hdirect⟩ := ih
    rw [List.append_subset] at hfound hpending
    refine ⟨hfound.1, List.cons_subset.2 ⟨hfound.2 (List.mem_singleton_self _), hpending.2⟩,
      fun T hT => ?_⟩
    rcases hdirect T hT with hold | hall
    · refine (List.mem_append.1 hold).imp id fun hself U hU => hpending.1 (hUs.mem_iff.2 ?_)
      rwa [← List.mem_singleton.1 hself]
    · exact .inr hall

/-- A search from a type finds just what lies above it. -/
theorem mem_iff (h : DepthFirst c base [] [T] Us) : U ∈ Us ↔ Supertype c base T U := by
  refine ⟨h.sound (by simp) (by simpa using .refl) U, fun hU => ?_⟩
  obtain ⟨-, hpending, hdirect⟩ := h.explored
  induction hU with
  | refl => exact hpending (List.mem_singleton_self T)
  | tail _ hstep ih => exact (hdirect _ ih).resolve_left List.not_mem_nil _ hstep

/-- A search does not depend on what is declared of types that it does not come across. -/
theorem congr {c' : Catalog} {P : Tree → Prop} (hP : Hereditary c base P)
    (hsame : ∀ S Us, P S → DirectSupertypes c base S Us → DirectSupertypes c' base S Us)
    (h : DepthFirst c base found pending found') (hpending : ∀ T ∈ pending, P T) :
    DepthFirst c' base found pending found' := by
  induction h with
  | done => exact .done _
  | known hT _ ih => exact .known hT (ih (List.forall_mem_cons.1 hpending).2)
  | discover hT hUs _ ih =>
    obtain ⟨hPT, hpending⟩ := List.forall_mem_cons.1 hpending
    refine .discover hT (hsame _ _ hPT hUs) (ih (List.forall_mem_append.2 ⟨fun U hU => ?_, hpending⟩))
    exact hP.above hPT (hUs.mem_iff.1 hU)

end DepthFirst

/-! ## Ascents as searches -/

namespace Ascent

variable {c : Catalog} {base : Types} {path found pending found' Ts found'' : List Tree}
  {refused : List (List Tree)}

/-- What comes first is found first. -/
theorem singleton_isPrefix {T : Tree} (h : Ascent c base path [] (T :: pending) found' refused) :
    [T] <+: found' := by
  cases h with
  | known hT => cases hT
  | refuse _ hrest => exact hrest.isPrefix
  | enter _ _ habove hrest => exact habove.isPrefix.trans hrest.isPrefix

/-- An ascent that is nowhere refused is depth first, whatever comes after it. -/
theorem depthFirst (h : Ascent c base path found pending found' refused) (hnone : refused = [])
    (hTs : DepthFirst c base found' Ts found'') : DepthFirst c base found (pending ++ Ts) found'' := by
  induction h generalizing Ts found'' with
  | done => exact hTs
  | known hT _ ih => exact .known hT (ih hnone hTs)
  | refuse => cases hnone
  | enter hT hUs _ _ ihabove ihrest =>
    obtain ⟨habove, hrest⟩ := List.append_eq_nil_iff.1 hnone
    exact .discover hT hUs (ihabove habove (ihrest hrest hTs))

end Ascent

/-- An enumeration finds what an ascent finds, which is nowhere refused unless this is noted. -/
theorem Engine.settles_supertypes_ascent {c : Catalog} {base ts : Types} {t : TypeId} {T : Tree}
    (hc : c.Grounded base) (hbase : base.Grows ts) (ht : ts.Unfolds t T) :
    Settles (supertypes c t) ts fun found us cut => ∃ Us refused,
      List.Forall₂ us.Unfolds found.toList Us ∧ Ascent c base [] [] [T] Us refused ∧
        (cut = false → refused = []) := by
  refine settles_supertypes_of_climbAll ((ascends_climbAll hc hbase ht).mono ?_)
  rintro w us cut - ⟨hcut, Us, refused, hw⟩
  exact ⟨hcut, Us, refused, hw.depicts.found, hw.ascent, hw.complete⟩

/-! ## The closure in depth-first order -/

/-- An enumeration starts with the type itself, lists no type twice and supertypes only; unless its guard
has refused a step it lists them all, in depth-first order. -/
theorem supertypes_closure {c : Catalog} {s : Session} {t : TypeId} {T : Tree}
    (hc : c.Grounded s.types) (ht : s.types.Unfolds t T) :
    (Engine.supertypes c t s).1.toList.head? = some t ∧ (Engine.supertypes c t s).1.toList.Nodup ∧
      ∃ Us, List.Forall₂ (Engine.supertypes c t s).2.types.Unfolds
          (Engine.supertypes c t s).1.toList Us ∧
        (∀ U ∈ Us, Supertype c s.types T U) ∧
        (Engine.cutShort (Engine.supertypes c t) s = false →
          (∀ U, Supertype c s.types T U → U ∈ Us) ∧ ∀ Vs, DepthFirst c s.types [] [T] Vs ↔ Vs = Us) := by
  obtain ⟨hgrow, habove, Us, refused, hUs, hascent, hrefused⟩ :=
    ((Engine.settles_supertypes hc (.refl s.types) ht).and
      (Engine.settles_supertypes_ascent hc (.refl s.types) ht)).elim rfl
  obtain ⟨rest, rfl⟩ := hascent.singleton_isPrefix
  refine ⟨?_, InternTable.nodup_toList _, _, hUs, fun U hU => ?_, fun hcut => ⟨fun U hU => ?_, ?_⟩⟩
  · generalize (Engine.supertypes c t s).1.toList = found at hUs
    cases hUs with
    | cons hu _ => exact congrArg some (hu.inj (ht.grow hgrow))
  · obtain ⟨u, hu, huU⟩ := exists_of_mem_right hUs hU
    obtain ⟨U', hU', hTU⟩ := habove.sound u hu
    exact huU.unique hU' ▸ hTU
  · obtain ⟨u, hu, huU⟩ := habove.complete hcut U hU
    obtain ⟨U', hU', huU'⟩ := exists_of_mem_left hUs hu
    exact huU.unique huU' ▸ hU'
  · have hfirst : DepthFirst c s.types [] [T] ([T] ++ rest) :=
      hascent.depthFirst (hrefused hcut) (.done _)
    exact fun Vs => ⟨fun h => h.unique hfirst, fun h => h ▸ hfirst⟩

/-! ## A class that shuffles its arguments -/

namespace ShuffleSample

/-- Interfaces `J<T>` and `I<T> : J<T>`, the class `A<T, U> : A<U, T>, I<T>`, and classes `C` and `E`. -/
def catalog : Catalog where
  definitions.entries := #[
    { kind := .interfaceType, name := ⟨1⟩, params := [{ name := ⟨2⟩ }] },
    { kind := .interfaceType, name := ⟨3⟩, params := [{ name := ⟨2⟩ }], interfaces := [⟨1⟩] },
    { kind := .classType, name := ⟨4⟩, params := [{ name := ⟨2⟩ }, { name := ⟨5⟩ }], base := some ⟨4⟩,
      interfaces := [⟨5⟩] },
    { kind := .classType, name := ⟨6⟩ },
    { kind := .classType, name := ⟨7⟩ }]

/-- The parameter of `I` and `J` over it, the parameters of `A`, its supertypes, `C`, `E` and `A<C, E>`. -/
def session : Session where
  types := .ofNodes [.param ⟨⟨2⟩, 0⟩, .app ⟨1⟩ [⟨0⟩], .param ⟨⟨3⟩, 0⟩, .param ⟨⟨3⟩, 1⟩,
    .app ⟨3⟩ [⟨3⟩, ⟨2⟩], .app ⟨2⟩ [⟨2⟩], .named ⟨4⟩, .named ⟨5⟩, .app ⟨3⟩ [⟨6⟩, ⟨7⟩]]

/-- The types after the supertypes of `A<C, E>` have been enumerated. -/
def climbed : Types := (Engine.supertypes catalog ⟨8⟩ session).2.types

/-- Above `A<C, E>` one finds `A<E, C>` first, then `I<E>` and `J<E>` above that, and `I<C>` and `J<C>`
last. -/
theorem supertypes_closure_shuffle :
    (Engine.supertypes catalog ⟨8⟩ session).1.toList = [⟨8⟩, ⟨9⟩, ⟨10⟩, ⟨11⟩, ⟨12⟩, ⟨13⟩] ∧
      DepthFirst catalog session.types [] [.app ⟨3⟩ [.named ⟨4⟩, .named ⟨5⟩]]
        [.app ⟨3⟩ [.named ⟨4⟩, .named ⟨5⟩], .app ⟨3⟩ [.named ⟨5⟩, .named ⟨4⟩], .app ⟨2⟩ [.named ⟨5⟩],
          .app ⟨1⟩ [.named ⟨5⟩], .app ⟨2⟩ [.named ⟨4⟩], .app ⟨1⟩ [.named ⟨4⟩]] := by
  have hc : catalog.Grounded session.types := Catalog.WellDeclared.grounded (by decide +kernel)
  have hfound : (Engine.supertypes catalog ⟨8⟩ session).1.toList =
      [⟨8⟩, ⟨9⟩, ⟨10⟩, ⟨11⟩, ⟨12⟩, ⟨13⟩] := by decide +kernel
  obtain ⟨-, -, Us, hUs, -, hall⟩ := supertypes_closure hc
    (.app rfl (.cons (.named rfl) (.cons (.named rfl) .nil)) :
      session.types.Unfolds ⟨8⟩ (.app ⟨3⟩ [.named ⟨4⟩, .named ⟨5⟩]))
  obtain ⟨-, horder⟩ := hall (by decide +kernel)
  refine ⟨hfound, (horder _).2 ?_⟩
  have hC : climbed.Unfolds ⟨6⟩ (.named ⟨4⟩) := .named (by decide +kernel)
  have hE : climbed.Unfolds ⟨7⟩ (.named ⟨5⟩) := .named (by decide +kernel)
  have hargs : List.Forall₂ climbed.Unfolds [⟨6⟩, ⟨7⟩] [.named ⟨4⟩, .named ⟨5⟩] :=
    .cons hC (.cons hE .nil)
  have hshuffled : List.Forall₂ climbed.Unfolds [⟨7⟩, ⟨6⟩] [.named ⟨5⟩, .named ⟨4⟩] :=
    .cons hE (.cons hC .nil)
  have hlist : List.Forall₂ climbed.Unfolds [⟨8⟩, ⟨9⟩, ⟨10⟩, ⟨11⟩, ⟨12⟩, ⟨13⟩]
      [.app ⟨3⟩ [.named ⟨4⟩, .named ⟨5⟩], .app ⟨3⟩ [.named ⟨5⟩, .named ⟨4⟩], .app ⟨2⟩ [.named ⟨5⟩],
        .app ⟨1⟩ [.named ⟨5⟩], .app ⟨2⟩ [.named ⟨4⟩], .app ⟨1⟩ [.named ⟨4⟩]] :=
    .cons (.app (by decide +kernel) hargs) <| .cons (.app (by decide +kernel) hshuffled) <|
      .cons (.app (by decide +kernel) (.cons hE .nil)) <|
      .cons (.app (by decide +kernel) (.cons hE .nil)) <|
      .cons (.app (by decide +kernel) (.cons hC .nil)) <|
      .cons (.app (by decide +kernel) (.cons hC .nil)) .nil
  rw [hfound] at hUs
  exact eq_of_forall₂ hlist hUs fun _ _ _ _ _ hU hV => hU.unique hV

end ShuffleSample

end Generics
