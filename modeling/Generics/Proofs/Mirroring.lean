import Generics.Proofs.Settling
import Generics.Proofs.Twins

/-!
# Runs side by side

Two computations mirror each other when their runs, each on a store of its own, end in answers that
correspond, and a guard cuts either both short or neither.  A computation under a guard moreover gives
back guards that correspond: they are visiting twins and have taken as many steps.  The rules of this
file follow those for settling.
-/

namespace Generics

/-- Both fail, or both succeed with values that correspond. -/
inductive ExceptRel {ε α β : Type} (Q : α → β → Prop) : Except ε α → Except ε β → Prop
  | error (e e' : ε) : ExceptRel Q (.error e) (.error e')
  | ok {a : α} {b : β} (h : Q a b) : ExceptRel Q (.ok a) (.ok b)

namespace ExceptRel

variable {ε α α' β β' : Type} {P : α → α' → Prop} {Q : β → β' → Prop} {x : Except ε α}
  {x' : Except ε α'}

theorem bind {f : α → Except ε β} {f' : α' → Except ε β'} (hx : ExceptRel P x x')
    (hf : ∀ a a', P a a' → ExceptRel Q (f a) (f' a')) : ExceptRel Q (x >>= f) (x' >>= f') := by
  cases hx with
  | error => exact .error _ _
  | ok ha => exact hf _ _ ha

theorem map {f : α → β} {f' : α' → β'} (hx : ExceptRel P x x')
    (hf : ∀ a a', P a a' → Q (f a) (f' a')) : ExceptRel Q (x.map f) (x'.map f') := by
  cases hx with
  | error => exact .error _ _
  | ok ha => exact .ok (hf _ _ ha)

theorem foldlM {S : α → α' → Prop} {f : β → α → Except ε β} {f' : β' → α' → Except ε β'} {l : List α}
    {l' : List α'} {b : β} {b' : β'} (hl : List.Forall₂ S l l') (hinit : Q b b')
    (hstep : ∀ a a' b b', S a a' → Q b b' → ExceptRel Q (f b a) (f' b' a')) :
    ExceptRel Q (l.foldlM f b) (l'.foldlM f' b') := by
  induction hl generalizing b b' with
  | nil => exact .ok hinit
  | cons ha _ ih => exact (hstep _ _ b b' ha hinit).bind fun b b' => ih

theorem mapM {S : α → α' → Prop} {f : α → Except ε β} {f' : α' → Except ε β'} {l : List α}
    {l' : List α'} (hl : List.Forall₂ S l l')
    (hf : ∀ a a', S a a' → ExceptRel Q (f a) (f' a')) :
    ExceptRel (List.Forall₂ Q) (l.mapM f) (l'.mapM f') := by
  induction hl with
  | nil => exact .ok .nil
  | cons ha _ ih =>
    rw [List.mapM_cons, List.mapM_cons]
    exact (hf _ _ ha).bind fun b b' hb => ih.bind fun bs bs' hbs => .ok (.cons hb hbs)

end ExceptRel

namespace Engine

variable {α α' β β' : Type} {m : Engine α} {m' : Engine α'} {f : α → Engine β} {f' : α' → Engine β'}
  {ts us : Types} {P : α → α' → Types → Types → Prop} {Q : β → β' → Types → Types → Prop}

/-- From `ts` and `us`, the runs of `m` and `m'` end in answers and stores that satisfy `Q`, and both
are cut short or neither is. -/
def Mirrors (m : Engine α) (m' : Engine α') (ts us : Types)
    (Q : α → α' → Types → Types → Prop) : Prop :=
  ∃ a ts' a' us' cut, Runs m ts a ts' cut ∧ Runs m' us a' us' cut ∧ ts.Grows ts' ∧ us.Grows us' ∧
    Q a a' ts' us'

namespace Mirrors

theorem pure {a : α} {a' : α'} (h : P a a' ts us) :
    Mirrors (Pure.pure a) (Pure.pure a') ts us P :=
  ⟨a, ts, a', us, false, Runs.pure a ts, Runs.pure a' us, .refl ts, .refl us, h⟩

theorem bind (hm : Mirrors m m' ts us P)
    (hf : ∀ a a' ts' us', ts.Grows ts' → us.Grows us' → P a a' ts' us' →
      Mirrors (f a) (f' a') ts' us' Q) : Mirrors (m >>= f) (m' >>= f') ts us Q := by
  obtain ⟨a, ts', a', us', cut, hrun, hrun', hts, hus, hP⟩ := hm
  obtain ⟨b, ts'', b', us'', cut', hrun₁, hrun₁', hts', hus', hQ⟩ := hf a a' ts' us' hts hus hP
  exact ⟨b, ts'', b', us'', cut || cut', hrun.bind hrun₁, hrun'.bind hrun₁', hts.trans hts',
    hus.trans hus', hQ⟩

theorem map {g : α → β} {g' : α' → β'} (hm : Mirrors m m' ts us P)
    (h : ∀ a a' ts' us', ts.Grows ts' → us.Grows us' → P a a' ts' us' → Q (g a) (g' a') ts' us') :
    Mirrors (g <$> m) (g' <$> m') ts us Q :=
  hm.bind fun a a' ts' us' hts hus hP => pure (h a a' ts' us' hts hus hP)

/-- Computations that settle mirror each other if what is known of them tells so. -/
theorem of_settles {S : α → Types → Bool → Prop} {S' : α' → Types → Bool → Prop}
    (hm : Settles m ts S) (hm' : Settles m' us S')
    (h : ∀ a a' ts' us' cut cut', ts.Grows ts' → us.Grows us' → S a ts' cut → S' a' us' cut' →
      cut = cut' ∧ P a a' ts' us') : Mirrors m m' ts us P := by
  obtain ⟨a, ts', cut, hrun, hts, hS, -⟩ := hm
  obtain ⟨a', us', cut', hrun', hus, hS', -⟩ := hm'
  obtain ⟨rfl, hP⟩ := h a a' ts' us' cut cut' hts hus hS hS'
  exact ⟨a, ts', a', us', cut, hrun, hrun', hts, hus, hP⟩

theorem query (c c' : Catalog) {r : View → α} {r' : View → α'}
    (h : P (r (c.view ts)) (r' (c'.view us)) ts us) :
    Mirrors (Engine.query c r) (Engine.query c' r') ts us P :=
  ⟨_, ts, _, us, false, Runs.query c r ts, Runs.query c' r' us, .refl ts, .refl us, h⟩

theorem query_bind (c c' : Catalog) {r : View → α} {r' : View → α'}
    (h : Mirrors (f (r (c.view ts))) (f' (r' (c'.view us))) ts us Q) :
    Mirrors (Engine.query c r >>= f) (Engine.query c' r' >>= f') ts us Q := by
  refine (Mirrors.query (P := fun a a' ts' us' => a = r (c.view ts) ∧ a' = r' (c'.view us) ∧ ts' = ts ∧
    us' = us) c c' ⟨rfl, rfl, rfl, rfl⟩).bind ?_
  rintro _ _ _ _ - - ⟨rfl, rfl, rfl, rfl⟩
  exact h

theorem report (c c' : Catalog) (event event' : View → Event)
    {P : Unit → Unit → Types → Types → Prop} (h : P () () ts us) :
    Mirrors (Engine.report c event) (Engine.report c' event') ts us P := by
  have hrun : ∀ (c : Catalog) event ts, Runs (Engine.report c event) ts () ts false :=
    fun _ _ _ _ hs => ⟨rfl, hs, (Bool.or_false _).symm⟩
  exact ⟨(), ts, (), us, false, hrun c event ts, hrun c' event' us, .refl ts, .refl us, h⟩

theorem report_bind (c c' : Catalog) (event event' : View → Event) {f : Unit → Engine β}
    {f' : Unit → Engine β'} (h : Mirrors (f ()) (f' ()) ts us Q) :
    Mirrors (Engine.report c event >>= f) (Engine.report c' event' >>= f') ts us Q := by
  refine (report (P := fun _ _ ts' us' => ts' = ts ∧ us' = us) c c' event event' ⟨rfl, rfl⟩).bind ?_
  rintro _ _ _ _ - - ⟨rfl, rfl⟩
  exact h

theorem retire_bind {κ κ' : Type} {g : Guard κ} {g' : Guard κ'} {f : Unit → Engine β}
    {f' : Unit → Engine β'} (hg : g'.exceeded = g.exceeded) (h : Mirrors (f ()) (f' ()) ts us Q) :
    Mirrors (Engine.retire g >>= f) (Engine.retire g' >>= f') ts us Q := by
  have hrun : ∀ {κ : Type} (g : Guard κ) ts, Runs (Engine.retire g) ts () ts g.exceeded :=
    fun g _ s hs => ⟨rfl, hs ▸ retire_types g s, retire_limited g s⟩
  have hretire : Mirrors (Engine.retire g) (Engine.retire g') ts us
      fun _ _ ts' us' => ts' = ts ∧ us' = us :=
    ⟨(), ts, (), us, g.exceeded, hrun g ts, hg ▸ hrun g' us, .refl ts, .refl us, rfl, rfl⟩
  refine hretire.bind ?_
  rintro _ _ _ _ - - ⟨rfl, rfl⟩
  exact h

/-! ## Lists -/

theorem foldlM {S : α → α' → Prop} {g : β → α → Engine β} {g' : β' → α' → Engine β'} {l : List α}
    {l' : List α'} {b : β} {b' : β'} (hl : List.Forall₂ S l l') (hinit : Q b b' ts us)
    (hstep : ∀ a a' b b' ts' us', S a a' → ts.Grows ts' → us.Grows us' → Q b b' ts' us' →
      Mirrors (g b a) (g' b' a') ts' us' Q) : Mirrors (l.foldlM g b) (l'.foldlM g' b') ts us Q := by
  induction hl generalizing b b' ts us with
  | nil => exact pure hinit
  | cons ha _ ih =>
    rw [List.foldlM_cons, List.foldlM_cons]
    refine (hstep _ _ b b' ts us ha (.refl ts) (.refl us) hinit).bind fun b b' ts' us' hts hus hQ => ?_
    exact ih hQ fun a a' b b' ts'' us'' ha hts' hus' =>
      hstep a a' b b' ts'' us'' ha (hts.trans hts') (hus.trans hus')

theorem mapM {S : α → α' → Prop} {g : α → Engine β} {g' : α' → Engine β'} {l : List α} {l' : List α'}
    (hl : List.Forall₂ S l l')
    (hQ : ∀ b b' ts us ts' us', ts.Grows ts' → us.Grows us' → Q b b' ts us → Q b b' ts' us')
    (hg : ∀ a a' ts' us', S a a' → ts.Grows ts' → us.Grows us' → Mirrors (g a) (g' a') ts' us' Q) :
    Mirrors (l.mapM g) (l'.mapM g') ts us fun bs bs' ts' us' =>
      List.Forall₂ (fun b b' => Q b b' ts' us') bs bs' := by
  induction hl generalizing ts us with
  | nil =>
    rw [List.mapM_nil, List.mapM_nil]
    exact pure .nil
  | cons ha _ ih =>
    rw [List.mapM_cons, List.mapM_cons]
    refine (hg _ _ ts us ha (.refl ts) (.refl us)).bind fun b b' ts' us' hts hus hb => ?_
    refine (ih fun a a' ts'' us'' ha hts' hus' =>
      hg a a' ts'' us'' ha (hts.trans hts') (hus.trans hus')).bind ?_
    intro bs bs' ts'' us'' hts' hus' hbs
    exact pure (.cons (hQ b b' _ _ _ _ hts' hus' hb) hbs)

end Mirrors

end Engine

/-! ## Guards -/

/-- When keys of two walks correspond, and that they still do on larger stores. -/
structure Likeness (κ : Type) where
  rel : Types → Types → κ → κ → Prop
  biUnique : ∀ ts us, Relator.BiUnique (rel ts us)
  grow : ∀ {ts us ts' us' k k'}, rel ts us k k' → ts.Grows ts' → us.Grows us' → rel ts' us' k k'

namespace Likeness

variable {κ : Type}

/-- Types correspond to their twins. -/
def twin (K : DefId → Prop) : Likeness TypeId := ⟨Twin K, twin_biUnique K, Twin.grow⟩

/-- Pairs correspond member by member. -/
def pair (r : Likeness κ) : Likeness (κ × κ) where
  rel ts us k k' := r.rel ts us k.1 k'.1 ∧ r.rel ts us k.2 k'.2
  biUnique ts us :=
    ⟨fun _ _ _ h h' => Prod.ext ((r.biUnique ts us).1 h.1 h'.1) ((r.biUnique ts us).1 h.2 h'.2),
      fun _ _ _ h h' => Prod.ext ((r.biUnique ts us).2 h.1 h'.1) ((r.biUnique ts us).2 h.2 h'.2)⟩
  grow h hts hus := ⟨r.grow h.1 hts hus, r.grow h.2 hts hus⟩

/-- Keys that do not depend on a store correspond to themselves. -/
def same (κ : Type) : Likeness κ :=
  ⟨fun _ _ => Eq, fun _ _ => ⟨fun _ _ _ h h' => h.trans h'.symm, fun _ _ _ h h' => h.symm.trans h'⟩,
    fun h _ _ => h⟩

end Likeness

namespace Guard

variable {κ : Type} {R R' : κ → κ → Prop} {g g' : Guard κ} {k k' : κ}

/-- Both guards have the same limits and have taken as many steps, and what they are visiting
corresponds. -/
structure Twin (R : κ → κ → Prop) (g g' : Guard κ) : Prop where
  limits : g'.limits = g.limits
  visiting : List.Forall₂ R g.visiting g'.visiting
  depth : g'.depth = g.depth
  iterations : g'.iterations = g.iterations
  exceeded : g'.exceeded = g.exceeded

theorem Twin.mono (h : g.Twin R g') (hR : ∀ k k', R k k' → R' k k') : g.Twin R' g' :=
  { h with visiting := h.visiting.imp hR }

theorem twin_start (R : κ → κ → Prop) (limits : Limits) : Twin R { limits } { limits } :=
  ⟨rfl, .nil, rfl, rfl, rfl⟩

variable [DecidableEq κ]

/-- Corresponding keys are answered alike. -/
theorem Twin.enter (h : g.Twin R g') (hR : Relator.BiUnique R) (hk : R k k') :
    ∃ e h h', g.enter k = (e, h) ∧ g'.enter k' = (e, h') ∧ h.Twin R h' := by
  have hmem : k' ∈ g'.visiting ↔ k ∈ g.visiting := (List.rel_mem hR hk h.visiting).symm
  simp only [Guard.enter, h.limits, h.depth, h.iterations, hmem]
  split
  · exact ⟨_, _, _, rfl, rfl, ⟨rfl, h.visiting, rfl, rfl, rfl⟩⟩
  · split
    · exact ⟨_, _, _, rfl, rfl, ⟨rfl, h.visiting, rfl, rfl, h.exceeded⟩⟩
    · split
      · exact ⟨_, _, _, rfl, rfl, ⟨rfl, h.visiting, rfl, rfl, rfl⟩⟩
      · exact ⟨_, _, _, rfl, rfl, ⟨rfl, .cons hk h.visiting, rfl, rfl, h.exceeded⟩⟩

theorem forall₂_erase {l l' : List κ} (hR : Relator.BiUnique R) (hk : R k k')
    (hl : List.Forall₂ R l l') : List.Forall₂ R (l.erase k) (l'.erase k') := by
  induction hl with
  | nil => exact .nil
  | @cons a a' l l' ha hl ih =>
    have heq : a = k ↔ a' = k' := Relator.rel_eq hR ha hk
    rw [List.erase_cons, List.erase_cons]
    by_cases h : a = k
    · rw [if_pos (beq_iff_eq.2 h), if_pos (beq_iff_eq.2 (heq.1 h))]
      exact hl
    · rw [if_neg fun hb => h (beq_iff_eq.1 hb), if_neg fun hb => h (heq.2 (beq_iff_eq.1 hb))]
      exact .cons ha ih

theorem Twin.leave (h : g.Twin R g') (hR : Relator.BiUnique R) (hk : R k k') (ts us : Types) :
    ∃ l l', Engine.Runs (Engine.leave g k) ts l ts false ∧
      Engine.Runs (Engine.leave g' k') us l' us false ∧ l.Twin R l' := by
  have hmem : k' ∈ g'.visiting ↔ k ∈ g.visiting := (List.rel_mem hR hk h.visiting).symm
  have hfault : ∀ (g : Guard κ) f ts, Engine.Runs (Engine.fault f >>= fun _ => pure g) ts g ts false :=
    fun _ _ _ _ hs => ⟨rfl, hs, (Bool.or_false _).symm⟩
  by_cases hvisited : k ∈ g.visiting
  · rw [Engine.leave, Guard.leave, if_pos hvisited, Engine.leave, Guard.leave, if_pos (hmem.2 hvisited)]
    exact ⟨_, _, Engine.Runs.pure _ ts, Engine.Runs.pure _ us,
      ⟨h.limits, forall₂_erase hR hk h.visiting, congrArg (· - 1) h.depth, h.iterations, h.exceeded⟩⟩
  · rw [Engine.leave, Guard.leave, if_neg hvisited, Engine.leave, Guard.leave,
      if_neg fun hmem' => hvisited (hmem.1 hmem')]
    exact ⟨g, g', hfault g _ ts, hfault g' _ us, h⟩

end Guard

theorem Engine.Mirrors.leave {κ : Type} [DecidableEq κ] {R : κ → κ → Prop} {g g' : Guard κ} {k k' : κ}
    {ts us : Types} {P : Guard κ → Guard κ → Types → Types → Prop} (hR : Relator.BiUnique R)
    (hg : g.Twin R g') (hk : R k k') (h : ∀ l l', l.Twin R l' → P l l' ts us) :
    Mirrors (Engine.leave g k) (Engine.leave g' k') ts us P := by
  obtain ⟨l, l', hrun, hrun', hl⟩ := hg.leave hR hk ts us
  exact ⟨l, ts, l', us, false, hrun, hrun', .refl ts, .refl us, h l l' hl⟩

namespace Guard

variable {κ α α' β β' : Type} {r : Likeness κ} {g g' : Guard κ} {ts us : Types}
  {m : StateT (Guard κ) Engine α} {m' : StateT (Guard κ) Engine α'}
  {f : α → StateT (Guard κ) Engine β} {f' : α' → StateT (Guard κ) Engine β'}
  {P : α → α' → Types → Types → Prop} {Q : β → β' → Types → Types → Prop}

/-- Under the guards `g` and `g'`, `m` and `m'` mirror each other, and they give back guards that
correspond. -/
def Mirrors (r : Likeness κ) (g g' : Guard κ) (m : StateT (Guard κ) Engine α)
    (m' : StateT (Guard κ) Engine α') (ts us : Types) (Q : α → α' → Types → Types → Prop) : Prop :=
  Engine.Mirrors (m.run g) (m'.run g') ts us fun a a' ts' us' =>
    a.2.Twin (r.rel ts' us') a'.2 ∧ Q a.1 a'.1 ts' us'

namespace Mirrors

theorem pure {a : α} {a' : α'} (hg : g.Twin (r.rel ts us) g') (h : P a a' ts us) :
    Mirrors r g g' (Pure.pure a) (Pure.pure a') ts us P :=
  Engine.Mirrors.pure ⟨hg, h⟩

theorem bind (hm : Mirrors r g g' m m' ts us P)
    (hf : ∀ a a' ts' us' h h', ts.Grows ts' → us.Grows us' → h.Twin (r.rel ts' us') h' →
      P a a' ts' us' → Mirrors r h h' (f a) (f' a') ts' us' Q) :
    Mirrors r g g' (m >>= f) (m' >>= f') ts us Q := by
  rw [Mirrors, StateT.run_bind, StateT.run_bind]
  refine Engine.Mirrors.bind hm ?_
  rintro ⟨a, h⟩ ⟨a', h'⟩ ts' us' hts hus ⟨hg, hP⟩
  exact hf a a' ts' us' h h' hts hus hg hP

theorem lift_bind {m : Engine α} {m' : Engine α'} (hg : g.Twin (r.rel ts us) g')
    (hm : Engine.Mirrors m m' ts us P)
    (hf : ∀ a a' ts' us', ts.Grows ts' → us.Grows us' → g.Twin (r.rel ts' us') g' →
      P a a' ts' us' → Mirrors r g g' (f a) (f' a') ts' us' Q) :
    Mirrors r g g' (monadLift m >>= f) (monadLift m' >>= f') ts us Q := by
  rw [Mirrors, StateT.run_bind, StateT.run_monadLift, bind_assoc, StateT.run_bind,
    StateT.run_monadLift, bind_assoc]
  refine hm.bind fun a a' ts' us' hts hus hP => ?_
  rw [pure_bind, pure_bind]
  exact hf a a' ts' us' hts hus (hg.mono fun _ _ hk => r.grow hk hts hus) hP

theorem query_bind (c c' : Catalog) {q : View → α} {q' : View → α'}
    (h : Mirrors r g g' (f (q (c.view ts))) (f' (q' (c'.view us))) ts us Q) :
    Mirrors r g g' (monadLift (Engine.query c q) >>= f) (monadLift (Engine.query c' q') >>= f') ts us
      Q := by
  rw [Mirrors, StateT.run_bind, StateT.run_monadLift, bind_assoc, StateT.run_bind,
    StateT.run_monadLift, bind_assoc]
  refine .query_bind c c' ?_
  rw [pure_bind, pure_bind]
  exact h

/-- Under guards of their own. -/
theorem retire (limits : Limits) (hm : Mirrors r { limits } { limits } m m' ts us P) :
    Engine.Mirrors
      (do
        let (a, guard) ← StateT.run m { limits }
        Engine.retire guard
        Pure.pure a)
      (do
        let (a, guard) ← StateT.run m' { limits }
        Engine.retire guard
        Pure.pure a) ts us P := by
  refine Engine.Mirrors.bind hm ?_
  rintro ⟨a, h⟩ ⟨a', h'⟩ ts' us' - - ⟨hh, hP⟩
  exact .retire_bind hh.exceeded (.pure hP)

/-! ## Lists -/

variable {S : α → α' → Prop} {l : List α} {l' : List α'}

theorem anyM {f : α → StateT (Guard κ) Engine Bool} {f' : α' → StateT (Guard κ) Engine Bool}
    (hl : List.Forall₂ S l l') (hg : g.Twin (r.rel ts us) g')
    (hf : ∀ a a' ts' us' h h', S a a' → ts.Grows ts' → us.Grows us' → h.Twin (r.rel ts' us') h' →
      Mirrors r h h' (f a) (f' a') ts' us' fun b b' _ _ => b = b') :
    Mirrors r g g' (l.anyM f) (l'.anyM f') ts us fun b b' _ _ => b = b' := by
  induction hl generalizing g g' ts us with
  | nil => exact pure hg rfl
  | cons ha _ ih =>
    rw [List.anyM_cons, List.anyM_cons]
    refine (hf _ _ ts us g g' ha (.refl ts) (.refl us) hg).bind ?_
    rintro b _ ts' us' h h' hts hus hh rfl
    cases b with
    | true => exact pure hh rfl
    | false =>
      exact ih hh fun a a' ts'' us'' h h' ha hts' hus' =>
        hf a a' ts'' us'' h h' ha (hts.trans hts') (hus.trans hus')

theorem allM {f : α → StateT (Guard κ) Engine Bool} {f' : α' → StateT (Guard κ) Engine Bool}
    (hl : List.Forall₂ S l l') (hg : g.Twin (r.rel ts us) g')
    (hf : ∀ a a' ts' us' h h', S a a' → ts.Grows ts' → us.Grows us' → h.Twin (r.rel ts' us') h' →
      Mirrors r h h' (f a) (f' a') ts' us' fun b b' _ _ => b = b') :
    Mirrors r g g' (l.allM f) (l'.allM f') ts us fun b b' _ _ => b = b' := by
  induction hl generalizing g g' ts us with
  | nil => exact pure hg rfl
  | cons ha _ ih =>
    rw [List.allM_cons, List.allM_cons]
    refine (hf _ _ ts us g g' ha (.refl ts) (.refl us) hg).bind ?_
    rintro b _ ts' us' h h' hts hus hh rfl
    cases b with
    | false => exact pure hh rfl
    | true =>
      exact ih hh fun a a' ts'' us'' h h' ha hts' hus' =>
        hf a a' ts'' us'' h h' ha (hts.trans hts') (hus.trans hus')

theorem findSomeM? {f : α → StateT (Guard κ) Engine (Option β)}
    {f' : α' → StateT (Guard κ) Engine (Option β')} (hl : List.Forall₂ S l l')
    (hg : g.Twin (r.rel ts us) g')
    (hf : ∀ a a' ts' us' h h', S a a' → ts.Grows ts' → us.Grows us' → h.Twin (r.rel ts' us') h' →
      Mirrors r h h' (f a) (f' a') ts' us' fun b b' _ _ => b.isSome = b'.isSome) :
    Mirrors r g g' (l.findSomeM? f) (l'.findSomeM? f') ts us fun b b' _ _ => b.isSome = b'.isSome := by
  induction hl generalizing g g' ts us with
  | nil => exact pure hg rfl
  | cons ha _ ih =>
    rw [List.findSomeM?_cons, List.findSomeM?_cons]
    refine (hf _ _ ts us g g' ha (.refl ts) (.refl us) hg).bind ?_
    intro b b' ts' us' h h' hts hus hh hb
    cases b with
    | some =>
      obtain ⟨b', rfl⟩ := Option.isSome_iff_exists.1 hb.symm
      exact pure hh rfl
    | none =>
      obtain rfl := Option.isNone_iff_eq_none.1 (by simpa using hb.symm)
      exact ih hh fun a a' ts'' us'' h h' ha hts' hus' =>
        hf a a' ts'' us'' h h' ha (hts.trans hts') (hus.trans hus')

/-! ## Visits -/

variable [DecidableEq κ] {k k' : κ}

theorem enter_bind {f : Entry → StateT (Guard κ) Engine β} {f' : Entry → StateT (Guard κ) Engine β'}
    (hg : g.Twin (r.rel ts us) g') (hk : r.rel ts us k k')
    (hf : ∀ e h h', h.Twin (r.rel ts us) h' → Mirrors r h h' (f e) (f' e) ts us Q) :
    Mirrors r g g' (modifyGet (·.enter k) >>= f) (modifyGet (·.enter k') >>= f') ts us Q := by
  obtain ⟨e, h, h', henter, henter', hh⟩ := hg.enter (r.biUnique ts us) hk
  rw [Mirrors, StateT.run_bind, StateT.run_bind]
  change Engine.Mirrors (Pure.pure (g.enter k) >>= _) (Pure.pure (g'.enter k') >>= _) ts us _
  rw [pure_bind, pure_bind, henter, henter']
  exact hf e h h' hh

/-- To leave a key after a computation. -/
theorem bind_leave (hk : r.rel ts us k k') (hm : Mirrors r g g' m m' ts us P) :
    Mirrors r g g'
      (do
        let a ← m
        set (← (Engine.leave (← get) k : Engine (Guard κ)))
        Pure.pure a)
      (do
        let a ← m'
        set (← (Engine.leave (← get) k' : Engine (Guard κ)))
        Pure.pure a) ts us P := by
  rw [Mirrors, StateT.run_bind, StateT.run_bind]
  refine Engine.Mirrors.bind hm ?_
  rintro ⟨a, h⟩ ⟨a', h'⟩ ts' us' hts hus ⟨hh, hP⟩
  change Engine.Mirrors (Engine.leave h k >>= fun g => Pure.pure (a, g))
    (Engine.leave h' k' >>= fun g => Pure.pure (a', g)) ts' us' _
  refine (Engine.Mirrors.leave (P := fun l l' ts'' us'' => l.Twin (r.rel ts'' us'') l' ∧ ts'' = ts' ∧
    us'' = us') (r.biUnique ts' us') hh (r.grow hk hts hus) fun l l' hl => ⟨hl, rfl, rfl⟩).bind ?_
  rintro l l' _ _ - - ⟨hl, rfl, rfl⟩
  exact .pure ⟨hl, hP⟩

end Mirrors

end Guard

end Generics
