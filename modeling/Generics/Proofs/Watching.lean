import Generics.Proofs.Settling

/-!
# Computations under a guard

A computation that carries a guard settles under it when, moreover, it gives the guard back visiting
what it visited before.  Whether the computation was cut short counts the refusals of this guard and,
if one asks for it, those of the guards it has used on the way.
-/

namespace Generics

namespace Guard

variable {κ α β : Type} {g g' : Guard κ} {counts : Bool} {ts us : Types}
  {m : StateT (Guard κ) Engine α} {f : α → StateT (Guard κ) Engine β}
  {P : α → Types → Bool → Prop} {Q : β → Types → Bool → Prop}

/-- Under the guard `g`, which it keeps, `m` settles with an answer that satisfies `Q`; whether it was
cut short counts other guards if `counts` says so. -/
def WatchesFor (counts : Bool) (g : Guard κ) (m : StateT (Guard κ) Engine α) (ts : Types)
    (Q : α → Types → Bool → Prop) : Prop :=
  Engine.Settles (m.run g) ts fun r us cut => g.Keeps r.2 ∧ Q r.1 us (counts && cut || r.2.exceeded)

/-- Under the guard `g`, which it keeps, `m` settles with an answer that satisfies `Q`. -/
def Watches (g : Guard κ) (m : StateT (Guard κ) Engine α) (ts : Types)
    (Q : α → Types → Bool → Prop) : Prop :=
  Engine.Settles (m.run g) ts fun r us cut => g.Keeps r.2 ∧ Q r.1 us (cut || r.2.exceeded)

theorem watchesFor_true : g.WatchesFor true m ts P ↔ g.Watches m ts P := Iff.rfl

namespace WatchesFor

theorem pure {a : α} (h : ∀ cut, P a ts cut) : g.WatchesFor counts (Pure.pure a) ts P := by
  rw [WatchesFor, StateT.run_pure]
  exact .pure ⟨.refl g, h _⟩

theorem bind (hm : g.WatchesFor counts m ts P)
    (hf : ∀ a us cut g', ts.Grows us → g.Keeps g' → P a us cut →
      g'.WatchesFor counts (f a) us fun b vs cut' => Q b vs (cut || cut')) :
    g.WatchesFor counts (m >>= f) ts Q := by
  rw [WatchesFor, StateT.run_bind]
  refine Engine.Settles.bind hm ?_
  rintro ⟨a, g'⟩ us cut hgrow ⟨hkeeps, hP⟩
  refine (hf a us _ g' hgrow hkeeps hP).mono ?_
  rintro ⟨b, g''⟩ vs cut' - ⟨hkeeps', hQ⟩
  refine ⟨hkeeps.trans hkeeps', ?_⟩
  -- a refusal noted before the second part is still noted after it
  have hmono : (g'.exceeded || g''.exceeded) = g''.exceeded := by
    cases he : g''.exceeded with
    | true => exact Bool.or_true _
    | false => rw [hkeeps'.exceeded he, Bool.or_false]
  have hcut : ((counts && cut || g'.exceeded) || (counts && cut' || g''.exceeded)) =
      (counts && (cut || cut') || g''.exceeded) := by
    rw [Bool.or_assoc, Bool.or_left_comm g'.exceeded, hmono, ← Bool.or_assoc, Bool.and_or_distrib_left]
  exact hcut ▸ hQ

theorem mono {P' : α → Types → Bool → Prop} (hm : g.WatchesFor counts m ts P)
    (h : ∀ a us cut, ts.Grows us → P a us cut → P' a us cut) : g.WatchesFor counts m ts P' := by
  refine Engine.Settles.mono hm ?_
  rintro ⟨a, g'⟩ us cut hgrow ⟨hkeeps, hP⟩
  exact ⟨hkeeps, h a us _ hgrow hP⟩

theorem lift_bind {m : Engine α} (hm : Engine.Settles m ts P)
    (hf : ∀ a us cut, ts.Grows us → P a us cut →
      g.WatchesFor counts (f a) us fun b vs cut' => Q b vs (counts && cut || cut')) :
    g.WatchesFor counts (monadLift m >>= f) ts Q := by
  rw [WatchesFor, StateT.run_bind, StateT.run_monadLift, bind_assoc]
  refine hm.bind fun a us cut hgrow hP => ?_
  rw [pure_bind]
  refine Engine.Settles.mono (hf a us cut hgrow hP) ?_
  rintro ⟨b, g'⟩ vs cut' - ⟨hkeeps, hQ⟩
  refine ⟨hkeeps, ?_⟩
  rwa [Bool.and_or_distrib_left, Bool.or_assoc]

theorem query_bind (c : Catalog) {r : View → α}
    (hstable : ∀ vs, ts.Grows vs → r (c.view vs) = r (c.view ts))
    (h : g.WatchesFor counts (f (r (c.view ts))) ts Q) :
    g.WatchesFor counts (monadLift (Engine.query c r) >>= f) ts Q := by
  refine lift_bind (Engine.Settles.query (P := fun a us cut => a = r (c.view ts) ∧ us = ts ∧
    cut = false) c hstable ⟨rfl, rfl, rfl⟩) ?_
  rintro _ _ _ - ⟨rfl, rfl, rfl⟩
  rwa [Bool.and_false]

/-- A computation that runs while a key is visited, and leaves it. -/
theorem leave_entered [DecidableEq κ] {key : κ} (henter : g.enter key = (.entered, g'))
    (hm : g'.WatchesFor counts m ts P) :
    Engine.Settles (StateT.run (do
      let a ← m
      set (← (Engine.leave (← get) key : Engine (Guard κ)))
      Pure.pure a) g') ts fun r us cut => g.Keeps r.2 ∧ P r.1 us (counts && cut || r.2.exceeded) := by
  rw [StateT.run_bind]
  refine Engine.Settles.bind hm ?_
  rintro ⟨a, g''⟩ us cut _ ⟨hkeeps, hP⟩
  obtain ⟨left, hleave, hkeeps', hexceeded⟩ := exists_leave_eq_ok henter hkeeps
  change Engine.Settles (Engine.leave g'' key >>= fun g => Pure.pure (a, g)) us _
  exact .leave_bind hleave (.pure ⟨hkeeps', by rwa [hexceeded, Bool.or_false]⟩)

/-! ## Lists -/

variable {l : List α} {R : α → Prop}

/-- Some member passes only if it may, and, unless this is cut short, if it must. -/
theorem anyM {f : α → StateT (Guard κ) Engine Bool} {P : α → Prop}
    (hf : ∀ a ∈ l, ∀ us g', ts.Grows us → g.Keeps g' →
      g'.WatchesFor counts (f a) us fun r _ cut => (r = true → P a) ∧ (cut = false → R a → r = true)) :
    g.WatchesFor counts (l.anyM f) ts fun r _ cut =>
      (r = true → ∃ a ∈ l, P a) ∧ (cut = false → (∃ a ∈ l, R a) → r = true) := by
  induction l generalizing g ts with
  | nil =>
    rw [List.anyM_nil]
    exact pure fun _ => ⟨nofun, by simp⟩
  | cons a l ih =>
    rw [List.anyM_cons]
    refine (hf a (List.mem_cons_self ..) ts g (.refl ts) (.refl g)).bind ?_
    rintro r us cut g' hgrow hkeeps ⟨hP, hR⟩
    split
    · rename_i hrun
      exact pure fun _ => ⟨fun _ => ⟨a, List.mem_cons_self .., hP hrun⟩, fun _ _ => rfl⟩
    · rename_i hrun
      refine (ih fun a ha vs g'' hvs hg'' => hf a (List.mem_cons_of_mem _ ha) vs g'' (hgrow.trans hvs)
        (hkeeps.trans hg'')).mono ?_
      rintro r vs cut' - ⟨hPs, hRs⟩
      refine ⟨fun hr => ?_, fun hcut h => ?_⟩
      · obtain ⟨a, ha, hP⟩ := hPs hr
        exact ⟨a, List.mem_cons_of_mem _ ha, hP⟩
      · rw [Bool.or_eq_false_iff] at hcut
        obtain ⟨b, hb, hRb⟩ := h
        rcases List.mem_cons.1 hb with rfl | hb
        · exact absurd (hR hcut.1 hRb) hrun
        · exact hRs hcut.2 ⟨b, hb, hRb⟩

/-- All members pass only if they may, and, unless this is cut short, if they must. -/
theorem allM {f : α → StateT (Guard κ) Engine Bool} {P : α → Prop}
    (hf : ∀ a ∈ l, ∀ us g', ts.Grows us → g.Keeps g' →
      g'.WatchesFor counts (f a) us fun r _ cut => (r = true → P a) ∧ (cut = false → R a → r = true)) :
    g.WatchesFor counts (l.allM f) ts fun r _ cut =>
      (r = true → ∀ a ∈ l, P a) ∧ (cut = false → (∀ a ∈ l, R a) → r = true) := by
  induction l generalizing g ts with
  | nil =>
    rw [List.allM_nil]
    exact pure fun _ => ⟨by simp, fun _ _ => rfl⟩
  | cons a l ih =>
    rw [List.allM_cons]
    refine (hf a (List.mem_cons_self ..) ts g (.refl ts) (.refl g)).bind ?_
    rintro r us cut g' hgrow hkeeps ⟨hP, hR⟩
    split
    · rename_i hrun
      refine (ih fun a ha vs g'' hvs hg'' => hf a (List.mem_cons_of_mem _ ha) vs g'' (hgrow.trans hvs)
        (hkeeps.trans hg'')).mono ?_
      rintro r vs cut' - ⟨hPs, hRs⟩
      refine ⟨fun hr => List.forall_mem_cons.2 ⟨hP hrun, hPs hr⟩, fun hcut hall => ?_⟩
      exact hRs (Bool.or_eq_false_iff.1 hcut).2 fun a ha => hall a (List.mem_cons_of_mem _ ha)
    · rename_i hrun
      refine pure fun cut' => ⟨nofun, fun hcut hall => ?_⟩
      exact absurd (hR (Bool.or_eq_false_iff.1 hcut).1 (hall a (List.mem_cons_self ..))) hrun

end WatchesFor

namespace Watches

theorem pure {a : α} (h : ∀ cut, P a ts cut) : g.Watches (Pure.pure a) ts P :=
  watchesFor_true.1 (.pure h)

theorem bind (hm : g.Watches m ts P)
    (hf : ∀ a us cut g', ts.Grows us → g.Keeps g' → P a us cut →
      g'.Watches (f a) us fun b vs cut' => Q b vs (cut || cut')) :
    g.Watches (m >>= f) ts Q :=
  watchesFor_true.1 ((watchesFor_true.2 hm).bind hf)

theorem mono {P' : α → Types → Bool → Prop} (hm : g.Watches m ts P)
    (h : ∀ a us cut, ts.Grows us → P a us cut → P' a us cut) : g.Watches m ts P' :=
  watchesFor_true.1 ((watchesFor_true.2 hm).mono h)

theorem lift_bind {m : Engine α} (hm : Engine.Settles m ts P)
    (hf : ∀ a us cut, ts.Grows us → P a us cut →
      g.Watches (f a) us fun b vs cut' => Q b vs (cut || cut')) :
    g.Watches (monadLift m >>= f) ts Q :=
  watchesFor_true.1 (.lift_bind hm hf)

theorem query_bind (c : Catalog) {r : View → α}
    (hstable : ∀ vs, ts.Grows vs → r (c.view vs) = r (c.view ts))
    (h : g.Watches (f (r (c.view ts))) ts Q) :
    g.Watches (monadLift (Engine.query c r) >>= f) ts Q :=
  watchesFor_true.1 (.query_bind c hstable h)

/-- A computation that runs while a key is visited, and leaves it. -/
theorem leave_entered [DecidableEq κ] {key : κ} (henter : g.enter key = (.entered, g'))
    (hm : g'.Watches m ts P) :
    Engine.Settles (StateT.run (do
      let a ← m
      set (← (Engine.leave (← get) key : Engine (Guard κ)))
      Pure.pure a) g') ts fun r us cut => g.Keeps r.2 ∧ P r.1 us (cut || r.2.exceeded) :=
  WatchesFor.leave_entered henter (watchesFor_true.2 hm)

/-- A computation under a guard of its own. -/
theorem retire (limits : Limits) {m : StateT (Guard κ) Engine α}
    (hm : Watches { limits } m ts P) :
    Engine.Settles (do
      let (a, guard) ← StateT.run m { limits }
      Engine.retire guard
      Pure.pure a) ts P := by
  refine Engine.Settles.bind hm ?_
  rintro ⟨a, g⟩ us cut _ ⟨-, hP⟩
  exact .retire_bind g (.pure (by rwa [Bool.or_false]))

/-! ## Lists -/

variable {l : List α} {R : α → Prop}

/-- A search finds nothing only if every member passes, and, unless it is cut short, if every member
must pass. -/
theorem findSomeM? {f : α → StateT (Guard κ) Engine (Option β)} {P : α → Prop}
    (hf : ∀ a ∈ l, ∀ us g', ts.Grows us → g.Keeps g' →
      g'.Watches (f a) us fun r _ cut => (r = none → P a) ∧ (cut = false → R a → r = none)) :
    g.Watches (l.findSomeM? f) ts fun r _ cut =>
      (r = none → ∀ a ∈ l, P a) ∧ (cut = false → (∀ a ∈ l, R a) → r = none) := by
  induction l generalizing g ts with
  | nil =>
    rw [List.findSomeM?_nil]
    exact pure fun _ => ⟨fun _ => by simp, fun _ _ => rfl⟩
  | cons a l ih =>
    rw [List.findSomeM?_cons]
    refine (hf a (List.mem_cons_self ..) ts g (.refl ts) (.refl g)).bind ?_
    rintro r us cut g' hgrow hkeeps ⟨hP, hR⟩
    cases r with
    | some b =>
      refine pure fun cut' => ⟨nofun, fun hcut hall => ?_⟩
      exact hR (Bool.or_eq_false_iff.1 hcut).1 (hall a (List.mem_cons_self ..))
    | none =>
      refine (ih fun a ha vs g'' hvs hg'' => hf a (List.mem_cons_of_mem _ ha) vs g'' (hgrow.trans hvs)
        (hkeeps.trans hg'')).mono ?_
      rintro r vs cut' - ⟨hPs, hRs⟩
      refine ⟨fun hr => List.forall_mem_cons.2 ⟨hP rfl, hPs hr⟩, fun hcut hall => ?_⟩
      exact hRs (Bool.or_eq_false_iff.1 hcut).2 fun a ha => hall a (List.mem_cons_of_mem _ ha)

end Watches

end Guard

end Generics
