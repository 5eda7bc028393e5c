import Generics.Proofs.Growth.Resolving
import Generics.Proofs.Malformed
import Generics.Proofs.Replay
import Mathlib.Data.List.Infix

/-!
# The cache is transparent

A cache answers as a resolution would, as long as it is cleared before the first lookup after a change
of definitions.  What it remembers is the answer to a request about known types, and such an answer
lasts however the store grows.  Errors are not remembered, so a key is held exactly if a lookup since
the last clearing was answered without one.
-/

namespace Generics

/-! ## A store and its cache -/

/-- What a request for `key` is answered without a cache. -/
def Store.uncached (s : Store) (options : Options) (key : TypeId × TypeId) :
    Except ResolveError (Option TypeId) :=
  (s.run fun c => Request.resolve c ⟨key.1, key.2, options⟩).1.map (·.closed?)

/-- A lookup, as it may be told from outside. -/
structure Lookup where
  key : TypeId × TypeId
  /-- Whether the cache held the key. -/
  held : Bool
  /-- What a resolution without the cache answers at this moment. -/
  uncached : Except ResolveError (Option TypeId)

/-- A store that is asked through a cache. -/
structure CachedStore where
  store : Store := {}
  cache : Cache := {}
  /-- The lookups since the cache was cleared last. -/
  lookups : List Lookup := []

/-- What a host may do with a store and its cache. -/
inductive CacheOp
  | lookup (key : TypeId × TypeId)
  /-- Add a type. -/
  | intern (n : Node)
  /-- Change definitions. -/
  | define (catalog : Catalog)
  | clear

namespace CachedStore

def perform (m : CachedStore) : CacheOp → CachedStore
  | .lookup key =>
    let answered := m.store.run fun c => m.cache.getOrResolve c key.1 key.2
    let held := m.cache.answers.contains key
    let uncached := m.store.uncached m.cache.options key
    { store := answered.2, cache := answered.1.2, lookups := m.lookups ++ [{ key, held, uncached }] }
  | .intern n => { m with store := (m.store.run fun _ => Engine.intern n).2 }
  | .define catalog => { m with store := { m.store with catalog } }
  | .clear => { m with cache := m.cache.clear, lookups := [] }

/-- A store with an empty cache. -/
def start (s : Store) (options : Options) : CachedStore := { store := s, cache := { options } }

/-- The store and its cache after `ops`. -/
def run (m : CachedStore) (ops : List CacheOp) : CachedStore := ops.foldl perform m

/-- What the cache answers to a request for `key`. -/
def answer (m : CachedStore) (key : TypeId × TypeId) : Except ResolveError (Option TypeId) :=
  (m.store.run fun c => m.cache.getOrResolve c key.1 key.2).1.1

/-- The cache holds exactly the keys of the lookups, since it was cleared, that were answered without
an error, and it has counted those whose key it held. -/
structure Faithful (m : CachedStore) : Prop where
  keys : ∀ key, key ∈ m.cache.answers ↔
    ∃ x ∈ m.lookups, x.key = key ∧ ∃ answer, x.uncached = .ok answer
  hits : m.cache.hits = m.lookups.countP (·.held)

end CachedStore

namespace CacheOp

/-- Whether definitions have changed since the cache was cleared, when `b` tells that of the moment
before. -/
def stale (b : Bool) : CacheOp → Bool
  | define _ => true
  | clear => false
  | _ => b

/-- Nothing is looked up between a change of definitions and the next clearing; `b` tells whether
definitions have changed before. -/
def Disciplined : Bool → List CacheOp → Prop
  | _, [] => True
  | b, op :: ops => (∀ key, op = lookup key → b = false) ∧ Disciplined (stale b op) ops

theorem Disciplined.of_prefix {b : Bool} {before ops : List CacheOp} (h : Disciplined b ops)
    (hbefore : before <+: ops) : Disciplined b before := by
  induction before generalizing b ops with
  | nil => trivial
  | cons op before ih =>
    obtain ⟨after, rfl⟩ := hbefore
    exact ⟨h.1, ih h.2 (List.prefix_append ..)⟩

theorem Disciplined.of_append {b : Bool} {before after : List CacheOp}
    (h : Disciplined b (before ++ after)) : Disciplined (before.foldl stale b) after := by
  induction before generalizing b with
  | nil => exact h
  | cons op before ih => exact ih h.2

end CacheOp

/-! ## Answers that last -/

namespace Cache

variable {k : Cache} {c : Catalog} {ts us : Types} {key : TypeId × TypeId}
  {answer : Option TypeId}

/-- Every answer in memory is what a resolution answers, now and on any larger store. -/
def Lasting (k : Cache) (c : Catalog) (ts : Types) : Prop :=
  ∀ (key : TypeId × TypeId) answer, k.answers[key]? = some answer → ∃ outcome : Resolution,
    outcome.closed? = answer ∧
      Engine.Lasts (Request.resolve c ⟨key.1, key.2, k.options⟩) ts (.ok outcome)

theorem Lasting.grow (h : k.Lasting c ts) (hgrow : ts.Grows us) : k.Lasting c us := by
  intro key answer hkey
  obtain ⟨outcome, hclosed, hlasts⟩ := h key answer hkey
  exact ⟨outcome, hclosed, hlasts.grow hgrow⟩

theorem lasting_clear (k : Cache) (c : Catalog) (ts : Types) : k.clear.Lasting c ts := by
  intro key answer hkey
  simp [clear] at hkey

theorem Lasting.insert {outcome : Resolution} (h : k.Lasting c ts)
    (hlasts : Engine.Lasts (Request.resolve c ⟨key.1, key.2, k.options⟩) ts (.ok outcome)) :
    Lasting { k with answers := k.answers.insert key outcome.closed? } c ts := by
  intro key' answer hkey
  rw [Std.TreeMap.getElem?_insert] at hkey
  split at hkey
  · rename_i heq
    obtain rfl := Std.LawfulEqCmp.eq_of_compare heq
    exact ⟨outcome, Option.some.inj hkey, hlasts⟩
  · exact h key' answer hkey

theorem getOrResolve_of_held (h : k.answers[key]? = some answer) (s : Session) :
    (k.getOrResolve c key.1 key.2 s).1 = (.ok answer, { k with hits := k.hits + 1 }) ∧
      (k.getOrResolve c key.1 key.2 s).2.types = s.types := by
  rw [getOrResolve, h]
  exact ⟨rfl, rfl⟩

theorem getOrResolve_of_not_held (h : k.answers[key]? = none) (s : Session) :
    k.getOrResolve c key.1 key.2 s =
      let (outcome, s) := Request.resolve c ⟨key.1, key.2, k.options⟩ s
      match outcome with
      | .error e => ((.error e, k), s)
      | .ok outcome =>
        ((.ok outcome.closed?, { k with answers := k.answers.insert key outcome.closed? }), s) := by
  rw [getOrResolve, h]
  dsimp only
  rw [Engine.bind_apply]
  generalize Request.resolve c ⟨key.1, key.2, k.options⟩ s = r
  obtain ⟨outcome | outcome, s⟩ := r <;> rfl

end Cache

namespace Request

variable {c : Catalog} {r : Request} {s : Session} {outcome : Resolution}

/-- An answer without an error lasts. -/
theorem lasts_of_resolve_eq_ok (hc : c.Ordered s.types) (h : (r.resolve c s).1 = .ok outcome) :
    Engine.Lasts (r.resolve c) (r.resolve c s).2.types (.ok outcome) := by
  cases hi : (c.view s.types).examine r.abstraction r.implementation with
  | error e =>
    rw [resolve_of_examine_eq_error hi] at h
    cases h
  | ok i =>
    obtain ⟨⟨A, hA, -⟩, ⟨I, hI, -⟩, -⟩ := (c.examine_eq_ok_iff hc.plain).1 hi
    obtain ⟨-, -, hlasts⟩ := (settles_resolve hc.grounded hA hI).lasts.elim (s := s) rfl
    exact h ▸ hlasts

end Request

/-! ## What operations preserve -/

namespace CachedStore

variable {m : CachedStore} {o : Options} {b : Bool} {op : CacheOp} {ops : List CacheOp}
  {key : TypeId × TypeId}

/-- The store is ordered. -/
def Ordered (m : CachedStore) : Prop := m.store.catalog.Ordered m.store.session.types

instance (m : CachedStore) : Decidable m.Ordered :=
  inferInstanceAs (Decidable (m.store.catalog.Ordered _))

/-- The cache is faithful, and unless definitions have changed since it was cleared, as `b` tells, its
answers last. -/
structure Sound (o : Options) (b : Bool) (m : CachedStore) : Prop where
  options : m.cache.options = o
  faithful : m.Faithful
  lasting : b = false → m.cache.Lasting m.store.catalog m.store.session.types

theorem Sound.answer_eq (h : Sound o false m) : m.answer key = m.store.uncached o key := by
  obtain rfl := h.options
  cases hkey : m.cache.answers[key]? with
  | some answer =>
    obtain ⟨outcome, rfl, hlasts⟩ := h.lasting rfl key answer hkey
    have hcached := (Cache.getOrResolve_of_held (c := m.store.catalog) hkey m.store.session).1
    have huncached := hlasts.answer_eq (.refl m.store.session.types)
    exact (congrArg Prod.fst hcached).trans (congrArg (Except.map Resolution.closed?) huncached).symm
  | none =>
    have hcached := Cache.getOrResolve_of_not_held (c := m.store.catalog) hkey m.store.session
    refine (congrArg (·.1.1) hcached).trans ?_
    change _ = (Request.resolve m.store.catalog ⟨key.1, key.2, m.cache.options⟩ m.store.session).1.map _
    generalize Request.resolve m.store.catalog ⟨key.1, key.2, m.cache.options⟩ m.store.session = r
    obtain ⟨e | outcome, s⟩ := r <;> rfl

/-- The request that a lookup stands for. -/
def request (m : CachedStore) (key : TypeId × TypeId) : Request := ⟨key.1, key.2, m.cache.options⟩

/-- What a resolution makes of the lookup's request. -/
def resolved (m : CachedStore) (key : TypeId × TypeId) : Except ResolveError Resolution × Session :=
  (m.request key).resolve m.store.catalog m.store.session

theorem perform_lookup_of_held {answer : Option TypeId} (h : m.cache.answers[key]? = some answer) :
    (m.perform (.lookup key)).cache = { m.cache with hits := m.cache.hits + 1 } ∧
      (m.perform (.lookup key)).store.session.types = m.store.session.types := by
  obtain ⟨hcache, htypes⟩ :=
    Cache.getOrResolve_of_held (c := m.store.catalog) h m.store.session
  exact ⟨congrArg Prod.snd hcache, htypes⟩

theorem perform_lookup_of_not_held (h : m.cache.answers[key]? = none) :
    (m.perform (.lookup key)).store.session = (m.resolved key).2 ∧
      (m.perform (.lookup key)).cache =
        match (m.resolved key).1 with
        | .error _ => m.cache
        | .ok outcome =>
          { m.cache with answers := m.cache.answers.insert key outcome.closed? } := by
  have hrun := Cache.getOrResolve_of_not_held (c := m.store.catalog) h m.store.session
  refine ⟨(congrArg (·.2) hrun).trans ?_, (congrArg (·.1.2) hrun).trans ?_⟩ <;>
  · unfold resolved request
    generalize Request.resolve m.store.catalog _ m.store.session = r
    obtain ⟨e | outcome, s⟩ := r <;> rfl

/-- A lookup keeps the cache faithful, whatever its answer is. -/
theorem Faithful.lookup (h : m.Faithful) : (m.perform (.lookup key)).Faithful := by
  have hlookups : (m.perform (.lookup key)).lookups =
      m.lookups ++ [⟨key, m.cache.answers.contains key, (m.resolved key).1.map (·.closed?)⟩] := rfl
  have hsince : ∀ key', (∃ x ∈ (m.perform (.lookup key)).lookups, x.key = key' ∧
      ∃ answer, x.uncached = .ok answer) ↔ key' ∈ m.cache.answers ∨
        key = key' ∧ ∃ answer, (m.resolved key).1.map Resolution.closed? = .ok answer := by
    intro key'
    simp only [hlookups, h.keys, List.mem_append, List.mem_singleton, or_and_right, exists_or,
      exists_eq_left]
  cases hkey : m.cache.answers[key]? with
  | some answer =>
    have hheld : key ∈ m.cache.answers := Std.TreeMap.mem_iff_isSome_getElem?.2 (by rw [hkey]; rfl)
    obtain ⟨hcache, -⟩ := perform_lookup_of_held hkey
    refine ⟨fun key' => ?_, ?_⟩
    · rw [hsince, hcache]
      exact ⟨.inl, fun h => h.elim id fun h => h.1 ▸ hheld⟩
    · rw [hcache, hlookups, List.countP_append, h.hits, List.countP_singleton,
        if_pos (Std.TreeMap.contains_iff_mem.2 hheld)]
  | none =>
    have hheld : key ∉ m.cache.answers := fun h => by
      rw [Std.TreeMap.mem_iff_isSome_getElem?, hkey] at h
      cases h
    obtain ⟨-, hcache⟩ := perform_lookup_of_not_held hkey
    refine ⟨fun key' => ?_, ?_⟩
    · rw [hsince, hcache]
      cases (m.resolved key).1 with
      | error e => simp [Except.map]
      | ok outcome => simp [Except.map, Std.TreeMap.mem_insert, or_comm]
    · rw [hcache, hlookups, List.countP_append, List.countP_singleton,
        if_neg fun hcontains => hheld (Std.TreeMap.contains_iff_mem.1 hcontains)]
      cases (m.resolved key).1 <;> exact h.hits

theorem Sound.lookup (h : Sound o false m) (hm : m.Ordered) :
    Sound o false (m.perform (.lookup key)) := by
  obtain rfl := h.options
  cases hkey : m.cache.answers[key]? with
  | some answer =>
    obtain ⟨hcache, htypes⟩ := perform_lookup_of_held hkey
    refine ⟨by rw [hcache], h.faithful.lookup, fun _ => ?_⟩
    rw [hcache, htypes]
    exact h.lasting rfl
  | none =>
    obtain ⟨hsession, hcache⟩ := perform_lookup_of_not_held hkey
    have hgrow : m.store.session.types.Grows (m.resolved key).2.types :=
      (Growth.resolve (r := m.request key) hm m.store.session rfl).1
    have hlasting := (h.lasting rfl).grow hgrow
    refine ⟨?_, h.faithful.lookup, fun _ => ?_⟩
    · rw [hcache]
      cases (m.resolved key).1 <;> rfl
    · rw [hcache, hsession]
      cases hresolved : (m.resolved key).1 with
      | error e => exact hlasting
      | ok outcome => exact hlasting.insert (Request.lasts_of_resolve_eq_ok hm hresolved)

/-- One operation keeps the cache sound. -/
theorem Sound.perform (h : Sound o b m) (hm : m.Ordered)
    (hop : ∀ key, op = .lookup key → b = false) : Sound o (op.stale b) (m.perform op) := by
  cases op with
  | lookup key =>
    obtain rfl := hop key rfl
    exact h.lookup hm
  | intern n =>
    exact ⟨h.options, ⟨h.faithful.keys, h.faithful.hits⟩, fun hb =>
      (h.lasting hb).grow (Types.grows_intern _ n)⟩
  | define catalog => exact ⟨h.options, ⟨h.faithful.keys, h.faithful.hits⟩, nofun⟩
  | clear =>
    exact ⟨h.options, ⟨by simp [CachedStore.perform, Cache.clear], rfl⟩, fun _ =>
      Cache.lasting_clear m.cache _ _⟩

theorem sound_start (s : Store) (o : Options) : Sound o false (start s o) where
  options := rfl
  faithful := ⟨by simp [start], rfl⟩
  lasting _ := Cache.lasting_clear { options := o } _ _

/-- Disciplined operations on ordered stores keep the cache sound. -/
theorem Sound.run (h : Sound o b m) (hops : CacheOp.Disciplined b ops)
    (hordered : ∀ before, before <+: ops → (m.run before).Ordered) :
    Sound o (ops.foldl CacheOp.stale b) (m.run ops) := by
  induction ops generalizing b m with
  | nil => exact h
  | cons op ops ih =>
    refine ih (h.perform (hordered [] (List.nil_prefix)) hops.1) hops.2 fun before hbefore => ?_
    exact hordered (op :: before) (List.prefix_cons_inj op |>.2 hbefore)

end CachedStore

/-- Where a cache is cleared between each change of definitions and the next lookup, and the store is
ordered at every moment, each lookup is answered as a resolution without the cache would be at that
moment; the cache always holds exactly the keys that were answered without an error since it was
cleared, and counts the lookups of keys that it held. -/
theorem cache_transparent {s : Store} {o : Options} {ops : List CacheOp}
    (hops : CacheOp.Disciplined false ops)
    (hordered : ∀ before, before <+: ops → ((CachedStore.start s o).run before).Ordered) :
    (∀ before key, before ++ [.lookup key] <+: ops →
      ((CachedStore.start s o).run before).answer key =
        ((CachedStore.start s o).run before).store.uncached o key) ∧
      ∀ before, before <+: ops → ((CachedStore.start s o).run before).Faithful := by
  have hsound : ∀ before, before <+: ops →
      CachedStore.Sound o (before.foldl CacheOp.stale false) ((CachedStore.start s o).run before) := by
    rintro before ⟨after, rfl⟩
    refine (CachedStore.sound_start s o).run (hops.of_prefix ?_) fun earlier hearlier => ?_
    · exact List.prefix_append ..
    · exact hordered earlier (hearlier.trans (List.prefix_append ..))
  refine ⟨fun before key hbefore => ?_, fun before hbefore => (hsound before hbefore).faithful⟩
  obtain ⟨after, rfl⟩ := hbefore
  rw [List.append_assoc] at hops hsound
  have hclean : before.foldl CacheOp.stale false = false := hops.of_append.1 key rfl
  exact (hclean ▸ hsound before (List.prefix_append ..)).answer_eq

namespace FixedSample

/-- The catalog after `D` has lost its interface. -/
def bare : Catalog where
  definitions.entries := #[
    { kind := .interfaceType, name := ⟨1⟩, params := [{ name := ⟨2⟩ }] },
    { kind := .classType, name := ⟨3⟩, params := [{ name := ⟨2⟩ }, { name := ⟨4⟩ }] },
    { kind := .classType, name := ⟨5⟩ }]

/-- `G<C>` is looked up, a type is added, it is looked up again, `D` loses its interface, the cache is
cleared, and `G<C>` is looked up once more. -/
def operations : List CacheOp :=
  [.lookup (⟨5⟩, ⟨4⟩), .intern (.app ⟨1⟩ [⟨5⟩]), .lookup (⟨5⟩, ⟨4⟩), .define bare, .clear,
    .lookup (⟨5⟩, ⟨4⟩)]

/-- The second lookup is answered from memory, as a resolution would answer it. -/
theorem cache_transparent_recalled :
    ((CachedStore.start { catalog, session } {}).run (operations.take 2)).answer (⟨5⟩, ⟨4⟩) =
        ((CachedStore.start { catalog, session } {}).run (operations.take 2)).store.uncached {}
          (⟨5⟩, ⟨4⟩) ∧
      ((CachedStore.start { catalog, session } {}).run operations).Faithful := by
  have hops : CacheOp.Disciplined false operations := by
    simp [operations, CacheOp.Disciplined, CacheOp.stale]
  have hordered : ∀ before, before <+: operations →
      ((CachedStore.start { catalog, session } {}).run before).Ordered := by
    simp only [← List.mem_inits]
    decide +kernel
  obtain ⟨hanswers, hfaithful⟩ := cache_transparent hops hordered
  exact ⟨hanswers _ _ ⟨operations.drop 3, rfl⟩, hfaithful _ (List.prefix_refl _)⟩

end FixedSample

end Generics
