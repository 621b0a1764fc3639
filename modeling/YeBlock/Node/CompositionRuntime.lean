import YeBlock.Lib.Outcomes
import YeBlock.Node.Composition

/-!
# Serving a composed model

Before an engine serves a model, an operator's runtime has it load the base, unless the base
is cached in the store, then fetches every adapter and has them attached.  The store and the
engine are interfaces: here each answers a call by all the calls made to the two before, so
what a run does is the history of these calls.

The runtime does not ask the engine what it has loaded: a base in the cache is taken for
loaded.  That is right while bytes come into the cache by loading only, but adapters are
fetched through the same cache.

## Main definitions

* `WeightStore`, `InferenceEngine`, `CompositionRuntime.prepare` — the source's.
* `LoadedFirst` — adapters are attached on loaded bases only.
* `prepare_loads_iff` — when a sequence of models is served so.
* `attached_as_fetched` — what is attached.
-/

namespace YeBlock

open Lib

/-! ## The two interfaces -/

/-- A call on the store or on the engine, with what came back. -/
inductive BoundaryCall where
  | isCached (cid : ContentId) (result : Except PyError Bool)
  | fetch (cid : ContentId) (result : Except PyError Bytes)
  | loadBase (base : ContentId) (weights : Bytes) (result : Except PyError Unit)
  | attachLoras (identity : ModelIdentity) (adapters : Dict ContentId Bytes)
      (result : Except PyError Unit)

/-- The calls made so far, the last one first. -/
abbrev History := List BoundaryCall

/-- Content-addressed storage. -/
structure WeightStore where
  fetch : History → ContentId → Except PyError Bytes
  isCached : History → ContentId → Except PyError Bool

/-- An operator's inference runtime. -/
structure InferenceEngine where
  loadBase : History → ContentId → Bytes → Except PyError Unit
  attachLoras : History → ModelIdentity → Dict ContentId Bytes → Except PyError Unit

/-- Make a call: it returns or raises what came back, and goes into the history. -/
def ask {α : Type} (answer : History → Except PyError α) (call : Except PyError α → BoundaryCall) :
    EStateM PyError History α := do
  let h ← get
  set (call (answer h) :: h)
  match answer h with
  | .ok a => pure a
  | .error e => throw e

/-- What an operator serves composed models with. -/
structure CompositionRuntime where
  store : WeightStore
  engine : InferenceEngine

namespace CompositionRuntime
variable (rt : CompositionRuntime)

/-- `self._store.is_cached(cid)` -/
def isCached (cid : ContentId) : EStateM PyError History Bool :=
  ask (rt.store.isCached · cid) (.isCached cid)

/-- `self._store.fetch(cid)` -/
def fetch (cid : ContentId) : EStateM PyError History Bytes :=
  ask (rt.store.fetch · cid) (.fetch cid)

/-- `self._engine.load_base(base, weights)` -/
def loadBase (base : ContentId) (weights : Bytes) : EStateM PyError History Unit :=
  ask (rt.engine.loadBase · base weights) (.loadBase base weights)

/-- `self._engine.attach_loras(identity, adapters)` -/
def attachLoras (identity : ModelIdentity) (adapters : Dict ContentId Bytes) :
    EStateM PyError History Unit :=
  ask (rt.engine.attachLoras · identity adapters) (.attachLoras identity adapters)

/-- `{cid: self._store.fetch(cid) for cid in loras}` -/
def fetchAdapters (loras : List ContentId) : EStateM PyError History (Dict ContentId Bytes) :=
  loras.foldlM (fun adapters cid => do return adapters.set cid (← rt.fetch cid)) ∅

/-- Ensure that the base and the adapters are resident before the engine serves a model. -/
def prepare (identity : ModelIdentity) : EStateM PyError History Unit := do
  if !(← rt.isCached identity.base) then
    rt.loadBase identity.base (← rt.fetch identity.base)
  let adapters ← rt.fetchAdapters identity.loras
  rt.attachLoras identity adapters

end CompositionRuntime

/-- A call ends in its history with what came back. -/
theorem ends_ask {α : Type} {answer : History → Except PyError α}
    {call : Except PyError α → BoundaryCall} {h : History} {Q : α → History → Prop}
    {E : History → Prop} (hok : ∀ a, answer h = .ok a → Q a (call (.ok a) :: h))
    (herr : ∀ e, answer h = .error e → E (call (.error e) :: h)) :
    Ends (ask answer call) h Q E := by
  cases hans : answer h with
  | ok a =>
      have hrun : (ask answer call).run h = .ok a (call (.ok a) :: h) := by
        simp only [ask, EStateM.run_bind, EStateM.run_get, EStateM.run_set, hans, EStateM.run_pure]
      exact .of_ok hrun (hok a hans)
  | error e =>
      have hrun : (ask answer call).run h = .error e (call (.error e) :: h) := by
        simp only [ask, EStateM.run_bind, EStateM.run_get, EStateM.run_set, hans]
        rfl
      exact .of_error hrun (herr e hans)

namespace CompositionRuntime
variable (rt : CompositionRuntime)

/-- The part of a preparation that is about the base. -/
def residentBase (base : ContentId) : EStateM PyError History Unit := do
  let cached ← rt.isCached base
  if cached then pure () else rt.fetch base >>= rt.loadBase base

/-- The three parts of a preparation. -/
theorem prepare_eq (m : ModelIdentity) :
    rt.prepare m = rt.residentBase m.base >>= fun _ =>
      rt.fetchAdapters m.loras >>= rt.attachLoras m := by
  rw [prepare, residentBase, bind_assoc]
  congr 1
  funext cached
  cases cached <;> simp

variable {rt} {h : History}

/-- What making the base resident ends in: the cache is asked, and then the engine. -/
theorem ends_residentBase {base : ContentId} {B E : History → Prop}
    (hraise : ∀ e, rt.store.isCached h base = .error e → E (.isCached base (.error e) :: h))
    (hhit : rt.store.isCached h base = .ok true → B (.isCached base (.ok true) :: h))
    (hmiss : rt.store.isCached h base = .ok false →
      Ends (rt.fetch base >>= rt.loadBase base) (.isCached base (.ok false) :: h) (fun _ => B) E) :
    Ends (rt.residentBase base) h (fun _ => B) E := by
  have hask : Ends (rt.isCached base) h (fun cached h' => h' = .isCached base (.ok cached) :: h ∧
      rt.store.isCached h base = .ok cached) E :=
    ends_ask (fun _ hans => ⟨rfl, hans⟩) hraise
  refine hask.bind fun cached h' ⟨hh', hans⟩ => ?_
  subst hh'
  cases cached with
  | true => exact .of_ok rfl (hhit hans)
  | false => exact hmiss hans

/-- What a preparation ends in, by an invariant over the adapters that are fetched. -/
theorem ends_prepare {m : ModelIdentity} {Q E : History → Prop}
    {I : List ContentId → Dict ContentId Bytes → History → Prop}
    (hbase : Ends (rt.residentBase m.base) h (fun _ => I [] ∅) E)
    (hfetch : ∀ done adapters h cid, cid ∈ m.loras → I done adapters h →
      Ends (rt.fetch cid) h (fun weights => I (done ++ [cid]) (adapters.set cid weights)) E)
    (hattach : ∀ adapters h, I m.loras adapters h →
      Ends (rt.attachLoras m adapters) h (fun _ => Q) E) :
    Ends (rt.prepare m) h (fun _ => Q) E := by
  rw [prepare_eq]
  refine hbase.bind fun _ h' hstart => ?_
  have hadapters : Ends (rt.fetchAdapters m.loras) h' (I m.loras) E := by
    refine Ends.foldlM (I := I) m.loras ?_ [] ∅ h' hstart
    intro done cid adapters h hcid hI
    exact (hfetch done adapters h cid hcid hI).bind fun _ _ hnext => .of_ok rfl hnext
  exact hadapters.bind hattach

end CompositionRuntime

/-! ## What a history shows -/

namespace History

/-- The store returned the bytes of an artifact. -/
def Fetched (h : History) (cid : ContentId) : Prop :=
  ∃ weights, BoundaryCall.fetch cid (.ok weights) ∈ h

/-- The engine loaded a base. -/
def Loaded (h : History) (base : ContentId) : Prop :=
  ∃ weights, BoundaryCall.loadBase base weights (.ok ()) ∈ h

/-- Every call that attaches adapters to a model is so, given the calls before it. -/
def EachAttached (R : ModelIdentity → Dict ContentId Bytes → History → Prop) (h : History) : Prop :=
  ∀ m adapters result before, .attachLoras m adapters result :: before <:+ h →
    R m adapters before

/-- Adapters are attached on loaded bases only. -/
def LoadedFirst (h : History) : Prop := h.EachAttached fun m _ before => before.Loaded m.base

variable {h h' : History} {cid : ContentId} {call : BoundaryCall}
  {R : ModelIdentity → Dict ContentId Bytes → History → Prop}

theorem fetched_cons :
    Fetched (call :: h) cid ↔ (∃ weights, call = .fetch cid (.ok weights)) ∨ Fetched h cid := by
  simp [Fetched, exists_or, eq_comm]

theorem loaded_cons :
    Loaded (call :: h) cid ↔
      (∃ weights, call = .loadBase cid weights (.ok ())) ∨ Loaded h cid := by
  simp [Loaded, exists_or, eq_comm]

theorem eachAttached_nil : EachAttached R [] := by
  intro m adapters result before hbefore
  cases List.suffix_nil.mp hbefore

/-- What the call that attaches adapters adds to a history. -/
theorem eachAttached_cons :
    EachAttached R (call :: h) ↔
      (∀ m adapters result, call = .attachLoras m adapters result → R m adapters h) ∧
        EachAttached R h := by
  constructor
  · intro hall
    refine ⟨?_, fun m adapters result before hbefore =>
      hall m adapters result before (hbefore.trans (List.suffix_cons call h))⟩
    rintro m adapters result rfl
    exact hall m adapters result h (List.suffix_refl _)
  · rintro ⟨hcall, hrest⟩ m adapters result before hbefore
    rcases List.suffix_cons_iff.mp hbefore with heq | hsuffix
    · obtain ⟨rfl, rfl⟩ := List.cons.inj heq
      exact hcall m adapters result rfl
    · exact hrest m adapters result before hsuffix

theorem EachAttached.of_suffix (hh : h <:+ h') (hall : EachAttached R h') : EachAttached R h :=
  fun m adapters result before hbefore => hall m adapters result before (hbefore.trans hh)

theorem Fetched.of_suffix (hh : h <:+ h') (hfetched : Fetched h cid) : Fetched h' cid := by
  obtain ⟨weights, hmem⟩ := hfetched
  exact ⟨weights, hh.subset hmem⟩

theorem Loaded.of_suffix (hh : h <:+ h') (hloaded : Loaded h cid) : Loaded h' cid := by
  obtain ⟨weights, hmem⟩ := hloaded
  exact ⟨weights, hh.subset hmem⟩

end History

/-- Preparations add to the history. -/
theorem suffix_finish (rt : CompositionRuntime) (models : List ModelIdentity) (h : History) :
    h <:+ finish rt.prepare h models := by
  have hkept : ∀ {call : BoundaryCall} {h' : History}, h <:+ h' → h <:+ call :: h' :=
    fun hh' => hh'.trans (List.suffix_cons _ _)
  refine finish_of_ends (I := fun _ h' => h <:+ h') models ?_ h (List.suffix_refl h)
  intro _ m _ h' _ hh'
  refine CompositionRuntime.ends_prepare (I := fun _ _ h' => h <:+ h') ?_ ?_ ?_
  · refine CompositionRuntime.ends_residentBase (fun _ _ => hkept hh') (fun _ => hkept hh')
      fun _ => ?_
    have hfetch : Ends (rt.fetch m.base) (.isCached m.base (.ok false) :: h')
        (fun _ h' => h <:+ h') (fun h' => h <:+ h') :=
      ends_ask (fun _ _ => hkept (hkept hh')) fun _ _ => hkept (hkept hh')
    exact hfetch.bind fun _ _ hh' => ends_ask (fun _ _ => hkept hh') fun _ _ => hkept hh'
  · intro _ _ _ _ _ hh'
    exact ends_ask (fun _ _ => hkept hh') fun _ _ => hkept hh'
  · intro _ _ hh'
    exact ends_ask (fun _ _ => hkept hh') fun _ _ => hkept hh'

/-! ## What is attached -/

/-- The adapters named, each with the bytes the store returned for it. -/
structure AsFetched (loras : List ContentId) (adapters : Dict ContentId Bytes) (h : History) :
    Prop where
  keys : ∀ cid, cid ∈ adapters.keys ↔ cid ∈ loras
  order : loras.Nodup → adapters.keys = loras
  fetched : ∀ cid weights, adapters.get? cid = some weights →
    BoundaryCall.fetch cid (.ok weights) ∈ h

theorem AsFetched.empty (h : History) : AsFetched [] ∅ h := by
  constructor <;> simp

/-- One more adapter, with what the store has just returned for it. -/
theorem AsFetched.set {loras : List ContentId} {adapters : Dict ContentId Bytes} {h : History}
    (hfetched : AsFetched loras adapters h) (cid : ContentId) (weights : Bytes) :
    AsFetched (loras ++ [cid]) (adapters.set cid weights)
      (.fetch cid (.ok weights) :: h) := by
  constructor
  case keys =>
    intro cid'
    rw [Dict.mem_keys_set, hfetched.keys]
    simp [or_comm]
  case order =>
    intro hnodup
    have hnew : cid ∉ adapters.keys := by
      rw [hfetched.keys]
      exact fun hmem => List.disjoint_of_nodup_append hnodup hmem (List.mem_singleton_self cid)
    have hkeys := hfetched.order (List.Nodup.of_append_left hnodup)
    rw [← hkeys]
    exact (keys_upsert cid weights adapters.items).trans (if_neg hnew)
  case fetched =>
    intro cid' weights' hget
    rw [Dict.get?_set] at hget
    split at hget
    · next heq =>
        subst heq
        cases hget
        exact List.mem_cons_self
    · exact List.mem_cons_of_mem _ (hfetched.fetched cid' weights' hget)

/-- **Adapters are attached as they were fetched**: in every run of preparations, whatever
the store and the engine do, each call that attaches adapters is for a model that was to be
prepared, and hands over exactly its adapters, in its order if each occurs once, with the
bytes the store returned for them. -/
theorem attached_as_fetched (rt : CompositionRuntime) (models : List ModelIdentity) :
    (finish rt.prepare [] models).EachAttached fun m adapters before =>
      m ∈ models ∧ AsFetched m.loras adapters before := by
  let Kept : History → Prop := fun h => h.EachAttached fun m adapters before =>
    m ∈ models ∧ AsFetched m.loras adapters before
  have hother : ∀ {call h}, (∀ m adapters result, call ≠ .attachLoras m adapters result) →
      Kept h → Kept (call :: h) := by
    intro call h hcall hkept
    refine History.eachAttached_cons.mpr ⟨fun m adapters result heq => ?_, hkept⟩
    exact absurd heq (hcall m adapters result)
  refine finish_of_ends (I := fun _ h => Kept h) models ?_ [] History.eachAttached_nil
  intro done m rest h hmodels hkept
  have hm : m ∈ models := by simp [hmodels]
  refine CompositionRuntime.ends_prepare
    (I := fun done adapters h => Kept h ∧ AsFetched done adapters h) ?_ ?_ ?_
  · have hasked : ∀ result, Kept (.isCached m.base result :: h) :=
      fun _ => hother (by simp) hkept
    refine CompositionRuntime.ends_residentBase (fun e _ => hasked (.error e))
      (fun _ => ⟨hasked _, .empty _⟩) fun _ => ?_
    have hfetch : Ends (rt.fetch m.base) (.isCached m.base (.ok false) :: h) (fun _ => Kept) Kept :=
      ends_ask (fun _ _ => hother (by simp) (hasked _)) fun _ _ => hother (by simp) (hasked _)
    exact hfetch.bind fun _ _ hkept => ends_ask (fun _ _ => ⟨hother (by simp) hkept, .empty _⟩)
      fun _ _ => hother (by simp) hkept
  · rintro done adapters h cid - ⟨hkept, hfetched⟩
    exact ends_ask (fun weights _ => ⟨hother (by simp) hkept, hfetched.set cid weights⟩)
      fun _ _ => hother (by simp) hkept
  · rintro adapters h ⟨hkept, hfetched⟩
    have hlast : ∀ result, Kept (.attachLoras m adapters result :: h) := by
      refine fun result => History.eachAttached_cons.mpr ⟨?_, hkept⟩
      rintro _ _ _ heq
      cases heq
      exact ⟨hm, hfetched⟩
    exact ends_ask (fun _ _ => hlast _) fun _ _ => hlast _

/-! ## Bases are loaded first -/

/-- Nothing is cached but what the store returned. -/
def WeightStore.CachesFetched (store : WeightStore) : Prop :=
  ∀ (h : History) (cid : ContentId), store.isCached h cid = .ok true → h.Fetched cid

/-- The engine loads what it is given. -/
def InferenceEngine.Loads (engine : InferenceEngine) : Prop :=
  ∀ (h : History) (base : ContentId) (weights : Bytes), engine.loadBase h base weights = .ok ()

/-- Every base was loaded first; and what was fetched was loaded, or it is an adapter of a
model on another base. -/
structure ServedSoFar (done : List ModelIdentity) (h : History) : Prop where
  loadedFirst : h.LoadedFirst
  fetched : ∀ cid, h.Fetched cid → h.Loaded cid ∨ ∃ m ∈ done, cid ∈ m.loras ∧ m.base ≠ cid

section Served
variable {done : List ModelIdentity} {m : ModelIdentity} {h : History}

theorem ServedSoFar.append (hserved : ServedSoFar done h) (m : ModelIdentity) :
    ServedSoFar (done ++ [m]) h := by
  refine ⟨hserved.loadedFirst, fun cid hcid => ?_⟩
  rcases hserved.fetched cid hcid with hloaded | ⟨d, hd, hadapter⟩
  · exact .inl hloaded
  · exact .inr ⟨d, List.mem_append_left _ hd, hadapter⟩

/-- What a call keeps, if what it attaches is on a loaded base and what it returns is loaded
or an adapter. -/
theorem ServedSoFar.cons {call : BoundaryCall} (hserved : ServedSoFar done h)
    (hattach : ∀ m adapters result, call = .attachLoras m adapters result → h.Loaded m.base)
    (hfetch : ∀ cid weights, call = .fetch cid (.ok weights) →
      h.Loaded cid ∨ ∃ m ∈ done, cid ∈ m.loras ∧ m.base ≠ cid) : ServedSoFar done (call :: h) := by
  refine ⟨History.eachAttached_cons.mpr ⟨hattach, hserved.loadedFirst⟩, fun cid hcid => ?_⟩
  have hbefore : h.Loaded cid ∨ ∃ m ∈ done, cid ∈ m.loras ∧ m.base ≠ cid := by
    rcases History.fetched_cons.mp hcid with ⟨weights, heq⟩ | hcid
    · exact hfetch cid weights heq
    · exact hserved.fetched cid hcid
  exact hbefore.imp_left (History.Loaded.of_suffix (List.suffix_cons call h))

variable {rt : CompositionRuntime} (hstore : rt.store.CachesFetched) (hengine : rt.engine.Loads)
include hstore hengine

/-- The base is loaded when its adapters are due, if no model served before on another base
has it as an adapter. -/
theorem ends_residentBase_served (hcovered : ∀ d ∈ done, m.base ∈ d.loras → d.base = m.base)
    (hserved : ServedSoFar done h) :
    Ends (rt.residentBase m.base) h (fun _ h => ServedSoFar done h ∧ h.Loaded m.base)
      (ServedSoFar done) := by
  have hasked : ∀ result, ServedSoFar done (.isCached m.base result :: h) :=
    fun result => hserved.cons (by simp) (by simp)
  refine CompositionRuntime.ends_residentBase (fun e _ => hasked (.error e)) ?_ fun _ => ?_
  · intro hhit
    refine ⟨hasked _, History.Loaded.of_suffix (List.suffix_cons _ h) ?_⟩
    rcases hserved.fetched m.base (hstore h m.base hhit) with hloaded | ⟨d, hd, hadapter, hne⟩
    · exact hloaded
    · exact absurd (hcovered d hd hadapter) hne
  · have hfetch : Ends (rt.fetch m.base) (.isCached m.base (.ok false) :: h)
        (fun weights h' => h' = .fetch m.base (.ok weights) :: .isCached m.base (.ok false) :: h)
        (ServedSoFar done) :=
      ends_ask (fun _ _ => rfl) fun e _ => (hasked _).cons (by simp) (by simp)
    refine hfetch.bind fun weights h' hh' => ?_
    subst hh'
    refine ends_ask (fun _ _ => ⟨⟨?_, ?_⟩, ?_⟩) fun e hans => ?_
    · exact History.eachAttached_cons.mpr ⟨by simp, History.eachAttached_cons.mpr
        ⟨by simp, (hasked _).loadedFirst⟩⟩
    · intro cid hcid
      by_cases hbase : cid = m.base
      · exact .inl (History.loaded_cons.mpr (.inl ⟨weights, by rw [hbase]⟩))
      · have hbefore : History.Fetched (.isCached m.base (.ok false) :: h) cid := by
          simpa [History.fetched_cons, Ne.symm hbase] using hcid
        exact ((hasked _).fetched cid hbefore).imp_left
          (History.Loaded.of_suffix ((List.suffix_cons _ _).trans (List.suffix_cons _ _)))
    · exact History.loaded_cons.mpr (.inl ⟨weights, rfl⟩)
    · rw [hengine] at hans
      cases hans

/-- **One preparation** keeps the bases loaded first. -/
theorem ends_prepare_served (hcovered : ∀ d ∈ done, m.base ∈ d.loras → d.base = m.base)
    (hserved : ServedSoFar done h) :
    Ends (rt.prepare m) h (fun _ => ServedSoFar (done ++ [m])) (ServedSoFar (done ++ [m])) := by
  refine CompositionRuntime.ends_prepare
    (I := fun _ _ h => ServedSoFar (done ++ [m]) h ∧ h.Loaded m.base) ?_ ?_ ?_
  · exact (ends_residentBase_served hstore hengine hcovered hserved).mono
      (fun _ _ hbase => ⟨hbase.1.append m, hbase.2⟩) fun _ hraised => hraised.append m
  · rintro _ adapters h cid hcid ⟨hserved, hbase⟩
    -- a fetched adapter is the base itself, or an adapter of a model on another base
    have hadapter : h.Loaded cid ∨ ∃ d ∈ done ++ [m], cid ∈ d.loras ∧ d.base ≠ cid := by
      by_cases heq : m.base = cid
      · exact .inl (heq ▸ hbase)
      · exact .inr ⟨m, by simp, hcid, heq⟩
    refine ends_ask (fun weights _ => ⟨hserved.cons (by simp) ?_, hbase.of_suffix
      (List.suffix_cons _ h)⟩) fun e _ => hserved.cons (by simp) (by simp)
    rintro _ _ heq
    cases heq
    exact hadapter
  · rintro adapters h ⟨hserved, hbase⟩
    have hlast : ∀ result, ServedSoFar (done ++ [m]) (.attachLoras m adapters result :: h) := by
      refine fun result => hserved.cons ?_ (by simp)
      rintro _ _ _ heq
      cases heq
      exact hbase
    exact ends_ask (fun _ _ => hlast _) fun _ _ => hlast _

end Served

/-! ## A base that is an adapter elsewhere -/

/-- The cache was asked for `base` last, and did not have it. -/
def missed (base : ContentId) : History → Bool
  | .isCached cid (.ok false) :: _ => cid = base
  | _ => false

/-- The call returned the bytes of `cid`. -/
def BoundaryCall.returns (cid : ContentId) : BoundaryCall → Bool
  | .fetch cid' (.ok _) => cid' = cid
  | _ => false

/-- A runtime in which `base` cannot be fetched when it is needed as a base: the store
caches all that it returned, and everything else returns. -/
def outage (base : ContentId) : CompositionRuntime where
  store :=
    { fetch := fun h _ => if missed base h then .error (.valueError "unreachable") else .ok []
      isCached := fun h cid => .ok (h.any (BoundaryCall.returns cid)) }
  engine :=
    { loadBase := fun _ _ _ => .ok ()
      attachLoras := fun _ _ _ => .ok () }

theorem any_returns_iff (h : History) (cid : ContentId) :
    h.any (BoundaryCall.returns cid) = true ↔ h.Fetched cid := by
  rw [List.any_eq_true]
  constructor
  · rintro ⟨call, hcall, hreturns⟩
    cases call with
    | fetch cid' result =>
        cases result with
        | ok weights =>
            obtain rfl : cid' = cid := by simpa [BoundaryCall.returns] using hreturns
            exact ⟨weights, hcall⟩
        | error e => simp [BoundaryCall.returns] at hreturns
    | _ => simp [BoundaryCall.returns] at hreturns
  · rintro ⟨weights, hmem⟩
    exact ⟨_, hmem, by simp [BoundaryCall.returns]⟩

theorem cachesFetched_outage (base : ContentId) : (outage base).store.CachesFetched := by
  intro h cid hcached
  exact (any_returns_iff h cid).mp (Except.ok.inj hcached)

section Outage
variable {base : ContentId} {m : ModelIdentity} {h : History}

/-- In an outage a preparation raises only for want of the base; otherwise it fetches all
adapters and attaches them, and has not loaded the base. -/
theorem ends_prepare_outage (hloaded : ¬ h.Loaded base) :
    Ends ((outage base).prepare m) h
      (fun _ h' => ∃ adapters before, h' = .attachLoras m adapters (.ok ()) :: before ∧
        ¬ History.Loaded before base ∧ ∀ cid ∈ m.loras, History.Fetched before cid)
      (fun h' => ¬ h'.Loaded base ∧ m.base = base ∧ ¬ h.Fetched base) := by
  refine CompositionRuntime.ends_prepare (I := fun done _ h' =>
    ¬ h'.Loaded base ∧ missed base h' = false ∧ ∀ cid ∈ done, h'.Fetched cid) ?_ ?_ ?_
  · have hasked : ∀ result, ¬ History.Loaded (.isCached m.base result :: h) base := by
      simpa [History.loaded_cons] using hloaded
    refine CompositionRuntime.ends_residentBase (fun e hraised => by cases hraised)
      (fun _ => ⟨hasked _, rfl, by simp⟩) fun hmiss => ?_
    have habsent : ¬ h.Fetched m.base := by
      rw [← any_returns_iff, Except.ok.inj hmiss]
      exact Bool.false_ne_true
    by_cases hbase : m.base = base
    · -- the store does not have the base, and cannot fetch it
      refine Ends.bind (Q := fun _ _ => False) (ends_ask (fun _ hans => ?_) fun _ _ => ?_)
        fun _ _ hfalse => hfalse.elim
      · simp [outage, missed, hbase] at hans
      · exact ⟨by simpa [History.loaded_cons] using hloaded, hbase, hbase ▸ habsent⟩
    · refine Ends.bind (Q := fun _ h' => ¬ History.Loaded h' base) (ends_ask (fun _ _ => ?_)
        fun _ hans => ?_) fun weights h' hnot => ends_ask (fun _ _ => ⟨?_, rfl, by simp⟩)
        fun _ hans => by cases hans
      · simpa [History.loaded_cons] using hloaded
      · simp [outage, missed, hbase] at hans
      · simpa [History.loaded_cons, hbase] using hnot
  · rintro done adapters h' cid - ⟨hnot, hmissed, hfetched⟩
    refine ends_ask (fun weights _ => ⟨by simpa [History.loaded_cons] using hnot, rfl, ?_⟩)
      fun _ hans => ?_
    · intro cid' hcid'
      rcases List.mem_append.mp hcid' with hdone | hlast
      · exact (hfetched cid' hdone).of_suffix (List.suffix_cons _ h')
      · rw [List.mem_singleton.mp hlast]
        exact History.fetched_cons.mpr (.inl ⟨weights, rfl⟩)
    · simp [outage, hmissed] at hans
  · rintro adapters h' ⟨hnot, _, hfetched⟩
    exact ends_ask (fun _ _ => ⟨adapters, h', rfl, hnot, hfetched⟩) fun _ hans => by cases hans

theorem not_loaded_finish (hloaded : ¬ h.Loaded base) (models : List ModelIdentity) :
    ¬ (finish (outage base).prepare h models).Loaded base := by
  refine finish_of_ends (I := fun _ h => ¬ h.Loaded base) models ?_ h hloaded
  intro _ m _ h _ hloaded
  refine (ends_prepare_outage hloaded).mono ?_ fun _ hraised => hraised.1
  rintro _ _ ⟨adapters, h', rfl, hnot, _⟩
  simpa [History.loaded_cons] using hnot

/-- A base that is an adapter of an earlier model on another base is not loaded in an
outage, and its own adapters are attached all the same. -/
theorem not_loadedFirst_outage {earlier later : ModelIdentity}
    (hadapter : later.base ∈ earlier.loras) (hbase : earlier.base ≠ later.base)
    (before between after : List ModelIdentity) :
    ¬ (finish (outage later.base).prepare []
      (before ++ earlier :: (between ++ later :: after))).LoadedFirst := by
  rw [finish_append, finish, finish_append, finish]
  have hstart : ¬ (finish (outage later.base).prepare [] before).Loaded later.base := by
    apply not_loaded_finish
    simp [History.Loaded]
  generalize finish (outage later.base).prepare [] before = h₁ at hstart ⊢
  -- the earlier model brings the base into the cache
  have hearlier : Ends ((outage later.base).prepare earlier) h₁
      (fun _ h => ¬ h.Loaded later.base ∧ h.Fetched later.base)
      (fun h => ¬ h.Loaded later.base ∧ h.Fetched later.base) := by
    refine (ends_prepare_outage hstart).mono ?_ ?_
    · rintro _ _ ⟨adapters, h', rfl, hnot, hfetched⟩
      exact ⟨by simpa [History.loaded_cons] using hnot,
        (hfetched _ hadapter).of_suffix (List.suffix_cons _ h')⟩
    · rintro _ ⟨_, heq, _⟩
      exact absurd heq hbase
  replace hearlier : ¬ (event (outage later.base).prepare h₁ earlier).after.Loaded later.base ∧
      (event (outage later.base).prepare h₁ earlier).after.Fetched later.base := hearlier.leftState
  generalize (event (outage later.base).prepare h₁ earlier).after = h₂ at hearlier ⊢
  have hnot : ¬ (finish (outage later.base).prepare h₂ between).Loaded later.base :=
    not_loaded_finish hearlier.1 between
  have hfetched : (finish (outage later.base).prepare h₂ between).Fetched later.base :=
    hearlier.2.of_suffix (suffix_finish _ between h₂)
  generalize finish (outage later.base).prepare h₂ between = h₃ at hnot hfetched ⊢
  -- so that the later one finds it there
  have hlater : Ends ((outage later.base).prepare later) h₃ (fun _ h => ¬ h.LoadedFirst)
      (fun h => ¬ h.LoadedFirst) := by
    refine (ends_prepare_outage hnot).mono ?_ ?_
    · rintro _ _ ⟨adapters, h', rfl, hnot, _⟩ hfirst
      exact hnot ((History.eachAttached_cons.mp hfirst).1 later adapters _ rfl)
    · rintro _ ⟨_, _, habsent⟩
      exact absurd hfetched habsent
  exact fun hfirst => hlater.leftState (hfirst.of_suffix (suffix_finish _ after _))

end Outage

/-- **When bases are loaded first**: in all runs that prepare a sequence of models, with a
store that caches only what it returned and an engine that loads what it is given, adapters
are attached on loaded bases only, exactly when no model has the base of a later one as an
adapter, unless it is on that base itself. -/
theorem prepare_loads_iff (models : List ModelIdentity) :
    (∀ rt : CompositionRuntime, rt.store.CachesFetched → rt.engine.Loads →
        (finish rt.prepare [] models).LoadedFirst) ↔
      models.Pairwise fun earlier later =>
        later.base ∈ earlier.loras → earlier.base = later.base := by
  constructor
  · intro hall
    refine List.pairwise_iff_forall_sublist.mpr fun {earlier later} hsublist hadapter => ?_
    obtain ⟨l, l', hmodels, hearlier, hlater⟩ := List.cons_sublist_iff.mp hsublist
    obtain ⟨before, between, rfl⟩ := List.append_of_mem hearlier
    obtain ⟨between', after, rfl⟩ := List.append_of_mem (List.singleton_sublist.mp hlater)
    have hsplit : models = before ++ earlier :: ((between ++ between') ++ later :: after) := by
      simp [hmodels]
    by_contra hbase
    have hfirst := hall (outage later.base) (cachesFetched_outage _) fun _ _ _ => rfl
    rw [hsplit] at hfirst
    exact not_loadedFirst_outage hadapter hbase before (between ++ between') after hfirst
  · intro hpairwise rt hstore hengine
    refine (finish_of_ends (I := ServedSoFar) models ?_ [] ?_).loadedFirst
    · intro done m rest h hmodels hserved
      refine ends_prepare_served hstore hengine (fun d hd => ?_) hserved
      rw [hmodels, List.pairwise_append] at hpairwise
      exact hpairwise.2.2 d hd m List.mem_cons_self
    · refine ⟨History.eachAttached_nil, ?_⟩
      simp [History.Fetched]

end YeBlock
