import HostScript.Proofs.OwnershipSteps

/-!
# Owning values: names, conversions and handlers

How the pieces of the evaluator that do not evaluate anything themselves end: finding classes, methods,
handlers and places by name, converting values, and binding them to parameters.
-/

set_option autoImplicit false

namespace HostScript

namespace Machine

variable [Trust] {m : Machine} {o r : Multiset Claim} {scope : ScopeId}

/-! ## What the frames say -/

/-- The methods in sight of a frame are closed over frames above it. -/
theorem Ready.overloads (h : m.Ready o r) (hs : m.store.Pinned r scope) (name : String) :
    ∃ levels, m.store.arena.overloads scope name = .ok levels ∧
      ∀ level ∈ levels, ∀ method ∈ level, m.store.arena.Above scope method.declaring := by
  obtain ⟨frames, hl⟩ := h.lineage hs
  refine ⟨_, by rw [Arena.overloads, Arena.chain_eq_of_lineage hl]; rfl, fun level hlevel => ?_⟩
  obtain ⟨entry, he, hget⟩ := List.mem_filterMap.1 hlevel
  obtain ⟨hf, habove⟩ := hl.mem he
  intro method hm
  -- a method is found in the frame that it is closed over
  rw [(h.sound.tidy _ _ hf).declaring_of_get? hget method hm]
  exact habove

theorem Ready.methodByArity? (h : m.Ready o r) (hs : m.store.Pinned r scope) (name : String)
    (arity : Nat) : ∃ found, m.store.arena.methodByArity? scope name arity = .ok found ∧
      ∀ method, found = some method → m.store.arena.Above scope method.declaring := by
  obtain ⟨levels, ho, hlevels⟩ := h.overloads hs name
  refine ⟨_, by rw [Arena.methodByArity?, ho]; rfl, fun method hm => ?_⟩
  obtain ⟨level, hlevel, hmem⟩ := List.mem_flatten.1 (List.mem_of_find?_eq_some hm)
  exact hlevels level hlevel method hmem

theorem Ready.resolve (h : m.Ready o r) (hs : m.store.Pinned r scope) (name : String)
    (arity : Nat) : ∃ handler, Adapter.resolve scope name arity m.store.arena = .ok handler ∧
      ∀ method, handler.method? = some method → m.store.arena.Above scope method.declaring := by
  obtain ⟨frames, hl⟩ := h.lineage hs
  obtain ⟨handler, hhandler, hanswers⟩ := Adapter.resolve_of_lineage hl name arity
  refine ⟨handler, hhandler, fun method hm => ?_⟩
  obtain ⟨e, he, name', hmem⟩ := hanswers.mem hm
  obtain ⟨hf, habove⟩ := hl.mem he
  cases hget : e.2.methods.get? name' with
  | none =>
    rw [Frame.overloads, hget] at hmem
    exact absurd hmem List.not_mem_nil
  | some level =>
    rw [Frame.overloads, hget] at hmem
    rw [(h.sound.tidy _ _ hf).declaring_of_get? hget method hmem]
    exact habove

end Machine

namespace Exec

open Machine

variable [Holding] [Trust] {m m' : Machine} {o r : Multiset Claim} {scope id : ScopeId} {name : String} {v : Value}
  {args : List Value}

/-! ## Class names -/

/-- Looking for a class changes nothing beyond settling. -/
theorem ends_lookupClass_of_live (h : m.Ready o r) (hs : m.settle.store.arena.Live scope)
    (name : String) : Ends r (fun _ => o) m (fun found m' => (∀ c, found = some c → c ∈ m.classes.records) ∧
      (m' = m ∨ m' = m.settle)) (lookupClass scope name) := by
  unfold lookupClass
  split
  · exact Ends.get (.pure h ⟨fun c hc => Classes.mem_of_load? hc, .inl rfl⟩)
  · -- the look itself changes nothing beyond settling
    have hlook : Ends r (fun _ => o) m (fun _ m' => m' = m.settle)
        (look (fun arena => (arena.chain scope).map fun frames =>
          frames.flatMap fun e => e.2.classCandidates name)) := by
      refine ends_look h fun m' hl hm _ => ?_
      rw [← hm] at hs
      obtain ⟨frames, hlin⟩ := hl.ready.sound.frames.rooted scope hs
      exact ⟨_, by rw [Arena.chain_eq_of_lineage hlin]; rfl, hm⟩
    refine hlook.bind fun candidates m' hl hm => Ends.get ?_
    refine .pure hl.ready ⟨fun c hc => ?_, .inr hm⟩
    obtain ⟨candidate, -, hload⟩ := List.exists_of_findSome?_eq_some hc
    exact hl.alike.classes ▸ Classes.mem_of_load? hload

theorem ends_lookupClass (h : m.Ready o r) (hs : m.store.Pinned r scope) (name : String) :
    Ends r (fun _ => o) m (fun found m' => (∀ c, found = some c → c ∈ m.classes.records) ∧
      (m.store.arena.dropped = [] → m' = m)) (lookupClass scope name) := by
  refine (ends_lookupClass_of_live h (h.live_settle hs) name).imp fun found m' _ hfound => ?_
  refine ⟨hfound.1, fun hq => ?_⟩
  rcases hfound.2 with hm | hm
  · exact hm
  · exact hm.trans (settle_of_settled hq)

theorem ends_qualify (type : ValueType) : ∀ {m : Machine}, m.Ready o r →
    m.store.Pinned r scope → Owns r (fun _ => o) m (qualify scope type) := by
  induction type with
  | named name =>
    intro m h hs
    refine (ends_lookupClass h hs name).bind fun found m' hl _ => ?_
    cases found with
    | none => exact .pure hl.ready trivial
    | some c =>
      dsimp only
      split
      · exact .pure hl.ready trivial
      · split
        · exact .pure hl.ready trivial
        · exact .pure hl.ready trivial
  | array element ih => exact fun h hs => (ih h hs).bind fun _ _ hl _ => .pure hl.ready trivial
  | _ => exact fun h _ => .pure h trivial

theorem ends_resolveType? (type : Option TypeName) (h : m.Ready o r) (hs : m.store.Pinned r scope) :
    Owns r (fun _ => o) m (resolveType? scope type) := by
  cases type with
  | none => exact .pure h trivial
  | some type => exact (ends_qualify _ h hs).bind fun _ _ hl _ => .pure hl.ready trivial

theorem ends_resolveParams (params : List Param) : ∀ {m : Machine}, m.Ready o r →
    m.store.Pinned r scope → Ends r (fun _ => o) m (fun types _ => types.length = params.length)
      (resolveParams scope params) := by
  induction params with
  | nil => exact fun h _ => .pure h rfl
  | cons p rest ih =>
    intro m h hs
    refine (ends_resolveType? p.type h hs).bind fun type m1 h1 _ => ?_
    refine (ih h1.ready (h1.pinned hs)).bind fun types m2 h2 hlen => ?_
    exact .pure h2.ready (congrArg (· + 1) hlen)

theorem ends_lookupInterfaces (names : List String) : ∀ {m : Machine}, m.Ready 0 r →
    m.settle.store.arena.Live scope → Ends r (fun _ => 0) m (fun _ m' => m'.settle = m.settle)
      (lookupInterfaces scope names) := by
  induction names with
  | nil => exact fun h _ => .pure h rfl
  | cons name rest ih =>
    intro m h hs
    refine (ends_lookupClass_of_live h hs name).bind fun found m1 h1 hfound => ?_
    have hsettled : m1.settle = m.settle := by
      rcases hfound.2 with rfl | rfl
      · rfl
      · exact settle_of_settled h.settle.2
    cases found with
    | none => exact .fault h1.ready _
    | some c =>
      dsimp only
      split
      · refine (ih h1.ready (hsettled ▸ hs)).bind fun _ m2 h2 hm2 => ?_
        exact .pure h2.ready (hm2.trans hsettled)
      · exact .fault h1.ready _

/-! ## Adapters -/

/-- Handlers that a look at the frames gives as well. -/
def Resolved (scope : ScopeId) (handlers : List ((String × Nat) × Handler)) (m : Machine) : Prop :=
  ∀ e ∈ handlers, Adapter.resolve scope e.1.1 e.1.2 m.store.arena = .ok e.2

theorem ends_resolve (h : m.Ready o r) (hs : m.store.Pinned r scope) (name : String)
    (arity : Nat) : Ends r (fun _ => o) m (fun handler m' => ∀ method,
      handler.method? = some method → m'.store.arena.Above scope method.declaring)
      (look (Adapter.resolve scope name arity)) :=
  ends_look h fun _ hl _ _ => hl.ready.resolve (hl.pinned hs) name arity

omit [Holding] [Trust] in
/-- When nothing waits to be released, finding handlers leaves the machine as it is. -/
theorem findHandlers_of_rooted (hq : m.store.arena.dropped = []) (hr : m.store.arena.Rooted scope)
    (methods : List HostMethod) : ∀ {found : List ((String × Nat) × Handler)},
      Resolved scope found m → ∃ handlers,
        findHandlers scope found methods m = .ok handlers m ∧ Resolved scope handlers m := by
  induction methods with
  | nil => exact fun hfound => ⟨_, rfl, hfound⟩
  | cons method rest ih =>
    intro found hfound
    unfold findHandlers
    dsimp only
    split
    · exact ih hfound
    · obtain ⟨l, hl⟩ := hr
      obtain ⟨handler, hhandler, -⟩ := Adapter.resolve_of_lineage hl method.name method.arity
      have hlook : look (Adapter.resolve scope method.name method.arity) m = .ok handler m := by
        have hsettled := settle_of_settled hq
        rw [← hsettled] at hhandler
        rw [look_of_ok hhandler, hsettled]
      have hmore : Resolved scope (found ++ [((method.name, method.arity), handler)]) m := by
        intro e he
        rcases List.mem_append.1 he with he | he
        · exact hfound e he
        · rw [List.mem_singleton.1 he]
          exact hhandler
      obtain ⟨handlers, hrun, hresolved⟩ := ih hmore
      exact ⟨handlers, (bind_of_ok hlook).trans hrun, hresolved⟩

omit [Holding] [Trust] in
/-- A new table says what a look at the frames says. -/
theorem makeTable_of_rooted (hq : m.settle.store.arena.dropped = [])
    (hr : m.settle.store.arena.Rooted scope) (interfaces : List HostClass) : ∃ table,
      makeTable scope interfaces m = .ok table m.settle ∧
        table.asOf = m.settle.store.arena.methodChanges ∧ Resolved scope table.handlers m.settle := by
  have hnone : Resolved scope [] m.settle := fun e he => absurd he List.not_mem_nil
  obtain ⟨handlers, hrun, hresolved⟩ :=
    findHandlers_of_rooted hq hr (m.settle.classes.abstractMethods interfaces) hnone
  have hlook : look (fun arena => .ok arena.methodChanges) m =
      .ok m.settle.store.arena.methodChanges m.settle := look_of_ok rfl
  refine ⟨⟨_, handlers⟩, ?_, rfl, hresolved⟩
  exact (bind_of_ok hlook).trans ((get_bind m.settle).trans (bind_of_ok hrun))

/-- A new table is accurate, and its handlers are closed over frames above. -/
theorem ends_makeTable (interfaces : List HostClass) (h : m.Ready o r)
    (hs : m.store.Pinned r scope) : Ends r (fun _ => o) m
      (fun table m' => (∀ label, Adapter.Within ⟨scope, label, interfaces, table⟩ m'.store.arena) ∧
        table.Accurate scope m'.store.arena) (makeTable scope interfaces) := by
  obtain ⟨hl, hq⟩ := h.settle
  have hs1 := hl.pinned hs
  obtain ⟨table, hrun, hasOf, hresolved⟩ :=
    makeTable_of_rooted hq (hl.ready.lineage hs1) interfaces
  constructor
  rw [hrun]
  refine ⟨hl, fun label e he method hmethod => ?_, hasOf.le, fun _ => hresolved⟩
  obtain ⟨handler, hhandler, habove⟩ := hl.ready.resolve hs1 e.1.1 e.1.2
  rw [hresolved e he, Except.ok.injEq] at hhandler
  exact habove method (hhandler ▸ hmethod)

theorem ends_makeAdapter_of_live (names : List String) (h : m.Ready 0 r)
    (hs : m.settle.store.arena.Live scope) :
    Owns r Value.claims m (makeAdapter scope names) := by
  refine (ends_lookupInterfaces names h hs).bind fun interfaces m1 h1 hm1 => ?_
  refine (ends_objectFor_of_live h1.ready (hm1 ▸ hs)).bind fun object m2 h2 hobject => ?_
  obtain ⟨⟨name, rfl⟩, hs2⟩ := hobject
  refine (ends_frameName_of_live h2.ready hs2).bind fun label m3 h3 _ => ?_
  have hready : m3.Ready (0 + (Value.object scope name).claims) r := by
    rw [zero_add]
    exact h3.ready
  have hmem : Claim.frame scope ∈ (Value.object scope name).claims + r :=
    Multiset.mem_add.2 (.inl (Multiset.mem_singleton_self _))
  refine (Ends.unlessFailed hready fun hlent => ends_makeTable interfaces hlent
    (.held hmem)).bind fun table m4 h4 htable => ?_
  -- the adapter takes over the claim on the frame
  have hclaims : ((Contents.adapter { scope, label, interfaces, table }).claims : Multiset Claim)
      + 0 = 0 + (Value.object scope name).claims := add_comm _ _
  have hready4 := h4.ready
  rw [← hclaims] at hready4
  refine (ends_alloc hready4 ?_).bind fun n m5 h5 _ => .pure h5.ready trivial
  rintro _ ⟨⟩
  exact ⟨htable.1 label, htable.2⟩

theorem ends_makeAdapter (names : List String) (h : m.Ready 0 r) (hs : m.store.Pinned r scope) :
    Owns r Value.claims m (makeAdapter scope names) :=
  ends_makeAdapter_of_live names h (h.live_settle hs)

/-! ## Coercion -/

omit [Holding] [Trust] in
theorem claims_of_operand? {p : Primitive} (h : v.operand? = some p) : v.claims = 0 := by
  cases v with
  | primitive q => rfl
  | _ => simp [Value.operand?] at h

omit [Holding] [Trust] in
theorem claims_of_nothing (h : v.isVoid ∨ v.isNull) : v.claims = 0 := by
  cases v with
  | primitive p => rfl
  | _ => simp [Value.isVoid, Value.isNull] at h

/-- What a value may become: one that owns as much, or an adapter of a scripted object. -/
def OfValue (v : Value) : Fitted → Prop
  | .value w => w.claims = v.claims
  | .adapter scope => ∃ name, v = .object scope name

omit [Holding] [Trust] in
theorem ofValue_fit {type : ValueType} {occasion : Occasion} {found : Fitted}
    (h : m.fit type v occasion = .ok found) : OfValue v found := by
  unfold Machine.fit at h
  split at h
  · cases h
  · split at h
    · split at h
      · cases h
      · rename_i hp
        -- what becomes of a primitive is a primitive
        have hv := claims_of_operand? hp
        split at h <;> split at h <;> cases h <;> exact hv.symm
    · split at h <;> cases h <;> rfl
    · cases h
      rfl
    · split at h
      · cases h
        rfl
      · split at h
        · split at h <;> cases h
          exact ⟨_, rfl⟩
        · cases h
          rfl
      · split at h <;> cases h
        rfl
      · split at h <;> cases h
        rfl
      · split at h <;> cases h
        rfl
    · split at h
      · cases h
        rfl
      · split at h <;> cases h
        rfl
      · cases h

theorem ends_coerce (type : ValueType) (occasion : Occasion) (h : m.Ready v.claims r) :
    Owns r Value.claims m (coerce type v occasion) := by
  refine Ends.get ?_
  cases hfit : m.fit type v occasion with
  | error cause => exact ends_refuse h cause
  | ok found =>
    cases found with
    | value w =>
      rw [← ofValue_fit hfit] at h
      exact .pure h trivial
    | adapter scope =>
      obtain ⟨name, rfl⟩ := ofValue_fit hfit
      refine Ends.holding h fun hlent => ends_makeAdapter _ hlent (.held ?_)
      exact Multiset.mem_add.2 (.inl (Multiset.mem_singleton_self _))

theorem ends_cast (type : ValueType) (h : m.Ready v.claims r) : Owns r Value.claims m (cast type v) := by
  cases type with
  | primitive kind =>
    unfold cast
    cases hp : v.operand?.filter fun p => !p.isVoid with
    | none => exact ends_refuse h _
    | some p =>
      rw [claims_of_operand? (Option.filter_eq_some_iff.1 hp).1] at h
      dsimp only
      cases p.cast kind with
      | ok q => exact .pure h trivial
      | error e => exact .fault h _
  | _ => exact ends_coerce _ .storing h

/-- Converted copies own as much as the arguments; those are left to their owner. -/
theorem ends_coerceFrom (types : List ValueType) : ∀ {m : Machine} {done args : List Value},
    m.Ready (claimsOf done) r → (∀ k ∈ claimsOf args, k ∈ r) →
    Owns r claimsOf m (coerceFrom done types args) := by
  induction types with
  | nil =>
    intro m done args h _
    unfold coerceFrom
    exact .pure (by rwa [claimsOf_reverse]) trivial
  | cons type rest ih =>
    intro m done args h hargs
    cases args with
    | nil => exact .pure (by rwa [claimsOf_reverse]) trivial
    | cons arg args =>
      simp only [claimsOf_cons, Multiset.mem_add] at hargs
      have hheld : ∀ k ∈ arg.claims, m.store.Holds k := fun k hk => h.holds (hargs k (.inl hk))
      -- each argument is copied first; the copies made so far are dropped if one does not fit
      refine (ends_copy h hheld).bind fun w m1 h1 hw => ?_
      subst hw
      have hready : m1.Ready (w.claims + claimsOf done.reverse) r := by
        rw [claimsOf_reverse]
        exact h1.ready
      refine (Ends.orDropAll hready fun hlent => ends_coerce type .passing hlent).bind fun v m2 h2 _ => ?_
      refine ih ?_ fun k hk => hargs k (.inr hk)
      have := h2.ready
      rwa [claimsOf_reverse] at this

theorem ends_coerceArgs (types : List ValueType) (h : m.Ready 0 r) (hargs : ∀ k ∈ claimsOf args, k ∈ r) :
    Owns r claimsOf m (coerceArgs types args) :=
  ends_coerceFrom types h hargs

/-! ## Selection of methods -/

/-- The parameter types of methods are looked up in the frames that the methods are closed over. -/
theorem ends_signatures (methods : List ScriptMethod) : ∀ {m : Machine}, m.Ready 0 r →
    (∀ method ∈ methods, m.store.Pinned r method.declaring) →
    Owns r (fun _ => 0) m (methods.mapM (fun m => (do
      return (← resolveParams m.declaring m.params).map fun type => type.getD .object :
        Exec (List ValueType)))) := by
  induction methods with
  | nil => exact fun h _ => .pure h trivial
  | cons method rest ih =>
    intro m h hms
    rw [List.mapM_cons]
    have hone : Owns r (fun _ => 0) m (do
        return (← resolveParams method.declaring method.params).map fun type =>
          type.getD .object : Exec (List ValueType)) :=
      (ends_resolveParams method.params h (hms method List.mem_cons_self)).bind
        fun types m1 h1 _ => .pure h1.ready trivial
    refine hone.bind fun signature m1 h1 _ => ?_
    exact (ih h1.ready fun method hm => h1.pinned (hms method (List.mem_cons_of_mem _ hm))).bind
      fun signatures m2 h2 _ => .pure h2.ready trivial

theorem ends_selectLevel {level : List ScriptMethod} (args : List Value) (h : m.Ready 0 r)
    (hlevel : ∀ method ∈ level, m.store.Pinned r method.declaring) :
    Ends r (fun _ => 0) m (fun found _ => ∀ method, found = some method → method ∈ level)
      (selectLevel level args) := by
  have hmethods : ∀ method ∈ level.filter (fun m => m.arity == args.length),
      m.store.Pinned r method.declaring :=
    fun method hm => hlevel method (List.mem_filter.1 hm).1
  refine (ends_signatures _ h hmethods).bind fun signatures m1 h1 _ => Ends.get ?_
  cases m1.select signatures args with
  | error tied => exact .fault h1.ready _
  | ok found =>
    cases found with
    | none => exact .pure h1.ready fun _ hm => nomatch hm
    | some i =>
      exact .pure h1.ready fun method hm => (List.mem_filter.1 (List.mem_of_getElem? hm)).1

theorem ends_selectScripted (args : List Value) (levels : List (List ScriptMethod)) :
    ∀ {m : Machine}, m.Ready 0 r →
      (∀ level ∈ levels, ∀ method ∈ level, m.store.Pinned r method.declaring) →
      Ends r (fun _ => 0) m (fun found _ => ∀ method, found = some method →
        ∃ level ∈ levels, method ∈ level) (selectScripted args levels) := by
  induction levels with
  | nil => exact fun h _ => .pure h fun _ hm => nomatch hm
  | cons level outer ih =>
    intro m h hlevels
    refine (ends_selectLevel args h (hlevels level List.mem_cons_self)).bind fun found m1 h1 hfound => ?_
    cases found with
    | some method => exact .pure h1.ready fun _ hm => ⟨level, List.mem_cons_self, hfound _ hm⟩
    | none =>
      refine (ih h1.ready fun level hl method hm => h1.pinned
        (hlevels level (List.mem_cons_of_mem _ hl) method hm)).imp fun found m2 _ hf method hm => ?_
      obtain ⟨level, hl, hmem⟩ := hf method hm
      exact ⟨level, List.mem_cons_of_mem _ hl, hmem⟩

/-- The scripted method that a call from a frame runs is closed over a frame above it. -/
theorem ends_resolveMethod (name : String) (args : List Value) (h : m.Ready 0 r)
    (hs : m.store.Pinned r scope) : Ends r (fun _ => 0) m (fun found m' => ∀ method,
      found = some method → m'.store.arena.Above scope method.declaring)
      (resolveMethod scope name args) := by
  have hlook : Ends r (fun _ => 0) m (fun levels m' => ∀ level ∈ levels, ∀ method ∈ level,
      m'.store.arena.Above scope method.declaring) (look fun arena => arena.overloads scope name) :=
    ends_look h fun m' hl _ _ => hl.ready.overloads (hl.pinned hs) name
  refine hlook.bind fun levels m1 h1 hlevels => ?_
  -- resolving types may settle the store again: pinned frames stay through that
  have hs1 := h1.pinned hs
  refine (ends_selectScripted args levels h1.ready fun level hl method hm =>
    hs1.above (hlevels level hl method hm)).imp fun found m2 h2 hfound method hm => ?_
  obtain ⟨level, hl, hmem⟩ := hfound method hm
  exact h2.above hs1 (hlevels level hl method hmem)

theorem ends_methodByArity? (h : m.Ready o r) (hs : m.store.Pinned r scope) (name : String)
    (arity : Nat) : Ends r (fun _ => o) m (fun found m' => ∀ method, found = some method →
      m'.store.arena.Above scope method.declaring)
      (look fun arena => arena.methodByArity? scope name arity) :=
  ends_look h fun _ hl _ _ => hl.ready.methodByArity? (hl.pinned hs) name arity

/-- Selecting a host method changes nothing. -/
theorem ends_selectHost (methods : List HostMethod) (args : List Value) (h : m.Ready 0 r) :
    Ends r (fun _ => 0) m (fun found m' => m' = m ∧ ∀ method, found = some method →
      method ∈ methods) (selectHost methods args) := by
  refine Ends.get ?_
  cases m.select (methods.map HostMethod.params) args with
  | error tied => exact .fault h _
  | ok found =>
    cases found with
    | none => exact .pure h ⟨rfl, fun _ hm => nomatch hm⟩
    | some i => exact .pure h ⟨rfl, fun method hm => List.mem_of_getElem? hm⟩

end Exec

end HostScript
