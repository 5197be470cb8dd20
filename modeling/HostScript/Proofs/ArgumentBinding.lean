import HostScript.Proofs.ArgumentFit
import HostScript.Proofs.SafeSessions

/-!
# Arguments of selected methods

Arguments that have selected a method can be bound to its parameters. For a scripted method the parameter
types are looked up again when the call is entered. Selection ends where nothing waits to be released, and
there looking up types changes nothing (`Unmoved`), so they come out as before. The call then fails only if
its body does, which is said with an evaluator that always fails in one given way.
-/

set_option autoImplicit false

namespace HostScript

/-- The arguments reach the parameters, each in some phase. -/
def Machine.Admits (m : Machine) (types : List ValueType) (args : List Value) : Prop :=
  List.Forall₂ (fun t v => ∃ p, m.phase? v t = some p) types args

namespace Machine

variable {m m' : Machine} {o o' r : Multiset Claim} {types : List ValueType} {args : List Value}

theorem Applicable.admits {phase : Phase} (h : m.Applicable phase args types) : m.Admits types args :=
  List.Forall₂.imp (fun _ _ ⟨p, hp, _⟩ => ⟨p, hp⟩) h

/-- Arguments that somebody keeps are admitted as before. -/
theorem Admits.after (h : m.Admits types args) (hclasses : m'.classes = m.classes)
    (hcells : m.store.SameCells m'.store)
    (hargs : ∀ k ∈ claimsOf args, m.store.Holds k ∧ m'.store.Holds k) : m'.Admits types args := by
  induction h with
  | nil => exact .nil
  | @cons t v types args hp _ ih =>
    simp only [claimsOf_cons, Multiset.mem_add] at hargs
    obtain ⟨p, hp⟩ := hp
    refine .cons ⟨p, ?_⟩ (ih fun k hk => hargs k (.inr hk))
    rw [phase?_after hclasses hcells (fun k hk => hargs k (.inl hk)) t, hp]

end Machine

/-- The types that the parameters of a method mean now, any object where none is written. -/
def Machine.Resolves (m : Machine) (method : ScriptMethod) (types : List ValueType) : Prop :=
  ∃ found, Exec.resolveParams method.declaring method.params m = .ok found m ∧
    types = found.map fun type => type.getD .object

namespace Exec

open Machine

variable {α β : Type} {m m' : Machine} {o r : Multiset Claim} {f : Failure} {x : Exec α}
  {args : List Value} {scope : ScopeId} {name : String} {method : HostMethod}
  {methods : List HostMethod}

/-! ## Converting arguments -/

theorem gentle_copy (v : Value) : Gentle f m (fun w => w = v) (copy v) :=
  ⟨m.sameCells_retain v, rfl⟩

theorem gentle_coerceFrom [Trust] (types : List ValueType) : ∀ {m : Machine} {done args : List Value},
    m.classes.Packaged → m.Ready (claimsOf done) r → (∀ k ∈ claimsOf args, k ∈ r) →
      m.Admits types args → Gentle f m (fun _ => True) (coerceFrom done types args) := by
  induction types with
  | nil =>
    intro m done args _ _ _ _
    unfold coerceFrom
    exact .pure trivial
  | cons t types ih =>
    intro m done args packaged h hargs hadmits
    cases hadmits with
    | @cons _ arg _ args hp hadmits =>
      simp only [claimsOf_cons, Multiset.mem_add] at hargs
      have hheld : ∀ k ∈ arg.claims, m.store.Holds k := fun k hk => h.holds (hargs k (.inl hk))
      refine (gentle_copy arg).bind fun w m1 hcopy hw => ?_
      subst hw
      have h1 := ((ends_copy h hheld).ok hcopy).1
      have hcells1 := (gentle_copy (f := f) w).sameCells hcopy
      -- the copy reaches the parameter as the argument does
      obtain ⟨p, hp⟩ := hp
      rw [← phase?_after h1.alike.classes hcells1
        (fun k hk => ⟨hheld k hk, h1.ready.holds (hargs k (.inl hk))⟩) t] at hp
      have hgentle : Gentle f m1 (fun _ => True)
          (onFailure (coerce t w .passing) (·.dropAll done.reverse)) :=
        (gentle_coerce (h1.alike.classes ▸ packaged) hp).onFailure _
      refine hgentle.bind fun v m2 hcoerce _ => ?_
      have hready : m1.Ready (w.claims + claimsOf done.reverse) r := by
        rw [claimsOf_reverse]
        exact h1.ready
      have h2 := ((Ends.orDropAll hready fun hlent =>
        ends_coerce t .passing hlent).ok hcoerce).1
      have hready2 : m2.Ready (claimsOf (v :: done)) r := by
        have := h2.ready
        rwa [claimsOf_reverse] at this
      have hclasses := h2.alike.classes.trans h1.alike.classes
      refine ih (hclasses ▸ packaged) hready2 (fun k hk => hargs k (.inr hk)) ?_
      exact Admits.after hadmits hclasses (hcells1.trans (hgentle.sameCells hcoerce)) fun k hk =>
        ⟨h.holds (hargs k (.inr hk)), h2.ready.holds (hargs k (.inr hk))⟩

/-- Parameters are bound one after the other; an open one takes its argument as it is. -/
theorem gentle_bindParams [Trust] {id : ScopeId} (params : List (Param × Option ValueType)) :
    ∀ {m : Machine} {args : List Value}, m.classes.Packaged → m.Ready (claimsOf args) r →
      m.store.Pinned r id → m.Admits (params.map fun p => p.2.getD .object) args →
      Gentle f m (fun _ => True) (bindParams id params args) := by
  induction params with
  | nil =>
    intro m args _ _ _ _
    exact .pure trivial
  | cons param params ih =>
    intro m args packaged h hid hadmits
    obtain ⟨p, type⟩ := param
    cases hadmits with
    | @cons _ arg _ args hp hadmits =>
      rw [claimsOf_cons] at h
      -- once the first argument is bound, the others are owned and admitted as before
      have hnext (first : Exec Unit) (hgentle : Gentle f m (fun _ => True) first)
          (hends : Owns r (fun _ => 0 + claimsOf args) m first) :
          Gentle f m (fun _ => True) (first >>= fun _ => bindParams id params args) := by
        refine hgentle.bind fun _ m1 hfirst _ => ?_
        have h1 := (hends.ok hfirst).1
        have hready := h1.ready
        rw [zero_add] at hready
        refine ih (h1.alike.classes ▸ packaged) hready (h1.pinned hid) ?_
        exact Admits.after hadmits h1.alike.classes (hgentle.sameCells hfirst) fun k hk =>
          ⟨h.holds_owned (Multiset.mem_add.2 (.inr hk)), hready.holds_owned hk⟩
      obtain ⟨q, hp⟩ := hp
      cases type with
      | none =>
        exact hnext _ ((gentle_define _ _ _ _).onFailure _)
          (Ends.orDropAll h fun hlent => ends_defineLast hlent hid.lend)
      | some t =>
        refine hnext _ ?_ (Ends.orDropAll h fun hlent =>
          (ends_coerce t .passing hlent).bind fun v m1 h1 _ =>
            ends_defineLast h1.ready (h1.pinned hid.lend))
        exact ((gentle_coerce packaged hp).bind fun _ _ _ _ =>
          gentle_define _ _ _ _).onFailure _

/-! ## Looking up types changes nothing -/

/-- A computation that leaves the machine as it is. -/
structure Unmoved (m : Machine) (x : Exec α) : Prop where
  same : ∀ a m', x m = .ok a m' → m' = m

theorem Unmoved.pure (a : α) : Unmoved m (Pure.pure a : Exec α) := by
  constructor
  intro b m' h
  cases h
  rfl

theorem Unmoved.get {g : Machine → Exec α} (hg : Unmoved m (g m)) : Unmoved m (MonadState.get >>= g) :=
  ⟨hg.same⟩

theorem Unmoved.onFailure (hx : Unmoved m x) (clean : Machine → Machine) :
    Unmoved m (onFailure x clean) := by
  constructor
  intro a m' h
  cases hr : x m with
  | ok b m1 =>
    rw [onFailure_of_ok hr] at h
    cases h
    exact hx.same a m' hr
  | error e m1 =>
    rw [onFailure_of_error hr] at h
    cases h

/-- Where nothing waits to be released, a look-up changes nothing. -/
theorem Looks.unmoved (hx : Looks (fun _ => True) x) (hm : m.store.arena.dropped = []) : Unmoved m x := by
  constructor
  intro a m' h
  have hends := hx m
  rw [h] at hends
  exact hends.eq_self hm

/-! ## Selecting a scripted method -/

/-- The parameter types of a method, as they are looked up now, admit the arguments. -/
def Selected (m : Machine) (args : List Value) (method : ScriptMethod) : Prop :=
  method.arity = args.length ∧ ∃ types, resolveParams method.declaring method.params m = .ok types m
    ∧ m.Admits (types.map fun type => type.getD .object) args

/-- Computations that leave the machine as it is, one after the other. -/
theorem Unmoved.mapM {g : α → Exec β} (hg : ∀ a, Unmoved m (g a)) (l : List α) :
    ∀ {bs : List β} {m' : Machine}, l.mapM g m = .ok bs m' →
      m' = m ∧ List.Forall₂ (fun a b => g a m = .ok b m) l bs := by
  induction l with
  | nil =>
    intro bs m' h
    rw [List.mapM_nil] at h
    cases h
    exact ⟨rfl, .nil⟩
  | cons a l ih =>
    intro bs m' h
    rw [List.mapM_cons] at h
    obtain ⟨b, m1, hb, htail⟩ := ok_of_bind h
    have hm1 := (hg a).same b m1 hb
    subst hm1
    obtain ⟨rest, m2, hrest, hpure⟩ := ok_of_bind htail
    obtain ⟨rfl, hall⟩ := ih hrest
    cases hpure
    exact ⟨rfl, .cons hb hall⟩

theorem getElem?_forall₂ {R : α → β → Prop} {l : List α} {bs : List β} (h : List.Forall₂ R l bs)
    {i : Nat} {a : α} {b : β} (ha : l[i]? = some a) (hb : bs[i]? = some b) : R a b := by
  obtain ⟨hi, rfl⟩ := List.getElem?_eq_some_iff.1 ha
  obtain ⟨hi', rfl⟩ := List.getElem?_eq_some_iff.1 hb
  exact h.get hi hi'

/-- The overload that is selected stands where the parameter types stand that are chosen. -/
theorem chosen_of_selectLevel (hm : m.store.arena.dropped = []) {level : List ScriptMethod}
    {found : Option ScriptMethod} (h : selectLevel level args m = .ok found m') :
    m' = m ∧ ∀ method, found = some method → ∃ signatures i,
      List.Forall₂ m.Resolves (level.filter fun e => e.arity == args.length) signatures ∧
      (level.filter fun e => e.arity == args.length)[i]? = some method ∧
      m.select signatures args = .ok (some i) := by
  obtain ⟨signatures, m1, hsigs, hchoice⟩ := ok_of_bind h
  obtain ⟨rfl, hall⟩ := Unmoved.mapM (fun method : ScriptMethod =>
    (((LooksFrom.resolveParams method.declaring method.params).looks fun _ => trivial).bind
      fun _ => looks_pure _).unmoved hm) _ hsigs
  obtain ⟨_, _, hget, hchosen⟩ := ok_of_bind hchoice
  cases hget
  cases hsel : m1.select signatures args with
  | error tied =>
    rw [hsel] at hchosen
    cases hchosen
  | ok choice =>
    rw [hsel] at hchosen
    cases choice with
    | none =>
      cases hchosen
      exact ⟨rfl, fun _ hm => nomatch hm⟩
    | some i =>
      cases hchosen
      refine ⟨rfl, fun method hmethod => ⟨signatures, i, hall.imp fun e sig he => ?_, hmethod, hsel⟩⟩
      obtain ⟨types, m2, htypes, hsig⟩ := ok_of_bind he
      cases hsig
      exact ⟨types, htypes, rfl⟩

theorem selectLevel_selected (hm : m.store.arena.dropped = []) {level : List ScriptMethod}
    {found : Option ScriptMethod} (h : selectLevel level args m = .ok found m') :
    m' = m ∧ ∀ method, found = some method → Selected m args method := by
  obtain ⟨hm', hchosen⟩ := chosen_of_selectLevel hm h
  refine ⟨hm', fun method hfound => ?_⟩
  obtain ⟨signatures, i, hall, hmethod, hsel⟩ := hchosen method hfound
  obtain ⟨p, sig, -, hi, hbest, -⟩ := best_of_select hsel
  obtain ⟨types, htypes, rfl⟩ := getElem?_forall₂ hall hmethod hi
  have hmem := List.mem_of_getElem? hmethod
  exact ⟨by simpa using (List.mem_filter.1 hmem).2, types, htypes, hbest.applicable.admits⟩

theorem selectScripted_selected (hm : m.store.arena.dropped = []) (levels : List (List ScriptMethod)) :
    ∀ {found : Option ScriptMethod} {m' : Machine}, selectScripted args levels m = .ok found m' →
      m' = m ∧ ∀ method, found = some method → Selected m args method := by
  induction levels with
  | nil =>
    intro found m' h
    cases h
    exact ⟨rfl, fun _ hm => nomatch hm⟩
  | cons level outer ih =>
    intro found m' h
    obtain ⟨first, m1, hfirst, h⟩ := ok_of_bind h
    obtain ⟨rfl, hsel⟩ := selectLevel_selected hm hfirst
    cases first with
    | none => exact ih h
    | some method =>
      cases h
      exact ⟨rfl, hsel⟩

/-- A method that was selected admits the arguments in the machine that selection leaves. -/
theorem resolveMethod_selected [Trust] (h : m.Ready o r) {method : ScriptMethod}
    (hsel : resolveMethod scope name args m = .ok (some method) m') :
    m'.store.arena.dropped = [] ∧ Selected m' args method := by
  obtain ⟨levels, m1, hlook, hsel⟩ := ok_of_bind hsel
  have hm1 : m1 = m.settle := by
    unfold look at hlook
    dsimp only at hlook
    split at hlook
    · cases hlook
      rfl
    · cases hlook
  have hsettled : m1.store.arena.dropped = [] := hm1 ▸ h.settle.2
  obtain ⟨rfl, hall⟩ := selectScripted_selected hsettled levels hsel
  exact ⟨hsettled, hall method rfl⟩

/-! ## Selecting a host method -/

theorem coerce_of_value {t : ValueType} {v w : Value} {occasion : Occasion}
    (h : m.fit t v occasion = .ok (.value w)) : coerce t v occasion m = .ok w m := by
  refine (get_bind m).trans ?_
  rw [h]
  rfl

theorem unmoved_selectHost : Unmoved m (selectHost methods args) := by
  refine Unmoved.get ?_
  cases m.select (methods.map HostMethod.params) args with
  | error tied => exact ⟨fun _ _ h => nomatch h⟩
  | ok choice => cases choice <;> exact .pure _

theorem selectHost_selected (h : selectHost methods args m = .ok (some method) m') :
    m' = m ∧ m.Admits method.params args := by
  obtain ⟨_, _, hget, hchosen⟩ := ok_of_bind h
  cases hget
  cases hsel : m.select (methods.map HostMethod.params) args with
  | error tied =>
    rw [hsel] at hchosen
    cases hchosen
  | ok choice =>
    rw [hsel] at hchosen
    cases choice with
    | none => cases hchosen
    | some i =>
      obtain ⟨p, sig, -, hi, hbest, -⟩ := best_of_select hsel
      injection hchosen with hmethod hm
      rw [List.getElem?_map, hmethod, Option.map_some, Option.some.injEq] at hi
      rw [hi]
      exact ⟨hm.symm, hbest.applicable.admits⟩

/-- The method of a bound object is selected before the object is copied. -/
theorem selectBound_selected {receiver : Value} (bounds : List (Nat × String))
    (h : selectBound name args bounds m = .ok (some (receiver, method)) m') :
    m.Admits method.params args ∧ m.store.SameCells m'.store := by
  induction bounds with
  | nil => cases h
  | cons bound rest ih =>
    obtain ⟨_, _, hget, hclass⟩ := ok_of_bind h
    cases hget
    cases hc : m.classes.load? bound.2 with
    | none =>
      rw [hc] at hclass
      exact ih hclass
    | some c =>
      rw [hc] at hclass
      obtain ⟨found, m1, hfound, hnext⟩ := ok_of_bind hclass
      cases found with
      | none =>
        have hm1 := unmoved_selectHost.same none m1 hfound
        exact ih (hm1 ▸ hnext)
      | some chosen =>
        obtain ⟨rfl, hadmits⟩ := selectHost_selected hfound
        cases hnext
        exact ⟨hadmits, m1.sameCells_retain _⟩

/-! ## Entering a call -/

theorem gentle_scope : Gentle f m (fun id => m.stack.head? = some id) Exec.scope := by
  refine Gentle.get ?_
  cases m.stack with
  | nil => exact ⟨Or.inr id⟩
  | cons id rest => exact .pure rfl

theorem unmoved_scope : Unmoved m Exec.scope := by
  refine Unmoved.get ?_
  cases m.stack with
  | nil => exact ⟨fun _ _ h => nomatch h⟩
  | cons id rest => exact .pure id

theorem gentle_checkDepth {method : String} (hdepth : m.depth < m.config.maxDepth) :
    Gentle f m (fun _ => True) (checkDepth method) := by
  refine Gentle.get ?_
  rw [if_neg (Nat.not_le.2 hdepth)]
  exact .pure trivial

theorem unmoved_checkDepth {method : String} : Unmoved m (checkDepth method) := by
  refine Unmoved.get ?_
  split
  · exact ⟨fun _ _ h => nomatch h⟩
  · exact .pure _

theorem gentle_declare (name : String) (params : List Param) (returns : Option TypeName)
    (body : List Stmt) : Gentle f m (fun _ => True) (declare name params returns body) := by
  refine gentle_scope.bind fun declaring m1 _ _ => ⟨?_⟩
  dsimp only
  split
  · exact ⟨m1.sameCells_settle.trans (Store.sameCells_arena _ _), trivial⟩
  · exact Or.inr id

theorem gentle_hoist (body : List Stmt) : ∀ {m : Machine}, Gentle f m (fun _ => True) (hoist body) := by
  induction body with
  | nil => exact .pure trivial
  | cons s rest ih =>
    intro m
    cases s with
    | method span name params returns body =>
      exact (gentle_declare name params returns body).bind fun _ _ _ _ => ih
    | _ => exact ih

end Exec

namespace Evaluator

open Exec Machine

variable {m m' : Machine} {r : Multiset Claim} {f : Failure} {args : List Value}

/-- An evaluator that fails in one way, whatever it is to evaluate. -/
def failing (f : Failure) : Evaluator := ⟨fun _ => throw f, fun _ => throw f⟩

theorem safe_failing [Trust] (hf : f.Permitted) : (failing f).Safe := by
  have hstep : f.InStep := by
    unfold Failure.InStep
    split
    · exact hf
    · exact hf
    · trivial
  exact ⟨⟨fun _ => balanced_throw hstep, fun _ => balanced_throw hstep⟩,
    fun _ _ _ h => .throw h hf, fun _ _ _ h => .throw h hf, .inl trivial⟩

/-- Statements end without a value unless one of them has to be evaluated. -/
theorem gentle_runFrom_failing (last : Value) (body : List Stmt) :
    Gentle f m (fun flow => flow = .normal last) ((failing f).runFrom last body) := by
  induction body with
  | nil => exact .pure rfl
  | cons s rest ih =>
    unfold runFrom
    split
    · exact .pure rfl
    · rename_i heq
      cases heq
      exact ih
    · have hfails : Gentle f m (fun _ => False) (unlessFailed last ((failing f).stmt s)) := by
        exact ⟨Or.inl rfl⟩
      rename_i heq
      cases heq
      exact hfails.bind fun _ _ _ hno => hno.elim

theorem gentle_runCall_failing {id : ScopeId} (method : ScriptMethod)
    (types : List (Option ValueType)) (hid : m.stack.head? = some id)
    (hbind : Gentle f m (fun _ => True) (bindParams id (method.params.zip types) args)) :
    Gentle f m (fun v => v = .void) ((failing f).runCall method types args) := by
  refine gentle_scope.bind fun frame m1 hframe hhead => ?_
  have hm1 := unmoved_scope.same frame m1 hframe
  subst hm1
  rw [hid, Option.some.injEq] at hhead
  subst hhead
  refine hbind.bind fun _ m2 _ _ => ?_
  have hbody : Gentle f m2 (fun flow => flow = .normal .void) ((failing f).runBody method.body) :=
    (gentle_hoist method.body).bind fun _ _ _ _ => gentle_runFrom_failing .void method.body
  refine hbody.bind fun flow m3 _ hflow => ?_
  subst hflow
  exact (gentle_modify (m3.sameCells_drop .void)).bind fun _ _ _ _ => .pure rfl

/-- A call that was selected gets to its body, if it is not too deep. -/
theorem gentle_invokeScripted_failing [Trust] {method : ScriptMethod} (packaged : m.classes.Packaged)
    (h : m.Ready (claimsOf args) r) (hm : m.store.arena.dropped = [])
    (hd : m.store.Pinned r method.declaring) (hdepth : m.depth < m.config.maxDepth)
    (hsel : Selected m args method) :
    Gentle f m (fun _ => True) ((failing f).invokeScripted method args) := by
  obtain ⟨harity, types, htypes, hadmits⟩ := hsel
  have hlen : types.length = method.params.length := by
    rw [← zero_add (claimsOf args)] at h
    exact ((ends_resolveParams method.params h.lend hd.lend).ok htypes).2
  have hbound : m.Admits ((method.params.zip types).map fun p => p.2.getD .object) args := by
    have hmap : (method.params.zip types).map (fun p => p.2.getD .object)
        = ((method.params.zip types).map Prod.snd).map fun type => type.getD .object := by
      rw [List.map_map]
      rfl
    rw [hmap, List.map_snd_zip hlen.le]
    exact hadmits
  unfold invokeScripted
  rw [if_neg (by simp [harity])]
  have hparams : Gentle f m (fun found => found = types)
      (onFailure (resolveParams method.declaring method.params) (·.dropAll args)) := by
    constructor
    rw [onFailure_of_ok htypes]
    exact ⟨.refl _, rfl⟩
  refine hparams.bind fun found m1 hfound heq => ?_
  rw [onFailure_of_ok htypes] at hfound
  cases hfound
  refine (((LooksFrom.resolveType? method.declaring method.returns).looks fun _ => id).gentle.onFailure _).bind
    fun returns m2 hreturns _ => ?_
  have hlooks := LooksFrom.resolveType? method.declaring method.returns
  have hm2 := (((hlooks.looks fun _ => trivial).unmoved hm).onFailure _).same _ _ hreturns
  subst hm2
  have hdeep : Gentle f m2 (fun _ => True) (onFailure (checkDepth method.name) (·.dropAll args)) :=
    (gentle_checkDepth hdepth).onFailure _
  refine hdeep.bind fun _ m3 hchecked _ => ?_
  have hm3 := (unmoved_checkDepth.onFailure _).same _ _ hchecked
  subst hm3
  have hcall : Gentle f m3 (fun v => v = .void) (oneDeeper <| inFrame method.name .call
      method.declaring ((failing f).runCall method types args) fun v m => m.drop v) := by
    refine (gentle_modify (.refl m3.store)).bind fun _ m4 hdeeper _ => ?_
    cases hdeeper
    refine (Gentle.inFrame fun id m4 hmake => ?_).afterwards fun _ => .refl _
    -- the new frame is pinned by the claim of its creator while the arguments are bound
    have hmade := (ends_makeFrame trivial (h.atDepth (m3.depth + 1)) fun p hp =>
      Option.some.inj hp ▸ hd).ok hmake
    have hinside := hmade.1.ready.inside
    have hclasses : m4.classes = m3.classes := hmade.1.alike.classes
    refine gentle_runCall_failing method types rfl (gentle_bindParams _ (hclasses ▸ packaged)
      hinside (.held (Multiset.mem_add.2 (.inl (Multiset.mem_singleton_self _)))) ?_)
    have hcells : m3.store.SameCells m4.store :=
      Gentle.sameCells (m := { m3 with depth := m3.depth + 1 }) (gentle_makeFrame (f := f) _ _ _) hmake
    exact Admits.after hbound hclasses hcells fun k hk =>
      ⟨h.holds_owned hk, hinside.holds_owned hk⟩
  refine hcall.bind fun value m4 _ hvoid => ?_
  subst hvoid
  cases returns with
  | none => exact .pure trivial
  | some type =>
    cases type with
    | primitive kind => cases kind <;> exact .pure trivial
    | _ => exact .pure trivial

end Evaluator

open Exec in
/-- **What was selected can be bound.** An argument that reaches a parameter is converted to it; a
scripted object has to be owned for that. Arguments that have selected a host method, or a method of a
bound object, are all converted. A call of a scripted method that was selected fails only where its
body does, unless too many calls are in flight. -/
theorem selected_arguments_bind (m : Machine) (r : Multiset Claim) (packaged : m.classes.Packaged) :
    (∀ v t p, m.phase? v t = some p → (∀ scope label, v = .object scope label → m.Standing v.claims r) →
      ∃ w m', coerce t v .passing m = .ok w m')
    ∧ (∀ methods args method m', m.Standing 0 r → (∀ k ∈ claimsOf args, k ∈ r) →
      selectHost methods args m = .ok (some method) m' →
      ∃ vs m'', coerceArgs method.params args m' = .ok vs m'')
    ∧ (∀ name args bounds receiver method m', m.Standing 0 r → (∀ k ∈ claimsOf args, k ∈ r) →
      (∀ b ∈ bounds, m.store.Holds (.cell b.1)) →
      selectBound name args bounds m = .ok (some (receiver, method)) m' →
      ∃ vs m'', coerceArgs method.params args m' = .ok vs m'')
    ∧ ∀ scope name args method m', m.Standing (claimsOf args) r → m.store.Pinned r scope →
      m.depth < m.config.maxDepth →
      resolveMethod scope name args m = .ok (some method) m' →
      ∀ f : Failure, f.Permitted →
        (∃ v m'', (Evaluator.failing f).invokeScripted method args m' = .ok v m'')
        ∨ ∃ m'', (Evaluator.failing f).invokeScripted method args m' = .error f m'' := by
  -- no host code runs, so that nothing is asked of the classes
  let _ : Trust := trustAny
  refine ⟨?_, ?_, ?_, ?_⟩
  · intro v t p hp hown
    rcases Machine.fit_of_phase hp with ⟨w, hfit⟩ | ⟨scope, label, _, _, rfl, _⟩
    · exact ⟨w, m, coerce_of_value hfit⟩
    · exact Gentle.succeeds (fun f => gentle_coerce packaged hp)
        (ends_coerce t .passing (hown scope label rfl).ready)
  · intro methods args method m' hstanding hargs hsel
    have h := hstanding.ready
    obtain ⟨rfl, hadmits⟩ := selectHost_selected hsel
    have hready : m'.Ready (claimsOf []) r := h
    exact Gentle.succeeds (fun f => gentle_coerceFrom _ packaged hready hargs hadmits)
      (ends_coerceArgs method.params h hargs)
  · intro name args bounds receiver method m' hstanding hargs hbounds hsel
    have h := hstanding.ready
    obtain ⟨hadmits, hcells⟩ := selectBound_selected bounds hsel
    have hl := ((ends_selectBound name args bounds h hbounds).ok hsel).1
    -- the copy of the object is kept beside the arguments while they are converted
    have hready : m'.Ready 0 (receiver.claims + r) := by
      have := hl.ready
      rw [Option.elim_some, ← zero_add (Value.claims _)] at this
      exact this.lend
    have hargs' : ∀ k ∈ claimsOf args, k ∈ receiver.claims + r :=
      fun k hk => Multiset.mem_add.2 (.inr (hargs k hk))
    have hadmits' : m'.Admits method.params args :=
      hadmits.after hl.alike.classes hcells fun k hk =>
        ⟨h.holds (hargs k hk), hready.holds (hargs' k hk)⟩
    have hnone : m'.Ready (claimsOf []) (receiver.claims + r) := hready
    exact Gentle.succeeds (fun f => gentle_coerceFrom _ (hl.alike.classes ▸ packaged) hnone hargs'
      hadmits') (ends_coerceArgs method.params hready hargs')
  · intro scope name args method m' hstanding hs hdepth hsel f hf
    have h := hstanding.ready
    obtain ⟨hsettled, hselected⟩ := resolveMethod_selected h hsel
    have hlent : m.Ready 0 (claimsOf args + r) := by
      rw [← zero_add (claimsOf args)] at h
      exact h.lend
    obtain ⟨hleaves, habove⟩ := (ends_resolveMethod name args hlent hs.lend).ok hsel
    have hl := Machine.Leaves.unlend h.kept hleaves
    have hready := hl.ready
    rw [zero_add] at hready
    have hd := (hl.pinned hs).above (habove method rfl)
    have hdepth' : m'.depth < m'.config.maxDepth := by
      rw [hl.alike.depth, hl.alike.config]
      exact hdepth
    exact (Evaluator.gentle_invokeScripted_failing (hl.alike.classes ▸ packaged) hready hsettled hd
      hdepth' hselected).expected
        (Evaluator.ends_invokeScripted (Evaluator.safe_failing hf) method hready hd)

/-- One interface with one method. -/
def listenerClasses : Classes :=
  ({} : Classes).register
    { name := "a.Listener", isInterface := true, methods := [{ name := "run", params := [] }] }

/-- A machine in which somebody owns the object of the global namespace. -/
def listening : Machine :=
  (Session.start {} ⟨fun _ => .unknown⟩ "" [] listenerClasses).machine.retain (.object ⟨0, 0⟩ "global")

theorem honest_listenerClasses (r : Multiset Claim) : listenerClasses.Honest r := by
  apply Classes.Honest.register
  · intro c hc
    simp at hc
  · refine ⟨?_, ?_, ?_⟩
    · simp
    · intro method hm
      rw [List.mem_singleton.1 hm]
      intro body hbody
      cases hbody
    · simp

theorem standing_listening : listening.Standing (Value.object ⟨0, 0⟩ "global").claims Machine.roots := by
  have hgood := Session.good_start {} ⟨fun _ => .unknown⟩ "" [] (honest_listenerClasses _)
  have hready := hgood.ready (Multiset.zero_le _)
  have hholds : ∀ k ∈ (Value.object ⟨0, 0⟩ "global").claims,
      (Session.start {} ⟨fun _ => .unknown⟩ "" [] listenerClasses).machine.store.Holds k := by
    intro k hk
    rw [Multiset.mem_singleton.1 hk]
    exact hready.live hready.kept.global
  have := (hready.retain hholds).ready.standing
  rwa [add_zero, tsub_zero] at this

/-- The object of a namespace becomes an adapter where an interface is wanted. -/
theorem object_becomes_listener :
    listening.classes.Packaged
    ∧ listening.Standing (Value.object ⟨0, 0⟩ "global").claims Machine.roots
    ∧ listening.phase? (.object ⟨0, 0⟩ "global") (.named "a.Listener") = some .widening
    ∧ ∃ w m', Exec.coerce (.named "a.Listener") (.object ⟨0, 0⟩ "global") .passing listening
        = .ok w m' := by
  have packaged : listening.classes.Packaged :=
    Classes.Packaged.of_tables (by decide +kernel) (by decide +kernel)
  have hphase : listening.phase? (.object ⟨0, 0⟩ "global") (.named "a.Listener") = some .widening := by
    decide +kernel
  exact ⟨packaged, standing_listening, hphase, (selected_arguments_bind listening Machine.roots
    packaged).1 _ _ _ hphase fun _ _ _ => standing_listening⟩

end HostScript
