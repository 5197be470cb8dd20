import HostScript.Proofs.Discipline

/-!
# Lookups and conversions keep a discipline

What the evaluator does between two evaluations keeps a discipline: looking up classes, types, methods and
places, converting values, binding arguments to parameters, bringing the table of an adapter up to date,
reading files.
-/

set_option autoImplicit false

namespace HostScript

namespace Machine

variable {m : Machine} {type : ValueType} {value v : Value} {occasion : Occasion}

/-- A value is converted to a primitive or left as it is. -/
theorem fit_value (h : m.fit type value occasion = .ok (.value v)) : v = value ∨ ∃ p, v = .primitive p := by
  unfold fit at h
  split at h
  · exact absurd h (by simp)
  · cases type with
    | primitive kind =>
      dsimp only at h
      repeat' split at h
      all_goals
        simp only [Except.ok.injEq, Fitted.value.injEq, reduceCtorEq] at h
      all_goals exact .inr ⟨_, h.symm⟩
    | _ =>
      dsimp only at h
      repeat' split at h
      all_goals
        simp only [Except.ok.injEq, Fitted.value.injEq, reduceCtorEq] at h
      all_goals exact .inl h.symm

/-- An adapter is made for the frame of a scripted object. -/
theorem fit_adapter {scope : ScopeId} (h : m.fit type value occasion = .ok (.adapter scope)) :
    ∃ name, value = .object scope name := by
  unfold fit at h
  split at h
  · exact absurd h (by simp)
  · cases type with
    | named name =>
      repeat' split at h
      all_goals
        simp only [Except.ok.injEq, Fitted.adapter.injEq, reduceCtorEq] at h
      exact h ▸ ⟨_, rfl⟩
    | _ =>
      dsimp only at h
      repeat' split at h
      all_goals exact absurd h (by simp)

/-- An operator yields a primitive or a text. -/
theorem combine_value {op : BinaryOp} {left right : Value} (h : m.combine op left right = .ok v) :
    (∃ p, v = .primitive p) ∨ ∃ s, v = .text s := by
  unfold combine at h
  dsimp only at h
  repeat' split at h
  all_goals
    simp only [Except.ok.injEq, reduceCtorEq] at h
  all_goals first | exact .inl ⟨_, h.symm⟩ | exact .inr ⟨_, h.symm⟩

/-- An operator fails for its operands, or for a text without end. -/
theorem combine_failure {op : BinaryOp} {left right : Value} {failure : Failure}
    (h : m.combine op left right = .error failure) :
    (∃ cause, failure = .ofFault cause) ∨ failure = .stopped .endless := by
  unfold combine at h
  dsimp only at h
  repeat' split at h
  all_goals
    simp only [Except.error.injEq, reduceCtorEq] at h
  all_goals first | exact .inr h.symm | exact .inl ⟨_, h.symm⟩

end Machine

namespace Discipline

variable {ι : Type} (D : Discipline ι) {b : Bool} {w w' : D.Stage} {α : Type} {f : Frame}
  {value : Value} {a : Adapter} {m : HostMethod}

/-! ## Values -/

theorem admits_primitive (p : Primitive) : D.admits w (.primitive p) :=
  D.simple (fun _ _ h => by cases h) fun _ _ h => by cases h

theorem admits_text (s : String) : D.admits w (.text s) :=
  D.simple (fun _ _ h => by cases h) fun _ _ h => by cases h

theorem admits_host (n : Nat) (name : String) : D.admits w (.host n name) :=
  D.simple (fun _ _ h => by cases h) fun _ _ h => by cases h

theorem admits_class (c : HostClass) : D.admits w c.value :=
  D.simple (fun _ _ h => by cases h) fun _ _ h => by cases h

theorem admits_initial (type : ValueType) : D.admits w type.initial := by
  cases type <;> exact D.admits_primitive _

theorem admits_literal (literal : Literal) : D.admits w (.ofLiteral literal) := by
  cases literal <;> first | exact D.admits_primitive _ | exact D.admits_text _

theorem admitsAll_nil : D.admitsAll w [] := fun _ hv => absurd hv List.not_mem_nil

theorem admitsIf_none : D.admitsIf w none := fun _ hv => by cases hv

variable {D} {v : Value} {vs us : List Value}

theorem admitsAll_cons (hv : D.admits w v) (hvs : D.admitsAll w vs) : D.admitsAll w (v :: vs) :=
  List.forall_mem_cons.2 ⟨hv, hvs⟩

theorem admitsAll_one (hv : D.admits w v) : D.admitsAll w [v] := admitsAll_cons hv D.admitsAll_nil

theorem admitsAll_some (hv : D.admits w v) : D.admitsAll w (some v).toList := admitsAll_one hv

theorem admitsAll_append (hvs : D.admitsAll w vs) (hus : D.admitsAll w us) : D.admitsAll w (vs ++ us) :=
  List.forall_mem_append.2 ⟨hvs, hus⟩

theorem admitsAll_reverse (h : D.admitsAll w vs) : D.admitsAll w vs.reverse :=
  fun v hv => h v (List.mem_reverse.1 hv)

theorem admitsIf_some (hv : D.admits w v) : D.admitsIf w (some v) := fun _ h => Option.some.inj h ▸ hv

theorem monoAll (h : D.later w w') (hvs : D.admitsAll w vs) : D.admitsAll w' vs := fun v hv => D.mono h (hvs v hv)

theorem monoFrame (h : D.later w w') (hf : D.admitsFrame w f) : D.admitsFrame w' f :=
  fun e he => ⟨D.mono h (hf e he).1, (hf e he).2⟩

theorem monoPlace (h : D.later w w') {r : Reference} (hr : D.admitsPlace w r) : D.admitsPlace w' r := by
  rcases r with ⟨scope, name⟩ | ⟨object, c, name⟩ | ⟨c, name⟩ | ⟨cell, type, index⟩ | ⟨object, c, name⟩
  · trivial
  · exact ⟨D.mono h hr.1, hr.2⟩
  · exact hr
  · exact D.mono h hr
  · exact ⟨D.mono h hr.1, hr.2⟩

theorem variable_value (hf : D.admitsFrame w f) {name : String} {x : Variable}
    (hx : f.vars.get? name = some x) : D.admits w x.value :=
  (hf _ (mem_of_lookup hx)).1

/-! ### Members of classes -/

theorem loaded {m : Machine} (hm : D.upheld w m) {name : String} {c : HostClass}
    (hc : m.classes.load? name = some c) : D.admitsClass c := by
  obtain ⟨i, -, hi⟩ := Option.bind_eq_some_iff.1 hc
  exact D.classes hm c (Array.mem_of_getElem? hi)

variable {c : HostClass} (h : D.admitsClass c) {name : String}

include h

theorem field_of? {f : HostField} (hf : c.field? name = some f) : D.admitsField name f := by
  have hname := List.find?_some hf
  exact eq_of_beq hname ▸ h.fields f (List.mem_of_find?_eq_some hf)

/-- The method that reads a property is one of the class. -/
theorem getter_of? (hm : c.getter? name = some m) : D.admitsMethod m := by
  obtain ⟨name, -, hfind⟩ := List.exists_of_findSome?_eq_some hm
  exact h.methods m (List.mem_of_find?_eq_some hfind)

theorem method_of_named {p : HostMethod → Bool} (hm : m ∈ (c.methodsNamed name).filter p) :
    D.admitsMethod m :=
  h.methods m (List.mem_filter.1 (List.mem_filter.1 hm).1).1

omit h

variable (D)

/-! ## Single steps -/

theorem fault {P : D.Stage → α → Prop} (cause : Fault) :
    D.runs b w P fun _ => (Exec.fault cause : Exec α) :=
  D.throw fun _ => ⟨rfl, rfl⟩

theorem drop (v : Value) : D.steps b w fun _ => Exec.drop v := D.modify (tidy_of_ebbing (Machine.ebbing_drop v))

/-- A copy is the value that was copied. -/
theorem copied (hv : D.admits w v) :
    D.runs b w (fun w' u => u = v ∧ D.admits w' v) fun _ => Exec.copy v :=
  (D.modify (tidy_of_ebbing (Machine.ebbing_retain v))).bind fun _ _ hw _ => D.pure ⟨rfl, D.mono hw hv⟩

theorem copy (hv : D.admits w v) : D.yields b w fun _ => Exec.copy v :=
  D.imp (D.copied hv) fun _ _ _ h => h.1 ▸ h.2

theorem copyAll (hvs : D.admitsAll w vs) : D.yieldsAll b w fun _ => Exec.copyAll vs :=
  (D.modify (tidy_of_ebbing (Machine.ebbing_foldl Machine.ebbing_retain vs))).bind fun _ _ hw _ =>
    D.pure (monoAll hw hvs)

theorem textOf (v : Value) : D.steps b w fun _ => Exec.textOf v := by
  refine .get (fun _ _ _ => rfl) fun m _ => ?_
  split
  · exact D.pure trivial
  · exact D.throw fun _ => trivial

theorem lookAt (f : Arena → Except ScopeId α) : D.steps b w fun _ => Exec.look f :=
  D.look fun _ _ _ _ => trivial

theorem frame (id : ScopeId) : D.runs b w D.admitsFrame fun _ => Exec.frame id := by
  refine D.look fun m hm f hf => ?_
  cases hid : m.store.arena.frame? id with
  | none =>
    rw [hid] at hf
    exact absurd hf (by simp)
  | some g =>
    rw [hid] at hf
    exact Except.ok.inj hf ▸ D.frames hm hid

theorem frameName (id : ScopeId) : D.steps b w fun _ => Exec.frameName id :=
  (D.frame id).bind fun _ _ _ _ => D.pure trivial

/-- A variable may be written with a value that suits its type. -/
theorem define (scope : ScopeId) (name : String) {declared : Option ValueType}
    (hv : D.admits w value) (hd : ∀ type, declared = some type → D.suits value type) :
    D.steps b w fun _ => Exec.define scope name value declared := by
  refine (D.changeFrame scope fun g hg => ⟨fun e he => ?_, trivial⟩).unlessFailed value
  rcases Table.mem_put he with rfl | he
  · exact ⟨hv, hd⟩
  · exact hg e he

theorem undefine (scope : ScopeId) (name : String) : D.steps b w fun _ => Exec.undefine scope name :=
  D.changeFrame scope fun _ hg => ⟨fun e he => hg e (List.mem_filter.1 he).1, trivial⟩

/-- Only the scripted objects of frames that may be referred to may be made. -/
theorem objectFor {id : ScopeId} (hid : D.reaches id) : D.yields b w fun _ => Exec.objectFor id :=
  (D.hold id).bind fun _ _ _ _ => (D.frameName id).bind fun _ _ _ _ => D.pure (D.object.2 hid)

/-! ## Class names and coercion -/

/-- The class that a name means is one of the machine's. -/
theorem lookupClass (scope : ScopeId) (name : String) :
    D.runs b w (fun _ found => ∀ c, found = some c → D.admitsClass c) fun _ => Exec.lookupClass scope name := by
  unfold Exec.lookupClass
  split
  · exact .get (fun _ _ _ => rfl) fun m hm => D.pure fun c hc => loaded hm hc
  · refine (D.lookAt _).bind fun _ candidates _ _ => .get (fun _ _ _ => rfl) fun m hm => D.pure fun c hc => ?_
    obtain ⟨candidate, -, hload⟩ := List.exists_of_findSome?_eq_some hc
    exact loaded hm hload

theorem qualify (scope : ScopeId) (type : ValueType) : D.steps b w fun _ => Exec.qualify scope type := by
  induction type with
  | named name =>
    refine (D.lookupClass scope name).bind fun _ found _ _ => ?_
    cases found with
    | none => exact D.pure trivial
    | some c =>
      dsimp only
      split
      · exact D.pure trivial
      · split
        · exact D.pure trivial
        · exact D.pure trivial
  | array element ih => exact ih.bind fun _ _ _ _ => D.pure trivial
  | _ => exact D.pure trivial

theorem resolveType (scope : ScopeId) (type : TypeName) : D.steps b w fun _ => Exec.resolveType scope type :=
  D.qualify scope _

theorem resolveType? (scope : ScopeId) (type : Option TypeName) :
    D.steps b w fun _ => Exec.resolveType? scope type := by
  cases type with
  | none => exact D.pure trivial
  | some type => exact (D.resolveType scope _).bind fun _ _ _ _ => D.pure trivial

theorem resolveParams (scope : ScopeId) (params : List Param) :
    ∀ w, D.steps b w fun _ => Exec.resolveParams scope params := by
  induction params with
  | nil => exact fun w => D.pure trivial
  | cons p rest ih =>
    exact fun w => (D.resolveType? scope _).bind fun w1 _ _ _ => (ih w1).bind fun _ _ _ _ => D.pure trivial

theorem lookupInterfaces (scope : ScopeId) (names : List String) :
    ∀ w, D.steps b w fun _ => Exec.lookupInterfaces scope names := by
  induction names with
  | nil => exact fun w => D.pure trivial
  | cons name rest ih =>
    refine fun w => (D.lookupClass scope name).bind fun w1 found _ _ => ?_
    cases found with
    | none => exact D.fault _
    | some c =>
      dsimp only
      split
      · exact (ih w1).bind fun _ _ _ _ => D.pure trivial
      · exact D.fault _

theorem findHandlers (scope : ScopeId) (methods : List HostMethod) :
    ∀ w found, D.steps b w fun _ => Exec.findHandlers scope found methods := by
  induction methods with
  | nil => exact fun w found => D.pure trivial
  | cons method rest ih =>
    intro w found
    unfold Exec.findHandlers
    dsimp only
    split
    · exact ih w found
    · exact (D.lookAt _).bind fun w1 _ _ _ => ih w1 _

theorem makeTable (scope : ScopeId) (interfaces : List HostClass) :
    D.steps b w fun _ => Exec.makeTable scope interfaces :=
  (D.lookAt _).bind fun w1 _ _ _ => .get (fun _ _ _ => rfl) fun _ _ =>
    (D.findHandlers scope _ w1 []).bind fun _ _ _ _ => D.pure trivial

/-- An adapter may be made for a frame that may be referred to. -/
theorem makeAdapter {scope : ScopeId} (names : List String) (hs : D.reaches scope) :
    D.yields b w fun _ => Exec.makeAdapter scope names :=
  (D.lookupInterfaces scope names w).bind fun _ interfaces _ _ =>
    (D.objectFor hs).bind fun _ object _ _ => (D.frameName scope).bind fun _ _ _ _ =>
      ((D.makeTable scope interfaces).unlessFailed object).bind fun _ _ _ _ =>
        (D.allocAdapter hs).bind fun _ _ _ _ => D.pure (D.admits_host _ _)

/-- **What a coercion yields may be stored** in a place of the type. -/
theorem coercion (type : ValueType) (occasion : Occasion) (hv : D.admits w value) :
    D.runs b w (fun w' v => D.admits w' v ∧ D.suits v type) fun _ => Exec.coerce type value occasion := by
  refine .get (fun _ _ _ => rfl) fun m _ => ?_
  cases hfit : m.fit type value occasion with
  | error cause => exact (D.fault cause).unlessFailed value
  | ok found =>
    cases found with
    | value v =>
      refine D.pure ⟨?_, D.suits_fit hfit⟩
      rcases Machine.fit_value hfit with rfl | ⟨p, rfl⟩
      · exact hv
      · exact D.admits_primitive p
    | adapter scope =>
      obtain ⟨name, rfl⟩ := Machine.fit_adapter hfit
      exact D.imp ((D.makeAdapter _ (D.object.1 hv)).holding _) fun _ v _ hv => ⟨hv, D.suits_adapter hfit⟩

theorem coerce (type : ValueType) (occasion : Occasion) (hv : D.admits w value) :
    D.yields b w fun _ => Exec.coerce type value occasion :=
  D.imp (D.coercion type occasion hv) fun _ _ _ h => h.1

theorem cast (type : ValueType) (hv : D.admits w value) : D.yields b w fun _ => Exec.cast type value := by
  unfold Exec.cast
  split
  · split
    · exact (D.fault _).unlessFailed value
    · split
      · exact D.pure (D.admits_primitive _)
      · exact D.fault _
  · exact D.coerce type .storing hv

theorem coerceFrom (types : List ValueType) : ∀ (w : D.Stage) (done args : List Value), D.admitsAll w done →
    D.admitsAll w args → D.yieldsAll b w fun _ => Exec.coerceFrom done types args := by
  induction types with
  | nil =>
    intro w done args hdone hargs
    unfold Exec.coerceFrom
    exact D.pure (admitsAll_reverse hdone)
  | cons type rest ih =>
    intro w done args hdone hargs
    cases args with
    | nil => exact D.pure (admitsAll_reverse hdone)
    | cons arg args =>
      obtain ⟨harg, hargs⟩ := List.forall_mem_cons.1 hargs
      refine (D.copy harg).bind fun w1 arg h1 harg => ?_
      refine ((D.coerce type .passing harg).orDropAll done.reverse).bind fun w2 v h2 hv => ?_
      have hw := D.trans h1 h2
      exact ih w2 _ args (admitsAll_cons hv (monoAll hw hdone)) (monoAll hw hargs)

theorem coerceArgs (types : List ValueType) {args : List Value} (h : D.admitsAll w args) :
    D.yieldsAll b w fun _ => Exec.coerceArgs types args :=
  D.coerceFrom types w [] args D.admitsAll_nil h

/-! ## Selection of methods -/

theorem selectLevel (level : List ScriptMethod) (args : List Value) :
    D.steps b w fun _ => Exec.selectLevel level args := by
  -- the types of all candidates are resolved before one of them is chosen
  have hparams : ∀ (ms : List ScriptMethod) (w : D.Stage), D.steps b w fun _ => (ms.mapM fun m =>
      return (← Exec.resolveParams m.declaring m.params).map fun type => type.getD .object : Exec _) := by
    intro ms
    induction ms with
    | nil => exact fun w => D.pure trivial
    | cons method rest ih =>
      intro w
      simp only [List.mapM_cons]
      refine D.bind (P := fun _ _ => True) ?_ fun w1 _ _ _ => (ih w1).bind fun _ _ _ _ => D.pure trivial
      exact (D.resolveParams _ _ w).bind fun _ _ _ _ => D.pure trivial
  refine (hparams _ w).bind fun _ signatures _ _ => .get (fun _ _ _ => rfl) fun m _ => ?_
  split
  · exact D.pure trivial
  · exact D.pure trivial
  · exact D.fault _

theorem selectScripted (args : List Value) (levels : List (List ScriptMethod)) :
    ∀ w, D.steps b w fun _ => Exec.selectScripted args levels := by
  induction levels with
  | nil => exact fun w => D.pure trivial
  | cons level outer ih =>
    refine fun w => (D.selectLevel level args).bind fun w1 found _ _ => ?_
    cases found with
    | none => exact ih w1
    | some method => exact D.pure trivial

theorem resolveMethod (scope : ScopeId) (name : String) (args : List Value) :
    D.steps b w fun _ => Exec.resolveMethod scope name args :=
  (D.lookAt _).bind fun w1 levels _ _ => D.selectScripted args levels w1

/-- The host method that is selected is one of the candidates. -/
theorem selectHost (methods : List HostMethod) (args : List Value) :
    D.runs b w (fun _ found => ∀ m, found = some m → m ∈ methods) fun _ => Exec.selectHost methods args := by
  refine .get (fun _ _ _ => rfl) fun m _ => ?_
  split
  · exact D.pure fun method hm => List.mem_of_getElem? hm
  · exact D.pure fun method hm => by cases hm
  · exact D.fault _

/-! ## Methods and parameters -/

/-- An argument is bound as the type of its parameter has it. -/
theorem bindParams (frame : ScopeId) (params : List (Param × Option ValueType)) : ∀ (w : D.Stage)
    (args : List Value), D.admitsAll w args → D.steps b w fun _ => Exec.bindParams frame params args := by
  induction params with
  | nil =>
    intro w args _
    exact D.pure trivial
  | cons param rest ih =>
    intro w args hargs
    obtain ⟨p, type⟩ := param
    cases args with
    | nil => exact D.pure trivial
    | cons arg args =>
      obtain ⟨harg, hargs⟩ := List.forall_mem_cons.1 hargs
      refine D.bind (P := fun _ _ => True) (.orDropAll ?_ args) fun w1 _ h1 _ => ih w1 args (monoAll h1 hargs)
      cases type with
      | none => exact D.define frame _ harg fun t ht => by cases ht
      | some t =>
        refine (D.coercion t .passing harg).bind fun _ v _ hv => ?_
        exact D.define frame _ hv.1 fun t' ht => Option.some.inj ht ▸ hv.2

/-! ## Handlers of adapters -/

theorem handlerFor (cell : Nat) (method : String) (arity : Nat) (ha : D.reaches a.scope) :
    D.steps b w fun _ => Exec.handlerFor cell a method arity := by
  have hrefreshed : D.steps b w fun _ => Exec.refreshed cell a := by
    refine (D.lookAt _).bind fun _ asOf _ _ => ?_
    split
    · exact D.pure trivial
    · exact (D.makeTable _ _).bind fun _ table _ _ =>
        (D.setAdapter (a := { a with table }) ha).bind fun _ _ _ _ => D.pure trivial
  refine hrefreshed.bind fun _ a _ _ => ?_
  split
  · exact D.pure trivial
  · exact D.lookAt _

theorem admits_identity (cell : Nat) (a : Adapter) (args : List Value) (call : Identity) :
    D.admits w (Exec.identityValue cell a args call) := by
  cases call with
  | toText => exact D.admits_text _
  | hashCode => exact D.admits_primitive _
  | equals =>
    unfold Exec.identityValue
    dsimp only
    split <;> exact D.admits_primitive _

theorem identityCall (cell : Nat) (name : String) (args : List Value) (ha : D.reaches a.scope) :
    D.yieldsIf b w fun _ => Exec.identityCall cell a name args := by
  refine (D.handlerFor cell name _ ha).bind fun _ handler _ _ => ?_
  split
  · exact D.pure (admitsIf_some (D.admits_identity cell a args _))
  · exact D.pure D.admitsIf_none

/-! ## References -/

/-- Computations whose reference goes where it may, if there is one. -/
abbrev refersIf (b : Bool) (w : D.Stage) (x : ι → Exec (Option Reference)) : Prop :=
  D.runs b w (fun w' found => ∀ r, found = some r → D.admitsPlace w' r) x

theorem boundTarget (name : String) (bound : Nat × String) :
    D.refersIf b w fun _ => Exec.boundTarget name bound := by
  refine .get (fun _ _ _ => rfl) fun m hm => ?_
  cases hc : m.classes.load? bound.2 with
  | none => exact D.pure fun r hr => by cases hr
  | some c =>
    dsimp only
    split
    · exact D.pure fun r hr => by cases hr
    · exact (D.copy (D.admits_host bound.1 bound.2)).bind fun _ object _ ho =>
        D.pure fun r hr => Option.some.inj hr ▸ ⟨ho, loaded hm hc⟩

theorem placeByFrame (name : String) (frames : List (ScopeId × Frame)) :
    ∀ w, D.refersIf b w fun _ => Exec.placeByFrame name frames := by
  induction frames with
  | nil => exact fun w => D.pure fun r hr => by cases hr
  | cons entry rest ih =>
    intro w
    obtain ⟨id, f⟩ := entry
    unfold Exec.placeByFrame
    split
    · exact D.pure fun r hr => Option.some.inj hr ▸ trivial
    · split
      · exact ih w
      · refine (D.boundTarget name _).bind fun w1 found _ hfound => ?_
        cases found with
        | none => exact ih w1
        | some r => exact D.pure hfound

theorem placeInBound (name : String) (bounds : List (Nat × String)) :
    ∀ w, D.refersIf b w fun _ => Exec.placeInBound name bounds := by
  induction bounds with
  | nil => exact fun w => D.pure fun r hr => by cases hr
  | cons bound rest ih =>
    refine fun w => (D.boundTarget name bound).bind fun w1 found _ hfound => ?_
    cases found with
    | none => exact ih w1
    | some r => exact D.pure hfound

theorem referenceTo (scope : ScopeId) (name : String) : D.refers b w fun _ => Exec.referenceTo scope name := by
  refine (D.lookAt _).bind fun w1 frames _ _ => .get (fun _ _ _ => rfl) fun m _ => ?_
  extract_lets rest
  have hrest : ∀ w' found, D.later w1 w' → (∀ r, found = some r → D.admitsPlace w' r) →
      D.refers b w' fun _ => rest found := by
    intro w' found _ hfound
    cases found with
    | none => exact (D.lookAt _).bind fun _ _ _ _ => D.pure trivial
    | some r => exact D.pure (hfound r rfl)
  split
  · exact (D.placeByFrame name frames w1).bind hrest
  · split
    · refine hrest w1 (some (.variable _ name)) (D.refl w1) fun r hr => ?_
      rw [← Option.some.inj hr]
      trivial
    · exact (D.placeInBound name _ w1).bind hrest

theorem memberReference {object : Value} (member : String) (ho : D.admits w object) :
    D.refers b w fun _ => Exec.memberReference object member := by
  unfold Exec.memberReference
  split
  · exact D.referenceTo _ member
  · refine .get (fun _ _ _ => rfl) fun m hm => ?_
    split
    · exact D.fault _
    · rename_i c hc
      refine (D.copy ho).bind fun _ object _ ho => ?_
      split
      · exact D.pure ⟨ho, loaded hm hc⟩
      · exact D.pure ⟨ho, loaded hm hc⟩
  · refine .get (fun _ _ _ => rfl) fun m hm => ?_
    split
    · rename_i c hc
      exact D.pure (D.classes hm c (Array.mem_of_getElem? hc))
    · exact D.fault _
  · exact D.fault _
  · exact D.fault _

theorem unsetReference (r : Reference) (otherwise : Fault) :
    D.steps b w fun _ => Exec.unsetReference r otherwise := by
  refine D.afterwards ?_ (Machine.ebbing_dropReference r)
  split
  · exact (D.undefine _ _).throughReference.bind fun _ _ _ _ => D.pure trivial
  · exact D.fault _

/-! ## Files and texts -/

theorem resolvePath (path : String) : D.steps b w fun _ => Exec.resolvePath path := by
  unfold Exec.resolvePath
  split
  · exact D.pure trivial
  · exact D.workingDirectory.bind fun _ _ _ _ => D.pure trivial

theorem readFile (path : String) : D.steps b w fun _ => Exec.readFile path := by
  refine (D.entryAt path).bind fun _ entry _ _ => ?_
  split
  · split
    · exact D.pure trivial
    · exact D.throw fun _ => ⟨rfl, rfl⟩
  · exact D.throw fun _ => ⟨rfl, rfl⟩
  · exact D.throw fun _ => ⟨rfl, rfl⟩
  · exact D.throw fun _ => ⟨rfl, rfl⟩

theorem textArgument (command : String) (args : List Value) :
    D.steps b w fun _ => Exec.textArgument command args := by
  unfold Exec.textArgument
  split
  · exact D.pure trivial
  · exact D.fault _
  · exact D.fault _

/-! ## Calls without evaluation -/

theorem selectBound (name : String) (args : List Value) (bounds : List (Nat × String)) : ∀ w,
    D.runs b w (fun w' found => ∀ e, found = some e → D.admits w' e.1 ∧ D.admitsMethod e.2)
      fun _ => Exec.selectBound name args bounds := by
  induction bounds with
  | nil => exact fun w => D.pure fun e he => by cases he
  | cons bound rest ih =>
    refine fun w => .get (fun _ _ _ => rfl) fun m hm => ?_
    cases hc : m.classes.load? bound.2 with
    | none => exact ih w
    | some c =>
      refine (D.selectHost _ args).bind fun w1 found _ hfound => ?_
      cases found with
      | none => exact ih w1
      | some method =>
        have hmethod := method_of_named (loaded hm hc) (hfound method rfl)
        exact (D.copy (D.admits_host bound.1 bound.2)).bind fun _ object _ ho =>
          D.pure fun e he => Option.some.inj he ▸ ⟨ho, hmethod⟩

/-- What a call of a name lands on may be run, and is the command of that name if it is a command. -/
def admitsCallee (name : String) (args : List Value) (w : D.Stage) : Callee → Prop
  | .host receiver method => D.admits w receiver ∧ D.admitsMethod method
  | .command c => Command.of? name args.length = some c
  | _ => True

theorem callee? (scope : ScopeId) (name : String) (args : List Value) :
    D.runs b w (fun w' found => ∀ c, found = some c → D.admitsCallee name args w' c)
      fun _ => Exec.callee? scope name args := by
  refine (D.resolveMethod scope name args).bind fun _ m? _ _ => ?_
  cases m? with
  | some method => exact D.pure fun c hc => Option.some.inj hc ▸ trivial
  | none =>
    refine (D.lookAt _).bind fun w1 frames _ _ => (D.selectBound name args _ w1).bind fun _ b? _ hb => ?_
    cases b? with
    | some b => exact D.pure fun c hc => Option.some.inj hc ▸ hb b rfl
    | none =>
      cases hcommand : Command.of? name args.length with
      | some command => exact D.pure fun c hc => Option.some.inj hc ▸ hcommand
      | none =>
        refine (D.lookAt _).bind fun _ generic _ _ => ?_
        cases generic with
        | none => exact D.pure fun c hc => by cases hc
        | some method => exact D.pure fun c hc => Option.some.inj hc ▸ trivial

theorem combine (op : BinaryOp) (left right : Value) : D.yields b w fun _ => Exec.combine op left right := by
  refine .get (fun _ _ _ => rfl) fun m _ => ?_
  split
  · rename_i v hv
    rcases Machine.combine_value hv with ⟨p, rfl⟩ | ⟨s, rfl⟩
    · exact D.pure (D.admits_primitive p)
    · exact D.pure (D.admits_text s)
  · rename_i hf
    rcases Machine.combine_failure hf with ⟨cause, rfl⟩ | rfl
    · exact D.fault cause
    · exact D.throw fun _ => trivial

theorem combined (op : BinaryOp) (current value : Value) :
    D.yields b w fun _ => Exec.combined op current value := by
  refine (D.combine op current value).bind fun _ result _ hresult => ?_
  split
  · split
    · exact D.pure (D.admits_primitive _)
    · exact D.fault _
  · exact D.pure hresult

/-- Imports leave the variables of a frame alone. -/
theorem importClass (here : ScopeId) (path : String) : D.steps b w fun _ => Exec.importClass here path := by
  refine .get (fun _ _ _ => rfl) fun m _ => ?_
  split
  · exact D.fault _
  · exact D.changeFrame here fun _ hg => ⟨hg, trivial⟩

theorem importPackage (here : ScopeId) (path : String) : D.steps b w fun _ => Exec.importPackage here path := by
  refine D.changeFrame here fun g hg => ?_
  split
  · exact ⟨hg, trivial⟩
  · exact ⟨hg, trivial⟩

end Discipline

end HostScript
