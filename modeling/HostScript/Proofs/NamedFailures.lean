import HostScript.Proofs.HostCalls

/-!
# Failures name what failed

On its way out of an evaluation a failure is given the span and the description of the innermost construct around
it, both at once (`Failure.BlamedOn`). So a failure that leaves an expression names a construct
(`named_evalExpr`). Statements add their own, except where a loop over items converts an item to the declared type
of its variable: this fault alone leaves a statement and a text without a construct (`failures_name_constructs`).
-/

set_option autoImplicit false

namespace HostScript

open Exec

variable {α : Type} {x : Exec α} {f : Failure} {C : Culprit → Prop}

/-! ## What is blamed -/

/-- A place that names no construct, or one of the culprits. -/
inductive Place.Blames (C : Culprit → Prop) : Place → Prop
  | nothing (label : Option String) : Blames C ⟨none, none, label⟩
  | construct {span : Span} {node : String} (h : C (.construct span node)) (label : Option String) :
    Blames C ⟨some node, some span, label⟩

/-- Failures of evaluation that name no construct or one of the culprits. What could not be read is one of them. -/
def Failure.BlamedOn (C : Culprit → Prop) : Failure → Prop
  | .fault _ place | .raised _ _ place => place.Blames C
  | .unread d => ∃ d0 label, C (.text d0) ∧ d = { d0 with label }
  | _ => True

theorem Failure.kind_blamedOn (C : Culprit → Prop) : Failure.Kind C fun _ => Failure.BlamedOn C where
  begun hf := by
    rename_i f
    rcases hf with hf | ⟨d, rfl, hd⟩
    · cases f with
      | fault cause place =>
        obtain ⟨node, span, label⟩ := place
        obtain ⟨rfl, rfl⟩ : span = none ∧ node = none := hf
        exact .nothing label
      | broken | stopped | input => trivial
      | unread | raised => exact absurd hf not_false
    · exact ⟨d, _, hd, rfl⟩
  raised step exception := .nothing none
  running hφ hf := by
    rename_i f
    cases hφ with
    | same => exact hf
    | locate span node hC =>
      cases f with
      | fault cause place | raised _ cause place =>
        cases hf with
        | nothing label => exact .construct hC label
        | construct h label => exact .construct h label
      | unread | broken | input | stopped => exact hf
    | label source =>
      cases f with
      | fault cause place | raised _ cause place =>
        cases hf with
        | nothing label => exact .nothing _
        | construct h label => exact .construct h _
      | unread d =>
        obtain ⟨d0, label, hd, rfl⟩ := hf
        exact ⟨d0, _, hd, rfl⟩
      | broken | input | stopped => trivial
    | dangle =>
      cases f with
      | broken cause => cases cause <;> trivial
      | unread | fault | raised | input | stopped => exact hf

/-! ## Failures that name a construct -/

/-- A failure of a script or of host code that says where it happened: its span and its description are known. -/
def Failure.Named : Failure → Prop
  | .fault _ place | .raised _ _ place => ∃ node span label, place = ⟨some node, some span, label⟩
  | _ => True

/-- Whether a failure of a script or of host code has no span. -/
def Failure.bare : Failure → Bool
  | .fault _ place | .raised _ _ place => place.span.isNone
  | _ => false

theorem Failure.not_named_of_bare (h : f.bare = true) : ¬f.Named := by
  intro hnamed
  cases f with
  | fault cause place | raised _ cause place =>
    obtain ⟨node, span, label, rfl⟩ := hnamed
    cases h
  | unread | broken | input | stopped => cases h

theorem Failure.Named.label (h : f.Named) (source : Option String) : (f.label source).Named := by
  cases f with
  | fault cause place | raised _ cause place =>
    obtain ⟨node, span, label, rfl⟩ := h
    exact ⟨node, span, _, rfl⟩
  | unread | broken | input | stopped => trivial

theorem Failure.blamedOn_ofFault (cause : Fault) : (Failure.ofFault cause).BlamedOn C :=
  Place.Blames.nothing none

/-- Blaming a construct for what names none leaves nothing unnamed. -/
theorem Failure.BlamedOn.named_locate (h : f.BlamedOn C) (span : Span) (node : String) :
    (f.locate span node).Named := by
  cases f with
  | fault cause place | raised _ cause place =>
    cases h with
    | nothing label => exact ⟨node, span, label, rfl⟩
    | construct _ label => exact ⟨_, _, label, rfl⟩
  | unread | broken | input | stopped => trivial

theorem Exec.FailsOnly.locating (hx : x.FailsOnly (Failure.BlamedOn fun _ => True)) (span : Span)
    (node : Unit → String) : (Exec.locating span node x).FailsOnly Failure.Named :=
  hx.mapFailure fun _ hf => hf.named_locate span (node ())

/-- **A failure of an expression names a construct.** -/
theorem named_evalExpr (allowance : Nat) (e : Expr) : (evalExpr allowance e).FailsOnly Failure.Named := by
  cases allowance with
  | zero => exact .throw trivial
  | succ allowance =>
    have hgiven : ∀ {α : Type} {P : α → Prop} {x : Unit → Exec α}, Thrown (· = .stopped .exhausted) α P x →
        FailIn .all (fun _ => Failure.BlamedOn fun _ => True) α P x :=
      Thrown.failIn fun _ f hf => by
        subst hf
        trivial
    have hev := threaded_evaluator (fun _ _ => True) allowance
    have hparts : Evaluator.AllGiven (FailIn .all fun _ => Failure.BlamedOn fun _ => True)
        fun _ : Unit => evaluator allowance :=
      ⟨fun e => (hev.expr e).failIn (Failure.kind_blamedOn _) hgiven,
        fun s => (hev.stmt s).failIn (Failure.kind_blamedOn _) hgiven, fun P => hgiven ⟨_, rfl, rfl⟩⟩
    have hform := (hparts.exprForm e).failIn (Failure.kind_blamedOn _) fun h => h
    exact FailsOnly.locating (hform.failsOnly ()) e.span fun _ => e.describe

/-! ## Statements -/

/-- The fault that an item cannot be converted to a written type. -/
def Fault.OfItem (type : TypeName) (cause : Fault) : Prop :=
  ∃ (here : ScopeId) (t : ValueType) (item : Value) (m m1 m2 m3 : Machine),
    resolveType here type m = .ok t m1 ∧ coerce t item .storing m2 = .error (.ofFault cause) m3

/-- A loop over items with a variable of a type stands in a statement, and not in a method that it declares. -/
inductive Stmt.LoopsOver (type : TypeName) : Stmt → Prop
  | here (span : Span) (binding : String) (iterable : Expr) (body : Stmt) :
    LoopsOver type (.forEach span (some type) binding iterable body)
  | forEach (span : Span) (declared : Option TypeName) (binding : String) (iterable : Expr) {body : Stmt}
    (h : LoopsOver type body) : LoopsOver type (.forEach span declared binding iterable body)
  | block (span : Span) {body : List Stmt} {s : Stmt} (hs : s ∈ body) (h : LoopsOver type s) :
    LoopsOver type (.block span body)
  | yes (span : Span) (c : Expr) {s : Stmt} (no : Option Stmt) (h : LoopsOver type s) :
    LoopsOver type (.ifElse span c s no)
  | no (span : Span) (c : Expr) (yes : Stmt) {s : Stmt} (h : LoopsOver type s) :
    LoopsOver type (.ifElse span c yes (some s))
  | whileLoop (span : Span) (c : Expr) {body : Stmt} (h : LoopsOver type body) :
    LoopsOver type (.whileLoop span c body)
  | doWhile (span : Span) {body : Stmt} (c : Expr) (h : LoopsOver type body) :
    LoopsOver type (.doWhile span body c)
  | init (span : Span) {init : List Stmt} (c : Option Expr) (update : List Expr) (body : Stmt) {s : Stmt}
    (hs : s ∈ init) (h : LoopsOver type s) : LoopsOver type (.forLoop span init c update body)
  | forLoop (span : Span) (init : List Stmt) (c : Option Expr) (update : List Expr) {body : Stmt}
    (h : LoopsOver type body) : LoopsOver type (.forLoop span init c update body)

/-! ## Steps that fail at most internally -/

theorem Exec.Looks.failsOnly {F : Failure → Prop} (hx : Looks F x) : x.FailsOnly F := by
  intro m e m' h
  have hends := hx m
  rw [h] at hends
  exact hends.2

section Steps

variable {F : Failure → Prop} (hF : ∀ cause, F (.broken cause))

include hF

namespace Exec

theorem failsOnly_scope : scope.FailsOnly F := by
  refine .get fun m => ?_
  cases m.stack with
  | nil => exact .throw (hF _)
  | cons id rest => exact .pure id

theorem failsOnly_changeFrame {α : Type} (id : ScopeId) (f : Frame → Frame × Option Value × α) :
    (changeFrame id f).FailsOnly F := by
  intro m e m' h
  unfold changeFrame at h
  dsimp only at h
  split at h
  · cases h
    exact hF _
  · cases h

theorem failsOnly_define (here : ScopeId) (name : String) (v : Value) (type : Option ValueType) :
    (define here name v type).FailsOnly F := (failsOnly_changeFrame hF _ _).onFailure _

theorem failsOnly_qualify (here : ScopeId) (type : ValueType) : (qualify here type).FailsOnly F :=
  ((LooksFrom.qualify here type).looks fun _ => hF _).failsOnly

theorem failsOnly_declare (name : String) (params : List Param) (returns : Option TypeName) (body : List Stmt) :
    (declare name params returns body).FailsOnly F := by
  refine (failsOnly_scope hF).bind fun declaring m e m' h => ?_
  dsimp only at h
  split at h
  · cases h
  · cases h
    exact hF _

theorem failsOnly_hoist (body : List Stmt) : (hoist body).FailsOnly F := by
  fun_induction hoist body with
  | case1 => exact .pure _
  | case2 span name params returns body rest ih =>
    exact (failsOnly_declare hF name params returns body).bind fun _ => ih
  | case3 s rest _ ih => exact ih

theorem failsOnly_objectFor (id : ScopeId) : (objectFor id).FailsOnly F := by
  refine .bind (fun m e m' h => ?_) fun _ => (looks_frameName (fun _ => hF _) id).failsOnly.bind fun _ => .pure _
  unfold hold at h
  dsimp only at h
  split at h
  · cases h
  · cases h
    exact hF _

/-! ## Conversions -/

variable (hfault : ∀ cause, F (.ofFault cause))

include hfault

theorem failsOnly_makeAdapter (here : ScopeId) (names : List String) : (makeAdapter here names).FailsOnly F := by
  have hstale : ∀ id, F (.broken (.staleFrame id)) := fun _ => hF _
  refine (looks_lookupInterfaces hstale hfault here names).failsOnly.bind fun interfaces => ?_
  refine (failsOnly_objectFor hF here).bind fun _ => (looks_frameName hstale here).failsOnly.bind fun _ => ?_
  exact ((looks_makeTable hstale here interfaces).failsOnly.onFailure _).bind fun _ =>
    .bind (.of_yields fun _ => ⟨_, _, rfl⟩) fun _ => .pure _

/-- A conversion fails with a fault that has no place yet, if not internally. -/
theorem failsOnly_coerce (type : ValueType) (value : Value) (occasion : Occasion) :
    (coerce type value occasion).FailsOnly F := by
  refine .get fun m => ?_
  split
  · exact .pure _
  · exact (failsOnly_makeAdapter hF hfault _ _).afterwards _
  · exact (FailsOnly.throw (hfault _)).onFailure _

end Exec

end Steps

/-! ## Statements -/

section Statements

/-- Failures that name a construct, and faults of items that are converted to one of some types. -/
def Failure.NamedUnless (types : TypeName → Prop) (f : Failure) : Prop :=
  f.Named ∨ ∃ type cause, types type ∧ cause.OfItem type ∧ f = .ofFault cause

variable {types : TypeName → Prop}

theorem Failure.namedUnless_broken (cause : Inconsistency) : (Failure.broken cause).NamedUnless types := .inl trivial

theorem Exec.FailsOnly.unless {α : Type} {x : Exec α} (hx : x.FailsOnly Failure.Named) :
    x.FailsOnly (Failure.NamedUnless types) := hx.imp fun _ h => .inl h

/-- Evaluations that fail with names, apart from the conversions of items in the statement evaluated. -/
structure Evaluator.Names (ev : Evaluator) : Prop where
  expr : ∀ e, (ev.expr e).FailsOnly Failure.Named
  stmt : ∀ s, (ev.stmt s).FailsOnly (Failure.NamedUnless s.LoopsOver)

namespace Evaluator.Names

variable {ev : Evaluator} (hev : ev.Names) {m : Machine} {test : Exec Bool} {body : List Stmt}
  {t : ValueType} {F : Failure → Prop}

include hev

theorem condition (e : Expr) : (ev.condition e).FailsOnly Failure.Named := by
  refine (hev.expr e).bind fun value => .afterwards ?_ _
  cases value.primitive?.bind Primitive.toBool? with
  | some b => exact .pure b
  | none => exact .locating (.throw (Failure.blamedOn_ofFault _)) _ _

theorem effects (es : List Expr) : (ev.effects es).FailsOnly Failure.Named := by
  induction es with
  | nil => exact .pure _
  | cons e rest ih => exact (hev.expr e).bind fun v => .bind (.modify _) fun _ => ih

theorem declareVariables (here : ScopeId) (type : ValueType) (ds : List Declarator) :
    (ev.declareVariables here type ds).FailsOnly Failure.Named := by
  induction ds with
  | nil => exact .pure _
  | cons d rest ih =>
    have hbound : ∀ v : Value, FailsOnly Failure.Named (do
        let v ← Exec.locating d.span (fun _ => s!"declaration of `{d.name}`") (coerce type v .storing)
        define here d.name v (some type)
        ev.declareVariables here type rest) :=
      fun v => .bind (.locating (failsOnly_coerce (fun _ => trivial) Failure.blamedOn_ofFault type v _) _ _)
        fun v => (failsOnly_define (fun _ => trivial) here d.name v _).bind fun _ => ih
    unfold Evaluator.declareVariables
    cases d.initializer with
    | none => exact hbound type.initial
    | some e => exact (hev.expr e).bind hbound

/-- Statements in which only loops over some types stand. -/
theorem stmt_of {s : Stmt} (hs : ∀ type, s.LoopsOver type → types type) :
    (ev.stmt s).FailsOnly (Failure.NamedUnless types) := by
  refine (hev.stmt s).imp fun f hf => ?_
  rcases hf with hnamed | ⟨type, cause, htype, hitem⟩
  · exact .inl hnamed
  · exact .inr ⟨type, cause, hs type htype, hitem⟩

theorem runAll (hbody : ∀ s ∈ body, ∀ type, s.LoopsOver type → types type) :
    (ev.runAll body).FailsOnly (Failure.NamedUnless types) := by
  induction body with
  | nil => exact .pure _
  | cons s rest ih =>
    obtain ⟨hs, hrest⟩ := List.forall_mem_cons.1 hbody
    exact (hev.stmt_of hs).bind fun flow => .bind (.modify _) fun _ => ih hrest

theorem runFrom (hbody : ∀ s ∈ body, ∀ type, s.LoopsOver type → types type) :
    ∀ last, (ev.runFrom last body).FailsOnly (Failure.NamedUnless types) := by
  induction body with
  | nil => exact fun last => .pure _
  | cons s rest ih =>
    intro last
    obtain ⟨hs, hrest⟩ := List.forall_mem_cons.1 hbody
    unfold Evaluator.runFrom
    split
    · contradiction
    · rename_i heq
      obtain ⟨-, rfl⟩ := List.cons.inj heq
      exact ih hrest last
    · rename_i heq
      obtain ⟨rfl, rfl⟩ := List.cons.inj heq
      refine ((hev.stmt_of hs).onFailure _).bind fun flow => ?_
      split
      · exact .bind (.modify _) fun _ => ih hrest _
      · exact .bind (.modify _) fun _ => .pure _

theorem runBlock (hbody : ∀ s ∈ body, ∀ type, s.LoopsOver type → types type) :
    (ev.runBlock body).FailsOnly (Failure.NamedUnless types) :=
  (failsOnly_scope Failure.namedUnless_broken).bind fun _ =>
    .inFrame ((failsOnly_hoist Failure.namedUnless_broken body).bind fun _ => hev.runFrom hbody _)
      Failure.namedUnless_broken _ _ _ _

/-- A round of a loop over items, given how the conversion of its item fails. -/
theorem runRound (type : Option ValueType) (binding : String) {body : Stmt} (item : Value)
    (hbody : ∀ type, body.LoopsOver type → types type)
    (hitem : ∀ t, type = some t → (coerce t item .storing).FailsOnly (Failure.NamedUnless types)) :
    (ev.runRound type binding body item).FailsOnly (Failure.NamedUnless types) := by
  refine (failsOnly_scope Failure.namedUnless_broken).bind fun frame => ?_
  have hbound : ∀ v : Value, FailsOnly (Failure.NamedUnless types) (do
      define frame binding v type
      ev.stmt body) :=
    fun v => (failsOnly_define Failure.namedUnless_broken frame binding v type).bind fun _ => hev.stmt_of hbody
  cases type with
  | none => exact hbound item
  | some t => exact (hitem t rfl).bind hbound

theorem forItems (parent : ScopeId) (type : Option ValueType) (binding : String) {body : Stmt}
    (hbody : ∀ type, body.LoopsOver type → types type)
    (hitem : ∀ t, type = some t → ∀ item, (coerce t item .storing).FailsOnly (Failure.NamedUnless types))
    (items : List Value) :
    (ev.forItems parent type binding body items).FailsOnly (Failure.NamedUnless types) := by
  induction items with
  | nil => exact .pure _
  | cons item rest ih =>
    have hround := hev.runRound type binding item hbody fun t ht => hitem t ht item
    refine .bind ((hround.inFrame Failure.namedUnless_broken _ _ _ _).onFailure _) fun flow => ?_
    cases flow with
    | broke => exact .bind (.modify _) fun _ => .pure _
    | returned v => exact .bind (.modify _) fun _ => .pure _
    | normal v => exact .bind (.modify _) fun _ => ih
    | continued => exact ih

omit hev in
/-- A conversion to a type that was written fails with a fault of an item. -/
theorem item_of {type : TypeName} (htype : types type) {here : ScopeId} {m1 : Machine}
    (h : resolveType here type m = .ok t m1) (item : Value) :
    (coerce t item .storing).FailsOnly (Failure.NamedUnless types) := by
  intro m2 f m3 hfails
  have hfresh : (∃ cause, f = .broken cause) ∨ ∃ cause, f = .ofFault cause :=
    failsOnly_coerce (F := fun f => (∃ cause, f = .broken cause) ∨ ∃ cause, f = .ofFault cause)
      (fun _ => .inl ⟨_, rfl⟩) (fun _ => .inr ⟨_, rfl⟩) t item .storing m2 f m3 hfails
  rcases hfresh with ⟨cause, rfl⟩ | ⟨cause, rfl⟩
  · exact .inl trivial
  · exact .inr ⟨type, cause, htype, ⟨here, t, item, m, m1, m2, m3, h, hfails⟩, rfl⟩

omit hev in
theorem resolved {parent : ScopeId} {type : Option TypeName} {clean : Machine → Machine}
    {m' : Machine} (h : Exec.onFailure (resolveType? parent type) clean m = .ok (some t) m') :
    ∃ type', type = some type' ∧ resolveType parent type' m = .ok t m' := by
  unfold Exec.onFailure at h
  cases type with
  | none => cases h
  | some type =>
    refine ⟨type, rfl, ?_⟩
    cases hr : resolveType parent type m with
    | ok t' m1 =>
      have hrun : resolveType? parent (some type) m = .ok (some t') m1 := bind_of_ok hr
      rw [hrun] at h
      cases h
      rfl
    | error e m1 =>
      have hrun : resolveType? parent (some type) m = .error e m1 := bind_of_error hr
      rw [hrun] at h
      cases h

theorem forEach (type : Option TypeName) (binding : String) (iterable : Expr) {body : Stmt}
    (hbody : ∀ type, body.LoopsOver type → types type) (htype : ∀ t, type = some t → types t) :
    (ev.forEach type binding iterable body).FailsOnly (Failure.NamedUnless types) := by
  have hrest : ∀ items, FailsOnly (Failure.NamedUnless types) (do
      let parent ← Exec.onFailure Exec.scope (·.dropAll items)
      let type ← Exec.onFailure (resolveType? parent type) (·.dropAll items)
      ev.forItems parent type binding body items) := by
    intro items
    refine .bind ((failsOnly_scope Failure.namedUnless_broken).onFailure _) fun parent => ?_
    have hresolve : (resolveType? parent type).FailsOnly (Failure.NamedUnless types) := by
      cases type with
      | none => exact .pure _
      | some type => exact (failsOnly_qualify Failure.namedUnless_broken parent _).bind fun _ => .pure _
    refine (hresolve.onFailure _).bind_of fun m found m' hfound => hev.forItems parent found binding hbody ?_ items
    rintro t rfl
    obtain ⟨type, rfl, ht⟩ := resolved hfound
    exact item_of (htype type rfl) ht
  refine (hev.expr iterable).unless.bind fun source => .afterwards ?_ _
  cases source with
  | array cell element => exact .get fun m => .bind (.bind (.modify _) fun _ => .pure _) hrest
  | text s => exact hrest _
  | _ => exact .bind (FailsOnly.locating (.throw (Failure.blamedOn_ofFault _)) _ _).unless hrest

omit hev in
theorem loop {body : Exec Flow} {update : Exec Unit} (hspent : F (.stopped .exhausted))
    (htest : test.FailsOnly F) (hbody : body.FailsOnly F) (hupdate : update.FailsOnly F)
    (rounds : Nat) : (Exec.loop test body update rounds).FailsOnly F := by
  induction rounds with
  | zero => exact .throw hspent
  | succ rounds ih =>
    refine htest.bind fun go => ?_
    cases go with
    | false => exact .pure _
    | true =>
      refine hbody.bind fun flow => ?_
      cases flow with
      | broke => exact .pure _
      | returned v => exact .pure _
      | normal v => exact .bind (.modify _) fun _ => hupdate.bind fun _ => ih
      | continued => exact hupdate.bind fun _ => ih

omit hev in
theorem loopAfter {body : Exec Flow} (hspent : F (.stopped .exhausted)) (hbody : body.FailsOnly F)
    (htest : test.FailsOnly F) (rounds : Nat) : (Exec.loopAfter body test rounds).FailsOnly F := by
  induction rounds with
  | zero => exact .throw hspent
  | succ rounds ih =>
    have hnext : FailsOnly F (do if ← test then Exec.loopAfter body test rounds else return .done) := by
      refine htest.bind fun go => ?_
      cases go with
      | false => exact .pure _
      | true => exact ih
    refine hbody.bind fun flow => ?_
    cases flow with
    | broke => exact .pure _
    | returned v => exact .pure _
    | normal v => exact .bind (.modify _) fun _ => hnext
    | continued => exact hnext

/-- **One step of a statement.** -/
theorem stmtStep (rounds : Nat) (s : Stmt) :
    (ev.stmtStep rounds s).FailsOnly (Failure.NamedUnless s.LoopsOver) := by
  have hspent : (Failure.stopped .exhausted).NamedUnless s.LoopsOver := .inl trivial
  have hscope := failsOnly_scope (F := Failure.NamedUnless s.LoopsOver) Failure.namedUnless_broken
  cases s with
  | expr span e => exact (hev.expr e).unless.bind fun v => .pure _
  | declaration span type ds =>
    exact hscope.bind fun here => (failsOnly_qualify Failure.namedUnless_broken here _).bind fun type =>
      (hev.declareVariables here type ds).unless.bind fun _ => .pure _
  | method span name params returns body =>
    exact (failsOnly_declare Failure.namedUnless_broken name params returns body).bind fun _ => .pure _
  | block span body => exact hev.runBlock fun s hs type h => .block span hs h
  | ifElse span c yes no =>
    refine (hev.condition c).unless.bind fun go => ?_
    cases go with
    | true => exact hev.stmt_of fun type h => .yes span c no h
    | false =>
      cases no with
      | none => exact .pure _
      | some other => exact hev.stmt_of fun type h => .no span c yes h
  | whileLoop span c body =>
    exact loop hspent (hev.condition c).unless (hev.stmt_of fun type h => .whileLoop span c h) (.pure _) rounds
  | doWhile span body c =>
    exact loopAfter hspent (hev.stmt_of fun type h => .doWhile span c h) (hev.condition c).unless rounds
  | forLoop span init c update body =>
    refine hscope.bind fun parent => .inFrame ?_ Failure.namedUnless_broken _ _ _ _
    refine (hev.runAll fun s hs type h => .init span c update body hs h).bind fun _ =>
      loop hspent ?_ (hev.stmt_of fun type h => .forLoop span init c update h) (hev.effects update).unless rounds
    cases c with
    | none => exact .pure _
    | some c => exact (hev.condition c).unless
  | forEach span type binding iterable body =>
    refine hev.forEach type binding iterable (fun type' h => .forEach span type binding iterable h) ?_
    rintro t rfl
    exact .here span binding iterable body
  | returnValue span value =>
    cases value with
    | none => exact .pure _
    | some e => exact (hev.expr e).unless.bind fun v => .pure _
  | breakLoop span => exact .pure _
  | continueLoop span => exact .pure _
  | importName span path wildcard =>
    refine hscope.bind fun here => ?_
    cases wildcard with
    | true => exact (failsOnly_changeFrame Failure.namedUnless_broken here _).bind fun _ => .pure _
    | false =>
      refine (FailsOnly.locating (.get fun m => ?_) _ _).unless.bind fun _ => .pure _
      cases m.classes.load? path with
      | none => exact .throw (Failure.blamedOn_ofFault _)
      | some c => exact failsOnly_changeFrame (fun _ => trivial) here _
  | empty span => exact .pure _

end Evaluator.Names

end Statements

/-- Evaluation with any allowance names what failed. -/
theorem names_evaluator (allowance : Nat) : (evaluator allowance).Names := by
  induction allowance with
  | zero => exact ⟨named_evalExpr 0, fun s => .throw (.inl trivial)⟩
  | succ allowance ih => exact ⟨named_evalExpr _, fun s => ih.stmtStep allowance s⟩

/-- **A run of units.** What leaves it is labelled, and the jumps that it refuses are put down to their units. -/
theorem Evaluator.Names.runUnits {ev : Evaluator} (hev : ev.Names) {types : TypeName → Prop} (label : Option String)
    (failure : Option Diagnostic) {units : List Stmt}
    (hunits : ∀ s ∈ units, ∀ type, s.LoopsOver type → types type) :
    ∀ last, (ev.runUnits label failure last units).FailsOnly fun f =>
      f.Named ∨ ∃ type cause, types type ∧ cause.OfItem type ∧ f = .fault cause { label := label } := by
  induction units with
  | nil =>
    intro last
    cases failure with
    | none => exact .pure _
    | some d => exact (FailsOnly.throw (.inl trivial)).onFailure _
  | cons unit rest ih =>
    intro last
    obtain ⟨hunit, hrest⟩ := List.forall_mem_cons.1 hunits
    have hstmt := ((hev.stmt_of hunit).steadily Failure.namedUnless_broken).mapFailure
      (G := fun f => f.Named ∨ ∃ type cause, types type ∧ cause.OfItem type ∧ f = .fault cause { label := label })
      (φ := (·.label label)) fun f hf => by
        rcases hf with hnamed | ⟨type, cause, htype, hitem, rfl⟩
        · exact .inl (hnamed.label label)
        · exact .inr ⟨type, cause, htype, hitem, rfl⟩
    refine (hstmt.onFailure _).bind fun flow => .bind (.modify _) fun _ => ?_
    cases flow with
    | normal v => exact ih hrest v
    | returned v => exact .pure _
    | broke | continued => exact .throw (.inl ⟨_, _, _, rfl⟩)

/-- **Every failure that leaves a text names a construct**, with its span and its description, unless it is the
fault that an item of a loop cannot be converted to the declared type of its variable. -/
theorem failures_name_constructs (allowance : Nat) (label : Option String) (failure : Option Diagnostic)
    (units : List Stmt) (last : Value) (m m' : Machine) (f : Failure)
    (h : (evaluator allowance).runUnits label failure last units m = .error f m') :
    f.Named ∨ ∃ unit ∈ units, ∃ type cause,
      unit.LoopsOver type ∧ cause.OfItem type ∧ f = .fault cause { label := label } := by
  have hunits : ∀ s ∈ units, ∀ type, s.LoopsOver type → ∃ unit ∈ units, unit.LoopsOver type :=
    fun s hs type hloop => ⟨s, hs, hloop⟩
  rcases (names_evaluator allowance).runUnits label failure hunits last m f m' h with
    hnamed | ⟨type, cause, ⟨unit, hunit, hloop⟩, hitem, rfl⟩
  · exact .inl hnamed
  · exact .inr ⟨unit, hunit, type, cause, hloop, hitem, rfl⟩

/-- The unit `for (byte b : new int[] …) ;` over an item that is no byte. -/
def narrowLoop : List Stmt := (readUnits "for (byte b : new int[] \x7b300\x7d) ;").1.map Prod.fst

/-- The fault of that item names no construct. -/
theorem narrow_item_unnamed :
    let m := Machine.initial {} ⟨fun _ => .unknown⟩ "" []
    ∃ f m', (evaluator 9).runUnits none none .void narrowLoop (m.onto [m.global]) = .error f m' ∧
      f.message = "cannot assign int value 300 to byte" ∧
      ∃ unit ∈ narrowLoop, ∃ type cause, unit.LoopsOver type ∧ cause.OfItem type ∧ f = .fault cause {} := by
  intro m
  have hfails : (((evaluator 9).runUnits none none .void narrowLoop).failure? (m.onto [m.global])).any fun f =>
      f.message == "cannot assign int value 300 to byte" && f.bare := by
    decide +kernel
  cases hrun : (evaluator 9).runUnits none none .void narrowLoop (m.onto [m.global]) with
  | ok v m' => simp [failure?, hrun] at hfails
  | error f m' =>
    simp only [failure?, hrun, Option.any_some, Bool.and_eq_true, beq_iff_eq] at hfails
    rcases failures_name_constructs 9 none none narrowLoop .void _ _ f hrun with hnamed | hitem
    · exact absurd hnamed (Failure.not_named_of_bare hfails.2)
    · exact ⟨f, m', rfl, hfails.1, hitem⟩

end HostScript
