import HostScript.Proofs.DisciplinedCalls
import HostScript.Proofs.Restraint
import HostScript.Proofs.Spelling

/-!
# Evaluation keeps a discipline

One step of the evaluation of an expression or a statement keeps a discipline, given that the evaluation of its
parts, scripted methods and the texts of commands do. Only loops use up an allowance, only `this` and `super`
refer to a frame that no value referred to before, and only `eval` and `source` run texts.
-/

set_option autoImplicit false

namespace HostScript

/-- Whether a statement is a loop other than one over items. -/
def Stmt.isLoop : Stmt → Bool
  | .whileLoop .. | .doWhile .. | .forLoop .. => true
  | _ => false

/-- Whether a command runs a text. -/
def Command.runsText : Command → Bool
  | .eval | .source => true
  | _ => false

/-- Whether the command of a name and number of arguments runs a text. -/
def isTextCall (name : String) (arity : Nat) : Bool := (Command.of? name arity).any Command.runsText

/-- Whether an expression is written as a call of a command that runs a text. -/
def Expr.runsText : Expr → Bool
  | .call _ x args => isTextCall x args.length
  | _ => false

namespace Discipline

open Machine (ebbing_drop ebbing_dropAll ebbing_discard ebbing_dropReference)

variable {ι : Type} {D : Discipline ι} {w : D.Stage} {ev texts : ι → Evaluator} {target : Expr}
  {body : Stmt} {test : ι → Exec Bool}

/-! ## Texts and commands -/

theorem runUnits (label : Option String) {failure : Option Diagnostic}
    (hfailure : ∀ d, failure = some d → D.blames (.text d)) (units : List Stmt)
    (hunits : ∀ s ∈ units, D.blames (.construct s.span "statement") ∧
      ∀ w, D.flows true w fun i => (ev i).stmt s) :
    ∀ (w : D.Stage) (last : Value), D.admits w last →
      D.yields true w fun i => (ev i).runUnits label failure last units := by
  induction units with
  | nil =>
    intro w last hlast
    cases failure with
    | none => exact D.pure hlast
    | some d => exact .unlessFailed (D.mapFailure (D.unread (hfailure d rfl)) (.label label)) last
  | cons unit rest ih =>
    intro w last hlast
    obtain ⟨hunit, hrest⟩ := List.forall_mem_cons.1 hunits
    refine (Regime.runs.unlessFailed (D.mapFailure (D.steadily (hunit.2 w)) (.label label)) last).bind
      fun w1 flow _ hflow => (D.drop last).bind fun w2 _ h2 _ => ?_
    have hstray : D.yields true w2 fun _ : ι =>
        Exec.mapFailure (Exec.locating unit.span (fun _ => "statement")
          (Exec.fault .strayJump : Exec Value)) (·.label label) :=
      D.mapFailure ((D.fault .strayJump).locating hunit.1) (.label label)
    cases flow with
    | normal v => exact ih hrest w2 v (D.mono h2 hflow)
    | returned v => exact D.pure (D.mono h2 hflow)
    | broke => exact hstray
    | continued => exact hstray

/-- Everything may be blamed, and all statements keep the discipline. -/
structure Free (D : Discipline ι) (ev : ι → Evaluator) : Prop where
  blames : ∀ k, D.blames k
  stmt : ∀ s w, D.flows true w fun i => (ev i).stmt s

theorem runText (source : String) (label : Option String) (hfree : D.Free ev) :
    D.yields true w fun i => (ev i).runText source label :=
  runUnits label (fun _ _ => hfree.blames _) _ (fun s _ => ⟨hfree.blames _, hfree.stmt s⟩) w .void
    (D.admits_primitive _)

theorem runFile (path : String) (scope : ScopeId) (hfree : D.Free ev) :
    D.yields true w fun i => (ev i).runFile path scope :=
  (D.resolvePath path).bind fun _ path _ _ => (D.readFile path).bind
    fun _ text _ _ => D.onStack [scope] (runText text (some path) hfree)

theorem runCommand (c : Command) (args : List Value) (htexts : c.runsText = true → D.Free ev) :
    D.yields true w fun i => (ev i).runCommand c args := by
  have hvoid : ∀ {w}, D.admits w .void := D.admits_primitive _
  cases c with
  | print | error =>
    cases args with
    | nil => exact D.pure hvoid
    | cons v rest =>
      exact (D.textOf v).bind fun _ line _ _ =>
        (D.modify (tidy_console fun _ _ => rfl)).bind fun _ _ _ _ => D.pure hvoid
  | eval => exact (D.textArgument "eval" args).bind fun _ text _ _ => runText _ none (htexts rfl)
  | source =>
    exact (D.textArgument "source" args).bind fun _ path _ _ =>
      D.scope.bind fun _ here _ _ => runFile path here (htexts rfl)
  | pwd => exact D.workingDirectory.bind fun _ _ _ _ => D.pure (D.admits_text _)
  | cd =>
    refine (D.textArgument "cd" args).bind fun _ path _ _ =>
      (D.resolvePath path).bind fun _ path _ _ => (D.entryAt path).bind fun _ entry _ _ => ?_
    cases entry with
    | directory =>
      exact .get (fun _ _ _ => rfl) fun m _ => (D.define m.global _ (D.admits_text path) fun _ h => by cases h).bind
        fun _ _ _ _ => D.pure hvoid
    | _ => exact D.fault _
  | unset =>
    exact (D.textArgument "unset" args).bind fun _ name _ _ => D.scope.bind fun _ here _ _ =>
      (D.referenceTo here name).bind fun _ r _ _ => (D.unsetReference r _).bind fun _ _ _ _ => D.pure hvoid

/-! ## Calls -/

variable (hcalls : D.Calls ev)

include hcalls

theorem invokeWith (name : String) {args : List Value} (hargs : D.admitsAll w args)
    (htexts : isTextCall name args.length = true → D.Free texts) :
    D.yields true w fun i => (ev i).invokeWith (texts i) name args := by
  refine (D.scope.orDropAll args).bind fun _ here h1 _ =>
    ((D.callee? here name args).orDropAll args).bind fun w2 found h2 hfound => ?_
  replace hargs := monoAll (D.trans h1 h2) hargs
  cases found with
  | none => exact .holdingAll ((D.frameName here).bind fun _ _ _ _ => D.fault _) args
  | some callee =>
    have hcallee := hfound callee rfl
    cases callee with
    | scripted method => exact D.widen (hcalls w2 method args hargs)
    | host receiver method =>
      exact ((Regime.runs.holding (D.widen (callConverted hcalls hcallee.2 (admitsAll_some hcallee.1)
        hargs))) receiver).holdingAll args
    | command c =>
      refine (runCommand c args fun hc => htexts ?_).holdingAll args
      rw [isTextCall, show Command.of? name args.length = some c from hcallee]
      exact hc
    | generic method => exact D.widen (invokeGeneric hcalls method name hargs)

theorem invokeObject (scope : ScopeId) (label name : String) {args : List Value} (hargs : D.admitsAll w args) :
    D.yields true w fun i => (ev i).invokeObject scope label name args := by
  refine ((D.resolveMethod scope name args).orDropAll args).bind fun w1 selected h1 _ => ?_
  cases selected with
  | some method => exact D.widen (hcalls w1 method args (monoAll h1 hargs))
  | none =>
    refine ((D.lookAt _).orDropAll args).bind fun _ generic h2 _ => ?_
    cases generic with
    | some method => exact D.widen (invokeGeneric hcalls method name (monoAll (D.trans h1 h2) hargs))
    | none =>
      refine .holdingAll ?_ args
      split
      all_goals first | exact D.pure (D.admits_text _) | exact D.pure (D.admits_primitive _) | exact D.fault _

theorem invokeHostObject (cell : Nat) (className name : String) {args : List Value} (hargs : D.admitsAll w args) :
    D.yields true w fun i => (ev i).invokeHostObject cell className name args := by
  refine .get (fun _ _ _ => rfl) fun m hm => ?_
  dsimp only
  apply Regime.runs.shared
  case h =>
    intro hrest
    cases hc : m.classes.load? className with
    | none =>
      dsimp only
      exact hrest w
    | some c =>
      refine (D.widen (invokeHost hcalls name (loaded hm hc) (admitsAll_some (D.admits_host cell className))
        hargs)).bind fun w1 found _ hfound => ?_
      cases found with
      | some v => exact D.pure (hfound v rfl)
      | none => exact hrest w1
  case hy =>
    intro w'
    split
    · exact (D.textOf _).bind fun _ _ _ _ => D.pure (D.admits_text _)
    · exact D.pure (D.admits_primitive _)
    · exact D.pure (D.admits_primitive _)
    · exact D.fault _

theorem invokeOn (target : Value) (name : String) {args : List Value} (ht : D.admits w target)
    (hargs : D.admitsAll w args) : D.yields true w fun i => (ev i).invokeOn target name args := by
  cases target with
  | object scope label => exact invokeObject hcalls scope label name hargs
  | host cell className =>
    refine .get (fun _ _ _ => rfl) fun m hm => ?_
    cases ha : m.store.adapter? cell with
    | none => exact (invokeHostObject hcalls cell className name hargs).holdingAll args
    | some a =>
      refine ((D.identityCall cell name args (D.adapters hm ha)).orDropAll args).bind
        fun _ found h1 hfound => ?_
      cases found with
      | some v => exact .holdingAll (D.pure (hfound v rfl)) args
      | none => exact invokeObject hcalls a.scope a.label name (monoAll h1 hargs)
  | hostClass id className =>
    refine .holdingAll (.get (fun _ _ _ => rfl) fun m hm => ?_) args
    cases hc : m.classes.records[id]? with
    | none => exact D.fault _
    | some c =>
      refine (D.widen (invokeHost hcalls name (D.classes hm c (Array.mem_of_getElem? hc))
        D.admitsAll_nil hargs)).bind fun _ found _ hfound => ?_
      cases found with
      | some v => exact D.pure (hfound v rfl)
      | none => exact D.fault _
  | text s =>
    refine .holdingAll (.get (fun _ _ _ => rfl) fun m hm => ?_) args
    cases hc : m.classes.load? "lang.String" with
    | none => exact D.fault _
    | some c =>
      refine (D.widen (invokeHost hcalls name (loaded hm hc) (admitsAll_some ht) hargs)).bind
        fun _ found _ hfound => ?_
      cases found with
      | some v => exact D.pure (hfound v rfl)
      | none => exact D.fault _
  | primitive p => cases p <;> exact .holdingAll (D.fault _) args
  | array cell type => exact .holdingAll (D.fault _) args

theorem construct {c : HostClass} {args : List Value} (hc : D.admitsClass c) (hargs : D.admitsAll w args) :
    D.yields true w fun i => (ev i).construct c args := by
  refine .holdingAll ?_ args
  refine .guarded (D.fault _) ?_
  refine (D.selectHost _ args).bind fun _ found h1 hfound => ?_
  cases found with
  | none => exact D.fault _
  | some constructor =>
    exact D.widen (callConverted hcalls (hc.constructors _ (hfound _ rfl)) D.admitsAll_nil (monoAll h1 hargs))

/-! ## Expressions -/

omit hcalls

/-- The evaluation of an expression keeps the discipline, and it may be blamed. -/
structure Evaluates (D : Discipline ι) (ev : ι → Evaluator) (e : Expr) : Prop where
  blame : D.blames (.construct e.span e.describe)
  yields : ∀ w, D.yields true w fun i => (ev i).expr e

theorem condition {e : Expr} (he : D.Evaluates ev e) : D.steps true w fun i => (ev i).condition e := by
  refine (he.yields w).bind fun _ value _ _ => .holding ?_ value
  cases value.primitive?.bind Primitive.toBool? with
  | some b => exact D.pure trivial
  | none => exact (D.fault _).locating he.blame

theorem argsFrom (es : List Expr) (hes : ∀ e ∈ es, D.Evaluates ev e) : ∀ (w : D.Stage) (done : List Value),
    D.admitsAll w done → D.runs true w (fun w' vs => D.admitsAll w' vs ∧ vs.length = done.length + es.length)
      fun i => (ev i).argsFrom done es := by
  induction es with
  | nil => exact fun w done hdone => D.pure ⟨admitsAll_reverse hdone, done.length_reverse⟩
  | cons e rest ih =>
    intro w done hdone
    obtain ⟨he, hrest⟩ := List.forall_mem_cons.1 hes
    refine ((he.yields w).orDropAll done.reverse).bind fun w1 v h1 hv => ?_
    refine D.imp (ih hrest w1 _ (admitsAll_cons hv (monoAll h1 hdone))) fun _ vs _ hvs => ⟨hvs.1, ?_⟩
    rw [hvs.2, List.length_cons, List.length_cons]
    omega

theorem args {es : List Expr} (hes : ∀ e ∈ es, D.Evaluates ev e) :
    D.runs true w (fun w' vs => D.admitsAll w' vs ∧ vs.length = es.length) fun i => (ev i).args es :=
  D.imp (argsFrom es hes w [] D.admitsAll_nil) fun _ _ _ hvs => ⟨hvs.1, hvs.2.trans (Nat.zero_add _)⟩

/-- The items of an array initializer are coerced to the element type one by one. -/
theorem itemsFrom (element : ValueType) (es : List Expr) (hes : ∀ e ∈ es, D.Evaluates ev e) :
    ∀ (w : D.Stage) (done : List Value), D.admitsAll w done → (∀ v ∈ done, D.suits v element) →
      D.runs true w (fun w' vs => D.admitsAll w' vs ∧ ∀ v ∈ vs, D.suits v element)
        fun i => (ev i).itemsFrom element done es := by
  induction es with
  | nil =>
    intro w done hdone hsuit
    exact D.pure ⟨admitsAll_reverse hdone, fun v hv => hsuit v (List.mem_reverse.1 hv)⟩
  | cons e rest ih =>
    intro w done hdone hsuit
    obtain ⟨he, hrest⟩ := List.forall_mem_cons.1 hes
    have hitem : D.runs true w (fun w' v => D.admits w' v ∧ D.suits v element) fun i => (do
        let v ← (ev i).expr e
        Exec.coerce element v .storing) :=
      (he.yields w).bind fun _ v _ hv => D.coercion element .storing hv
    exact (hitem.orDropAll done.reverse).bind fun w1 v h1 hv =>
      ih hrest w1 _ (admitsAll_cons hv.1 (monoAll h1 hdone)) (List.forall_mem_cons.2 ⟨hv.2, hsuit⟩)

include hcalls in
theorem readPath (members : List String) : ∀ (w : D.Stage) (value : Value), D.admits w value →
    D.yields true w fun i => (ev i).readPath value members := by
  induction members with
  | nil => exact fun w value hv => D.pure hv
  | cons member rest ih =>
    exact fun w value hv => (Regime.runs.holding (D.widen (readMember hcalls member hv)) value).bind
      fun w1 next _ hnext => ih w1 next hnext

include hcalls in
theorem classPathFrom (here : ScopeId) (segments : List String) (n : Nat) :
    ∀ w, D.yieldsIf true w fun i => (ev i).classPathFrom here segments n := by
  induction n with
  | zero => exact fun w => D.pure D.admitsIf_none
  | succ n ih =>
    refine fun w => (D.lookupClass here _).bind fun w1 found _ _ => ?_
    cases found with
    | none => exact ih w1
    | some c =>
      exact (readPath hcalls _ w1 c.value (D.admits_class c)).bind fun _ v _ hv => D.pure (admitsIf_some hv)

include hcalls in
theorem classPath (path : String) : D.yieldsIf true w fun i => (ev i).classPath path := by
  refine D.scope.bind fun _ here _ _ => (D.widen (valueOf? hcalls here _)).bind fun w1 found _ _ => ?_
  cases found with
  | some v => exact (D.drop v).bind fun _ _ _ _ => D.pure D.admitsIf_none
  | none => exact classPathFrom hcalls here _ _ w1

/-- The place of an array element knows the element type of the array. -/
theorem elementReference {index : Expr} (ht : D.Evaluates ev target) (hi : D.Evaluates ev index) :
    D.refers true w fun i => (ev i).elementReference target index := by
  refine (ht.yields w).bind fun w1 array _ harray => .unlessFailed ?_ array
  cases array with
  | array cell type =>
    refine (hi.yields w1).bind fun _ position h2 _ => .holding ?_ position
    split
    · exact D.fault _
    · split
      · exact .get (fun _ _ _ => rfl) fun m _ => D.fault _
      · exact D.pure (D.mono h2 harray)
  | _ => exact D.fault _

/-- The place that an expression stands for, which may be blamed for being none. -/
theorem reference : ∀ e : Expr, D.blames (.construct e.span e.describe) → (∀ e' ∈ e.parts, D.Evaluates ev e') →
    ∀ w, D.refers true w fun i => (ev i).reference e := by
  intro e hblame hparts w
  cases e with
  | name span name => exact D.scope.bind fun _ here _ _ => D.referenceTo here name
  | field span target member =>
    exact ((hparts target target.mem_subs).yields w).bind
      fun _ object _ ho => (D.memberReference member ho).holding object
  | index span target index =>
    exact elementReference (hparts target (List.mem_append_left _ target.mem_subs))
      (hparts index (List.mem_append_right _ index.mem_subs))
  | group span inner =>
    exact reference inner (hparts inner inner.mem_subs).blame
      (fun e' he' => hparts e' (List.mem_of_mem_tail he')) w
  | _ => exact (D.fault _).locating hblame

theorem withReference {α : Type} {P : D.Stage → α → Prop} {x : ι → Reference → Exec α}
    (ht : D.refers true w fun i => (ev i).reference target)
    (hx : ∀ w r, D.admitsPlace w r → D.runs true w P fun i => x i r) :
    D.runs true w P fun i => (ev i).withReference target (x i) :=
  ht.bind fun w1 r _ hr => (hx w1 r hr).afterwards (ebbing_dropReference r)

include hcalls in
theorem assignment {value : Expr} (op : Option BinaryOp)
    (ht : D.refers true w fun i => (ev i).reference target) (hv : D.Evaluates ev value) :
    D.yields true w fun i => (ev i).assignment target op value := by
  refine withReference ht fun w1 r hr => (hv.yields w1).bind fun _ v h2 hv => ?_
  replace hr := monoPlace h2 hr
  cases op with
  | none => exact D.widen (assign hcalls hr hv)
  | some op =>
    refine .holding ((D.widen (read hcalls hr)).bind fun _ current h3 _ => ?_) v
    exact ((D.combined op current v).holding current).bind fun _ stored h4 hs =>
      D.widen (assign hcalls (monoPlace (D.trans h3 h4) hr) hs)

include hcalls in
theorem stepped (step : Step) (before : Bool) (ht : D.refers true w fun i => (ev i).reference target) :
    D.yields true w fun i => (ev i).stepped step target before := by
  refine withReference ht fun _ r hr => (D.widen (read hcalls hr)).bind fun _ current h1 hc =>
    .unlessFailed ?_ current
  cases current with
  | primitive p =>
    refine .ite (fun _ => ?_) fun _ => D.fault _
    cases p.step step.delta with
    | error e => exact D.fault _
    | ok next =>
      refine (D.widen (assign hcalls (monoPlace h1 hr) (D.admits_primitive next))).bind
        fun _ v _ _ => (D.drop v).bind fun _ _ _ _ => D.pure ?_
      split <;> exact D.admits_primitive _
  | _ => exact D.fault _

theorem binary (op : BinaryOp) {left right : Expr} (hl : D.Evaluates ev left) (hr : D.Evaluates ev right) :
    D.yields true w fun i => (ev i).binary op left right := by
  have hboth : D.yields true w fun i => (do
      let l ← (ev i).expr left
      Exec.holding l do
        let r ← (ev i).expr right
        Exec.holding r (Exec.combine op l r)) :=
    (hl.yields w).bind fun w1 l _ _ => .holding ((hr.yields w1).bind
      fun _ r _ _ => (D.combine op l r).holding r) l
  cases op with
  | and =>
    refine (condition hl).bind fun _ go _ _ => .ite (fun _ => ?_) fun _ => D.pure (D.admits_primitive _)
    exact (condition hr).bind fun _ _ _ _ => D.pure (D.admits_primitive _)
  | or =>
    refine (condition hl).bind fun _ go _ _ => .ite (fun _ => D.pure (D.admits_primitive _)) fun _ => ?_
    exact (condition hr).bind fun _ _ _ _ => D.pure (D.admits_primitive _)
  | _ => exact hboth

variable (D) in
/-- When all frames may be referred to, the object that is being run may be given out, -/
theorem thisObject (hall : ∀ id, D.reaches id) : D.yields true w fun _ => Exec.thisObject :=
  D.scope.bind fun _ _ _ _ => (D.lookAt _).bind fun _ home _ _ => D.objectFor (hall home)

variable (D) in
/-- and so may the object around it. -/
theorem outerObject (hall : ∀ id, D.reaches id) : D.yields true w fun _ => Exec.outerObject := by
  refine D.scope.bind fun _ here _ _ => (D.lookAt _).bind fun _ home _ _ => (D.frame home).bind fun _ f _ _ => ?_
  cases f.parent with
  | none => exact D.fault _
  | some parent => exact (D.lookAt _).bind fun _ outer _ _ => D.objectFor (hall outer)

include hcalls in
/-- The value of an expression. Objects of frames come about only by `this` and `super`, texts are run
only by calls without a receiver. -/
theorem exprFormWith (e : Expr) (hparts : ∀ e' ∈ e.parts, D.Evaluates ev e')
    (hthis : ∀ span, e = .this span → D.yields true w fun _ => Exec.thisObject)
    (hsuper : ∀ span, e = .super span → D.yields true w fun _ => Exec.outerObject)
    (htexts : e.runsText = true → D.Free texts) :
    D.yields true w fun i => (ev i).exprFormWith (texts i) e := by
  cases e with
  | literal span value => exact D.pure (D.admits_literal value)
  | name span name =>
    refine D.scope.bind fun _ here _ _ => (D.widen (valueOf? hcalls here name)).bind fun _ found _ hfound => ?_
    cases found with
    | some v => exact D.pure (hfound v rfl)
    | none => exact D.fault _
  | this span => exact hthis span rfl
  | super span => exact hsuper span rfl
  | binary span op left right =>
    exact binary op (hparts left (List.mem_append_left _ left.mem_subs))
      (hparts right (List.mem_append_right _ right.mem_subs))
  | unary span op operand =>
    refine ((hparts operand operand.mem_subs).yields w).bind fun _ v _ _ => .holding ?_ v
    split
    · exact D.fault _
    · split
      · exact D.pure (D.admits_primitive _)
      · exact D.fault _
  | assign span target op value =>
    exact assignment hcalls op
      (reference target (hparts target (List.mem_append_left _ target.mem_subs)).blame
        (fun e' he' => hparts e' (List.mem_append_left _ (List.mem_of_mem_tail he'))) w)
      (hparts value (List.mem_append_right _ value.mem_subs))
  | preStep span step target =>
    exact stepped hcalls step true (reference target (hparts target target.mem_subs).blame
      (fun e' he' => hparts e' (List.mem_of_mem_tail he')) w)
  | postStep span step target =>
    exact stepped hcalls step false (reference target (hparts target target.mem_subs).blame
      (fun e' he' => hparts e' (List.mem_of_mem_tail he')) w)
  | conditional span c yes no =>
    have hc := hparts c (List.mem_append_left _ c.mem_subs)
    have hyes := hparts yes (List.mem_append_right _ (List.mem_append_left _ yes.mem_subs))
    have hno := hparts no (List.mem_append_right _ (List.mem_append_right _ no.mem_subs))
    exact (condition hc).bind fun w1 go _ _ => .ite (fun _ => hyes.yields w1) fun _ => hno.yields w1
  | call span name es =>
    refine (args fun e' he' => hparts e' (Expr.mem_subsAll.2 ⟨e', he', e'.mem_subs⟩)).bind
      fun _ vs _ hvs => ?_
    refine invokeWith hcalls name hvs.1 fun hruns => htexts ?_
    rw [hvs.2] at hruns
    exact hruns
  | methodCall span target name es =>
    refine ((hparts target (List.mem_append_left _ target.mem_subs)).yields w).bind
      fun _ receiver _ hr => ?_
    refine .holding (D.bind (args fun e' he' => hparts e' ?_) fun _ vs h1 hvs => ?_) receiver
    · exact List.mem_append_right _ (Expr.mem_subsAll.2 ⟨e', he', e'.mem_subs⟩)
    · exact invokeOn hcalls receiver name (D.mono h1 hr) hvs.1
  | field span target member =>
    have hmember : ∀ w, D.yields true w fun i => (do
        let object ← (ev i).expr target
        Exec.holding object ((ev i).readMember object member)) :=
      fun w => ((hparts target target.mem_subs).yields w).bind fun _ object _ ho =>
        .holding (D.widen (readMember hcalls member ho)) object
    unfold Evaluator.exprFormWith Evaluator.exprForm
    dsimp only
    cases (Expr.field span target member).qualifiedName? with
    | none => exact hmember w
    | some path =>
      refine (classPath hcalls path).bind fun w1 found _ hfound => ?_
      cases found with
      | some v => exact D.pure (hfound v rfl)
      | none => exact hmember w1
  | index span target index =>
    exact (elementReference (hparts target (List.mem_append_left _ target.mem_subs))
      (hparts index (List.mem_append_right _ index.mem_subs))).bind
        fun _ r _ hr => .afterwards (D.widen (read hcalls hr)) (ebbing_dropReference r)
  | new span type es =>
    refine D.scope.bind fun _ here _ _ => (D.lookupClass here type.name).bind fun _ found _ hfound => ?_
    cases found with
    | none => exact D.fault _
    | some c =>
      exact (args fun e' he' => hparts e' (Expr.mem_subsAll.2 ⟨e', he', e'.mem_subs⟩)).bind
        fun _ vs _ hvs => construct hcalls (hfound c rfl) hvs.1
  | newArray span element length =>
    refine D.scope.bind fun _ here _ _ => (D.resolveType here element).bind fun w1 type _ _ =>
      ((hparts length length.mem_subs).yields w1).bind fun _ v _ _ => .holding ?_ v
    split
    · exact D.fault _
    · split
      · exact D.fault _
      · -- every slot holds the initial value of the element type
        refine D.makeArray (fun v hv => ?_) fun v hv => ?_
        · rw [List.eq_of_mem_replicate hv]
          exact D.admits_initial type
        · rw [List.eq_of_mem_replicate hv]
          exact D.suits_initial type
  | arrayInit span element es =>
    have hes : ∀ e' ∈ es, D.Evaluates ev e' :=
      fun e' he' => hparts e' (Expr.mem_subsAll.2 ⟨e', he', e'.mem_subs⟩)
    exact D.scope.bind fun _ here _ _ => (D.resolveType here element).bind fun w1 type _ _ =>
      (itemsFrom type es hes w1 [] D.admitsAll_nil fun _ hv => absurd hv List.not_mem_nil).bind
        fun _ items _ hitems => D.makeArray hitems.1 hitems.2
  | cast span type operand =>
    have htype : ∀ w, D.steps true w fun _ => (do Exec.resolveType (← Exec.scope) type) :=
      fun w => D.scope.bind fun _ here _ _ => D.resolveType here type
    exact ((hparts operand operand.mem_subs).yields w).bind fun w1 v _ hv =>
      ((htype w1).unlessFailed v).bind fun _ target h2 _ => D.cast target (D.mono h2 hv)
  | group span inner => exact (hparts inner inner.mem_subs).yields w

/-! ## Statements -/

theorem effects (es : List Expr) (hes : ∀ e ∈ es, D.Evaluates ev e) :
    ∀ w, D.steps true w fun i => (ev i).effects es := by
  induction es with
  | nil => exact fun w => D.pure trivial
  | cons e rest ih =>
    obtain ⟨he, hrest⟩ := List.forall_mem_cons.1 hes
    exact fun w => (he.yields w).bind fun _ v _ _ => (D.drop v).bind fun w2 _ _ _ => ih hrest w2

theorem runAll (body : List Stmt) (hbody : D.Body ev body) : ∀ w, D.steps true w fun i => (ev i).runAll body := by
  induction body with
  | nil => exact fun w => D.pure trivial
  | cons s rest ih =>
    obtain ⟨hs, hrest⟩ := List.forall_mem_cons.1 hbody
    exact fun w => (hs w).bind fun _ flow _ _ =>
      (D.modify (tidy_of_ebbing (ebbing_discard flow))).bind fun w2 _ _ _ => ih hrest w2

/-- The item of a round is bound as the declared type has it. -/
theorem runRound (type : Option ValueType) (binding : String) {item : Value}
    (hitem : D.admits w item) (hbody : ∀ w, D.flows true w fun i => (ev i).stmt body) :
    D.flows true w fun i => (ev i).runRound type binding body item := by
  refine D.scope.bind fun w1 frame h1 _ => ?_
  have hbound : ∀ w v, D.admits w v → (∀ t, type = some t → D.suits v t) → D.flows true w fun i => (do
      Exec.define frame binding v type
      (ev i).stmt body) :=
    fun w v hv hd => (D.define frame binding hv hd).bind fun w1 _ _ _ => hbody w1
  cases type with
  | none => exact hbound w1 item (D.mono h1 hitem) fun _ h => by cases h
  | some t =>
    exact (D.coercion t .storing (D.mono h1 hitem)).bind
      fun w2 v _ hv => hbound w2 v hv.1 fun t' ht => Option.some.inj ht ▸ hv.2

theorem forItems (parent : ScopeId) (type : Option ValueType) (binding : String)
    (hbody : ∀ w, D.flows true w fun i => (ev i).stmt body) (items : List Value) :
    ∀ w, D.admitsAll w items →
      D.flows true w fun i => (ev i).forItems parent type binding body items := by
  induction items with
  | nil => exact fun w _ => D.pure (D.admits_primitive _)
  | cons item rest ih =>
    intro w hitems
    obtain ⟨hitem, hrest⟩ := List.forall_mem_cons.1 hitems
    refine (Regime.runs.orDropAll (D.inFrame "foreach" .block parent (runRound type binding hitem hbody)
      ebbing_discard) rest).bind fun w1 flow h1 hflow => ?_
    cases flow with
    | broke => exact (D.modify (tidy_of_ebbing (ebbing_dropAll rest))).bind fun _ _ _ _ => D.pure (D.admits_primitive _)
    | returned v =>
      exact (D.modify (tidy_of_ebbing (ebbing_dropAll rest))).bind fun _ _ h2 _ => D.pure (D.mono h2 hflow)
    | normal v => exact (D.drop v).bind fun w2 _ h2 _ => ih w2 (monoAll (D.trans h1 h2) hrest)
    | continued => exact ih w1 (monoAll h1 hrest)

theorem forEach (type : Option TypeName) (binding : String) {iterable : Expr}
    (hi : D.Evaluates ev iterable) (hbody : ∀ w, D.flows true w fun i => (ev i).stmt body) :
    D.flows true w fun i => (ev i).forEach type binding iterable body := by
  have hrest : ∀ w items, D.admitsAll w items → D.flows true w fun i => (do
      let parent ← Exec.onFailure Exec.scope (·.dropAll items)
      let type ← Exec.onFailure (Exec.resolveType? parent type) (·.dropAll items)
      (ev i).forItems parent type binding body items) :=
    fun _ items hitems => (D.scope.orDropAll items).bind fun _ parent h1 _ =>
      ((D.resolveType? parent type).orDropAll items).bind fun w2 type h2 _ =>
        forItems parent type binding hbody items w2 (monoAll (D.trans h1 h2) hitems)
  refine (hi.yields w).bind fun w1 source _ _ => .holding ?_ source
  cases source with
  | array cell element =>
    refine .get (fun _ _ _ => rfl) fun m hm => (D.copyAll fun v hv => ?_).bind fun w2 items _ hitems =>
      hrest w2 items hitems
    exact D.items hm cell (Array.mem_toList_iff.1 hv)
  | text s =>
    refine hrest w1 (s.toList.map fun c => .primitive (.char c)) fun v hv => ?_
    obtain ⟨c, -, rfl⟩ := List.mem_map.1 hv
    exact D.admits_primitive _
  | _ => exact ((D.fault _).locating hi.blame).bind fun w2 items _ hitems => hrest w2 items hitems

/-- A variable is declared with a value that was coerced to its type. -/
theorem declareVariables (here : ScopeId) (type : ValueType) (ds : List Declarator)
    (hds : ∀ d ∈ ds, D.blames (.construct d.span s!"declaration of `{d.name}`") ∧
      ∀ e, d.initializer = some e → D.Evaluates ev e) :
    ∀ w, D.steps true w fun i => (ev i).declareVariables here type ds := by
  induction ds with
  | nil => exact fun w => D.pure trivial
  | cons d rest ih =>
    obtain ⟨hd, hrest⟩ := List.forall_mem_cons.1 hds
    have hbound : ∀ w v, D.admits w v → D.steps true w fun i => (do
        let v ← Exec.locating d.span (fun _ => s!"declaration of `{d.name}`")
          (Exec.coerce type v .storing)
        Exec.define here d.name v (some type)
        (ev i).declareVariables here type rest) :=
      fun w v hv => ((D.coercion type .storing hv).locating hd.1).bind fun _ v _ hv =>
        (D.define here d.name hv.1 fun t ht => Option.some.inj ht ▸ hv.2).bind fun w2 _ _ _ => ih hrest w2
    intro w
    unfold Evaluator.declareVariables
    cases he : d.initializer with
    | none => exact hbound w type.initial (D.admits_initial type)
    | some e => exact ((hd.2 e he).yields w).bind fun w1 v _ hv => hbound w1 v hv

/-- A loop whose allowance is used up stops. -/
abbrev Spent (D : Discipline ι) : Prop := ∀ w, D.flows true w fun _ => MonadExcept.throw (.stopped .exhausted)

theorem loop {body : ι → Exec Flow} {update : ι → Exec Unit} (hspent : D.Spent)
    (htest : ∀ w, D.steps true w test) (hbody : ∀ w, D.flows true w body)
    (hupdate : ∀ w, D.steps true w update) (rounds : Nat) :
    ∀ w, D.flows true w fun i => Exec.loop (test i) (body i) (update i) rounds := by
  induction rounds with
  | zero => exact hspent
  | succ rounds ih =>
    refine fun w => (htest w).bind fun w1 go _ _ => .ite (fun _ => ?_) fun _ => D.pure (D.admits_primitive _)
    refine (hbody w1).bind fun w2 flow _ hflow => ?_
    cases flow with
    | broke => exact D.pure (D.admits_primitive _)
    | returned v => exact D.pure hflow
    | normal v => exact (D.drop v).bind fun w3 _ _ _ => (hupdate w3).bind fun w4 _ _ _ => ih w4
    | continued => exact (hupdate w2).bind fun w3 _ _ _ => ih w3

theorem loopAfter {body : ι → Exec Flow} (hspent : D.Spent) (hbody : ∀ w, D.flows true w body)
    (htest : ∀ w, D.steps true w test) (rounds : Nat) :
    ∀ w, D.flows true w fun i => Exec.loopAfter (body i) (test i) rounds := by
  induction rounds with
  | zero => exact hspent
  | succ rounds ih =>
    have hnext : ∀ w, D.flows true w fun i => (do
        if ← test i then Exec.loopAfter (body i) (test i) rounds else return .done) :=
      fun w => (htest w).bind fun w1 go _ _ => .ite (fun _ => ih w1) fun _ => D.pure (D.admits_primitive _)
    refine fun w => (hbody w).bind fun w1 flow _ hflow => ?_
    cases flow with
    | broke => exact D.pure (D.admits_primitive _)
    | returned v => exact D.pure hflow
    | normal v => exact (D.drop v).bind fun w2 _ _ _ => hnext w2
    | continued => exact hnext w1

theorem runFor {init : List Stmt} {c : Option Expr} {update : List Expr} (hinit : D.Body ev init)
    (hc : ∀ e, c = some e → D.Evaluates ev e) (hupdate : ∀ e ∈ update, D.Evaluates ev e)
    (hbody : ∀ w, D.flows true w fun i => (ev i).stmt body) (hspent : D.Spent) (rounds : Nat) :
    D.flows true w fun i => (ev i).runFor init c update body rounds := by
  refine (runAll init hinit w).bind fun w1 _ _ _ =>
    loop hspent (fun _ => ?_) hbody (effects update hupdate) rounds w1
  cases c with
  | none => exact D.pure trivial
  | some c => exact condition (hc c rfl)

section

variable {s : Stmt} (hexprs : ∀ e ∈ s.exprs, D.Evaluates ev e) (hparts : D.Body ev s.parts)

include hexprs hparts

/-- How a statement ends that is no loop. -/
theorem stmtStep {rounds : ι → Nat} (hloop : s.isLoop = false)
    (hblame : ∀ k ∈ s.constructs, D.blames (.construct k.1 k.2)) :
    D.flows true w fun i => (ev i).stmtStep (rounds i) s := by
  have hdone : ∀ {w}, D.admitsFlow w .done := D.admits_primitive _
  cases s with
  | expr span e =>
    exact ((hexprs e List.mem_cons_self).yields w).bind fun _ v _ hv => D.pure hv
  | declaration span type ds =>
    refine D.scope.bind fun _ here _ _ => (D.resolveType here type).bind fun w1 type _ _ =>
      (declareVariables here type ds (fun d hd => ⟨?_, fun e he => ?_⟩) w1).bind fun _ _ _ _ => D.pure hdone
    · exact hblame _ (List.mem_map_of_mem hd)
    · exact hexprs e (List.mem_filterMap.2 ⟨d, hd, he⟩)
  | method span name params returns body =>
    exact (D.declare name params returns body).bind fun _ _ _ _ => D.pure hdone
  | block span body =>
    exact runBlock fun s' hs' => hparts s' (Stmt.mem_subsAll.2 ⟨s', hs', s'.mem_subs⟩)
  | ifElse span c yes no =>
    refine (condition (hexprs c List.mem_cons_self)).bind fun w1 go _ _ =>
      .ite (fun _ => hparts yes (List.mem_append_left _ yes.mem_subs) w1) fun _ => ?_
    cases no with
    | none => exact D.pure hdone
    | some other => exact hparts other (List.mem_append_right _ other.mem_subs) w1
  | whileLoop | doWhile | forLoop => exact absurd hloop (by simp [Stmt.isLoop])
  | forEach span type binding iterable body =>
    exact forEach type binding (hexprs iterable List.mem_cons_self) (hparts body body.mem_subs)
  | returnValue span value =>
    cases value with
    | none => exact D.pure hdone
    | some e => exact ((hexprs e List.mem_cons_self).yields w).bind fun _ v _ hv => D.pure hv
  | breakLoop span => exact D.pure trivial
  | continueLoop span => exact D.pure trivial
  | importName span path wildcard =>
    refine D.scope.bind fun _ here _ _ => ?_
    cases wildcard with
    | true => exact (D.importPackage here path).bind fun _ _ _ _ => D.pure hdone
    | false =>
      exact ((D.importClass here path).locating (hblame _ List.mem_cons_self)).bind
        fun _ _ _ _ => D.pure hdone
  | empty span => exact D.pure hdone

/-- How a loop ends. -/
theorem loopStep (rounds : Nat) (hloop : s.isLoop = true) (hspent : D.Spent) :
    D.flows true w fun i => (ev i).stmtStep rounds s := by
  cases s with
  | whileLoop span c body =>
    exact loop hspent (fun _ => condition (hexprs c List.mem_cons_self)) (hparts body body.mem_subs)
      (fun _ => D.pure trivial) rounds w
  | doWhile span body c =>
    exact loopAfter hspent (hparts body body.mem_subs)
      (fun _ => condition (hexprs c List.mem_cons_self)) rounds w
  | forLoop span init c update body =>
    refine D.scope.bind fun _ parent _ _ => D.inFrame "for" .block parent ?_ ebbing_discard
    refine runFor (fun s' hs' => hparts s' ?_) (fun e he => hexprs e ?_) (fun e he => hexprs e ?_)
      (hparts body (List.mem_append_right _ body.mem_subs)) hspent rounds
    · exact List.mem_append_left _ (Stmt.mem_subsAll.2 ⟨s', hs', s'.mem_subs⟩)
    · subst he
      exact List.mem_cons_self
    · exact List.mem_append_right _ he
  | _ => exact absurd hloop (by simp [Stmt.isLoop])

/-- How any statement ends. -/
theorem anyStep (rounds : Nat) (hblame : ∀ k ∈ s.constructs, D.blames (.construct k.1 k.2)) (hspent : D.Spent) :
    D.flows true w fun i => (ev i).stmtStep rounds s := by
  cases hloop : s.isLoop with
  | false => exact stmtStep hexprs hparts hloop hblame
  | true => exact loopStep hexprs hparts rounds hloop hspent

end

end Discipline

end HostScript
