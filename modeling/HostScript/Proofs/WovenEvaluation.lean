import HostScript.Proofs.DisciplinedEvaluation
import HostScript.Proofs.Woven

/-!
# Evaluation is woven

To be woven from plain computations and given ones is a discipline (`weaving`), so one step of the evaluation of an
expression or a statement is woven, given that the evaluation of its parts is.
-/

set_option autoImplicit false

namespace HostScript

open Exec

variable {ι : Type} {ok : Bounds} {C : Culprit → Prop} {Given : (α : Type) → (α → Prop) → (ι → Exec α) → Prop}

/-- Nothing is known to change: values and machines are confined at any time. -/
def weavingRegime (ok : Bounds) (C : Culprit → Prop) (Given : (α : Type) → (α → Prop) → (ι → Exec α) → Prop) :
    Regime ι where
  Stage := Unit
  later _ _ := True
  upheld _ m := m.Confined ok
  admits _ v := v.Confined ok
  suits _ _ := True
  reaches := ok.frame
  permits _ step action := ok.Allows step action
  blames := C
  runs b _ _ P x := Woven ok C Given b (P ()) x

theorem HostClass.Confined.admitted {c : HostClass} (h : c.Confined ok) :
    (weavingRegime ok C Given).admitsClass c where
  constructors m hm := fun body hbody _ => h.constructors m hm body hbody
  methods m hm := fun body hbody _ => h.methods m hm body hbody
  fields f hf := ⟨fun _ => (h.fields f hf).read, fun write hw _ => (h.fields f hf).write write hw⟩

theorem Frame.Confined.admitted {f : Frame} (h : f.Confined ok) : (weavingRegime ok C Given).admitsFrame () f :=
  fun e he => ⟨h e he, fun _ _ => trivial⟩

/-- **To be woven is a discipline.** -/
def weaving (ok : Bounds) (C : Culprit → Prop) (Given : (α : Type) → (α → Prop) → (ι → Exec α) → Prop) :
    Discipline ι where
  toRegime := weavingRegime ok C Given
  refl _ := trivial
  trans _ _ := trivial
  mono _ hv := hv
  object := Iff.rfl
  simple h _ := Value.confined_of_ne_object h
  suits_fit _ := trivial
  suits_adapter _ := trivial
  suits_initial _ := trivial
  suits_object _ := trivial
  frames hm hf := (hm.frames _ _ hf).admitted
  items hm n hv := hm.items n _ hv
  adapters hm ha := hm.adapter? ha
  classes hm c hc := (hm.classes c hc).admitted
  pure h := .plain (plain_pure h)
  throw h := .plain (plain_throw h)
  unread h := .unread h
  widen h := h.widen
  imp hx h := .imp hx fun a ha => h () a trivial ha
  bind hx hf := Woven.bind hx fun a ha => hf () a trivial ha
  get hfree hf := Woven.get hfree hf
  onFailure hx hc := .onFailure hx hc
  afterwards hx hc := Woven.afterwards hx hc
  mapFailure hx hf := .mapFailure hx hf
  inFrame name kind parent _ hx hd := .inFrame name kind parent hx hd
  onStack stack hx := .onStack stack hx
  deeper name args hx := .deeper name args (hx () trivial)
  steadily hx := .steadily hx
  perform h hadapters := .perform h fun cell a method args ha hargs => hadapters () cell a method args ha hargs
  scope := .scope
  setItem _ hv _ := .plain (plain_modify (Change.trans ⟨fun _ _ => rfl,
    fun m => .ofStore m (m.store.undisturbed_setItem _ _ _), fun _ hm => hm.setItem _ _ hv⟩ (change_drop _)))
  setAdapter ha := .plain (plain_modify ⟨fun _ _ => rfl,
    fun m => .ofStore m (m.store.undisturbed_modifyCell _ fun _ _ h => by cases h),
    fun _ hm => hm.setContents _ (show (Contents.adapter _).Confined ok from ha)⟩)
  modify hf := .plain (plain_modify (hf.change ok))
  look h := .plain (plain_look h)
  changeFrame id _ h := .plain (plain_changeFrame id fun g hg => (h g hg.admitted).imp_left fun h e he => (h e he).1)
  hold id := .plain (plain_hold id)
  declare name params returns body := Woven.bind .scope fun _ _ => .plain (plain_declareIn _)
  makeArray hitems _ := .plain (plain_makeArray _ hitems)
  allocAdapter ha := .plain (plain_alloc (show (Contents.adapter _).Confined ok from ha) fun _ h => by cases h)
  workingDirectory := .plain plain_workingDirectory
  entryAt path := .plain (plain_entryAt path)

theorem admitsPlace_all (r : Reference) : (weavingRegime .all C Given).admitsPlace () r := by
  rcases r with ⟨scope, name⟩ | ⟨object, c, name⟩ | ⟨c, name⟩ | ⟨cell, element, index⟩ | ⟨object, c, name⟩
  · trivial
  · exact ⟨object.confined_all, c.confined_all.admitted⟩
  · exact c.confined_all.admitted
  · trivial
  · exact ⟨object.confined_all, c.confined_all.admitted⟩

/-- The value that a statement ends with is confined. -/
def Flow.Confined (ok : Bounds) : Flow → Prop
  | .normal v | .returned v => v.Confined ok
  | .broke | .continued => True

theorem Flow.confined_all (flow : Flow) : flow.Confined .all := by
  cases flow with
  | normal v => exact v.confined_all
  | returned v => exact v.confined_all
  | broke | continued => trivial

/-! ## Texts -/

namespace Woven

variable {ev : ι → Evaluator}

/-- Any text, when everything may be blamed. -/
theorem runText (source : String) (label : Option String) (hall : ∀ k, C k)
    (hstmt : ∀ s, Woven ok C Given true (·.Confined ok) fun i => (ev i).stmt s) :
    Woven ok C Given true (·.Confined ok) fun i => (ev i).runText source label :=
  Discipline.runText (D := weaving ok C Given) (w := ()) source label ⟨hall, fun s _ => hstmt s⟩

theorem runFile (path : String) (scope : ScopeId) (hall : ∀ k, C k)
    (hstmt : ∀ s, Woven ok C Given true (·.Confined ok) fun i => (ev i).stmt s) :
    Woven ok C Given true (·.Confined ok) fun i => (ev i).runFile path scope :=
  Discipline.runFile (D := weaving ok C Given) (w := ()) path scope ⟨hall, fun s _ => hstmt s⟩

end Woven

/-! ## Steps of given evaluations -/

/-- Evaluations that are given, with nothing said about what is blamed. -/
structure Evaluator.AllGiven {ι : Type} (Given : (α : Type) → (α → Prop) → (ι → Exec α) → Prop)
    (ev : ι → Evaluator) : Prop where
  expr : ∀ e, Given Value (·.Confined .all) fun i => (ev i).expr e
  stmt : ∀ s, Given Flow (·.Confined .all) fun i => (ev i).stmt s
  spent : ∀ P, Given Flow P fun _ => throw (.stopped .exhausted)

namespace Evaluator.AllGiven

variable {ev : ι → Evaluator} (hev : AllGiven Given ev)

include hev

theorem evaluates (e : Expr) : (weaving .all (fun _ => True) Given).Evaluates ev e :=
  ⟨trivial, fun _ => Woven.given (hev.expr e)⟩

theorem flows (s : Stmt) (w : Unit) : (weaving .all (fun _ => True) Given).flows true w fun i => (ev i).stmt s :=
  Woven.given (hev.stmt s)

theorem free : (weaving .all (fun _ => True) Given).Free ev := ⟨fun _ => trivial, hev.flows⟩

theorem calls : (weaving .all (fun _ => True) Given).Calls ev := fun _ method _ hargs =>
  Discipline.invokeScripted method hargs fun _ types hargs =>
    Discipline.runCall method types hargs fun s _ => hev.flows s

theorem exprForm (e : Expr) : Woven .all (fun _ => True) Given true (·.Confined .all)
    fun i => (ev i).exprForm e := by
  have hform : Woven .all (fun _ => True) Given true (·.Confined .all) fun i => (ev i).exprFormWith (ev i) e :=
    Discipline.exprFormWith (w := ()) hev.calls e (fun e' _ => hev.evaluates e')
      (fun _ _ => Discipline.thisObject _ fun _ => trivial) (fun _ _ => Discipline.outerObject _ fun _ => trivial)
      fun _ => hev.free
  simpa only [exprFormWith_self] using hform

theorem exprStep (e : Expr) : Woven .all (fun _ => True) Given true (·.Confined .all)
    fun i => (ev i).exprStep e :=
  (hev.exprForm e).locating trivial

theorem stmtStep (rounds : Nat) (s : Stmt) :
    Woven .all (fun _ => True) Given true (·.Confined .all) fun i => (ev i).stmtStep rounds s :=
  Discipline.anyStep (w := ()) (fun e _ => hev.evaluates e) (fun s' _ => hev.flows s') rounds (fun _ _ => trivial)
    fun _ => Woven.given (hev.spent _)

end Evaluator.AllGiven

/-! ## The call stack is balanced

Plain computations are balanced, and so is what is woven from balanced computations (`Woven.failIn`). -/

/-- The kind of failures that do not report a stack out of step. -/
theorem Failure.kind_inStep : Failure.Kind (fun _ => True) fun _ => Failure.InStep where
  begun hf := by
    rcases hf with hf | ⟨d, rfl, -⟩
    · exact hf.inStep
    · trivial
  raised _ _ := trivial
  running hφ hf := by
    cases hφ with
    | same => exact hf
    | locate span node => exact hf.locate span _
    | label source => exact hf.label source
    | dangle => exact hf.dangle

namespace Exec

variable {α : Type} {P : α → Prop} {x : Exec α} {m : Machine}

theorem EndsIn.balanced :
    ∀ {r : Exec.Result α}, EndsIn .all (fun _ => Failure.InStep) P m r → EndsBalanced m r
  | .ok _ _, h => h.1
  | .error _ _, h => ⟨h.1, h.2.2⟩

theorem EndsBalanced.endsIn (hP : ∀ a, P a) :
    ∀ {r : Exec.Result α}, EndsBalanced m r → EndsIn .all (fun _ => Failure.InStep) P m r
  | .ok a m', h => ⟨h, .all m', hP a⟩
  | .error _ m', h => ⟨h.1, .all m', h.2⟩

theorem Balanced.failIn (hx : Balanced x) (hP : ∀ a, P a) :
    FailIn .all (fun _ => Failure.InStep) α P fun _ : Unit => x := fun _ m _ => (hx m).endsIn hP

end Exec

open Exec

/-- What is woven from balanced computations is balanced. -/
theorem Woven.balanced {b : Bool} {α : Type} {P : α → Prop} {x : Exec α}
    (hx : Woven .all (fun _ => True) (FailIn .all fun _ => Failure.InStep) b P fun _ : Unit => x) :
    x.Balanced :=
  fun m => (hx.failIn Failure.kind_inStep (fun h => h) () m (.all m)).balanced

/-- The discipline of balanced computations. -/
abbrev balancing : Discipline Unit := weaving .all (fun _ => True) (FailIn .all fun _ => Failure.InStep)

theorem Exec.balanced_callee? (scope : ScopeId) (name : String) (args : List Value) :
    Balanced (callee? scope name args) :=
  Woven.balanced (balancing.callee? (b := true) (w := ()) scope name args)

theorem Exec.balanced_unsetReference (r : Reference) (otherwise : Fault) : Balanced (unsetReference r otherwise) :=
  Woven.balanced (balancing.unsetReference (b := true) (w := ()) r otherwise)

namespace Evaluator

/-- The evaluation of expressions and statements is balanced. -/
structure Balanced (ev : Evaluator) : Prop where
  expr : ∀ e, (ev.expr e).Balanced
  stmt : ∀ s, (ev.stmt s).Balanced

variable {ev : Evaluator} (hev : ev.Balanced)

include hev

theorem Balanced.allGiven : AllGiven (FailIn .all fun _ => Failure.InStep) fun _ : Unit => ev :=
  ⟨fun e => (hev.expr e).failIn fun v => v.confined_all, fun s => (hev.stmt s).failIn fun flow => flow.confined_all,
    fun _ _ m hm => ⟨.refl m, hm, trivial⟩⟩

theorem balanced_runBody (body : List Stmt) : (ev.runBody body).Balanced :=
  Woven.balanced (Discipline.runBody (D := balancing) (w := ()) fun s _ => hev.allGiven.flows s)

theorem balanced_runCall (method : ScriptMethod) (types : List (Option ValueType)) (args : List Value) :
    (ev.runCall method types args).Balanced :=
  Woven.balanced (Discipline.runCall (D := balancing) (w := ()) method types (fun v _ => v.confined_all)
    fun s _ => hev.allGiven.flows s)

theorem balanced_callAdapter (cell : Nat) (a : Adapter) (method : String) (args : List Value) :
    (ev.callAdapter cell a method args).Balanced :=
  Woven.balanced (Discipline.callAdapter (w := ()) hev.allGiven.calls cell method trivial fun v _ => v.confined_all)

theorem balanced_assign (r : Reference) (value : Value) : (ev.assign r value).Balanced :=
  Woven.balanced (Discipline.assign (w := ()) hev.allGiven.calls (admitsPlace_all r) value.confined_all)

theorem balanced_runText (source : String) (label : Option String) : (ev.runText source label).Balanced :=
  (Woven.runText source label (fun _ => trivial) fun s => .given (hev.allGiven.stmt s)).balanced

theorem balanced_runFile (path : String) (scope : ScopeId) : (ev.runFile path scope).Balanced :=
  (Woven.runFile path scope (fun _ => trivial) fun s => .given (hev.allGiven.stmt s)).balanced

theorem balanced_reference (e : Expr) : (ev.reference e).Balanced :=
  Woven.balanced (Discipline.reference e trivial (fun e' _ => hev.allGiven.evaluates e') ())

theorem balanced_exprForm (e : Expr) : (ev.exprForm e).Balanced := (hev.allGiven.exprForm e).balanced

theorem balanced_runRound (type : Option ValueType) (binding : String) (body : Stmt) (item : Value) :
    (ev.runRound type binding body item).Balanced :=
  Woven.balanced (Discipline.runRound (D := balancing) (w := ())
    type binding item.confined_all (hev.allGiven.flows body))

theorem balanced_runFor (init : List Stmt) (c : Option Expr) (update : List Expr) (body : Stmt) (rounds : Nat) :
    (ev.runFor init c update body rounds).Balanced :=
  Woven.balanced (Discipline.runFor (w := ()) (fun s _ => hev.allGiven.flows s)
    (fun e _ => hev.allGiven.evaluates e) (fun e _ => hev.allGiven.evaluates e) (hev.allGiven.flows body)
    (fun _ => Woven.given (hev.allGiven.spent _)) rounds)

theorem balanced_stmtStep (rounds : Nat) (s : Stmt) : (ev.stmtStep rounds s).Balanced :=
  (hev.allGiven.stmtStep rounds s).balanced

end Evaluator

/-- Evaluation with any allowance is balanced. -/
theorem balanced_evaluator (allowance : Nat) : (evaluator allowance).Balanced := by
  induction allowance with
  | zero => exact ⟨fun _ => Exec.balanced_throw trivial, fun _ => Exec.balanced_throw trivial⟩
  | succ allowance ih =>
    -- the parts of an expression or a statement run with the smaller allowance
    exact ⟨fun e => (ih.allGiven.exprStep e).balanced, fun s => Evaluator.balanced_stmtStep ih allowance s⟩

/-! ## Confined evaluation

What is woven from failures keeps a confined machine confined (`Woven.confines`). Evaluation is woven in this way: for
the set of all frames as it is, and for any set of frames if `this` and `super` are refused
(`Evaluator.Threaded.restrained`). -/

variable {α : Type} {P : α → Prop} {x : ι → Exec α} {F : Failure → Prop}

/-- A family all of whose members throw the same failure. -/
def Thrown {ι : Type} (F : Failure → Prop) (α : Type) (_ : α → Prop) (x : ι → Exec α) : Prop :=
  ∃ f, F f ∧ x = fun _ => throw f

theorem Thrown.failIn {G : Files → Failure → Prop} (hF : ∀ files f, F f → G files f)
    (hx : Thrown F α P x) : FailIn ok G α P x := by
  obtain ⟨f, hf, rfl⟩ := hx
  exact fun _ m hm => ⟨.refl m, hm, hF m.files f hf⟩

/-- **A woven computation keeps a confined machine confined.** -/
theorem Woven.confines {C : Culprit → Prop} {b : Bool} (hx : Woven ok C (Thrown F) b P x) :
    FailIn ok (fun _ _ => True) α P x :=
  hx.failIn (Failure.kind_any C) (Thrown.failIn fun _ _ _ => trivial)

/-! ## Evaluation is woven -/

/-- Evaluation of expressions and statements is woven from failures. -/
structure Evaluator.Threaded (ok : Bounds) (C : Culprit → Prop) (F : Failure → Prop) (ev : Evaluator) :
    Prop where
  expr : ∀ e, Woven ok C (Thrown F) true (·.Confined ok) fun _ : Unit => ev.expr e
  stmt : ∀ s, Woven ok C (Thrown F) true (·.Confined ok) fun _ : Unit => ev.stmt s

/-- All that can be blamed for the failure of what is not refused is among the culprits, and so is everything if
texts are not refused. -/
structure Restraint.Admits (R : Restraint) (C : Culprit → Prop) : Prop where
  exprs : ∀ e, R.expr e = false → ∀ e' ∈ e.subs, C (.construct e'.span e'.describe)
  texts : ∀ e, R.expr e = false → e.runsText = true → ∀ k, C k
  stmts : ∀ s, R.stmt s = false → ∀ e ∈ s.exprs, C (.construct e.span e.describe)
  constructs : ∀ s, R.stmt s = false → ∀ k ∈ s.constructs, C (.construct k.1 k.2)

namespace Evaluator.Threaded

variable {ev : Evaluator}

theorem spent (hF : F (.stopped .exhausted)) : (Evaluator.spent).Threaded ok C F :=
  ⟨fun _ => .given ⟨_, hF, rfl⟩, fun _ => .given ⟨_, hF, rfl⟩⟩

theorem runCall (hev : ev.Threaded ok C F) (method : ScriptMethod) (types : List (Option ValueType))
    {args : List Value} (hargs : AllConfined ok args) :
    Woven ok C (Thrown F) true (·.Confined ok) fun _ : Unit => ev.runCall method types args :=
  Discipline.runCall (D := weaving ok C (Thrown F)) (w := ()) method types hargs fun s _ _ => hev.stmt s

theorem calls (hev : ev.Threaded ok C F) : (weaving ok C (Thrown F)).Calls fun _ : Unit => ev :=
  fun _ method _ hargs => Discipline.invokeScripted method hargs fun _ types hargs => hev.runCall method types hargs

/-- **One step of evaluation is woven under any restraint that refuses `this` and `super`**, and under any
restraint at all when all frames are in the set. -/
theorem restrained (hev : ev.Threaded ok C F) {R : Restraint} (hC : R.Admits C) (n : Nat) (hf : F R.failure)
    (hspent : F (.stopped .exhausted))
    (hR : (∀ id, ok.frame id) ∨ ∀ span, R.expr (.this span) = true ∧ R.expr (.super span) = true) :
    (ev.restrained R ev n).Threaded ok C F := by
  refine ⟨fun e => .ite (fun _ => .given ⟨_, hf, rfl⟩) fun he => ?_,
    fun s => .ite (fun _ => .given ⟨_, hf, rfl⟩) fun hs => ?_⟩
  · have hadmitted := hC.exprs e (Bool.eq_false_iff.2 he)
    refine .locating ?_ (hadmitted e e.mem_subs)
    refine Discipline.exprFormWith (w := ()) hev.calls e (fun e' he' => ⟨hadmitted e' ?_, fun _ => hev.expr e'⟩)
      (fun span hthis => ?_) (fun span hsuper => ?_)
      fun htexts => ⟨hC.texts e (Bool.eq_false_iff.2 he) htexts, fun s _ => hev.stmt s⟩
    · rw [e.subs_eq]
      exact List.mem_cons_of_mem _ he'
    · rcases hR with hall | hR
      · exact Discipline.thisObject _ hall
      · subst hthis
        exact absurd (hR span).1 he
    · rcases hR with hall | hR
      · exact Discipline.outerObject _ hall
      · subst hsuper
        exact absurd (hR span).2 he
  · have hs := Bool.eq_false_iff.2 hs
    exact Discipline.anyStep (D := weaving ok C (Thrown F)) (w := ())
      (fun e he => ⟨hC.stmts s hs e he, fun _ => hev.expr e⟩) (fun s' _ _ => hev.stmt s') n
      (hC.constructs s hs) fun _ => Woven.given ⟨_, hspent, rfl⟩

end Evaluator.Threaded

theorem Restraint.admits_all (R : Restraint) : R.Admits fun _ => True :=
  ⟨fun _ _ _ _ => trivial, fun _ _ _ _ => trivial, fun _ _ _ _ => trivial, fun _ _ _ _ => trivial⟩

/-- Evaluation is woven for the set of all frames. -/
theorem threaded_evaluator (code : HostStep → Action → Prop) (n : Nat) :
    (evaluator n).Threaded (.hosting code) (fun _ => True) (· = .stopped .exhausted) := by
  induction n with
  | zero => exact .spent rfl
  | succ n ih =>
    rw [evaluator_succ n (.stopped .exhausted)]
    exact ih.restrained (Restraint.admits_all _) n rfl rfl (.inl fun _ => trivial)

end HostScript
