import HostScript.Proofs.WovenEvaluation

/-!
# Scripted methods are scoped lexically

A computation is stackwise when two runs of it, on stacks with the same frame on top, end alike and leave
their stacks as they were; if it does not ask for the frame being evaluated in, on any two stacks. Woven
computations are stackwise (`Woven.stackwise`): a fresh frame or a fresh stack hides what is below it. So a
scripted method does not see its caller (`scripted_call_ignores_caller`).
-/

set_option autoImplicit false

namespace HostScript

variable {ι : Type} {ok : Bounds} {C : Culprit → Prop}

namespace Exec

variable {α β : Type} {b : Bool} {P Q : α → Prop} {x : Exec α}

/-! ## Two runs -/

/-- Runs from a confined machine end alike on any two stacks, which they leave as they were; if the frame
being evaluated in may be asked for, the stacks must have the same frame on top. -/
structure Stackwise (ok : Bounds) (b : Bool) (P : α → Prop) (x : Exec α) : Prop where
  ends : ∀ m : Machine, m.Confined ok → EndsIn ok (fun _ _ => True) P m (x m)
  same : ∀ (m : Machine) (S S' : List ScopeId), m.Confined ok → (b = true → S.head? = S'.head?) →
    x (m.onto S') = mapEnd (·.onto S') (x (m.onto S))

theorem Stackwise.keepsStack (hx : Stackwise ok b P x) {m : Machine} (hm : m.Confined ok) :
    KeepsStack x m :=
  hx.same m m.stack m.stack hm fun _ => rfl

theorem Local.stackwise (hx : Local ok P x) : Stackwise ok b P x := by
  refine ⟨fun m hm => (hx.ends m hm).imp (fun _ h => h) fun _ _ => trivial, fun m S S' hm _ => ?_⟩
  rw [hx.free m S hm, hx.free m S' hm, mapEnd_mapEnd]
  rfl

theorem Plain.stackwise (hx : Plain ok P x) : Stackwise ok b P x := hx.toLocal.stackwise

theorem stackwise_throw (f : Failure) : Stackwise ok b P (throw f : Exec α) :=
  ⟨fun m hm => ⟨.refl m, hm, trivial⟩, fun _ _ _ _ _ => rfl⟩

theorem stackwise_scope : Stackwise ok true (fun _ => True) scope := by
  refine ⟨fun m hm => ?_, fun m S S' _ htop => ?_⟩
  · have hscope : Woven ok (fun _ => True) (Thrown fun _ => True) true (fun _ => True) fun _ : Unit => scope := .scope
    exact hscope.confines () m hm
  have htop := htop rfl
  cases S with
  | nil =>
    cases S' with
    | nil => rfl
    | cons id' rest' => exact absurd htop.symm (by simp)
  | cons id rest =>
    cases S' with
    | nil => exact absurd htop (by simp)
    | cons id' rest' =>
      rw [List.head?_cons, List.head?_cons] at htop
      cases Option.some.inj htop
      rfl

namespace Stackwise

variable {clean : Machine → Machine}

/-- What ends alike on any two stacks does so on two stacks with the same frame on top. -/
theorem widen (hx : Stackwise ok false P x) : Stackwise ok b P x :=
  ⟨hx.ends, fun m S S' hm _ => hx.same m S S' hm fun h => absurd h Bool.false_ne_true⟩

theorem imp (hx : Stackwise ok b P x) (h : ∀ a, P a → Q a) : Stackwise ok b Q x :=
  ⟨fun m hm => (hx.ends m hm).imp h fun _ hf => hf, hx.same⟩

theorem bind {Q : β → Prop} {f : α → Exec β} (hx : Stackwise ok b P x)
    (hf : ∀ a, P a → Stackwise ok b Q (f a)) : Stackwise ok b Q (x >>= f) := by
  refine ⟨fun m hm => (hx.ends m hm).bind fun a m' ha _ hm' => (hf a ha).ends m' hm', fun m S S' hm htop => ?_⟩
  have hkept := hx.keepsStack (hm.onto S)
  have hends := hx.ends (m.onto S) (hm.onto S)
  show EStateM.bind x f (m.onto S') = mapEnd _ (EStateM.bind x f (m.onto S))
  unfold EStateM.bind
  rw [hx.same m S S' hm htop]
  unfold KeepsStack at hkept
  cases hr : x (m.onto S) with
  | error e m' => rfl
  | ok a m' =>
    -- the second computation starts on the stack that the first one started on
    rw [hr] at hends hkept
    injection hkept with _ hkept
    have hsame := (hf a hends.2.2).same m' S S' hends.2.1 htop
    rw [← (show m' = m'.onto S from hkept)] at hsame
    exact hsame

theorem get {Q : β → Prop} {f : Machine → Exec β} (hfree : ∀ m S, f (m.onto S) = f m)
    (hf : ∀ m : Machine, m.Confined ok → Stackwise ok b Q (f m)) :
    Stackwise ok b Q (MonadState.get >>= f) := by
  refine ⟨fun m hm => (hf m hm).ends m hm, fun m S S' hm htop => ?_⟩
  show f (m.onto S') (m.onto S') = mapEnd _ (f (m.onto S) (m.onto S))
  rw [hfree, hfree]
  exact (hf m hm).same m S S' hm htop

/-- What is around a stackwise computation keeps machines confined. -/
theorem around {y : Exec α} (hx : Stackwise ok b P x)
    (hy : Around (fun _ => True) (fun _ : Unit => x) fun _ => y) (m : Machine) (hm : m.Confined ok) :
    EndsIn ok (fun _ _ => True) P m (y m) :=
  hy.endsIn (i := ()) (fun _ => trivial) (fun _ hf => hf) hx.ends hm

theorem onFailure (hx : Stackwise ok b P x) (hc : Machine.Ebbing clean) :
    Stackwise ok b P (onFailure x clean) := by
  refine ⟨hx.around (around_onFailure _ hc), fun m S S' hm htop => ?_⟩
  unfold Exec.onFailure
  rw [hx.same m S S' hm htop]
  cases x (m.onto S) with
  | ok a m' => rfl
  | error e m' => exact congrArg (EStateM.Result.error e) ((change_of_ebbing hc : Change ok clean).free m' S')

theorem afterwards (hx : Stackwise ok b P x) (hc : Machine.Ebbing clean) :
    Stackwise ok b P (afterwards x clean) := by
  refine ⟨hx.around (around_afterwards _ hc), fun m S S' hm htop => ?_⟩
  rw [afterwards_eq, afterwards_eq, hx.same m S S' hm htop]
  cases x (m.onto S) with
  | ok a m' => exact congrArg (EStateM.Result.ok a) ((change_of_ebbing hc : Change ok clean).free m' S')
  | error e m' => exact congrArg (EStateM.Result.error e) ((change_of_ebbing hc : Change ok clean).free m' S')

theorem mapFailure {C : Culprit → Prop} {f : Failure → Failure} (hx : Stackwise ok b P x) (hf : Running C f) :
    Stackwise ok b P (mapFailure x f) := by
  refine ⟨fun m => (around_mapFailure (fun _ : Unit => x) hf).endsIn (i := ()) (fun _ => trivial) (fun _ h => h)
    hx.ends,
    fun m S S' hm htop => ?_⟩
  unfold Exec.mapFailure
  rw [hx.same m S S' hm htop]
  cases x (m.onto S) <;> rfl

theorem attempt (hx : Stackwise ok b P x) :
    Stackwise ok b (fun r => ∀ a, r = .ok a → P a) (attempt x) := by
  refine ⟨fun m hm => (hx.ends m hm).attempt, fun m S S' hm htop => ?_⟩
  unfold Exec.attempt
  rw [hx.same m S S' hm htop]
  cases x (m.onto S) with
  | ok a m' => rfl
  | error e m' => cases e <;> rfl

/-- In a fresh frame, all stacks have the same frame on top. -/
theorem inFrame (hx : Stackwise ok true P x) (name : String) (kind : FrameKind) (parent : ScopeId)
    (discard : α → Machine → Machine) : Stackwise ok b P (inFrame name kind parent x discard) := by
  refine ⟨hx.around (around_inFrame _ name kind parent discard), fun m S S' hm _ => ?_⟩
  have hplain : PlainStep ok (makeFrame name kind (some parent)) := plain_makeFrame name kind _
  have hends := hplain.ends m hm
  have hmake := fun S => hplain.free m S hm
  cases hr : makeFrame name kind (some parent) m with
  | error e m1 => cases hr
  | ok id m1 =>
    rw [hr] at hends hmake
    have hfree := fun S => inFrame_eq_leave discard (hmake S)
      (hx.keepsStack ((hends.2.1.onto S).onto (id :: S)))
    have hsame := hx.same m1 (id :: S) (id :: S') hends.2.1 fun _ => rfl
    rw [hfree S, hfree S']
    show mapEnd _ (x (m1.onto (id :: S'))) = mapEnd _ (mapEnd _ (x (m1.onto (id :: S))))
    rw [hsame]
    cases x (m1.onto (id :: S)) <;> rfl

/-- On a stack of its own, a computation does not see the one below. -/
theorem onStack (hx : Stackwise ok true P x) (stack : List ScopeId) :
    Stackwise ok b P (onStack stack x) := by
  refine ⟨hx.around (around_onStack _ stack), fun m S S' _ _ => ?_⟩
  rw [onStack_eq, onStack_eq, mapEnd_mapEnd]
  rfl

theorem deeper (hx : Stackwise ok b P x) (name : String) (args : List Value) :
    Stackwise ok b P (deeper name args x) := by
  refine ⟨hx.around (around_deeper _ name args), fun m S S' hm htop => ?_⟩
  by_cases h : m.config.maxDepth ≤ m.depth
  · have hdrop : Change ok (·.dropAll args) := change_of_ebbing (Machine.ebbing_dropAll args)
    rw [deeper_of_le (m := m.onto S') h, deeper_of_le (m := m.onto S) h, hdrop.free, hdrop.free]
    rfl
  · have hsame := hx.same { m with depth := m.depth + 1 } S S' (hm.congr rfl rfl) htop
    rw [deeper_of_lt (m := m.onto S') (Nat.lt_of_not_le h), deeper_of_lt (m := m.onto S) (Nat.lt_of_not_le h)]
    show mapEnd _ (x (Machine.onto { m with depth := m.depth + 1 } S')) = _
    rw [hsame, mapEnd_mapEnd, mapEnd_mapEnd]
    rfl

theorem steadily {P : Flow → Prop} {x : Exec Flow} (hx : Stackwise ok b P x) :
    Stackwise ok b P (steadily x) := by
  refine ⟨hx.around (around_steadily _), fun m S S' hm htop => ?_⟩
  rw [steadily_eq_self (hx.keepsStack (hm.onto S)), steadily_eq_self (hx.keepsStack (hm.onto S'))]
  exact hx.same m S S' hm htop

/-- What does not ask for the frame being evaluated in needs no stack of its own. -/
theorem onStack_eq_self (hx : Stackwise ok false P x) (stack : List ScopeId) {m : Machine}
    (hm : m.Confined ok) : Exec.onStack stack x m = x m := by
  have hsame : x m = mapEnd (·.onto m.stack) (x (m.onto stack)) :=
    hx.same m stack m.stack hm fun h => absurd h Bool.false_ne_true
  rw [hsame, onStack_eq]

end Stackwise

end Exec

open Exec

/-! ## Texts -/

theorem Evaluator.around_evalLabelled (ev : ι → Evaluator) (text : String) (scope : ScopeId)
    (label : Option String) :
    Around C (fun i => (ev i).runText text label) fun i => (ev i).evalLabelled text scope label :=
  fun m => .inr ⟨_, mapEnd (·.onto m.stack), .onto (if m.stack.head? != some scope then scope :: m.stack else m.stack),
    id, outward_mapEnd (fun _ => .offStack) fun _ => ⟨rfl, rfl, rfl, rfl, .refl _⟩, fun _ h => evalLabelled_eq rfl h⟩

/-! ## Woven computations -/

/-- Host code does not see the stack that it is called on. -/
theorem stackwise_hostRules : HostRules ok fun P (x : ι → Exec _) => ∀ i, Stackwise ok false P (x i) := by
  refine ⟨?_, ?_, ?_, ?_, ?_, ?_⟩
  · exact fun hx _ => hx.stackwise
  · exact fun _ _ _ => stackwise_throw _
  · exact fun hx hf i => (hx i).bind fun a ha => hf a ha i
  · exact fun hfree hf i => .get (hfree i) fun m hm => hf m hm i
  · exact fun hx hc i => (hx i).afterwards hc
  · exact fun hx i => (hx i).attempt

/-- **A woven computation is stackwise.** -/
theorem Woven.stackwise {F : Failure → Prop} {b : Bool} {α : Type} {P : α → Prop} {x : ι → Exec α}
    (hx : Woven ok C (Thrown F) b P x) : ∀ i, Stackwise ok b P (x i) := by
  induction hx with
  | given hx =>
    obtain ⟨f, -, rfl⟩ := hx
    exact fun _ => stackwise_throw f
  | plain hx => exact fun _ => hx.stackwise
  | scope => exact fun _ => stackwise_scope
  | unread => exact fun _ => stackwise_throw _
  | perform h _ ih => exact fun i => (stackwise_hostRules.perform ih h i).widen
  | imp _ h ih => exact fun i => (ih i).imp h
  | bind _ _ ihx ihf => exact fun i => (ihx i).bind fun a ha => ihf a ha i
  | get hfree _ ih => exact fun i => .get (hfree i) fun m hm => ih m hm i
  | onFailure _ hc ih => exact fun i => (ih i).onFailure hc
  | afterwards _ hc ih => exact fun i => (ih i).afterwards hc
  | mapFailure _ hf ih => exact fun i => (ih i).mapFailure hf
  | inFrame name kind parent _ _ ih => exact fun i => (ih i).inFrame name kind parent _
  | onStack stack _ ih => exact fun i => (ih i).onStack stack
  | deeper name args _ ih => exact fun i => (ih i).deeper name args
  | steadily _ ih => exact fun i => (ih i).steadily

/-! ## Calls -/

/-- The call that a handler of an adapter stands for, made by a script with copies of the arguments. -/
def Evaluator.callHandler (ev : Evaluator) (cell : Nat) (a : Adapter) (method : String)
    (args : List Value) : Handler → Exec Value
  | .named target => do
    let args ← copyAll args
    ev.invokeScripted target args
  | .generic target => do
    let args ← copyAll args
    ev.invokeGeneric target method args
  | .identity call => return identityValue cell a args call
  | .missing => fault (.notImplemented method args.length a.label)

theorem Evaluator.callAdapter_eq (ev : Evaluator) (cell : Nat) (a : Adapter) (method : String)
    (args : List Value) : ev.callAdapter cell a method args = (do
      let handler ← handlerFor cell a method args.length
      let value ← onStack [a.scope] (ev.callHandler cell a method args handler)
      if value.isVoid || value.isNull then return none else return some value) := by
  refine congrArg (handlerFor cell a method args.length >>= ·) (funext fun handler => ?_)
  cases handler <;> rfl

theorem stackwise_invokeScripted (allowance : Nat) (method : ScriptMethod) (args : List Value) :
    Stackwise .all false (·.Confined .all) ((evaluator allowance).invokeScripted method args) :=
  Woven.stackwise ((threaded_evaluator (fun _ _ => True) allowance).calls () method args fun v _ => v.confined_all) ()

theorem stackwise_callHandler (allowance cell : Nat) (a : Adapter) (method : String)
    (args : List Value) (handler : Handler) :
    Stackwise .all false (·.Confined .all)
      ((evaluator allowance).callHandler cell a method args handler) := by
  have hcalls := (threaded_evaluator (fun _ _ => True) allowance).calls
  have hcopy : Plain .all (AllConfined .all) (copyAll args) :=
    plain_copyAll fun v _ => v.confined_all
  cases handler with
  | named target =>
    exact hcopy.stackwise.bind fun args _ => stackwise_invokeScripted allowance target args
  | generic target =>
    exact hcopy.stackwise.bind fun args hargs =>
      Woven.stackwise (Discipline.invokeGeneric (w := ()) hcalls target method hargs) ()
  | identity call => exact (plain_pure (identityValue cell a args call).confined_all).stackwise
  | missing => exact (plain_fault _).stackwise

/-- **A scripted method does not see its caller.** Called with the same arguments in the same machine on
any stack, it ends with the same value or failure in the same machine, and the stack is as it was. So a
call through an adapter is the same call made by a script, although it runs on a stack of its own. -/
theorem scripted_call_ignores_caller (allowance : Nat) :
    (∀ (method : ScriptMethod) (args : List Value) (m : Machine),
      ∃ outcome, ∀ stack, (evaluator allowance).invokeScripted method args (m.onto stack) =
        mapEnd (·.onto stack) outcome) ∧
    ∀ (cell : Nat) (a : Adapter) (name : String) (args : List Value),
      (evaluator allowance).callAdapter cell a name args = do
        let handler ← handlerFor cell a name args.length
        let value ← (evaluator allowance).callHandler cell a name args handler
        if value.isVoid || value.isNull then return none else return some value := by
  refine ⟨fun method args m => ⟨(evaluator allowance).invokeScripted method args m, fun stack => ?_⟩,
    fun cell a name args => ?_⟩
  · exact (stackwise_invokeScripted allowance method args).same m m.stack stack (.all m)
      fun h => absurd h Bool.false_ne_true
  · have hstack : ∀ handler,
        onStack [a.scope] ((evaluator allowance).callHandler cell a name args handler) =
          (evaluator allowance).callHandler cell a name args handler :=
      fun handler => funext fun m =>
        (stackwise_callHandler allowance cell a name args handler).onStack_eq_self _ (.all m)
    simp only [Evaluator.callAdapter_eq, hstack]

end HostScript
