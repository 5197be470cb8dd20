import HostScript.Proofs.PlainSteps

/-!
# What is around a computation

Most combinators of the evaluator run one computation, in a machine that they prepare, and pass on its end:
the result as it is, the failure with what is known about its place, and the machine with something taken
away. `Around` says this once for all of them.
-/

set_option autoImplicit false

namespace HostScript

variable {m m0 : Machine}

/-! ## Failures on their way -/

/-- What a failure is blamed on: a construct, or a text that cannot be read. -/
inductive Culprit where
  | construct (span : Span) (node : String)
  | text (diagnostic : Diagnostic)

/-- Changes of failures on their way out: a construct is blamed for them, their text is named, or a missing
frame is put down to the reference that led to it. -/
inductive Running (C : Culprit → Prop) : (Failure → Failure) → Prop
  | same : Running C fun f => f
  | locate (span : Span) (node : Unit → String) (h : C (.construct span (node ()))) :
    Running C fun f => f.locate span (node ())
  | label (source : Option String) : Running C (·.label source)
  | dangle : Running C Failure.dangle

theorem Running.stopped {C : Culprit → Prop} {f : Failure → Failure} (hf : Running C f) (cause : Suspension) :
    f (.stopped cause) = .stopped cause := by
  cases hf <;> rfl

/-! ## Machines -/

/-- The machine with its top frame taken off the stack and released. -/
def Machine.leave (m : Machine) (id : ScopeId) : Machine :=
  { m with stack := m.stack.tail, store := m.store.release id }

/-- What is left of a machine when things have been taken away from its store. -/
structure Machine.Remains (m m' : Machine) : Prop where
  console : m'.console = m.console
  global : m'.global = m.global
  classes : m'.classes = m.classes
  journal : m'.journal = m.journal
  ebbs : m.store.Ebbs m'.store

namespace Machine.Remains

variable {m' : Machine}

theorem refl (m : Machine) : m.Remains m := ⟨rfl, rfl, rfl, rfl, .refl _⟩

theorem leave (m : Machine) (id : ScopeId) : m.Remains (m.leave id) :=
  ⟨rfl, rfl, rfl, rfl, Store.ebbs_release m.store id⟩

theorem confined {ok : Bounds} (h : m.Remains m') (hm : m.Confined ok) : m'.Confined ok :=
  (hm.ebbs h.ebbs).congr rfl h.classes

end Machine.Remains

/-- A machine that is prepared for a computation: as it is, on another stack, as one more call in flight, or in a
new frame. -/
inductive Machine.Prepared (m : Machine) : Machine → Prop
  | same : m.Prepared m
  | onto (stack : List ScopeId) : m.Prepared (m.onto stack)
  | deeper : m.Prepared { m with depth := m.depth + 1 }
  | framed (name : String) (kind : FrameKind) (parent : Option ScopeId) {id : ScopeId} {m1 : Machine}
    (h : Exec.makeFrame name kind parent m = .ok id m1) : m.Prepared (m1.onto (id :: m1.stack))

/-- Nothing has come in that was out of bounds. -/
theorem Machine.Prepared.confined (h : m.Prepared m0) {ok : Bounds} (hm : m.Confined ok) :
    m0.Confined ok := by
  cases h with
  | same => exact hm
  | onto stack => exact hm.onto stack
  | deeper => exact hm.congr rfl rfl
  | framed name kind parent h =>
    have hmade : Exec.PlainStep ok (Exec.makeFrame name kind parent) := Exec.plain_makeFrame name kind parent
    have hends := hmade.ends m hm
    rw [h] at hends
    exact hends.2.1.onto _

/-- Files, limits and classes are the same, and no call has ended. -/
theorem Machine.Prepared.limits (h : m.Prepared m0) :
    m0.files = m.files ∧ m0.config = m.config ∧ m.depth ≤ m0.depth ∧ m0.classes = m.classes := by
  cases h with
  | same => exact ⟨rfl, rfl, le_rfl, rfl⟩
  | onto stack => exact ⟨rfl, rfl, le_rfl, rfl⟩
  | deeper => exact ⟨rfl, rfl, Nat.le_succ _, rfl⟩
  | framed name kind parent h =>
    have hmade : Exec.PlainStep .all (Exec.makeFrame name kind parent) := Exec.plain_makeFrame name kind parent
    have hends := hmade.ends m (.all m)
    rw [h] at hends
    exact ⟨hends.1.files, hends.1.config, hends.1.depth.ge, hends.1.classes⟩

/-- No host code has run. -/
theorem Machine.Prepared.journal (h : m.Prepared m0) : m0.journal = m.journal := by
  cases h with
  | same => rfl
  | onto stack => rfl
  | deeper => rfl
  | framed name kind parent h =>
    have hmade : Exec.PlainStep .all (Exec.makeFrame name kind parent) := Exec.plain_makeFrame name kind parent
    have hends := hmade.ends m (.all m)
    rw [h] at hends
    exact hends.1.journal

/-- There are no more calls in flight than allowed. -/
def Machine.Allowed (m : Machine) : Prop := m.depth ≤ m.config.maxDepth

namespace Machine.Alike

variable {m' : Machine}

theorem allowed (h : m.Alike m') (hm : m.Allowed) : m'.Allowed := by
  unfold Machine.Allowed
  rw [h.config, h.depth]
  exact hm

/-- A run on another stack ends with the stack that there was before. -/
theorem offStack {stack : List ScopeId} (h : (m.onto stack).Alike m') : m.Alike (m'.onto m.stack) :=
  ⟨h.classes, h.files, h.config, h.global, h.utilities, rfl, h.depth⟩

/-- A run as one more call in flight ends with as many calls as before. -/
theorem shallower (h : Alike { m with depth := m.depth + 1 } m') :
    m.Alike { m' with depth := m'.depth - 1 } :=
  ⟨h.classes, h.files, h.config, h.global, h.utilities, h.stack, congrArg (· - 1) h.depth⟩

/-- A run in a frame ends without the frame. -/
theorem leave {id : ScopeId} (h : (m.onto (id :: m.stack)).Alike m') : m.Alike (m'.leave id) :=
  ⟨h.classes, h.files, h.config, h.global, h.utilities, congrArg List.tail h.stack, h.depth⟩

end Machine.Alike

namespace Exec

variable {α : Type} {x : Exec α} {ok : Bounds} {P : α → Prop} {C : Culprit → Prop}
  {F : Files → Failure → Prop}

/-! ## Runs that leave the stack as it was -/

/-- A run that leaves the stack as it was. -/
def KeepsStack (x : Exec α) (m : Machine) : Prop := x m = mapEnd (·.onto m.stack) (x m)

theorem mapEnd_mapEnd (f g : Machine → Machine) (r : Exec.Result α) :
    mapEnd g (mapEnd f r) = mapEnd (fun m => g (f m)) r := by
  cases r <;> rfl

theorem afterwards_eq (x : Exec α) (clean : Machine → Machine) (m : Machine) :
    afterwards x clean m = mapEnd clean (x m) := by
  unfold Exec.afterwards
  cases x m <;> rfl

/-- A frame is taken off again when the run in it leaves the stack as it was. -/
theorem inFrame_eq_leave {name : String} {kind : FrameKind} {parent id : ScopeId} {m1 : Machine}
    (discard : α → Machine → Machine) (hmake : makeFrame name kind (some parent) m = .ok id m1)
    (h : KeepsStack x (m1.onto (id :: m1.stack))) :
    inFrame name kind parent x discard m = mapEnd (·.leave id) (x (m1.onto (id :: m1.stack))) := by
  unfold KeepsStack at h
  have hpush : (modify fun m => { m with stack := id :: m.stack } : Exec PUnit) m1 =
      .ok ⟨⟩ (m1.onto (id :: m1.stack)) := rfl
  refine (bind_of_ok hmake).trans ((bind_of_ok hpush).trans ?_)
  rcases hr : x (m1.onto (id :: m1.stack)) with ⟨_, m'⟩ | ⟨_, m'⟩
  all_goals
    rw [hr] at h
    injection h with _ h
    have htop : ((m'.restack .pop).1 == some id) = true := by
      rw [h]
      exact beq_self_eq_true _
    simp only [htop]
    rfl

theorem steadily_eq_self {x : Exec Flow} (h : KeepsStack x m) : steadily x m = x m := by
  unfold KeepsStack at h
  unfold steadily
  rcases hr : x m with ⟨_, m'⟩ | ⟨_, m'⟩
  all_goals
    rw [hr] at h
    injection h with _ h
    have hlen : (m'.stack.length == m.stack.length) = true := by
      rw [h]
      exact beq_self_eq_true _
    simp only [hlen, if_true]

/-! ## Ends -/

section

theorem EndsIn.keepsStack (h : EndsIn ok F P m (x m)) : KeepsStack x m := by
  unfold KeepsStack
  rcases hr : x m with ⟨_, m'⟩ | ⟨_, m'⟩
  all_goals
    rw [hr] at h
    rw [← h.1.stack]
    rfl

theorem EndsIn.attempt (h : EndsIn ok F P m (x m)) :
    EndsIn ok F (fun r : Except String α => ∀ a, r = .ok a → P a) m (Exec.attempt x m) :=
  attempt_ends h (fun _ _ h => ⟨h.1, h.2.1, fun _ hb => Except.ok.inj hb ▸ h.2.2⟩) (fun _ _ h => h)
    fun _ _ h => ⟨h.1, h.2.1, fun _ hb => absurd hb (by simp)⟩

end

theorem EndsBalanced.keepsStack (h : EndsBalanced m (x m)) : KeepsStack x m := by
  unfold KeepsStack
  cases hr : x m with
  | ok a m' =>
    rw [hr] at h
    rw [← h.stack]
    rfl
  | error f m' =>
    rw [hr] at h
    rw [← h.1.stack]
    rfl

/-- Runs a computation in a fresh frame without a look at the stack that it leaves. -/
def inFrameUnchecked (name : String) (kind : FrameKind) (parent : ScopeId) (x : Exec α) :
    Exec α := do
  let id ← makeFrame name kind (some parent)
  modify fun m => { m with stack := id :: m.stack }
  afterwards x fun m => { m with stack := m.stack.tail, store := m.store.release id }

/-- A frame is found on top of the stack when a balanced computation in it ends. -/
theorem inFrame_eq_unchecked (hx : Balanced x) (name : String) (kind : FrameKind) (parent : ScopeId)
    (discard : α → Machine → Machine) :
    inFrame name kind parent x discard = inFrameUnchecked name kind parent x := by
  funext m
  have hmake : makeFrame name kind (some parent) m = .ok _ _ := rfl
  exact (inFrame_eq_leave discard hmake (hx _).keepsStack).trans (afterwards_eq x _ _).symm

/-- The stack is as deep as it was when a balanced computation ends. -/
theorem steadily_eq {x : Exec Flow} (hx : Balanced x) : steadily x = x :=
  funext fun m => steadily_eq_self (hx m).keepsStack

/-- A text is evaluated with its frame on top of the stack, if it is not there already. -/
theorem evalLabelled_eq {ev : Evaluator} {text : String} {label : Option String} {scope : ScopeId}
    {S : List ScopeId} (hS : S = if m.stack.head? != some scope then scope :: m.stack else m.stack)
    (h : KeepsStack (ev.runText text label) (m.onto S)) :
    ev.evalLabelled text scope label m = mapEnd (·.onto m.stack) (ev.runText text label (m.onto S)) := by
  unfold KeepsStack at h
  unfold Evaluator.evalLabelled
  cases hp : m.stack.head? != some scope with
  | false =>
    rw [hp, if_neg Bool.false_ne_true] at hS
    subst hS
    rw [show m.onto m.stack = m from rfl] at h ⊢
    simp only [Bool.false_eq_true, if_false]
    rcases hr : ev.runText text label m with ⟨_, m'⟩ | ⟨_, m'⟩
    all_goals
      rw [hr] at h
      have hstack := h
      injection hstack with _ hstack
      have hlen : (m'.stack.length == m.stack.length) = true := by
        rw [hstack]
        exact beq_self_eq_true _
      simp only [hlen, if_true]
      exact h
  | true =>
    rw [hp, if_pos rfl] at hS
    subst hS
    simp only [if_true]
    simp only [m.restack_push, Machine.restack_pop]
    rcases hr : ev.runText text label (m.onto (scope :: m.stack)) with ⟨_, m'⟩ | ⟨_, m'⟩
    all_goals
      rw [hr] at h
      injection h with _ h
      have htail : m'.stack.tail = m.stack := by
        rw [h]
        rfl
      simp only [htail, Machine.onto, beq_self_eq_true, if_true]
      rfl

/-! ## Around a run -/

/-- How the end of a run from one machine is made the end of a run from another: the result is the same, the
failure is on its way out, and what is left of the machine is like the one before. -/
structure Outward (C : Culprit → Prop) (m0 m : Machine)
    (T : Exec.Result α → Exec.Result α) : Prop where
  ok : ∀ (a : α) (m' : Machine), ∃ m'', T (.ok a m') = .ok a m'' ∧ (m0.Alike m' → m.Alike m'') ∧ m'.Remains m''
  error : ∀ (f : Failure) (m' : Machine), ∃ φ m'', Running C φ ∧ T (.error f m') = .error (φ f) m'' ∧
    (m0.Alike m' → m.Alike m'') ∧ m'.Remains m''

/-- An end at once, whatever is said about results. -/
def Refused (m : Machine) (r : Exec.Result α) : Prop :=
  ∀ (ok : Bounds) (P : α → Prop), m.Confined ok → PlainEnd ok P m r

/-- Each computation of the second family runs the one of the first family in a machine prepared for it, with no more
calls in flight than allowed if there were no more before, and passes on its end; or all of them are refused. -/
def Around (C : Culprit → Prop) {ι : Type} (x y : ι → Exec α) : Prop :=
  ∀ m : Machine, (∃ r, Refused m r ∧ ∀ i, y i m = r) ∨ ∃ m0 T, m.Prepared m0 ∧ (m.Allowed → m0.Allowed) ∧
    Outward C m0 m T ∧ ∀ i, KeepsStack (x i) m0 → y i m = T (x i m0)

theorem Outward.endsIn {T : Exec.Result α → Exec.Result α}
    (hT : Outward C m0 m T) (hm : m.Prepared m0)
    (hF : ∀ {files φ f}, Running C φ → F files f → F files (φ f)) :
    ∀ {r : Exec.Result α}, EndsIn ok F P m0 r → EndsIn ok F P m (T r) := by
  rintro (⟨a, m'⟩ | ⟨f, m'⟩) ⟨ha, hc, hr⟩
  · obtain ⟨m'', hT, halike, hremains⟩ := hT.ok a m'
    rw [hT]
    exact ⟨halike ha, hremains.confined hc, hr⟩
  · obtain ⟨φ, m'', hφ, hT, halike, hremains⟩ := hT.error f m'
    rw [hT]
    exact ⟨halike ha, hremains.confined hc, hF hφ (hm.limits.1 ▸ hr)⟩

/-- What is around computations ends as they do. -/
theorem Around.endsIn {ι : Type} {x y : ι → Exec α} (hy : Around C x y)
    (hplain : ∀ {files f}, f.Plain files → F files f)
    (hF : ∀ {files φ f}, Running C φ → F files f → F files (φ f)) {i : ι}
    (hx : ∀ m, m.Confined ok → EndsIn ok F P m (x i m)) (hm : m.Confined ok) :
    EndsIn ok F P m (y i m) := by
  rcases hy m with ⟨r, hr, hrun⟩ | ⟨m0, T, hm0, -, hT, hrun⟩
  · rw [hrun i]
    exact (hr ok P hm).endsIn.imp (fun _ h => h) fun _ => hplain
  · have hends := hx m0 (hm0.confined hm)
    rw [hrun i hends.keepsStack]
    exact hT.endsIn hm0 hF hends

/-- What a run ends with is kept, and the machine is changed. -/
theorem outward_mapEnd {g : Machine → Machine} (halike : ∀ m', m0.Alike m' → m.Alike (g m'))
    (hremains : ∀ m' : Machine, m'.Remains (g m')) :
    Outward C m0 m (mapEnd g : Exec.Result α → _) where
  ok _ m' := ⟨_, rfl, halike m', hremains m'⟩
  error _ m' := ⟨_, _, .same, rfl, halike m', hremains m'⟩

section

variable {ι : Type} (x : ι → Exec α) {clean : Machine → Machine}

theorem remains_of_ebbing (hc : Machine.Ebbing clean) (m : Machine) : m.Remains (clean m) :=
  ⟨hc.console m, (hc.alike m).global, (hc.alike m).classes, hc.journal m, hc.ebbs m⟩

theorem around_onFailure (hc : Machine.Ebbing clean) : Around C x fun i => onFailure (x i) clean := by
  refine fun m => .inr ⟨m, fun r => onFailure (fun _ => r) clean m, .same, id, ⟨fun a m' => ?_, fun f m' => ?_⟩,
    fun _ _ => rfl⟩
  · exact ⟨m', rfl, id, .refl m'⟩
  · exact ⟨_, clean m', .same, rfl, fun h => h.trans (hc.alike m'), remains_of_ebbing hc m'⟩

theorem around_afterwards (hc : Machine.Ebbing clean) : Around C x fun i => afterwards (x i) clean :=
  fun m => .inr ⟨m, mapEnd clean, .same, id,
    outward_mapEnd (fun m' h => h.trans (hc.alike m')) (remains_of_ebbing hc), fun i _ => afterwards_eq (x i) clean m⟩

theorem around_mapFailure {φ : Failure → Failure} (hφ : Running C φ) : Around C x fun i => mapFailure (x i) φ :=
  fun m => .inr ⟨m, fun r => mapFailure (fun _ => r) φ m, .same, id,
    ⟨fun _ m' => ⟨m', rfl, id, .refl m'⟩, fun _ m' => ⟨φ, m', hφ, rfl, id, .refl m'⟩⟩, fun _ _ => rfl⟩

theorem onStack_eq (stack : List ScopeId) (x : Exec α) (m : Machine) :
    onStack stack x m = mapEnd (·.onto m.stack) (x (m.onto stack)) :=
  afterwards_eq x _ (m.onto stack)

theorem around_onStack (stack : List ScopeId) : Around C x fun i => onStack stack (x i) :=
  fun m => .inr ⟨m.onto stack, mapEnd (·.onto m.stack), .onto stack, id,
    outward_mapEnd (fun _ => .offStack) fun _ => ⟨rfl, rfl, rfl, rfl, .refl _⟩, fun i _ => onStack_eq stack (x i) m⟩

theorem oneDeeper_eq (x : Exec α) (m : Machine) : oneDeeper x m =
    mapEnd (fun m' => { m' with depth := m'.depth - 1 }) (x { m with depth := m.depth + 1 }) :=
  afterwards_eq x _ { m with depth := m.depth + 1 }

theorem checkDepth_of_le (h : m.config.maxDepth ≤ m.depth) (method : String) :
    checkDepth method m = .error (.ofFault (.callDepth m.config.maxDepth method)) m := by
  show (if m.depth ≥ m.config.maxDepth then _ else _ : Exec Unit) m = _
  rw [if_pos h]
  rfl

/-- A computation as one more call in flight, unless there are as many as there may be. -/
def deeper (name : String) (args : List Value) (x : Exec α) : Exec α :=
  onFailure (checkDepth name) (·.dropAll args) >>= fun _ => oneDeeper x

theorem deeper_of_le {name : String} {args : List Value} {x : Exec α} (h : m.config.maxDepth ≤ m.depth) :
    deeper name args x m = .error (.ofFault (.callDepth m.config.maxDepth name)) (m.dropAll args) :=
  bind_of_error (onFailure_of_error (checkDepth_of_le h name))

theorem deeper_of_lt {name : String} {args : List Value} {x : Exec α} (h : m.depth < m.config.maxDepth) :
    deeper name args x m =
      mapEnd (fun m' => { m' with depth := m'.depth - 1 }) (x { m with depth := m.depth + 1 }) := by
  have hcheck : checkDepth name m = .ok () m := by
    show (if m.depth ≥ m.config.maxDepth then _ else _ : Exec Unit) m = _
    rw [if_neg (Nat.not_le.2 h)]
    rfl
  exact (bind_of_ok (onFailure_of_ok hcheck)).trans (oneDeeper_eq x m)

theorem outward_oneDeeper (m : Machine) : Outward C { m with depth := m.depth + 1 } m
    (mapEnd (fun m' => { m' with depth := m'.depth - 1 }) : Exec.Result α → _) :=
  outward_mapEnd (fun _ => .shallower) fun _ => ⟨rfl, rfl, rfl, rfl, .refl _⟩

/-- One more call is refused, or there may be one more. -/
theorem around_deeper (name : String) (args : List Value) : Around C x fun i => deeper name args (x i) := by
  intro m
  by_cases h : m.config.maxDepth ≤ m.depth
  · refine .inl ⟨_, fun ok P hm => ?_, fun i => deeper_of_le h⟩
    have hdrop : Change ok (·.dropAll args) := change_of_ebbing (Machine.ebbing_dropAll args)
    exact ⟨hdrop.calm m, hdrop.confined m hm, rfl, rfl⟩
  · exact .inr ⟨_, _, .deeper, fun _ => Nat.lt_of_not_le h, outward_oneDeeper m,
      fun i _ => deeper_of_lt (Nat.lt_of_not_le h)⟩

/-- A new frame can always be made, and is taken off again. -/
theorem around_inFrame (name : String) (kind : FrameKind) (parent : ScopeId) (discard : α → Machine → Machine) :
    Around C x fun i => inFrame name kind parent (x i) discard := by
  intro m
  have hplain : PlainStep .all (makeFrame name kind (some parent)) := plain_makeFrame name kind (some parent)
  have hmade := hplain.ends m (.all m)
  cases hmake : makeFrame name kind (some parent) m with
  | error f m1 => cases hmake
  | ok id m1 =>
    rw [hmake] at hmade
    refine .inr ⟨_, mapEnd (·.leave id), .framed name kind (some parent) hmake, ?_,
      outward_mapEnd (fun _ h => hmade.1.toAlike.trans h.leave) fun m' => .leave m' id,
      fun i hkeeps => inFrame_eq_leave discard hmake hkeeps⟩
    exact hmade.1.toAlike.allowed

theorem around_steadily (x : ι → Exec Flow) : Around C x fun i => steadily (x i) :=
  fun m => .inr ⟨m, mapEnd id, .same, id, outward_mapEnd (fun _ h => h) .refl, fun i hkeeps => by
    refine (steadily_eq_self hkeeps).trans ?_
    cases x i m <;> rfl⟩

end

/-! ## Computations that fail in one way -/

/-- Computations all of whose failures are of a kind. -/
def FailsOnly {α : Type} (F : Failure → Prop) (x : Exec α) : Prop := ∀ m f m', x m = .error f m' → F f

namespace FailsOnly

variable {β : Type} {F G : Failure → Prop} {f : α → Exec β}

theorem imp (hx : FailsOnly F x) (h : ∀ e, F e → G e) : FailsOnly G x := fun m e m' hr => h e (hx m e m' hr)

/-- Steps that always yield something. -/
theorem of_yields (h : ∀ m, ∃ a m', x m = .ok a m') : FailsOnly F x := by
  intro m e m' hr
  obtain ⟨a, m1, hok⟩ := h m
  rw [hok] at hr
  cases hr

theorem pure (a : α) : FailsOnly F (Pure.pure a : Exec α) := of_yields fun m => ⟨a, m, rfl⟩

theorem modify (change : Machine → Machine) : FailsOnly F (modify change : Exec PUnit) :=
  of_yields fun m => ⟨_, change m, rfl⟩

theorem throw {e : Failure} (h : F e) : FailsOnly F (throw e : Exec α) := by
  rintro m _ _ ⟨⟩
  exact h

/-- What comes second may rely on where its argument is from. -/
theorem bind_of (hx : FailsOnly F x) (hf : ∀ m a m', x m = .ok a m' → FailsOnly F (f a)) :
    FailsOnly F (x >>= f) := by
  intro m e m' h
  cases hr : x m with
  | ok a m1 => exact hf m a m1 hr m1 e m' ((bind_of_ok hr).symm.trans h)
  | error e1 m1 =>
    cases (bind_of_error hr).symm.trans h
    exact hx m _ _ hr

theorem bind (hx : FailsOnly F x) (hf : ∀ a, FailsOnly F (f a)) : FailsOnly F (x >>= f) :=
  hx.bind_of fun _ a _ _ => hf a

/-- A look at the machine. -/
theorem get {g : Machine → Exec β} (hg : ∀ m, FailsOnly F (g m)) : FailsOnly F (MonadState.get >>= g) :=
  bind (of_yields fun m => ⟨m, m, rfl⟩) hg

theorem mapFailure (hx : FailsOnly F x) {φ : Failure → Failure} (hφ : ∀ e, F e → G (φ e)) :
    FailsOnly G (Exec.mapFailure x φ) := by
  intro m e m' h
  unfold Exec.mapFailure at h
  split at h
  · cases h
  · next hr =>
    cases h
    exact hφ _ (hx m _ _ hr)

theorem onFailure (hx : FailsOnly F x) (clean : Machine → Machine) : FailsOnly F (Exec.onFailure x clean) := by
  intro m e m' h
  unfold Exec.onFailure at h
  split at h
  · cases h
  · next hr =>
    cases h
    exact hx m _ _ hr

theorem afterwards (hx : FailsOnly F x) (clean : Machine → Machine) : FailsOnly F (Exec.afterwards x clean) := by
  intro m e m' h
  unfold Exec.afterwards at h
  split at h
  · cases h
  · next hr =>
    cases h
    exact hx m _ _ hr

theorem inFrame (hx : FailsOnly F x) (hF : ∀ cause, F (.broken cause)) (name : String) (kind : FrameKind)
    (parent : ScopeId) (discard : α → Machine → Machine) :
    FailsOnly F (Exec.inFrame name kind parent x discard) := by
  refine .bind (.of_yields fun m => ⟨_, _, rfl⟩) fun id => .bind (.of_yields fun m => ⟨_, _, rfl⟩) fun _ => ?_
  intro m e m' h
  dsimp only at h
  split at h
  · split at h <;> cases h
    exact hF _
  · next hr =>
    split at h <;> cases h
    · exact hx m _ _ hr
    · exact hF _

theorem steadily {x : Exec Flow} (hx : FailsOnly F x) (hF : ∀ cause, F (.broken cause)) :
    FailsOnly F (Exec.steadily x) := by
  intro m e m' h
  dsimp only [Exec.steadily] at h
  split at h
  · split at h <;> cases h
    exact hF _
  · next hr =>
    split at h <;> cases h
    · exact hx m _ _ hr
    · exact hF _

end FailsOnly

end Exec

end HostScript
