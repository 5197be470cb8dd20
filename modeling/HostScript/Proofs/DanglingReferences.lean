import HostScript.Proofs.SafeSessions

/-!
# References whose frame is gone

A reference to a variable names a frame and does not keep it. It is good as long as the frame is kept that
the variable was looked up from (`live_of_referenceTo`). A member of a temporary, or of an object that the
right-hand side unbinds, may be looked up from a frame that nobody keeps: using the reference then fails
internally, exactly when the frame is gone (`read_dangles_iff`, `assignment_dangles_iff`). In every session
this is the only internal failure, if the host keeps the namespace in which it evaluates
(`internal_failures_dangle`).
-/

set_option autoImplicit false

namespace HostScript

open Machine Exec

variable {m m1 m2 : Machine} {r : Multiset Claim} {id scope : ScopeId} {name : String} {v : Value}
  {ev : Evaluator}

namespace Exec

variable {α : Type} {x : Exec α} {a : α} {e : Failure}

theorem unlessFailed_of_ok (h : x m = .ok a m1) : unlessFailed v x m = .ok a m1 := onFailure_of_ok h

theorem unlessFailed_of_error (h : x m = .error e m1) : unlessFailed v x m = .error e (m1.drop v) :=
  onFailure_of_error h

end Exec

/-! ## Frames that are there -/

theorem throughFrame_of_live {f : Frame} (hf : m.settle.store.arena.frame? id = some f) :
    throughReference (frame id) m = .ok f m.settle := by
  unfold throughReference mapFailure frame look
  simp only [hf]

theorem throughFrame_of_not_live (hn : ¬ m.settle.store.arena.Live id) :
    throughReference (frame id) m = .error (.broken (.danglingReference id)) m.settle := by
  unfold throughReference mapFailure frame look
  simp only [Arena.not_live_iff.1 hn]
  rfl

/-- Copies of a value queue no release. -/
theorem dropped_retain (m : Machine) (v : Value) :
    (m.retain v).store.arena.dropped = m.store.arena.dropped := by
  unfold Machine.retain
  cases v.claim? with
  | none => rfl
  | some k =>
    cases k with
    | cell n => rfl
    | frame id =>
      show (m.store.arena.retain id).dropped = _
      unfold Arena.retain
      cases m.store.arena.frame? id <;> rfl

theorem live_retain (m : Machine) (v : Value) (hl : m.store.arena.Live id) :
    (m.retain v).store.arena.Live id := by
  unfold Machine.retain
  cases v.claim? with
  | none => exact hl
  | some k => exact Store.Holds.retain (k := .frame id) hl

namespace Evaluator

variable (ev : Evaluator)

/-! ## Using a reference -/

theorem read_dangles_iff (m : Machine) (id : ScopeId) (name : String) :
    (∃ m', ev.read (.variable id name) m = .error (.broken (.danglingReference id)) m') ↔
      ¬ m.settle.store.arena.Live id := by
  by_cases hl : m.settle.store.arena.Live id
  · obtain ⟨f, hf⟩ := Arena.live_iff.1 hl
    refine iff_of_false ?_ fun hn => hn hl
    rintro ⟨m', hm'⟩
    -- the frame is there: a value, or a fault of the script
    have hread : ev.read (.variable id name) m = _ := bind_of_ok (throughFrame_of_live hf)
    rw [hread] at hm'
    cases hv : f.vars.get? name with
    | none =>
      simp only [hv] at hm'
      cases hm'
    | some v =>
      simp only [hv] at hm'
      cases hm'
  · refine iff_of_true ⟨m.settle, ?_⟩ hl
    exact bind_of_error (throughFrame_of_not_live hl)

theorem assign_of_not_live (hn : ¬ m.settle.store.arena.Live id) :
    ∃ m', ev.assign (.variable id name) v m = .error (.broken (.danglingReference id)) m' :=
  ⟨_, bind_of_error (unlessFailed_of_error (throughFrame_of_not_live hn))⟩

/-- A variable without a declared type is written if its frame is there: the copy that is made for it
frees nothing. -/
theorem assign_of_live (h : m.Ready v.claims r) {f : Frame} (hf : m.settle.store.arena.frame? id = some f)
    (hd : (f.vars.get? name).bind Variable.declared = none) :
    ∃ m', ev.assign (.variable id name) v m = .ok v m' := by
  obtain ⟨hs, hq⟩ := h.settle
  have hcopy := hs.ready.retain fun k hk => hs.ready.holds_owned hk
  -- the copy queues nothing, so the write finds the frame that the first look found
  have hsettled : (m.settle.retain v).settle = m.settle.retain v :=
    settle_of_settled (by rw [dropped_retain, hq])
  have hlive : (m.settle.retain v).settle.store.arena.Live id := by
    rw [hsettled]
    exact live_retain _ _ (Arena.live_of_frame? hf)
  obtain ⟨a, m', hr, -⟩ := changeFrame_of_live hcopy.ready hlive (accounts_define id name v none _)
  have hstored : (pure v : Exec Value) m.settle = .ok v m.settle := rfl
  have hkept : copy v m.settle = .ok v (m.settle.retain v) := rfl
  have hdefined : unlessFailed v (throughReference (define id name v none)) (m.settle.retain v) =
      .ok () m' := by
    refine unlessFailed_of_ok ?_
    unfold throughReference mapFailure define
    rw [unlessFailed_of_ok hr]
  refine ⟨m', (bind_of_ok (unlessFailed_of_ok (throughFrame_of_live hf))).trans ?_⟩
  rw [hd]
  refine (bind_of_ok hstored).trans ?_
  exact (bind_of_ok hkept).trans (bind_of_ok hdefined)

/-- What an assignment to a variable does once its right-hand side has a value. -/
theorem assignment_eq_assign {target value : Expr}
    (hr : ev.reference target m = .ok (.variable id name) m1) (hv : ev.expr value m1 = .ok v m2) :
    ev.assignment target none value m = ev.assign (.variable id name) v m2 := by
  have hstored : (do
      let v ← ev.expr value
      ev.assign (.variable id name) v) m1 = ev.assign (.variable id name) v m2 := bind_of_ok hv
  refine (bind_of_ok hr).trans ?_
  show afterwards (do
    let v ← ev.expr value
    ev.assign (.variable id name) v) (dropReference (.variable id name)) m1 = _
  unfold afterwards
  rw [hstored]
  cases ev.assign (.variable id name) v m2 <;> rfl

end Evaluator

/-- **An assignment fails internally exactly when the frame of its target is gone.** The right-hand side
has been evaluated by then, and a temporary that the target was found in has been dropped. -/
theorem assignment_dangles_iff (hev : ev.Safe) (h : m.Ready 0 r) {target value : Expr}
    (hr : ev.reference target m = .ok (.variable id name) m1) (hv : ev.expr value m1 = .ok v m2)
    (hd : ∀ f, m2.settle.store.arena.frame? id = some f →
      (f.vars.get? name).bind Variable.declared = none) :
    (∃ m', ev.assignment target none value m = .error (.broken (.danglingReference id)) m') ↔
      ¬ m2.settle.store.arena.Live id := by
  rw [ev.assignment_eq_assign hr hv]
  refine ⟨fun ⟨m', hm'⟩ hl => ?_, fun hn => ev.assign_of_not_live hn⟩
  have h1 : m1.Ready 0 r := (Evaluator.ends_reference hev target h).ok hr |>.1.ready
  have h2 := ((hev.expr value h1).ok hv).1.ready
  obtain ⟨f, hf⟩ := Arena.live_iff.1 hl
  obtain ⟨m'', hstored⟩ := ev.assign_of_live h2 hf (hd f hf)
  rw [hstored] at hm'
  cases hm'

/-- A variable that was found from a kept frame is there whatever is evaluated in the meantime. -/
theorem live_of_referenceTo (hev : ev.Safe) (h : m.Ready 0 r) (hs : m.store.Pinned r scope)
    (hr : referenceTo scope name m = .ok (.variable id name) m1) (e : Expr) :
    ((ev.expr e).after m1).settle.store.arena.Live id := by
  obtain ⟨hl1, hrests⟩ := (ends_referenceTo name h hs).ok hr
  -- however the evaluation ends, what is pinned stays pinned
  have hafter : ∃ o, m1.Leaves r o ((ev.expr e).after m1) := by
    have hends := hev.expr e hl1.ready
    unfold Exec.after
    cases hx : ev.expr e m1 with
    | ok w m2 => exact ⟨_, (hends.ok hx).1⟩
    | error f m2 => exact ⟨_, (hends.error hx).1⟩
  obtain ⟨o, hl2⟩ := hafter
  have hs3 := hl2.ready.settle.1
  exact hs3.ready.live (hs3.pinned (hl2.pinned hrests))

theorem chain_of_not_live {a : Arena} (hn : ¬ a.Live scope) : a.chain scope = .error scope := by
  unfold Arena.chain Arena.chainFrom
  rw [Arena.not_live_iff.1 hn]

/-- Once the frame of the current namespace is gone, no name can be evaluated in it. -/
theorem name_of_not_live (allowance : Nat) (span : Span) (hs : m.stack.head? = some scope)
    (hn : ¬ m.settle.store.arena.Live scope) :
    ∃ m', evalExpr (allowance + 1) (.name span name) m = .error (.broken (.staleFrame scope)) m' := by
  have hscope : Exec.scope m = .ok scope m := by
    cases hst : m.stack with
    | nil => simp [hst] at hs
    | cons top rest =>
      have htop : top = scope := by simpa [hst] using hs
      refine (get_bind m).trans ?_
      rw [hst, htop]
      rfl
  have hvalue : (evaluator allowance).valueOf? scope name m =
      .error (.broken (.staleFrame scope)) m.settle := by
    refine (get_bind m).trans (bind_of_error (look_of_error ?_))
    rw [chain_of_not_live hn]
    rfl
  refine ⟨m.settle, ?_⟩
  rw [evalExpr]
  have hform : (evaluator allowance).exprForm (.name span name) m =
      .error (.broken (.staleFrame scope)) m.settle :=
    (bind_of_ok hscope).trans (bind_of_error hvalue)
  show mapFailure ((evaluator allowance).exprForm (.name span name)) _ m = _
  unfold mapFailure
  rw [hform]
  rfl

/-! ## Sessions -/

/-- The frame that a reference led to in vain. -/
def Failure.dangling? : Failure → Option ScopeId
  | .broken (.danglingReference id) => some id
  | _ => none

theorem Failure.Permitted.classify {f : Failure} (h : f.Permitted) :
    f.classify ∈ ["Token error", "Parser error", "Evaluation error", "Target error", "Stopped"] ∨
      f.dangling?.isSome := by
  cases f with
  | unread d =>
    by_cases hd : d.isLexical <;> simp [Failure.classify, hd]
  | broken cause =>
    cases cause with
    | danglingReference id => exact .inr rfl
    | _ => exact h.elim
  | input cause => exact h.elim
  | _ => simp [Failure.classify]

/-- **Only a reference whose frame is gone fails internally.** Whatever a host did in a session, a call
of it ends with an answer, or with an error of the text, the script or the host code that it called, or
it is stopped, or it used a reference after the frame of the variable was gone. A variable that is found
from a kept frame, as every plain name is, stays there while anything else is evaluated; any other
reference is good exactly as long as its frame is. The host has to keep the namespace that it evaluates in. -/
theorem internal_failures_dangle {s : Session} (hs : s.Reachable) (allowance : Nat)
    {call : HostCall} (hcall : s.Admits call) :
    (∀ f m', call.exec allowance s.machine = .error f m' →
      f.classify ∈ ["Token error", "Parser error", "Evaluation error", "Target error", "Stopped"] ∨
        f.dangling?.isSome) ∧
    s.machine.Ready 0 (s.spaces + s.held) ∧
    (∀ m r scope name id m₁ e, m.Ready 0 r → m.store.Pinned r scope →
      referenceTo scope name m = .ok (.variable id name) m₁ →
      ((evalExpr allowance e).after m₁).settle.store.arena.Live id) ∧
    (∀ m id name, (∃ m', (evaluator allowance).read (.variable id name) m =
        .error (.broken (.danglingReference id)) m') ↔ ¬ m.settle.store.arena.Live id) ∧
    (∀ m r target value id name v m₁ m₂, m.Ready 0 r →
      (evaluator allowance).reference target m = .ok (.variable id name) m₁ →
      evalExpr allowance value m₁ = .ok v m₂ →
      (∀ f, m₂.settle.store.arena.frame? id = some f → (f.vars.get? name).bind Variable.declared = none) →
      ((∃ m', (evaluator allowance).assignment target none value m =
        .error (.broken (.danglingReference id)) m') ↔ ¬ m₂.settle.store.arena.Live id)) ∧
    (∀ m scope span name, m.stack.head? = some scope → ¬ m.settle.store.arena.Live scope →
      ∃ m', evalExpr (allowance + 1) (.name span name) m = .error (.broken (.staleFrame scope)) m') := by
  have hgood := Session.good_of_reachable hs
  have hev := safe_evaluator allowance
  refine ⟨fun f m' hr => ?_, ?_, fun m r scope name id m₁ e h hp hr => ?_,
    fun m id name => (evaluator allowance).read_dangles_iff m id name,
    fun m r target value id name v m₁ m₂ h hr hv hd => assignment_dangles_iff hev h hr hv hd,
    fun m scope span name hst hn => name_of_not_live allowance span hst hn⟩
  · exact ((hgood.ends allowance hcall).error hr).2.classify
  · have hready := hgood.ready (Multiset.zero_le _)
    rwa [tsub_zero] at hready
  · exact live_of_referenceTo hev h hp hr e

/-- Declares a method whose result is the object of its own frame. -/
def makeObject : Stmt :=
  .method default "make" [] none [.returnValue default (some (.this default))]

/-- Stores into a member of such an object while nobody keeps it. -/
def storeInTemporary : Stmt :=
  .expr default (.assign default (.field default (.call default "make" []) "v") none
    (.literal default (.bool true)))

/-- A session in which the method is known. -/
def makerSession : Session :=
  (Session.start {} ⟨fun _ => .directory⟩ "w" [] (Lang.classes.foldl Classes.register {})).after 9
    (.unit makeObject)

theorem admits_unit (s : Session) (unit : Stmt) : s.Admits (.unit unit) :=
  ⟨Multiset.zero_le _, fun _ hid => nomatch hid⟩

/-- The object of a finished call is gone before a member of it is written. -/
theorem temporary_target_dangles :
    makerSession.Reachable ∧ makerSession.Admits (.unit storeInTemporary) ∧
      (((HostCall.unit storeInTemporary).exec 9).failure? makerSession.machine).bind
        Failure.dangling? = some ⟨3, 0⟩ ∧
      ∀ f m', (HostCall.unit storeInTemporary).exec 9 makerSession.machine = .error f m' →
        f.classify ∈ ["Token error", "Parser error", "Evaluation error", "Target error", "Stopped"] ∨
          f.dangling?.isSome := by
  have hreach : makerSession.Reachable :=
    .step (.start _ _ _ _ (Lang.honest_classes _)) (.call 9 (admits_unit _ _))
  have hadmits := admits_unit makerSession storeInTemporary
  exact ⟨hreach, hadmits, by decide +kernel, (internal_failures_dangle hreach 9 hadmits).1⟩

end HostScript
