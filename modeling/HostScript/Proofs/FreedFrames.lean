import HostScript.Proofs.SafeSessions

/-!
# Frames do not outlive the evaluation that made them

A frame of a block, a round of a loop or a call stays behind only if something refers to it, and references to
frames are made by `this` and `super` alone. So an evaluation that comes upon neither leaves no frame that was
not there before, however it ends (`evaluation_frees_its_frames`). That it comes upon neither is said with an
evaluation that refuses both: to refuse them makes no difference to it.
-/

set_option autoImplicit false

namespace HostScript

open Exec

/-- To refuse `this` and `super`. -/
def Restraint.holdless (f : Failure) : Restraint where
  expr
    | .this _ | .super _ => true
    | _ => false
  failure := f

/-- Evaluation that refuses `this` and `super`, wherever it comes upon them. -/
def Evaluator.holdless (f : Failure) : Nat → Evaluator
  | 0 => spent
  | n + 1 => (holdless f n).restrained (.holdless f) (holdless f n) n

section

/-- No evaluation may hold the frames that it makes. -/
local instance holdingRefused : Holding := ⟨False⟩

/-- **Evaluation that refuses `this` and `super` is safe where frames may not be held.** -/
theorem Evaluator.safe_holdless (n : Nat) : (Evaluator.holdless (.stopped .exhausted) n).Safe := by
  have hthrow : ∀ {α : Type}, (throw (.stopped .exhausted) : Exec α).Balanced := balanced_throw trivial
  induction n with
  | zero =>
    refine ⟨⟨fun _ => hthrow, fun _ => hthrow⟩, ?_, ?_, .inr ⟨id, fun ok => .spent trivial⟩⟩
    · exact fun e m r h => .throw h trivial
    · exact fun s m r h => .throw h trivial
  | succ n ih =>
    have hthreaded : ∀ ok,
      (holdless (.stopped .exhausted) (n + 1)).Threaded (.frames ok) (fun _ => True) fun _ => True := by
      intro ok
      refine ((ih.confined.resolve_left id).2 ok).restrained (Restraint.admits_all _)
        n trivial trivial (.inr fun span => ?_)
      exact ⟨rfl, rfl⟩
    refine ⟨⟨fun e => ?_, fun s => ?_⟩, fun e m r h => ?_, fun s m r h => ?_, .inr ⟨id, hthreaded⟩⟩
    · show Exec.Balanced (if _ then _ else _)
      split
      · exact hthrow
      · rw [exprFormWith_self]
        exact (balanced_exprForm ih.balanced e).locating _ _
    · exact balanced_stmtStep ih.balanced n s
    · show Owns r _ m (if _ then _ else _)
      split
      · exact .throw h trivial
      · rw [exprFormWith_self]
        exact (ends_exprForm ih e h).locating _ _
    · exact ends_stmtStep ih n s h

end

/-- **An evaluation frees the frames that it makes.** Whatever a statement comes to, a value, a way out of a loop or of
a call, or a failure at any depth, no frame is there after it and after the releases that it has queued that was not
there before, if the statement comes upon neither `this` nor `super`. -/
theorem evaluation_frees_its_frames {m : Machine} {r : Multiset Claim} (h : m.Ready 0 r) (n : Nat) (s : Stmt)
    (hholds : ∀ f, (Evaluator.holdless f n).stmt s m = (evaluator n).stmt s m) (id : ScopeId)
    (hlive : (((evaluator n).stmt s).after m).settle.store.arena.Live id) : m.store.arena.Live id := by
  let _ : Holding := ⟨False⟩
  have hends := (Evaluator.safe_holdless n).stmt s h
  have hleaves : ∃ o, m.Leaves r o (((evaluator n).stmt s).after m) := by
    unfold Exec.after
    rw [← hholds (.stopped .exhausted)]
    cases hr : (Evaluator.holdless (.stopped .exhausted) n).stmt s m with
    | ok flow m' => exact ⟨_, (hends.ok hr).1⟩
    | error f m' => exact ⟨_, (hends.error hr).1⟩
  obtain ⟨o, hleaves⟩ := hleaves
  have hsettled := hleaves.trans hleaves.ready.settle.1
  exact (hsettled.lasting.resolve_left not_false).live hlive

/-- A loop that fails in a block of its first round: `for (int i = 0; ; ) { { 1 / 0; } }`. -/
def failingLoop : Stmt :=
  .forLoop ⟨0, 33⟩ [.declaration ⟨5, 14⟩ ⟨"int", 0⟩ [⟨"i", some (.literal ⟨13, 14⟩ (.number (.int 0))), ⟨9, 14⟩⟩]]
    none []
    (.block ⟨20, 33⟩ [.block ⟨22, 31⟩ [.expr ⟨24, 29⟩ (.binary ⟨24, 29⟩ .div
      (.literal ⟨24, 25⟩ (.number (.int 1))) (.literal ⟨28, 29⟩ (.number (.int 0))))]])

theorem holdless_failingLoop (f : Failure) :
    (Evaluator.holdless f 9).stmt failingLoop = (evaluator 9).stmt failingLoop := rfl

/-- The frames of the loop, of its round and of the blocks in it are gone after the failure. -/
theorem failing_loop_frees_its_frames :
    (((evaluator 9).stmt failingLoop).failure? Session.fresh.machine).map Failure.message =
        some "/ by zero : at operator `/` (24..29)" ∧
      ∀ id, (((evaluator 9).stmt failingLoop).after Session.fresh.machine).settle.store.arena.Live id →
        Session.fresh.machine.store.arena.Live id := by
  refine ⟨by decide +kernel, fun id => ?_⟩
  exact evaluation_frees_its_frames (Session.good_fresh.ready (Multiset.zero_le _)) 9 failingLoop
    (fun f => congrFun (holdless_failingLoop f) _) id

end HostScript
