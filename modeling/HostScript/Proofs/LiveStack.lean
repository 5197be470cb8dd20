import HostScript.Proofs.HostTurns

/-!
# Frames on the stack

While a host keeps the namespace in which it evaluates, every frame on the stack and every frame above
one of them is there at every moment of the evaluation, whatever the script unbinds in the meantime
(`frames_on_stack_stay`). The frames of blocks and calls are kept by their creators, the first one by the host.
-/

set_option autoImplicit false

namespace HostScript

open Exec Machine

variable {m : Machine} {o r : Multiset Claim}

/-- All frames above the given ones, themselves included, are there. -/
def Arena.KeepsAll (a : Arena) (stack : List ScopeId) : Prop :=
  ∀ id ∈ stack, ∀ d, a.Above id d → a.Live d

/-- Each frame on the stack is there with all frames above it, and the queued releases leave it there. -/
structure Machine.StackLive (m : Machine) : Prop where
  now : m.store.arena.KeepsAll m.stack
  settled : m.settle.store.arena.KeepsAll m.stack

/-- What is pinned is there, and so is everything above it. -/
theorem Machine.Ready.keepsAll (h : m.Ready o r) : m.store.arena.KeepsAll m.stack := by
  intro id hid d habove
  exact h.live ((h.kept.frames id hid).above habove)

theorem Machine.Ready.stackLive (h : m.Ready o r) : m.StackLive := by
  have hsettle := h.settle.1
  constructor
  · exact h.keepsAll
  · rw [← hsettle.alike.stack]
    exact hsettle.ready.keepsAll

/-- **A frame on the stack stays while it is there.** In any session, when a host evaluates in a namespace
that it keeps, or calls a method through an adapter that it keeps, the frames on the stack and all frames
above them are there at the start, before and after each expression and each statement that is evaluated,
and at the end: to end the evaluation where one of them is missing makes no difference. -/
theorem frames_on_stack_stay {s : Session} (hs : s.Run) {entry : HostEntry} (ho : s.Offers entry)
    (n : Nat) : s.machine.StackLive ∧
      (∀ f, entry.run (.watched StackLive f n) s.machine = entry.run (evaluator n) s.machine) ∧
      ((entry.run (evaluator n)).after s.machine).StackLive := by
  have hgood := hs.good
  have hend := hgood.turn (.enter n ho)
  refine ⟨hgood.readyForAll.stackLive, fun f => ?_, ?_⟩
  · exact (watch_of_ready fun h => h.stackLive).eq_run hgood trivial ho f n
  · have hlive := hend.good.readyForAll.stackLive
    unfold Session.answered at hlive
    unfold Exec.after
    cases hr : entry.run (evaluator n) s.machine with
    | ok answer m =>
      rw [hr] at hlive
      exact hlive
    | error f m =>
      rw [hr] at hlive
      exact hlive

/-- Makes an object of a finished call and binds it to a variable. -/
def bindObjectOfCall : HostEntry := .text ⟨0, 0⟩ "make() { return this; } x = make();"

/-- Unbinds that object in its own frame. -/
def unbindObject : HostEntry := .text ⟨3, 0⟩ "x = null; y = 1;"

/-- A session whose host has the object in hand. -/
def keeperSession : Session := Session.fresh.answered (bindObjectOfCall.run (evaluator 40))

theorem run_keeperSession : keeperSession.Run := by
  have hoffers : Session.fresh.Offers bindObjectOfCall := Session.offers_text (by decide +kernel) _
  exact .turn Session.run_fresh (.enter 40 hoffers)

/-- The frame of a finished call stays while a text that is evaluated in it unbinds the object. -/
theorem unbound_namespace_stays :
    keeperSession.Run ∧ keeperSession.Offers unbindObject ∧
      ((unbindObject.run (evaluator 40)).failure? keeperSession.machine).isNone ∧
      ∀ f, unbindObject.run (.watched StackLive f 40) keeperSession.machine =
        unbindObject.run (evaluator 40) keeperSession.machine := by
  have hoffers : keeperSession.Offers unbindObject := Session.offers_text (by decide +kernel) _
  have hstays := frames_on_stack_stay run_keeperSession hoffers 40
  exact ⟨run_keeperSession, hoffers, by decide +kernel, hstays.2.1⟩

/-- The same session after its host has let go of the object; the variable still refers to it. -/
def leaverSession : Session :=
  { keeperSession with
    machine := keeperSession.machine.drop (.object ⟨3, 0⟩ "make")
    held := keeperSession.held - (Value.object ⟨3, 0⟩ "make").claims }

/-- The stack does not keep a frame: a text that is evaluated in the frame of an object goes wrong when
it unbinds the object and nobody else has it, although the frame was there at the start. -/
theorem unkept_namespace_goes :
    leaverSession.Run ∧ (leaverSession.machine.settle.store.arena.frame? ⟨3, 0⟩).isSome ∧
      ((unbindObject.run (evaluator 40)).failure? leaverSession.machine).map Failure.classify =
        some "Internal error" := by
  refine ⟨.turn run_keeperSession (.step (.drop (by decide +kernel))), by decide +kernel, ?_⟩
  decide +kernel

end HostScript
