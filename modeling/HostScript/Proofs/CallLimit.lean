import HostScript.Proofs.Watched
import HostScript.Proofs.RunawayRecursion

/-!
# The count of calls in flight

Scripted calls count themselves while they run, and are refused when there are as many as allowed. So a check of
the count before and after every expression and every statement, however deep inside, makes no difference to an
evaluation (`calls_balanced_and_bounded`).
-/

set_option autoImplicit false

namespace HostScript

open Exec

variable {α : Type} {P : α → Prop}

/-- The two computations do the same and end in a machine like the one before, if no more calls are in flight than
allowed. -/
def Exec.SameBelow (α : Type) (P : α → Prop) (x : Bool → Exec α) : Prop :=
  ∀ m : Machine, m.Allowed → ShadowsAt (fun _ => False) P x m

theorem Exec.SameBelow.same {x : Bool → Exec α} (hx : SameBelow α P x) {m : Machine} (hm : m.Allowed) :
    x true m = x false m ∧ Lands P m (x false m) := by
  rcases hx m hm with h | ⟨_, -, hsunk⟩
  · exact h
  · obtain ⟨_, hbad, -⟩ := hsunk.remains
    exact hbad.elim

theorem sameBelow_throw (f : Failure) : SameBelow α P fun _ => throw f := fun m _ => shadows_throw f m

theorem sameBelow_logic : Woven.Logic .all (fun _ => True) SameBelow fun P x => SameBelow _ P x := by
  refine ⟨⟨fun hx => hx, ?_, ?_, ?_, ?_⟩, ?_, ?_, ?_⟩
  · exact fun hx h m hm => (hx m hm).imp h
  · exact fun hx hf m hm => (hx m hm).bind fun a m' h ha => hf a ha m' (h.allowed hm)
  · exact fun hf m hm => hf m (.all m) m hm
  · exact fun hx hy m hm => .around (fun m0 h => hx m0 (h hm)) hy
  · exact fun hx m _ => shadows_logic.constant hx m
  · exact fun _ _ => sameBelow_throw _
  · exact fun hx m hm => (hx m hm).attempt

/-- A check of the count makes no difference to the first of two computations that do the same. -/
theorem Exec.SameBelow.checked {x : Bool → Exec α} (hx : SameBelow α P x) (f : Failure) :
    SameBelow α P fun i => if i then Exec.checked Machine.Allowed f (x true) else x false := by
  intro m hm
  obtain ⟨hsame, hlands⟩ := hx.same hm
  have hafter : ((x true).after m).Allowed := by
    unfold Exec.after
    rw [hsame]
    cases hr : x false m with
    | ok a m' =>
      rw [hr] at hlands
      exact hlands.1.allowed hm
    | error e m' =>
      rw [hr] at hlands
      exact hlands.1.allowed hm
  exact .inl ⟨(checked_of_holds hm hafter).trans hsame, hlands⟩

/-- Evaluation with and without checks of the count. -/
noncomputable def Evaluator.counting (f : Failure) (n : Nat) (checks : Bool) : Evaluator :=
  if checks then .watched Machine.Allowed f n else evaluator n

theorem Evaluator.allGiven_counting (f : Failure) (n : Nat) : AllGiven SameBelow (counting f n) := by
  induction n with
  | zero =>
    have hspent : counting f 0 = fun _ => .spent := by
      funext i
      cases i <;> rfl
    rw [hspent]
    exact ⟨fun _ => sameBelow_throw _, fun _ => sameBelow_throw _, fun _ => sameBelow_throw _⟩
  | succ n ih =>
    refine ⟨fun e m => ?_, fun s m => ?_, fun _ => sameBelow_throw _⟩
    · exact ((ih.exprStep e).logically sameBelow_logic).checked f m
    · exact ((ih.stmtStep n s).logically sameBelow_logic).checked f m

/-- A computation leaves the count as it was, and a check of it in between makes no difference. -/
def Evaluator.CountsCalls (n : Nat) (m : Machine) (x : Evaluator → Exec α) : Prop :=
  ((x (evaluator n)).after m).depth = m.depth ∧ ∀ f, x (.watched Machine.Allowed f n) m = x (evaluator n) m

theorem Exec.SameBelow.countsCalls {n : Nat} {x : Evaluator → Exec α}
    (hx : ∀ f, SameBelow α P fun i => x (.counting f n i)) {m : Machine} (hm : m.Allowed) :
    Evaluator.CountsCalls n m x := by
  refine ⟨?_, fun f => ((hx f).same hm).1⟩
  have hlands : Lands P m (x (evaluator n) m) := ((hx (.stopped .exhausted)).same hm).2
  unfold Exec.after
  cases hr : x (evaluator n) m with
  | ok a m' =>
    rw [hr] at hlands
    exact hlands.1.depth
  | error e m' =>
    rw [hr] at hlands
    exact hlands.1.depth

/-- **The count of calls in flight is balanced and bounded.** An evaluation that starts with no more calls in flight
than allowed, whatever a host starts it with, ends with as many as before, and it never gets beyond the limit. A
scripted call at the limit is refused when nothing has come into the store; this is a fault of the script if the frame
that declares the method and the ancestors of that frame are there. -/
theorem calls_balanced_and_bounded (n : Nat) (m : Machine) :
    (m.Allowed → ∀ entry : HostEntry, Evaluator.CountsCalls n m fun ev => entry.run ev) ∧
    (m.Allowed → ∀ s : Stmt, Evaluator.CountsCalls n m fun ev => ev.stmt s) ∧
    (m.config.maxDepth ≤ m.depth → ∀ method args, ∃ f m',
      (evaluator n).invokeScripted method args m = .error f m' ∧ m.store.Ebbs m'.store ∧
      Failure.Refuses m method args.length f ∧
      ∀ frames, m.settle.store.arena.chain method.declaring = .ok frames → ∃ cause, f = .ofFault cause) := by
  refine ⟨fun hm entry => ?_, fun hm s => ?_, fun hlimit method args => ?_⟩
  · exact SameBelow.countsCalls (fun f => HostEntry.logically sameBelow_logic (Evaluator.allGiven_counting f n)
      (fun _ => sameBelow_throw _) entry) hm
  · exact SameBelow.countsCalls (fun f => (Evaluator.allGiven_counting f n).stmt s) hm
  · obtain ⟨f, m', hf, hebbs, hrun⟩ := call_at_limit hlimit method args
    exact ⟨f, m', hrun _, hebbs, hf, fun frames => hf.ofFault⟩

/-- A method that calls itself without end is refused at the limit, and then no call is in flight any more. -/
theorem recursion_counted :
    recursive.Allowed ∧ (((evaluator 9).eval "d();" recursive.global).failure? recursive).isSome ∧
      Evaluator.CountsCalls 9 recursive fun ev => HostEntry.run ev (.text recursive.global "d();") := by
  have hm : recursive.Allowed := by
    unfold Machine.Allowed
    decide +kernel
  exact ⟨hm, by decide +kernel, (calls_balanced_and_bounded 9 recursive).1 hm _⟩

end HostScript
