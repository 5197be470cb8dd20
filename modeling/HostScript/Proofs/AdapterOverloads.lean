import HostScript.Proofs.ArgumentBinding
import HostScript.Proofs.CachedDispatch

/-!
# Overloads behind an adapter

A call of a method of an object runs the most specific overload that its arguments select. An adapter of
the object only counts arguments: it runs the first overload with as many parameters along the chain
(`adapters_take_first`), which may be another one (`other_overload_called`).
-/

set_option autoImplicit false

namespace HostScript

open Exec Machine

section Selection

variable {m m' : Machine} {args : List Value} {method : ScriptMethod}

theorem mem_of_selectLevel {level : List ScriptMethod}
    (h : selectLevel level args m = .ok (some method) m') :
    method ∈ level ∧ method.arity = args.length := by
  obtain ⟨signatures, m1, -, hchoice⟩ := ok_of_bind h
  obtain ⟨m2, m3, -, hchosen⟩ := ok_of_bind hchoice
  cases hsel : m2.select signatures args with
  | error tied =>
    rw [hsel] at hchosen
    cases hchosen
  | ok choice =>
    rw [hsel] at hchosen
    cases choice with
    | none => cases hchosen
    | some i =>
      have hmem : method ∈ level.filter fun m => m.arity == args.length := by
        injection hchosen with hmethod
        exact List.mem_of_getElem? hmethod
      simpa using hmem

theorem mem_of_selectScripted (levels : List (List ScriptMethod)) :
    ∀ {m : Machine}, selectScripted args levels m = .ok (some method) m' →
      method ∈ levels.flatten ∧ method.arity = args.length := by
  induction levels with
  | nil =>
    intro m h
    cases h
  | cons level outer ih =>
    intro m h
    obtain ⟨first, m1, hfirst, h⟩ := ok_of_bind h
    rw [List.flatten_cons, List.mem_append]
    cases first with
    | none =>
      obtain ⟨hmem, harity⟩ := ih h
      exact ⟨.inr hmem, harity⟩
    | some chosen =>
      cases h
      obtain ⟨hmem, harity⟩ := mem_of_selectLevel hfirst
      exact ⟨.inl hmem, harity⟩

/-- The levels from which a method is selected are the overloads along the chain. -/
theorem flatten_overloads (frames : List (ScopeId × Frame)) (name : String) :
    ((frames.map fun e => e.2.methods).filterMap fun t => t.get? name).flatten =
      overloadsAlong frames name := by
  induction frames with
  | nil => rfl
  | cons e frames ih =>
    rw [overloadsAlong, List.flatMap_cons, ← overloadsAlong, ← ih, List.map_cons, List.filterMap_cons,
      Frame.overloads]
    cases e.2.methods.get? name with
    | none => rfl
    | some methods => rfl

/-- A method that is selected is one of the overloads along the chain. -/
theorem mem_of_resolveMethod {scope : ScopeId} {name : String} {frames : List (ScopeId × Frame)}
    (hl : m.settle.store.arena.Lineage scope frames)
    (h : resolveMethod scope name args m = .ok (some method) m') :
    method ∈ overloadsAlong frames name ∧ method.arity = args.length := by
  obtain ⟨levels, m1, hlook, hsel⟩ := ok_of_bind h
  rw [look_of_ok (Arena.overloads_of_lineage hl name)] at hlook
  injection hlook with hlevels hm1
  obtain ⟨hmem, harity⟩ := mem_of_selectScripted levels hsel
  rw [← hlevels, flatten_overloads] at hmem
  exact ⟨hmem, harity⟩

end Selection

/-- The first overload with a number of parameters is a given one that has as many, or stands before it. -/
theorem first_of_mem {overloads : List ScriptMethod} {method : ScriptMethod} {arity : Nat}
    (hmem : method ∈ overloads) (harity : method.arity = arity) : ∃ first before later,
      overloads.find? (fun m => m.arity == arity) = some first ∧ overloads = before ++ method :: later ∧
        ((first = method ∧ ∀ e ∈ before, e.arity ≠ arity) ∨ first ∈ before) := by
  obtain ⟨before, later, rfl⟩ := List.append_of_mem hmem
  cases hbefore : before.find? fun m => m.arity == arity with
  | some first =>
    refine ⟨first, before, later, ?_, rfl, .inr (List.mem_of_find?_eq_some hbefore)⟩
    rw [List.find?_append, hbefore, Option.some_or]
  | none =>
    refine ⟨method, before, later, ?_, rfl, .inl ⟨rfl, by simpa using hbefore⟩⟩
    rw [List.find?_append, hbefore, Option.none_or, List.find?_cons_of_pos (by simpa using harity)]

/-- Runs a method for an adapter of a frame, with copies of the arguments. -/
def Evaluator.runForAdapter (ev : Evaluator) (scope : ScopeId) (method : ScriptMethod)
    (args : List Value) : Exec (Option Value) := do
  let value ← onStack [scope] do
    let args ← copyAll args
    ev.invokeScripted method args
  if value.isVoid || value.isNull then return none else return some value

/-- Where arguments select a method of an object, and the object has an adapter, a script runs the method
and the adapter runs the first one with as many parameters: the selected one, if no such method stands
before it, else one that does. -/
def Machine.AdaptersTakeFirst (m : Machine) : Prop :=
  ∀ cell a, m.settle.store.adapter? cell = some a → ∀ name args method m1,
    resolveMethod a.scope name args m = .ok (some method) m1 →
      (∀ (ev : Evaluator) label, ev.invokeObject a.scope label name args m =
        ev.invokeScripted method args m1) ∧
      ∃ frames first before later m2, m.settle.store.arena.chain a.scope = .ok frames ∧
        FirstMethod frames name args.length first ∧
        overloadsAlong frames name = before ++ method :: later ∧
        ((first = method ∧ ∀ e ∈ before, e.arity ≠ args.length) ∨ first ∈ before) ∧
        m2.store.arena = m.settle.store.arena ∧
        ∀ ev : Evaluator, ev.callAdapter cell a name args m = ev.runForAdapter a.scope first args m2

theorem Machine.Ready.adaptersTakeFirst {m : Machine} {o r : Multiset Claim} (h : m.Ready o r)
    (ht : m.store.Truthful) : m.AdaptersTakeFirst := by
  intro cell a ha name args method m1 hsel
  refine ⟨fun ev label => ?_, ?_⟩
  · unfold Evaluator.invokeObject
    rw [bind_of_ok (onFailure_of_ok hsel)]
  · obtain ⟨frames, handler, m2, hline, hanswers, -, hfound, harena⟩ :=
      h.exists_handlerFor ht ha name args.length
    obtain ⟨hmem, harity⟩ := mem_of_resolveMethod hline hsel
    obtain ⟨first, before, later, hfirst, hsplit, hplace⟩ := first_of_mem hmem harity
    have hnamed : handler = .named first := by
      cases hanswers with
      | named hf =>
        rw [← firstMethod_iff, hfirst, Option.some.injEq] at hf
        rw [hf]
      | generic hno | identity hno | missing hno =>
        rw [← noMethod_iff, hfirst] at hno
        cases hno
    refine ⟨frames, first, before, later, m2, Arena.chain_eq_of_lineage hline, firstMethod_iff.1 hfirst,
      hsplit, hplace, harena, fun ev => ?_⟩
    unfold Evaluator.callAdapter
    rw [bind_of_ok hfound, hnamed]
    rfl

/-- **An adapter runs the first overload with as many parameters.** In any run of a host, if the arguments
of a call select a scripted method of an object, then a script that makes the call runs that method, and
an adapter over the namespace of the object runs, with copies of the arguments, the first method of the
name with as many parameters along the chain. That is the selected method unless another one stands before
it. So it is between the turns of the host and at every moment of an evaluation. -/
theorem adapters_take_first {s : Session} (hs : s.Run) :
    s.machine.AdaptersTakeFirst ∧
      (∀ cell a, .cell cell ∈ s.held → s.machine.store.adapter? cell = some a →
        s.machine.settle.store.adapter? cell = some a) ∧
      ∀ entry, s.Offers entry → ∀ n f, entry.run (.watched AdaptersTakeFirst f n) s.machine =
        entry.run (evaluator n) s.machine := by
  refine ⟨hs.good.readyForAll.adaptersTakeFirst hs.truthful, fun _ _ => hs.good.adapter_settled, ?_⟩
  intro entry ho n f
  exact (watch_of_truthful fun h ht => h.adaptersTakeFirst ht).eq_run hs.good hs.truthful ho f n

/-- Two overloads with one parameter. -/
def declareOverloads : HostEntry :=
  .text ⟨0, 0⟩ "f(int n) { return 1; } f(String s) { return 2; }"

/-- A session with the two overloads and an adapter of the namespace that has them. -/
def overloadedSession : Session :=
  (Session.fresh.answered (declareOverloads.run (evaluator 40))).answered
    do return some (← makeAdapter ⟨0, 0⟩ ["ui.Runnable"])

theorem run_overloadedSession : overloadedSession.Run := by
  have hoffers : Session.fresh.Offers declareOverloads := Session.offers_text (by decide +kernel) _
  refine .turn (.turn Session.run_fresh (.enter 40 hoffers)) (.adapt ["ui.Runnable"] ?_)
  exact Arena.live_iff.2 (Option.isSome_iff_exists.1 (by decide +kernel))

/-- What a computation gives, if it ends well. -/
def Exec.value? {α : Type} (x : Exec α) (m : Machine) : Option α :=
  match x m with
  | .ok a _ => some a
  | .error _ _ => none

/-- A script and the adapter run different overloads: the script the one for texts, which the argument
selects, and the adapter the one for integers, which stands before it and does not take the argument. -/
theorem other_overload_called : overloadedSession.Run ∧
    (overloadedSession.machine.settle.store.adapter? 0).any fun a =>
      ((resolveMethod a.scope "f" [.text "a"]).value? overloadedSession.machine).any (fun found =>
        found.any fun method => method.params.map Param.type == [some ⟨"String", 0⟩]) &&
      (((evaluator 40).invokeObject a.scope "global" "f" [.text "a"]).value?
        overloadedSession.machine).any (Value.same (.int 2)) &&
      (((evaluator 40).callAdapter 0 a "f" [.text "a"]).failure? overloadedSession.machine).map
        Failure.message == some "cannot convert String to int" := by
  exact ⟨run_overloadedSession, by decide +kernel⟩

/-- The method that an adapter runs where another one is selected. -/
theorem first_overload_called : overloadedSession.Run ∧ ∃ a method m₁,
    overloadedSession.machine.settle.store.adapter? 0 = some a ∧
      resolveMethod a.scope "f" [.text "a"] overloadedSession.machine = .ok (some method) m₁ ∧
      ∃ frames first m₂, FirstMethod frames "f" 1 first ∧ ∀ ev : Evaluator,
        ev.callAdapter 0 a "f" [.text "a"] overloadedSession.machine =
          ev.runForAdapter a.scope first [.text "a"] m₂ := by
  have hthere : (overloadedSession.machine.settle.store.adapter? 0).any fun a =>
      ((resolveMethod a.scope "f" [.text "a"]).value? overloadedSession.machine).any Option.isSome := by
    decide +kernel
  obtain ⟨hsome, hselects⟩ := (Option.any_eq_true_iff_get _ _).1 hthere
  obtain ⟨a, ha⟩ := Option.isSome_iff_exists.1 hsome
  simp only [ha, Option.get_some] at hselects
  obtain ⟨method, m₁, hsel⟩ : ∃ method m₁,
      resolveMethod a.scope "f" [.text "a"] overloadedSession.machine = .ok (some method) m₁ := by
    unfold Exec.value? at hselects
    cases hr : resolveMethod a.scope "f" [.text "a"] overloadedSession.machine with
    | error f m => simp [hr] at hselects
    | ok found m =>
      rw [hr] at hselects
      obtain ⟨method, rfl⟩ := Option.isSome_iff_exists.1 hselects
      exact ⟨method, m, rfl⟩
  have hfirst := (adapters_take_first run_overloadedSession).1 0 a ha "f" [.text "a"] method m₁ hsel
  obtain ⟨-, frames, first, -, -, m₂, -, hmethod, -, -, -, hcall⟩ := hfirst
  exact ⟨run_overloadedSession, a, method, m₁, ha, hsel, frames, first, m₂, hmethod, hcall⟩

end HostScript
