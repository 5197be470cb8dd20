import HostScript.Proofs.CallDepth
import HostScript.Proofs.HostCalls
import HostScript.Proofs.Texts

/-!
# Runaway recursion

Scripted calls that nest too deep are refused (`call_at_limit`), so an evaluation that comes upon no loop
and that runs texts inside one another only so often ends (`recursion_cut_off`), unless it asks for a text
without an end. A text that evaluates itself uses up any allowance, whatever the limit
(`selfEvaluation_stalls`).
-/

set_option autoImplicit false

namespace HostScript

open Exec

variable {s : Stmt} {name text : String} {m : Machine} {here : ScopeId}

/-! ## Calls at the limit -/

/-- The ways in which a scripted call can be refused before its body runs: it is too deep, it has the wrong number
of arguments, or a frame is gone in which its types would be looked up. -/
inductive Failure.Refuses (m : Machine) (method : ScriptMethod) (given : Nat) : Failure → Prop
  | tooDeep : Refuses m method given (.ofFault (.callDepth m.config.maxDepth method.name))
  | count (h : given ≠ method.arity) :
    Refuses m method given (.ofFault (.argumentCount method.signature method.arity given))
  | stale {id : ScopeId} (h : m.settle.store.arena.chain method.declaring = .error id) :
    Refuses m method given (.broken (.staleFrame id))

/-- A call whose declaring frame and its ancestors are there is refused for a fault of the script. -/
theorem Failure.Refuses.ofFault {method : ScriptMethod} {given : Nat} {f : Failure} (h : f.Refuses m method given)
    {frames : List (ScopeId × Frame)} (hchain : m.settle.store.arena.chain method.declaring = .ok frames) :
    ∃ cause, f = .ofFault cause := by
  cases h with
  | tooDeep => exact ⟨_, rfl⟩
  | count => exact ⟨_, rfl⟩
  | stale hstale =>
    rw [hchain] at hstale
    cases hstale

/-- **At the limit a scripted call is refused**, without anything being evaluated or stored. -/
theorem call_at_limit (hlimit : m.config.maxDepth ≤ m.depth) (method : ScriptMethod)
    (args : List Value) : ∃ f m', Failure.Refuses m method args.length f ∧ m.store.Ebbs m'.store ∧
      ∀ ev : Evaluator, ev.invokeScripted method args m = .error f m' := by
  have hdrop : ∀ {m' : Machine}, m.Rests m' → m.store.Ebbs (m'.dropAll args).store :=
    fun h => h.ebbs.trans ((Machine.ebbing_dropAll args).ebbs _)
  by_cases hcount : args.length = method.arity
  · have hrest : ∀ ev : Evaluator, ev.invokeScripted method args = _ := fun ev => by
      unfold Evaluator.invokeScripted
      simp only [hcount, bne_self_eq_false, Bool.false_eq_true, if_false]
      rfl
    have htypes := LooksFrom.resolveParams method.declaring method.params m
    cases hrun : resolveParams method.declaring method.params m with
    | error f m1 =>
      rw [hrun] at htypes
      obtain ⟨hrests, id, hchain, rfl⟩ := htypes
      exact ⟨_, _, .stale hchain, hdrop hrests,
        fun ev => (congrFun (hrest ev) m).trans (bind_of_error (onFailure_of_error hrun))⟩
    | ok types m1 =>
      rw [hrun] at htypes
      have hreturns := LooksFrom.resolveType? method.declaring method.returns m1
      rw [htypes.settle_eq] at hreturns
      cases hrun1 : resolveType? method.declaring method.returns m1 with
      | error f m2 =>
        rw [hrun1] at hreturns
        obtain ⟨hrests, id, hchain, rfl⟩ := hreturns
        exact ⟨_, _, .stale hchain, hdrop (htypes.trans hrests), fun ev => (congrFun (hrest ev) m).trans
          ((bind_of_ok (onFailure_of_ok hrun)).trans (bind_of_error (onFailure_of_error hrun1)))⟩
      | ok returns m2 =>
        rw [hrun1] at hreturns
        have hrests := htypes.trans hreturns
        have halike := hrests.alike
        have hdeep : m2.config.maxDepth ≤ m2.depth := by
          rw [halike.config, halike.depth]
          exact hlimit
        have hrefuses :
          Failure.Refuses m method args.length (.ofFault (.callDepth m2.config.maxDepth method.name)) := by
          rw [halike.config]
          exact .tooDeep
        refine ⟨_, m2.dropAll args, hrefuses, hdrop hrests, fun ev => ?_⟩
        exact (congrFun (hrest ev) m).trans ((bind_of_ok (onFailure_of_ok hrun)).trans
          ((bind_of_ok (onFailure_of_ok hrun1)).trans
            (bind_of_error (onFailure_of_error (checkDepth_of_le hdeep method.name)))))
  · refine ⟨_, m.dropAll args, .count hcount, hdrop .same, fun ev => ?_⟩
    have hne : (args.length != method.arity) = true := by simpa using hcount
    unfold Evaluator.invokeScripted
    rw [if_pos hne]
    exact bind_of_error (onFailure_of_error rfl)

/-! ## A text that evaluates itself -/

/-- A text that evaluates what `x` holds. -/
def selfEvaluation : String := "eval(\"\" + x);"

/-- A machine that evaluates in a frame without parent in which `x` holds that text. -/
structure Machine.SelfEvaluating (m : Machine) (here : ScopeId) (f : Frame) : Prop where
  settled : m.settle = m
  top : m.stack.head? = some here
  frame : m.store.arena.frame? here = some f
  root : f.parent = none
  unbound : f.bound = none
  methods : f.methods.get? "eval" = none
  text : (f.vars.get? "x").map Variable.value = some (.text selfEvaluation)
  utilities : (m.store.arena.frame? m.utilities).isSome = true

namespace Machine.SelfEvaluating

variable {f : Frame} (h : m.SelfEvaluating here f)

include h

theorem scope : Exec.scope m = .ok here m := by
  obtain ⟨rest, hstack⟩ := List.head?_eq_some_iff.1 h.top
  exact scope_of_cons hstack

theorem chain : m.store.arena.chain here = .ok [(here, f)] := by
  simp only [Arena.chain, Arena.chainFrom, h.frame, h.root]

theorem look {α : Type} {g : Arena → Except ScopeId α} {a : α} (ha : g m.store.arena = .ok a) :
    Exec.look g m = .ok a m := by
  have hlook := look_of_ok (m := m) (f := g) (a := a) (h.settled.symm ▸ ha)
  rwa [h.settled] at hlook

theorem valueOf (ev : Evaluator) : ev.valueOf? here "x" m = .ok (some (.text selfEvaluation)) m := by
  obtain ⟨v, hv, hvalue⟩ := Option.map_eq_some_iff.1 h.text
  obtain ⟨u, hu⟩ := Option.isSome_iff_exists.1 h.utilities
  have hcopy : copy v.value m = .ok (.text selfEvaluation) m := by
    rw [hvalue]
    rfl
  refine (get_bind m).trans ((bind_of_ok (h.look (a := ([f], u.vars.get? "x")) ?_)).trans ?_)
  · rw [h.chain, hu]
    rfl
  · cases m.config.order with
    | localThenBound =>
      simp only [Evaluator.valueByFrame, hv]
      have hfound : (copy v.value >>= fun w => pure (some w)) m = .ok (some (.text selfEvaluation)) m :=
        bind_of_ok hcopy
      exact bind_of_ok hfound
    | chainThenBound =>
      simp only [List.findSome?_cons, hv]
      exact (bind_of_ok hcopy).trans rfl

theorem callee (v : Value) : callee? here "eval" [v] m = .ok (some (.command .eval)) m := by
  have hresolve : resolveMethod here "eval" [v] m = .ok none m := by
    refine (bind_of_ok (h.look (a := []) ?_)).trans rfl
    simp [Arena.overloads, h.chain, h.methods, Except.map]
  refine (bind_of_ok hresolve).trans ((bind_of_ok (h.look h.chain)).trans ?_)
  simp [h.unbound]
  rfl

end Machine.SelfEvaluating

/-- The statement that evaluates the text that `x` holds. -/
def Stmt.evaluatesX : Stmt → Bool
  | .expr _ (.call _ "eval" [.binary _ .add (.literal _ (.text "")) (.name _ "x")]) => true
  | _ => false

theorem Stmt.evaluatesX_iff (h : s.evaluatesX = true) : ∃ span call sum quotes name,
    s = .expr span (.call call "eval" [.binary sum .add (.literal quotes (.text "")) (.name name "x")]) := by
  unfold evaluatesX at h
  split at h
  · exact ⟨_, _, _, _, _, rfl⟩
  · exact absurd h Bool.false_ne_true

theorem readUnits_selfEvaluation :
    ∃ s used, s.evaluatesX = true ∧ readUnits selfEvaluation = ([(s, used)], none) := by
  have hunits : ((readUnits selfEvaluation).1.map fun u => u.1.evaluatesX) = [true] := by decide +kernel
  have hend : (readUnits selfEvaluation).2.isNone = true := by decide +kernel
  obtain ⟨u, hu, hs⟩ := List.map_eq_singleton_iff.1 hunits
  exact ⟨u.1, u.2, hs, Prod.ext hu (Option.isNone_iff_eq_none.1 hend)⟩


section

variable {f : Frame} {used : Nat} {α : Type} {x : Exec α} {ev : Evaluator} {clean : Machine → Machine}

/-- A run for which the allowance does not suffice, and that changes nothing. -/
def Exec.Stalls {α : Type} (x : Exec α) (m : Machine) : Prop := x m = .error (.stopped .exhausted) m

/-- A run that gives a value and changes nothing, if the allowance suffices. -/
def Exec.Gives {α : Type} (x : Exec α) (m : Machine) (a : α) : Prop := x m = .ok a m ∨ x.Stalls m

namespace Exec

variable {β : Type} {a : α} {b : β} {g : α → Exec β} {change : Failure → Failure}

theorem Stalls.bind (hx : x.Stalls m) : (x >>= g).Stalls m := bind_of_error hx

theorem Gives.stalls (hx : x.Gives m a) (hg : (g a).Stalls m) : (x >>= g).Stalls m := by
  rcases hx with hx | hx
  · exact (bind_of_ok hx).trans hg
  · exact hx.bind

theorem Gives.bind (hx : x.Gives m a) (hg : (g a).Gives m b) : (x >>= g).Gives m b := by
  rcases hx with hx | hx
  · exact hg.imp (bind_of_ok hx).trans (bind_of_ok hx).trans
  · exact .inr hx.bind

theorem Stalls.mapFailure (hx : x.Stalls m)
    (hc : change (.stopped .exhausted) = .stopped .exhausted) : (mapFailure x change).Stalls m := by
  unfold Stalls Exec.mapFailure
  rw [show x m = _ from hx]
  exact congrArg (EStateM.Result.error · m) hc

theorem Gives.mapFailure (hx : x.Gives m a) (hc : change (.stopped .exhausted) = .stopped .exhausted) :
    (mapFailure x change).Gives m a := by
  rcases hx with hx | hx
  · refine .inl ?_
    unfold Exec.mapFailure
    rw [hx]
  · exact .inr (hx.mapFailure hc)

theorem Stalls.afterwards (hx : x.Stalls m) (hc : clean m = m) : (afterwards x clean).Stalls m := by
  unfold Stalls Exec.afterwards
  rw [show x m = _ from hx]
  exact congrArg (EStateM.Result.error _) hc

theorem Gives.afterwards (hx : x.Gives m a) (hc : clean m = m) : (afterwards x clean).Gives m a := by
  rcases hx with hx | hx
  · refine .inl ?_
    unfold Exec.afterwards
    rw [hx]
    exact congrArg (EStateM.Result.ok a) hc
  · exact .inr (hx.afterwards hc)

end Exec

theorem gives_literal (span : Span) (s : String) (n : Nat) :
    Gives ((evaluator n).expr (.literal span (.text s))) m (.text s) := by
  cases n with
  | zero => exact .inr rfl
  | succ n => exact .inl rfl

theorem gives_name (h : m.SelfEvaluating here f) (span : Span) (n : Nat) :
    Gives ((evaluator n).expr (.name span "x")) m (.text selfEvaluation) := by
  cases n with
  | zero => exact .inr rfl
  | succ n =>
    refine Gives.mapFailure (.inl ?_) rfl
    exact (bind_of_ok h.scope).trans ((bind_of_ok (h.valueOf _)).trans rfl)

theorem gives_sum (h : m.SelfEvaluating here f) (span quotes name : Span) (n : Nat) :
    Gives ((evaluator n).expr (.binary span .add (.literal quotes (.text "")) (.name name "x"))) m
      (.text selfEvaluation) := by
  cases n with
  | zero => exact .inr rfl
  | succ n =>
    have hadd : combine .add (.text "") (.text selfEvaluation) m = .ok (.text selfEvaluation) m := rfl
    have hright : Gives (do
        let r ← (evaluator n).expr (.name name "x")
        holding r (combine .add (.text "") r)) m (.text selfEvaluation) :=
      (gives_name h name n).bind (Gives.afterwards (.inl hadd) rfl)
    exact Gives.mapFailure ((gives_literal quotes "" n).bind (hright.afterwards rfl)) rfl

theorem Exec.Stalls.onFailure (hx : x.Stalls m) (hc : clean m = m) : (onFailure x clean).Stalls m := by
  unfold Stalls Exec.onFailure
  rw [show x m = _ from hx]
  exact congrArg (EStateM.Result.error _) hc

theorem Exec.Gives.onFailure {a : α} (hx : x.Gives m a) (hc : clean m = m) :
    (onFailure x clean).Gives m a := by
  rcases hx with hx | hx
  · refine .inl ?_
    unfold Exec.onFailure
    rw [hx]
  · exact .inr (hx.onFailure hc)

theorem Exec.Stalls.keepsStack (hx : x.Stalls m) : KeepsStack x m := by
  unfold KeepsStack
  rw [show x m = _ from hx]
  rfl

theorem Exec.Stalls.steadily {x : Exec Flow} (hx : x.Stalls m) : (steadily x).Stalls m :=
  (steadily_eq_self hx.keepsStack).trans hx

/-- A text whose only unit is a statement that stalls. -/
theorem stalls_runText (hunits : readUnits text = ([(s, used)], none)) (hs : (ev.stmt s).Stalls m) :
    (ev.runText text none).Stalls m := by
  unfold Evaluator.runText
  rw [hunits]
  exact Stalls.bind ((hs.steadily.mapFailure rfl).onFailure rfl)

theorem stalls_command (hclosed : closeStatement text = text)
    (htext : (ev.runText text none).Stalls m) : (ev.runCommand .eval [.text text]).Stalls m := by
  have hargument : textArgument "eval" [.text text] m = .ok text m := rfl
  refine (bind_of_ok hargument).trans ?_
  rw [hclosed]
  exact htext

/-- **A text that evaluates itself uses up any allowance**, whatever the limit on the call depth. -/
theorem selfEvaluation_stalls (h : m.SelfEvaluating here f) (hs : s.evaluatesX = true)
    (hunits : readUnits selfEvaluation = ([(s, used)], none)) (n : Nat) :
    ((evaluator n).stmt s).Stalls m := by
  have hclosed : closeStatement selfEvaluation = selfEvaluation := by decide +kernel
  induction n using Nat.strong_induction_on with
  | _ n ih =>
    obtain ⟨span, call, sum, quotes, name, rfl⟩ := Stmt.evaluatesX_iff hs
    rcases n with _ | _ | n
    · rfl
    · rfl
    · have hargs : Gives ((evaluator n).args
          [.binary sum .add (.literal quotes (.text "")) (.name name "x")]) m [.text selfEvaluation] :=
        ((gives_sum h sum quotes name n).onFailure rfl).bind (.inl rfl)
      have hscope : Gives (Exec.onFailure scope (·.dropAll [.text selfEvaluation])) m here :=
        Gives.onFailure (.inl h.scope) rfl
      have hcallee : Gives (Exec.onFailure (callee? here "eval" [.text selfEvaluation])
          (·.dropAll [.text selfEvaluation])) m (some (.command .eval)) :=
        Gives.onFailure (.inl (h.callee _)) rfl
      have hinvoke : ((evaluator n).invoke "eval" [.text selfEvaluation]).Stalls m :=
        hscope.stalls (hcallee.stalls
          ((stalls_command hclosed (stalls_runText hunits (ih n (by omega)))).afterwards rfl))
      exact Stalls.bind (Stalls.mapFailure (hargs.stalls hinvoke) rfl)

end

/-! ## Evaluating a text -/

namespace Evaluator

/-- Texts are evaluated to an end if statements are. -/
theorem settles_eval {ev : Nat → Evaluator} {d : Nat} (hev : SettlesWith ev d) (text : String)
    (scope : ScopeId) :
    Settles d Value (·.Confined .all) fun n => (ev n).eval text scope := by
  intro m hm
  have htext : Woven .all (fun _ => True) (Settles d) true (·.Confined .all)
      fun n => (ev n).runText (terminated text) none :=
    Woven.runText _ _ (fun _ => trivial) fun s => .given (hev.2 s)
  exact .around (around_evalLabelled (C := fun _ => True) ev (terminated text) scope none) fun m0 h =>
    htext.settles m0 (Machine.left h.limits.2.1 h.limits.2.2.1 hm)

/-- Evaluating a text in a frame comes upon no `while`, `do` or `for` and runs texts at most `k` deep
inside one another: to refuse them makes no difference, whatever the allowance. -/
def Shallow (k : Nat) (text : String) (scope : ScopeId) (m : Machine) : Prop :=
  ∃ cause, ∀ n, (nesting cause k n).eval text scope m = (evaluator n).eval text scope m

end Evaluator

theorem stalls_eval {f : Frame} (h : m.SelfEvaluating here f) (n : Nat) :
    ((evaluator n).eval selfEvaluation here).Stalls m := by
  obtain ⟨s, used, hs, hunits⟩ := readUnits_selfEvaluation
  have hterminated : terminated selfEvaluation = selfEvaluation := by decide +kernel
  have htext := stalls_runText hunits (selfEvaluation_stalls h hs hunits n)
  have hS : m.stack = if m.stack.head? != some here then here :: m.stack else m.stack := by
    rw [h.top, bne_self_eq_false]
    rfl
  unfold Evaluator.eval
  rw [hterminated]
  refine (evalLabelled_eq hS htext.keepsStack).trans ?_
  exact congrArg (mapEnd (·.onto m.stack)) htext

/-- A machine whose global namespace holds the text that evaluates itself. -/
def selfEvaluating (limit : Nat) : Machine :=
  let m := Machine.initial {} ⟨fun _ => .unknown⟩ "" []
  { m with
    config := { maxDepth := limit }
    store := { m.store with
      arena := m.store.arena.adjust m.global (·.setVariable "x" ⟨.text selfEvaluation, none⟩) } }

theorem selfEvaluating_top (limit : Nat) :
    ∃ f, (selfEvaluating limit).SelfEvaluating (selfEvaluating limit).global f :=
  ⟨_, rfl, rfl, rfl, rfl, rfl, rfl, rfl, rfl⟩

/-! ## Recursion at the limit -/

/-- A statement that calls a method without arguments. -/
def Stmt.callsBare (name : String) : Stmt → Bool
  | .expr _ (.call _ callee []) => callee == name
  | _ => false

theorem Stmt.callsBare_iff (h : s.callsBare name = true) :
    ∃ span call, s = .expr span (.call call name []) := by
  unfold callsBare at h
  split at h
  · rw [eq_of_beq h]
    exact ⟨_, _, rfl⟩
  · exact absurd h Bool.false_ne_true

/-- A call that lands on a scripted method at the limit is refused whoever evaluates it. -/
theorem invokeWith_at_limit {m1 : Machine} {method : ScriptMethod} (hscope : scope m = .ok here m)
    (hcallee : callee? here name [] m = .ok (some (.scripted method)) m1)
    (hlimit : m1.config.maxDepth ≤ m1.depth) :
    ∃ f m', ∀ ev texts : Evaluator, ev.invokeWith texts name [] m = .error f m' := by
  obtain ⟨f, m', -, -, hrun⟩ := call_at_limit hlimit method []
  exact ⟨f, m', fun ev texts => (bind_of_ok (onFailure_of_ok hscope)).trans
    ((bind_of_ok (onFailure_of_ok hcallee)).trans (hrun ev))⟩

/-- What a text of one unit ends with depends on its evaluator only through how the unit ends. -/
theorem runText_congr {ev ev' : Evaluator} {used : Nat}
    (hunits : readUnits text = ([(s, used)], none)) (h : ev.stmt s m = ev'.stmt s m) :
    ev.runText text none m = ev'.runText text none m := by
  have hunit : unlessFailed .void (mapFailure (steadily (ev.stmt s)) (·.label none)) m =
      unlessFailed .void (mapFailure (steadily (ev'.stmt s)) (·.label none)) m := by
    unfold unlessFailed onFailure mapFailure steadily
    rw [h]
  unfold Evaluator.runText
  rw [hunits]
  show EStateM.bind _ _ m = EStateM.bind _ _ m
  unfold EStateM.bind
  rw [hunit]
  cases unlessFailed .void (mapFailure (steadily (ev'.stmt s)) (·.label none)) m with
  | error e m' => rfl
  | ok flow m' => cases flow <;> rfl

/-- Whether a search for what a call lands on has found a scripted method. -/
def landsOnScripted : Exec.Result (Option Callee) → Bool
  | .ok (some (.scripted _)) _ => true
  | _ => false

/-- At the limit, the evaluation of a call without arguments comes upon neither a loop nor a text. -/
theorem shallow_at_limit (name : String)
    (hunits : ((readUnits (terminated text)).1.map fun u => u.1.callsBare name) = [true])
    (hend : (readUnits (terminated text)).2.isNone = true) (htop : m.stack.head? = some here)
    (hlands : landsOnScripted (callee? here name [] m) = true)
    (hlimit : m.config.maxDepth ≤ m.depth) : Evaluator.Shallow 0 text here m := by
  obtain ⟨⟨s, used⟩, hu, hs⟩ := List.map_eq_singleton_iff.1 hunits
  have hread : readUnits (terminated text) = ([(s, used)], none) :=
    Prod.ext hu (Option.isNone_iff_eq_none.1 hend)
  obtain ⟨span, call, rfl⟩ := Stmt.callsBare_iff hs
  obtain ⟨rest, hstack⟩ := List.head?_eq_some_iff.1 htop
  obtain ⟨f, m', hrun⟩ : ∃ f m', ∀ ev texts : Evaluator, ev.invokeWith texts name [] m = .error f m' := by
    have halike := balanced_callee? here name [] m
    unfold landsOnScripted at hlands
    split at hlands
    case h_1 method m1 hcallee =>
      rw [hcallee] at halike
      refine invokeWith_at_limit (scope_of_cons hstack) hcallee ?_
      rw [halike.config, halike.depth]
      exact hlimit
    case h_2 => exact absurd hlands Bool.false_ne_true
  refine ⟨.strayJump, fun n => ?_⟩
  have hcall : ∀ ev texts : Evaluator, locating call (fun _ => (Expr.call call name []).describe)
      (ev.exprFormWith texts (.call call name [])) m =
        .error (f.locate call (Expr.call call name []).describe) m' := by
    intro ev texts
    unfold locating mapFailure
    rw [show ev.exprFormWith texts (.call call name []) m = .error f m' from hrun ev texts]
  have hstmt : (Evaluator.nesting .strayJump 0 n).stmt (.expr span (.call call name [])) m =
      (evaluator n).stmt (.expr span (.call call name [])) m := by
    rcases n with _ | _ | n
    · rfl
    · rfl
    · exact (bind_of_error (hcall (Evaluator.nesting .strayJump 0 n) _)).trans
        (bind_of_error (hcall (evaluator n) (evaluator n))).symm
  unfold Evaluator.eval Evaluator.evalLabelled
  rw [htop, bne_self_eq_false]
  simp only [Bool.false_eq_true, if_false]
  rw [runText_congr hread hstmt]

/-- **Recursion is cut off, except through texts.** An evaluation that comes upon no `while`, `do` or `for`
and runs texts inside one another at most `k` deep, for any `k`, ends with a value or with a failure that
does not come from the allowance, unless it asks for the text of a value that has no end. A scripted call at
the limit is refused. The limit does not count the texts: whatever it is, there is a machine in which a text
that evaluates itself ends with no allowance. -/
theorem recursion_cut_off (limit : Nat) :
    (∀ k text scope m, Evaluator.Shallow k text scope m →
      ∃ N r, (∀ n, N ≤ n → (evaluator n).eval text scope m = r) ∧
        ∀ f m', r = .error f m' → f = .stopped .endless ∨ f.Final m.files) ∧
    (∀ m v locked, textOf v locked m = .error (.stopped .endless) m ↔ ¬ m.store.HasEnd locked v) ∧
    (∀ m : Machine, m.config.maxDepth ≤ m.depth → ∀ method args,
      ∃ f m', Failure.Refuses m method args.length f ∧
        ∀ n, (evaluator n).invokeScripted method args m = .error f m') ∧
    ∃ m : Machine, m.config.maxDepth = limit ∧
      ∀ n, ((evaluator n).eval selfEvaluation m.global).failure? m = some (.stopped .exhausted) := by
  refine ⟨fun k text scope m ⟨cause, hsame⟩ => ?_, fun m v locked => ?_, fun m hlimit method args => ?_,
    ⟨selfEvaluating limit, rfl, fun n => ?_⟩⟩
  · obtain ⟨N, r, hN, hr⟩ := Evaluator.settles_eval (Evaluator.settles_nesting cause k _) text scope m
      (Nat.le_add_left _ _)
    refine ⟨N, r, fun n hn => (hsame n).symm.trans (hN n hn), fun f m' hfail => ?_⟩
    subst hfail
    exact hr.2.2
  · rcases textOf_eq v locked m with ⟨hend, htext⟩ | ⟨hend, htext⟩
    · rw [htext]
      refine ⟨fun h => ?_, fun h => absurd hend h⟩
      cases h
    · exact ⟨fun _ => hend, fun _ => htext⟩
  · obtain ⟨f, m', hf, -, hrun⟩ := call_at_limit hlimit method args
    exact ⟨f, m', hf, fun n => hrun _⟩
  · obtain ⟨f, h⟩ := selfEvaluating_top limit
    unfold failure?
    rw [show _ = _ from stalls_eval h n]

/-- The machine after `d` has been declared, which calls itself. No scripted call is allowed. -/
def recursive : Machine :=
  let m := Machine.initial { maxDepth := 0 } ⟨fun _ => .unknown⟩ "" []
  ((evaluator 9).eval "d() \x7b return d(); \x7d" m.global).after m

theorem recursive_shallow : Evaluator.Shallow 0 "d();" recursive.global recursive :=
  shallow_at_limit "d" (by decide +kernel) (by decide +kernel) (by decide +kernel) (by decide +kernel)
    (by decide +kernel)

/-- A recursion without end is cut off. -/
theorem recursion_cut_off_at_once :
    Evaluator.Shallow 0 "d();" recursive.global recursive ∧
      (((evaluator 9).eval "d();" recursive.global).failure? recursive).map Failure.message =
        some "maximum call depth 0 exceeded calling `d` : at method invocation `d()` (0..3)" ∧
      ∃ N r, (∀ n, N ≤ n → (evaluator n).eval "d();" recursive.global recursive = r) ∧
        ∀ f m', r = .error f m' → f = .stopped .endless ∨ f.Final recursive.files :=
  ⟨recursive_shallow, by decide +kernel, (recursion_cut_off 0).1 _ _ _ _ recursive_shallow⟩

end HostScript
