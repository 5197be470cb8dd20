import HostScript.Proofs.Around

/-!
# Woven computations

A family of computations is woven when it is put together, all members alike, by the combinators of the evaluator
from plain computations, the question which frame is evaluated in, and families that are given. What holds of the
given families and is kept by each combinator holds of every step of the evaluator; that its steps are woven is shown
once. Host code and scripted methods are woven without that question (`Woven` with `false`), which is asked anew in a
fresh frame and on a fresh stack. What may be blamed for failures on the way is a parameter too.
-/

set_option autoImplicit false

namespace HostScript

open Exec

variable {b : Bool} {α ι : Type} {ok : Bounds} {P : α → Prop} {x : ι → Exec α} {C : Culprit → Prop}
  {F : Files → Failure → Prop} {Given : (α : Type) → (α → Prop) → (ι → Exec α) → Prop}
  {L : {α : Type} → (α → Prop) → (ι → Exec α) → Prop}

/-- A failure as it is when it comes up, apart from the exceptions of host code. -/
def Failure.Begun (C : Culprit → Prop) (files : Files) (f : Failure) : Prop :=
  f.Plain files ∨ ∃ d, f = .unread d ∧ C (.text d)

/-- What host code returns is confined. -/
def HostResult.Confined (ok : Bounds) : HostResult → Prop
  | .returned v => v.Confined ok
  | .raised _ => True

/-- Families of computations that are put together from plain ones and given ones. The flag says whether
the frame being evaluated in may be asked for; results satisfy a condition. -/
inductive Woven {ι : Type} (ok : Bounds) (C : Culprit → Prop)
    (Given : (α : Type) → (α → Prop) → (ι → Exec α) → Prop) :
    Bool → {α : Type} → (α → Prop) → (ι → Exec α) → Prop
  | given {b : Bool} {α : Type} {P : α → Prop} {x : ι → Exec α} (hx : Given α P x) :
    Woven ok C Given b P x
  | plain {b : Bool} {α : Type} {P : α → Prop} {x : Exec α} (hx : Plain ok P x) :
    Woven ok C Given b P fun _ => x
  | scope : Woven ok C Given true (fun _ => True) fun _ => Exec.scope
  /-- A text that cannot be read to its end. -/
  | unread {b : Bool} {α : Type} {P : α → Prop} {d : Diagnostic} (h : C (.text d)) :
    Woven ok C Given b P fun _ => throw (.unread d)
  /-- Host code whose exception ends the evaluation. It may call scripts through adapters. -/
  | perform {b : Bool} {ev : ι → Evaluator} {step : HostStep} {action : Action} (h : ok.Allows step action)
    (hadapters : ∀ cell (a : Adapter) method args, ok.frame a.scope → AllConfined ok args →
      Woven ok C Given false (fun found => ∀ v, found = some v → v.Confined ok)
        fun i => (ev i).callAdapter cell a method args) :
    Woven ok C Given b (·.Confined ok) fun i => (ev i).perform step action
  | imp {b : Bool} {α : Type} {P Q : α → Prop} {x : ι → Exec α} (hx : Woven ok C Given b P x)
    (h : ∀ a, P a → Q a) : Woven ok C Given b Q x
  | bind {b : Bool} {α β : Type} {P : α → Prop} {Q : β → Prop} {x : ι → Exec α}
    {f : ι → α → Exec β} (hx : Woven ok C Given b P x)
    (hf : ∀ a, P a → Woven ok C Given b Q fun i => f i a) : Woven ok C Given b Q fun i => x i >>= f i
  /-- A look at the machine, but not at its stack. -/
  | get {b : Bool} {β : Type} {Q : β → Prop} {f : ι → Machine → Exec β}
    (hfree : ∀ i m S, f i (m.onto S) = f i m)
    (hf : ∀ m : Machine, m.Confined ok → Woven ok C Given b Q fun i => f i m) :
    Woven ok C Given b Q fun i => MonadState.get >>= f i
  | onFailure {b : Bool} {α : Type} {P : α → Prop} {x : ι → Exec α} {clean : Machine → Machine}
    (hx : Woven ok C Given b P x) (hc : Machine.Ebbing clean) :
    Woven ok C Given b P fun i => Exec.onFailure (x i) clean
  | afterwards {b : Bool} {α : Type} {P : α → Prop} {x : ι → Exec α} {clean : Machine → Machine}
    (hx : Woven ok C Given b P x) (hc : Machine.Ebbing clean) :
    Woven ok C Given b P fun i => Exec.afterwards (x i) clean
  | mapFailure {b : Bool} {α : Type} {P : α → Prop} {x : ι → Exec α} {f : Failure → Failure}
    (hx : Woven ok C Given b P x) (hf : Running C f) :
    Woven ok C Given b P fun i => Exec.mapFailure (x i) f
  | inFrame {b : Bool} {α : Type} {P : α → Prop} {x : ι → Exec α} (name : String) (kind : FrameKind)
    (parent : ScopeId) {discard : α → Machine → Machine} (hx : Woven ok C Given true P x)
    (hd : ∀ a, Machine.Ebbing (discard a)) :
    Woven ok C Given b P fun i => Exec.inFrame name kind parent (x i) discard
  | onStack {b : Bool} {α : Type} {P : α → Prop} {x : ι → Exec α} (stack : List ScopeId)
    (hx : Woven ok C Given true P x) : Woven ok C Given b P fun i => Exec.onStack stack (x i)
  | deeper {b : Bool} {α : Type} {P : α → Prop} {x : ι → Exec α} (name : String) (args : List Value)
    (hx : Woven ok C Given b P x) : Woven ok C Given b P fun i => Exec.deeper name args (x i)
  | steadily {b : Bool} {P : Flow → Prop} {x : ι → Exec Flow} (hx : Woven ok C Given b P x) :
    Woven ok C Given b P fun i => Exec.steadily (x i)

namespace Woven

/-- What does not ask for the frame being evaluated in may stand where it can be asked for. -/
theorem widen (hx : Woven ok C Given b P x) : Woven ok C Given true P x := by
  induction hx with
  | given hx => exact .given hx
  | plain hx => exact .plain hx
  | scope => exact .scope
  | unread h => exact .unread h
  | perform h hadapters => exact .perform h hadapters
  | imp _ h ih => exact ih.imp h
  | bind _ _ ihx ihf => exact ihx.bind ihf
  | get hfree _ ih => exact .get hfree ih
  | onFailure _ hc ih => exact ih.onFailure hc
  | afterwards _ hc ih => exact ih.afterwards hc
  | mapFailure _ hf ih => exact ih.mapFailure hf
  | inFrame name kind parent _ hd ih => exact .inFrame name kind parent ih hd
  | onStack stack _ ih => exact .onStack stack ih
  | deeper name args _ ih => exact ih.deeper name args
  | steadily _ ih => exact ih.steadily

theorem locating (hx : Woven ok C Given b P x) {span : Span} {node : Unit → String}
    (h : C (.construct span (node ()))) : Woven ok C Given b P fun i => Exec.locating span node (x i) :=
  hx.mapFailure (.locate span node h)

/-- A step that goes one of two ways. -/
theorem ite {c : Prop} [Decidable c] {y : ι → Exec α} (hx : c → Woven ok C Given b P x)
    (hy : ¬c → Woven ok C Given b P y) : Woven ok C Given b P fun i => if c then x i else y i := by
  by_cases hc : c
  · simp only [if_pos hc]
    exact hx hc
  · simp only [if_neg hc]
    exact hy hc

end Woven

/-! ## What holds of woven computations -/

variable (ok C Given L) in
/-- What holds of the given families, and of what is put together from families of which it holds. -/
structure Woven.Closed : Prop where
  given : ∀ {α P} {x : ι → Exec α}, Given α P x → L P x
  imp : ∀ {α} {P Q : α → Prop} {x : ι → Exec α}, L P x → (∀ a, P a → Q a) → L Q x
  bind : ∀ {α β P Q} {x : ι → Exec α} {f : ι → α → Exec β}, L P x →
    (∀ a, P a → L Q fun i => f i a) → L Q fun i => x i >>= f i
  get : ∀ {β Q} {f : ι → Machine → Exec β}, (∀ m, m.Confined ok → L Q fun i => f i m) →
    L Q fun i => MonadState.get >>= f i
  around : ∀ {α P} {x y : ι → Exec α}, L P x → Around C x y → L P y

variable (ok C Given L) in
/-- What holds of quiet computations and of host code as well. -/
structure Woven.Rules : Prop extends Woven.Closed ok C Given L where
  quiet : ∀ {α P} {x : Exec α},
    (∀ m, m.Confined ok → CalmEnd ok (Failure.Begun C) P m (x m)) → L P fun _ => x
  perform : ∀ {ev : ι → Evaluator} {step action}, ok.Allows step action →
    (∀ cell (a : Adapter) method args, ok.frame a.scope → AllConfined ok args →
      L (fun found => ∀ v, found = some v → v.Confined ok) fun i => (ev i).callAdapter cell a method args) →
    L (·.Confined ok) fun i => (ev i).perform step action

theorem Woven.holds (hL : Woven.Rules ok C Given L) (hx : Woven ok C Given b P x) : L P x := by
  induction hx with
  | given hx => exact hL.given hx
  | plain hx => exact hL.quiet fun m hm => (hx.ends m hm).imp (fun _ h => h) fun _ => .inl
  | scope =>
    refine hL.quiet fun m hm => ?_
    cases hs : m.stack with
    | nil =>
      rw [scope_of_nil hs]
      exact ⟨.refl m, hm, .inl trivial⟩
    | cons id rest =>
      rw [scope_of_cons hs]
      exact ⟨.refl m, hm, trivial⟩
  | unread h => exact hL.quiet fun m hm => ⟨.refl m, hm, .inr ⟨_, rfl, h⟩⟩
  | perform h _ ih => exact hL.perform h ih
  | imp _ h ih => exact hL.imp ih h
  | bind _ _ ihx ihf => exact hL.bind ihx ihf
  | get _ _ ih => exact hL.get ih
  | onFailure _ hc ih => exact hL.around ih (around_onFailure _ hc)
  | afterwards _ hc ih => exact hL.around ih (around_afterwards _ hc)
  | mapFailure _ hf ih => exact hL.around ih (around_mapFailure _ hf)
  | inFrame name kind parent _ _ ih => exact hL.around ih (around_inFrame _ name kind parent _)
  | onStack stack _ ih => exact hL.around ih (around_onStack _ stack)
  | deeper name args _ ih => exact hL.around ih (around_deeper _ name args)
  | steadily _ ih => exact hL.around ih (around_steadily _)

/-! ## Host code -/

variable (ok L) in
/-- What holds of the steps of host code, and of what host code puts together from them and from what scripts
answer. -/
structure HostRules : Prop where
  step : ∀ {α P} {x : Exec α}, Local ok P x → L P fun _ => x
  raise : ∀ {α : Type} {P : α → Prop} (step : HostStep) (exception : String),
    L (α := α) P fun _ => throw (.raised step exception {})
  bind : ∀ {α β P Q} {x : ι → Exec α} {f : ι → α → Exec β}, L P x →
    (∀ a, P a → L Q fun i => f i a) → L Q fun i => x i >>= f i
  get : ∀ {β Q} {f : ι → Machine → Exec β}, (∀ i m S, f i (m.onto S) = f i m) →
    (∀ m, m.Confined ok → L Q fun i => f i m) → L Q fun i => MonadState.get >>= f i
  afterwards : ∀ {α P} {x : ι → Exec α} {clean : Machine → Machine}, L P x →
    Machine.Ebbing clean → L P fun i => Exec.afterwards (x i) clean
  attempt : ∀ {α P} {x : ι → Exec α}, L P x →
    L (fun r => ∀ a, r = .ok a → P a) fun i => Exec.attempt (x i)

namespace HostRules

variable (hL : HostRules ok L) {ev : ι → Evaluator}

include hL

theorem pure {α : Type} {P : α → Prop} {a : α} (h : P a) : L P fun _ => pure a := hL.step (plain_pure h).toLocal

variable (hadapters : ∀ cell (a : Adapter) method args, ok.frame a.scope → AllConfined ok args →
  L (fun found => ∀ v, found = some v → v.Confined ok) fun i => (ev i).callAdapter cell a method args)

include hadapters

theorem callBack (target : Value) (method : String) {args : List Value} (hargs : AllConfined ok args) :
    L (·.Confined ok) fun i => (ev i).callBack target method args := by
  have hno : Reply.Confined ok .notScripted := fun _ hv => by cases hv
  cases target with
  | host cell name =>
    refine hL.get (fun _ _ _ => rfl) fun m hm => ?_
    cases ha : m.store.adapter? cell with
    | none => exact hL.pure hno
    | some a =>
      refine hL.bind (hL.attempt (hadapters cell a method args (hm.adapter? ha) hargs)) fun answer hanswer => ?_
      cases answer with
      | ok found =>
        refine hL.pure fun v hv => ?_
        cases hv
        exact hanswer _ rfl v rfl
      | error message => exact hL.pure fun v hv => by cases hv
  | _ => exact hL.pure hno

theorem runAction (action : Action) : action.Confined ok →
    L (·.Confined ok) fun i => (ev i).runAction action := by
  induction action with
  | done value => exact fun h => hL.bind (hL.step (plain_copy h).toLocal) fun _ hv => hL.pure hv
  | create object =>
    intro h
    have hretain : Change ok fun m => { m with store := m.store.retainAll object.claims } :=
      change_of_ebbing ⟨_, Store.ebbs_retainAll object.claims, fun _ => rfl⟩
    have hc : (Contents.host object).Confined ok := h
    exact hL.bind (hL.step (plain_modify hretain).toLocal) fun _ _ =>
      hL.bind (hL.step (local_alloc hc)) fun _ _ => hL.pure trivial
  | raise message => exact fun _ => hL.pure trivial
  | inspect object next ih =>
    intro h
    have hnone : ∀ o : HostObject, none = some o → o.Confined ok := fun o ho => by cases ho
    cases object with
    | host cell name =>
      exact hL.get (fun _ _ _ => rfl) fun m hm => ih _ (h _ fun o ho => hm.host? ho)
    | _ => exact ih none (h none hnone)
  | update object contents next ih =>
    intro h
    unfold Evaluator.runAction
    cases object with
    | host cell name =>
      refine hL.bind (hL.step (P := fun _ => True) ⟨fun _ _ _ => rfl, fun m hm => ?_⟩) fun _ _ => ih h.2
      have hretained := hm.ebbs (Store.ebbs_retainAll contents.claims m.store)
      have hcontents : (Contents.host contents).Confined ok := h.1 cell name rfl
      exact ⟨.ofStore m _, (hretained.setContents cell hcontents).ebbs (Store.ebbs_dropAll _ _), trivial⟩
    | _ => exact ih h.2
  | textOf locked value next ih =>
    exact fun h => hL.bind (hL.step (plain_textOf value locked).toLocal) fun text _ => ih text (h text)
  | keep values next ih =>
    intro h
    have hcopy : Plain ok (· = values) (copyAll values) :=
      .modify (change_of_ebbing (Machine.ebbing_foldl Machine.ebbing_retain values)) (plain_pure rfl)
    refine hL.bind (hL.step hcopy.toLocal) fun kept hkept => ?_
    subst hkept
    exact hL.afterwards (ih h) (Machine.ebbing_dropAll _)
  | notify target method args next ih | ask target method args next ih =>
    intro h
    unfold Evaluator.runAction
    refine hL.bind (hL.callBack hadapters target method h.1) fun reply hreply => ?_
    have hnext := ih reply (h.2 reply hreply)
    cases reply with
    | answered found =>
      cases found with
      | none => exact hnext
      | some v =>
        -- an answer is dropped before or after what comes next
        first
        | exact hL.bind (hL.step (plain_drop v).toLocal) fun _ _ => hnext
        | exact hL.afterwards hnext (Machine.ebbing_drop v)
    | _ => exact hnext

theorem perform {step : HostStep} {action : Action} (h : ok.Allows step action) :
    L (·.Confined ok) fun i => (ev i).perform step action := by
  refine hL.get (fun _ _ _ => rfl) fun m _ =>
    hL.bind (hL.runAction hadapters action h.confined) fun result hresult => ?_
  have hnote : Local ok (fun _ => True) (modify fun m' => { m' with journal := ⟨step, result⟩ :: m.journal }) :=
    ⟨fun _ _ _ => rfl, fun m' hm' => ⟨.ofJournal m' _, hm'.congr rfl rfl, trivial⟩⟩
  refine hL.bind (hL.step hnote) fun _ _ => ?_
  cases result with
  | returned v => exact hL.pure (show v.Confined ok from hresult)
  | raised exception => exact hL.raise step exception

end HostRules

variable (ok C Given L) in
/-- What holds of all computations that do not depend on the member as well, and of what host code puts together. -/
structure Woven.Logic : Prop extends Woven.Closed ok C Given L where
  constant : ∀ {α P} {x : Exec α},
    (∀ m, m.Confined ok → EndsIn ok (Failure.Begun C) P m (x m)) → L P fun _ => x
  raise : ∀ {α : Type} {P : α → Prop} (step : HostStep) (exception : String),
    L (α := α) P fun _ => throw (.raised step exception {})
  attempt : ∀ {α P} {x : ι → Exec α}, L P x →
    L (fun r => ∀ a, r = .ok a → P a) fun i => Exec.attempt (x i)

theorem Woven.Logic.hostRules (hL : Woven.Logic ok C Given L) : HostRules ok L :=
  ⟨fun hx => hL.constant fun m hm => (hx.ends m hm).imp (fun _ h => h) fun _ => .inl, hL.raise, hL.bind,
    fun _ => hL.get, fun hx hc => hL.around hx (around_afterwards _ hc), hL.attempt⟩

/-- What is closed under everything holds of woven computations and of the host code in them. -/
theorem Woven.logically (hL : Woven.Logic ok C Given L) (hx : Woven ok C Given b P x) : L P x := by
  have hrules : Woven.Rules ok C Given L :=
    ⟨hL.toClosed, fun hx => hL.constant fun m hm => (hx m hm).endsIn,
      fun h hadapters => hL.hostRules.perform hadapters h⟩
  exact hx.holds hrules

/-! ## How woven computations fail -/

/-- A kind of failures that has all those that come up, and keeps them on their way out. -/
structure Failure.Kind (C : Culprit → Prop) (F : Files → Failure → Prop) : Prop where
  begun : ∀ {files : Files} {f : Failure}, f.Begun C files → F files f
  raised : ∀ {files : Files} (step : HostStep) (exception : String), F files (.raised step exception {})
  running : ∀ {files : Files} {φ : Failure → Failure} {f : Failure}, Running C φ → F files f → F files (φ f)

theorem Failure.kind_any (C : Culprit → Prop) : Failure.Kind C fun _ _ => True :=
  ⟨fun _ => trivial, fun _ _ => trivial, fun _ _ => trivial⟩

/-- Families whose members keep machines confined and fail in one way only. -/
def Exec.FailIn {ι : Type} (ok : Bounds) (F : Files → Failure → Prop) (α : Type) (P : α → Prop)
    (x : ι → Exec α) : Prop :=
  ∀ i m, m.Confined ok → EndsIn ok F P m (x i m)

theorem Exec.FailIn.around (hF : Failure.Kind C F) {y : ι → Exec α} (hx : FailIn ok F α P x)
    (hy : Around C x y) : FailIn ok F α P y :=
  fun i _ hm => hy.endsIn (fun h => hF.begun (.inl h)) hF.running (hx i) hm

theorem Exec.FailIn.failsOnly {F : Failure → Prop} (hx : FailIn .all (fun _ => F) α P x) (i : ι) :
    (x i).FailsOnly F := by
  intro m f m' h
  have hends := hx i m (.all m)
  rw [h] at hends
  exact hends.2.2

theorem Woven.failIn_logic (hF : Failure.Kind C F)
    (hgiven : ∀ {α : Type} {P : α → Prop} {x : ι → Exec α}, Given α P x → FailIn ok F α P x) :
    Woven.Logic ok C Given fun P x => FailIn ok F _ P x := by
  refine ⟨⟨hgiven, ?_, ?_, ?_, ?_⟩, ?_, ?_, ?_⟩
  · exact fun hx h i m hm => (hx i m hm).imp h fun _ hf => hf
  · exact fun hx hf i m hm => (hx i m hm).bind fun a m' ha _ hm' => hf a ha i m' hm'
  · exact fun hf i m hm => hf m hm i m hm
  · exact fun hx hy => hx.around hF hy
  · exact fun hx _ m hm => (hx m hm).imp (fun _ h => h) fun _ hf => hF.begun hf
  · exact fun step exception _ m hm => ⟨.refl m, hm, hF.raised step exception⟩
  · exact fun hx i m hm => (hx i m hm).attempt

/-- **What is woven from computations that fail in one way fails in this way.** -/
theorem Woven.failIn (hF : Failure.Kind C F)
    (hgiven : ∀ {α : Type} {P : α → Prop} {x : ι → Exec α}, Given α P x → FailIn ok F α P x)
    (hx : Woven ok C Given b P x) : FailIn ok F α P x :=
  hx.logically (Woven.failIn_logic hF hgiven)

end HostScript
