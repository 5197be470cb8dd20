import HostScript.Proofs.DisciplinedEvaluation
import HostScript.Proofs.TypedSteps

/-!
# Evaluation keeps the machine typed

Faithful host code keeps machines typed, and so do the scripted methods that it calls
(`Evaluator.keeps_runAction`). So typing is a discipline (`typing`), and evaluation with any allowance keeps to
it (`typed_evaluator`).
-/

set_option autoImplicit false

namespace HostScript

variable {v : Value} {τ : Layout}

theorem fits_of_fitAll (h : FitAll τ [v]) : v.Fits τ :=
  h v List.mem_cons_self

theorem fitAll_singleton (h : v.Fits τ) : FitAll τ [v] :=
  fitAll_cons.2 ⟨h, fitAll_nil⟩

theorem Value.Fits.some (h : v.Fits τ) : ∀ u, some v = some u → u.Fits τ :=
  fun _ hu => Option.some.inj hu ▸ h

/-! ## Host code -/

namespace Evaluator

open Exec

variable {ev : Evaluator}
  (hadapters : ∀ τ cell (a : Adapter) method args, FitAll τ args → YieldsIf τ (ev.callAdapter cell a method args))

include hadapters

theorem keeps_callBack (target : Value) (method : String) {args : List Value} (hargs : FitAll τ args) :
    Keeps τ (fun τ' reply => reply.Fits τ') (ev.callBack target method args) := by
  have hnone : ∀ reply : Reply, (∀ v, reply ≠ .answered (some v)) →
      Keeps τ (fun τ' reply => reply.Fits τ') (pure reply) :=
    fun reply hr => keeps_pure fun v hv => absurd hv (hr v)
  unfold callBack
  split
  · refine .get fun m _ => ?_
    split
    · refine (hadapters τ _ _ method args hargs).attempt.bind fun _ answer _ hanswer => ?_
      cases answer with
      | ok found => exact keeps_pure fun v hv => hanswer found rfl v (Reply.answered.inj hv)
      | error message => exact keeps_pure fun v hv => absurd hv (by simp)
    · exact hnone .notScripted fun v => by simp
  · exact hnone .notScripted fun v => by simp

/-- **Faithful host code keeps the machine typed**, and so do the scripted methods that it calls. -/
theorem keeps_runAction (action : Action) : ∀ τ : Layout, action.Faithful τ →
    Keeps τ (fun τ' result => ∀ v, result = .returned v → v.Fits τ') (ev.runAction action) := by
  induction action with
  | done value =>
    intro τ hvalue
    refine (keeps_copy hvalue).bind fun _ v _ hv => keeps_pure fun w hw => ?_
    exact HostResult.returned.inj hw ▸ hv
  | create object =>
    intro τ hobject
    refine .modify (fun _ m hm => hm.ebbs (Store.ebbs_retainAll _ _)) ?_
    have hcontents : (Contents.host object).Fits τ none := hobject
    refine (keeps_alloc none hcontents).bind fun _ n _ _ => keeps_pure fun w hw => ?_
    exact HostResult.returned.inj hw ▸ trivial
  | raise message => exact fun τ _ => keeps_pure fun v hv => absurd hv (by simp)
  | inspect object next ih =>
    intro τ hnext
    unfold runAction
    split
    · exact .get fun m hm => ih _ τ (hnext _ fun o ho => hm.host? ho)
    · exact ih none τ (hnext none fun o ho => absurd ho (Option.some_ne_none o).symm)
  | update object contents next ih =>
    rintro τ ⟨hcontents, hnext⟩
    unfold runAction
    split
    · rename_i cell _
      refine .change (fun m hm => ?_) (ih τ hnext)
      -- what the object holds now fits, and what it held is dropped
      have hfits : ∀ element, (Contents.host contents).Fits τ element := fun _ => hcontents
      have hset := (hm.ebbs (Store.ebbs_retainAll contents.claims _)).setContents cell hfits
      exact hset.ebbs (Store.ebbs_dropAll _ _)
    · exact ih τ hnext
  | textOf locked value next ih =>
    exact fun τ hnext => .textOf locked value fun text => ih text τ (hnext text)
  | keep values next ih =>
    exact fun τ hnext => .copyAll values ((ih τ hnext).holdingAll values)
  | notify target method args next ih | ask target method args next ih =>
    rintro τ ⟨hargs, hnext⟩
    unfold runAction
    refine (keeps_callBack hadapters target method hargs).bind fun τ1 reply h1 hreply => ?_
    have hrest := ih reply τ1 (hnext τ1 h1 reply hreply)
    split
    · first | exact .modify (harmless_drop _) hrest | exact hrest.holding _
    · exact hrest

theorem keeps_perform (step : HostStep) {action : Action} (ha : action.Faithful τ) :
    Yields τ (ev.perform step action) := by
  refine .get fun m _ => ?_
  refine (keeps_runAction hadapters action τ ha).bind fun _ result _ hresult => ?_
  refine .modify (.of_same (fun _ => rfl) fun _ => rfl) ?_
  cases result with
  | returned v => exact keeps_pure (hresult v rfl)
  | raised message => exact keeps_throw _

end Evaluator

/-! ## The discipline -/

open Exec

theorem Exec.Keeps.deeper {α : Type} {P : Layout → α → Prop} {x : Exec α} (hx : Keeps τ P x) (name : String)
    (args : List Value) : Keeps τ P (deeper name args x) := by
  refine ⟨fun m hm => ?_⟩
  by_cases h : m.config.maxDepth ≤ m.depth
  · rw [deeper_of_le h]
    exact ⟨τ, List.prefix_rfl, harmless_of_ebbing (Machine.ebbing_dropAll args) τ m hm⟩
  · rw [deeper_of_lt (Nat.lt_of_not_le h), ← oneDeeper_eq]
    exact (Keeps.modify (harmless_depth fun m => m.depth + 1)
      (hx.afterwards (harmless_depth fun m => m.depth - 1))).kept m hm

/-- Machines are typed by layouts, which only grow. -/
def typingRegime : Regime Unit where
  Stage := Layout
  later τ τ' := τ <+: τ'
  upheld τ m := m.Typed τ
  admits τ v := v.Fits τ
  suits := Value.Obeys
  reaches _ := True
  permits τ _ action := action.Faithful τ
  blames _ := True
  runs _ τ _ P x := ∀ i, Keeps τ P (x i)

theorem HostClass.Faithful.admitted {c : HostClass} (h : c.Faithful) : typingRegime.admitsClass c where
  constructors m hm := h.constructors m hm
  methods m hm := h.methods m hm
  fields f hf := ⟨fun τ _ receiver _ => (h.fields f hf).read τ receiver, (h.fields f hf).write⟩

theorem Frame.fits_iff {f : Frame} : f.Fits τ ↔ typingRegime.admitsFrame τ f :=
  ⟨fun h e he => ⟨(h e he).value, (h e he).declared⟩, fun h e he => ⟨(h e he).1, (h e he).2⟩⟩

theorem Tidy.harmless {f : Machine → Machine} (hf : Tidy f) : Harmless f :=
  fun _ m hm => (hm.ebbs (hf.ebbs m)).congr rfl (hf.alike m).classes

/-- **Typing is a discipline.** -/
def typing : Discipline Unit where
  toRegime := typingRegime
  refl _ := List.prefix_rfl
  trans h h' := h.trans h'
  mono h hv := hv.mono h
  object := Iff.rfl
  simple _ h := Value.fits_of_ne_array h
  suits_fit := Machine.obeys_fit
  suits_adapter := Machine.obeys_adapter
  suits_initial := Value.obeys_initial
  suits_object _ := trivial
  frames hm hf := Frame.fits_iff.1 (hm.frames _ _ hf)
  items hm n hv := (hm.items n _ hv).1
  adapters _ _ := trivial
  classes hm c hc := (hm.classes c hc).admitted
  pure h _ := keeps_pure h
  throw _ _ := keeps_throw _
  unread _ _ := keeps_throw _
  widen h := h
  imp hx h i := (hx i).imp h
  bind hx hf i := (hx i).bind fun τ' a h ha => hf τ' a h ha i
  get _ hf i := .get fun m hm => hf m hm i
  onFailure hx hc i := (hx i).onFailure (harmless_of_ebbing hc)
  afterwards hx hc i := (hx i).afterwards (harmless_of_ebbing hc)
  mapFailure hx _ i := (hx i).mapFailure _
  inFrame name kind parent _ hx hd i := (hx i).inFrame name kind parent fun a => harmless_of_ebbing (hd a)
  onStack stack hx i := .onStack stack (hx i)
  deeper name args hx i := (hx _ List.prefix_rfl i).deeper name args
  steadily hx i := (hx i).steadily
  perform ha hadapters i :=
    Evaluator.keeps_perform (fun τ cell a method args hargs => hadapters τ cell a method args trivial hargs i) _ ha
  scope _ := keeps_scope
  setItem hn hv hs _ :=
    ⟨fun _ hm => ⟨_, List.prefix_rfl, harmless_drop _ _ _ (hm.setItem _ hn hv hs), trivial⟩⟩
  setAdapter _ _ := keeps_modify fun _ _ hm => hm.setContents _ fun _ => trivial
  modify hf _ := keeps_modify hf.harmless
  look h _ := keeps_look h
  changeFrame id _ h _ := keeps_changeFrame id fun g hg => (h g (Frame.fits_iff.1 hg)).imp_left Frame.fits_iff.2
  hold id _ := keeps_hold id
  declare name params returns body _ := keeps_declare name params returns body
  makeArray hitems hsuits _ := keeps_makeArray _ hitems hsuits
  allocAdapter _ _ := (keeps_alloc none (show (Contents.adapter _).Fits _ none from trivial)).imp
    fun _ _ _ _ => trivial
  workingDirectory _ := keeps_workingDirectory
  entryAt path _ := keeps_entryAt path

/-! ## Evaluation -/

namespace Evaluator

/-- The evaluation of expressions and statements keeps machines typed and yields values that fit. -/
structure Typed (ev : Evaluator) : Prop where
  expr : ∀ τ e, Yields τ (ev.expr e)
  stmt : ∀ τ s, Keeps τ typing.admitsFlow (ev.stmt s)

namespace Typed

variable {ev : Evaluator} (hev : ev.Typed)

include hev

theorem evaluates (e : Expr) : typing.Evaluates (fun _ => ev) e := ⟨trivial, fun τ _ => hev.expr τ e⟩

theorem free : typing.Free fun _ => ev := ⟨fun _ => trivial, fun s τ _ => hev.stmt τ s⟩

theorem calls : typing.Calls fun _ => ev := fun _ method _ hargs =>
  Discipline.invokeScripted method hargs fun _ types hargs =>
    Discipline.runCall method types hargs fun s _ => hev.free.stmt s

theorem callAdapter {τ : Layout} (cell : Nat) (a : Adapter) (method : String) {args : List Value}
    (hargs : FitAll τ args) : YieldsIf τ (ev.callAdapter cell a method args) :=
  Discipline.callAdapter hev.calls cell method trivial hargs ()

end Typed

end Evaluator

/-- **Evaluation keeps machines typed**, whatever its allowance. -/
theorem typed_evaluator (allowance : Nat) : (evaluator allowance).Typed := by
  induction allowance with
  | zero => exact ⟨fun _ _ => keeps_throw _, fun _ _ => keeps_throw _⟩
  | succ allowance ih =>
    -- the parts of an expression or a statement run with the smaller allowance
    refine ⟨fun τ e => ?_, fun τ s => ?_⟩
    · have hform : Yields τ ((evaluator allowance).exprFormWith (evaluator allowance) e) :=
        Discipline.exprFormWith ih.calls e (fun e' _ => ih.evaluates e')
          (fun _ _ => typing.thisObject fun _ => trivial) (fun _ _ => typing.outerObject fun _ => trivial)
          (fun _ => ih.free) ()
      show Yields τ (evalExpr (allowance + 1) e)
      rw [evalExpr]
      exact (Evaluator.exprFormWith_self _ e ▸ hform).locating _ _
    · show Keeps τ typing.admitsFlow (evalStmt (allowance + 1) s)
      rw [evalStmt]
      exact Discipline.anyStep (fun e _ => ih.evaluates e) (fun s _ => ih.free.stmt s) allowance
        (fun _ _ => trivial) (fun _ _ => keeps_throw _) ()

end HostScript
