import HostScript.Host.Toolkit
import HostScript.Proofs.LexicalScope

/-!
# Exceptions of host code

Evaluation notes every call of host code that it makes itself in a journal, with its result. Host code is what
classes have registered (`Classes.Code`). Every run that is not stopped from outside adds to the journal what
registered code has returned, and an exception at the end if and only if it fails with it (`Exec.AccountsFor`,
`Woven.accounted`). So nothing is swallowed: a call that raises is the last one. Wherever evaluation comes upon
host code it runs that code and notes it (`Evaluator.Uses.surfaces`), so that nothing is missing either.
-/

set_option autoImplicit false

namespace HostScript

open Exec

variable {b : Bool} {α : Type} {cs : Classes} {m m' : Machine} {P : α → Prop} {x : Unit → Exec α}
  {C : Culprit → Prop} {old earlier : List HostCallback} {step : HostStep} {exception : String}

/-! ## Registered host code -/

/-- Code that classes have registered: the body of a method or a constructor, and what reads or writes a field,
with what it is given. -/
inductive Classes.Code (cs : Classes) : HostStep → Action → Prop
  | call {c : HostClass} (hc : c ∈ cs.records) {method : HostMethod}
    (hmethod : method ∈ c.constructors ∨ method ∈ c.methods) {body : Option Value → List Value → Action}
    (hbody : method.body = some body) (receiver : Option Value) (args : List Value) :
    cs.Code (.calling method.signature) (body receiver args)
  | read {c : HostClass} (hc : c ∈ cs.records) {field : HostField} (hfield : field ∈ c.fields) {step : HostStep}
    (hstep : step.Reads field.name) (receiver : Option Value) : cs.Code step (field.read receiver)
  | write {c : HostClass} (hc : c ∈ cs.records) {field : HostField} (hfield : field ∈ c.fields)
    {write : Option Value → Value → Action} (hwrite : field.write = some write) (receiver : Option Value)
    (value : Value) : cs.Code (.writing field.name) (write receiver value)

/-- The bounds of what is registered. -/
abbrev Bounds.registered (cs : Classes) : Bounds := .hosting cs.Code

theorem Machine.confined_registered (h : m.classes = cs) : m.Confined (.registered cs) := by
  subst h
  have hallows : ∀ {step : HostStep} {action : Action}, m.classes.Code step action →
      (Bounds.registered m.classes).Allows step action := fun h => ⟨Action.confined_all _, h⟩
  refine ⟨fun _ _ _ e _ => e.2.value.confined_all, fun n c _ => c.contents.confined_all, fun c hc => ?_⟩
  refine ⟨fun method hm body hbody receiver args _ => ?_, fun method hm body hbody receiver args _ => ?_,
    fun field hf => ⟨fun step receiver hstep _ => ?_, fun write hwrite receiver value _ => ?_⟩⟩
  · exact hallows (.call hc (.inl hm) hbody receiver args)
  · exact hallows (.call hc (.inr hm) hbody receiver args)
  · exact hallows (.read hc hf hstep receiver)
  · exact hallows (.write hc hf hwrite receiver value)

/-! ## Journals -/

/-- From one journal to another one by calls of registered code that return. Each is made in a machine with the
journal so far. -/
inductive Classes.Noted (cs : Classes) (old : List HostCallback) : List HostCallback → Prop
  | none : cs.Noted old old
  | call {ev : Evaluator} {step : HostStep} {action : Action} {before after : Machine} {v : Value}
    (earlier : cs.Noted old before.journal) (hclasses : before.classes = cs) (hcode : cs.Code step action)
    (hrun : ev.runAction action before = .ok (.returned v) after) :
    cs.Noted old (⟨step, .returned v⟩ :: before.journal)

/-- A call of registered code that raises an exception in a machine with the journal so far, and the machine that it
leaves. -/
inductive Classes.Raises (cs : Classes) (old : List HostCallback) (step : HostStep) (exception : String) :
    List HostCallback → Machine → Prop
  | call {ev : Evaluator} {action : Action} {before after : Machine} (earlier : cs.Noted old before.journal)
    (hclasses : before.classes = cs) (hcode : cs.Code step action)
    (hrun : ev.runAction action before = .ok (.raised exception) after) :
    cs.Raises old step exception before.journal after

theorem Classes.Noted.trans {later : List HostCallback} (h : cs.Noted old earlier) (h' : cs.Noted earlier later) :
    cs.Noted old later := by
  induction h' with
  | none => exact h
  | call _ hclasses hcode hrun ih => exact .call ih hclasses hcode hrun

/-- What was noted are calls that have returned. -/
theorem Classes.Noted.calls (h : cs.Noted old earlier) :
    ∃ calls, earlier = calls ++ old ∧ ∀ call ∈ calls, ∃ v, call.result = .returned v := by
  induction h with
  | none => exact ⟨[], rfl, fun _ hcall => absurd hcall List.not_mem_nil⟩
  | @call ev step action before after v _ _ _ _ ih =>
    obtain ⟨calls, heq, hreturned⟩ := ih
    refine ⟨⟨step, .returned v⟩ :: calls, by rw [heq, List.cons_append], ?_⟩
    rintro call (_ | ⟨_, hcall⟩)
    · exact ⟨v, rfl⟩
    · exact hreturned call hcall

theorem Classes.Raises.after {after : Machine} (h : cs.Noted old earlier) {noted : List HostCallback}
    (h' : cs.Raises earlier step exception noted after) : cs.Raises old step exception noted after := by
  cases h' with
  | call hnoted hclasses hcode hrun => exact .call (h.trans hnoted) hclasses hcode hrun

/-- A failure that is accounted for. -/
structure Failure.Accounted (m : Machine) (f : Failure) (m' : Machine) : Prop where
  /-- An exception comes from the last call that was noted. After the call nothing is printed and nothing is stored:
  what is left of its frames and cells is as the call left it. -/
  raised : ∀ step exception place, f = .raised step exception place →
    ∃ noted after, m.classes.Raises m.journal step exception noted after ∧
      m'.journal = ⟨step, .raised exception⟩ :: noted ∧ m'.console = after.console ∧ after.store.Ebbs m'.store
  /-- Before any other failure all host code has returned, unless the run was stopped from outside. -/
  others : (∀ step exception place, f ≠ .raised step exception place) → (∀ cause, f ≠ .stopped cause) →
    m.classes.Noted m.journal m'.journal

theorem Failure.Accounted.ofStop (m m' : Machine) (cause : Suspension) : (Failure.stopped cause).Accounted m m' := by
  refine ⟨fun step exception place hf => ?_, fun _ hstopped => absurd rfl (hstopped cause)⟩
  cases hf

/-- An end that is accounted for. -/
def Exec.AccountsFor (m : Machine) : Exec.Result α → Prop
  | .ok _ m' => m.classes.Noted m.journal m'.journal
  | .error f m' => f.Accounted m m'

/-! ## The way out -/

/-- On its way out an exception stays one, and nothing else becomes one. -/
theorem Running.raised_iff {φ : Failure → Failure} (hφ : Running C φ) {f : Failure}
    {step : HostStep} {exception : String} :
    (∃ place, φ f = .raised step exception place) ↔ ∃ place, f = .raised step exception place := by
  cases hφ with
  | same => rfl
  | locate span node =>
    cases f with
    | fault _ place | raised _ _ place => cases hs : place.span <;> simp [Failure.locate, hs]
    | unread | broken | input | stopped => simp [Failure.locate]
  | label source => cases f <;> simp [Failure.label]
  | dangle =>
    cases f with
    | broken cause => cases cause <;> simp [Failure.dangle]
    | unread | fault | raised | input | stopped => simp [Failure.dangle]

theorem Failure.Accounted.running {f : Failure} {m0 m'' : Machine} (h : f.Accounted m0 m')
    (hjournal : m0.journal = m.journal) (hclasses : m0.classes = m.classes) {φ : Failure → Failure}
    (hφ : Running C φ) (hleft : m'.Remains m'') : (φ f).Accounted m m'' := by
  refine ⟨fun step exception place hf => ?_, fun hraised hstopped => ?_⟩
  · obtain ⟨place', hf'⟩ := hφ.raised_iff.1 ⟨place, hf⟩
    obtain ⟨noted, after, hraises, hnoted, hconsole, hebbs⟩ := h.raised step exception place' hf'
    rw [hclasses, hjournal] at hraises
    exact ⟨noted, after, hraises, hleft.journal.trans hnoted, hleft.console.trans hconsole, hebbs.trans hleft.ebbs⟩
  · rw [hleft.journal, ← hjournal, ← hclasses]
    refine h.others (fun step exception place hf => ?_) fun cause hf => ?_
    · obtain ⟨place', hf'⟩ := hφ.raised_iff.2 ⟨place, hf⟩
      exact hraised step exception place' hf'
    · exact hstopped cause (hf ▸ hφ.stopped cause)

/-- What follows after some calls is accounted for with them. -/
theorem Exec.AccountsFor.after {m1 : Machine} (hnoted : m.classes.Noted m.journal m1.journal)
    (hclasses : m1.classes = m.classes) :
    ∀ {r : Exec.Result α}, AccountsFor m1 r → AccountsFor m r := by
  rintro (⟨a, m'⟩ | ⟨f, m'⟩) hr
  · exact hnoted.trans (hclasses ▸ hr)
  · refine ⟨fun step exception place hf => ?_, fun hraised hstopped => ?_⟩
    · obtain ⟨noted, after, hraises, hrest⟩ := hr.raised step exception place hf
      exact ⟨noted, after, .after hnoted (hclasses ▸ hraises), hrest⟩
    · exact hnoted.trans (hclasses ▸ hr.others hraised hstopped)

/-- Where host code has no part the journal stays as it is. -/
theorem Exec.CalmEnd.accounts {ok : Bounds} :
    ∀ {r : Exec.Result α}, CalmEnd ok (Failure.Begun C) P m r → AccountsFor m r := by
  rintro (⟨a, m'⟩ | ⟨f, m'⟩) h
  · show m.classes.Noted m.journal m'.journal
    rw [h.1.journal]
    exact .none
  · refine ⟨fun step exception place hf => ?_, fun _ _ => h.1.journal ▸ .none⟩
    subst hf
    rcases h.2.2 with hplain | ⟨d, hd, -⟩
    · exact hplain.elim
    · cases hd

/-! ## Host code stops only from outside -/

/-- Computations that fail only when they are stopped from outside. -/
abbrev Exec.OnlyStopped {α : Type} (x : Exec α) : Prop := x.FailsOnly fun f => ∃ cause, f = .stopped cause

theorem Exec.onlyStopped_attempt (x : Exec α) : (Exec.attempt x).OnlyStopped := by
  intro m e m' h
  unfold Exec.attempt at h
  cases hr : x m with
  | ok a m1 => simp [hr] at h
  | error e1 m1 =>
    cases e1 with
    | stopped cause =>
      simp only [hr] at h
      cases h
      exact ⟨cause, rfl⟩
    | unread | fault | raised | broken | input => simp [hr] at h

theorem Exec.onlyStopped_textOf (v : Value) (locked : Option Value) : (textOf v locked).OnlyStopped := by
  refine .get fun m => ?_
  split
  · exact .pure _
  · exact .throw ⟨.endless, rfl⟩

namespace Evaluator

variable (ev : Evaluator)

theorem onlyStopped_callBack (target : Value) (method : String) (args : List Value) :
    (ev.callBack target method args).OnlyStopped := by
  cases target with
  | host cell name =>
    refine .get fun m => ?_
    cases m.store.adapter? cell with
    | none => exact .pure _
    | some a =>
      refine .bind (onlyStopped_attempt _) fun answer => ?_
      cases answer with
      | ok found => exact .pure _
      | error message => exact .pure _
  | _ => exact .pure _

theorem onlyStopped_runAction (action : Action) : (ev.runAction action).OnlyStopped := by
  induction action with
  | done value => exact .bind (.of_yields fun m => ⟨_, _, rfl⟩) fun _ => .pure _
  | create object =>
    exact .bind (.of_yields fun m => ⟨_, _, rfl⟩) fun _ => .bind (.of_yields fun m => ⟨_, _, rfl⟩) fun _ => .pure _
  | raise message => exact .pure _
  | inspect object next ih =>
    cases object with
    | host cell name => exact .get fun m => ih _
    | _ => exact ih none
  | update object contents next ih =>
    cases object with
    | host cell name => exact .bind (.of_yields fun m => ⟨_, _, rfl⟩) fun _ => ih
    | _ => exact ih
  | textOf locked value next ih => exact .bind (onlyStopped_textOf value locked) fun text => ih text
  | keep values next ih => exact .bind (.of_yields fun m => ⟨_, _, rfl⟩) fun _ => ih.afterwards _
  | notify target method args next ih | ask target method args next ih =>
    unfold Evaluator.runAction
    refine .bind (ev.onlyStopped_callBack target method args) fun reply => ?_
    cases reply with
    | answered found =>
      cases found with
      | none => exact ih _
      | some v => first | exact .bind (.of_yields fun m => ⟨_, _, rfl⟩) fun _ => ih _ | exact (ih _).afterwards _
    | _ => exact ih _

end Evaluator

/-! ## Evaluations are accounted for -/

/-- Running host code is accounted for. -/
theorem Evaluator.accounts_perform (ev : Evaluator) {action : Action} (hcode : m.classes.Code step action) :
    AccountsFor m (ev.perform step action m) := by
  cases hrun : ev.runAction action m with
  | ok result m' =>
    have hperform : ev.perform step action m = _ := (get_bind m).trans (bind_of_ok hrun)
    rw [hperform]
    cases result with
    | returned v => exact .call .none rfl hcode hrun
    | raised exception =>
      refine ⟨fun step' exception' place hf => ?_, fun hraised _ => absurd rfl (hraised _ _ _)⟩
      cases hf
      exact ⟨m.journal, m', .call .none rfl hcode hrun, rfl, rfl, .refl _⟩
  | error f m' =>
    obtain ⟨cause, rfl⟩ := ev.onlyStopped_runAction action m f m' hrun
    have hperform : ev.perform step action m = _ := (get_bind m).trans (bind_of_error hrun)
    rw [hperform]
    exact .ofStop m m' cause

/-- Families that keep machines confined to what is registered, and are accounted for. -/
structure Exec.Accounted (cs : Classes) {α : Type} (P : α → Prop) (x : Unit → Exec α) : Prop where
  ends : FailIn (.registered cs) (fun _ _ => True) α P x
  accounts : ∀ m : Machine, m.classes = cs → AccountsFor m (x () m)

theorem Exec.Accounted.around {y : Unit → Exec α} (hx : Accounted cs P x)
    (hy : Around (fun _ => True) x y) : Accounted cs P y := by
  refine ⟨hx.ends.around (Failure.kind_any _) hy, fun m hm => ?_⟩
  rcases hy m with ⟨r, hr, hrun⟩ | ⟨m0, T, hm0, -, hT, hrun⟩
  · rw [hrun]
    exact CalmEnd.accounts (C := fun _ => True) ((hr .all P (.all m)).imp (fun _ h => h) fun _ => .inl)
  · have hclasses : m0.classes = m.classes := hm0.limits.2.2.2
    have haccounts := hx.accounts m0 (hclasses.trans hm)
    rw [hrun () (hx.ends () m0 (Machine.confined_registered (hclasses.trans hm))).keepsStack]
    cases hr : x () m0 with
    | ok a m' =>
      rw [hr] at haccounts
      obtain ⟨m'', hpassed, -, hleft⟩ := hT.ok a m'
      rw [hpassed]
      have hnoted : m0.classes.Noted m0.journal m'.journal := haccounts
      rw [hclasses, hm0.journal, ← hleft.journal] at hnoted
      exact hnoted
    | error f m' =>
      rw [hr] at haccounts
      obtain ⟨φ, m'', hφ, hpassed, -, hleft⟩ := hT.error f m'
      rw [hpassed]
      exact Failure.Accounted.running haccounts hm0.journal hclasses hφ hleft

/-- **What is woven from failures is accounted for**, whatever host code there is. -/
theorem Woven.accounted
    (hx : Woven (.registered cs) (fun _ => True) (Thrown (· = .stopped .exhausted)) b P x) :
    Accounted cs P x := by
  have hlogic : Woven.Logic (.registered cs) (fun _ => True) (Thrown (· = .stopped .exhausted))
      fun P (x : Unit → Exec _) => FailIn (.registered cs) (fun _ _ => True) _ P x :=
    Woven.failIn_logic (Failure.kind_any _) (Thrown.failIn fun _ _ _ => trivial)
  refine hx.holds (L := fun P x => Accounted cs P x) ⟨⟨?_, ?_, ?_, ?_, ?_⟩, ?_, ?_⟩
  · intro α P x hx
    refine ⟨hlogic.given hx, fun m _ => ?_⟩
    obtain ⟨f, rfl, rfl⟩ := hx
    exact .ofStop m m .exhausted
  · exact fun hx h => ⟨hlogic.imp hx.ends h, hx.accounts⟩
  · intro α β P Q x f hx hf
    refine ⟨hlogic.bind hx.ends fun a ha => (hf a ha).ends, fun m hm => ?_⟩
    have haccounts := hx.accounts m hm
    have hends := hx.ends () m (Machine.confined_registered hm)
    cases hrun : x () m with
    | error e m' =>
      rw [hrun] at haccounts
      rw [bind_of_error hrun]
      exact haccounts
    | ok a m' =>
      rw [hrun] at haccounts hends
      have hclasses : m'.classes = m.classes := hends.1.classes
      rw [bind_of_ok hrun]
      exact .after haccounts hclasses ((hf a hends.2.2).accounts m' (hclasses.trans hm))
  · intro β Q f hf
    exact ⟨hlogic.get fun m hm => (hf m hm).ends,
      fun m hm => (hf m (Machine.confined_registered hm)).accounts m hm⟩
  · exact Accounted.around
  · exact fun hx => ⟨hlogic.constant fun m hm => (hx m hm).endsIn,
      fun m hm => (hx m (Machine.confined_registered hm)).accounts⟩
  · intro ev step action h hadapters
    exact ⟨hlogic.hostRules.perform (fun cell a method args ha hargs => (hadapters cell a method args ha hargs).ends) h,
      fun m hm => (ev ()).accounts_perform (hm ▸ h.code)⟩

/-! ## Where host code is used -/

/-- What evaluation comes upon host code with: a call that is allowed and has as many arguments as it should, reads of
fields of objects, of classes and of bound objects, and writes of fields. The last machine is the one in which the code
is run. -/
inductive Evaluator.Uses (ev : Evaluator) (m : Machine) : {α : Type} → Exec α → HostStep → Action → Machine → Prop
  | call {method : HostMethod} {body : Option Value → List Value → Action} {receiver : Option Value} {args : List Value}
    (haccessible : method.accessible = true) (hbody : method.body = some body) (harity : args.length = method.arity) :
    ev.Uses m (ev.callHost method receiver args) (.calling method.signature) (body receiver args) m
  | field {c : HostClass} {name : String} {field : HostField} (object : Value) (h : c.field? name = some field) :
    ev.Uses m (ev.read (.field object c name)) (.reading name) (field.read (some object)) m
  | staticField {c : HostClass} {name : String} {field : HostField} (h : c.field? name = some field) :
    ev.Uses m (ev.read (.staticField c name)) (.reading name) (field.read none) m
  | bound {c : HostClass} {name : String} {field : HostField} {bound : Nat × String}
    (hc : m.classes.load? bound.2 = some c) (h : c.instanceField? name = some field) :
    ev.Uses m (ev.boundField name bound) (.readingBound name bound.2) (field.read (some (.host bound.1 bound.2)))
      (m.retain (.host bound.1 bound.2))
  | write (name : String) (receiver : Option Value) (value : Value) (write : Option Value → Value → Action) :
    ev.Uses m (ev.writeField name receiver value write) (.writing name) (write receiver value) m

/-- Host code is run and noted, and an exception is what the run fails with. -/
structure Exec.Surfaces {α : Type} (ev : Evaluator) (m : Machine) (x : Exec α) (step : HostStep) (action : Action)
    (before : Machine) : Prop where
  returned : ∀ v after, ev.runAction action before = .ok (.returned v) after →
    ∃ a m', x m = .ok a m' ∧ m'.journal = ⟨step, .returned v⟩ :: m.journal
  raised : ∀ exception after, ev.runAction action before = .ok (.raised exception) after →
    ∃ m', x m = .error (.raised step exception {}) m' ∧ m'.journal = ⟨step, .raised exception⟩ :: m.journal ∧
      m'.console = after.console ∧ after.store.Ebbs m'.store

theorem Evaluator.surfaces_perform (ev : Evaluator) (m : Machine) (step : HostStep) (action : Action) :
    Surfaces ev m (ev.perform step action) step action m := by
  constructor
  · intro v after hrun
    exact ⟨v, _, (get_bind m).trans (bind_of_ok hrun), rfl⟩
  · intro exception after hrun
    exact ⟨_, (get_bind m).trans (bind_of_ok hrun), rfl, rfl, .refl _⟩

/-- **Host code that evaluation comes upon is run and noted, and its exceptions surface.** -/
theorem Evaluator.Uses.surfaces {ev : Evaluator} {α : Type} {x : Exec α} {action : Action} {before : Machine}
    (h : ev.Uses m x step action before) : Surfaces ev m x step action before := by
  cases h with
  | @call method body receiver args haccessible hbody harity =>
    have hcall : ev.callHost method receiver args = ev.perform (.calling method.signature) (body receiver args) := by
      unfold Evaluator.callHost
      simp only [haccessible, hbody, harity, Bool.not_true, Bool.false_eq_true, if_false, bne_self_eq_false]
    rw [hcall]
    exact ev.surfaces_perform m _ _
  | field object h | staticField h =>
    unfold Evaluator.read
    simp only [h]
    exact ev.surfaces_perform m _ _
  | @bound c name field bound hc h =>
    have hperform := ev.surfaces_perform (m.retain (.host bound.1 bound.2)) (.readingBound name bound.2)
      (field.read (some (.host bound.1 bound.2)))
    have hcopy : copy (.host bound.1 bound.2) m = .ok (.host bound.1 bound.2) (m.retain (.host bound.1 bound.2)) := rfl
    have hfield : ev.boundField name bound m = _ := get_bind m
    simp only [hc, h] at hfield
    have hheld := hfield.trans (bind_of_ok hcopy)
    -- the object is held on to while the field is read
    have hdropped := afterwards_eq (ev.perform (.readingBound name bound.2) (field.read (some (.host bound.1 bound.2))))
      (·.drop (.host bound.1 bound.2)) (m.retain (.host bound.1 bound.2))
    refine ⟨fun v after hrun => ?_, fun exception after hrun => ?_⟩
    · obtain ⟨a, m', hran, hnoted⟩ := hperform.returned v after hrun
      rw [hran] at hdropped
      exact ⟨some a, _, hheld.trans (bind_of_ok hdropped), hnoted⟩
    · obtain ⟨m', hran, hnoted, hconsole, hebbs⟩ := hperform.raised exception after hrun
      rw [hran] at hdropped
      exact ⟨_, hheld.trans (bind_of_error hdropped), hnoted, hconsole,
        hebbs.trans ((Machine.ebbing_drop _).ebbs m')⟩
  | write name receiver value write =>
    have hperform := ev.surfaces_perform m (.writing name) (write receiver value)
    refine ⟨fun v after hrun => ?_, fun exception after hrun => ?_⟩
    · obtain ⟨a, m', hran, hnoted⟩ := hperform.returned v after hrun
      exact ⟨(), _, bind_of_ok hran, ((Machine.ebbing_drop a).journal m').trans hnoted⟩
    · obtain ⟨m', hran, hrest⟩ := hperform.raised exception after hrun
      exact ⟨m', bind_of_error hran, hrest⟩

/-! ## Host failures and script failures -/

/-- Evaluations end with faults of the script, exceptions of host code, texts that cannot be read, internal failures and
stops from outside. -/
def Failure.OfEvaluation : Failure → Prop
  | .fault .. | .raised .. | .unread _ | .broken _ | .stopped _ => True
  | .input .. => False

theorem Failure.kind_ofEvaluation : Failure.Kind (fun _ => True) fun _ => Failure.OfEvaluation where
  begun hf := by
    rcases hf with hf | ⟨d, rfl, -⟩
    · rename_i f
      cases f with
      | input => exact absurd hf not_false
      | _ => trivial
    · trivial
  raised _ _ := trivial
  running hφ hf := by
    rename_i f
    cases hφ with
    | same => exact hf
    | locate span node =>
      show Failure.OfEvaluation (Failure.locate _ _ _)
      unfold Failure.locate
      split
      · split <;> trivial
      · split <;> trivial
      · exact hf
    | label source => cases f <;> trivial
    | dangle =>
      unfold Failure.dangle
      split
      · trivial
      · exact hf

/-- A run that is not stopped from outside. -/
def Exec.Finishes {α : Type} (x : Exec α) (m m' : Machine) : Prop :=
  (∃ a, x m = .ok a m') ∨ ∃ f, x m = .error f m' ∧ ∀ cause, f ≠ .stopped cause

/-- How a run that may call host code ends. -/
structure Exec.TellsApart {α : Type} (x : Exec α) (m : Machine) : Prop where
  /-- The journal accounts for what host code the run itself has called. -/
  accounts : AccountsFor m (x m)
  /-- Either all calls that were noted have returned and the run does not end in an exception of host code, or the last
  of them has raised an exception, the ones before have returned, and the run ends in that exception. -/
  raised_iff : ∀ m', x.Finishes m m' → ∃ calls, (∀ call ∈ calls, ∃ v, call.result = .returned v) ∧
    (m'.journal = calls ++ m.journal ∧ (∀ step exception place, x m ≠ .error (.raised step exception place) m') ∨
      ∃ step exception place, m'.journal = ⟨step, .raised exception⟩ :: calls ++ m.journal ∧
        x m = .error (.raised step exception place) m')
  /-- All other failures are faults of the script, texts that cannot be read, internal ones, or stops from
  outside. -/
  sorts : ∀ f m', x m = .error f m' → f.OfEvaluation

theorem Exec.tellsApart {x : Exec α} (h : AccountsFor m (x m)) (hsorts : ∀ f m', x m = .error f m' → f.OfEvaluation) :
    x.TellsApart m := by
  refine ⟨h, ?_, hsorts⟩
  rintro m' (⟨a, hx⟩ | ⟨f, hx, hstopped⟩) <;> rw [hx] at h
  · obtain ⟨calls, hjournal, hreturned⟩ := Classes.Noted.calls h
    refine ⟨calls, hreturned, .inl ⟨hjournal, fun step exception place heq => ?_⟩⟩
    rw [hx] at heq
    cases heq
  · by_cases hf : ∃ step exception place, f = .raised step exception place
    · obtain ⟨step, exception, place, rfl⟩ := hf
      obtain ⟨noted, after, ⟨hnoted, -, -, -⟩, hjournal, -⟩ := h.raised step exception place rfl
      obtain ⟨calls, heq, hreturned⟩ := hnoted.calls
      exact ⟨calls, hreturned, .inr ⟨step, exception, place, by rw [hjournal, heq, List.cons_append], hx⟩⟩
    · have hraised : ∀ step exception place, f ≠ .raised step exception place :=
        fun step exception place heq => hf ⟨step, exception, place, heq⟩
      obtain ⟨calls, hjournal, hreturned⟩ := (h.others hraised hstopped).calls
      refine ⟨calls, hreturned, .inl ⟨hjournal, fun step exception place heq => ?_⟩⟩
      rw [hx] at heq
      exact hraised step exception place (EStateM.Result.error.inj heq).1

/-- Families that are accounted for and fail as evaluations do. -/
theorem Exec.TellsApart.of_accounted {Q : α → Prop} (haccounted : Accounted m.classes P x)
    (hfails : FailIn .all (fun _ => Failure.OfEvaluation) α Q x) : (x ()).TellsApart m :=
  Exec.tellsApart (haccounted.accounts m rfl) (hfails.failsOnly () m)

/-- What is woven from stops fails as evaluations do. -/
theorem Woven.failsAsEvaluation
    (hx : Woven .all (fun _ => True) (Thrown (· = .stopped .exhausted)) b P x) :
    FailIn .all (fun _ => Failure.OfEvaluation) α P x := by
  refine hx.failIn Failure.kind_ofEvaluation (Thrown.failIn ?_)
  rintro _ _ rfl
  trivial

/-- **Host failures and script failures are never confused.** This is so of every expression, every statement and
every text, in every state and with every host code; and wherever evaluation comes upon host code, it runs and notes
that code, and fails if the code raises an exception. -/
theorem host_exceptions_surface (allowance : Nat) :
    (∀ (e : Expr) (m : Machine), (evalExpr allowance e).TellsApart m) ∧
    (∀ (s : Stmt) (m : Machine), (evalStmt allowance s).TellsApart m) ∧
    (∀ (text : String) (scope : ScopeId) (label : Option String) (m : Machine),
      ((evaluator allowance).evalLabelled text scope label).TellsApart m) ∧
    ∀ (ev : Evaluator) (m : Machine) (α : Type) (x : Exec α) step action before,
      ev.Uses m x step action before → Surfaces ev m x step action before := by
  refine ⟨fun e m => ?_, fun s m => ?_, fun text scope label m => ?_, fun ev m α x step action before h => h.surfaces⟩
  · exact .of_accounted ((threaded_evaluator _ allowance).expr e).accounted
      ((threaded_evaluator _ allowance).expr e).failsAsEvaluation
  · exact .of_accounted ((threaded_evaluator _ allowance).stmt s).accounted
      ((threaded_evaluator _ allowance).stmt s).failsAsEvaluation
  · have htext (code : HostStep → Action → Prop) :=
      Woven.runText text label (fun _ => trivial) (threaded_evaluator code allowance).stmt
    have haround := Evaluator.around_evalLabelled (C := fun _ => True) (fun _ : Unit => evaluator allowance) text
      scope label
    exact .of_accounted ((htext _).accounted.around haround)
      ((htext _).failsAsEvaluation.around Failure.kind_ofEvaluation haround)

/-- The exception of host code that a run has ended in. -/
def Exec.exception? : Exec.Result α → Option String
  | .error (.raised _ exception _) _ => some exception
  | _ => none

/-- A button that is made to fail fails the script with its exception. -/
theorem failing_button_surfaces :
    let m := { Machine.initial {} ⟨fun _ => .unknown⟩ "" [] with classes := Toolkit.classes.foldl Classes.register {} }
    ∃ step place calls m', (evaluator 9).evalLabelled "new ui.Button(\"ok\").fail(\"no\");" m.global none m =
        .error (.raised step "boom: no" place) m' ∧
      m'.journal = ⟨step, .raised "boom: no"⟩ :: calls ∧ ∀ call ∈ calls, ∃ v, call.result = .returned v := by
  intro m
  have happart := (host_exceptions_surface 9).2.2.1 "new ui.Button(\"ok\").fail(\"no\");" m.global none m
  have hrun : exception? ((evaluator 9).evalLabelled "new ui.Button(\"ok\").fail(\"no\");" m.global none m) =
      some "boom: no" := by decide +kernel
  generalize (evaluator 9).evalLabelled _ m.global none = x at hrun happart
  cases hx : x m with
  | ok => simp [hx, exception?] at hrun
  | error f m' =>
    cases f with
    | raised step exception place =>
      simp only [hx, exception?, Option.some.injEq] at hrun
      subst hrun
      obtain ⟨calls, hreturned, ⟨-, hno⟩ | ⟨_, _, _, hjournal, heq⟩⟩ :=
        happart.raised_iff m' (.inr ⟨_, hx, fun _ hstopped => by cases hstopped⟩)
      · exact absurd hx (hno step _ place)
      · cases hx.symm.trans heq
        exact ⟨step, place, calls, m', rfl, hjournal.trans (List.append_nil _), hreturned⟩
    | _ => simp [hx, exception?] at hrun

end HostScript
