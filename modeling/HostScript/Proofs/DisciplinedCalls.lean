import HostScript.Proofs.DisciplinedPlaces

/-!
# Calls keep a discipline

Scripted methods keep a discipline, given that their bodies do; host code, adapters, and reading and writing of
names and members keep it, given that scripted methods do. What is assigned to a declared variable or to an
array went through a coercion to its type before (`Discipline.assign`).
-/

set_option autoImplicit false

namespace HostScript

/-- An array has no member but its length. -/
theorem Evaluator.readMember_array (ev : Evaluator) (cell : Nat) (type : ValueType) {member : String}
    (h : member ≠ "length") :
    ev.readMember (.array cell type) member = (do
      let r ← Exec.memberReference (.array cell type) member
      Exec.afterwards (ev.read r) (Exec.dropReference r)) := by
  unfold Evaluator.readMember
  split
  · exact absurd rfl h
  · rename_i heq
    cases heq
  · rfl

namespace Discipline

open Machine (ebbing_drop ebbing_discard ebbing_dropReference)

variable {ι : Type} {D : Discipline ι} {b : Bool} {w : D.Stage} {ev : ι → Evaluator} {value : Value}
  {body : List Stmt} {r : Reference} {method : HostMethod} {args : List Value}
  {receiver : Option Value}

/-! ## Scripted methods -/

variable (D) in
theorem hoist (body : List Stmt) : ∀ w, D.steps true w fun _ => Exec.hoist body := by
  induction body with
  | nil => exact fun w => D.pure trivial
  | cons s rest ih =>
    cases s with
    | method span name params returns body =>
      exact fun w => (D.declare name params returns body).bind fun w1 _ _ _ => ih w1
    | _ => exact ih

/-- The statements of a body keep the discipline at every stage. -/
def Body (D : Discipline ι) (ev : ι → Evaluator) (body : List Stmt) : Prop :=
  ∀ s ∈ body, ∀ w, D.flows true w fun i => (ev i).stmt s

theorem runFrom (body : List Stmt) (hbody : D.Body ev body) : ∀ (w : D.Stage) (last : Value), D.admits w last →
    D.flows true w fun i => (ev i).runFrom last body := by
  induction body with
  | nil => exact fun w last hlast => D.pure hlast
  | cons s rest ih =>
    intro w last hlast
    obtain ⟨hs, hrest⟩ := List.forall_mem_cons.1 hbody
    cases s with
    | method span name params returns body => exact ih hrest w last hlast
    | _ =>
      refine ((hs w).unlessFailed last).bind fun w1 flow _ hflow => ?_
      cases flow with
      | normal v => exact (D.drop last).bind fun w2 _ h2 _ => ih hrest w2 v (D.mono h2 hflow)
      | returned v => exact (D.drop last).bind fun _ _ h2 _ => D.pure (D.mono h2 hflow)
      | broke | continued => exact (D.drop last).bind fun _ _ _ _ => D.pure trivial

theorem runBody (hbody : D.Body ev body) : D.flows true w fun i => (ev i).runBody body :=
  (D.hoist body w).bind fun w1 _ _ _ => runFrom body hbody w1 .void (D.admits_primitive _)

theorem runBlock (hbody : D.Body ev body) : D.flows true w fun i => (ev i).runBlock body :=
  D.scope.bind fun _ parent _ _ => D.inFrame "block" .block parent (runBody hbody) ebbing_discard

theorem runCall (method : ScriptMethod) (types : List (Option ValueType))
    (hargs : D.admitsAll w args) (hbody : D.Body ev method.body) :
    D.yields true w fun i => (ev i).runCall method types args := by
  refine D.scope.bind fun w1 frame h1 _ => (D.bindParams frame _ w1 args (monoAll h1 hargs)).bind fun _ _ _ _ =>
    (runBody hbody).bind fun _ flow _ hflow => ?_
  cases flow with
  | returned v => exact D.pure hflow
  | normal v => exact (D.drop v).bind fun _ _ _ _ => D.pure (D.admits_primitive _)
  | broke => exact D.fault _
  | continued => exact D.fault _

/-- A scripted call keeps the discipline if it does from the check of the depth to the end of the frame. -/
theorem invokeScriptedOf (method : ScriptMethod) (hargs : D.admitsAll w args)
    (hcall : ∀ w types, D.admitsAll w args → D.yields b w fun i => Exec.deeper method.name args
      (Exec.inFrame method.name .call method.declaring ((ev i).runCall method types args) fun v m => m.drop v)) :
    D.yields b w fun i => (ev i).invokeScripted method args := by
  unfold Evaluator.invokeScripted
  refine .guarded ((D.fault _).orDropAll args) ?_
  refine ((D.resolveParams _ _ w).orDropAll args).bind fun w1 types h1 _ => ?_
  refine ((D.resolveType? _ _).orDropAll args).bind fun w2 returns h2 _ => ?_
  simp only [← bind_assoc]
  refine (hcall w2 types (monoAll (D.trans h1 h2) hargs)).bind fun _ value _ hv => ?_
  split
  · exact D.pure hv
  · exact D.pure hv
  · split
    · exact D.pure hv
    · exact D.coerce _ .storing hv

theorem invokeScripted (method : ScriptMethod) (hargs : D.admitsAll w args)
    (hcall : ∀ w types, D.admitsAll w args → D.yields true w fun i => (ev i).runCall method types args) :
    D.yields b w fun i => (ev i).invokeScripted method args :=
  invokeScriptedOf method hargs fun _ types hargs => D.deeper _ args
    fun w1 h1 => D.inFrame _ _ _ (hcall w1 types (monoAll h1 hargs)) ebbing_drop

/-! ## Host code -/

/-- Scripted methods keep the discipline without asking for the frame being evaluated in. -/
def Calls (D : Discipline ι) (ev : ι → Evaluator) : Prop :=
  ∀ (w : D.Stage) (method : ScriptMethod) (args : List Value), D.admitsAll w args →
    D.yields false w fun i => (ev i).invokeScripted method args

variable (hcalls : D.Calls ev)

include hcalls

/-- The arguments of a generic call go into an array of objects, which holds any values. -/
theorem invokeGeneric (method : ScriptMethod) (name : String) (hargs : D.admitsAll w args) :
    D.yields false w fun i => (ev i).invokeGeneric method name args :=
  (D.makeArray hargs fun _ _ => D.suits_object _).bind fun w1 packed _ hpacked =>
    hcalls w1 method [.text name, packed] (admitsAll_cons (D.admits_text name) (admitsAll_one hpacked))

theorem callAdapter (cell : Nat) {a : Adapter} (method : String) (ha : D.reaches a.scope)
    (hargs : D.admitsAll w args) :
    D.yieldsIf false w fun i => (ev i).callAdapter cell a method args := by
  refine (D.handlerFor cell method _ ha).bind fun w1 handler h1 _ =>
    D.bind (P := D.admits) (D.onStack [a.scope] ?_) fun _ value _ hv => ?_
  · have hargs := monoAll h1 hargs
    cases handler with
    | named target =>
      exact (D.copyAll hargs).bind fun w2 args _ hargs => D.widen (hcalls w2 target args hargs)
    | generic target =>
      exact (D.copyAll hargs).bind fun _ args _ hargs => D.widen (invokeGeneric hcalls target method hargs)
    | identity call => exact D.pure (D.admits_identity cell a args call)
    | missing => exact D.fault _
  · split
    · exact D.pure D.admitsIf_none
    · exact D.pure (admitsIf_some hv)

theorem performing {step : HostStep} {action : Action} (h : D.permits w step action) :
    D.yields false w fun i => (ev i).perform step action :=
  D.perform h fun _ cell _ method _ ha hargs => callAdapter hcalls cell method ha hargs

theorem callHost (hmethod : D.admitsMethod method) (hgiven : D.admitsAll w (receiver.toList ++ args)) :
    D.yields false w fun i => (ev i).callHost method receiver args := by
  unfold Evaluator.callHost
  refine .guarded (D.fault _) ?_
  cases hbody : method.body with
  | none => exact D.fault _
  | some body =>
    exact .ite (fun _ => D.fault _) fun _ => performing hcalls (hmethod body hbody w receiver args hgiven)

theorem callConverted (hmethod : D.admitsMethod method) (hreceiver : D.admitsAll w receiver.toList)
    (hargs : D.admitsAll w args) :
    D.yields false w fun i => (ev i).callConverted method receiver args :=
  (D.coerceArgs method.params hargs).bind fun _ args h1 hargs =>
    (callHost hcalls hmethod (admitsAll_append (monoAll h1 hreceiver) hargs)).holdingAll args

theorem invokeHost {c : HostClass} (name : String) (hc : D.admitsClass c)
    (hreceiver : D.admitsAll w receiver.toList) (hargs : D.admitsAll w args) :
    D.yieldsIf false w fun i => (ev i).invokeHost c receiver name args := by
  refine (D.selectHost _ args).bind fun _ found h1 hfound => ?_
  cases found with
  | none => exact D.pure D.admitsIf_none
  | some method =>
    exact (callConverted hcalls (method_of_named hc (hfound method rfl)) (monoAll h1 hreceiver)
      (monoAll h1 hargs)).bind fun _ v _ hv => D.pure (admitsIf_some hv)

/-! ## Names and places -/

theorem boundField (name : String) (bound : Nat × String) :
    D.yieldsIf false w fun i => (ev i).boundField name bound := by
  refine .get (fun _ _ _ => rfl) fun m hm => ?_
  cases hc : m.classes.load? bound.2 with
  | none => exact D.pure D.admitsIf_none
  | some c =>
    dsimp only
    cases hf : c.instanceField? name with
    | none => exact D.pure D.admitsIf_none
    | some field =>
      have hfield := field_of? (loaded hm hc) (Option.filter_eq_some_iff.1 hf).1
      refine (D.copy (D.admits_host bound.1 bound.2)).bind fun w1 object _ ho => ?_
      have hread := hfield.read w1 (.readingBound name bound.2) (some object) rfl (admitsAll_one ho)
      exact ((performing hcalls hread).holding object).bind fun _ v _ hv => D.pure (admitsIf_some hv)

theorem valueByFrame (name : String) (frames : List Frame) : ∀ w, (∀ f ∈ frames, D.admitsFrame w f) →
    D.yieldsIf false w fun i => (ev i).valueByFrame name frames := by
  induction frames with
  | nil => exact fun w _ => D.pure D.admitsIf_none
  | cons f rest ih =>
    intro w hframes
    obtain ⟨hf, hrest⟩ := List.forall_mem_cons.1 hframes
    unfold Evaluator.valueByFrame
    cases hx : f.vars.get? name with
    | some x => exact (D.copy (variable_value hf hx)).bind fun _ v _ hv => D.pure (admitsIf_some hv)
    | none =>
      cases f.bound with
      | none => exact ih w hrest
      | some bound =>
        refine (boundField hcalls name bound).bind fun w1 found h1 hfound => ?_
        cases found with
        | none => exact ih w1 fun g hg => monoFrame h1 (hrest g hg)
        | some v => exact D.pure hfound

theorem valueInBound (name : String) (bounds : List (Nat × String)) :
    ∀ w, D.yieldsIf false w fun i => (ev i).valueInBound name bounds := by
  induction bounds with
  | nil => exact fun w => D.pure D.admitsIf_none
  | cons bound rest ih =>
    refine fun w => (boundField hcalls name bound).bind fun w1 found _ hfound => ?_
    cases found with
    | none => exact ih w1
    | some v => exact D.pure hfound

theorem valueOf? (scope : ScopeId) (name : String) : D.yieldsIf false w fun i => (ev i).valueOf? scope name := by
  refine .get (fun _ _ _ => rfl) fun m _ => ?_
  -- the frames of the chain and the frame that is visible everywhere are live
  refine D.bind (P := fun w' p => (∀ f ∈ p.1, D.admitsFrame w' f) ∧ ∀ x, p.2 = some x → D.admits w' x.value)
    (D.look fun m1 hm1 p hp => ?_) fun w1 p _ hp => ?_
  · cases hc : m1.store.arena.chain scope with
    | error id => simp [hc, Bind.bind, Except.bind] at hp
    | ok frames =>
      cases hu : m1.store.arena.frame? m.utilities with
      | none => simp [hc, hu, Bind.bind, Except.bind, MonadExcept.throw, throwThe, MonadExceptOf.throw] at hp
      | some f =>
        simp only [hc, hu, Bind.bind, Except.bind, Pure.pure, Except.pure, Except.ok.injEq] at hp
        subst hp
        refine ⟨fun g hg => ?_, fun x hx => variable_value (D.frames hm1 hu) hx⟩
        obtain ⟨e, he, rfl⟩ := List.mem_map.1 hg
        exact D.frames hm1 (Arena.frame?_of_mem_chain hc he)
  obtain ⟨frames, ambient⟩ := p
  obtain ⟨hframes, hambient⟩ := hp
  dsimp -zeta only
  extract_lets rest
  have hrest : ∀ w2 found, D.later w1 w2 → D.admitsIf w2 found → D.yieldsIf false w2 fun _ : ι => rest found := by
    intro w2 found h2 hfound
    cases found with
    | some v => exact D.pure hfound
    | none =>
      refine (D.lookupClass scope name).bind fun _ c? h3 _ => ?_
      cases c? with
      | some c => exact D.pure (admitsIf_some (D.admits_class c))
      | none =>
        cases ambient with
        | some x =>
          exact (D.copy (D.mono (D.trans h2 h3) (hambient x rfl))).bind
            fun _ v _ hv => D.pure (admitsIf_some hv)
        | none => exact D.pure D.admitsIf_none
  cases m.config.order with
  | localThenBound => exact (valueByFrame hcalls name frames w1 hframes).bind hrest
  | chainThenBound =>
    cases hx : frames.findSome? fun f => f.vars.get? name with
    | some x =>
      obtain ⟨f, hf, hx⟩ := List.exists_of_findSome?_eq_some hx
      exact (D.copy (variable_value (hframes f hf) hx)).bind
        fun w2 v h2 hv => hrest w2 (some v) h2 (admitsIf_some hv)
    | none => exact (valueInBound hcalls name _ w1).bind hrest

theorem read (hr : D.admitsPlace w r) : D.yields false w fun i => (ev i).read r := by
  rcases r with ⟨scope, name⟩ | ⟨object, c, name⟩ | ⟨c, name⟩ | ⟨cell, element, index⟩ | ⟨object, c, name⟩
  · refine (D.frame scope).throughReference.bind fun _ f _ hf => ?_
    cases hx : f.vars.get? name with
    | some x => exact D.copy (variable_value hf hx)
    | none => exact D.fault _
  · dsimp only [Evaluator.read]
    cases hf : c.field? name with
    | some field =>
      exact performing hcalls ((field_of? hr.2 hf).read w _ (some object) rfl (admitsAll_one hr.1))
    | none => exact D.fault _
  · dsimp only [Evaluator.read]
    cases hf : c.field? name with
    | some field => exact performing hcalls ((field_of? hr hf).read w _ none rfl D.admitsAll_nil)
    | none => exact D.fault _
  · refine .get (fun _ _ _ => rfl) fun m hm => ?_
    dsimp only
    cases hv : (m.store.items cell)[index]? with
    | some v => exact D.copy (D.items hm cell (Array.mem_of_getElem? hv))
    | none => exact D.fault _
  · dsimp only [Evaluator.read]
    cases hg : c.getter? name with
    | some method => exact callHost hcalls (getter_of? hr.2 hg) (admitsAll_one hr.1)
    | none => exact D.fault _

theorem writeField (name : String) {write : Option Value → Value → Action}
    (h : D.permits w (.writing name) (write receiver value)) :
    D.steps false w fun i => (ev i).writeField name receiver value write :=
  (performing hcalls h).bind fun _ v _ _ => D.drop v

/-- **Assignment keeps the types of places**: what goes into a declared variable or into an array is coerced to
its type first. -/
theorem assign (hr : D.admitsPlace w r) (hv : D.admits w value) :
    D.yields false w fun i => (ev i).assign r value := by
  rcases r with ⟨scope, name⟩ | ⟨object, c, name⟩ | ⟨c, name⟩ | ⟨cell, element, index⟩ | ⟨object, c, name⟩
  · refine ((D.frame scope).throughReference.unlessFailed value).bind fun w1 f h1 _ => ?_
    have hstore : ∀ w2 stored, D.admits w2 stored →
        (∀ type, (f.vars.get? name).bind Variable.declared = some type → D.suits stored type) →
        D.yields false w2 fun _ : ι => (do
          let kept ← Exec.copy stored
          Exec.unlessFailed stored (Exec.throughReference
            (Exec.define scope name kept ((f.vars.get? name).bind Variable.declared)))
          return stored : Exec Value) := by
      intro w2 stored hs hd
      refine (D.copied hs).bind ?_
      rintro w3 kept h3 ⟨rfl, hk⟩
      exact ((D.define scope name hk hd).throughReference.unlessFailed kept).bind
        fun _ _ h4 _ => D.pure (D.mono h4 hk)
    cases hd : (f.vars.get? name).bind Variable.declared with
    | none =>
      rw [hd] at hstore
      exact hstore w1 value (D.mono h1 hv) fun _ h => by cases h
    | some type =>
      rw [hd] at hstore
      exact (D.coercion type .storing (D.mono h1 hv)).bind
        fun w2 stored _ hs => hstore w2 stored hs.1 fun t ht => Option.some.inj ht ▸ hs.2
  · refine Regime.runs.unlessFailed ?_ value
    cases hw : (c.field? name).bind HostField.write with
    | none => exact D.fault _
    | some write =>
      obtain ⟨field, hf, hw⟩ := Option.bind_eq_some_iff.1 hw
      have hwrite := (field_of? hr.2 hf).write write hw w (some object) value
        (admitsAll_cons hr.1 (admitsAll_one hv))
      exact (writeField hcalls name hwrite).bind fun _ _ h1 _ => D.pure (D.mono h1 hv)
  · refine Regime.runs.unlessFailed ?_ value
    cases hw : ((c.field? name).filter HostField.isStatic).bind HostField.write with
    | none => exact D.fault _
    | some write =>
      obtain ⟨field, hf, hw⟩ := Option.bind_eq_some_iff.1 hw
      have hwrite := (field_of? hr (Option.filter_eq_some_iff.1 hf).1).write write hw w none value
        (admitsAll_one hv)
      exact (writeField hcalls name hwrite).bind fun _ _ h1 _ => D.pure (D.mono h1 hv)
  · refine (D.coercion element .storing hv).bind fun w1 stored h1 hs => .get (fun _ _ _ => rfl) fun m _ => ?_
    dsimp only
    cases (m.store.items cell)[index]? with
    | none => exact (D.fault _).unlessFailed stored
    | some old =>
      refine (D.copied hs.1).bind ?_
      rintro w2 kept h2 ⟨rfl, hk⟩
      exact (D.setItem (D.mono (D.trans h1 h2) hr) hk hs.2).bind fun _ _ h3 _ => D.pure (D.mono h3 hk)
  · refine Regime.runs.unlessFailed ?_ value
    refine (D.selectHost _ [value]).bind fun _ found h1 hfound => ?_
    cases found with
    | none => exact D.fault _
    | some setter =>
      exact (callConverted hcalls (method_of_named hr.2 (hfound setter rfl))
        (admitsAll_some (D.mono h1 hr.1)) (admitsAll_one (D.mono h1 hv))).bind
          fun _ v h2 _ => (D.drop v).bind fun _ _ h3 _ => D.pure (D.mono (D.trans (D.trans h1 h2) h3) hv)

theorem readMember {object : Value} (member : String) (ho : D.admits w object) :
    D.yields false w fun i => (ev i).readMember object member := by
  have hmember : D.yields false w fun i => (do
      let r ← Exec.memberReference object member
      Exec.afterwards ((ev i).read r) (Exec.dropReference r)) :=
    (D.memberReference member ho).bind fun _ r _ hr => (read hcalls hr).afterwards (ebbing_dropReference r)
  cases object with
  | object scope name =>
    refine (valueOf? hcalls scope member).bind fun _ found _ hfound => ?_
    cases found with
    | some v => exact D.pure (hfound v rfl)
    | none => exact D.fault _
  | array cell type =>
    by_cases hlength : member = "length"
    · subst hlength
      exact .get (fun _ _ _ => rfl) fun m _ => D.pure (D.admits_primitive _)
    · simp only [Evaluator.readMember_array _ _ _ hlength]
      exact hmember
  | _ => exact hmember

end Discipline

end HostScript
