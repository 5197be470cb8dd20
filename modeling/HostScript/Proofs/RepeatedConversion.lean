import HostScript.Proofs.ArgumentBinding
import HostScript.Proofs.CompoundAssignment
import HostScript.Proofs.TypedSteps

/-!
# Conversion is done once

What a conversion to a type has yielded is at home in the type (`Machine.AtHome`): it fits there as it is, whether
it is stored or passed. So converting again is no change, now or later, as long as the classes are the same and an
adapter says the same of itself. In particular `x = x` does to a variable with a type what reading `x` does to it,
which is nothing (`conversion_is_idempotent`).
-/

set_option autoImplicit false

namespace HostScript

open Exec Machine

variable {α : Type} {f : Frame} {w : Value} {name : String} {m : Machine} {id : ScopeId}
  {type : ValueType}

/-! ## Values at home -/

namespace Primitive

variable {p q : Primitive} {kind : Kind}

theorem isKnown_ofInt64? {n : Int64} (h : ofInt64? n kind = some q) : q.IsKnown := by
  cases kind <;> simp [ofInt64?] at h <;> subst h <;> exact ⟨rfl, rfl⟩

theorem isKnown_ofDouble? {x : Float} (h : ofDouble? x kind = some q) : q.IsKnown := by
  cases kind <;> simp [ofDouble?] at h <;> subst h <;> exact ⟨rfl, rfl⟩

theorem IsKnown.convert? (hp : p.IsKnown) (h : p.convert? kind = some q) : q.IsKnown := by
  unfold Primitive.convert? at h
  split at h
  · exact Option.some.inj h ▸ hp
  · split at h
    · exact isKnown_ofDouble? h
    · exact isKnown_ofDouble? h
    · obtain ⟨n, -, hn⟩ := Option.bind_eq_some_iff.1 h
      exact isKnown_ofInt64? hn

theorem IsKnown.widen? (hp : p.IsKnown) (h : p.widen? kind = some q) : q.IsKnown := by
  unfold Primitive.widen? at h
  split at h
  · exact hp.convert? h
  · cases h

theorem IsKnown.assign (hp : p.IsKnown) (h : p.assign kind = .ok q) : q.IsKnown := by
  unfold Primitive.assign at h
  cases hw : p.widen? kind with
  | some r =>
    simp only [hw, Except.ok.injEq] at h
    exact h ▸ hp.widen? hw
  | none =>
    cases hn : p.narrow? kind with
    | none => simp [hw, hn] at h
    | some r =>
      simp only [hw, hn, Except.ok.injEq] at h
      subst h
      unfold narrow? at hn
      repeat' split at hn
      all_goals first | exact hp.convert? hn | cases hn

theorem widen?_kind (p : Primitive) : p.widen? p.kind = some p := by
  unfold widen? convert?
  rw [if_pos (Kind.widensTo_refl _), if_pos rfl]

theorem assign_kind (p : Primitive) : p.assign p.kind = .ok p := by
  unfold assign
  rw [widen?_kind]

end Primitive

theorem Value.isKnown_of_operand? {v : Value} {p : Primitive} (hv : v.isVoid = false) (h : v.operand? = some p) :
    p.IsKnown := by
  cases v with
  | primitive q =>
    obtain ⟨hnull, hq⟩ := Option.ite_none_left_eq_some.1 h
    exact Option.some.inj hq ▸ ⟨Bool.eq_false_iff.2 hnull, hv⟩
  | _ => cases h

namespace Machine

variable {m' : Machine} {v : Value} {occasion : Occasion}

/-- A value that fits a place of a type as it is, on every occasion. -/
def AtHome (m : Machine) (type : ValueType) (w : Value) : Prop :=
  ∀ occasion, m.fit type w occasion = .ok (.value w)

theorem atHome_primitive (m : Machine) {p : Primitive} (hp : p.IsKnown) :
    m.AtHome (.primitive p.kind) (.primitive p) := by
  have hvoid : (Value.primitive p).isVoid = false := hp.2
  have hoperand : (Value.primitive p).operand? = some p := if_neg (Bool.eq_false_iff.1 hp.1)
  intro occasion
  unfold fit
  rw [hvoid, hoperand]
  cases occasion <;> simp [Primitive.assign_kind, Primitive.widen?_kind]

/-- **What fits is at home afterwards.** Only numbers are changed, and to the kind of the type. -/
theorem atHome_of_fit (h : m.fit type v occasion = .ok (.value w)) : m.AtHome type w := by
  unfold fit at h
  split at h
  · cases h
  · rename_i hvoid
    have hvoid : v.isVoid = false := Bool.eq_false_iff.2 hvoid
    cases type with
    | primitive kind =>
      cases hp : v.operand? with
      | none => simp [hp] at h
      | some p =>
        have hknown := v.isKnown_of_operand? hvoid hp
        cases occasion with
        | storing =>
          cases ha : p.assign kind with
          | error e => simp [hp, ha] at h
          | ok q =>
            simp only [hp, ha, Except.ok.injEq, Fitted.value.injEq] at h
            subst h
            exact Primitive.kind_assign ha ▸ m.atHome_primitive (hknown.assign ha)
        | passing =>
          cases hw : p.widen? kind with
          | none => simp [hp, hw] at h
          | some q =>
            simp only [hp, hw, Except.ok.injEq, Fitted.value.injEq] at h
            subst h
            exact Primitive.kind_widen? hw ▸ m.atHome_primitive (hknown.widen? hw)
    | _ =>
      -- all other types leave the value as it is, whatever the occasion
      have hsame : w = v := by
        dsimp only at h
        repeat' split at h
        all_goals first | (cases h; rfl) | cases h
      subst hsame
      intro occasion'
      unfold fit
      simp only [hvoid]
      exact h

/-- An adapter is made only where a class of the name is known. -/
theorem load?_of_adapter {scope : ScopeId} (h : m.fit type v occasion = .ok (.adapter scope)) :
    ∃ label name c, v = .object scope label ∧ type = .named name ∧ m.classes.load? name = some c := by
  obtain ⟨label, rfl⟩ := ofValue_fit h
  cases type with
  | named name =>
    cases hc : m.classes.load? name with
    | none => simp [fit, Value.isVoid, hc] at h
    | some c => exact ⟨label, name, c, rfl, rfl, hc⟩
  | _ => simp [fit, Value.isVoid, Value.operand?] at h

theorem atHome_of_hostIs {cell : Nat} {className : String} (h : m.hostIs cell className name = true) :
    m.AtHome (.named name) (.host cell className) := by
  intro occasion
  unfold fit
  simp [Value.isVoid, h]

/-- The classes that are known and what the object says of itself decide whether it is at home. -/
theorem AtHome.after (h : m.AtHome type w) (hclasses : m'.classes = m.classes)
    (htells : ∀ cell className, w = .host cell className → ∀ name,
      m'.declaresItself cell name = m.declaresItself cell name) :
    m'.AtHome type w := by
  intro occasion
  rw [← h occasion]
  have hhost : ∀ cell className name, w = .host cell className →
      m'.hostIs cell className name = m.hostIs cell className name := by
    intro cell className name hw
    unfold hostIs
    rw [htells cell className hw, hclasses]
  unfold fit
  cases type with
  | named name =>
    cases w with
    | host cell className => simp only [hhost cell className name rfl, hclasses]
    | primitive p => cases p <;> simp only [hclasses]
    | _ => simp only [hclasses]
  | _ => simp only [hclasses]

end Machine

/-! ## Conversions -/

namespace Exec

variable {m' : Machine} {v : Value} {occasion : Occasion} {scope : ScopeId}

/-- **A value at home is left as it is**, and so is the machine. -/
theorem coerce_of_atHome (h : m.AtHome type w) (occasion : Occasion) : coerce type w occasion m = .ok w m := by
  refine (get_bind m).trans ?_
  rw [h occasion]
  rfl

theorem balanced_makeAdapter (scope : ScopeId) (names : List String) : Balanced (makeAdapter scope names) :=
  Woven.balanced (balancing.makeAdapter (b := true) (w := ()) names trivial)

/-- A qualified name is looked up in the table of classes alone. -/
theorem lookupClass_of_qualified (hname : isQualified name = true) (m : Machine) :
    lookupClass scope name m = .ok (m.classes.load? name) m := by
  unfold lookupClass
  rw [if_pos hname]
  rfl

/-- A new adapter for a qualified name is bound to the class of the name. -/
theorem adapter_of_makeAdapter (hname : isQualified name = true) (h : makeAdapter scope [name] m = .ok w m') :
    ∃ n c label table, w = .host n adapterClassName ∧ m.classes.load? name = some c ∧
      m'.store.cell? n = some ⟨.adapter ⟨scope, label, [c], table⟩, 1⟩ := by
  obtain ⟨interfaces, m1, hinterfaces, h⟩ := ok_of_bind h
  obtain ⟨object, m2, -, h⟩ := ok_of_bind h
  obtain ⟨label, m3, -, h⟩ := ok_of_bind h
  obtain ⟨table, m4, -, h⟩ := ok_of_bind h
  obtain ⟨n, m5, halloc, h⟩ := ok_of_bind h
  -- the list of interfaces is the class of the name
  obtain ⟨found, _, hfound, hinterfaces⟩ := ok_of_bind hinterfaces
  rw [lookupClass_of_qualified hname] at hfound
  cases hfound
  cases hc : m.classes.load? name with
  | none =>
    rw [hc] at hinterfaces
    cases hinterfaces
  | some c =>
    rw [hc] at hinterfaces
    dsimp only at hinterfaces
    split at hinterfaces
    · cases hinterfaces
      cases halloc
      cases h
      refine ⟨_, c, label, table, rfl, rfl, ?_⟩
      exact (m4.store.cell?_alloc _ _).trans (if_pos rfl)
    · cases hinterfaces

/-- **What a conversion yields is at home**, if classes are found under their own names, packages included. -/
theorem atHome_of_coerce (hnamed : m.classes.WellNamed) (hpackaged : m.classes.Packaged)
    (h : coerce type v occasion m = .ok w m') : m'.AtHome type w := by
  have hstep := (get_bind m).symm.trans h
  cases hfit : m.fit type v occasion with
  | error cause =>
    simp only [hfit] at hstep
    cases hstep
  | ok found =>
    simp only [hfit] at hstep
    cases found with
    | value u =>
      cases hstep
      exact atHome_of_fit hfit
    | adapter scope =>
      obtain ⟨label, name, c, rfl, rfl, hc⟩ := load?_of_adapter hfit
      obtain ⟨m1, hmade, rfl⟩ := holding_eq_ok hstep
      obtain ⟨n, c', text, table, rfl, hc', hcell⟩ := adapter_of_makeAdapter (hpackaged name c hc) hmade
      obtain rfl : c = c' := Option.some.inj (hc.symm.trans hc')
      have hclasses : m1.classes = m.classes := by
        have hbalanced := balanced_makeAdapter scope [name] m
        rw [show makeAdapter scope [name] m = _ from hmade] at hbalanced
        exact hbalanced.classes
      -- the adapter has the class among its interfaces
      have htells : (m1.drop (.object scope label)).declaresItself n name = true := by
        unfold declaresItself
        rw [show (m1.drop (.object scope label)).store.cell? n = _ from hcell]
        show m1.classes.implements [c] name = true
        unfold Classes.implements Classes.implementsFrom
        rw [List.reverse_singleton]
        dsimp only
        rw [if_pos]
        unfold HostClass.answersTo
        rw [hnamed name c hc, beq_self_eq_true, Bool.true_or]
      refine atHome_of_hostIs ?_
      unfold hostIs
      rw [htells, Bool.or_true, Bool.true_or]

end Exec

/-! ## What is given and taken back -/

theorem Table.insert_eq_self {t : Table α} {e : α} (h : t.get? name = some e) : t.insert name e = t := by
  obtain ⟨entries⟩ := t
  refine congrArg Table.mk ?_
  change entries.lookup name = some e at h
  induction entries with
  | nil => cases h
  | cons entry rest ih =>
    obtain ⟨key, old⟩ := entry
    unfold Table.put
    rw [List.lookup_cons] at h
    split
    · rename_i hkey
      rw [hkey] at h
      rw [Option.some.inj h]
    · rename_i hkey
      rw [Bool.eq_false_iff.2 hkey] at h
      rw [ih h]

theorem Frame.setVariable_eq_self {x : Variable} (h : f.vars.get? name = some x) :
    f.setVariable name x = f := by
  unfold Frame.setVariable
  rw [Table.insert_eq_self h]

namespace Arena

variable {a : Arena}

theorem setFrame_eq_self (hf : a.frame? id = some f) : a.setFrame id f = a := by
  unfold setFrame
  rw [Array.modify_eq_self (frame?_eq_some_iff.1 hf) rfl]

theorem setFrame_setFrame (a : Arena) (id : ScopeId) (f g : Frame) :
    (a.setFrame id f).setFrame id g = a.setFrame id g := by
  unfold setFrame
  rw [Array.modify_modify]

end Arena

/-- A cell that gets one more owner and loses it again is as it was. -/
theorem Store.drop_retain_cell {s : Store} {n : Nat} {c : Cell} (hc : s.cell? n = some c) (ho : 0 < c.owners) :
    (s.retain (.cell n)).drop (.cell n) = s := by
  have hcell : (s.retain (.cell n)).cell? n = some { c with owners := c.owners + 1 } := by
    unfold retain
    rw [cell?_modifyCell, if_pos rfl, hc]
    rfl
  unfold drop dropAt
  rw [hcell]
  dsimp only
  rw [if_neg (by omega)]
  unfold retain modifyCell
  rw [Array.modify_modify, Array.modify_eq_self (Store.cell?_eq_some_iff.1 hc) rfl]

/-- **A copy that is taken and dropped again leaves the machine as it was**, once it is settled. -/
theorem Machine.settle_drop_retain {o : Multiset Claim} (hs : m.store.Sound o)
    (hq : m.store.arena.dropped = []) (hw : ∀ k ∈ w.claims, m.store.Holds k) :
    ((m.retain w).drop w).settle = m := by
  cases w with
  | object id label =>
    obtain ⟨f, hf⟩ := Arena.live_iff.1 (hw (.frame id) (Multiset.mem_singleton_self _))
    have hpositive := hs.frames.positive id f hf
    have hretain : m.store.arena.retain id = m.store.arena.setFrame id { f with owners := f.owners + 1 } := by
      unfold Arena.retain
      rw [hf]
    have hshared : ((m.retain (.object id label)).drop (.object id label)).store.arena.frame? id =
        some { f with owners := f.owners + 1 } := by
      show (m.store.arena.retain id).frame? id = _
      rw [hretain, Arena.frame?_setFrame (Arena.live_of_frame? hf), if_pos rfl]
    have hqueue : ((m.retain (.object id label)).drop (.object id label)).store.arena.dropped = [id] := by
      show id :: (m.store.arena.retain id).dropped = [id]
      rw [hretain]
      exact congrArg (id :: ·) hq
    rw [settle_shared hqueue hshared (Nat.lt_add_of_pos_left hpositive)]
    have harena : ({ (m.store.arena.retain id).queue id with dropped := [] } : Arena).setFrame id f =
        m.store.arena := by
      rw [hretain, ← hq]
      exact (Arena.setFrame_setFrame _ id _ f).trans (Arena.setFrame_eq_self hf)
    show { m with store := { m.store with
      arena := ({ (m.store.arena.retain id).queue id with dropped := [] } : Arena).setFrame id f } } = m
    rw [harena]
  | array n element | host n element =>
    obtain ⟨c, hc⟩ := Option.isSome_iff_exists.1 (hw (.cell n) (Multiset.mem_singleton_self _))
    have hback := Store.drop_retain_cell hc (hs.positive n c hc)
    have hmachine : { m with store := (m.store.retain (.cell n)).drop (.cell n) } = m := by rw [hback]
    exact (congrArg settle hmachine).trans (settle_of_settled hq)
  | primitive _ | text _ | hostClass _ _ => exact settle_of_settled hq

/-! ## Variables with a type -/

namespace Machine

theorem AtHome.retain (h : m.AtHome type w) (v : Value) : (m.retain v).AtHome type w := by
  refine h.after ((ebbing_retain v).alike m).classes fun n _ _ name =>
    declaresItself_congr ((ebbing_retain v).alike m).classes ?_ name
  -- owners are no matter of contents
  unfold Machine.retain
  cases v.claim? with
  | none => rfl
  | some k =>
    cases k with
    | frame id => rfl
    | cell k =>
      show ((m.store.modifyCell k _).cell? n).map Cell.contents = _
      rw [Store.cell?_modifyCell]
      split
      · rw [Option.map_map]
        rfl
      · rfl

/-- A value that somebody holds on to is at home as before when queued releases are applied. -/
theorem AtHome.settle (h : m.AtHome type w) (hw : ∀ k ∈ w.claims, m.settle.store.Holds k) :
    m.settle.AtHome type w := by
  refine h.after (ebbing_settle.alike m).classes fun n className hhost name =>
    declaresItself_congr (ebbing_settle.alike m).classes ?_ name
  subst hhost
  obtain ⟨c, hc⟩ := Option.isSome_iff_exists.1 (hw (.cell n) (Multiset.mem_singleton_self _))
  obtain ⟨c0, hc0, hcontents⟩ := (ebbing_settle.ebbs m).cells n c hc
  rw [hc, hc0, Option.map_some, Option.map_some, hcontents]

end Machine

/-- A place of a type takes over a value that is at home in the type. -/
theorem Exec.bindParams_of_atHome (h : m.AtHome type w) (frame : ScopeId) (p : Param)
    (params : List (Param × Option ValueType)) (args : List Value) :
    bindParams frame ((p, some type) :: params) (w :: args) m = (do
      onFailure (define frame p.name w (some type)) (·.dropAll args)
      bindParams frame params args) m := by
  have hbind : (do define frame p.name (← coerce type w .passing) (some type)) m =
      define frame p.name w (some type) m := bind_of_ok (coerce_of_atHome h .passing)
  show EStateM.bind _ _ m = EStateM.bind _ _ m
  unfold EStateM.bind Exec.onFailure
  dsimp only
  rw [hbind]

/-- A value that is at home in the type of a parameter is copied for a call of host code. -/
theorem Exec.coerceFrom_of_atHome (h : m.AtHome type w) (done : List Value) (types : List ValueType)
    (args : List Value) :
    coerceFrom done (type :: types) (w :: args) m = coerceFrom (w :: done) types args (m.retain w) := by
  have hcopy : copy w m = .ok w (m.retain w) := rfl
  exact (bind_of_ok hcopy).trans (bind_of_ok (onFailure_of_ok (coerce_of_atHome (h.retain w) .passing)))

/-- Owners are no matter of variables. -/
theorem Machine.vars_retain (v : Value) (hf : m.store.arena.frame? id = some f) :
    ∃ g, (m.retain v).store.arena.frame? id = some g ∧ g.vars = f.vars := by
  have hbindings := Arena.bindings_of_frame? hf
  rw [← m.bindings_retain v] at hbindings
  obtain ⟨g, hg, hgf⟩ := Arena.exists_frame?_of_bindings hbindings
  have hvars := congrArg Frame.vars hgf
  exact ⟨g, hg, hvars⟩

/-- A variable that is set to what it holds is left as it is, and what it held is dropped. -/
theorem Exec.define_same {declared : Option ValueType} (hq : m.store.arena.dropped = [])
    (hf : m.store.arena.frame? id = some f) (hw : f.vars.get? name = some ⟨w, declared⟩) :
    define id name w declared m = .ok () (m.drop w) := by
  have hs := settle_of_settled hq
  have hlive : m.settle.store.arena.frame? id = some f := by rw [hs, hf]
  refine unlessFailed_of_ok ((changeFrame_of_frame hlive).trans ?_)
  rw [hw, Frame.setVariable_eq_self hw, hs, Arena.setFrame_eq_self hf]
  rfl

/-- Storing a value that the variable holds already. -/
theorem Evaluator.assign_same (ev : Evaluator) (hq : m.store.arena.dropped = [])
    (hf : m.store.arena.frame? id = some f) (hw : f.vars.get? name = some ⟨w, some type⟩)
    (hhome : m.AtHome type w) :
    ev.assign (.variable id name) w m = .ok w ((m.retain w).drop w) := by
  obtain ⟨g, hg, hvars⟩ := vars_retain w hf
  have hdefine : define id name w (some type) (m.retain w) = .ok () ((m.retain w).drop w) :=
    define_same ((dropped_retain m w).trans hq) hg (by rw [hvars, hw])
  have hthrough : throughReference (define id name w (some type)) (m.retain w) = .ok () ((m.retain w).drop w) := by
    unfold throughReference mapFailure
    rw [hdefine]
  have hframe := throughFrame_of_settled hq hf
  refine (bind_of_ok (unlessFailed_of_ok hframe)).trans ?_
  rw [hw]
  refine (bind_of_ok (coerce_of_atHome hhome .storing)).trans ?_
  have hcopy : copy w m = .ok w (m.retain w) := rfl
  exact (bind_of_ok hcopy).trans (bind_of_ok (unlessFailed_of_ok hthrough))

/-- **Assigning a variable to itself is reading it**, but for releases that are still queued. -/
theorem evalExpr_selfAssignment [Trust] {r : Multiset Claim} (h : m.Ready 0 r) {here : ScopeId} {x : String}
    (hhere : m.stack.head? = some here) (href : referenceTo here x m = .ok (.variable id x) m.settle)
    (hf : m.settle.store.arena.frame? id = some f) (hx : f.vars.get? x = some ⟨w, some type⟩)
    (hhome : m.AtHome type w) (n : Nat) (span left right : Span) :
    ∃ m', evalExpr (n + 2) (.assign span (.name left x) none (.name right x)) m = .ok w m' ∧
      m'.settle = m.settle.retain w := by
  obtain ⟨hsettled, hq⟩ := h.settle
  have hidle : m.settle.settle = m.settle := settle_of_settled hq
  have hhere' : m.settle.stack.head? = some here := by rw [hsettled.alike.stack, hhere]
  have hheld : ∀ k ∈ w.claims, m.settle.store.Holds k :=
    fun k hk => hsettled.ready.sound.holds_of_frame hf (Frame.mem_claims_of_variable hx hk)
  -- the value on the right
  have hvalue : evalExpr (n + 1) (.name right x) m.settle = .ok w (m.settle.retain w) := by
    have hread := evalExpr_name hsettled.ready hhere' (referenceTo_settle hq href) (by rw [hidle]; exact hf) hx n right
    rwa [hidle] at hread
  -- storing it again
  have hq1 : (m.settle.retain w).store.arena.dropped = [] := (dropped_retain m.settle w).trans hq
  obtain ⟨g, hg, hvars⟩ := vars_retain w hf
  have hassign := (evaluator (n + 1)).assign_same hq1 hg (by rw [hvars, hx]) ((hhome.settle hheld).retain w)
  have hreference : (evaluator (n + 1)).reference (.name left x) m = .ok (.variable id x) m.settle :=
    (bind_of_ok (scope_of_head hhere)).trans href
  have hform : (evaluator (n + 1)).exprForm (.assign span (.name left x) none (.name right x)) m =
      .ok w (((m.settle.retain w).retain w).drop w) := by
    refine (bind_of_ok hreference).trans ?_
    rw [show dropReference (.variable id x) = fun m => m from rfl, afterwards_self]
    exact (bind_of_ok hvalue).trans hassign
  have hend := evalExpr_end (n + 1) (.assign span (.name left x) none (.name right x)) m
  rw [hform] at hend
  refine ⟨_, hend.eq_ok, ?_⟩
  -- one of the two copies is dropped again
  have hready := (hsettled.ready.retain hheld).ready
  refine settle_drop_retain hready.sound hq1 fun k hk => hready.sound.holds_of_mem ?_
  exact Multiset.mem_add.2 (.inl (Multiset.mem_add.2 (.inl hk)))

/-- **Conversion to a type is done once.** Let the classes be found under their own names. What a value has become
in a place of a type stays as it is when it is converted to the type again, stored or passed, then or in any later
machine with the same classes in which the object says the same of itself. So for a variable that has the type and
holds such a value, `x = x` gives what `x` gives and leaves the machine that reading `x` leaves, up to releases that
are still queued; and a parameter of the type takes the value as it is. -/
theorem conversion_is_idempotent {m m₁ m₂ : Machine} (hnamed : m.classes.WellNamed) (hpackaged : m.classes.Packaged)
    {type : ValueType} {v w : Value} {occasion : Occasion} (hconverted : coerce type v occasion m = .ok w m₁)
    (hclasses : m₂.classes = m₁.classes) (htells : ∀ cell className, w = .host cell className →
      ∀ name, m₂.declaresItself cell name = m₁.declaresItself cell name) :
    (∀ again, coerce type w again m₁ = .ok w m₁) ∧ (∀ again, coerce type w again m₂ = .ok w m₂) ∧
    (∀ (r : Multiset Claim) (here id : ScopeId) (x : String) (f : Frame), m₂.Standing 0 r → m₂.stack.head? = some here →
      referenceTo here x m₂ = .ok (.variable id x) m₂.settle → m₂.settle.store.arena.frame? id = some f →
      f.vars.get? x = some ⟨w, some type⟩ → ∀ (n : Nat) (span left right : Span), ∃ read assigned : Machine,
        evalExpr (n + 1) (.name right x) m₂ = .ok w read ∧
        evalExpr (n + 2) (.assign span (.name left x) none (.name right x)) m₂ = .ok w assigned ∧
        assigned.settle = read) ∧
    (∀ (frame : ScopeId) (p : Param) (params : List (Param × Option ValueType)) (args : List Value),
      bindParams frame ((p, some type) :: params) (w :: args) m₂ = (do
        onFailure (define frame p.name w (some type)) (·.dropAll args)
        bindParams frame params args) m₂) ∧
    ∀ (done : List Value) (types : List ValueType) (args : List Value),
      coerceFrom done (type :: types) (w :: args) m₂ = coerceFrom (w :: done) types args (m₂.retain w) := by
  have hhome : m₁.AtHome type w := atHome_of_coerce hnamed hpackaged hconverted
  have hlater : m₂.AtHome type w := hhome.after hclasses htells
  refine ⟨coerce_of_atHome hhome, coerce_of_atHome hlater, ?_, bindParams_of_atHome hlater, coerceFrom_of_atHome hlater⟩
  intro r here id x f hstanding hhere href hf hx n span left right
  -- no host code runs, so that nothing is asked of the classes
  let _ : Trust := trustAny
  have hready := hstanding.ready
  obtain ⟨assigned, hassigned, hsettled⟩ := evalExpr_selfAssignment hready hhere href hf hx hlater n span left right
  exact ⟨_, assigned, evalExpr_name hready hhere href hf hx n right, hassigned, hsettled⟩

/-- The machine that a computation has ended in. -/
def Exec.reached {α : Type} : Exec.Result α → Machine
  | .ok _ m | .error _ m => m

/-- The object of the global namespace was converted to a listener. -/
def adapted : Machine := reached (coerce (.named "a.Listener") (.object ⟨0, 0⟩ "global") .storing listening)

/-- The listener is the value of a variable. -/
def subscribed : Machine :=
  reached (define ⟨0, 0⟩ "x" (.host 0 adapterClassName) (some (.named "a.Listener")) adapted)

/-- A variable that holds an adapter is assigned to itself, and it holds the same adapter. -/
theorem adapter_assigned_to_itself :
    listening.classes.WellNamed ∧ listening.classes.Packaged ∧
      coerce (.named "a.Listener") (.object ⟨0, 0⟩ "global") .storing listening =
        .ok (.host 0 adapterClassName) adapted ∧
      coerce (.named "a.Listener") (.host 0 adapterClassName) .passing subscribed =
        .ok (.host 0 adapterClassName) subscribed ∧
      ∃ read assigned : Machine, evalExpr 1 (.name default "x") subscribed = .ok (.host 0 adapterClassName) read ∧
        evalExpr 2 (.assign default (.name default "x") none (.name default "x")) subscribed =
          .ok (.host 0 adapterClassName) assigned ∧ assigned.settle = read := by
  have hnamed : listening.classes.WellNamed := Classes.WellNamed.of_tables (by decide) (by decide)
  have hpackaged : listening.classes.Packaged := Classes.Packaged.of_tables (by decide +kernel) (by decide +kernel)
  have hconverted : coerce (.named "a.Listener") (.object ⟨0, 0⟩ "global") .storing listening =
      .ok (.host 0 adapterClassName) adapted := rfl
  let _ : Trust := trustAny
  have hready := ((ends_coerce _ .storing standing_listening.ready).ok hconverted).1.ready
  have hdefined : define ⟨0, 0⟩ "x" (.host 0 adapterClassName) (some (.named "a.Listener")) adapted =
      .ok () subscribed := rfl
  have hready2 := ((ends_defineLast hready hready.kept.global).ok hdefined).1.ready
  obtain ⟨-, hagain, hself, -⟩ :=
    @conversion_is_idempotent listening adapted subscribed hnamed hpackaged _ _ _ _ hconverted rfl
    (fun _ _ h _ => by cases h; rfl)
  exact ⟨hnamed, hpackaged, hconverted, hagain .passing,
    hself _ ⟨0, 0⟩ ⟨0, 0⟩ "x" _ hready2.standing rfl rfl rfl rfl 0 default default default⟩

end HostScript
