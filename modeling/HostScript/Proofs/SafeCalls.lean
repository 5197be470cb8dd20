import HostScript.Proofs.WovenEvaluation
import HostScript.Proofs.OwnershipPlaces

/-!
# Calls are safe

An evaluator is safe when every evaluation that starts in a ready machine, owning nothing, ends owning
its value and fails with an internal error only if a reference dangles. Given a safe evaluation of
expressions and statements, the calls of scripted methods and of host methods are safe.
-/

set_option autoImplicit false

namespace HostScript

open Machine

/-- The claim that owning what came of host code is. -/
def HostResult.claims : HostResult → Multiset Claim
  | .returned v => v.claims
  | .raised _ => 0

/-- The claim that owning the answer in a reply is. -/
def Reply.claims : Reply → Multiset Claim
  | .answered (some v) => v.claims
  | _ => 0

theorem Reply.claims_eq_zero {reply : Reply} (h : ∀ v, reply = .answered (some v) → False) :
    reply.claims = 0 := by
  unfold Reply.claims
  split
  · exact (h _ rfl).elim
  · rfl

/-- What host code may use is kept for it, or there now. -/
structure Sight.Sees (b : Sight) (r : Multiset Claim) (m : Machine) : Prop where
  given : ∀ k, b.given k → k ∈ r
  seen : ∀ k, b.seen k → m.store.Holds k
  objects : ∀ n, b.objects n → (m.store.host? n).isSome

namespace Sight.Sees

variable {b : Sight} {o r : Multiset Claim} {m m' : Machine}

theorem holds (hb : b.Sees r m) (h : m.Ready o r) {k : Claim} (hk : b.May k) : m.store.Holds k :=
  hk.elim (fun hg => h.holds (hb.given k hg)) (hb.seen k)

theorem renew (hb : b.Sees r m) : b.renew.Sees r m' :=
  ⟨hb.given, fun _ hk => hk.elim, fun _ hn => hn.elim⟩

/-- A look at a cell shows the host object that is in it. -/
theorem look (hb : b.Sees r m) (h : m.Ready o r) (n : Nat) (name : String) :
    (b.look (.host n name) (m.store.host? n)).Sees r m := by
  refine ⟨hb.given, fun k hk => ?_, fun i hi => ?_⟩
  · rcases hk with hk | ⟨object, ho, hk⟩
    · exact hb.seen k hk
    · obtain ⟨c, hc, hcontents⟩ := Store.host?_eq_some_iff.1 ho
      exact h.sound.holds_of_cell hc (by rw [hcontents]; exact hk)
  · rcases hi with hi | ⟨⟨name', hname⟩, hsome⟩
    · exact hb.objects i hi
    · cases hname
      exact hsome

/-- There is nothing to see where no host object is. -/
theorem look_none (hb : b.Sees r m) (object : Value) : (b.look object none).Sees r m := by
  refine ⟨hb.given, fun k hk => ?_, fun n hn => ?_⟩
  · rcases hk with hk | ⟨_, hnone, _⟩
    · exact hb.seen k hk
    · cases hnone
  · rcases hn with hn | ⟨_, hnone⟩
    · exact hb.objects n hn
    · cases hnone

/-- Copies are given for as long as they are kept, and what was seen is still there. -/
theorem keep (hb : b.Sees r m) (values : List Value) :
    (b.keep values).Sees (claimsOf values + r) (values.foldl Machine.retain m) := by
  rw [foldl_retain]
  refine ⟨fun k hk => ?_, fun k hk => ?_, fun n hn => ?_⟩
  · exact Multiset.mem_add.2 (hk.symm.imp_right (hb.given k))
  · exact (hb.seen k hk).retainAll _
  · obtain ⟨o, ho⟩ := Option.isSome_iff_exists.1 (hb.objects n hn)
    obtain ⟨c, hc, hcontents⟩ := Store.host?_eq_some_iff.1 ho
    obtain ⟨c', hc', hsame⟩ := Store.cell?_retainAll (values.filterMap Value.claim?) hc
    have hkept := Store.host?_eq_some_iff.2 ⟨c', hc', hsame.trans hcontents⟩
    exact Option.isSome_iff_exists.2 ⟨o, hkept⟩

/-- An answer is given for as long as it is kept. -/
theorem answered (hb : b.Sees r m) (reply : Reply) : (b.answered reply).Sees (reply.claims + r) m' := by
  refine ⟨fun k hk => ?_, fun _ hk => hk.elim, fun _ hn => hn.elim⟩
  rcases hk with hk | ⟨v, rfl, hk⟩
  · exact Multiset.mem_add.2 (.inr (hb.given k hk))
  · exact Multiset.mem_add.2 (.inl hk)

end Sight.Sees

theorem Flow.Confined.claims {flow : Flow} {ok : Bounds} (h : flow.Confined ok) {id : ScopeId}
    (hid : .frame id ∈ flow.claims) : ok.frame id := by
  cases flow with
  | normal v | returned v => exact Value.Confined.claims h (by simpa using hid)
  | broke | continued => exact absurd hid (Multiset.notMem_zero _)

namespace Evaluator

open Exec

variable {method : HostMethod} {ok : ScopeId → Prop}

/-- Evaluation keeps account of what it owns, and fails internally only at a dangling reference. -/
structure Safe [Holding] [Trust] (ev : Evaluator) : Prop where
  balanced : ev.Balanced
  expr : ∀ e {m : Machine} {r : Multiset Claim}, m.Ready 0 r →
    Ends r Value.claims m (fun _ _ => True) (ev.expr e)
  stmt : ∀ s {m : Machine} {r : Multiset Claim}, m.Ready 0 r →
    Ends r Flow.claims m (fun _ _ => True) (ev.stmt s)
  confined : Holding.allowed ∨ (∀ {r cs}, Trust.trusts r cs → cs.Honest r) ∧
    ∀ ok, ev.Threaded (.frames ok) (fun _ => True) fun _ => True

/-- What evaluation that refers to no frame outside a set is made of. -/
abbrev confining (ok : ScopeId → Prop) : Discipline Unit :=
  weaving (.frames ok) (fun _ => True) (Thrown fun _ => True)

theorem confines_flow {x : Exec Flow} (hx : (confining ok).flows true () fun _ => x) :
    Confines ok Flow.claims x := by
  refine fun i m hm => EndsIn.imp ?_ (fun _ hf => hf) (Woven.confines hx i m hm)
  intro flow (hflow : flow.Confined (.frames ok)) id hid
  exact hflow.claims hid

theorem confines_value {x : Exec Value} (hx : (confining ok).yields true () fun _ => x) :
    Confines ok Value.claims x := by
  refine fun i m hm => EndsIn.imp ?_ (fun _ hf => hf) (Woven.confines hx i m hm)
  intro v (hv : v.Confined (.frames ok)) id hid
  exact hv.claims hid

/-! ## Scripted methods -/

section

variable [Holding] [Trust] {ev : Evaluator} (hev : ev.Safe) {m : Machine} {r : Multiset Claim}
  {args : List Value}

include hev

theorem ends_runFrom (body : List Stmt) : ∀ {m : Machine} {last : Value}, m.Ready last.claims r →
    Owns r Flow.claims m (ev.runFrom last body) := by
  induction body with
  | nil => exact fun h => .pure (by rwa [Flow.claims_normal]) trivial
  | cons s rest ih =>
    intro m last h
    unfold runFrom
    split
    · exact .pure (by rwa [Flow.claims_normal]) trivial
    · rename_i heq
      cases heq
      exact ih h
    · rename_i heq
      cases heq
      -- the value so far is dropped once the statement has come to an end of its own
      rw [← zero_add last.claims] at h
      refine (Ends.unlessFailed h fun hlent => hev.stmt _ hlent).bind fun flow m1 h1 _ => ?_
      have hready := h1.ready
      rw [add_comm] at hready
      split
      · rw [Flow.claims_normal] at hready
        exact (ends_drop hready).bind fun _ m2 h2 _ => ih h2.ready
      · exact (ends_drop hready).bind fun _ m2 h2 _ => .pure h2.ready trivial

theorem ends_runBody (body : List Stmt) (h : m.Ready 0 r) : Owns r Flow.claims m (ev.runBody body) :=
  (ends_hoist body h).bind fun _ _ h1 _ => ends_runFrom hev body h1.ready

theorem ends_runBlock (body : List Stmt) (h : m.Ready 0 r) : Owns r Flow.claims m (ev.runBlock body) := by
  refine Ends.here h fun parent hparent => ?_
  refine Ends.inFrame (balanced_runBody hev.balanced body) h hparent
    (hev.confined.imp_right fun ht => ⟨ht.1 h.kept.classes, fun ok _ => ?_⟩)
    fun _ _ _ _ hready => ends_runBody hev body hready
  exact confines_flow (Discipline.runBody fun s _ _ => (ht.2 ok).stmt s)

theorem ends_runCall (method : ScriptMethod) (types : List (Option ValueType))
    (hparams : method.params.length = args.length) (htypes : types.length = args.length)
    (h : m.Ready (claimsOf args) r) :
    Owns r Value.claims m (ev.runCall method types args) := by
  refine Ends.here h fun frame hframe => ?_
  have hlen : (method.params.zip types).length = args.length := by
    rw [List.length_zip, hparams, htypes, Nat.min_self]
  refine (ends_bindParams _ h hframe hlen).bind fun _ m2 h2 _ => ?_
  refine (ends_runBody hev method.body h2.ready).bind fun flow m3 h3 _ => ?_
  have hready := h3.ready
  cases flow with
  | returned v =>
    rw [Flow.claims_returned] at hready
    exact .pure hready trivial
  | normal v =>
    rw [Flow.claims_normal] at hready
    exact (ends_dropLast hready).bind fun _ m4 h4 _ => .pure h4.ready trivial
  | broke => exact .fault hready _
  | continued => exact .fault hready _

/-- A scripted call takes over its arguments; the frame that the method is closed over has to be
pinned. -/
theorem ends_invokeScripted (method : ScriptMethod) (h : m.Ready (claimsOf args) r)
    (hm : m.store.Pinned r method.declaring) :
    Owns r Value.claims m (ev.invokeScripted method args) := by
  unfold invokeScripted
  extract_lets rest
  -- the arguments are owned here until the new frame takes them over
  have hrest : args.length = method.arity → Owns r Value.claims m (rest PUnit.unit) := by
    intro hlen
    rw [← zero_add (claimsOf args)] at h
    refine (Ends.orDropAll h fun hlent => ends_resolveParams method.params hlent hm.lend).bind
      fun types m1 h1 htypes => ?_
    have hm1 := h1.pinned hm
    refine (Ends.orDropAll h1.ready fun hlent => ends_resolveType? method.returns hlent
      hm1.lend).bind fun returns m2 h2 _ => ?_
    have hm2 := h2.pinned hm1
    refine (Ends.orDropAll h2.ready fun hlent => ends_checkDepth method.name hlent).bind
      fun _ m3 h3 _ => ?_
    have hm3 := h3.pinned hm2
    refine (Ends.oneDeeper h3.ready fun depth hdeep => Ends.inFrame
      (balanced_runCall hev.balanced method types args) hdeep hm3 (hev.confined.imp_right fun ht =>
        ⟨ht.1 hdeep.kept.classes, fun ok hargs => confines_value
          ((ht.2 ok).runCall method types (allConfined_of_claims (by rwa [zero_add] at hargs)))⟩)
      fun id m4 _ _ hready =>
        ends_runCall hev method types hlen.symm (htypes.trans hlen.symm)
          (by rwa [zero_add] at hready)).bind fun value m5 h5 _ => ?_
    split
    · exact .pure h5.ready trivial
    · exact .pure h5.ready trivial
    · split
      · exact .pure h5.ready trivial
      · exact ends_coerce _ .storing h5.ready
  split
  · exact Ends.failing (ends_refuseAll h _)
  · rename_i hlen
    exact hrest (by simpa using hlen)

theorem ends_invokeGeneric (method : ScriptMethod) (name : String)
    (h : m.Ready (claimsOf args) r) (hm : m.store.Pinned r method.declaring) :
    Owns r Value.claims m (ev.invokeGeneric method name args) := by
  refine (ends_makeArray h).bind fun packed m1 h1 _ => ?_
  refine ends_invokeScripted hev method ?_ (h1.pinned hm)
  simpa using h1.ready

end

/-! ## Host code -/

variable [Holding] {ev : Evaluator} (hev : ev.Safe) {m : Machine} {r : Multiset Claim}
  {args : List Value} {receiver : Option Value}

include hev

theorem ends_callAdapter {cell : Nat} {a : Adapter} (method : String) (h : m.Ready 0 r)
    (ha : KeptAdapter r m cell a) (hargs : ∀ k ∈ claimsOf args, k ∈ r) :
    Owns r (fun answer => answer.elim 0 Value.claims) m (ev.callAdapter cell a method args) := by
  refine (ends_handlerFor h ha method args.length).bind fun handler m1 h1 hhandler => ?_
  have hs1 := h1.pinned ha.pinned
  refine Ends.bind (?_ : Owns r Value.claims m1 _) fun value m2 h2 _ => ?_
  · refine Ends.onStack h1.ready (List.cons_ne_nil _ _)
      (fun id hid => List.mem_singleton.1 hid ▸ hs1) fun hready => ?_
    -- the caller keeps the arguments, and the handler gets copies
    have hheld : ∀ k ∈ claimsOf args, m1.store.Holds k := fun k hk => hready.holds (hargs k hk)
    have hcopy := ends_copyAll hready hheld
    cases handler with
    | named target =>
      refine hcopy.bind fun args' m2 h2 hsame => ?_
      subst hsame
      exact ends_invokeScripted hev target (by simpa using h2.ready) (h2.pinned (hhandler target rfl))
    | generic target =>
      refine hcopy.bind fun args' m2 h2 hsame => ?_
      subst hsame
      exact ends_invokeGeneric hev target method (by simpa using h2.ready)
        (h2.pinned (hhandler target rfl))
    | identity call => exact .pure (by rwa [claims_identityValue]) trivial
    | missing => exact .fault hready _
  · split
    · rename_i hnothing
      have hclaims := claims_of_nothing (by simpa using hnothing)
      exact .pure (hclaims ▸ h2.ready) trivial
    · exact .pure h2.ready trivial

theorem ends_callBack {target : Value} (method : String) (h : m.Ready 0 r)
    (htarget : ∀ k ∈ target.claims, k ∈ r) (hargs : ∀ k ∈ claimsOf args, k ∈ r) :
    Owns r Reply.claims m (ev.callBack target method args) := by
  cases target with
  | host cell className =>
    refine Ends.get ?_
    cases ha : m.store.adapter? cell with
    | none => exact .pure h trivial
    | some a =>
      have hkept := keptAdapter_of_adapter? h (htarget _ (Multiset.mem_singleton_self _)) ha
      refine (ends_callAdapter hev method h hkept hargs).attempt.bind fun answer m1 h1 _ => ?_
      cases answer with
      | error message => exact .pure h1.ready trivial
      | ok answer => cases answer <;> exact .pure h1.ready trivial
  | _ => exact .pure h trivial

/-- Honest code is safe, however it goes on from what it sees. -/
theorem ends_runAction (action : Action) : ∀ {m : Machine} {r : Multiset Claim} {b : Sight},
    m.Ready 0 r → b.Sees r m → action.Honest b →
    Owns r HostResult.claims m (ev.runAction action) := by
  induction action with
  | done value =>
    intro m r b h hb hhonest
    refine (ends_copied h fun k hk => hb.holds h (hhonest k hk)).bind fun w m1 h1 _ => ?_
    exact .pure h1.ready trivial
  | create object =>
    intro m r b h hb hhonest
    have hretain := h.retainClaims object.claims fun k hk => hb.holds h (hhonest k hk)
    refine (ends_modify hretain).bind fun _ m1 h1 _ => ?_
    refine (ends_alloc h1.ready fun a ha => by cases ha).bind fun n m2 h2 _ => ?_
    exact .pure (by simpa [HostResult.claims] using h2.ready) trivial
  | raise message => exact fun h _ _ => .pure h trivial
  | inspect object next ih =>
    intro m r b h hb hhonest
    cases object with
    | host n name => exact Ends.get (ih _ h (hb.look h n name) (hhonest _))
    | _ => exact ih none h (hb.look_none _) (hhonest none)
  | update object contents next ih =>
    intro m r b h hb hhonest
    obtain ⟨hobject, hnext⟩ := hhonest
    cases object with
    | host n name =>
      obtain ⟨-, hseen, hclaims⟩ := hobject n name rfl
      -- the object was seen since the store last changed, so it is there to be replaced
      obtain ⟨old, hold⟩ := Option.isSome_iff_exists.1 (hb.objects n hseen)
      have hupdate := h.update hold fun k hk => hb.holds h (hclaims k hk)
      refine Ends.bind (ends_modify ?_) fun _ m1 h1 _ => ih h1.ready hb.renew hnext
      rw [hold]
      exact hupdate
    | _ => exact ih h hb.renew hnext
  | textOf locked value next ih =>
    intro m r b h hb hhonest
    refine (ends_textOf h value locked).bind fun text m1 _ hsame => ?_
    subst hsame
    exact ih _ h hb (hhonest text)
  | keep values next ih =>
    intro m r b h hb hhonest
    obtain ⟨hvalues, hnext⟩ := hhonest
    have hcopy : Ends r (fun kept => claimsOf kept + 0) m
        (fun kept m' => kept = values ∧ m' = values.foldl Machine.retain m) (copyAll values) :=
      ⟨h.retainAll values fun k hk => hb.holds h (hvalues k hk), rfl, rfl⟩
    refine hcopy.bind fun kept m1 h1 hkept => ?_
    obtain ⟨rfl, rfl⟩ := hkept
    have hready := h1.ready
    rw [add_comm] at hready
    exact Ends.holdingAll hready fun hlent => ih hlent (hb.keep kept) hnext
  | notify target method args next ih =>
    intro m r b h hb hhonest
    obtain ⟨htarget, hargs, hnext⟩ := hhonest
    have hcall := ends_callBack hev method h (fun k hk => hb.given k (htarget k hk))
      fun k hk => hb.given k (hargs k hk)
    unfold runAction
    refine hcall.bind fun reply m1 h1 _ => ?_
    split
    · rename_i v
      exact (ends_dropLast h1.ready).bind fun _ m2 h2 _ => ih _ h2.ready hb.renew (hnext _)
    · rename_i hnone
      have hclaims := Reply.claims_eq_zero hnone
      exact ih _ (hclaims ▸ h1.ready) hb.renew (hnext _)
  | ask target method args next ih =>
    intro m r b h hb hhonest
    obtain ⟨htarget, hargs, hnext⟩ := hhonest
    have hcall := ends_callBack hev method h (fun k hk => hb.given k (htarget k hk))
      fun k hk => hb.given k (hargs k hk)
    unfold runAction
    refine hcall.bind fun reply m1 h1 _ => ?_
    split
    · rename_i v
      exact Ends.holding h1.ready fun hlent => ih _ hlent (hb.answered _) (hnext _)
    · rename_i hnone
      have hclaims := Reply.claims_eq_zero hnone
      have hsees : (b.answered reply).Sees (reply.claims + r) m1 := hb.answered reply
      rw [hclaims, zero_add] at hsees
      exact ih _ (hclaims ▸ h1.ready) hsees (hnext _)

/-- Carrying out an action that uses only its receiver and arguments and what classes own, which others
keep. -/
theorem ends_perform (step : HostStep) {action : Action} (h : m.Ready 0 r)
    (hhonest : action.Honest (givenBy r receiver args))
    (hgiven : ∀ k ∈ claimsOf (receiver.toList ++ args), k ∈ r) :
    Owns r Value.claims m (ev.perform step action) := by
  have hsees : (givenBy r receiver args).Sees r m :=
    ⟨fun k hk => hk.elim (hgiven k) id, fun _ hk => hk.elim, fun _ hn => hn.elim⟩
  refine Ends.get ((ends_runAction hev action h hsees hhonest).bind fun result m1 h1 _ => ?_)
  refine (ends_modify (.ofJournal h1.ready _)).bind fun _ m2 h2 _ => ?_
  cases result with
  | returned v => exact .pure h2.ready trivial
  | raised message => exact .throw h2.ready trivial

theorem ends_callHost (hm : method.Honest r) (h : m.Ready 0 r)
    (hgiven : ∀ k ∈ claimsOf (receiver.toList ++ args), k ∈ r) :
    Owns r Value.claims m (ev.callHost method receiver args) := by
  unfold callHost
  extract_lets rest
  have hrest : Owns r Value.claims m (rest PUnit.unit) := by
    dsimp only [rest]
    cases hbody : method.body with
    | none => exact .fault h _
    | some body =>
      dsimp only
      split
      · exact .fault h _
      · exact ends_perform hev _ h (hm body hbody receiver args) hgiven
  split
  · exact Ends.failing (.fault h _)
  · exact hrest

theorem ends_callConverted {c : HostClass} (hc : c ∈ m.classes.records)
    (hm : method ∈ c.constructors ∨ method ∈ c.methods) (h : m.Ready 0 r)
    (hreceiver : ∀ k ∈ claimsOf receiver.toList, k ∈ r) (hargs : ∀ k ∈ claimsOf args, k ∈ r) :
    Owns r Value.claims m (ev.callConverted method receiver args) := by
  refine (ends_coerceArgs method.params h hargs).bind fun args' m1 h1 _ => ?_
  have hready : m1.Ready (0 + claimsOf args') r := by rw [zero_add]; exact h1.ready
  refine Ends.holdingAll hready fun hlent => ?_
  -- the code is honest about all that is kept while it runs
  have hclass := hlent.kept.classes c (h1.alike.classes ▸ hc)
  refine ends_callHost hev (hm.elim (hclass.constructors method) (hclass.methods method)) hlent fun k hk => ?_
  rw [claimsOf_append, Multiset.mem_add] at hk
  exact Multiset.mem_add.2 (hk.symm.imp id (hreceiver k))

theorem ends_invokeHost {c : HostClass} (hc : c ∈ m.classes.records) (name : String) (h : m.Ready 0 r)
    (hreceiver : ∀ k ∈ claimsOf receiver.toList, k ∈ r) (hargs : ∀ k ∈ claimsOf args, k ∈ r) :
    Owns r (fun found => found.elim 0 Value.claims) m (ev.invokeHost c receiver name args) := by
  refine (ends_selectHost _ args h).bind fun found m1 h1 hfound => ?_
  cases found with
  | none => exact .pure h1.ready trivial
  | some method =>
    have hmem := (List.mem_filter.1 (hfound.2 method rfl)).1
    exact (ends_callConverted hev (h1.alike.classes ▸ hc) (.inr (List.mem_filter.1 hmem).1) h1.ready hreceiver
      hargs).bind fun v m2 h2 _ =>
      .pure h2.ready trivial

end Evaluator

end HostScript
