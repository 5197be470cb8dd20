import HostScript.Proofs.SafePlaces

/-!
# Texts, commands and dispatch are safe

Running texts and files, the commands, and finding out where a call goes, given a safe evaluation. A
call takes over its arguments: they end up in the frame of a scripted call, or they are dropped when a
host method or a command has looked at them.
-/

set_option autoImplicit false

namespace HostScript.Evaluator

open Exec Machine

variable [Holding] {ev : Evaluator} (hev : ev.Safe) {m : Machine} {r : Multiset Claim} {scope : ScopeId}
  {args : List Value}

include hev

/-! ## Texts and files -/

theorem ends_runUnits (label : Option String) (failure : Option Diagnostic) (units : List Stmt) :
    ∀ {m : Machine} {last : Value}, m.Ready last.claims r →
      Owns r Value.claims m (ev.runUnits label failure last units) := by
  induction units with
  | nil =>
    intro m last h
    unfold runUnits
    split
    · rw [← add_zero last.claims] at h
      exact ⟨h.drop, (Failure.permitted_unread _).label label⟩
    · exact .pure h trivial
  | cons unit rest ih =>
    intro m last h
    unfold runUnits
    -- the check of the depth has nothing to report
    rw [steadily_eq (hev.balanced.stmt unit)]
    rw [← zero_add last.claims] at h
    refine (Ends.unlessFailed h fun hlent => (hev.stmt unit hlent).mapFailure
      fun _ hf => hf.label label).bind fun flow m1 h1 _ => ?_
    have hready1 := h1.ready
    rw [add_comm] at hready1
    refine (ends_drop hready1).bind fun _ m2 h2 _ => ?_
    have hready2 := h2.ready
    have hjump := ((Failure.permitted_ofFault .strayJump).locate unit.span "statement").label label
    cases flow with
    | normal v =>
      rw [Flow.claims_normal] at hready2
      exact ih hready2
    | returned v =>
      rw [Flow.claims_returned] at hready2
      exact .pure hready2 trivial
    | broke => exact .throw hready2 hjump
    | continued => exact .throw hready2 hjump

theorem ends_runText (source : String) (label : Option String) (h : m.Ready 0 r) :
    Owns r Value.claims m (ev.runText source label) :=
  ends_runUnits hev label _ _ h

theorem ends_runFile (path : String) (h : m.Ready 0 r) (hs : m.store.Pinned r scope) :
    Owns r Value.claims m (ev.runFile path scope) := by
  refine (ends_resolvePath path h).bind fun path m1 h1 _ => ?_
  refine (ends_readFile path h1.ready).bind fun text m2 h2 _ => ?_
  have hs2 := h2.pinned (h1.pinned hs)
  exact Ends.onStack h2.ready (List.cons_ne_nil _ _)
    (fun id hid => List.mem_singleton.1 hid ▸ hs2) fun hready => ends_runText hev text _ hready

/-! ## Calls -/

theorem ends_runCommand (c : Command) (args : List Value) (h : m.Ready 0 r) :
    Owns r Value.claims m (ev.runCommand c args) := by
  unfold runCommand
  split
  · exact (ends_textOf h _ none).bind fun _ _ h1 _ =>
      (ends_modify (.ofConsole h1.ready _)).bind fun _ m2 h2 _ => .pure h2.ready trivial
  · exact (ends_textOf h _ none).bind fun _ _ h1 _ =>
      (ends_modify (.ofConsole h1.ready _)).bind fun _ m2 h2 _ => .pure h2.ready trivial
  · exact .pure h trivial
  · exact .pure h trivial
  · refine (ends_textArgument _ args h).bind fun text m1 h1 _ => ?_
    exact ends_runText hev (closeStatement text) none h1.ready
  · refine (ends_textArgument _ args h).bind fun path m1 h1 _ => ?_
    exact Ends.here h1.ready fun here hhere => ends_runFile hev path h1.ready hhere
  · exact (ends_workingDirectory h).bind fun _ m1 h1 _ => .pure h1.ready trivial
  · refine (ends_textArgument _ args h).bind fun text m1 h1 _ => ?_
    refine (ends_resolvePath text h1.ready).bind fun path m2 h2 _ => ?_
    refine (ends_entryAt path h2.ready).bind fun entry m3 h3 _ => ?_
    split
    · refine Ends.get ((ends_defineLast ?_ h3.ready.kept.global).bind fun _ m4 h4 _ =>
        .pure h4.ready trivial)
      exact h3.ready
    · exact .fault h3.ready _
  · refine (ends_textArgument _ args h).bind fun name m1 h1 _ => ?_
    refine Ends.here h1.ready fun here hhere => ?_
    refine (ends_referenceTo name h1.ready hhere).bind fun ref m2 h2 _ => ?_
    exact (ends_unsetReference _ h2.ready).bind fun _ m3 h3 _ => .pure h3.ready trivial

/-- A call without a receiver. -/
theorem ends_invoke (name : String) (h : m.Ready (claimsOf args) r) :
    Owns r Value.claims m (ev.invoke name args) := by
  rw [← zero_add (claimsOf args)] at h
  refine (Ends.orDropAll h fun hlent => ends_scope hlent).bind fun here m1 h1 hscope => ?_
  obtain ⟨rfl, hhead, -⟩ := hscope
  have hhere : m1.store.Pinned r here := h.kept.frames here (List.mem_of_mem_head? hhead)
  refine (Ends.orDropAll h1.ready fun hlent => ends_callee? name args hlent hhere.lend).bind
    fun found m2 h2 hfound => ?_
  have hhere2 := h2.pinned hhere
  have hready2 := h2.ready
  cases found with
  | none =>
    refine Ends.holdingAll hready2 fun hlent => ?_
    exact (ends_frameName hlent hhere2.lend).bind fun name m3 h3 _ => .fault h3.ready _
  | some callee =>
    have hfit := hfound callee rfl
    cases callee with
    | scripted method =>
      -- the method is closed over a frame above this one, which is pinned
      refine ends_invokeScripted hev method ?_ (hhere2.above hfit)
      rwa [← zero_add (claimsOf args)]
    | host receiver method =>
      obtain ⟨c, hc, hmethod⟩ := hfit
      refine Ends.holdingAll hready2 fun hlent => ?_
      refine Ends.holding hlent fun hlent' => ends_callConverted hev hc (.inr hmethod) hlent' ?_ ?_
      · intro k hk
        exact Multiset.mem_add.2 (.inl (by simpa using hk))
      · intro k hk
        exact Multiset.mem_add.2 (.inr (Multiset.mem_add.2 (.inl hk)))
    | command c => exact Ends.holdingAll hready2 fun hlent => ends_runCommand hev c args hlent
    | generic method =>
      refine ends_invokeGeneric hev method name ?_ (hhere2.above hfit)
      rwa [← zero_add (claimsOf args)]

theorem ends_invokeObject (label name : String) (h : m.Ready (claimsOf args) r)
    (hs : m.store.Pinned r scope) :
    Owns r Value.claims m (ev.invokeObject scope label name args) := by
  rw [← zero_add (claimsOf args)] at h
  refine (Ends.orDropAll h fun hlent => ends_resolveMethod name args hlent hs.lend).bind
    fun selected m1 h1 hselected => ?_
  have hs1 := h1.pinned hs
  cases selected with
  | some method =>
    refine ends_invokeScripted hev method ?_ (hs1.above (hselected method rfl))
    rw [← zero_add (claimsOf args)]
    exact h1.ready
  | none =>
    refine (Ends.orDropAll h1.ready fun hlent => ends_methodByArity? hlent hs1.lend
      "invoke" 2).bind fun generic m2 h2 hgeneric => ?_
    have hs2 := h2.pinned hs1
    cases generic with
    | some method =>
      refine ends_invokeGeneric hev method name ?_ (hs2.above (hgeneric method rfl))
      rw [← zero_add (claimsOf args)]
      exact h2.ready
    | none =>
      refine Ends.holdingAll h2.ready fun hlent => ?_
      split
      · exact .pure hlent trivial
      · exact .pure hlent trivial
      · exact .pure hlent trivial
      · exact .pure hlent trivial
      · exact .fault hlent _

/-- The identity calls look at the arguments, which stay with their owner. -/
theorem ends_invokeHostObject {cell : Nat} (className name : String) (h : m.Ready 0 r)
    (hcell : .cell cell ∈ r) (hargs : ∀ k ∈ claimsOf args, k ∈ r) :
    Owns r Value.claims m (ev.invokeHostObject cell className name args) := by
  unfold invokeHostObject
  extract_lets target rest
  have hrest : ∀ {m : Machine}, m.Ready 0 r → Owns r Value.claims m (rest PUnit.unit) := by
    intro m h
    dsimp only [rest]
    split
    · exact (ends_textOf h _ none).bind fun _ m1 h1 _ => .pure h1.ready trivial
    · exact .pure h trivial
    · exact .pure h trivial
    · exact .fault h _
  have htarget : ∀ k ∈ claimsOf (some target).toList, k ∈ r := by
    intro k hk
    simp only [target, Option.toList_some, claimsOf_cons, claimsOf_nil, add_zero,
      Value.claims_host, Multiset.mem_singleton] at hk
    rwa [hk]
  refine Ends.get ?_
  split
  · rename_i c hc
    refine (ends_invokeHost hev (Classes.mem_of_load? hc) name h htarget hargs).bind
      fun found m1 h1 _ => ?_
    cases found with
    | some v => exact .pure h1.ready trivial
    | none => exact hrest h1.ready
  · exact hrest h

/-- A call on a value that others keep. -/
theorem ends_invokeOn {target : Value} (name : String) (h : m.Ready (claimsOf args) r)
    (htarget : ∀ k ∈ target.claims, k ∈ r) :
    Owns r Value.claims m (ev.invokeOn target name args) := by
  have hready : m.Ready (0 + claimsOf args) r := by rwa [zero_add]
  have hlentArgs : ∀ k ∈ claimsOf args, k ∈ claimsOf args + r :=
    fun k hk => Multiset.mem_add.2 (.inl hk)
  unfold invokeOn
  split
  · exact ends_invokeObject hev _ name h (.held (htarget _ (Multiset.mem_singleton_self _)))
  · rename_i cell className
    have hcell := htarget _ (Multiset.mem_singleton_self _)
    refine Ends.get ?_
    split
    · rename_i a ha
      have hkept := keptAdapter_of_adapter? h hcell ha
      -- the target of the call keeps the adapter, and the adapter its frame
      have hlent : KeptAdapter (claimsOf args + r) m cell a :=
        ⟨Multiset.mem_add.2 (.inr hcell), hkept.there, hkept.within⟩
      refine (Ends.orDropAll hready fun hl => ends_identityCall hl hlent name args).bind
        fun found m1 h1 hfound => ?_
      cases found with
      | some v =>
        refine Ends.holdingAll h1.ready fun hl => .pure ?_ trivial
        rwa [hfound v rfl]
      | none =>
        refine ends_invokeObject hev _ name ?_ (h1.pinned hkept.pinned)
        rw [← zero_add (claimsOf args)]
        exact h1.ready
    · exact Ends.holdingAll hready fun hl =>
        ends_invokeHostObject hev className name hl (Multiset.mem_add.2 (.inr hcell)) hlentArgs
  · refine Ends.holdingAll hready fun hl => Ends.get ?_
    split
    · exact .fault hl _
    · rename_i c hc
      have hclass := Array.mem_of_getElem? hc
      refine (ends_invokeHost hev hclass name hl (fun k hk => by simp at hk) hlentArgs).bind
        fun found m1 h1 _ => ?_
      cases found with
      | some v => exact .pure h1.ready trivial
      | none => exact .fault h1.ready _
  · refine Ends.holdingAll hready fun hl => Ends.get ?_
    split
    · exact .fault hl _
    · rename_i c hc
      have hclass := Classes.mem_of_load? hc
      refine (ends_invokeHost hev hclass name hl (fun k hk => ?_) hlentArgs).bind fun found m1 h1 _ => ?_
      · simp at hk
      · cases found with
        | some v => exact .pure h1.ready trivial
        | none => exact .fault h1.ready _
  · exact Ends.holdingAll hready fun hl => .fault hl _
  · exact Ends.holdingAll hready fun hl => .fault hl _

theorem ends_construct {c : HostClass} (hc : c ∈ m.classes.records) (h : m.Ready (claimsOf args) r) :
    Owns r Value.claims m (ev.construct c args) := by
  rw [← zero_add (claimsOf args)] at h
  refine Ends.holdingAll h fun hl => ?_
  extract_lets rest
  have hrest : Owns (claimsOf args + r) Value.claims m (rest PUnit.unit) := by
    refine (ends_selectHost _ args hl).bind fun found m1 h1 hfound => ?_
    cases found with
    | none => exact .fault h1.ready _
    | some method =>
      exact ends_callConverted hev (h1.alike.classes ▸ hc) (.inl (hfound.2 method rfl)) h1.ready
        (fun k hk => by simp at hk) fun k hk => Multiset.mem_add.2 (.inl hk)
  split
  · exact Ends.failing (.fault hl _)
  · exact hrest

end HostScript.Evaluator
