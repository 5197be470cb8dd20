import HostScript.Proofs.NameAssignment

/-!
# Reading and writing a name agree

After an assignment through a name, the name reads what was stored (`valueOf?_written`); before it, the name
reads the variable or the field that the assignment reaches, and where there is none yet, a class or a variable
that is visible everywhere (`valueOf?_nowhere`). The main result is `reading_agrees_with_writing`, put together
from `AgreesOnVariable` and `AgreesOnField`.
-/

set_option autoImplicit false

namespace HostScript

open Exec Machine Site

variable {m m1 m2 : Machine} {r : Multiset Claim} {scope id : ScopeId} {name : String}
  {v s : Value} {f : Frame} {span : Span} {path : String}

section

variable {o : Multiset Claim} {frames : List (ScopeId × Frame)} {w : Variable}

/-- A name reads what was written through it, as long as the frame it is looked up from is there. -/
theorem valueOf?_written [Trust] (ev : Evaluator) {m' : Machine}
    (hlin : m.settle.store.arena.Lineage scope frames)
    (hleads : LeadsTo (find? m.config.order m.classes name frames) frames id)
    (hf : m.settle.store.arena.frame? id = some f) (h' : m'.Ready o r) (halike : m.Alike m')
    (hb : m'.store.arena.bindings = Function.update m.settle.store.arena.bindings id
      (some (f.setVariable name w).bindings))
    (hlive : m'.settle.store.arena.Live scope) :
    ev.valueOf? scope name m' = .ok (some w.value) (m'.settle.retain w.value) := by
  have hs := h'.settle.1
  obtain ⟨l', hlin'⟩ := hs.ready.sound.frames.rooted scope hlive
  obtain ⟨u, hu⟩ := Arena.live_iff.1 (hs.ready.live (hs.pinned h'.kept.utilities))
  -- a frame that is there now was there before, and binds what it did or what was written
  have hsame : ∀ k f0 g, m.settle.store.arena.frame? k = some f0 →
      m'.settle.store.arena.frame? k = some g → g.bindings = (Site.written id name w (k, f0)).2.bindings := by
    intro k f0 g hf0 hg
    have hkept := bindings_settle (Arena.bindings_of_frame? hg)
    rw [hb] at hkept
    unfold Site.written
    by_cases hk : k = id
    · subst hk
      rw [Function.update_self, Option.some.injEq] at hkept
      rw [hf, Option.some.injEq] at hf0
      rw [if_pos rfl, ← hf0, hkept]
    · rw [Function.update_of_ne hk, Arena.bindings_of_frame? hf0, Option.some.injEq] at hkept
      rw [if_neg hk, hkept]
  have hfound : find? m'.config.order m'.classes name l' = some (.frame id w) := by
    rw [halike.config, halike.classes, ← find?_uncounted, lineage_written hlin hlin' hsame,
      find?_uncounted, find?_written hleads]
  rw [ev.valueOf?_eq name (Arena.chain_eq_of_lineage hlin') hu, hfound]
  rfl

/-- Looking up a class from a live frame changes nothing once nothing is queued. -/
theorem lookupClass_of_lineage [Trust] (name : String) (h : m.Ready o r)
    (hlin : m.settle.store.arena.Lineage scope frames) :
    ∃ found, lookupClass scope name m.settle = .ok found m.settle := by
  have hsettled := settle_of_settled h.settle.2
  unfold lookupClass
  split
  · exact ⟨_, rfl⟩
  · have hlook : look (fun arena => (arena.chain scope).map fun frames =>
        frames.flatMap fun e => e.2.classCandidates name) m.settle =
          .ok (frames.flatMap fun e => e.2.classCandidates name) m.settle.settle := by
      refine look_of_ok ?_
      rw [hsettled, Arena.chain_eq_of_lineage hlin]
      rfl
    rw [hsettled] at hlook
    exact ⟨_, bind_of_ok hlook⟩

/-- A name without a site is read as a class, or as a variable that is visible everywhere, or not at
all. -/
theorem valueOf?_nowhere [Trust] (ev : Evaluator) (h : m.Ready o r)
    (hlin : m.settle.store.arena.Lineage scope frames)
    (hnone : find? m.config.order m.classes name frames = none) :
    ∃ found m', ev.valueOf? scope name m = .ok found m' ∧ (found = none ∨
      (∃ c, lookupClass scope name m.settle = .ok (some c) m.settle ∧ found = some c.value) ∨
      ∃ u w, m.settle.store.arena.frame? m.utilities = some u ∧ u.vars.get? name = some w ∧
        found = some w.value) := by
  have hs := h.settle.1
  obtain ⟨u, hu⟩ := Arena.live_iff.1 (hs.ready.live (hs.pinned h.kept.utilities))
  obtain ⟨found, hclass⟩ := lookupClass_of_lineage name h hlin
  rw [ev.valueOf?_eq name (Arena.chain_eq_of_lineage hlin) hu, hnone]
  have helsewhere : Evaluator.elsewhere scope name (u.vars.get? name) m.settle = _ :=
    bind_of_ok hclass
  rw [Option.elim_none, helsewhere]
  cases found with
  | some c => exact ⟨_, _, rfl, .inr (.inl ⟨c, hclass, rfl⟩)⟩
  | none =>
    cases hw : u.vars.get? name with
    | none => exact ⟨_, _, rfl, .inl rfl⟩
    | some w => exact ⟨_, _, rfl, .inr (.inr ⟨u, w, hu, hw, rfl⟩)⟩

end

/-! ## Agreement -/

/-- A name that leads to a variable of a frame is written there and read there. -/
structure AgreesOnVariable (ev : Evaluator) (m : Machine) (scope id : ScopeId) (name : String)
    (f : Frame) (v : Value) : Prop where
  frame : m.settle.store.arena.frame? id = some f
  /-- The variable is bound to what was stored and keeps its declared type; nothing else is bound
  anew. -/
  stored : ∀ s m', ev.assign (.variable id name) v m.settle = .ok s m' →
    m'.store.arena.bindings = Function.update m.settle.store.arena.bindings id
      (some (f.setVariable name ⟨s, (f.vars.get? name).bind Variable.declared⟩).bindings)
  /-- The releases that are queued then leave the frames that stay as they are. -/
  lasting : ∀ s m', ev.assign (.variable id name) v m.settle = .ok s m' →
    ∀ k g, m'.settle.store.arena.bindings k = some g → m'.store.arena.bindings k = some g
  /-- The name reads what was stored. -/
  readBack : ∀ s m', ev.assign (.variable id name) v m.settle = .ok s m' →
    m'.settle.store.arena.Live scope → ev.valueOf? scope name m' = .ok (some s) (m'.settle.retain s)
  /-- What cannot be stored changes no binding. -/
  refused : ∀ e m', ev.assign (.variable id name) v m.settle = .error e m' →
    m'.store.arena.bindings = m.settle.store.arena.bindings
  /-- A variable that is there is what the name reads. -/
  existing : ∀ w, f.vars.get? name = some w →
    ev.valueOf? scope name m = .ok (some w.value) (m.settle.retain w.value) ∧
      ev.read (.variable id name) m.settle = .ok w.value (m.settle.retain w.value)
  /-- A name that is to be a new variable reads at most a class, or a variable that is visible
  everywhere. -/
  fresh : f.vars.get? name = none → ∃ found m', ev.valueOf? scope name m = .ok found m' ∧ (found = none ∨
      (∃ c, lookupClass scope name m.settle = .ok (some c) m.settle ∧ found = some c.value) ∨
      ∃ u w, m.settle.store.arena.frame? m.utilities = some u ∧ u.vars.get? name = some w ∧
        found = some w.value)

/-- A name that leads to a field of a bound object reads that field of that object. -/
structure AgreesOnField (ev : Evaluator) (m : Machine) (scope : ScopeId) (name : String)
    (bound : Nat × String) (c : HostClass) (f : HostField) : Prop where
  hostClass : m.classes.load? bound.2 = some c
  field : c.instanceField? name = some f
  value : ev.valueOf? scope name m = (do
    return some (← holding (.host bound.1 bound.2)
      (ev.perform (.readingBound name bound.2) (f.read (some (.host bound.1 bound.2))))))
      (m.settle.retain (.host bound.1 bound.2))
  reading : ev.read (.field (.host bound.1 bound.2) c name) =
    ev.perform (.reading name) (f.read (some (.host bound.1 bound.2)))

section

variable {frames : List (ScopeId × Frame)} {c : HostClass} {field : HostField}
  {bound : Nat × String}

theorem frame?_of_leadsTo (hlin : m.settle.store.arena.Lineage scope frames)
    (hleads : LeadsTo (find? m.config.order m.classes name frames) frames id) :
    ∃ f, (id, f) ∈ frames ∧ m.settle.store.arena.frame? id = some f := by
  obtain ⟨e, he, rfl⟩ := exists_of_leadsTo hleads
  exact ⟨e.2, he, (hlin.mem he).1⟩

/-- A variable that the name leads to is the first site of the name. -/
theorem find?_of_get? (hlin : m.settle.store.arena.Lineage scope frames)
    (hleads : LeadsTo (find? m.config.order m.classes name frames) frames id)
    (hmem : (id, f) ∈ frames) (hf : m.settle.store.arena.frame? id = some f) :
    find? m.config.order m.classes name frames = (f.vars.get? name).map (.frame id) := by
  rcases hleads with ⟨w, hw⟩ | ⟨hn, -⟩
  · obtain ⟨e, he, rfl, hget⟩ := exists_of_find?_frame hw
    rw [(hlin.mem he).1, Option.some.injEq] at hf
    rw [hw, ← hf, hget]
    rfl
  · rw [hn, get?_of_find?_none hn _ hmem]
    rfl

theorem agreesOnVariable [Trust] (ev : Evaluator) (h : m.Ready v.claims r)
    (hlin : m.settle.store.arena.Lineage scope frames)
    (hleads : LeadsTo (find? m.config.order m.classes name frames) frames id)
    (hmem : (id, f) ∈ frames) (hf : m.settle.store.arena.frame? id = some f) :
    AgreesOnVariable ev m scope id name f v := by
  obtain ⟨hs, hq⟩ := h.settle
  have hassign := ev.assign_of_frame name hs.ready hq hf
  have hends : Owns r Value.claims m.settle (ev.assign (.variable id name) v) :=
    Evaluator.ends_assign_variable id name hs.ready
  have hsite := find?_of_get? hlin hleads hmem hf
  -- an assignment that is carried out has bound the variable
  have hstored : ∀ s m', ev.assign (.variable id name) v m.settle = .ok s m' →
      m'.store.arena.bindings = Function.update m.settle.store.arena.bindings id
        (some (f.setVariable name ⟨s, (f.vars.get? name).bind Variable.declared⟩).bindings) := by
    intro s m' hx
    rcases hassign with ⟨s', m2, hx', hb, -⟩ | ⟨e, m2, hx', -⟩
    · rw [hx] at hx'
      cases hx'
      exact hb
    · rw [hx] at hx'
      cases hx'
  refine ⟨hf, hstored, fun s m' hx k g hg => ?_, fun s m' hx hlive => ?_, fun e m' hx => ?_,
    fun w hw => ?_, fun hnone => ?_⟩
  · exact bindings_settle hg
  · have hl := (hends.ok hx).1
    exact valueOf?_written ev hlin hleads hf hl.ready (hs.trans hl).alike (hstored s m' hx) hlive
  · rcases hassign with ⟨s', m2, hx', -⟩ | ⟨e', m2, hx', hb, -⟩
    · rw [hx] at hx'
      cases hx'
    · rw [hx] at hx'
      cases hx'
      exact hb
  · obtain ⟨u, hu⟩ := Arena.live_iff.1 (hs.ready.live (hs.pinned h.kept.utilities))
    rw [ev.valueOf?_eq name (Arena.chain_eq_of_lineage hlin) hu, hsite, hw]
    refine ⟨rfl, (bind_of_ok (Evaluator.throughFrame_of_settled hq hf)).trans ?_⟩
    simp only [hw]
    rfl
  · rw [hnone] at hsite
    exact valueOf?_nowhere ev h hlin hsite

theorem exists_of_find?_object {order : NameOrder} {cs : Classes}
    (h : find? order cs name frames = some (.object bound c field)) :
    cs.load? bound.2 = some c ∧ c.instanceField? name = some field := by
  have hbound : ∀ e : ScopeId × Frame, bound? cs name e = some (.object bound c field) →
      cs.load? bound.2 = some c ∧ c.instanceField? name = some field := by
    intro e he
    obtain ⟨b, -, hb⟩ := Option.bind_eq_some_iff.1 he
    obtain ⟨c', f', hsite, hload, hfield⟩ := member?_eq_some hb
    cases hsite
    exact ⟨hload, hfield⟩
  have hlocal : ∀ e : ScopeId × Frame, local? name e ≠ some (.object bound c field) := by
    intro e he
    obtain ⟨w, -, hw⟩ := Option.map_eq_some_iff.1 he
    cases hw
  cases order with
  | localThenBound =>
    obtain ⟨e, -, hhit⟩ := List.exists_of_findSome?_eq_some h
    rcases Option.or_eq_some_iff.1 hhit with hhit | ⟨-, hhit⟩
    · exact absurd hhit (hlocal e)
    · exact hbound e hhit
  | chainThenBound =>
    rcases Option.or_eq_some_iff.1 h with h | ⟨-, h⟩
    · obtain ⟨e, -, hhit⟩ := List.exists_of_findSome?_eq_some h
      exact absurd hhit (hlocal e)
    · obtain ⟨e, -, hhit⟩ := List.exists_of_findSome?_eq_some h
      exact hbound e hhit

theorem agreesOnField [Trust] (ev : Evaluator) {o : Multiset Claim} (h : m.Ready o r)
    (hlin : m.settle.store.arena.Lineage scope frames)
    (hsite : find? m.config.order m.classes name frames = some (.object bound c field)) :
    AgreesOnField ev m scope name bound c field := by
  obtain ⟨hload, hfield⟩ := exists_of_find?_object hsite
  have hs := h.settle.1
  obtain ⟨u, hu⟩ := Arena.live_iff.1 (hs.ready.live (hs.pinned h.kept.utilities))
  refine ⟨hload, hfield, ?_, ?_⟩
  · rw [ev.valueOf?_eq name (Arena.chain_eq_of_lineage hlin) hu, hsite]
    rfl
  · unfold Evaluator.read
    simp only [(Option.filter_eq_some_iff.1 hfield).1]

end

/-! ## Variables of the host -/

theorem scope_of_head (hstack : m.stack.head? = some scope) : Exec.scope m = .ok scope m := by
  refine (get_bind m).trans ?_
  cases hst : m.stack with
  | nil => simp [hst] at hstack
  | cons top rest =>
    have htop : top = scope := by simpa [hst] using hstack
    rw [htop]
    rfl

theorem parsePath_of_ok {e : Expr} (h : parseExpression path = .ok e) : parsePath path m = .ok e m := by
  unfold parsePath
  rw [h]
  rfl

theorem getPath_of_valueOf? (allowance : Nat) (hstack : m.stack.head? = some scope)
    (hpath : parseExpression path = .ok (.name span name))
    (hvalue : (evaluator allowance).valueOf? scope name m = .ok (some v) m1) :
    (evaluator (allowance + 1)).getPath path m =
      .ok (if v.isNull || v.isVoid then none else some v) m1 := by
  have hform : (evaluator allowance).exprForm (.name span name) m = .ok v m1 :=
    (bind_of_ok (scope_of_head hstack)).trans (bind_of_ok hvalue)
  have hexpr : (evaluator (allowance + 1)).expr (.name span name) m = .ok v m1 := by
    show evalExpr (allowance + 1) (.name span name) m = _
    rw [evalExpr]
    show mapFailure ((evaluator allowance).exprForm (.name span name)) _ m = _
    unfold mapFailure
    rw [hform]
  refine (bind_of_ok (parsePath_of_ok hpath)).trans ((bind_of_ok hexpr).trans ?_)
  split <;> rfl

theorem setPath_of_assign (ev : Evaluator) (hstack : m.stack.head? = some scope)
    (hpath : parseExpression path = .ok (.name span name))
    (href : referenceTo scope name m = .ok (.variable id name) m1)
    (hassign : ev.assign (.variable id name) v m1 = .ok s m2) :
    ev.setPath path v m = .ok () (m2.drop s) := by
  have hplace : ev.reference (.name span name) m = .ok (.variable id name) m1 := by
    rw [Evaluator.reference]
    exact (bind_of_ok (scope_of_head hstack)).trans href
  refine (bind_of_ok (unlessFailed_of_ok (parsePath_of_ok hpath))).trans ?_
  refine (bind_of_ok (unlessFailed_of_ok hplace)).trans ?_
  have hdropped : (do drop (← ev.assign (.variable id name) v) : Exec Unit) m1 =
      .ok () (m2.drop s) := bind_of_ok hassign
  unfold afterwards
  rw [hdropped]
  rfl

/-- A host that sets a name, whose variable has no declared type, gets back what it has set. -/
theorem getPath_setPath [Trust] (allowance : Nat) (h : m.Ready v.claims r)
    (hstack : m.stack.head? = some scope) (hpath : parseExpression path = .ok (.name span name))
    (href : referenceTo scope name m = .ok (.variable id name) m.settle)
    (hf : m.settle.store.arena.frame? id = some f)
    (hd : (f.vars.get? name).bind Variable.declared = none) :
    ∃ m2 m3, (evaluator (allowance + 1)).setPath path v m = .ok () m2 ∧
      (evaluator (allowance + 1)).getPath path m2 =
        .ok (if v.isNull || v.isVoid then none else some v) m3 := by
  obtain ⟨hs, hq⟩ := h.settle
  have hpinned := hs.pinned (h.kept.frames scope (List.mem_of_mem_head? hstack))
  obtain ⟨frames, hlin⟩ := hs.ready.lineage hpinned
  have hleads : LeadsTo (find? m.config.order m.classes name frames) frames id := by
    rcases referenceTo_of_lineage name h hlin with ⟨id', hr, hleads⟩ | ⟨_, _, _, hr, -⟩
    · rw [href] at hr
      cases hr
      exact hleads
    · rw [href] at hr
      cases hr
  rcases (evaluator (allowance + 1)).assign_of_frame name hs.ready hq hf with
    ⟨s, m2, hassign, hb, hsame⟩ | ⟨e, m2, -, -, hdeclared⟩
  · have hsv := hsame hd
    subst hsv
    -- the host keeps nothing of what it has set, and the frame of the stack is kept
    have hl := ((Evaluator.ends_assign_variable id name hs.ready).ok hassign).1
    have hready := hl.ready
    rw [← add_zero s.claims] at hready
    have hl' := (hs.trans hl).trans hready.drop
    have hstack' : (m2.drop s).stack.head? = some scope := by
      rw [hl'.alike.stack]
      exact hstack
    have hsettled := hl'.ready.settle.1
    have hlive := hsettled.ready.live (hsettled.pinned (hl'.pinned
      (h.kept.frames scope (List.mem_of_mem_head? hstack))))
    have hvalue := valueOf?_written (evaluator allowance) hlin hleads hf hl'.ready hl'.alike
      ((bindings_drop m2 s).trans hb) hlive
    exact ⟨_, _, setPath_of_assign _ hstack hpath href hassign,
      getPath_of_valueOf? allowance hstack' hpath hvalue⟩
  · exact absurd hd hdeclared

/-- **Reading and writing a name agree.** In every state and from every live frame, in either order, a
name leads to a variable or to a field of a bound object. A variable that is assigned to is bound to what
was stored, in its declared type, and no other binding of a frame changes; the name then reads what was
stored. If the value is refused, no binding changes. A variable that is there, and likewise the field of a
bound object, is what the name reads; before a new variable is defined the name reads at most a class or a
variable that is visible everywhere. A host gets back what it has set without a declared type. -/
theorem reading_agrees_with_writing (ev : Evaluator) (h : m.Standing v.claims r)
    (hlive : m.settle.store.arena.Live scope) (name : String) :
    ((∃ id f, referenceTo scope name m = .ok (.variable id name) m.settle ∧
        AgreesOnVariable ev m scope id name f v) ∨
      ∃ bound c field, referenceTo scope name m = .ok (.field (.host bound.1 bound.2) c name)
          (m.settle.retain (.host bound.1 bound.2)) ∧
        AgreesOnField ev m scope name bound c field) ∧
    ∀ allowance path span id f, m.stack.head? = some scope →
      parseExpression path = .ok (.name span name) →
      referenceTo scope name m = .ok (.variable id name) m.settle →
      m.settle.store.arena.frame? id = some f → (f.vars.get? name).bind Variable.declared = none →
      ∃ m₂ m₃, (evaluator (allowance + 1)).setPath path v m = .ok () m₂ ∧
        (evaluator (allowance + 1)).getPath path m₂ =
          .ok (if v.isNull || v.isVoid then none else some v) m₃ := by
  -- no host code runs, so that nothing is asked of the classes
  let _ : Trust := trustAny
  replace h := h.ready
  obtain ⟨frames, hlin⟩ := h.settle.1.ready.sound.frames.rooted scope hlive
  refine ⟨?_, fun allowance path span id f hstack hpath href hf hd =>
    getPath_setPath allowance h hstack hpath href hf hd⟩
  rcases referenceTo_of_lineage name h hlin with ⟨id, href, hleads⟩ | ⟨bound, c, field, href, hsite⟩
  · obtain ⟨f, hmem, hf⟩ := frame?_of_leadsTo hlin hleads
    exact .inl ⟨id, f, href, agreesOnVariable ev h hlin hleads hmem hf⟩
  · exact .inr ⟨bound, c, field, href, agreesOnField ev h hlin hsite⟩

/-- A number is assigned to a new name in the global namespace, which leads to a variable of it. -/
theorem new_name_agrees :
    makerSession.machine.Standing 0 (makerSession.spaces + makerSession.held) ∧
    makerSession.machine.settle.store.arena.Live makerSession.machine.global ∧
    ∃ id f, referenceTo makerSession.machine.global "x" makerSession.machine =
        .ok (.variable id "x") makerSession.machine.settle ∧
      AgreesOnVariable (evaluator 9) makerSession.machine makerSession.machine.global id "x" f (.int 7) := by
  have hreach : makerSession.Reachable :=
    .step (.start _ _ _ _ (Lang.honest_classes _)) (.call 9 (admits_unit _ _))
  have hready := (Session.good_of_reachable hreach).ready (Multiset.zero_le _)
  rw [tsub_zero] at hready
  have hsettled := hready.settle.1
  have hlive := hsettled.ready.live (hsettled.pinned hready.kept.global)
  refine ⟨hready.standing, hlive, ?_⟩
  have hagrees := (reading_agrees_with_writing (v := .int 7) (evaluator 9) hready.standing hlive "x").1
  refine hagrees.resolve_right ?_
  rintro ⟨bound, c, field, href, -⟩
  -- a field would be owned
  have howned : ((referenceTo makerSession.machine.global "x").run' makerSession.machine).bind
      Reference.owned? = none := by decide +kernel
  rw [EStateM.run', EStateM.run, href] at howned
  cases howned

end HostScript
