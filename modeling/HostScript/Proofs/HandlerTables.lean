import HostScript.Proofs.Pinned

/-!
# Handler tables tell the truth

A call on an adapter goes to the first scripted method of its name and arity along the chain of the
adapter's frame, else to the first generic `invoke`, else to an identity call (`Answers`). The handler table
of an adapter is used until some method is declared or removed. Until then it says what a look at the frames
would say, since an adapter owns its frame and so the frames from there outwards. A store in which this
holds of every adapter is truthful (`Truthful`), and every change keeps it so (`Continues.truthful`).
-/

set_option autoImplicit false

namespace HostScript

variable {a : Arena} {scope : ScopeId} {l : List (ScopeId × Frame)}

namespace Arena

variable {b : Arena} {id : ScopeId}

/-- The frames from one that lives on outwards have the methods that they had. -/
theorem Lineage.same (h : a.Lineage id l) (hsame : ∀ id f g, a.frame? id = some f → b.frame? id = some g →
      g.parent = f.parent ∧ g.methods = f.methods)
    (hlive : ∀ id p, b.ParentOf id p → b.Live p) : b.Live id →
      ∃ l', b.Lineage id l' ∧ l'.map (fun e => e.2.methods) = l.map fun e => e.2.methods := by
  induction h with
  | @root id f hf hp =>
    intro hl
    obtain ⟨g, hg⟩ := live_iff.1 hl
    obtain ⟨hparent, hmethods⟩ := hsame id f g hf hg
    exact ⟨_, .root hg (hparent.trans hp), by simp [hmethods]⟩
  | @child id p f l hf hp _ ih =>
    intro hl
    obtain ⟨g, hg⟩ := live_iff.1 hl
    obtain ⟨hparent, hmethods⟩ := hsame id f g hf hg
    obtain ⟨l', hl', hmap⟩ := ih (hlive id p ⟨g, hg, hparent.trans hp⟩)
    exact ⟨_, .child hg (hparent.trans hp) hl', by simp [hmethods, hmap]⟩

theorem overloads_of_lineage (h : a.Lineage id l) (name : String) :
    a.overloads id name = .ok ((l.map fun e => e.2.methods).filterMap fun t => t.get? name) := by
  unfold overloads
  rw [chain_eq_of_lineage h, List.filterMap_map]
  rfl

end Arena

/-! ## Where calls go -/

/-- The methods of a name in a frame. -/
def Frame.overloads (f : Frame) (name : String) : List ScriptMethod := (f.methods.get? name).getD []

/-- No frame has a method of that name and arity. -/
def NoMethod (frames : List (ScopeId × Frame)) (name : String) (arity : Nat) : Prop :=
  ∀ e ∈ frames, ∀ m ∈ e.2.overloads name, m.arity ≠ arity

/-- The first method of that name and arity, innermost frame first and then as the frame lists them. -/
def FirstMethod (frames : List (ScopeId × Frame)) (name : String) (arity : Nat)
    (method : ScriptMethod) : Prop :=
  method.arity = arity ∧ ∃ inner e outer before later, frames = inner ++ e :: outer ∧
    NoMethod inner name arity ∧ e.2.overloads name = before ++ method :: later ∧
      ∀ m ∈ before, m.arity ≠ arity

/-- Where a call of that name and arity goes, given the frames from the adapter's outwards. -/
inductive Answers (frames : List (ScopeId × Frame)) (name : String) (arity : Nat) : Handler → Prop
  | named {method : ScriptMethod} : FirstMethod frames name arity method →
      Answers frames name arity (.named method)
  | generic {method : ScriptMethod} : NoMethod frames name arity → FirstMethod frames "invoke" 2 method →
      Answers frames name arity (.generic method)
  | identity {call : Identity} : NoMethod frames name arity → NoMethod frames "invoke" 2 →
      (name, arity, call) ∈ [("toString", 0, Identity.toText), ("hashCode", 0, .hashCode),
        ("equals", 1, .equals)] → Answers frames name arity (.identity call)
  | missing : NoMethod frames name arity → NoMethod frames "invoke" 2 →
      (name, arity) ∉ [("toString", 0), ("hashCode", 0), ("equals", 1)] →
      Answers frames name arity .missing

/-- All methods of a name along a chain. -/
def overloadsAlong (frames : List (ScopeId × Frame)) (name : String) : List ScriptMethod :=
  frames.flatMap fun e => e.2.overloads name

section Chains

variable {frames : List (ScopeId × Frame)} {name : String} {arity : Nat} {method : ScriptMethod}

theorem noMethod_iff : (overloadsAlong frames name).find? (fun m => m.arity == arity) = none ↔
    NoMethod frames name arity := by
  simp only [overloadsAlong, NoMethod, List.find?_eq_none, List.mem_flatMap, beq_iff_eq]
  constructor
  · exact fun h e he m hm => h m ⟨e, he, hm⟩
  · rintro h m ⟨e, he, hm⟩
    exact h e he m hm

theorem firstMethod_iff : (overloadsAlong frames name).find? (fun m => m.arity == arity) = some method ↔
    FirstMethod frames name arity method := by
  constructor
  · induction frames with
    | nil =>
      intro h
      cases h
    | cons e frames ih =>
      intro h
      rw [overloadsAlong, List.flatMap_cons, List.find?_append] at h
      cases hin : (e.2.overloads name).find? fun m => m.arity == arity with
      | some m =>
        rw [hin, Option.some_or, Option.some.injEq] at h
        subst h
        obtain ⟨harity, before, later, hsplit, hbefore⟩ := List.find?_eq_some_iff_append.1 hin
        refine ⟨by simpa using harity, [], e, frames, before, later, rfl, ?_, hsplit, ?_⟩
        · exact fun e he => absurd he List.not_mem_nil
        · exact fun m hm => by simpa using hbefore m hm
      | none =>
        rw [hin, Option.none_or] at h
        obtain ⟨harity, inner, e', outer, before, later, rfl, hinner, hsplit, hbefore⟩ := ih h
        refine ⟨harity, e :: inner, e', outer, before, later, rfl, ?_, hsplit, hbefore⟩
        intro e'' he''
        rcases List.mem_cons.1 he'' with rfl | he''
        · simpa using hin
        · exact hinner e'' he''
  · rintro ⟨harity, inner, e, outer, before, later, rfl, hinner, hsplit, hbefore⟩
    have hskip := noMethod_iff.2 hinner
    rw [overloadsAlong] at hskip
    rw [overloadsAlong, List.flatMap_append, List.flatMap_cons, hsplit, List.find?_append, hskip,
      Option.none_or, List.append_assoc, List.find?_append]
    have hnone : before.find? (fun m => m.arity == arity) = none := by
      simpa using hbefore
    simp [hnone, harity]

theorem FirstMethod.mem (h : FirstMethod frames name arity method) :
    ∃ e ∈ frames, method ∈ e.2.overloads name := by
  obtain ⟨-, inner, e, outer, before, later, rfl, -, hsplit, -⟩ := h
  refine ⟨e, List.mem_append_right _ List.mem_cons_self, ?_⟩
  rw [hsplit]
  exact List.mem_append_right _ List.mem_cons_self

/-- The method that a call goes to is in one of the frames. -/
theorem Answers.mem {handler : Handler} (h : Answers frames name arity handler)
    (hm : handler.method? = some method) : ∃ e ∈ frames, ∃ name, method ∈ e.2.overloads name := by
  cases h with
  | named hfirst | generic _ hfirst =>
    cases hm
    obtain ⟨e, he, hmem⟩ := hfirst.mem
    exact ⟨e, he, _, hmem⟩
  | identity | missing => cases hm

end Chains

theorem Identity.of?_cases (name : String) (arity : Nat) :
    (∃ call, Identity.of? name arity = some call ∧ (name, arity, call) ∈
      [("toString", 0, Identity.toText), ("hashCode", 0, .hashCode), ("equals", 1, .equals)]) ∨
    (Identity.of? name arity = none ∧
      (name, arity) ∉ [("toString", 0), ("hashCode", 0), ("equals", 1)]) := by
  unfold Identity.of?
  split
  · exact .inl ⟨_, rfl, by simp⟩
  · exact .inl ⟨_, rfl, by simp⟩
  · exact .inl ⟨_, rfl, by simp⟩
  · rename_i h1 h2 h3
    refine .inr ⟨rfl, fun hmem => ?_⟩
    simp only [List.mem_cons, Prod.mk.injEq, List.not_mem_nil, or_false] at hmem
    rcases hmem with ⟨rfl, rfl⟩ | ⟨rfl, rfl⟩ | ⟨rfl, rfl⟩
    · exact h1 rfl rfl
    · exact h2 rfl rfl
    · exact h3 rfl rfl

theorem Arena.methodByArity?_of_lineage {id : ScopeId} (h : a.Lineage id l) (name : String)
    (arity : Nat) : a.methodByArity? id name arity =
      .ok ((overloadsAlong l name).find? fun m => m.arity == arity) := by
  have hflat : ∀ l : List (ScopeId × Frame), ((l.map fun e => e.2.methods).filterMap
      fun t => t.get? name).flatten = overloadsAlong l name := by
    intro l
    induction l with
    | nil => rfl
    | cons e l ih =>
      rw [List.map_cons, List.filterMap_cons, overloadsAlong, List.flatMap_cons, Frame.overloads]
      cases e.2.methods.get? name with
      | none => exact ih
      | some level => exact congrArg (level ++ ·) ih
  unfold methodByArity?
  rw [overloads_of_lineage h name, ← hflat]
  rfl

/-- **A look at the frames finds where a call goes.** -/
theorem Adapter.resolve_of_lineage (h : a.Lineage scope l) (name : String) (arity : Nat) :
    ∃ handler, Adapter.resolve scope name arity a = .ok handler ∧ Answers l name arity handler := by
  unfold Adapter.resolve
  simp only [Arena.methodByArity?_of_lineage h]
  cases hnamed : (overloadsAlong l name).find? fun m => m.arity == arity with
  | some method => exact ⟨_, rfl, .named (firstMethod_iff.1 hnamed)⟩
  | none =>
    have hno := noMethod_iff.1 hnamed
    cases hgeneric : (overloadsAlong l "invoke").find? fun m => m.arity == 2 with
    | some method => exact ⟨_, rfl, .generic hno (firstMethod_iff.1 hgeneric)⟩
    | none =>
      have hinvoke := noMethod_iff.1 hgeneric
      rcases Identity.of?_cases name arity with ⟨call, hcall, hmem⟩ | ⟨hnone, hmem⟩
      · exact ⟨.identity call, by rw [hcall]; rfl, .identity hno hinvoke hmem⟩
      · exact ⟨.missing, by rw [hnone]; rfl, .missing hno hinvoke hmem⟩

/-! ## Tables -/

/-- Where a call goes depends on the overloads along the chain only. -/
theorem Adapter.resolve_congr {b : Arena}
    (h : ∀ name, b.overloads scope name = a.overloads scope name) (name : String) (arity : Nat) :
    Adapter.resolve scope name arity b = Adapter.resolve scope name arity a := by
  unfold Adapter.resolve Arena.methodByArity?
  simp only [h]

namespace Store

variable {s s' : Store} {o o' : Multiset Claim}

/-- The tables of all adapters are accurate. -/
def Truthful (s : Store) : Prop := ∀ n a, s.Wraps n a → a.table.Accurate a.scope s.arena

theorem Sound.live_of_wraps (h : s.Sound o) {n : Nat} {a : Adapter} (ha : s.Wraps n a) :
    s.arena.Live a.scope := by
  obtain ⟨c, hc, hca⟩ := ha
  exact h.live_of_adapterAt ⟨c, a, hc, hca, rfl⟩

/-- As long as no method changes, the calls on a frame that lives on go where they went. -/
theorem Continues.resolve_eq (hc : s.Continues s') (h : s.Sound o) (h' : s'.Sound o')
    (hchanges : s'.arena.methodChanges = s.arena.methodChanges) (hl : s.arena.Live scope)
    (hl' : s'.arena.Live scope) (name : String) (arity : Nat) :
    Adapter.resolve scope name arity s'.arena = Adapter.resolve scope name arity s.arena := by
  obtain ⟨l, hline⟩ := h.frames.rooted scope hl
  obtain ⟨l', hline', hmap⟩ := hline.same (hc.methods.same hchanges)
    (fun _ _ => h'.frames.parent_live) hl'
  refine Adapter.resolve_congr (fun name => ?_) name arity
  rw [Arena.overloads_of_lineage hline, Arena.overloads_of_lineage hline', hmap]

/-- As long as no method changes, a table of a frame that lives on is as accurate as it was. -/
theorem Continues.accurate_iff (hc : s.Continues s') (h : s.Sound o) (h' : s'.Sound o')
    (hchanges : s'.arena.methodChanges = s.arena.methodChanges) (hl : s.arena.Live scope)
    (hl' : s'.arena.Live scope) (t : HandlerTable) :
    t.Accurate scope s'.arena ↔ t.Accurate scope s.arena := by
  have hresolve := hc.resolve_eq h h' hchanges hl hl'
  constructor
  · rintro ⟨made, tells⟩
    rw [hchanges] at made tells
    exact ⟨made, fun hnow e he => (hresolve _ _).symm.trans (tells hnow e he)⟩
  · rintro ⟨made, tells⟩
    rw [← hchanges] at made tells
    exact ⟨made, fun hnow e he => (hresolve _ _).trans (tells hnow e he)⟩

/-- What goes on from a truthful store is truthful. -/
theorem Continues.truthful (hc : s.Continues s') (h : s.Sound o) (h' : s'.Sound o')
    (ht : s.Truthful) : s'.Truthful := by
  intro n a ha
  rcases hc.tables n a ha with hold | hnew
  · have haccurate := ht n a hold
    by_cases hchanges : s'.arena.methodChanges = s.arena.methodChanges
    · exact (hc.accurate_iff h h' hchanges (h.live_of_wraps hold) (h'.live_of_wraps ha) _).2 haccurate
    · -- the table is out of date and will be made anew
      have hlater := lt_of_le_of_ne hc.methods.changes (Ne.symm hchanges)
      have hstale := lt_of_le_of_lt haccurate.made hlater
      exact ⟨hstale.le, fun hnow => absurd hnow hstale.ne⟩
  · exact hnew

end Store

end HostScript
