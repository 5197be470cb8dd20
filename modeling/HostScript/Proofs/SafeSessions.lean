import HostScript.Proofs.HostCalls
import HostScript.Proofs.SafeEvaluation

/-!
# Sessions

What a host does with an interpreter, one thing after the other. The host owns the values that it has in hand,
and the namespaces that it made are never released; so in every session the store is sound for what the host
owns (`Session.good_of_reachable`), and the calls are safe (`HostCall.ends_exec`).
-/

set_option autoImplicit false

namespace HostScript

open Machine

namespace Evaluator

open Exec

variable [Holding] {ev : Evaluator} (hev : ev.Safe) {m : Machine} {r : Multiset Claim} {scope : ScopeId}

include hev

/-- The frame that a text is evaluated in is pinned, so it may be put on the stack. -/
theorem ends_evalLabelled (text : String) (label : Option String) (h : m.Ready 0 r)
    (hs : m.store.Pinned r scope) :
    Owns r Value.claims m (ev.evalLabelled text scope label) := by
  -- the claim that keeps the namespace is not the stack's but the host's
  have hframes : ∀ id ∈ scope :: m.stack, m.store.Pinned r id := by
    intro id hid
    rcases List.mem_cons.1 hid with rfl | hid
    · exact hs
    · exact h.kept.frames id hid
  have hready : ∀ S, S = (if m.stack.head? != some scope then scope :: m.stack else m.stack) →
      (m.onto S).Ready 0 r := by
    rintro S rfl
    split
    · exact h.onStack (List.cons_ne_nil _ _) hframes
    · exact h
  have hends := (ends_runText hev text label (hready _ rfl)).ended
  constructor
  rw [evalLabelled_eq rfl (balanced_runText hev.balanced text label _).keepsStack]
  revert hends
  cases ev.runText text label (m.onto _) with
  | ok v m' => exact fun hends => ⟨.offStack h.kept hends.1, trivial⟩
  | error f m' => exact fun hends => ⟨.offStack h.kept hends.1, hends.2⟩

omit hev in
theorem ends_parsePath (path : String) (h : m.Ready 0 r) : Owns r (fun _ => 0) m (parsePath path) := by
  unfold parsePath
  split
  · exact .pure h trivial
  · exact .throw h trivial

theorem ends_setPath (path : String) {value : Value} (h : m.Ready value.claims r) :
    Owns r (fun _ => 0) m (ev.setPath path value) := by
  rw [← zero_add value.claims] at h
  refine (Ends.unlessFailed h fun hlent => ends_parsePath path hlent).bind fun e m1 h1 _ => ?_
  refine (Ends.unlessFailed h1.ready fun hlent => ends_reference hev e hlent).bind
    fun ref m2 h2 href => ?_
  -- the value and the object that the place is in are both owned now
  have hready2 := h2.ready
  rw [add_comm] at hready2
  refine Ends.usingReference hready2 fun hlent => ?_
  exact (ends_assign hev (h2.alike.classes ▸ href) hlent fun k hk => Multiset.mem_add.2 (.inl hk)).bind
    fun v m3 h3 _ => ends_dropLast h3.ready

theorem ends_getPath (path : String) (h : m.Ready 0 r) :
    Owns r (fun found => found.elim 0 Value.claims) m (ev.getPath path) := by
  refine (ends_parsePath path h).bind fun e m1 h1 _ => ?_
  refine (hev.expr e h1.ready).bind fun v m2 h2 _ => ?_
  have hready2 := h2.ready
  split
  · rename_i hv
    rw [Bool.or_eq_true] at hv
    rw [claims_of_nothing hv.symm] at hready2
    exact .pure hready2 trivial
  · exact .pure hready2 trivial

theorem ends_unsetPath (path : String) (h : m.Ready 0 r) : Owns r (fun _ => 0) m (ev.unsetPath path) := by
  refine (ends_parsePath path h).bind fun e m1 h1 _ => ?_
  exact (ends_reference hev e h1.ready).bind fun ref m2 h2 _ => ends_unsetReference _ h2.ready

omit hev in
theorem ends_present (v : Value) (shown : Bool) (h : m.Ready v.claims r) :
    Owns r (fun _ => 0) m (present v shown) := by
  refine Ends.holding h fun hlent => ?_
  split
  · exact (ends_textOf hlent v none).bind fun line m1 h1 _ =>
      (ends_modify (.ofConsole h1.ready _)).imp fun _ _ _ _ => trivial
  · exact .pure hlent trivial

/-- The value of a unit is shown and dropped. -/
theorem ends_runTopUnit (unit : Stmt) (h : m.Ready 0 r) (hm : m.stack = [m.global]) :
    Owns r (fun _ => 0) m (ev.runTopUnit unit) := by
  refine Ends.bind (?_ : Owns r Flow.claims m _) fun flow m1 h1 _ => ?_
  · constructor
    rw [afterwards_resync (hev.balanced.stmt unit) hm]
    exact (hev.stmt unit h).ended
  · have hready1 := h1.ready
    unfold Flow.claims at hready1
    cases hv : flow.value? with
    | none =>
      rw [hv] at hready1
      exact .throw hready1 ((Failure.permitted_ofFault .strayJump).locate _ _)
    | some v =>
      rw [hv, Option.toList_some, claimsOf_cons, claimsOf_nil, add_zero] at hready1
      exact Ends.get (ends_present v _ hready1)

end Evaluator

namespace HostCall

open Exec

variable {m : Machine} {r : Multiset Claim}

/-- What a call takes over from the host. -/
def given : HostCall → Multiset Claim
  | .write _ value => value.claims
  | _ => 0

/-- The namespace that a call is told to work in. -/
def scope? : HostCall → Option ScopeId
  | .evalIn scope _ | .source scope _ => some scope
  | _ => none

/-- **Each call is safe**, when the namespace that it works in is kept. -/
theorem ends_exec (allowance : Nat) (call : HostCall) (h : m.Ready call.given r)
    (hm : m.stack = [m.global]) (hscope : ∀ id, call.scope? = some id → m.store.Pinned r id) :
    Owns r (fun answer => answer.elim 0 Value.claims) m (call.exec allowance) := by
  have hev := safe_evaluator allowance
  cases call with
  | eval text =>
    exact Ends.get ((Evaluator.ends_evalLabelled hev _ none h h.kept.global).bind
      fun v m1 h1 _ => .pure h1.ready trivial)
  | evalIn scope text =>
    exact (Evaluator.ends_evalLabelled hev _ none h (hscope scope rfl)).bind
      fun v m1 h1 _ => .pure h1.ready trivial
  | source scope path =>
    exact (Evaluator.ends_runFile hev path h (hscope scope rfl)).bind
      fun v m1 h1 _ => .pure h1.ready trivial
  | write path value =>
    exact (Evaluator.ends_setPath hev path h).bind fun _ m1 h1 _ => .pure h1.ready trivial
  | read path => exact Evaluator.ends_getPath hev path h
  | remove path =>
    exact (Evaluator.ends_unsetPath hev path h).bind fun _ m1 h1 _ => .pure h1.ready trivial
  | unit s =>
    exact (Evaluator.ends_runTopUnit hev s h hm).bind fun _ m1 h1 _ => .pure h1.ready trivial

end HostCall

/-! ## The start of a session -/

namespace Store

/-- A fresh variable takes the claim of its value over from outside. -/
theorem Sound.seed {s : Store} {o o' : Multiset Claim} {f : Frame} (h : s.Sound o)
    (id : ScopeId) (name : String) (v : Value) (imports : Frame → List String)
    (hf : s.arena.frame? id = some f) (hnew : f.vars.get? name = none) (ho : o = v.claims + o') :
    ({ s with arena := s.arena.adjust id fun f =>
      { f.setVariable name ⟨v, none⟩ with packageImports := imports f } } : Store).Sound o' := by
  have hadjust : s.arena.adjust id (fun f =>
      { f.setVariable name ⟨v, none⟩ with packageImports := imports f }) =
      s.arena.setFrame id { f.setVariable name ⟨v, none⟩ with packageImports := imports f } := by
    unfold Arena.adjust
    rw [hf]
  have ht := (h.tidy id f hf).setVariable name ⟨v, none⟩
  have hclaims := Frame.claims_setVariable f name ⟨v, none⟩
  rw [hnew] at hclaims
  rw [hadjust]
  have htidy : Frame.Tidy { f.setVariable name ⟨v, none⟩ with packageImports := imports f } id :=
    ⟨ht.nodup, ht.declaring⟩
  refine h.write hf (by rfl) (by rfl) htidy ?_
  show ((f.setVariable name ⟨v, none⟩).claims : Multiset Claim) + o' = _
  rw [ho, ← add_assoc, ← hclaims]
  simp

theorem sound_empty : ({} : Store).Sound 0 := by
  refine ⟨?_, fun n => ?_, fun n c hc => ?_, fun id f hf => ?_, fun n c a hc => ?_⟩
  · refine Arena.counted_empty.congr fun k => ?_
    rfl
  · rfl
  · simp [Store.cell?] at hc
  · simp [Arena.frame?] at hf
  · simp [Store.cell?] at hc

end Store

/-- The claims of the creators of the first frames. -/
def Machine.roots : Multiset Claim := {.frame ⟨2, 0⟩, .frame ⟨1, 0⟩, .frame ⟨0, 0⟩}

theorem sound_initial (config : Config) (directory : String) :
    ({ arena := (Arena.initial config directory).2.2 } : Store).Sound Machine.roots := by
  have hglobal := Store.sound_empty.create "global" .root fun p (hp : none = some p) => nomatch hp
  have hutilities := hglobal.create "utilities" .root fun p (hp : none = some p) => nomatch hp
  have hsystem := hutilities.create "system" .root fun p (hp : none = some p) => nomatch hp
  -- the creator of `system` and the variable of that name own it
  have hretained := @Store.Sound.retainFrame _ _ ⟨2, 0⟩ hsystem (Arena.live_iff.2 ⟨_, rfl⟩)
  have hversion := hretained.seed ⟨2, 0⟩ "version" (.text languageVersion) (·.packageImports) rfl rfl
    (zero_add _).symm
  have hfound := hversion.seed ⟨1, 0⟩ "system" (.object ⟨2, 0⟩ "system") (·.packageImports) rfl rfl rfl
  exact hfound.seed ⟨0, 0⟩ workingDirectoryName (.text directory) (fun _ => config.imports) rfl rfl rfl

/-! ## Sessions -/

/-- An interpreter and what its host owns. -/
structure Session where
  machine : Machine
  /-- The claims on the namespaces and values that are never given up. -/
  spaces : Multiset Claim
  /-- The claims of the values in the hands of the host. -/
  held : Multiset Claim

namespace Session

variable {s s' : Session} {call : HostCall}

/-- A session in which nothing has happened yet. -/
def start (config : Config) (files : Files) (directory : String) (input : List String)
    (classes : Classes) : Session :=
  ⟨{ Machine.initial config files directory input with classes }, Machine.roots, 0⟩

/-- What the host keeps while a call runs. -/
def keeps (s : Session) (call : HostCall) : Multiset Claim := s.spaces + (s.held - call.given)

/-- The host owns what it hands over, and it keeps the namespace that it names. -/
structure Admits (s : Session) (call : HostCall) : Prop where
  given : call.given ≤ s.held
  scope : ∀ id, call.scope? = some id → s.machine.store.Pinned (s.keeps call) id

/-- The session after a call; the host owns the answer. -/
def after (allowance : Nat) (call : HostCall) (s : Session) : Session :=
  match call.exec allowance s.machine with
  | .ok answer m =>
    { s with machine := m, held := answer.elim 0 Value.claims + (s.held - call.given) }
  | .error _ m => { s with machine := m, held := s.held - call.given }

/-- What may come next in a session. -/
inductive Step (s : Session) : Session → Prop
  | call (allowance : Nat) {call : HostCall} : s.Admits call → Step s (s.after allowance call)
  | child {scope id : ScopeId} (name : String) {m : Machine} :
      s.machine.store.Pinned (s.spaces + s.held) scope →
      Exec.child scope name s.machine = .ok id m →
      Step s { s with machine := m, spaces := {.frame id} + s.spaces }
  | make {contents : Contents} {n : Nat} {m : Machine} :
      (contents.claims : Multiset Claim) ≤ s.held → (∀ a, contents ≠ .adapter a) →
      Exec.alloc contents s.machine = .ok n m →
      Step s { s with machine := m, held := {.cell n} + (s.held - contents.claims) }
  | copy {v : Value} : v.claims ≤ s.held →
      Step s { s with machine := s.machine.retain v, held := v.claims + s.held }
  | drop {v : Value} : v.claims ≤ s.held →
      Step s { s with machine := s.machine.drop v, held := s.held - v.claims }
  /-- The host puts something away for as long as the session lasts, for its classes to use. -/
  | entrust {kept : Multiset Claim} : kept ≤ s.held →
      Step s { s with spaces := kept + s.spaces, held := s.held - kept }
  /-- Other classes, as with a new loader. -/
  | load {classes : Classes} : classes.Honest s.spaces →
      Step s { s with machine := { s.machine with classes } }

/-- A session that a host can get to with honest classes. -/
inductive Reachable : Session → Prop
  | start (config : Config) (files : Files) (directory : String) (input : List String)
      {classes : Classes} : classes.Honest Machine.roots → Reachable (start config files directory input classes)
  | step {s s' : Session} : Reachable s → s.Step s' → Reachable s'

/-- What holds between the steps of a session. -/
structure Good (s : Session) : Prop where
  sound : s.machine.store.Sound (s.spaces + s.held)
  kept : s.machine.Kept s.spaces
  onGlobal : s.machine.stack = [s.machine.global]

/-- What is good stays so, and so does what the tables of adapters say. -/
structure Upholds (s s' : Session) : Prop where
  good : s'.Good
  truthful : s.machine.store.Truthful → s'.machine.store.Truthful

/-- The host may hand over what it holds. -/
theorem Good.ready (h : s.Good) {given : Multiset Claim} (hg : given ≤ s.held) :
    s.machine.Ready given (s.spaces + (s.held - given)) := by
  refine ⟨?_, h.kept.mono (Multiset.subset_of_le (Multiset.le_add_right _ _))⟩
  rw [add_left_comm, add_comm given, Multiset.sub_add_cancel hg]
  exact h.sound

/-- What a computation leaves behind is good again; the host owns the result. -/
theorem Good.leaves (h : s.Good) {o rest : Multiset Claim} {m : Machine}
    (hl : s.machine.Leaves (s.spaces + rest) o m) :
    s.Upholds { s with machine := m, held := o + rest } := by
  have hsub : s.spaces ⊆ s.spaces + rest := Multiset.subset_of_le (Multiset.le_add_right _ _)
  refine ⟨⟨?_, h.kept.of_steady hl.alike (hl.steady.mono hsub), ?_⟩, hl.truthful⟩
  · rw [add_left_comm]
    exact hl.ready.sound
  · rw [hl.alike.stack, hl.alike.global]
    exact h.onGlobal

theorem Good.ends (h : s.Good) (allowance : Nat) (hcall : s.Admits call) :
    Exec.Owns (s.keeps call) (fun answer => answer.elim 0 Value.claims) s.machine (call.exec allowance) :=
  call.ends_exec allowance (h.ready hcall.given) h.onGlobal hcall.scope

theorem Good.after (h : s.Good) (allowance : Nat) (hcall : s.Admits call) :
    s.Upholds (s.after allowance call) := by
  have hends := h.ends allowance hcall
  unfold Session.after
  cases hr : call.exec allowance s.machine with
  | ok answer m => exact h.leaves (hends.ok hr).1
  | error f m =>
    have hgood := h.leaves (hends.error hr).1
    rwa [zero_add] at hgood

theorem Good.step (h : s.Good) (hstep : s.Step s') : s.Upholds s' := by
  have hready := h.ready (Multiset.zero_le _)
  rw [tsub_zero] at hready
  cases hstep with
  | call allowance hcall => exact h.after allowance hcall
  | @child scope id name m hscope hr =>
    have hends : Exec.Owns (s.spaces + s.held) (fun id => {.frame id} + 0) s.machine (Exec.child scope name) :=
      (Exec.ends_frame hready hscope).bind fun _ m1 h1 _ =>
        Exec.ends_makeFrame trivial h1.ready fun p hp => Option.some.inj hp ▸ h1.pinned hscope
    obtain ⟨hgood, htruthful⟩ := h.leaves (hends.ok hr).1
    -- the new namespace is one more that is never released
    refine ⟨⟨?_, hgood.kept.lend, hgood.onGlobal⟩, htruthful⟩
    have hsound := hgood.sound
    rwa [add_zero, ← add_assoc, add_comm s.spaces] at hsound
  | @make contents n m hclaims hno hr =>
    have hmade := h.ready hclaims
    rw [← add_zero (contents.claims : Multiset Claim)] at hmade
    have hgood := h.leaves ((Exec.ends_alloc hmade fun a ha => absurd ha (hno a)).ok hr).1
    rwa [add_zero, add_zero] at hgood
  | @copy v hv =>
    have hholds : ∀ k ∈ v.claims, s.machine.store.Holds k :=
      fun k hk => hready.holds (Multiset.mem_add.2 (.inr (Multiset.mem_of_le hv hk)))
    have hgood := h.leaves (hready.retain hholds)
    rwa [add_zero] at hgood
  | @drop v hv =>
    have hdrop : s.machine.Ready (v.claims + 0) (s.spaces + (s.held - v.claims)) := by
      rw [add_zero]
      exact h.ready hv
    have hgood := h.leaves hdrop.drop
    rwa [zero_add] at hgood
  | @entrust kept hkept =>
    refine ⟨⟨?_, h.kept.lend, h.onGlobal⟩, id⟩
    rw [add_comm kept, add_assoc, ← add_tsub_assoc_of_le hkept, add_tsub_cancel_left]
    exact h.sound
  | load hc =>
    exact ⟨⟨h.sound, ⟨⟨h.kept.stack, h.kept.frames, h.kept.global, h.kept.utilities⟩, hc⟩, h.onGlobal⟩, id⟩

theorem good_start (config : Config) (files : Files) (directory : String) (input : List String)
    {classes : Classes} (hc : classes.Honest Machine.roots) : (start config files directory input classes).Good := by
  have hglobal : Claim.frame ⟨0, 0⟩ ∈ Machine.roots := by simp [Machine.roots]
  have hutilities : Claim.frame ⟨1, 0⟩ ∈ Machine.roots := by simp [Machine.roots]
  refine ⟨?_, ⟨⟨List.cons_ne_nil _ _, fun id hid => ?_, .held hglobal, .held hutilities⟩, hc⟩, rfl⟩
  · show Store.Sound _ (Machine.roots + 0)
    rw [add_zero]
    exact sound_initial config directory
  · rw [List.mem_singleton.1 hid]
    exact .held hglobal

/-- **In every session the store is sound for what the host owns.** -/
theorem good_of_reachable (h : s.Reachable) : s.Good := by
  induction h with
  | start config files directory input hc => exact good_start config files directory input hc
  | step _ hstep ih => exact (ih.step hstep).good

/-- A session with the classes of the packages `lang` and `ui` in which nothing has happened yet. -/
def fresh : Session :=
  start {} ⟨fun _ => .directory⟩ "w" [] ((Lang.classes ++ Toolkit.classes).foldl Classes.register {})

theorem good_fresh : fresh.Good := good_start _ _ _ _ (Toolkit.honest_classes _)

end Session

end HostScript
