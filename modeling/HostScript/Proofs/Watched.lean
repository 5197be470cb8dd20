import HostScript.Proofs.LexicalScope
import HostScript.Proofs.SafeSessions

/-!
# Watched evaluation

What holds at every moment of an evaluation is said with an evaluation that is watched: the machine is
checked before and after every expression and every statement, however deep inside, and where a check
fails the evaluation ends with some failure instead (`Evaluator.watched`). If that makes no difference,
whatever the failure is, no check ever fails (`eq_of_watch`).

That it makes none is shown with a third evaluation, which halts where a check fails and leaves a machine
behind that no safe computation leaves (`Watch`). It is safe, so it never halts; and as long as it does not
halt, the other two do what it does (`Woven.shadows`).
-/

set_option autoImplicit false

namespace HostScript

variable {α : Type} {P : α → Prop} {Bad : Machine → Prop}

namespace Exec

variable {β : Type}

open Classical in
/-- A computation between two checks of the machine. Where one fails, it ends with a failure instead. -/
noncomputable def checked (Q : Machine → Prop) (f : Failure) (x : Exec α) : Exec α := fun m =>
  if Q m ∧ Q (x.after m) then x m else .error f m

open Classical in
/-- A computation that halts in a changed machine where a check fails. -/
noncomputable def halting (Q : Machine → Prop) (alarm : Machine → Machine) (x : Exec α) : Exec α :=
  fun m => if Q m ∧ Q (x.after m) then x m else .error (.stopped .exhausted) (alarm m)

theorem checked_of_holds {Q : Machine → Prop} {f : Failure} {x : Exec α} {m : Machine} (h : Q m)
    (h' : Q (x.after m)) : checked Q f x m = x m :=
  if_pos ⟨h, h'⟩

end Exec

open Exec

/-- Evaluation in which each expression and each statement is wrapped. -/
def Evaluator.wrapped (wrap : (α : Type) → Exec α → Exec α) : Nat → Evaluator
  | 0 => spent
  | n + 1 =>
    ⟨fun e => wrap _ ((wrapped wrap n).exprStep e), fun s => wrap _ ((wrapped wrap n).stmtStep n s)⟩

/-- Evaluation in which the machine is checked before and after each expression and each statement. -/
noncomputable def Evaluator.watched (Q : Machine → Prop) (f : Failure) : Nat → Evaluator :=
  Evaluator.wrapped fun _ => checked Q f

theorem Evaluator.wrapped_id (n : Nat) : Evaluator.wrapped (fun _ x => x) n = evaluator n := by
  induction n with
  | zero => rfl
  | succ n ih =>
    rw [wrapped, ih]
    rfl

/-! ## Shadows -/

/-- A machine in which a computation was halted: it is what is left of a bad one. -/
structure Machine.Sunk (Bad : Machine → Prop) (m m' : Machine) : Prop where
  alike : m.Alike m'
  remains : ∃ m1, Bad m1 ∧ m1.global = m'.global ∧ m1.store.Ebbs m'.store

namespace Machine.Sunk

variable {m m1 m' : Machine}

theorem after (h : m.Alike m1) (hs : Sunk Bad m1 m') : Sunk Bad m m' :=
  ⟨h.trans hs.alike, hs.remains⟩

/-- Whatever a halted computation passes through on its way out takes things away only. -/
theorem ebb {m0 m'' : Machine} (hs : Sunk Bad m0 m') (ha : m.Alike m'') (hr : m'.Remains m'') : Sunk Bad m m'' := by
  obtain ⟨m1, hbad, hsame, hebbs⟩ := hs.remains
  exact ⟨ha, m1, hbad, hsame.trans hr.global.symm, hebbs.trans hr.ebbs⟩

end Machine.Sunk

namespace Exec

variable {β : Type} {Q : β → Prop} {x : Bool → Exec α} {m m0 : Machine}

/-- An end in a machine like the one before, with a result that satisfies a condition. -/
abbrev Lands (P : α → Prop) (m : Machine) : Exec.Result α → Prop := EndsIn .all (fun _ _ => True) P m

/-- The first of two computations does what the second does, unless it is halted. -/
def ShadowsAt (Bad : Machine → Prop) (P : α → Prop) (x : Bool → Exec α) (m : Machine) : Prop :=
  (x true m = x false m ∧ Lands P m (x false m)) ∨
    ∃ m', x true m = .error (.stopped .exhausted) m' ∧ m.Sunk Bad m'

/-- The first of two computations does what the second does, unless it is halted, in any machine. -/
def Shadows (Bad : Machine → Prop) (α : Type) (P : α → Prop) (x : Bool → Exec α) : Prop :=
  ∀ m, ShadowsAt Bad P x m

namespace ShadowsAt

/-- What depends only on the ends of two computations is a shadow if they are. -/
theorem through {y : Bool → Exec β} (hx : ShadowsAt Bad P x m0)
    (F : Exec.Result α → Exec.Result β)
    (hy : ∀ i, KeepsStack (x i) m0 → y i m = F (x i m0))
    (hl : ∀ r, Lands P m0 r → Lands Q m (F r))
    (hs : ∀ m', m0.Sunk Bad m' → ∃ m'', F (.error (.stopped .exhausted) m') =
      .error (.stopped .exhausted) m'' ∧ m.Sunk Bad m'') : ShadowsAt Bad Q y m := by
  rcases hx with ⟨hsame, hlands⟩ | ⟨m', hr, hsunk⟩
  · have hfalse := hy false hlands.keepsStack
    have htrue := hy true (EndsIn.keepsStack (P := P) (hsame ▸ hlands))
    left
    rw [htrue, hfalse, hsame]
    exact ⟨rfl, hl _ hlands⟩
  · have hkeeps : KeepsStack (x true) m0 := by
      have hlands : Lands P m0 (x true m0) := by
        rw [hr]
        exact ⟨hsunk.alike, .all m', trivial⟩
      exact hlands.keepsStack
    obtain ⟨m'', hF, hsunk'⟩ := hs m' hsunk
    exact .inr ⟨m'', by rw [hy true hkeeps, hr, hF], hsunk'⟩

theorem imp {P' : α → Prop} (hx : ShadowsAt Bad P x m) (h : ∀ a, P a → P' a) : ShadowsAt Bad P' x m :=
  hx.through id (fun _ _ => rfl) (fun _ hr => hr.imp h fun _ hf => hf) fun m' hs => ⟨m', rfl, hs⟩

theorem bind {f : Bool → α → Exec β} (hx : ShadowsAt Bad P x m)
    (hf : ∀ a m', m.Alike m' → P a → ShadowsAt Bad Q (fun i => f i a) m') :
    ShadowsAt Bad Q (fun i => x i >>= f i) m := by
  rcases hx with ⟨hsame, hlands⟩ | ⟨m', hr, hsunk⟩
  · cases hr : x false m with
    | error e m' =>
      rw [hr] at hsame hlands
      refine .inl ⟨(bind_of_error hsame).trans (bind_of_error hr).symm, ?_⟩
      show Lands Q m ((x false >>= f false) m)
      rw [bind_of_error hr]
      exact hlands
    | ok a m' =>
      rw [hr] at hsame hlands
      -- both go on from the same machine with the same result
      rcases hf a m' hlands.1 hlands.2.2 with ⟨hnext, hend⟩ | ⟨m'', hnext, hsunk⟩
      · refine .inl ⟨(bind_of_ok hsame).trans (hnext.trans (bind_of_ok hr).symm), ?_⟩
        show Lands Q m ((x false >>= f false) m)
        rw [bind_of_ok hr]
        exact hend.after hlands.1
      · exact .inr ⟨m'', (bind_of_ok hsame).trans hnext, .after hlands.1 hsunk⟩
  · exact .inr ⟨m', bind_of_error hr, hsunk⟩

theorem attempt (hx : ShadowsAt Bad P x m) :
    ShadowsAt Bad (fun r => ∀ a, r = .ok a → P a) (fun i => Exec.attempt (x i)) m := by
  refine hx.through (fun r => Exec.attempt (fun _ => r) m) (fun _ _ => rfl) (fun r hr => ?_)
    fun m' hs => ⟨m', rfl, hs⟩
  exact EndsIn.attempt (x := fun _ => r) hr

theorem around {C : Culprit → Prop} {y : Bool → Exec α}
    (hx : ∀ m0 : Machine, (m.Allowed → m0.Allowed) → ShadowsAt Bad P x m0) (hy : Around C x y) :
    ShadowsAt Bad P y m := by
  rcases hy m with ⟨r, hr, hrun⟩ | ⟨m0, T, hm, hallowed, hT, hrun⟩
  · have hlands : Lands P m (y false m) := by
      rw [hrun]
      exact (hr .all P (.all m)).endsIn.imp (fun _ h => h) fun _ _ => trivial
    exact .inl ⟨(hrun true).trans (hrun false).symm, hlands⟩
  · refine (hx m0 hallowed).through T hrun (fun r hr => hT.endsIn hm (fun _ h => h) hr) fun m' hs => ?_
    obtain ⟨φ, m'', hφ, hend, halike, hremains⟩ := hT.error (.stopped .exhausted) m'
    exact ⟨m'', by rw [hend, hφ.stopped], hs.ebb (halike hs.alike) hremains⟩

end ShadowsAt

end Exec

theorem shadows_logic : Woven.Logic .all (fun _ => True) (Shadows Bad) fun P x => Shadows Bad _ P x := by
  refine ⟨⟨fun hx => hx, ?_, ?_, ?_, ?_⟩, ?_, ?_, ?_⟩
  · exact fun hx h m => (hx m).imp h
  · exact fun hx hf m => (hx m).bind fun a m' _ ha => hf a ha m'
  · exact fun hf m => hf m (.all m) m
  · exact fun hx hy m => .around (fun m0 _ => hx m0) hy
  · exact fun hx m => .inl ⟨rfl, (hx m (.all m)).imp (fun _ h => h) fun _ _ => trivial⟩
  · exact fun _ _ m => .inl ⟨rfl, .refl m, .all m, trivial⟩
  · exact fun hx m => (hx m).attempt

/-- **What is woven from shadows is a shadow.** -/
theorem Woven.shadows {b : Bool} {x : Bool → Exec α}
    (hx : Woven .all (fun _ => True) (Shadows Bad) b P x) : Shadows Bad α P x :=
  hx.logically shadows_logic

/-! ## Shadows of evaluations -/

/-- Two evaluations of which the first is a shadow of the second. -/
abbrev Evaluator.Shadowed (Bad : Machine → Prop) (ev : Bool → Evaluator) : Prop := AllGiven (Shadows Bad) ev

theorem shadows_throw (f : Failure) : Shadows Bad α P fun _ => throw f :=
  fun m => .inl ⟨rfl, .refl m, .all m, trivial⟩

theorem Evaluator.Shadowed.spent : Evaluator.Shadowed Bad fun _ => .spent :=
  ⟨fun _ => shadows_throw _, fun _ => shadows_throw _, fun _ => shadows_throw _⟩

/-- A wrapping that does nothing where the checks hold. -/
def Passive (Q : Machine → Prop) (wrap : (α : Type) → Exec α → Exec α) : Prop :=
  ∀ (α : Type) (x : Exec α) (m : Machine), Q m → Q (x.after m) → wrap α x m = x m

section Halting

variable {Q : Machine → Prop} {alarm : Machine → Machine} {wrap : (α : Type) → Exec α → Exec α}

/-- The machines that an alarm leaves. -/
def Alarmed (alarm : Machine → Machine) (m : Machine) : Prop := ∃ m0, m = alarm m0

/-- Halting where a check fails is a shadow of anything that goes on where the checks hold. -/
theorem Exec.Shadows.halting {α : Type} {P : α → Prop} {x : Bool → Exec α}
    (hx : Shadows (Alarmed alarm) α P x) (halike : ∀ m : Machine, m.Alike (alarm m)) (hwrap : Passive Q wrap) :
    Shadows (Alarmed alarm) α P fun i =>
      if i then Exec.halting Q alarm (x true) else wrap α (x false) := by
  intro m
  by_cases hQ : Q m ∧ Q ((x true).after m)
  · have hpass : Exec.halting Q alarm (x true) m = x true m := if_pos hQ
    rcases hx m with ⟨hsame, hlands⟩ | ⟨m', hr, hsunk⟩
    · -- both end alike, so the check after them holds for both
      have hafter : (x true).after m = (x false).after m := by
        unfold Exec.after
        rw [hsame]
      have hnothing := hwrap α (x false) m hQ.1 (hafter ▸ hQ.2)
      refine .inl ⟨hpass.trans (hsame.trans hnothing.symm), ?_⟩
      show Lands P m (wrap α (x false) m)
      rw [hnothing]
      exact hlands
    · exact .inr ⟨m', hpass.trans hr, hsunk⟩
  · exact .inr ⟨alarm m, if_neg hQ, halike m, alarm m, ⟨m, rfl⟩, rfl, .refl _⟩

theorem shadowed_wrapped (halike : ∀ m : Machine, m.Alike (alarm m)) (hwrap : Passive Q wrap) (n : Nat) :
    Evaluator.Shadowed (Alarmed alarm) fun i =>
      if i then .wrapped (fun _ => halting Q alarm) n else .wrapped wrap n := by
  induction n with
  | zero =>
    have hspent : (fun i : Bool => if i then Evaluator.wrapped (fun _ => halting Q alarm) 0
        else Evaluator.wrapped wrap 0) = fun _ => .spent := by
      funext i
      cases i <;> rfl
    rw [hspent]
    exact .spent
  | succ n ih =>
    refine ⟨fun e m => ?_, fun s m => ?_, fun _ => shadows_throw _⟩
    · have h := (ih.exprStep e).shadows.halting halike hwrap m
      exact h
    · have h := (ih.stmtStep n s).shadows.halting halike hwrap m
      exact h

end Halting

/-! ## Watching -/

/-- What is to be watched for: a condition that holds in machines that are ready, given an invariant that
computations keep. An alarm changes a machine so that nothing that is left of it is ready and has the
invariant; where the invariant fails, it does so as a safe computation could. -/
structure Watch (I Q : Machine → Prop) (alarm : Machine → Machine) : Prop where
  holds : ∀ {o r : Multiset Claim} {m : Machine}, m.Ready o r → I m → Q m
  keeps : ∀ {o r : Multiset Claim} {m m' : Machine}, m.Leaves r o m' → I m → I m'
  alike : ∀ m : Machine, m.Alike (alarm m)
  leaves : ∀ {r : Multiset Claim} {m : Machine}, m.Ready 0 r → ¬ I m → m.Leaves r 0 (alarm m)
  tells : ∀ {o r : Multiset Claim} {m m' : Machine}, (alarm m).global = m'.global →
    (alarm m).store.Ebbs m'.store → m'.Ready o r → ¬ I m'

namespace Watch

variable {I Q : Machine → Prop} {alarm : Machine → Machine} (hw : Watch I Q alarm) {x : Exec α} {m : Machine}
  {r : Multiset Claim} {own : α → Multiset Claim}

include hw

/-- In a machine that is ready, a check fails only where the invariant does. -/
theorem ends_halting (h : m.Ready 0 r) (hx : Owns r own m x) :
    Owns r own m (halting (fun m => I m ∧ Q m) alarm x) := by
  by_cases hI : I m
  · -- the invariant and with it the condition hold before and after
    have hafter : ∃ o, m.Leaves r o (x.after m) := by
      unfold Exec.after
      cases hr : x m with
      | ok a m' => exact ⟨_, (hx.ok hr).1⟩
      | error f m' => exact ⟨_, (hx.error hr).1⟩
    obtain ⟨o, hl⟩ := hafter
    have hI' := hw.keeps hl hI
    constructor
    rw [show halting (fun m => I m ∧ Q m) alarm x m = x m from
      if_pos ⟨⟨hI, hw.holds h hI⟩, hI', hw.holds hl.ready hI'⟩]
    exact hx.ended
  · constructor
    rw [show halting (fun m => I m ∧ Q m) alarm x m = .error (.stopped .exhausted) (alarm m) from
      if_neg fun hboth => hI hboth.1.1]
    exact ⟨hw.leaves h hI, trivial⟩

theorem balanced_halting (hx : x.Balanced) : (halting (fun m => I m ∧ Q m) alarm x).Balanced := by
  intro m
  unfold halting
  split
  · exact hx m
  · exact ⟨hw.alike m, trivial⟩

/-- **Evaluation that halts where a check fails is safe.** -/
theorem safe_halting (n : Nat) : (Evaluator.wrapped (fun _ => halting (fun m => I m ∧ Q m) alarm) n).Safe := by
  induction n with
  | zero =>
    refine ⟨⟨fun _ => balanced_throw trivial, fun _ => balanced_throw trivial⟩, ?_, ?_, .inl trivial⟩
    · exact fun e m r h => .throw h trivial
    · exact fun s m r h => .throw h trivial
  | succ n ih =>
    refine ⟨⟨fun e => ?_, fun s => ?_⟩, fun e m r h => ?_, fun s m r h => ?_, .inl trivial⟩
    · exact hw.balanced_halting ((Evaluator.balanced_exprForm ih.balanced e).locating _ _)
    · exact hw.balanced_halting (Evaluator.balanced_stmtStep ih.balanced n s)
    · exact hw.ends_halting h ((Evaluator.ends_exprForm ih e h).locating _ _)
    · exact hw.ends_halting h (Evaluator.ends_stmtStep ih n s h)

/-- A safe computation that started with the invariant was not halted. -/
theorem eq_of_shadows {x : Bool → Exec α} (hx : Shadows (Alarmed alarm) α P x)
    (hends : Owns r own m (x true)) (hI : I m) : x true m = x false m := by
  rcases hx m with ⟨hsame, -⟩ | ⟨m', hr, hsunk⟩
  · exact hsame
  · obtain ⟨_, ⟨m0, rfl⟩, hglobal, hebbs⟩ := hsunk.remains
    have hl := (hends.error hr).1
    exact absurd (hw.keeps hl hI) (hw.tells hglobal hebbs hl.ready)

/-- **Watching makes no difference to a safe computation** that is woven from evaluation. -/
theorem eq_of_watch {y : Evaluator → Exec α}
    (hwoven : ∀ {ev : Bool → Evaluator}, Evaluator.Shadowed (Alarmed alarm) ev →
      Shadows (Alarmed alarm) α P fun i => y (ev i))
    (hends : ∀ ev : Evaluator, ev.Safe → Owns r own m (y ev)) (hI : I m)
    (f : Failure) (n : Nat) : y (.watched Q f n) m = y (evaluator n) m := by
  have hall : ∀ {wrap : (α : Type) → Exec α → Exec α}, Passive (fun m => I m ∧ Q m) wrap →
      y (.wrapped (fun _ => halting (fun m => I m ∧ Q m) alarm) n) m = y (.wrapped wrap n) m := by
    intro wrap hwrap
    exact hw.eq_of_shadows (hwoven (shadowed_wrapped hw.alike hwrap n)) (hends _ (hw.safe_halting n)) hI
  have hplain : _ = y (.wrapped (fun _ x => x) n) m := hall fun _ _ _ _ _ => rfl
  have hwatched : _ = y (.wrapped (fun _ => checked Q f) n) m :=
    hall fun _ x m h h' => checked_of_holds h.2 h'.2
  rw [← Evaluator.wrapped_id n, ← hplain, hwatched]
  rfl

end Watch

/-- What holds in every machine that is ready can be watched for: without any frame no machine is ready. -/
theorem watch_of_ready {Q : Machine → Prop}
    (h : ∀ {o r : Multiset Claim} {m : Machine}, m.Ready o r → Q m) :
    Watch (fun _ => True) Q fun m => { m with store := {} } := by
  refine ⟨fun hready _ => h hready, fun _ _ => trivial, fun m => .ofStore m {},
    fun _ hfalse => absurd trivial hfalse, fun {_ _ _ m'} _ hebbs hready _ => ?_⟩
  obtain ⟨f, hf⟩ := Arena.live_iff.1 (hready.live hready.kept.global)
  obtain ⟨g, hg, -⟩ := hebbs.frames m'.global f hf
  simp [Arena.frame?] at hg

/-! ## Ways into evaluation

A host starts an evaluation with a text, with bytes, with a file, or by a call through an adapter, in a
namespace or with an adapter that it keeps (`Session.Offers`). -/

open Exec Machine

variable {ev : Bool → Evaluator}

/-- How a host starts an evaluation. -/
inductive HostEntry where
  | text (scope : ScopeId) (source : String)
  | bytes (scope : ScopeId) (data : ByteArray) (label : String)
  | file (scope : ScopeId) (path : String)
  /-- A call on the adapter in a cell. -/
  | call (cell : Nat) (a : Adapter) (method : String) (args : List Value)

namespace HostEntry

/-- The evaluation that is started. -/
def run (ev : Evaluator) : HostEntry → Exec (Option Value)
  | .text scope source => do return some (← ev.eval source scope)
  | .bytes scope data label => do return some (← ev.evalBytes data scope label)
  | .file scope path => do return some (← ev.runFile path scope)
  | .call cell a method args => ev.callAdapter cell a method args

end HostEntry

/-- The host keeps the namespace in which an evaluation is started, or the adapter and the arguments. -/
def Session.Offers (s : Session) : HostEntry → Prop
  | .text scope _ | .bytes scope _ _ | .file scope _ =>
    s.machine.store.Pinned (s.spaces + s.held) scope
  | .call cell a _ args => .cell cell ∈ s.spaces + s.held ∧ s.machine.store.adapter? cell = some a ∧
    ∀ k ∈ claimsOf args, k ∈ s.spaces + s.held

variable {s : Session} {entry : HostEntry}

/-- A host may evaluate in a frame of which it owns a share. -/
theorem Session.offers_text {scope : ScopeId} (h : .frame scope ∈ s.spaces + s.held) (source : String) :
    s.Offers (.text scope source) :=
  .held h

theorem Session.Good.readyForAll (h : s.Good) : s.machine.Ready 0 (s.spaces + s.held) := by
  have hready := h.ready (Multiset.zero_le _)
  rwa [tsub_zero] at hready

/-! ## Entries are safe -/

/-- Bytes that are no text are refused before anything is evaluated; everything else is safe. -/
theorem HostEntry.ends_run (h : s.Good) (ho : s.Offers entry) :
    (∀ ev : Evaluator, ev.Safe → Owns (s.spaces + s.held) (fun answer => answer.elim 0 Value.claims)
      s.machine (entry.run ev)) ∨
    ∃ cause, ∀ ev : Evaluator, entry.run ev s.machine = .error (.input cause) s.machine := by
  have hready := h.readyForAll
  -- a text is evaluated for its value
  have hvalue : ∀ {x : Exec Value}, Owns (s.spaces + s.held) Value.claims s.machine x →
      Owns (s.spaces + s.held) (fun answer => answer.elim 0 Value.claims) s.machine
        (do return some (← x) : Exec (Option Value)) :=
    fun hx => hx.bind fun v m1 h1 _ => .pure h1.ready trivial
  cases entry with
  | text scope text =>
    left
    intro ev hev
    exact hvalue (Evaluator.ends_evalLabelled hev _ none hready ho)
  | bytes scope bytes label =>
    cases hbytes : decodeText bytes with
    | ok text =>
      left
      intro ev hev
      apply hvalue
      unfold Evaluator.evalBytes
      rw [hbytes]
      exact Evaluator.ends_evalLabelled hev _ (some label) hready ho
    | error cause =>
      right
      refine ⟨cause, fun ev => ?_⟩
      have hfails : ev.evalBytes bytes scope label s.machine = .error (.input cause) s.machine := by
        unfold Evaluator.evalBytes
        rw [hbytes]
        rfl
      exact bind_of_error hfails
  | file scope path =>
    left
    intro ev hev
    exact hvalue (Evaluator.ends_runFile hev path hready ho)
  | call cell a method args =>
    left
    intro ev hev
    exact Evaluator.ends_callAdapter hev method hready (keptAdapter_of_adapter? hready ho.1 ho.2.1) ho.2.2

/-! ## Entries are woven -/

section Logic

variable {ι : Type} {ev : ι → Evaluator} {Given : (α : Type) → (α → Prop) → (ι → Exec α) → Prop}
  {L : {α : Type} → (α → Prop) → (ι → Exec α) → Prop} (hL : Woven.Logic .all (fun _ => True) Given L)
  (h : Evaluator.AllGiven Given ev)

include hL h

theorem Evaluator.AllGiven.evalLabelled (text : String) (scope : ScopeId) (label : Option String) :
    L (·.Confined .all) fun i => (ev i).evalLabelled text scope label := by
  have htext : Woven .all (fun _ => True) Given true (·.Confined .all) fun i => (ev i).runText text label :=
    Woven.runText _ _ (fun _ => trivial) fun s => .given (h.stmt s)
  exact hL.around (htext.logically hL) (around_evalLabelled ev text scope label)

/-- **What is closed under everything holds of what a host starts.** -/
theorem HostEntry.logically (hinput : ∀ {P : Value → Prop} cause, L P fun _ => throw (.input cause))
    (entry : HostEntry) : L (fun _ => True) fun i => entry.run (ev i) := by
  have hvalue : ∀ {x : ι → Exec Value}, L (·.Confined .all) x → L (fun _ => True) fun i => (do return some (← x i)) :=
    fun hx => hL.bind hx fun v _ => hL.hostRules.pure trivial
  cases entry with
  | text scope text => exact hvalue (h.evalLabelled hL _ scope none)
  | bytes scope bytes label =>
    apply hvalue
    unfold Evaluator.evalBytes
    cases decodeText bytes with
    | ok text => exact h.evalLabelled hL _ scope (some label)
    | error cause => exact hinput cause
  | file scope path =>
    exact hvalue ((Woven.runFile path scope (fun _ => trivial) fun s => .given (h.stmt s)).logically hL)
  | call cell a method args =>
    have hargs : AllConfined .all args := fun v _ => v.confined_all
    have hcall : Woven .all (fun _ => True) Given false _ _ :=
      Discipline.callAdapter (w := ()) h.calls cell (a := a) method trivial hargs
    exact hL.imp (hcall.logically hL) fun _ _ => trivial

end Logic

/-- **Watching makes no difference to what a host starts.** -/
theorem Watch.eq_run {I Q : Machine → Prop} {alarm : Machine → Machine} (hw : Watch I Q alarm)
    (h : s.Good) (hI : I s.machine) (ho : s.Offers entry) (f : Failure) (n : Nat) :
    entry.run (.watched Q f n) s.machine = entry.run (evaluator n) s.machine := by
  rcases HostEntry.ends_run h ho with hends | ⟨cause, hfails⟩
  · exact hw.eq_of_watch (fun hev => HostEntry.logically shadows_logic hev (fun _ => shadows_throw _) entry)
      hends hI f n
  · rw [hfails, hfails]

end HostScript
