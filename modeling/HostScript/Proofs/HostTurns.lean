import HostScript.Proofs.Watched

/-!
# Turns of a host

Between evaluations a host declares and removes methods in any frames, makes frames, keeps and releases them,
changes the classes, builds adapters, and looks up where their calls go. Every turn leaves a good session
(`Session.Good.turn`), and the tables of all adapters stay accurate (`Session.Run.truthful`).
-/

set_option autoImplicit false

namespace HostScript

open Exec Machine

/-! ## What the turns leave -/

section Turns

variable {m : Machine} {o r : Multiset Claim} {id : ScopeId}

theorem Frame.Tidy.eraseMethods {f : Frame} (h : f.Tidy id) (name : String) :
    ({ f with methods := f.methods.erase name } : Frame).Tidy id :=
  ⟨h.nodup, fun e he => h.declaring e (List.mem_of_mem_filter he)⟩

/-- The methods of a name can be removed from any frame; a stale name removes none. -/
theorem leaves_removeMethod (h : m.Ready o r) (scope : ScopeId) (name : String) :
    m.Leaves r o ((removeMethod scope name).after m) := by
  have hs := h.settle.1
  unfold Exec.after removeMethod Arena.removeMethod
  dsimp only
  cases hf : m.settle.store.arena.frame? scope with
  | none => exact hs
  | some f =>
    cases hname : f.methods.contains name with
    | true =>
      simp only [hname, if_true]
      have ht := (hs.ready.sound.tidy scope f hf).eraseMethods name
      exact hs.trans (leaves_rewrite hs.ready hf rfl rfl ht rfl)
    | false =>
      simp only [hname, Bool.false_eq_true, if_false]
      exact hs

/-- The creator of a frame, or whoever else holds it, may release it. -/
theorem leaves_release (h : m.Ready ({.frame id} + o) r) :
    m.Leaves r o { m with store := m.store.release id } := by
  have hsound := h.sound
  rw [add_assoc] at hsound
  exact .shrinks h (Store.ebbs_release _ id).toShrinks (Store.unwinds_sound.release hsound)

end Turns

namespace Session

variable {s s' : Session}

/-- The session after an evaluation; the host owns the answer. -/
def answered (x : Exec (Option Value)) (s : Session) : Session :=
  match x s.machine with
  | .ok answer m => { s with machine := m, held := answer.elim 0 Value.claims + s.held }
  | .error _ m => { s with machine := m }

/-- What a host may do next. -/
inductive Turn (s : Session) : Session → Prop
  | step {s' : Session} : s.Step s' → Turn s s'
  /-- An evaluation. -/
  | enter (allowance : Nat) {entry : HostEntry} : s.Offers entry →
      Turn s (s.answered (entry.run (evaluator allowance)))
  /-- A look at the frames. -/
  | settle : Turn s { s with machine := s.machine.settle }
  /-- A method for any frame that is there. -/
  | declare {method : ScriptMethod} {arena : Arena} :
      s.machine.settle.store.arena.declare method = .ok arena →
      Turn s { s with machine :=
        { s.machine.settle with store := { s.machine.settle.store with arena } } }
  | removeMethod (scope : ScopeId) (name : String) :
      Turn s { s with machine := (Exec.removeMethod scope name).after s.machine }
  /-- A frame of its own or under any frame that is there. -/
  | makeFrame {name : String} {kind : FrameKind} {parent : Option ScopeId} {id : ScopeId} {m : Machine} :
      (∀ p, parent = some p → s.machine.settle.store.arena.Live p) →
      Exec.makeFrame name kind parent s.machine = .ok id m →
      Turn s { s with machine := m, held := {.frame id} + s.held }
  | hold {id : ScopeId} {m : Machine} : s.machine.settle.store.arena.Live id →
      Exec.hold id s.machine = .ok () m →
      Turn s { s with machine := m, held := {.frame id} + s.held }
  | release {id : ScopeId} : .frame id ∈ s.held →
      Turn s { s with machine := { s.machine with store := s.machine.store.release id }
                      held := s.held - {.frame id} }
  /-- An adapter of any frame that is there. -/
  | adapt {scope : ScopeId} (names : List String) : s.machine.settle.store.arena.Live scope →
      Turn s (s.answered do return some (← makeAdapter scope names))
  /-- A look for where a call on an adapter goes. -/
  | dispatch {cell : Nat} {a : Adapter} (name : String) (arity : Nat) : .cell cell ∈ s.held →
      s.machine.store.adapter? cell = some a →
      Turn s { s with machine := (handlerFor cell a name arity).after s.machine }

/-- A session that a host can get to in any number of turns. -/
inductive Run : Session → Prop
  | start (config : Config) (files : Files) (directory : String) (input : List String)
      {classes : Classes} : classes.Honest Machine.roots → Run (start config files directory input classes)
  | turn {s s' : Session} : Run s → s.Turn s' → Run s'

/-- A computation of which nothing is left in the hands of the host. -/
theorem Good.leavesAll (h : s.Good) {m : Machine}
    (hl : s.machine.Leaves (s.spaces + s.held) 0 m) : s.Upholds { s with machine := m } := by
  have hup := h.leaves hl
  rwa [zero_add] at hup

theorem Good.answered (h : s.Good) {x : Exec (Option Value)}
    (hends : Owns (s.spaces + s.held) (fun answer => answer.elim 0 Value.claims) s.machine x) :
    s.Upholds (s.answered x) := by
  unfold Session.answered
  cases hr : x s.machine with
  | ok answer m => exact h.leaves (hends.ok hr).1
  | error f m => exact h.leavesAll (hends.error hr).1

/-- **Every turn leaves a good session**, in which the tables of adapters are accurate if they were. -/
theorem Good.turn (h : s.Good) (hturn : s.Turn s') : s.Upholds s' := by
  have hready := h.readyForAll
  have hsettle := hready.settle.1
  cases hturn with
  | step hstep => exact h.step hstep
  | enter allowance ho =>
    rcases HostEntry.ends_run h ho with hends | ⟨cause, hfails⟩
    · exact h.answered (hends _ (safe_evaluator allowance))
    · unfold Session.answered
      rw [hfails]
      exact ⟨h, id⟩
  | settle => exact h.leavesAll hsettle
  | declare hd => exact h.leavesAll (hsettle.trans (declare_of_live hsettle.ready hd))
  | removeMethod scope name => exact h.leavesAll (leaves_removeMethod hready scope name)
  | makeFrame hlive hr =>
    have hup := h.leaves ((ends_makeFrame_of_live trivial hready hlive).ok hr).1
    rwa [add_zero] at hup
  | hold hlive hr =>
    have hup := h.leaves ((ends_hold_of_live hready hlive).ok hr).1
    rwa [add_zero] at hup
  | @release id hid =>
    have hgiven := h.ready (Multiset.singleton_le.2 hid)
    rw [← add_zero ({.frame id} : Multiset Claim)] at hgiven
    have hup := h.leaves (leaves_release hgiven)
    rwa [add_zero, zero_add] at hup
  | adapt names hlive =>
    exact h.answered ((ends_makeAdapter_of_live names hready hlive).bind
      fun v m1 h1 _ => .pure h1.ready trivial)
  | @dispatch cell a name arity hcell ha =>
    have hkept := keptAdapter_of_adapter? hready (Multiset.mem_add.2 (.inr hcell)) ha
    have hends := ends_handlerFor hready hkept name arity
    apply h.leavesAll
    unfold Exec.after
    cases hr : handlerFor cell a name arity s.machine with
    | ok handler m => exact (hends.ok hr).1
    | error f m => exact (hends.error hr).1

/-- No adapter is there at the start. -/
theorem truthful_start (config : Config) (files : Files) (directory : String) (input : List String)
    (classes : Classes) :
    (start config files directory input classes).machine.store.Truthful := by
  rintro n a ⟨c, hc, -⟩
  simp [start, Machine.initial, Store.cell?] at hc

theorem Run.upheld (h : s.Run) : s.Good ∧ s.machine.store.Truthful := by
  induction h with
  | start config files directory input hc =>
    exact ⟨good_start config files directory input hc, truthful_start _ _ _ _ _⟩
  | turn _ hturn ih =>
    have hup := ih.1.turn hturn
    exact ⟨hup.good, hup.truthful ih.2⟩

theorem run_fresh : fresh.Run := .start _ _ _ _ (Toolkit.honest_classes _)

theorem Run.good (h : s.Run) : s.Good := h.upheld.1

/-- **In every run the tables of all adapters are accurate.** -/
theorem Run.truthful (h : s.Run) : s.machine.store.Truthful := h.upheld.2

end Session

end HostScript
