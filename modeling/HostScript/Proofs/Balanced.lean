import HostScript.LineLoop
import HostScript.Proofs.StoreSound

/-!
# Computations that leave the call stack as it was

A computation is balanced when, however it ends, it has changed nothing of the machine but its store
and its console, and does not report that the stack was out of step. The ways of putting computations
together keep this, also `inFrame` and `steadily`, which change the stack for a while.
-/

set_option autoImplicit false

namespace HostScript

variable {f : Failure}

/-- One machine differs from another in its store and its console only. -/
structure Machine.Alike (m m' : Machine) : Prop where
  classes : m'.classes = m.classes
  files : m'.files = m.files
  config : m'.config = m.config
  global : m'.global = m.global
  utilities : m'.utilities = m.utilities
  stack : m'.stack = m.stack
  depth : m'.depth = m.depth

namespace Machine.Alike

variable {m m' m'' : Machine}

theorem refl (m : Machine) : m.Alike m := ⟨rfl, rfl, rfl, rfl, rfl, rfl, rfl⟩

theorem trans (h : m.Alike m') (h' : m'.Alike m'') : m.Alike m'' :=
  ⟨h'.classes.trans h.classes, h'.files.trans h.files, h'.config.trans h.config,
    h'.global.trans h.global, h'.utilities.trans h.utilities, h'.stack.trans h.stack,
    h'.depth.trans h.depth⟩

theorem ofStore (m : Machine) (s : Store) : m.Alike { m with store := s } :=
  ⟨rfl, rfl, rfl, rfl, rfl, rfl, rfl⟩

theorem ofJournal (m : Machine) (journal : List HostCallback) : m.Alike { m with journal } :=
  ⟨rfl, rfl, rfl, rfl, rfl, rfl, rfl⟩

theorem ofConsole (m : Machine) (c : Console) : m.Alike { m with console := c } :=
  ⟨rfl, rfl, rfl, rfl, rfl, rfl, rfl⟩

end Machine.Alike

/-! ## Changes that nothing comes in by -/

/-- A change of a machine that makes its store ebb, whatever else is in the machine. -/
def Machine.Ebbing (f : Machine → Machine) : Prop :=
  ∃ g : Store → Store, (∀ s : Store, s.Ebbs (g s)) ∧ ∀ m, f m = { m with store := g m.store }

namespace Machine

variable {f g : Machine → Machine}

theorem Ebbing.alike (hf : Ebbing f) (m : Machine) : m.Alike (f m) := by
  obtain ⟨g, -, hg⟩ := hf
  rw [hg]
  exact .ofStore m _

theorem Ebbing.ebbs (hf : Ebbing f) (m : Machine) : m.store.Ebbs (f m).store := by
  obtain ⟨g, hebbs, hg⟩ := hf
  rw [hg]
  exact hebbs _

theorem Ebbing.console (hf : Ebbing f) (m : Machine) : (f m).console = m.console := by
  obtain ⟨g, -, hg⟩ := hf
  rw [hg]

theorem ebbing_id : Ebbing fun m => m := ⟨fun s => s, .refl, fun _ => rfl⟩

theorem Ebbing.trans (hf : Ebbing f) (hg : Ebbing g) : Ebbing fun m => g (f m) := by
  obtain ⟨f', hebbs, hf⟩ := hf
  obtain ⟨g', hebbs', hg⟩ := hg
  exact ⟨fun s => g' (f' s), fun s => (hebbs s).trans (hebbs' _), fun m => (hg _).trans (by rw [hf])⟩

theorem ebbing_drop (v : Value) : Ebbing (·.drop v) := by
  unfold drop
  cases v.claim? with
  | none => exact ebbing_id
  | some k => exact ⟨(·.drop k), (Store.ebbs_drop · k), fun _ => rfl⟩

theorem ebbing_retain (v : Value) : Ebbing (·.retain v) := by
  unfold retain
  cases v.claim? with
  | none => exact ebbing_id
  | some k => exact ⟨(·.retain k), (Store.ebbs_retain · k), fun _ => rfl⟩

/-- Changes that are made for one value after the other. -/
theorem ebbing_foldl {f : Machine → Value → Machine} (hf : ∀ v, Ebbing (f · v)) (vs : List Value) :
    Ebbing fun m => vs.foldl f m := by
  induction vs with
  | nil => exact ebbing_id
  | cons v rest ih => exact (hf v).trans ih

theorem ebbing_dropAll (vs : List Value) : Ebbing (·.dropAll vs) := ebbing_foldl ebbing_drop vs

theorem settle_of_settled {m : Machine} (h : m.store.arena.dropped = []) : m.settle = m := by
  unfold settle
  rw [h]
  rfl

theorem settle_eq (m : Machine) : m.settle = { m with store := m.store.settle } := by
  unfold settle
  split
  · next h =>
    show m = { m with store := Store.settleWithin _ m.store }
    rw [Store.settleWithin_of_settled (List.isEmpty_iff.1 h)]
  · rfl

theorem ebbing_settle : Ebbing settle := ⟨Store.settle, Store.ebbs_settle, settle_eq⟩

theorem ebbing_discard (flow : Flow) : Ebbing flow.discard := by
  unfold Flow.discard
  cases flow.value? with
  | none => exact ebbing_id
  | some v => exact ebbing_drop v

theorem ebbing_dropReference (r : Reference) : Ebbing (Exec.dropReference r) := by
  unfold Exec.dropReference
  cases r.owned? with
  | none => exact ebbing_id
  | some v => exact ebbing_drop v

theorem Alike.drop (m : Machine) (v : Value) : m.Alike (m.drop v) := (ebbing_drop v).alike m

theorem Alike.settle (m : Machine) : m.Alike m.settle := ebbing_settle.alike m

end Machine

/-- A failure other than a report that the call stack was found out of step. -/
def Failure.InStep : Failure → Prop
  | .broken (.outOfStep _) | .broken (.depthChanged ..) => False
  | _ => True

theorem Failure.InStep.locate (h : f.InStep) (span : Span) (node : String) :
    (f.locate span node).InStep := by
  unfold Failure.locate
  split
  · split <;> trivial
  · split <;> trivial
  · exact h

theorem Failure.InStep.label (h : f.InStep) (source : Option String) : (f.label source).InStep := by
  unfold Failure.label
  split <;> trivial

theorem Failure.InStep.dangle (h : f.InStep) : f.dangle.InStep := by
  unfold Failure.dangle
  split <;> trivial

theorem Failure.inStep_ofFault (cause : Fault) : (Failure.ofFault cause).InStep := trivial

namespace Exec

variable {α β : Type} {x : Exec α} {m : Machine} {id : ScopeId} {clean : Machine → Machine}
  {f : Arena → Except ScopeId α}

section

variable {f : α → Exec β} {a : α} {e : Failure} {m' : Machine}

/-- A computation that goes on from a look at the machine. -/
theorem get_bind {f : Machine → Exec β} (m : Machine) : ((get : Exec Machine) >>= f) m = f m m := rfl

theorem bind_of_ok (h : x m = .ok a m') : (x >>= f) m = f a m' := by
  show EStateM.bind x f m = _
  unfold EStateM.bind
  rw [h]

theorem bind_of_error (h : x m = .error e m') : (x >>= f) m = .error e m' := by
  show EStateM.bind x f m = _
  unfold EStateM.bind
  rw [h]

/-- What a computation in two parts has yielded, its second part has yielded after the first. -/
theorem ok_of_bind {b : β} (h : (x >>= f) m = .ok b m') : ∃ a m1, x m = .ok a m1 ∧ f a m1 = .ok b m' := by
  change EStateM.bind x f m = _ at h
  unfold EStateM.bind at h
  cases hx : x m with
  | ok a m1 =>
    rw [hx] at h
    exact ⟨a, m1, rfl, h⟩
  | error e m1 =>
    rw [hx] at h
    cases h

theorem onFailure_of_ok (h : x m = .ok a m') : onFailure x clean m = .ok a m' := by
  unfold onFailure
  rw [h]

theorem onFailure_of_error (h : x m = .error e m') : onFailure x clean m = .error e (clean m') := by
  unfold onFailure
  rw [h]

/-! ## From the end of a part to the end of the whole -/

variable {E E' : Exec.Result α → Prop}

theorem bind_ends {E' : Exec.Result β → Prop} (hx : E (x m))
    (hok : ∀ a m', E (.ok a m') → E' (f a m')) (herror : ∀ e m', E (.error e m') → E' (.error e m')) :
    E' ((x >>= f) m) := by
  show E' (EStateM.bind x f m)
  unfold EStateM.bind
  cases hr : x m with
  | ok a m' => exact hok a m' (hr ▸ hx)
  | error e m' => exact herror e m' (hr ▸ hx)

theorem onFailure_ends (hx : E (x m)) (hok : ∀ a m', E (.ok a m') → E' (.ok a m'))
    (herror : ∀ e m', E (.error e m') → E' (.error e (clean m'))) : E' (onFailure x clean m) := by
  unfold onFailure
  cases hr : x m with
  | ok a m' => exact hok a m' (hr ▸ hx)
  | error e m' => exact herror e m' (hr ▸ hx)

theorem afterwards_ends (hx : E (x m)) (hok : ∀ a m', E (.ok a m') → E' (.ok a (clean m')))
    (herror : ∀ e m', E (.error e m') → E' (.error e (clean m'))) : E' (afterwards x clean m) := by
  unfold afterwards
  cases hr : x m with
  | ok a m' => exact hok a m' (hr ▸ hx)
  | error e m' => exact herror e m' (hr ▸ hx)

theorem mapFailure_ends {φ : Failure → Failure} (hx : E (x m)) (hok : ∀ a m', E (.ok a m') → E' (.ok a m'))
    (herror : ∀ e m', E (.error e m') → E' (.error (φ e) m')) : E' (mapFailure x φ m) := by
  unfold mapFailure
  cases hr : x m with
  | ok a m' => exact hok a m' (hr ▸ hx)
  | error e m' => exact herror e m' (hr ▸ hx)

theorem attempt_ends {E' : Exec.Result (Except String α) → Prop} (hx : E (x m))
    (hok : ∀ a m', E (.ok a m') → E' (.ok (.ok a) m'))
    (hstopped : ∀ cause m', E (.error (.stopped cause) m') → E' (.error (.stopped cause) m'))
    (hcaught : ∀ e m', E (.error e m') → E' (.ok (.error e.message) m')) : E' (attempt x m) := by
  unfold attempt
  cases hr : x m with
  | ok a m' => exact hok a m' (hr ▸ hx)
  | error e m' =>
    cases e with
    | stopped cause => exact hstopped cause m' (hr ▸ hx)
    | unread | fault | raised | broken | input => exact hcaught _ m' (hr ▸ hx)

end

/-- An end of a computation that started in a machine is a balanced one. -/
def EndsBalanced (m : Machine) : Exec.Result α → Prop
  | .ok _ m' => m.Alike m'
  | .error f m' => m.Alike m' ∧ f.InStep

/-- A computation that only changes store and console, and does not find the stack out of step. -/
def Balanced (x : Exec α) : Prop := ∀ m, EndsBalanced m (x m)

theorem EndsBalanced.of_alike {m' : Machine} (h : m.Alike m') :
    ∀ {r : Exec.Result α}, EndsBalanced m' r → EndsBalanced m r
  | .ok _ _, hr => h.trans hr
  | .error _ _, ⟨hr, hf⟩ => ⟨h.trans hr, hf⟩

/-! ## Putting computations together -/

theorem balanced_pure (a : α) : Balanced (pure a : Exec α) := Machine.Alike.refl

theorem balanced_throw {f : Failure} (hf : f.InStep) : Balanced (throw f : Exec α) :=
  fun m => ⟨Machine.Alike.refl m, hf⟩

theorem Balanced.bind {f : α → Exec β} (hx : Balanced x) (hf : ∀ a, Balanced (f a)) :
    Balanced (x >>= f) :=
  fun m => bind_ends (hx m) (fun a m' h => (hf a m').of_alike h) fun _ _ h => h

/-- A computation that starts by looking at the machine. -/
theorem Balanced.get {f : Machine → Exec β} (hf : ∀ m, Balanced (f m)) :
    Balanced (MonadState.get >>= f) :=
  fun m => hf m m

theorem balanced_modify {f : Machine → Machine} (hf : ∀ m : Machine, m.Alike (f m)) :
    Balanced (modify f : Exec Unit) := hf

theorem Balanced.onFailure (hx : Balanced x) (hc : ∀ m : Machine, m.Alike (clean m)) :
    Balanced (onFailure x clean) :=
  fun m => onFailure_ends (hx m) (fun _ _ h => h) fun _ m' h => ⟨h.1.trans (hc m'), h.2⟩

theorem Balanced.afterwards (hx : Balanced x) (hc : ∀ m : Machine, m.Alike (clean m)) :
    Balanced (afterwards x clean) :=
  fun m => afterwards_ends (hx m) (fun _ m' h => h.trans (hc m')) fun _ m' h => ⟨h.1.trans (hc m'), h.2⟩

theorem Balanced.mapFailure {f : Failure → Failure} (hx : Balanced x)
    (hf : ∀ e, e.InStep → (f e).InStep) : Balanced (mapFailure x f) :=
  fun m => mapFailure_ends (hx m) (fun _ _ h => h) fun e _ h => ⟨h.1, hf e h.2⟩

theorem Balanced.unlessFailed (hx : Balanced x) (v : Value) : Balanced (unlessFailed v x) :=
  hx.onFailure fun m => .drop m v

theorem Balanced.locating (hx : Balanced x) (span : Span) (node : Unit → String) :
    Balanced (locating span node x) :=
  hx.mapFailure fun _ h => h.locate span _

/-! ## Single steps -/

theorem balanced_textOf (v : Value) (locked : Option Value) : Balanced (textOf v locked) := by
  refine .get fun m => ?_
  split
  · exact balanced_pure _
  · exact balanced_throw trivial

theorem balanced_drop (v : Value) : Balanced (drop v) := balanced_modify fun m => .drop m v

theorem look_of_ok {a : α} (h : f m.settle.store.arena = .ok a) : look f m = .ok a m.settle := by
  unfold look
  dsimp only
  rw [h]

theorem look_of_error (h : f m.settle.store.arena = .error id) :
    look f m = .error (.broken (.staleFrame id)) m.settle := by
  unfold look
  dsimp only
  rw [h]

theorem changeFrame_of_frame {f : Frame → Frame × Option Value × α} {frame : Frame}
    (h : m.settle.store.arena.frame? id = some frame) :
    changeFrame id f m = .ok (f frame).2.2 ((f frame).2.1.elim
      { m.settle with
        store := { m.settle.store with arena := m.settle.store.arena.setFrame id (f frame).1 } }
      (Machine.drop { m.settle with
        store := { m.settle.store with
          arena := m.settle.store.arena.setFrame id (f frame).1 } })) := by
  unfold changeFrame
  dsimp only
  rw [h]

theorem changeFrame_of_none {f : Frame → Frame × Option Value × α}
    (h : m.settle.store.arena.frame? id = none) :
    changeFrame id f m = .error (.broken (.staleFrame id)) m.settle := by
  unfold changeFrame
  dsimp only
  rw [h]

end Exec

end HostScript
