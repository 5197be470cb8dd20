import HostScript.Proofs.Around

/-!
# Disciplines of evaluation

Several properties of evaluation are shown in the same way: something is known of every machine on the way and
of every value, more of it from stage to stage (`Regime`), and nothing that is stored, found or passed on breaks
it. A discipline is a regime that the single steps keep and that is kept when steps are put together. That
evaluation as a whole keeps a discipline is shown once for all.

Computations come in families, all members of which are put together alike. The flag of `Regime.runs` says
whether a family may ask for the frame that is being evaluated in.
-/

set_option autoImplicit false

namespace HostScript

open Exec

variable {f : Machine → Machine}

/-- A change of a machine that does the same on any stack and that nothing comes into the store by. -/
structure Tidy (f : Machine → Machine) : Prop extends Change .all f where
  ebbs : ∀ m : Machine, m.store.Ebbs (f m).store

theorem Tidy.change (hf : Tidy f) (ok : Bounds) : Change ok f :=
  ⟨hf.free, hf.calm, fun m hm => (hm.ebbs (hf.ebbs m)).congr rfl (hf.alike m).classes⟩

theorem tidy_of_ebbing (hf : Machine.Ebbing f) : Tidy f :=
  ⟨change_of_ebbing hf, hf.ebbs⟩

/-- What is shown is no matter of the store. -/
theorem tidy_console {c : Machine → Console} (hc : ∀ m S, c (Machine.onto m S) = c m) :
    Tidy fun m => { m with console := c m } := by
  refine ⟨⟨fun m S => ?_, fun m => ⟨.ofConsole m _, .refl _, rfl⟩, fun m hm => hm.congr rfl rfl⟩, fun _ => .refl _⟩
  rw [hc]
  rfl

/-- What is known on the way of an evaluation. -/
structure Regime (ι : Type) where
  /-- How far an evaluation has come. -/
  Stage : Type
  later : Stage → Stage → Prop
  /-- A machine in which everything is as it should be. -/
  upheld : Stage → Machine → Prop
  /-- A value that may be passed on and stored. -/
  admits : Stage → Value → Prop
  /-- A value that may be stored in a place of a type. -/
  suits : Value → ValueType → Prop
  /-- A frame that may be referred to. -/
  reaches : ScopeId → Prop
  /-- Host code that may be run. -/
  permits : Stage → HostStep → Action → Prop
  /-- What may be blamed for a failure. -/
  blames : Culprit → Prop
  /-- A family of computations that keep the regime, whose results satisfy a condition. -/
  runs : Bool → Stage → {α : Type} → (Stage → α → Prop) → (ι → Exec α) → Prop

namespace Regime

variable {ι : Type} (R : Regime ι)

def admitsAll (w : R.Stage) (vs : List Value) : Prop := ∀ v ∈ vs, R.admits w v

def admitsIf (w : R.Stage) (found : Option Value) : Prop := ∀ v, found = some v → R.admits w v

/-- The variables of a frame may be passed on and suit their types. -/
def admitsFrame (w : R.Stage) (f : Frame) : Prop :=
  ∀ e ∈ f.vars.entries, R.admits w e.2.value ∧ ∀ type, e.2.declared = some type → R.suits e.2.value type

/-- A method that is given only what may be passed on may be run. -/
def admitsMethod (m : HostMethod) : Prop :=
  ∀ body, m.body = some body → ∀ w receiver args, R.admitsAll w (receiver.toList ++ args) →
    R.permits w (.calling m.signature) (body receiver args)

/-- A field that is given only what may be passed on may be read and written. -/
structure admitsField (name : String) (f : HostField) : Prop where
  read : ∀ w step receiver, step.Reads name → R.admitsAll w receiver.toList → R.permits w step (f.read receiver)
  write : ∀ write, f.write = some write → ∀ w receiver value, R.admitsAll w (receiver.toList ++ [value]) →
    R.permits w (.writing name) (write receiver value)

structure admitsClass (c : HostClass) : Prop where
  constructors : ∀ m ∈ c.constructors, R.admitsMethod m
  methods : ∀ m ∈ c.methods, R.admitsMethod m
  fields : ∀ f ∈ c.fields, R.admitsField f.name f

/-- A place goes through values that may be passed on and through classes whose code may be run. -/
def admitsPlace (w : R.Stage) : Reference → Prop
  | .variable .. => True
  | .field object c _ | .property object c _ => R.admits w object ∧ R.admitsClass c
  | .staticField c _ => R.admitsClass c
  | .element cell element _ => R.admits w (.array cell element)

/-- The value that a statement ends with may be passed on. -/
def admitsFlow (w : R.Stage) : Flow → Prop
  | .normal v | .returned v => R.admits w v
  | .broke | .continued => True

/-- Computations about whose results nothing is said. -/
abbrev steps {α : Type} (b : Bool) (w : R.Stage) (x : ι → Exec α) : Prop := R.runs b w (fun _ _ => True) x

abbrev yields (b : Bool) (w : R.Stage) (x : ι → Exec Value) : Prop := R.runs b w R.admits x

abbrev yieldsAll (b : Bool) (w : R.Stage) (x : ι → Exec (List Value)) : Prop := R.runs b w R.admitsAll x

abbrev yieldsIf (b : Bool) (w : R.Stage) (x : ι → Exec (Option Value)) : Prop := R.runs b w R.admitsIf x

abbrev flows (b : Bool) (w : R.Stage) (x : ι → Exec Flow) : Prop := R.runs b w R.admitsFlow x

abbrev refers (b : Bool) (w : R.Stage) (x : ι → Exec Reference) : Prop := R.runs b w R.admitsPlace x

end Regime

/-- A regime that evaluation keeps to: all that comes up on the way is as it should be, single steps keep the
regime, and so does what is put together from them. -/
structure Discipline (ι : Type) extends Regime ι where
  refl : ∀ w : Stage, later w w
  trans : ∀ {w w' w''}, later w w' → later w' w'' → later w w''
  mono : ∀ {w w' v}, later w w' → admits w v → admits w' v
  object : ∀ {w id name}, admits w (.object id name) ↔ reaches id
  simple : ∀ {w : Stage} {v : Value}, (∀ id name, v ≠ .object id name) → (∀ n type, v ≠ .array n type) → admits w v
  suits_fit : ∀ {m : Machine} {type : ValueType} {value v : Value} {occasion : Occasion},
    m.fit type value occasion = .ok (.value v) → suits v type
  suits_adapter : ∀ {m : Machine} {type : ValueType} {value v : Value} {occasion : Occasion} {scope : ScopeId},
    m.fit type value occasion = .ok (.adapter scope) → suits v type
  suits_initial : ∀ type : ValueType, suits type.initial type
  suits_object : ∀ v : Value, suits v .object
  frames : ∀ {w m id f}, upheld w m → m.store.arena.frame? id = some f → toRegime.admitsFrame w f
  items : ∀ {w m v}, upheld w m → ∀ n, v ∈ m.store.items n → admits w v
  adapters : ∀ {w m n a}, upheld w m → m.store.adapter? n = some a → reaches a.scope
  classes : ∀ {w m}, upheld w m → ∀ c ∈ m.classes.records, toRegime.admitsClass c
  pure : ∀ {b w α} {P : Stage → α → Prop} {a : α}, P w a → runs b w P fun _ => pure a
  unread : ∀ {b w α P} {d : Diagnostic}, blames (.text d) →
    runs b w P fun _ => (throw (.unread d) : Exec α)
  throw : ∀ {b w α P} {f : Failure}, (∀ files, f.Plain files) → runs b w P fun _ => (throw f : Exec α)
  widen : ∀ {b w α P} {x : ι → Exec α}, runs b w P x → runs true w P x
  imp : ∀ {b w α} {P Q : Stage → α → Prop} {x : ι → Exec α}, runs b w P x →
    (∀ w' a, later w w' → P w' a → Q w' a) → runs b w Q x
  bind : ∀ {b w α β P Q} {x : ι → Exec α}
    {f : ι → α → Exec β}, runs b w P x → (∀ w' a, later w w' → P w' a → runs b w' Q fun i => f i a) →
    runs b w Q fun i => x i >>= f i
  get : ∀ {b w β Q} {f : ι → Machine → Exec β},
    (∀ i m S, f i (m.onto S) = f i m) → (∀ m, upheld w m → runs b w Q fun i => f i m) →
    runs b w Q fun i => MonadState.get >>= f i
  onFailure : ∀ {b w α P} {x : ι → Exec α}
    {clean : Machine → Machine}, runs b w P x → Machine.Ebbing clean → runs b w P fun i => Exec.onFailure (x i) clean
  afterwards : ∀ {b w α P} {x : ι → Exec α}
    {clean : Machine → Machine}, runs b w P x → Machine.Ebbing clean → runs b w P fun i => Exec.afterwards (x i) clean
  mapFailure : ∀ {b w α P} {x : ι → Exec α} {f : Failure → Failure},
    runs b w P x → Running blames f → runs b w P fun i => Exec.mapFailure (x i) f
  inFrame : ∀ {b w α P} {x : ι → Exec α} (name : String)
    (kind : FrameKind) (parent : ScopeId) {discard : α → Machine → Machine}, runs true w P x →
    (∀ a, Machine.Ebbing (discard a)) → runs b w P fun i => Exec.inFrame name kind parent (x i) discard
  onStack : ∀ {b w α P} {x : ι → Exec α} (stack : List ScopeId),
    runs true w P x → runs b w P fun i => Exec.onStack stack (x i)
  deeper : ∀ {b w α P} {x : ι → Exec α} (name : String)
    (args : List Value), (∀ w', later w w' → runs b w' P x) → runs b w P fun i => Exec.deeper name args (x i)
  steadily : ∀ {b w P} {x : ι → Exec Flow}, runs b w P x → runs b w P fun i => Exec.steadily (x i)
  /-- Host code may call scripts through adapters. -/
  perform : ∀ {b w} {ev : ι → Evaluator} {step : HostStep} {action : Action},
    permits w step action → (∀ w' cell (a : Adapter) method args, reaches a.scope → toRegime.admitsAll w' args →
      toRegime.yieldsIf false w' fun i => (ev i).callAdapter cell a method args) →
    toRegime.yields b w fun i => (ev i).perform step action
  scope : ∀ {w : Stage}, toRegime.steps true w fun _ => Exec.scope
  setItem : ∀ {b w} {cell index : Nat} {element : ValueType} {v old : Value},
    admits w (.array cell element) → admits w v → suits v element → toRegime.steps b w fun _ =>
      (modify fun m => Machine.drop { m with store := m.store.setItem cell index v } old : Exec Unit)
  setAdapter : ∀ {b w} {cell : Nat} {a : Adapter}, reaches a.scope → toRegime.steps b w fun _ =>
    (modify fun m => { m with store := m.store.setContents cell (.adapter a) } : Exec Unit)
  modify : ∀ {b w} {f : Machine → Machine}, Tidy f → toRegime.steps b w fun _ => (modify f : Exec Unit)
  look : ∀ {b w α P} {f : Arena → Except ScopeId α},
    (∀ m : Machine, upheld w m → ∀ a, f m.store.arena = .ok a → P w a) → runs b w P fun _ => Exec.look f
  changeFrame : ∀ {b w α P} (id : ScopeId)
    {f : Frame → Frame × Option Value × α},
    (∀ g, toRegime.admitsFrame w g → toRegime.admitsFrame w (f g).1 ∧ P w (f g).2.2) →
    runs b w P fun _ => Exec.changeFrame id f
  hold : ∀ {b w} (id : ScopeId), toRegime.steps b w fun _ => Exec.hold id
  declare : ∀ {w : Stage} (name : String) (params : List Param) (returns : Option TypeName) (body : List Stmt),
    toRegime.steps true w fun _ => Exec.declare name params returns body
  makeArray : ∀ {b w} {element : ValueType} {items : List Value}, toRegime.admitsAll w items →
    (∀ v ∈ items, suits v element) → toRegime.yields b w fun _ => Exec.makeArray element items
  allocAdapter : ∀ {b w} {a : Adapter}, reaches a.scope →
    toRegime.steps b w fun _ => Exec.alloc (.adapter a)
  workingDirectory : ∀ {b w}, toRegime.steps b w fun _ => Exec.workingDirectory
  entryAt : ∀ {b w} (path : String), toRegime.steps b w fun _ => Exec.entryAt path

/-! ## Computations put together -/

namespace Regime.runs

variable {ι : Type} {D : Discipline ι} {b : Bool} {w : D.Stage} {α β : Type} {P : D.Stage → α → Prop}
  {Q : D.Stage → β → Prop} {x : ι → Exec α} {c : Prop} {y : ι → Exec α}

theorem bind {f : ι → α → Exec β} (hx : D.runs b w P x)
    (hf : ∀ w' a, D.later w w' → P w' a → D.runs b w' Q fun i => f i a) : D.runs b w Q fun i => x i >>= f i :=
  D.bind hx hf

theorem get {f : ι → Machine → Exec β} (hfree : ∀ i m S, f i (m.onto S) = f i m)
    (hf : ∀ m, D.upheld w m → D.runs b w Q fun i => f i m) : D.runs b w Q fun i => MonadState.get >>= f i :=
  D.get hfree hf

theorem afterwards {clean : Machine → Machine} (hx : D.runs b w P x) (hc : Machine.Ebbing clean) :
    D.runs b w P fun i => Exec.afterwards (x i) clean :=
  D.afterwards hx hc

theorem holding (hx : D.runs b w P x) (v : Value) : D.runs b w P fun i => Exec.holding v (x i) :=
  D.afterwards hx (Machine.ebbing_drop v)

theorem holdingAll (hx : D.runs b w P x) (vs : List Value) : D.runs b w P fun i => Exec.holdingAll vs (x i) :=
  D.afterwards hx (Machine.ebbing_dropAll vs)

theorem unlessFailed (hx : D.runs b w P x) (v : Value) : D.runs b w P fun i => Exec.unlessFailed v (x i) :=
  D.onFailure hx (Machine.ebbing_drop v)

theorem orDropAll (hx : D.runs b w P x) (vs : List Value) :
    D.runs b w P fun i => Exec.onFailure (x i) (·.dropAll vs) :=
  D.onFailure hx (Machine.ebbing_dropAll vs)

theorem locating (hx : D.runs b w P x) {span : Span} {node : Unit → String}
    (h : D.blames (.construct span (node ()))) : D.runs b w P fun i => Exec.locating span node (x i) :=
  D.mapFailure hx (.locate span node h)

theorem throughReference (hx : D.runs b w P x) : D.runs b w P fun i => Exec.throughReference (x i) :=
  D.mapFailure hx .dangle

/-- A step that goes one of two ways. -/
theorem ite [Decidable c] (hx : c → D.runs b w P x) (hy : ¬c → D.runs b w P y) :
    D.runs b w P fun i => if c then x i else y i := by
  by_cases hc : c
  · simp only [if_pos hc]
    exact hx hc
  · simp only [if_neg hc]
    exact hy hc

/-- A step that only fails, and only if a condition holds. -/
theorem guarded [Decidable c] {step : ι → Exec Unit} {f : ι → Unit → Exec α}
    (hstep : D.runs b w (fun _ _ => False) step) (hf : D.runs b w P fun i => f i ()) :
    D.runs b w P fun i => if c then step i >>= f i else f i () :=
  ite (fun _ => hstep.bind fun _ _ _ h => h.elim) fun _ => hf

/-- Several ways that end in the same way. -/
theorem shared (hy : ∀ w', D.runs b w' P y) (h : (∀ w', D.runs b w' P y) → D.runs b w P x) :
    D.runs b w P x :=
  h hy

end Regime.runs

end HostScript
