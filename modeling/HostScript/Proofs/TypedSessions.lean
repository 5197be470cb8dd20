import HostScript.Proofs.HostCalls
import HostScript.Proofs.TypedEvaluation

/-!
# Typed storage is sound

A host sets an interpreter up, evaluates in it, reads and writes variables, makes arrays, objects, namespaces and
adapters, calls back into scripts, and adds classes. It may hand back the values that it was handed. It plays by
the rules when its classes are faithful and when the arrays that it makes hold items of their element type
(`Request.Proper`). Then in every state that it gets to, every variable obeys its declared type and every array
that anyone can name holds what its element type says (`typed_storage_sound`).
-/

set_option autoImplicit false

namespace HostScript

namespace Evaluator

open Exec

variable {ev : Evaluator} (hev : ev.Typed) {τ : Layout}

include hev

/-- The stack is no matter of types, neither before a text runs nor after it. -/
theorem keeps_eval (hb : ev.Balanced) (text : String) (scope : ScopeId) :
    YieldsIf τ (do return some (← ev.eval text scope)) := by
  have htext : Yields τ (ev.runText (terminated text) none) := Discipline.runText _ none hev.free ()
  have heval : Yields τ (ev.eval text scope) := by
    refine ⟨fun m hm => ?_⟩
    let S := if m.stack.head? != some scope then scope :: m.stack else m.stack
    have hrun : ev.eval text scope m = onStack S (ev.runText (terminated text) none) m :=
      (evalLabelled_eq rfl (balanced_runText hb _ none (m.onto S)).keepsStack).trans (onStack_eq S _ m).symm
    rw [hrun]
    exact (Keeps.onStack S htext).kept m hm
  exact heval.bind fun _ v _ hv => keeps_pure (Value.Fits.some hv)

omit hev in
theorem keeps_parsePath (path : String) : KeepsTyped τ (parsePath path) := by
  unfold parsePath
  split
  · exact keeps_pure trivial
  · exact keeps_throw _

theorem keeps_reference (e : Expr) : Keeps τ typing.admitsPlace (ev.reference e) :=
  Discipline.reference e trivial (fun e' _ => hev.evaluates e') τ ()

theorem keeps_setPath (path : String) {value : Value} (hv : value.Fits τ) :
    KeepsTyped τ (ev.setPath path value) := by
  refine ((keeps_parsePath path).unlessFailed value).bind fun τ1 e h1 _ => ?_
  refine ((keeps_reference hev e).unlessFailed value).bind fun _ r h2 hr => ?_
  refine Keeps.afterwards ?_ (harmless_of_ebbing (Machine.ebbing_dropReference r))
  exact (Discipline.assign hev.calls hr ((hv.mono h1).mono h2) ()).bind fun _ v _ _ => keeps_drop v

theorem keeps_getPath (path : String) : YieldsIf τ (ev.getPath path) := by
  refine (keeps_parsePath path).bind fun τ1 e _ _ => (hev.expr τ1 e).bind fun _ v _ hv => ?_
  split
  · exact keeps_pure typing.admitsIf_none
  · exact keeps_pure (Value.Fits.some hv)

theorem keeps_unsetPath (path : String) : KeepsTyped τ (ev.unsetPath path) :=
  (keeps_parsePath path).bind fun _ e _ _ => (keeps_reference hev e).bind fun _ r _ _ =>
    typing.unsetReference (b := true) r _ ()

/-! ## The line loop -/

omit hev in
theorem harmless_resync : Harmless Machine.resync := by
  intro τ m hm
  unfold Machine.resync
  split
  · exact hm
  · exact hm.congr rfl rfl

theorem keeps_runTopUnit (unit : Stmt) : KeepsTyped τ (ev.runTopUnit unit) := by
  refine ((hev.stmt τ unit).afterwards harmless_resync).bind fun _ flow _ _ => ?_
  split
  · refine .get fun m _ => Keeps.afterwards ?_ (harmless_drop _)
    split
    · exact .textOf none _ fun _ => keeps_modify (.of_same (fun _ => rfl) fun _ => rfl)
    · exact keeps_pure trivial
  · exact keeps_throw _

omit hev in
theorem keeps_report (f : Failure) : KeepsTyped τ (report f) := by
  unfold report
  split
  · exact keeps_throw _
  · refine .get fun m _ => ?_
    split
    · exact keeps_modify (.of_same (fun _ => rfl) fun _ => rfl)
    · exact keeps_throw _

omit hev in
theorem keeps_reporting {x : Exec Unit} (hx : KeepsTyped τ x) : KeepsTyped τ (reporting x) := by
  refine ⟨fun m hm => ?_⟩
  have h := hx.kept m hm
  unfold reporting
  cases hr : x m with
  | ok u m' =>
    rw [hr] at h
    obtain ⟨τ', hτ, hm', -⟩ := h
    exact ⟨τ', hτ, hm', trivial⟩
  | error f m' =>
    rw [hr] at h
    obtain ⟨τ', hτ, hm'⟩ := h
    have hreport : KeepsTyped τ' (do report f; return false : Exec Bool) :=
      (keeps_report f).bind fun _ _ _ _ => keeps_pure trivial
    exact (hreport.kept m' hm').extend hτ

theorem keeps_runAllUnits (units : List Stmt) : ∀ τ : Layout, KeepsTyped τ (ev.runAllUnits units) := by
  induction units with
  | nil => exact fun τ => keeps_pure trivial
  | cons unit rest ih =>
    intro τ
    refine (keeps_reporting (keeps_runTopUnit hev unit)).bind fun τ1 done _ _ => ?_
    split
    · exact ih τ1
    · exact keeps_pure trivial

theorem keeps_drain (text : String) (atEnd : Bool) : KeepsTyped τ (ev.drain text atEnd) := by
  refine (keeps_runAllUnits hev _ τ).bind fun _ done _ _ => ?_
  split
  · split
    · exact keeps_pure trivial
    · exact keeps_pure trivial
    · exact (keeps_report _).bind fun _ _ _ _ => keeps_pure trivial
  · exact keeps_pure trivial

theorem keeps_endInput (buffer : String) : KeepsTyped τ (ev.endInput buffer) := by
  unfold endInput
  split
  · exact (keeps_drain hev buffer true).bind fun _ _ _ _ => keeps_pure trivial
  · exact keeps_pure trivial

theorem keeps_runLines {noted : Exec Unit} (hn : ∀ τ, KeepsTyped τ noted)
    (lines : List (Except FileError String)) : ∀ (τ : Layout) (buffer : String),
      KeepsTyped τ (ev.runLines noted buffer lines) := by
  have hprompt : ∀ buffer (τ : Layout), KeepsTyped τ (prompt buffer) :=
    fun buffer τ => keeps_modify (.of_same (fun _ => rfl) fun _ => rfl)
  induction lines with
  | nil =>
    exact fun τ buffer => (hprompt buffer τ).bind fun τ1 _ _ _ => (hn τ1).bind
      fun _ _ _ _ => keeps_endInput hev buffer
  | cons line rest ih =>
    intro τ buffer
    refine (hprompt buffer τ).bind fun τ1 _ _ _ => (hn τ1).bind fun _ _ _ _ => ?_
    cases line with
    | error cause => exact keeps_throw _
    | ok line => exact (keeps_drain hev _ false).bind fun τ3 buffer _ _ => ih τ3 buffer

end Evaluator

/-! ## Requests -/

/-- What a host asks an interpreter for. -/
inductive Request where
  | call (call : HostCall)
  /-- Evaluates a single expression in the current frame. -/
  | evaluate (e : Expr)
  /-- Runs a single statement in the current frame. -/
  | run (s : Stmt)
  /-- Runs a line loop. -/
  | lines (lines : List (Except FileError String))
  /-- Calls a method of an adapter. -/
  | callBack (target : Value) (method : String) (args : List Value)
  | makeArray (element : ValueType) (items : List Value)
  | makeObject (object : HostObject)
  | makeAdapter (scope : ScopeId) (interfaces : List String)
  | child (scope : ScopeId) (name : String)
  | bindObject (scope : ScopeId) (cell : Nat) (className : String)
  | removeMethod (scope : ScopeId) (name : String)
  | copy (v : Value)
  | drop (v : Value)
  | register (c : HostClass)
  | setLoader (classes : List HostClass)

namespace Request

open Exec

/-- Carries out a request; the values are what the host is handed. -/
def exec (allowance : Nat) : Request → Exec (List Value)
  | .call c => do return (← c.exec allowance).toList
  | .evaluate e => do return [← evalExpr allowance e]
  | .run s => do return (← evalStmt allowance s).value?.toList
  | .lines ls => do
    (evaluator allowance).runLines (pure ()) "" ls
    return []
  | .callBack target method args => do
    match ← (evaluator allowance).callBack target method args with
    | .answered found => return found.toList
    | _ => return []
  | .makeArray element items => do return [← Exec.makeArray element items]
  | .makeObject object => do return [.host (← alloc (.host object)) object.className]
  | .makeAdapter scope interfaces => do return [← Exec.makeAdapter scope interfaces]
  | .child scope name => do
    let _ ← Exec.child scope name
    return []
  | .bindObject scope cell className => do
    Exec.bindObject scope cell className
    return []
  | .removeMethod scope name => do
    let _ ← Exec.removeMethod scope name
    return []
  | .copy v => do return [← Exec.copy v]
  | .drop v => do
    Exec.drop v
    return []
  | .register c => do
    modify fun m => { m with classes := m.classes.register c }
    return []
  | .setLoader classes => do
    modify fun m => { m with classes := m.classes.setLoader classes }
    return []

/-- The values that a request hands over. -/
def values : Request → List Value
  | .call (.write _ value) => [value]
  | .callBack _ _ args => args
  | .makeArray _ items => items
  | .makeObject object => object.slots.values ++ object.items
  | .copy v => [v]
  | _ => []

/-- A request by the rules: arrays that are handed over are in the hands of the host, a new array holds
items of its element type, and new classes are faithful. -/
structure Proper (held : List Value) (r : Request) : Prop where
  values : ∀ v ∈ r.values, v ∈ held ∨ ∀ cell element, v ≠ .array cell element
  items : ∀ element items, r = .makeArray element items → ∀ v ∈ items, v.Obeys element
  register : ∀ c, r = .register c → c.Faithful
  loader : ∀ classes, r = .setLoader classes → ∀ c ∈ classes, c.Faithful

/-- An expression hands over no values of the host. -/
theorem proper_evaluate (held : List Value) (e : Expr) : (Request.evaluate e).Proper held :=
  ⟨fun _ hv => absurd hv List.not_mem_nil, fun _ _ h => absurd h (by simp),
    fun _ h => absurd h (by simp), fun _ h => absurd h (by simp)⟩

theorem proper_run (held : List Value) (s : Stmt) : (Request.run s).Proper held :=
  ⟨fun _ hv => absurd hv List.not_mem_nil, fun _ _ h => absurd h (by simp),
    fun _ h => absurd h (by simp), fun _ h => absurd h (by simp)⟩

/-! ## Requests keep the machine typed -/

variable {τ : Layout}

theorem keeps_child (scope : ScopeId) (name : String) : KeepsTyped τ (Exec.child scope name) :=
  (keeps_frame scope).bind fun τ1 _ _ _ => ⟨fun m hm =>
    ⟨τ1, List.prefix_rfl, (harmless_settle τ1 m hm).create name .call (some scope), trivial⟩⟩

theorem keeps_bindObject (scope : ScopeId) (cell : Nat) (className : String) :
    KeepsTyped τ (Exec.bindObject scope cell className) :=
  (keeps_changeFrame scope fun _ hg => ⟨hg, trivial⟩).unlessFailed _

theorem keeps_removeMethod (scope : ScopeId) (name : String) :
    KeepsTyped τ (Exec.removeMethod scope name) := by
  refine ⟨fun m hm => ?_⟩
  have hs := harmless_settle τ m hm
  unfold Exec.removeMethod Arena.removeMethod
  dsimp only
  cases hf : m.settle.store.arena.frame? scope with
  | none => exact ⟨τ, List.prefix_rfl, hs⟩
  | some f =>
    have hset := hs.setFrame hf (g := { f with methods := f.methods.erase name }) (hs.frames scope f hf)
    dsimp only
    by_cases hn : f.methods.contains name
    · rw [if_pos hn]
      exact ⟨τ, List.prefix_rfl, ⟨hset.size, hset.frames, hset.cells, hset.classes⟩, trivial⟩
    · rw [if_neg hn]
      exact ⟨τ, List.prefix_rfl, hs, trivial⟩

theorem keeps_call (allowance : Nat) (call : HostCall) (h : FitAll τ (Request.call call).values) :
    YieldsIf τ (call.exec allowance) := by
  have hev := typed_evaluator allowance
  have hb := balanced_evaluator allowance
  cases call with
  | eval text => exact Keeps.get fun m _ => Evaluator.keeps_eval hev hb text m.global
  | evalIn scope text => exact Evaluator.keeps_eval hev hb text scope
  | source scope path =>
    exact (Discipline.runFile path scope hev.free ()).bind fun _ v _ hv => keeps_pure (Value.Fits.some hv)
  | write path value =>
    exact (Evaluator.keeps_setPath hev path (fits_of_fitAll h)).bind
      fun _ _ _ _ => keeps_pure typing.admitsIf_none
  | read path => exact Evaluator.keeps_getPath hev path
  | remove path =>
    exact (Evaluator.keeps_unsetPath hev path).bind fun _ _ _ _ => keeps_pure typing.admitsIf_none
  | unit s =>
    exact (Evaluator.keeps_runTopUnit hev s).bind fun _ _ _ _ => keeps_pure typing.admitsIf_none

/-- **Every request by the rules keeps the machine typed**, and what the host is handed fits. -/
theorem keeps_exec (allowance : Nat) {r : Request} {held : List Value} (hr : r.Proper held)
    (hheld : FitAll τ held) : Keeps τ (fun τ' vs => FitAll τ' vs) (r.exec allowance) := by
  have hev := typed_evaluator allowance
  have hvalues : FitAll τ r.values := by
    intro v hv
    rcases hr.values v hv with hin | hno
    · exact hheld v hin
    · exact Value.fits_of_ne_array hno
  cases r with
  | call c =>
    refine (keeps_call allowance c hvalues).bind fun _ found _ h => keeps_pure ?_
    cases found with
    | none => exact fitAll_nil
    | some v => exact fitAll_singleton (h v rfl)
  | evaluate e => exact (hev.expr τ e).bind fun _ v _ hv => keeps_pure (fitAll_singleton hv)
  | run s =>
    refine (hev.stmt τ s).bind fun _ flow _ h => keeps_pure ?_
    cases flow with
    | normal v | returned v => exact fitAll_singleton h
    | broke | continued => exact fitAll_nil
  | lines ls =>
    exact (Evaluator.keeps_runLines hev (fun τ => keeps_pure trivial) ls τ "").bind
      fun _ _ _ _ => keeps_pure fitAll_nil
  | callBack target method args =>
    refine (Evaluator.keeps_callBack (fun _ cell a method _ => hev.callAdapter cell a method) target method
      hvalues).bind fun _ reply _ hreply => ?_
    split
    · rename_i found
      cases found with
      | none => exact keeps_pure fitAll_nil
      | some v => exact keeps_pure (fitAll_singleton (hreply v rfl))
    · exact keeps_pure fitAll_nil
  | makeArray element items =>
    exact (keeps_makeArray element hvalues (hr.items element items rfl)).bind
      fun _ v _ hv => keeps_pure (fitAll_singleton hv)
  | makeObject object =>
    have hcontents : (Contents.host object).Fits τ none := hvalues
    exact (keeps_alloc none hcontents).bind fun _ _ _ _ => keeps_pure (fitAll_singleton trivial)
  | makeAdapter scope interfaces =>
    exact (typing.makeAdapter (b := true) interfaces trivial ()).bind
      fun _ v _ hv => keeps_pure (fitAll_singleton hv)
  | child scope name => exact (keeps_child scope name).bind fun _ _ _ _ => keeps_pure fitAll_nil
  | bindObject scope cell className =>
    exact (keeps_bindObject scope cell className).bind fun _ _ _ _ => keeps_pure fitAll_nil
  | removeMethod scope name =>
    exact (keeps_removeMethod scope name).bind fun _ _ _ _ => keeps_pure fitAll_nil
  | copy v =>
    exact (keeps_copy (fits_of_fitAll hvalues)).bind fun _ v _ hv => keeps_pure (fitAll_singleton hv)
  | drop v => exact (keeps_drop v).bind fun _ _ _ _ => keeps_pure fitAll_nil
  | register c =>
    refine .change (fun m hm => ?_) (keeps_pure fitAll_nil)
    exact ⟨hm.size, hm.frames, hm.cells, hm.classes.register (hr.register c rfl)⟩
  | setLoader classes =>
    refine .change (fun m hm => ?_) (keeps_pure fitAll_nil)
    exact ⟨hm.size, hm.frames, hm.cells, hm.classes.setLoader (hr.loader classes rfl)⟩

end Request

/-! ## States that a host gets to -/

namespace Arena

variable {τ : Layout} {a : Arena}

theorem Fits.adjust (h : a.Fits τ) (id : ScopeId) {change : Frame → Frame}
    (hc : ∀ f, f.Fits τ → (change f).Fits τ) : (a.adjust id change).Fits τ := by
  unfold Arena.adjust
  cases hf : a.frame? id with
  | none => exact h
  | some f => exact h.setFrame hf (hc f (h id f hf))

/-- A variable without a type may hold any value that fits. -/
theorem fits_setVariable {f : Frame} (hf : f.Fits τ) (name : String) {v : Value} (hv : v.Fits τ) :
    (f.setVariable name ⟨v, none⟩).Fits τ := by
  intro e he
  rcases Table.mem_put he with rfl | he
  · exact ⟨hv, fun type ht => absurd ht (Option.some_ne_none type).symm⟩
  · exact hf e he

theorem fits_initial (config : Config) (directory : String) :
    (Arena.initial config directory).2.2.Fits τ := by
  have hempty : ({} : Arena).Fits τ := fun id f hf => absurd hf (by simp [Arena.frame?])
  have hsystem := ((hempty.create "global" .root none).create "utilities" .root none).create
    "system" .root none
  refine Fits.adjust (.adjust (.adjust (hsystem.fades (fades_retain _ _)) _ ?_) _ ?_) _ ?_
  · exact fun f hf => fits_setVariable hf _ trivial
  · exact fun f hf => fits_setVariable hf _ trivial
  · exact fun f hf => fits_setVariable hf _ trivial

end Arena

/-- An interpreter and the values in the hands of its host. -/
structure Embedding where
  machine : Machine
  held : List Value := []

namespace Embedding

variable {e : Embedding}

/-- What a request leaves; the host holds on to what it was handed before. -/
def after (allowance : Nat) (r : Request) (e : Embedding) : Embedding :=
  match r.exec allowance e.machine with
  | .ok handed m => ⟨m, handed ++ e.held⟩
  | .error _ m => ⟨m, e.held⟩

/-- An interpreter that has run nothing yet. -/
def start (config : Config) (files : Files) (directory : String) (input : List String)
    (classes : Classes) : Embedding :=
  { machine := { Machine.initial config files directory input with classes } }

/-- A state that a host can get to by the rules. -/
inductive Reachable : Embedding → Prop
  | start (config : Config) (files : Files) (directory : String) (input : List String)
      {classes : Classes} : classes.Faithful → Reachable (start config files directory input classes)
  | step {e : Embedding} (allowance : Nat) {r : Request} : Reachable e → r.Proper e.held →
      Reachable (e.after allowance r)

/-- There is a layout that everything fits. -/
def Typed (e : Embedding) : Prop := ∃ τ, e.machine.Typed τ ∧ FitAll τ e.held

theorem Typed.after (h : e.Typed) (allowance : Nat) {r : Request} (hr : r.Proper e.held) :
    (e.after allowance r).Typed := by
  obtain ⟨τ, hm, hheld⟩ := h
  have hkept := (Request.keeps_exec allowance hr hheld).kept e.machine hm
  unfold Embedding.after
  cases hx : r.exec allowance e.machine with
  | ok handed m =>
    rw [hx] at hkept
    obtain ⟨τ', hτ, hm', hhanded⟩ := hkept
    exact ⟨τ', hm', fitAll_append.2 ⟨hhanded, hheld.mono hτ⟩⟩
  | error f m =>
    rw [hx] at hkept
    obtain ⟨τ', hτ, hm'⟩ := hkept
    exact ⟨τ', hm', hheld.mono hτ⟩

theorem typed_start (config : Config) (files : Files) (directory : String) (input : List String)
    {classes : Classes} (hc : classes.Faithful) :
    (start config files directory input classes).Typed := by
  refine ⟨[], ⟨rfl, Arena.fits_initial config directory, fun n c hn => ?_, hc⟩, fitAll_nil⟩
  simp [start, Machine.initial, Store.cell?] at hn

/-- Everything that a host gets to fits a layout. -/
theorem Reachable.typed (h : e.Reachable) : e.Typed := by
  induction h with
  | start config files directory input hc => exact typed_start config files directory input hc
  | step allowance _ hr ih => exact ih.after allowance hr

end Embedding

/-! ## Sound storage -/

/-- A value is stored in a variable, in an array, or in a host object. -/
inductive Machine.Stores (m : Machine) : Value → Prop
  | inFrame {id : ScopeId} {f : Frame} {name : String} {x : Variable} :
      m.store.arena.frame? id = some f → (name, x) ∈ f.vars.entries → Stores m x.value
  | inArray {n owners : Nat} {items : Array Value} {v : Value} :
      m.store.cell? n = some ⟨.array items, owners⟩ → v ∈ items → Stores m v
  | inObject {n owners : Nat} {object : HostObject} {v : Value} :
      m.store.cell? n = some ⟨.host object, owners⟩ → v ∈ object.slots.values ++ object.items →
      Stores m v

theorem Machine.Typed.fits_of_stores {τ : Layout} {m : Machine} {v : Value} (h : m.Typed τ)
    (hv : m.Stores v) : v.Fits τ := by
  cases hv with
  | inFrame hf hx => exact (h.frames _ _ hf _ hx).value
  | inArray hc hv => exact (h.cells _ _ hc _ hv).1
  | inObject hc hv => exact h.cells _ _ hc _ hv

/-- Every variable obeys its declared type, and every array that is stored or in the hands of the host
holds items that obey its element type. -/
structure Embedding.SoundStorage (e : Embedding) : Prop where
  declared : ∀ id f name x type, e.machine.store.arena.frame? id = some f →
    (name, x) ∈ f.vars.entries → x.declared = some type → x.value.Obeys type
  arrays : ∀ cell element, .array cell element ∈ e.held ∨ e.machine.Stores (.array cell element) →
    ∀ v ∈ e.machine.store.items cell, v.Obeys element

theorem Embedding.Typed.soundStorage {e : Embedding} (h : e.Typed) : e.SoundStorage := by
  obtain ⟨τ, hm, hheld⟩ := h
  refine ⟨fun id f name x type hf hx ht => ?_, fun cell element hnamed v hv => ?_⟩
  · exact (hm.frames id f hf (name, x) hx).declared type ht
  · -- whoever names the array, the layout has its element type
    have hcell : (Value.array cell element).Fits τ := hnamed.elim (hheld _) hm.fits_of_stores
    exact (hm.items cell v hv).2 element hcell

/-- **Typed storage is sound.** In every state that a host gets to by the rules, a variable declared with a
primitive type holds a primitive of exactly that kind, one declared as a text holds a text or null, and one
declared as an array of primitives holds null or an array of exactly that element type; and every array of
primitives holds primitives of exactly its kind. The same is true of any state that fits a layout, and
evaluating an expression or running a statement leaves such a state again, whether it succeeds or fails. -/
theorem typed_storage_sound :
    (∀ e : Embedding, e.Reachable → e.Typed) ∧
    (∀ e : Embedding, e.Typed → e.SoundStorage) ∧
    ∀ (allowance : Nat) (e : Embedding), e.Typed → (∀ expr, (e.after allowance (.evaluate expr)).Typed) ∧
      ∀ s, (e.after allowance (.run s)).Typed :=
  ⟨fun _ h => h.typed, fun _ h => h.soundStorage, fun allowance e h =>
    ⟨fun expr => h.after allowance (Request.proper_evaluate e.held expr),
      fun s => h.after allowance (Request.proper_run e.held s)⟩⟩

/-- `byte x = 127;` -/
def declareByte : Stmt :=
  .declaration ⟨0, 13⟩ { name := "byte" }
    [{ name := "x", initializer := some (.literal ⟨9, 12⟩ (.number (.int 127))), span := ⟨5, 12⟩ }]

/-- `x += 1;` -/
def addToByte : Stmt :=
  .expr ⟨14, 21⟩ (.assign ⟨14, 20⟩ (.name ⟨14, 15⟩ "x") (some .add)
    (.literal ⟨19, 20⟩ (.number (.int 1))))

/-- A state in which a variable of type `byte` was declared and added to. -/
def byteState : Embedding :=
  ((Embedding.start {} ⟨fun _ => .directory⟩ "w" [] (Lang.classes.foldl Classes.register {})).after 9
    (.run declareByte)).after 9 (.run addToByte)

/-- The sum is an `int`, and it goes back into the variable as a `byte`. -/
theorem byte_variable_stays_byte :
    byteState.Reachable ∧ byteState.SoundStorage ∧
      (byteState.machine.store.arena.frame? ⟨0, 0⟩).bind (fun f => f.vars.get? "x") =
        some ⟨.primitive (.byte (-128)), some (.primitive .byte)⟩ := by
  have hreach : byteState.Reachable :=
    .step 9 (.step 9 (.start _ _ _ _ Lang.faithful_classes) (Request.proper_run _ declareByte))
      (Request.proper_run _ addToByte)
  exact ⟨hreach, typed_storage_sound.2.1 _ (typed_storage_sound.1 _ hreach), rfl⟩

end HostScript
