import HostScript.Proofs.Confinement

/-!
# Plain computations

A computation is plain when it neither looks at the call stack nor evaluates anything nor runs host code: on
any stack it does the same (`Plain.free`), it changes nothing of the machine but store and console, it leaves
host objects alone, it does not use up an allowance, and it keeps a confined machine confined (`Plain.ends`).
-/

set_option autoImplicit false

namespace HostScript

variable {m m' : Machine}

/-- The machine with another call stack. -/
def Machine.onto (m : Machine) (stack : List ScopeId) : Machine := { m with stack }

theorem Machine.restack_push (m : Machine) (id : ScopeId) : (m.restack (.push id)).2 = m.onto (id :: m.stack) := rfl

theorem Machine.restack_pop (m : Machine) : m.restack .pop = (m.stack.head?, m.onto m.stack.tail) := rfl

theorem Machine.settle_onto (m : Machine) (S : List ScopeId) : (m.onto S).settle = m.settle.onto S := by
  rw [settle_eq, settle_eq]
  rfl

theorem Machine.Confined.onto {ok : Bounds} (h : m.Confined ok) (S : List ScopeId) :
    (m.onto S).Confined ok :=
  h.congr rfl rfl

/-- A failure that a plain computation can end with: a fault that no construct is blamed for yet, a frame that is
missing, the wish for a file that nobody has looked at, or a text without end. -/
def Failure.Plain (files : Files) : Failure → Prop
  | .fault _ place => place.span = none ∧ place.node = none
  | .broken (.outOfStep _) | .broken (.depthChanged ..) => False
  | .broken _ => True
  | .stopped (.fileNeeded path) => files.entry path = .unknown
  | .stopped .endless => True
  | _ => False

theorem Failure.Plain.inStep {files : Files} : ∀ {f : Failure}, f.Plain files → f.InStep
  | .fault .., _ | .stopped _, _ => trivial
  | .broken .emptyStack, _ | .broken (.staleFrame _), _ | .broken (.danglingReference _), _ => trivial

/-! ## Host objects -/

namespace Store

variable {s s' s'' : Store}

/-- Host objects are as they were, apart from those that are gone. -/
def Undisturbed (s s' : Store) : Prop := ∀ n o, s'.host? n = some o → s.host? n = some o

theorem Undisturbed.refl (s : Store) : s.Undisturbed s := fun _ _ h => h

theorem Undisturbed.trans (h : s.Undisturbed s') (h' : s'.Undisturbed s'') : s.Undisturbed s'' :=
  fun n o ho => h n o (h' n o ho)

theorem Ebbs.undisturbed (h : s.Ebbs s') : s.Undisturbed s' := by
  intro n o ho
  obtain ⟨c, hc, hcontents⟩ := host?_eq_some_iff.1 ho
  obtain ⟨c0, hc0, hcc⟩ := h.cells n c hc
  rw [hcc] at hcontents
  exact host?_eq_some_iff.2 ⟨c0, hc0, hcontents⟩

/-- Cells may change if none of them becomes a host object. -/
theorem undisturbed_modifyCell (s : Store) (n : Nat) {change : Cell → Cell}
    (h : ∀ c o, (change c).contents = .host o → c.contents = .host o) : s.Undisturbed (s.modifyCell n change) := by
  intro k o ho
  obtain ⟨c, hc, hcontents⟩ := host?_eq_some_iff.1 ho
  rcases cell?_of_modifyCell hc with ⟨c0, -, hc0, rfl⟩ | ⟨-, hc⟩
  · exact host?_eq_some_iff.2 ⟨c0, hc0, h c0 o hcontents⟩
  · exact host?_eq_some_iff.2 ⟨c, hc, hcontents⟩

theorem undisturbed_setItem (s : Store) (n index : Nat) (v : Value) : s.Undisturbed (s.setItem n index v) := by
  refine s.undisturbed_modifyCell n fun c o h => ?_
  obtain ⟨contents, owners⟩ := c
  cases contents with
  | array items => cases h
  | host object => exact h
  | adapter a => cases h

theorem undisturbed_alloc (s : Store) {contents : Contents} (h : ∀ o, contents ≠ .host o) :
    s.Undisturbed (s.alloc contents).2 := by
  intro n o ho
  obtain ⟨c, hc, hcontents⟩ := host?_eq_some_iff.1 ho
  rcases cell?_of_alloc hc with ⟨-, rfl⟩ | ⟨-, hc⟩
  · exact absurd hcontents (h o)
  · exact host?_eq_some_iff.2 ⟨c, hc, hcontents⟩

end Store

/-- One machine differs from another in its store and its console only, and host objects are as they were. -/
structure Machine.Calm (m m' : Machine) : Prop extends m.Alike m' where
  hosts : m.store.Undisturbed m'.store
  journal : m'.journal = m.journal

namespace Machine.Calm

variable {m'' : Machine}

theorem refl (m : Machine) : m.Calm m := ⟨.refl m, .refl _, rfl⟩

theorem trans (h : m.Calm m') (h' : m'.Calm m'') : m.Calm m'' :=
  ⟨h.toAlike.trans h'.toAlike, h.hosts.trans h'.hosts, h'.journal.trans h.journal⟩

theorem ofStore (m : Machine) {s : Store} (h : m.store.Undisturbed s) : m.Calm { m with store := s } :=
  ⟨.ofStore m s, h, rfl⟩

end Machine.Calm

theorem Machine.Ebbing.journal {f : Machine → Machine} (hf : Machine.Ebbing f) (m : Machine) :
    (f m).journal = m.journal := by
  obtain ⟨g, -, hg⟩ := hf
  rw [hg]

/-- A machine that is left when another has been looked at: queued releases may have been applied. -/
inductive Machine.Rests (m : Machine) : Machine → Prop
  | same : m.Rests m
  | settle {m' : Machine} (h : m.Rests m') : m.Rests m'.settle

theorem Machine.Rests.trans {m'' : Machine} (h : m.Rests m') (h' : m'.Rests m'') : m.Rests m'' := by
  induction h' with
  | same => exact h
  | settle _ ih => exact ih.settle

theorem Machine.Rests.alike (h : m.Rests m') : m.Alike m' := by
  induction h with
  | same => exact .refl m
  | settle _ ih => exact ih.trans (.settle _)

theorem Machine.Rests.ebbs (h : m.Rests m') : m.store.Ebbs m'.store := by
  induction h with
  | same => exact .refl _
  | settle _ ih => exact ih.trans (ebbing_settle.ebbs _)

theorem Machine.Rests.eq_self (h : m.Rests m') (hm : m.store.arena.dropped = []) : m' = m := by
  induction h with
  | same => rfl
  | settle _ ih => rw [ih, settle_of_settled hm]

/-- Nothing is queued when the queued releases have been applied. -/
theorem Machine.dropped_settle (m : Machine) : m.settle.store.arena.dropped = [] := by
  unfold settle
  split
  · next h => exact List.isEmpty_iff.1 h
  · exact (Store.settled_of_loop (P := fun _ => True) (fun _ _ => trivial) m.store.settle_loop trivial).2

theorem Machine.Rests.settle_eq (h : m.Rests m') : m'.settle = m.settle := by
  induction h with
  | same => rfl
  | settle _ ih => rw [ih, settle_of_settled m.dropped_settle]

namespace Exec

variable {α β : Type} {ok : Bounds} {P Q : α → Prop} {x : Exec α} {path : String} {id : ScopeId}
  {contents : Contents} {f : Machine → Machine} {F : Files → Failure → Prop}

/-! ## Ends -/

/-- An end with the machine changed. -/
def mapEnd (f : Machine → Machine) : Exec.Result α → Exec.Result α
  | .ok a m => .ok a (f m)
  | .error e m => .error e (f m)

/-- An end in a confined machine like the one before, with a result or a failure of a kind. -/
def EndsIn (ok : Bounds) (F : Files → Failure → Prop) (P : α → Prop) (m : Machine) : Exec.Result α → Prop
  | .ok a m' => m.Alike m' ∧ m'.Confined ok ∧ P a
  | .error f m' => m.Alike m' ∧ m'.Confined ok ∧ F m.files f

namespace EndsIn

variable {G : Files → Failure → Prop} {m0 : Machine}

theorem imp (hP : ∀ a, P a → Q a) (hF : ∀ f, F m.files f → G m.files f) :
    ∀ {r : Exec.Result α}, EndsIn ok F P m r → EndsIn ok G Q m r
  | .ok a _, ⟨ha, hc, hp⟩ => ⟨ha, hc, hP a hp⟩
  | .error f _, ⟨ha, hc, hf⟩ => ⟨ha, hc, hF f hf⟩

theorem after (h : m.Alike m0) :
    ∀ {r : Exec.Result α}, EndsIn ok F P m0 r → EndsIn ok F P m r
  | .ok _ _, ⟨ha, hc, hp⟩ => ⟨h.trans ha, hc, hp⟩
  | .error _ _, ⟨ha, hc, hf⟩ => ⟨h.trans ha, hc, h.files ▸ hf⟩

theorem bind {R : β → Prop} {f : α → Exec β} (hx : EndsIn ok F P m (x m))
    (hf : ∀ a m', P a → m.Alike m' → m'.Confined ok → EndsIn ok F R m' (f a m')) :
    EndsIn ok F R m ((x >>= f) m) :=
  bind_ends hx (fun a m' h => (hf a m' h.2.2 h.1 h.2.1).after h.1) fun _ _ h => h

end EndsIn

/-- An end as before, with all host objects as they were. -/
def CalmEnd (ok : Bounds) (F : Files → Failure → Prop) (P : α → Prop) (m : Machine) : Exec.Result α → Prop
  | .ok a m' => m.Calm m' ∧ m'.Confined ok ∧ P a
  | .error f m' => m.Calm m' ∧ m'.Confined ok ∧ F m.files f

theorem CalmEnd.endsIn :
    ∀ {r : Exec.Result α}, CalmEnd ok F P m r → EndsIn ok F P m r
  | .ok _ _, ⟨ha, hc, hp⟩ => ⟨ha.toAlike, hc, hp⟩
  | .error _ _, ⟨ha, hc, hf⟩ => ⟨ha.toAlike, hc, hf⟩

theorem CalmEnd.imp {G : Files → Failure → Prop} (hP : ∀ a, P a → Q a)
    (hF : ∀ f, F m.files f → G m.files f) :
    ∀ {r : Exec.Result α}, CalmEnd ok F P m r → CalmEnd ok G Q m r
  | .ok a _, ⟨ha, hc, hp⟩ => ⟨ha, hc, hP a hp⟩
  | .error f _, ⟨ha, hc, hf⟩ => ⟨ha, hc, hF f hf⟩

/-- How a plain computation that started in a machine can end. -/
abbrev PlainEnd (ok : Bounds) (P : α → Prop) (m : Machine) : Exec.Result α → Prop :=
  CalmEnd ok Failure.Plain P m

/-- A computation that does the same on any stack, without evaluating anything. -/
structure Plain (ok : Bounds) (P : α → Prop) (x : Exec α) : Prop where
  free : ∀ (m : Machine) S, m.Confined ok → x (m.onto S) = mapEnd (·.onto S) (x m)
  ends : ∀ m : Machine, m.Confined ok → PlainEnd ok P m (x m)

/-- A step of host code: like a plain computation, but it may change host objects. -/
structure Local (ok : Bounds) (P : α → Prop) (x : Exec α) : Prop where
  free : ∀ (m : Machine) S, m.Confined ok → x (m.onto S) = mapEnd (·.onto S) (x m)
  ends : ∀ m : Machine, m.Confined ok → EndsIn ok Failure.Plain P m (x m)

theorem Plain.toLocal (hx : Plain ok P x) : Local ok P x := ⟨hx.free, fun m hm => (hx.ends m hm).endsIn⟩

/-- A plain computation about whose result nothing is said. -/
abbrev PlainStep (ok : Bounds) (x : Exec α) : Prop := Plain ok (fun _ => True) x

/-- A plain computation whose value is confined. -/
abbrev PlainValue (ok : Bounds) (x : Exec Value) : Prop := Plain ok (·.Confined ok) x

theorem scope_of_cons {rest : List ScopeId} (h : m.stack = id :: rest) : scope m = .ok id m := by
  cases m
  subst h
  rfl

theorem scope_of_nil (h : m.stack = []) : scope m = .error (.broken .emptyStack) m := by
  cases m
  subst h
  rfl

/-! ## Changes of the machine -/

/-- A change of a machine that does the same on any stack and keeps it confined. -/
structure Change (ok : Bounds) (f : Machine → Machine) : Prop where
  free : ∀ (m : Machine) S, f (m.onto S) = (f m).onto S
  calm : ∀ m : Machine, m.Calm (f m)
  confined : ∀ m : Machine, m.Confined ok → (f m).Confined ok

theorem Change.alike (hf : Change ok f) (m : Machine) : m.Alike (f m) := (hf.calm m).toAlike

theorem Change.trans {g : Machine → Machine} (hf : Change ok f) (hg : Change ok g) :
    Change ok fun m => g (f m) where
  free m S := by rw [hf.free, hg.free]
  calm m := (hf.calm m).trans (hg.calm _)
  confined m hm := hg.confined _ (hf.confined m hm)

/-- A change of the store that nothing comes in by. -/
theorem change_of_ebbing (hf : Machine.Ebbing f) : Change ok f := by
  refine ⟨fun m S => ?_, fun m => ⟨hf.alike m, (hf.ebbs m).undisturbed, hf.journal m⟩, fun m hm => ?_⟩ <;>
    obtain ⟨g, hebbs, hg⟩ := hf
  · rw [hg, hg]
    rfl
  · rw [hg]
    exact hm.ebbs (hebbs _)

theorem change_drop (v : Value) : Change ok (·.drop v) := change_of_ebbing (Machine.ebbing_drop v)

theorem change_settle : Change ok Machine.settle := change_of_ebbing Machine.ebbing_settle

theorem calm_settle (m : Machine) : m.Calm m.settle := (change_settle : Change .all Machine.settle).calm m

/-! ## Putting computations together -/

theorem plain_pure {a : α} (h : P a) : Plain ok P (pure a) :=
  ⟨fun _ _ _ => rfl, fun m hm => ⟨.refl m, hm, h⟩⟩

theorem plain_throw {f : Failure} (hf : ∀ files, f.Plain files) : Plain ok P (throw f : Exec α) :=
  ⟨fun _ _ _ => rfl, fun m hm => ⟨.refl m, hm, hf m.files⟩⟩

theorem plain_fault (cause : Fault) : Plain ok P (fault cause : Exec α) :=
  plain_throw fun _ => ⟨rfl, rfl⟩

theorem PlainEnd.after {m' : Machine} (h : m.Calm m') :
    ∀ {r : Exec.Result α}, PlainEnd ok P m' r → PlainEnd ok P m r
  | .ok _ _, ⟨ha, hc, hp⟩ => ⟨h.trans ha, hc, hp⟩
  | .error _ _, ⟨ha, hc, hf⟩ => ⟨h.trans ha, hc, h.files ▸ hf⟩

theorem Plain.bind {Q : β → Prop} {f : α → Exec β} (hx : Plain ok P x)
    (hf : ∀ a, P a → Plain ok Q (f a)) : Plain ok Q (x >>= f) := by
  refine ⟨fun m S hm => ?_, fun m hm => ?_⟩
  · have hfree := hx.free m S hm
    have hends := hx.ends m hm
    show EStateM.bind x f (m.onto S) = mapEnd _ (EStateM.bind x f m)
    unfold EStateM.bind
    rw [hfree]
    cases hr : x m with
    | ok a m' =>
      rw [hr] at hends
      exact (hf a hends.2.2).free m' S hends.2.1
    | error e m' => rfl
  · exact bind_ends (hx.ends m hm) (fun a m' h => .after h.1 ((hf a h.2.2).ends m' h.2.1)) fun _ _ h => h

/-- A computation that starts by looking at the machine, but not at its stack. -/
theorem Plain.get {Q : β → Prop} {f : Machine → Exec β} (hfree : ∀ m S, f (m.onto S) = f m)
    (hf : ∀ m : Machine, m.Confined ok → Plain ok Q (f m)) : Plain ok Q (MonadState.get >>= f) := by
  refine ⟨fun m S hm => ?_, fun m hm => (hf m hm).ends m hm⟩
  show f (m.onto S) (m.onto S) = mapEnd _ (f m m)
  rw [hfree]
  exact (hf m hm).free m S hm

theorem plain_modify (hf : Change ok f) : PlainStep ok (modify f : Exec Unit) := by
  refine ⟨fun m S _ => ?_, fun m hm => ⟨hf.calm m, hf.confined m hm, trivial⟩⟩
  show EStateM.Result.ok () (f (m.onto S)) = .ok () ((f m).onto S)
  rw [hf.free]

theorem Plain.modify {Q : β → Prop} {next : Unit → Exec β} (hf : Change ok f)
    (hn : Plain ok Q (next ())) : Plain ok Q (modify f >>= next) :=
  (plain_modify hf).bind fun _ _ => hn

/-! ## Single steps -/

theorem plain_drop (v : Value) : PlainStep ok (drop v) := plain_modify (change_drop v)

theorem plain_copy {v : Value} (hv : v.Confined ok) : PlainValue ok (copy v) :=
  .modify (change_of_ebbing (Machine.ebbing_retain v)) (plain_pure hv)

theorem plain_copyAll {vs : List Value} (hvs : AllConfined ok vs) :
    Plain ok (AllConfined ok) (copyAll vs) :=
  .modify (change_of_ebbing (Machine.ebbing_foldl Machine.ebbing_retain vs)) (plain_pure hvs)

theorem plain_textOf (v : Value) (locked : Option Value) : PlainStep ok (textOf v locked) := by
  refine .get (fun _ _ => rfl) fun m _ => ?_
  split
  · exact plain_pure trivial
  · exact plain_throw fun _ => trivial

/-- A computation that applies the queued releases before all else. -/
theorem Plain.settled (hfree : ∀ (m : Machine) S, x (m.onto S) = mapEnd (·.onto S) (x m))
    (hends : ∀ m : Machine, m.settle.Confined ok → PlainEnd ok P m.settle (x m)) : Plain ok P x :=
  ⟨fun m S _ => hfree m S, fun m hm => .after (calm_settle m) (hends m (change_settle.confined m hm))⟩

theorem plain_look {f : Arena → Except ScopeId α}
    (h : ∀ m : Machine, m.Confined ok → ∀ a, f m.store.arena = .ok a → P a) : Plain ok P (look f) := by
  refine .settled (fun m S => ?_) fun m hm => ?_
  · unfold look
    rw [m.settle_onto S]
    cases hf : f m.settle.store.arena <;> simp only [Machine.onto, hf, mapEnd]
  · cases hf : f m.settle.store.arena with
    | ok a =>
      rw [look_of_ok hf]
      exact ⟨.refl _, hm, h _ hm a hf⟩
    | error id =>
      rw [look_of_error hf]
      exact ⟨.refl _, hm, trivial⟩

theorem plain_changeFrame (id : ScopeId) {f : Frame → Frame × Option Value × α}
    (h : ∀ g : Frame, g.Confined ok → (f g).1.Confined ok ∧ P (f g).2.2) :
    Plain ok P (changeFrame id f) := by
  have hdrop : ∀ v, Change ok (·.drop v) := change_drop
  refine .settled (fun m S => ?_) fun m hm => ?_
  · unfold changeFrame
    rw [m.settle_onto S]
    cases hf : m.settle.store.arena.frame? id with
    | none => simp only [Machine.onto, hf, mapEnd]
    | some g =>
      simp only [Machine.onto, hf, mapEnd]
      cases (f g).2.1 with
      | none => rfl
      | some v => exact congrArg (EStateM.Result.ok _) ((hdrop v).free { m.settle with
          store := { m.settle.store with arena := m.settle.store.arena.setFrame id (f g).1 } } S)
  · cases hf : m.settle.store.arena.frame? id with
    | none =>
      rw [changeFrame_of_none hf]
      exact ⟨.refl _, hm, trivial⟩
    | some g =>
      rw [changeFrame_of_frame hf]
      obtain ⟨hg, ha⟩ := h g (hm.frames id g hf)
      have hset := hm.setFrame hf hg
      have hcalm : ∀ a, m.settle.Calm { m.settle with store := { m.settle.store with arena := a } } :=
        fun a => .ofStore m.settle (.refl m.settle.store)
      cases (f g).2.1 with
      | none => exact ⟨hcalm _, hset, ha⟩
      | some v => exact ⟨(hcalm _).trans ((hdrop v).calm _), (hdrop v).confined _ hset, ha⟩

theorem hold_of_frame {f : Frame} (h : m.settle.store.arena.frame? id = some f) :
    hold id m = .ok () { m.settle with store := m.settle.store.retain (.frame id) } := by
  unfold hold Arena.hold
  simp only [h]
  rfl

theorem hold_of_none (h : m.settle.store.arena.frame? id = none) :
    hold id m = .error (.broken (.staleFrame id)) m.settle := by
  unfold hold Arena.hold
  simp only [h]

theorem plain_hold (id : ScopeId) : PlainStep ok (hold id) := by
  refine .settled (fun m S => ?_) fun m hm => ?_
  · unfold hold Arena.hold
    rw [m.settle_onto S]
    cases hf : m.settle.store.arena.frame? id <;> simp only [Machine.onto, hf, mapEnd]
  · cases hf : m.settle.store.arena.frame? id with
    | none =>
      rw [hold_of_none hf]
      exact ⟨.refl _, hm, trivial⟩
    | some f =>
      rw [hold_of_frame hf]
      have hebbs := Store.ebbs_retain m.settle.store (.frame id)
      exact ⟨.ofStore m.settle hebbs.undisturbed, hm.ebbs hebbs, trivial⟩

/-- A new frame has no variables. -/
theorem plain_makeFrame (name : String) (kind : FrameKind) (parent : Option ScopeId) :
    PlainStep ok (makeFrame name kind parent) := by
  refine .settled (fun m S => ?_) fun m hm => ?_
  · unfold makeFrame
    rw [m.settle_onto S]
    rfl
  · exact ⟨.ofStore m.settle (.refl m.settle.store), hm.create name kind parent, trivial⟩

theorem local_alloc (hc : contents.Confined ok) : Local ok (fun _ => True) (alloc contents) :=
  ⟨fun _ _ _ => rfl, fun m hm => ⟨.ofStore m _, hm.alloc hc, trivial⟩⟩

/-- Anything but a host object may be made. -/
theorem plain_alloc (hc : contents.Confined ok) (hhost : ∀ o, contents ≠ .host o) :
    PlainStep ok (alloc contents) :=
  ⟨fun _ _ _ => rfl, fun m hm => ⟨.ofStore m (m.store.undisturbed_alloc hhost), hm.alloc hc, trivial⟩⟩

theorem plain_makeArray (element : ValueType) {items : List Value} (h : AllConfined ok items) :
    PlainValue ok (makeArray element items) := by
  have hc : (Contents.array items.toArray).Confined ok := fun v hv => h v (List.mem_toArray.1 hv)
  exact (plain_alloc hc fun _ h => by cases h).bind fun _ _ => plain_pure trivial

/-- A method that is declared leaves the variables alone. -/
theorem plain_declareIn (method : ScriptMethod) : PlainStep ok (fun m =>
    match m.settle.store.arena.declare method with
    | .ok arena => .ok () { m.settle with store := { m.settle.store with arena } }
    | .error id => .error (.broken (.staleFrame id)) m.settle) := by
  refine .settled (fun m S => ?_) fun m hm => ?_
  · dsimp only [Arena.declare]
    rw [m.settle_onto S]
    cases hf : m.settle.store.arena.frame? method.declaring <;> simp only [Machine.onto, hf, mapEnd]
  · dsimp only [Arena.declare]
    cases hf : m.settle.store.arena.frame? method.declaring with
    | none => exact ⟨.refl _, hm, trivial⟩
    | some f =>
      have hset := hm.setFrame hf (g := f.declare method) (hm.frames _ f hf)
      exact ⟨.ofStore m.settle (.refl m.settle.store), ⟨hset.frames, hset.cells, hset.classes⟩, trivial⟩

theorem plain_workingDirectory : PlainStep ok workingDirectory := by
  refine .settled (fun m S => ?_) fun m hm => ⟨.refl _, hm, trivial⟩
  unfold workingDirectory
  rw [m.settle_onto S]
  rfl

theorem entryAt_of_unknown (h : m.files.entry path = .unknown) :
    entryAt path m = .error (.stopped (.fileNeeded path)) m := by
  unfold entryAt
  show EStateM.bind EStateM.get _ m = _
  simp only [EStateM.bind, EStateM.get, h]
  rfl

theorem entryAt_of_known (h : m.files.entry path ≠ .unknown) :
    entryAt path m = .ok (m.files.entry path) m := by
  unfold entryAt
  show EStateM.bind EStateM.get _ m = _
  simp only [EStateM.bind, EStateM.get]
  cases hentry : m.files.entry path with
  | unknown => exact absurd hentry h
  | file | directory | absent => rfl

theorem plain_entryAt (path : String) : PlainStep ok (entryAt path) := by
  refine ⟨fun m S _ => ?_, fun m hm => ?_⟩
  · by_cases h : m.files.entry path = .unknown
    · rw [entryAt_of_unknown h, entryAt_of_unknown (m := m.onto S) h]
      rfl
    · rw [entryAt_of_known h, entryAt_of_known (m := m.onto S) h]
      rfl
  · by_cases h : m.files.entry path = .unknown
    · rw [entryAt_of_unknown h]
      exact ⟨.refl m, hm, h⟩
    · rw [entryAt_of_known h]
      exact ⟨.refl m, hm, trivial⟩

/-! ## Look-ups -/

/-- An end in what is left of the machine, with a failure of a kind if with any. -/
def LooksUp (F : Failure → Prop) (m : Machine) : Exec.Result α → Prop
  | .ok _ m' => m.Rests m'
  | .error f m' => m.Rests m' ∧ F f

/-- A computation that only looks at the machine, and fails in one way. -/
def Looks (F : Failure → Prop) (x : Exec α) : Prop := ∀ m, LooksUp F m (x m)

section

variable {F : Failure → Prop}

theorem looks_pure (a : α) : Looks F (pure a) := fun _ => .same

theorem looks_fault {cause : Fault} (h : F (.ofFault cause)) : Looks F (fault cause : Exec α) := fun _ => ⟨.same, h⟩

theorem Looks.get {g : Machine → Exec β} (hg : ∀ m, Looks F (g m)) : Looks F (MonadState.get >>= g) :=
  fun m => hg m m

theorem LooksUp.after {m m' : Machine} (h : m.Rests m') :
    ∀ {r : Exec.Result α}, LooksUp F m' r → LooksUp F m r
  | .ok _ _, hr => h.trans hr
  | .error _ _, hr => ⟨h.trans hr.1, hr.2⟩

theorem Looks.bind {f : α → Exec β} (hx : Looks F x) (hf : ∀ a, Looks F (f a)) : Looks F (x >>= f) :=
  fun m => bind_ends (hx m) (fun a m' h => (hf a m').after h) fun _ _ h => h

/-- A computation that looks at the machine from a frame, and fails only if that frame or an ancestor of it is gone. -/
def LooksFrom (scope : ScopeId) (x : Exec α) : Prop :=
  ∀ m, LooksUp (fun f => ∃ id, m.settle.store.arena.chain scope = .error id ∧ f = .broken (.staleFrame id)) m (x m)

namespace LooksFrom

variable (scope : ScopeId)

theorem pure {scope : ScopeId} (a : α) : LooksFrom scope (Pure.pure a) := fun _ => .same

theorem bind {scope : ScopeId} {f : α → Exec β} (hx : LooksFrom scope x) (hf : ∀ a, LooksFrom scope (f a)) :
    LooksFrom scope (x >>= f) := by
  refine fun m => bind_ends (hx m) (fun a m' h => ?_) fun _ _ h => h
  have hnext := hf a m'
  rw [h.settle_eq] at hnext
  exact hnext.after h

theorem get {scope : ScopeId} {g : Machine → Exec β} (hg : ∀ m, LooksFrom scope (g m)) :
    LooksFrom scope (MonadState.get >>= g) :=
  fun m => hg m m

theorem look (f : List (ScopeId × Frame) → α) :
    LooksFrom scope (Exec.look fun arena => (arena.chain scope).map f) := by
  intro m
  cases h : m.settle.store.arena.chain scope with
  | ok frames =>
    rw [look_of_ok (a := f frames) (by rw [h]; rfl)]
    exact .settle .same
  | error id =>
    have hfails : (m.settle.store.arena.chain scope).map f = .error id := by
      rw [h]
      rfl
    rw [look_of_error hfails]
    exact ⟨.settle .same, id, rfl, rfl⟩

theorem lookupClass (name : String) : LooksFrom scope (lookupClass scope name) := by
  unfold Exec.lookupClass
  split
  · exact .get fun _ => .pure _
  · exact (look scope _).bind fun _ => .get fun _ => .pure _

theorem qualify (type : ValueType) : LooksFrom scope (qualify scope type) := by
  induction type with
  | named name =>
    refine (lookupClass scope name).bind fun found => ?_
    cases found with
    | none => exact .pure _
    | some c =>
      dsimp only
      split
      · exact .pure _
      · split <;> exact .pure _
  | array element ih => exact ih.bind fun _ => .pure _
  | _ => exact .pure _

theorem resolveType? (type : Option TypeName) : LooksFrom scope (resolveType? scope type) := by
  cases type with
  | none => exact .pure _
  | some type => exact (qualify scope _).bind fun _ => .pure _

theorem resolveParams (params : List Param) : LooksFrom scope (resolveParams scope params) := by
  induction params with
  | nil => exact .pure _
  | cons p rest ih => exact (resolveType? scope _).bind fun _ => ih.bind fun _ => .pure _

/-- Only a stale frame makes such a look-up fail. -/
theorem looks {scope : ScopeId} {F : Failure → Prop} (hF : ∀ id, F (.broken (.staleFrame id)))
    (hx : LooksFrom scope x) : Looks F x := by
  intro m
  have h := hx m
  cases hr : x m with
  | ok a m' => rwa [hr] at h
  | error f m' =>
    rw [hr] at h
    obtain ⟨hrests, id, -, rfl⟩ := h
    exact ⟨hrests, hF id⟩

end LooksFrom


variable (hF : ∀ id, F (.broken (.staleFrame id)))

include hF

theorem looks_look (f : Arena → Except ScopeId α) : Looks F (look f) := by
  intro m
  cases h : f m.settle.store.arena with
  | ok a =>
    rw [look_of_ok h]
    exact .settle .same
  | error id =>
    rw [look_of_error h]
    exact ⟨.settle .same, hF id⟩

theorem looks_frameName (id : ScopeId) : Looks F (frameName id) := (looks_look hF _).bind fun _ => looks_pure _

theorem looks_findHandlers (scope : ScopeId) (methods : List HostMethod) :
    ∀ found, Looks F (findHandlers scope found methods) := by
  induction methods with
  | nil => exact fun found => looks_pure _
  | cons method rest ih =>
    intro found
    unfold findHandlers
    dsimp only
    split
    · exact ih found
    · exact (looks_look hF _).bind fun handler => ih _

theorem looks_makeTable (scope : ScopeId) (interfaces : List HostClass) : Looks F (makeTable scope interfaces) :=
  (looks_look hF _).bind fun _ => .get fun _ => (looks_findHandlers hF scope _ []).bind fun _ => looks_pure _

theorem looks_lookupInterfaces (hfault : ∀ cause, F (.ofFault cause)) (scope : ScopeId) (names : List String) :
    Looks F (lookupInterfaces scope names) := by
  induction names with
  | nil => exact looks_pure _
  | cons name rest ih =>
    refine ((LooksFrom.lookupClass scope name).looks hF).bind fun found => ?_
    cases found with
    | none => exact looks_fault (hfault _)
    | some c =>
      dsimp only
      split
      · exact ih.bind fun _ => looks_pure _
      · exact looks_fault (hfault _)

end

end Exec

end HostScript
