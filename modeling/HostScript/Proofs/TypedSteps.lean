import HostScript.Proofs.TypedStore

/-!
# Computations that keep a machine typed

`Keeps τ P x` says that `x`, started in any machine that is typed by `τ`, ends in a machine that is typed
by a layout that extends `τ`, whether it succeeds or fails; and if it succeeds, its result satisfies `P`
for that layout. Layouts only grow, so what fits at one time fits ever after (`Fits.mono`).
-/

set_option autoImplicit false

namespace HostScript

namespace Exec

variable {α β : Type} {τ : Layout} {P Q : Layout → α → Prop} {x : Exec α} {next : Unit → Exec β}
  {clean f : Machine → Machine}

/-- An end that leaves the machine typed by a larger layout. -/
def Kept (τ : Layout) (P : Layout → α → Prop) : Exec.Result α → Prop
  | .ok a m => ∃ τ', τ <+: τ' ∧ m.Typed τ' ∧ P τ' a
  | .error _ m => ∃ τ', τ <+: τ' ∧ m.Typed τ'

/-- A computation that keeps every machine typed. -/
structure Keeps (τ : Layout) (P : Layout → α → Prop) (x : Exec α) : Prop where
  kept : ∀ m : Machine, m.Typed τ → Kept τ P (x m)

/-- A computation about whose result nothing is said. -/
abbrev KeepsTyped (τ : Layout) (x : Exec α) : Prop := Keeps τ (fun _ _ => True) x

/-- A computation whose value fits. -/
abbrev Yields (τ : Layout) (x : Exec Value) : Prop := Keeps τ (fun τ' v => v.Fits τ') x

/-- A computation whose value fits if there is one. -/
abbrev YieldsIf (τ : Layout) (x : Exec (Option Value)) : Prop :=
  Keeps τ (fun τ' found => ∀ v, found = some v → v.Fits τ') x

theorem Kept.extend {τ' : Layout} (hτ : τ <+: τ') :
    ∀ {r : Exec.Result α}, Kept τ' P r → Kept τ P r
  | .ok _ _, ⟨τ1, h1, h⟩ => ⟨τ1, hτ.trans h1, h⟩
  | .error _ _, ⟨τ1, h1, h⟩ => ⟨τ1, hτ.trans h1, h⟩

/-! ## Putting computations together -/

theorem keeps_pure {a : α} (h : P τ a) : Keeps τ P (pure a) :=
  ⟨fun _ hm => ⟨τ, List.prefix_rfl, hm, h⟩⟩

theorem keeps_throw (f : Failure) : Keeps τ P (throw f : Exec α) :=
  ⟨fun _ hm => ⟨τ, List.prefix_rfl, hm⟩⟩

theorem Keeps.bind {Q : Layout → β → Prop} {f : α → Exec β} (hx : Keeps τ P x)
    (hf : ∀ τ' a, τ <+: τ' → P τ' a → Keeps τ' Q (f a)) : Keeps τ Q (x >>= f) := by
  refine ⟨fun m hm => bind_ends (hx.kept m hm) (fun a m' h => ?_) fun _ _ h => h⟩
  obtain ⟨τ', hτ, hm', ha⟩ := h
  exact ((hf τ' a hτ ha).kept m' hm').extend hτ

theorem Kept.imp (h : ∀ τ' a, τ <+: τ' → P τ' a → Q τ' a) :
    ∀ {r : Exec.Result α}, Kept τ P r → Kept τ Q r
  | .ok a _, ⟨τ', hτ, hm, ha⟩ => ⟨τ', hτ, hm, h τ' a hτ ha⟩
  | .error _ _, hr => hr

theorem Keeps.imp (hx : Keeps τ P x) (h : ∀ τ' a, τ <+: τ' → P τ' a → Q τ' a) : Keeps τ Q x :=
  ⟨fun m hm => (hx.kept m hm).imp h⟩

/-- The machine that a computation looks at first is typed. -/
theorem Keeps.get {Q : Layout → β → Prop} {f : Machine → Exec β}
    (hf : ∀ m : Machine, m.Typed τ → Keeps τ Q (f m)) : Keeps τ Q (MonadState.get >>= f) :=
  ⟨fun m hm => (hf m hm).kept m hm⟩

/-- A change that brings in only what fits leaves the layout as it was. -/
theorem Keeps.change {Q : Layout → β → Prop} (hf : ∀ m : Machine, m.Typed τ → (f m).Typed τ)
    (hn : Keeps τ Q (next ())) : Keeps τ Q (modify f >>= next) :=
  ⟨fun m hm => hn.kept (f m) (hf m hm)⟩

theorem Keeps.modify {Q : Layout → β → Prop} (hf : Harmless f) (hn : Keeps τ Q (next ())) :
    Keeps τ Q (modify f >>= next) :=
  .change (hf τ) hn

theorem keeps_modify (hf : Harmless f) : KeepsTyped τ (modify f : Exec Unit) :=
  ⟨fun m hm => ⟨τ, List.prefix_rfl, hf τ m hm, trivial⟩⟩

/-- What is kept is kept when something harmless is done to the machine. -/
theorem Kept.cleaned (hc : Harmless clean) {m : Machine} :
    (∀ {a}, Kept τ P (.ok a m) → Kept τ P (.ok a (clean m))) ∧
      ∀ {e}, Kept τ P (.error e m) → Kept τ P (.error e (clean m)) :=
  ⟨fun ⟨τ', hτ, hm, ha⟩ => ⟨τ', hτ, hc τ' m hm, ha⟩, fun ⟨τ', hτ, hm⟩ => ⟨τ', hτ, hc τ' m hm⟩⟩

theorem Keeps.onFailure (hx : Keeps τ P x) (hc : Harmless clean) : Keeps τ P (onFailure x clean) :=
  ⟨fun m hm => onFailure_ends (hx.kept m hm) (fun _ _ h => h) fun _ _ => (Kept.cleaned hc).2⟩

theorem Keeps.afterwards (hx : Keeps τ P x) (hc : Harmless clean) : Keeps τ P (afterwards x clean) :=
  ⟨fun m hm => afterwards_ends (hx.kept m hm) (fun _ _ => (Kept.cleaned hc).1) fun _ _ => (Kept.cleaned hc).2⟩

theorem Keeps.holding (hx : Keeps τ P x) (v : Value) : Keeps τ P (holding v x) :=
  hx.afterwards (harmless_drop v)

theorem Keeps.holdingAll (hx : Keeps τ P x) (vs : List Value) : Keeps τ P (holdingAll vs x) :=
  hx.afterwards (harmless_of_ebbing (Machine.ebbing_dropAll vs))

theorem Keeps.copyAll {Q : Layout → β → Prop} {next : List Value → Exec β} (vs : List Value)
    (hn : Keeps τ Q (next vs)) : Keeps τ Q (copyAll vs >>= next) :=
  ⟨fun m hm => hn.kept _ (harmless_of_ebbing (Machine.ebbing_foldl Machine.ebbing_retain vs) τ m hm)⟩

theorem Keeps.textOf {Q : Layout → β → Prop} {next : String → Exec β} (locked : Option Value) (v : Value)
    (hn : ∀ text, Keeps τ Q (next text)) : Keeps τ Q (textOf v locked >>= next) := by
  unfold Exec.textOf
  rw [bind_assoc]
  refine .get fun m _ => ?_
  split
  · rw [pure_bind]
    exact hn _
  · exact keeps_throw _

theorem Keeps.unlessFailed (hx : Keeps τ P x) (v : Value) : Keeps τ P (unlessFailed v x) :=
  hx.onFailure (harmless_drop v)

theorem Keeps.mapFailure (hx : Keeps τ P x) (f : Failure → Failure) : Keeps τ P (mapFailure x f) :=
  ⟨fun m hm => mapFailure_ends (hx.kept m hm) (fun _ _ h => h) fun _ _ h => h⟩

theorem Keeps.locating (hx : Keeps τ P x) (span : Span) (node : Unit → String) :
    Keeps τ P (locating span node x) :=
  hx.mapFailure _

theorem Keeps.attempt (hx : Keeps τ P x) : Keeps τ (fun τ' r => ∀ a, r = .ok a → P τ' a) (attempt x) := by
  refine ⟨fun m hm => attempt_ends (hx.kept m hm) (fun a m' h => ?_) (fun _ _ h => h) fun e m' h => ?_⟩
  · obtain ⟨τ', hτ, hm', ha⟩ := h
    exact ⟨τ', hτ, hm', fun b hb => Except.ok.inj hb ▸ ha⟩
  · obtain ⟨τ', hτ, hm'⟩ := h
    exact ⟨τ', hτ, hm', fun b hb => absurd hb (by simp)⟩

/-! ## Single steps -/

theorem keeps_drop (v : Value) : KeepsTyped τ (drop v) := keeps_modify (harmless_drop v)

theorem keeps_copy {v : Value} (hv : v.Fits τ) : Yields τ (copy v) :=
  .modify (harmless_of_ebbing (Machine.ebbing_retain v)) (keeps_pure hv)

theorem keeps_look {f : Arena → Except ScopeId α}
    (h : ∀ m : Machine, m.Typed τ → ∀ a, f m.store.arena = .ok a → P τ a) : Keeps τ P (look f) := by
  refine ⟨fun m hm => ?_⟩
  have hs := harmless_settle τ m hm
  cases hf : f m.settle.store.arena with
  | ok a =>
    rw [look_of_ok hf]
    exact ⟨τ, List.prefix_rfl, hs, h _ hs a hf⟩
  | error id =>
    rw [look_of_error hf]
    exact ⟨τ, List.prefix_rfl, hs⟩

theorem keeps_frame (id : ScopeId) : Keeps τ (fun τ' f => f.Fits τ') (frame id) := by
  refine keeps_look fun m hm f hf => ?_
  cases hid : m.store.arena.frame? id with
  | none =>
    rw [hid] at hf
    exact absurd hf (by simp)
  | some g =>
    rw [hid] at hf
    exact Except.ok.inj hf ▸ hm.frames id g hid

theorem keeps_changeFrame (id : ScopeId) {f : Frame → Frame × Option Value × α}
    (h : ∀ g : Frame, g.Fits τ → (f g).1.Fits τ ∧ P τ (f g).2.2) : Keeps τ P (changeFrame id f) := by
  refine ⟨fun m hm => ?_⟩
  have hs := harmless_settle τ m hm
  cases hf : m.settle.store.arena.frame? id with
  | none =>
    rw [changeFrame_of_none hf]
    exact ⟨τ, List.prefix_rfl, hs⟩
  | some g =>
    rw [changeFrame_of_frame hf]
    obtain ⟨hg, ha⟩ := h g (hs.frames id g hf)
    have hset := hs.setFrame hf hg
    refine ⟨τ, List.prefix_rfl, ?_, ha⟩
    cases (f g).2.1 with
    | none => exact hset
    | some v => exact harmless_drop v τ _ hset

/-- A new frame has no variables. -/
theorem Keeps.makeFrame {Q : Layout → β → Prop} (name : String) (kind : FrameKind)
    (parent : Option ScopeId) {next : ScopeId → Exec β} (hn : ∀ id, Keeps τ Q (next id)) :
    Keeps τ Q (makeFrame name kind parent >>= next) :=
  ⟨fun m hm => (hn _).kept _ ((harmless_settle τ m hm).create name kind parent)⟩

theorem keeps_hold (id : ScopeId) : KeepsTyped τ (hold id) := by
  refine ⟨fun m hm => ?_⟩
  have hs := harmless_settle τ m hm
  unfold hold Arena.hold
  dsimp only
  cases hf : m.settle.store.arena.frame? id with
  | none => exact ⟨τ, List.prefix_rfl, hs⟩
  | some f => exact ⟨τ, List.prefix_rfl, hs.ebbs (Store.ebbs_retain _ (.frame id)), trivial⟩

/-- A new cell gets the next entry of the layout. -/
theorem keeps_alloc {contents : Contents} (element : Option ValueType) (hc : contents.Fits τ element) :
    Keeps τ (fun τ' n => τ'[n]? = some element) (alloc contents) := by
  refine ⟨fun m hm => ?_⟩
  refine ⟨τ ++ [element], List.prefix_append τ [element], hm.alloc hc, ?_⟩
  show (τ ++ [element])[m.store.cells.size]? = some element
  rw [← hm.size, List.getElem?_concat_length]

/-- An array may be made of items that obey its element type. -/
theorem keeps_makeArray (element : ValueType) {items : List Value} (hfit : FitAll τ items)
    (hobey : ∀ v ∈ items, v.Obeys element) :
    Yields τ (makeArray element items) := by
  have hc : (Contents.array items.toArray).Fits τ (some element) := by
    intro v hv
    have hv := List.mem_toArray.1 hv
    exact ⟨hfit v hv, fun type ht => Option.some.inj ht ▸ hobey v hv⟩
  exact (keeps_alloc (some element) hc).bind fun _ _ _ hn => keeps_pure hn

theorem keeps_scope : KeepsTyped τ scope := by
  refine .get fun m _ => ?_
  cases m.stack with
  | nil => exact keeps_throw _
  | cons id rest => exact keeps_pure trivial

/-- A method that is declared leaves the variables alone. -/
theorem keeps_declare (name : String) (params : List Param) (returns : Option TypeName)
    (body : List Stmt) : KeepsTyped τ (declare name params returns body) := by
  refine keeps_scope.bind fun τ1 declaring _ _ => ⟨fun m hm => ?_⟩
  have hs := harmless_settle τ1 m hm
  dsimp only [Arena.declare]
  cases hf : m.settle.store.arena.frame? declaring with
  | none => exact ⟨τ1, List.prefix_rfl, hs⟩
  | some f =>
    have hset := hs.setFrame hf (g := f.declare ⟨name, params, returns, body, declaring⟩)
      (hs.frames declaring f hf)
    exact ⟨τ1, List.prefix_rfl, ⟨hset.size, hset.frames, hset.cells, hset.classes⟩, trivial⟩

theorem keeps_workingDirectory : KeepsTyped τ workingDirectory :=
  ⟨fun m hm => ⟨τ, List.prefix_rfl, harmless_settle τ m hm, trivial⟩⟩

theorem keeps_entryAt (path : String) : KeepsTyped τ (entryAt path) := by
  refine .get fun m _ => ?_
  split
  · exact keeps_throw _
  · exact keeps_pure trivial

/-! ## Computations on another stack -/

theorem harmless_stack (f : Machine → List ScopeId) : Harmless fun m => { m with stack := f m } :=
  .of_same (fun _ => rfl) fun _ => rfl

theorem harmless_depth (f : Machine → Nat) : Harmless fun m => { m with depth := f m } :=
  .of_same (fun _ => rfl) fun _ => rfl

/-- A frame that is taken off the stack is released. -/
theorem harmless_close (id : ScopeId) :
    Harmless fun m => { m with stack := m.stack.tail, store := m.store.release id } :=
  fun _ m hm => (hm.ebbs (Store.ebbs_release m.store id)).congr rfl rfl

theorem Keeps.inFrame (hx : Keeps τ P x) (name : String) (kind : FrameKind) (parent : ScopeId)
    {discard : α → Machine → Machine} (hd : ∀ a, Harmless (discard a)) :
    Keeps τ P (inFrame name kind parent x discard) := by
  refine .makeFrame name kind (some parent) fun id => ?_
  refine .modify (harmless_stack fun m => id :: m.stack) ⟨fun m hm => ?_⟩
  have h := hx.kept m hm
  have hclose := harmless_close id
  cases hr : x m with
  | ok a m' =>
    rw [hr] at h
    obtain ⟨τ', hτ, hm', ha⟩ := h
    dsimp only
    cases (m'.restack .pop).1 == some id with
    | true => exact ⟨τ', hτ, hclose τ' m' hm', ha⟩
    | false => exact ⟨τ', hτ, hd a τ' _ (hclose τ' m' hm')⟩
  | error e m' =>
    rw [hr] at h
    obtain ⟨τ', hτ, hm'⟩ := h
    dsimp only
    cases (m'.restack .pop).1 == some id with
    | true => exact ⟨τ', hτ, hclose τ' m' hm'⟩
    | false => exact ⟨τ', hτ, hclose τ' m' hm'⟩

theorem Keeps.onStack (stack : List ScopeId) (hx : Keeps τ P x) : Keeps τ P (onStack stack x) :=
  .get fun outer _ => .modify (harmless_stack fun _ => stack)
    (hx.afterwards (harmless_stack fun _ => outer.stack))

theorem Keeps.steadily {P : Layout → Flow → Prop} {x : Exec Flow} (hx : Keeps τ P x) :
    Keeps τ P (steadily x) := by
  refine ⟨fun m hm => ?_⟩
  have h := hx.kept m hm
  unfold Exec.steadily
  cases hr : x m with
  | ok flow m' =>
    rw [hr] at h
    obtain ⟨τ', hτ, hm', ha⟩ := h
    dsimp only
    split
    · exact ⟨τ', hτ, hm', ha⟩
    · exact ⟨τ', hτ, (harmless_of_ebbing (Machine.ebbing_discard flow) τ' m' hm').congr rfl rfl⟩
  | error e m' =>
    rw [hr] at h
    obtain ⟨τ', hτ, hm'⟩ := h
    dsimp only
    split
    · exact ⟨τ', hτ, hm'⟩
    · exact ⟨τ', hτ, hm'.congr rfl rfl⟩

end Exec

/-! ## Typed places

What a value becomes in a place of a type obeys the type (`Machine.obeys_fit`). -/

namespace Primitive

variable {p q : Primitive} {n : Int64} {target : Kind}

theorem kind_ofInt64? (h : ofInt64? n target = some q) : q.kind = target := by
  cases target <;> simp [ofInt64?] at h <;> subst h <;> rfl

theorem kind_ofDouble? {x : Float} (h : ofDouble? x target = some q) : q.kind = target := by
  cases target <;> simp [ofDouble?] at h <;> subst h <;> rfl

theorem kind_convert? (h : p.convert? target = some q) : q.kind = target := by
  unfold convert? at h
  split at h
  · rename_i hk
    rw [← Option.some.inj h, hk]
  · split at h
    · exact kind_ofDouble? h
    · exact kind_ofDouble? h
    · obtain ⟨n, -, hn⟩ := Option.bind_eq_some_iff.1 h
      exact kind_ofInt64? hn

theorem kind_widen? (h : p.widen? target = some q) : q.kind = target := by
  unfold widen? at h
  split at h
  · exact kind_convert? h
  · exact absurd h (Option.some_ne_none q).symm

theorem kind_narrow? (h : p.narrow? target = some q) : q.kind = target := by
  unfold narrow? at h
  split at h
  · exact absurd h (Option.some_ne_none q).symm
  · split at h
    · split at h
      · exact kind_convert? h
      · exact absurd h (Option.some_ne_none q).symm
    · exact absurd h (Option.some_ne_none q).symm

theorem kind_assign (h : p.assign target = .ok q) : q.kind = target := by
  unfold assign at h
  cases hw : p.widen? target with
  | some r =>
    simp only [hw, Except.ok.injEq] at h
    exact h ▸ kind_widen? hw
  | none =>
    cases hn : p.narrow? target with
    | some r =>
      simp only [hw, hn, Except.ok.injEq] at h
      exact h ▸ kind_narrow? hn
    | none => simp [hw, hn] at h

end Primitive

namespace Machine

variable {m : Machine} {type : ValueType} {value v : Value} {occasion : Occasion}

/-- Arrays of primitives stand for nothing but themselves. -/
theorem eq_of_arrayFits {cs : Classes} {source : ValueType} {kind : Kind}
    (h : cs.arrayFits source (.primitive kind) = true) : source = .primitive kind := by
  rcases Bool.or_eq_true_iff.1 h with h | h
  · exact of_decide_eq_true h
  · -- no type other than a primitive one is assignable to a primitive one
    obtain ⟨hp, ha⟩ := Bool.and_eq_true_iff.1 h
    unfold Classes.assignable at ha
    cases source with
    | primitive k => exact absurd hp (by simp [ValueType.isPrimitive])
    | _ => simp at ha

/-- **What a value becomes in a place of a type obeys the type.** -/
theorem obeys_fit (h : m.fit type value occasion = .ok (.value v)) : v.Obeys type := by
  unfold fit at h
  split at h
  · exact absurd h (by simp)
  · cases type with
    | primitive kind =>
      cases hp : value.operand? with
      | none => simp [hp] at h
      | some p =>
        cases occasion with
        | storing =>
          cases ha : p.assign kind with
          | error e => simp [hp, ha] at h
          | ok q =>
            simp only [hp, ha, Except.ok.injEq, Fitted.value.injEq] at h
            exact ⟨q, h.symm, Primitive.kind_assign ha⟩
        | passing =>
          cases hw : p.widen? kind with
          | none => simp [hp, hw] at h
          | some q =>
            simp only [hp, hw, Except.ok.injEq, Fitted.value.injEq] at h
            exact ⟨q, h.symm, Primitive.kind_widen? hw⟩
    | text =>
      dsimp only at h
      split at h
      · simp only [Except.ok.injEq, Fitted.value.injEq] at h
        exact .inl ⟨_, h.symm⟩
      · simp only [Except.ok.injEq, Fitted.value.injEq] at h
        exact .inr h.symm
      · exact absurd h (by simp)
    | object => trivial
    | named name => trivial
    | array element =>
      cases element with
      | primitive kind =>
        dsimp only at h
        split at h
        · simp only [Except.ok.injEq, Fitted.value.injEq] at h
          exact .inl h.symm
        · split at h
          · rename_i source hfits
            simp only [Except.ok.injEq, Fitted.value.injEq] at h
            rw [eq_of_arrayFits hfits] at h
            exact .inr ⟨_, h.symm⟩
          · exact absurd h (by simp)
        · exact absurd h (by simp)
      | _ => trivial

/-- Adapters are made for places of named types only, which any value obeys. -/
theorem obeys_adapter {scope : ScopeId} (h : m.fit type value occasion = .ok (.adapter scope)) :
    v.Obeys type := by
  unfold fit at h
  split at h
  · exact absurd h (by simp)
  · cases type with
    | named name => trivial
    | _ =>
      dsimp only at h
      repeat' split at h
      all_goals exact absurd h (by simp)

end Machine

end HostScript
