import HostScript.Proofs.MostSpecific
import HostScript.Proofs.OwnershipPlaces
import HostScript.Proofs.TypedStore

/-!
# Arguments that fit

An argument that reaches a parameter in some phase of overload resolution also fits it
(`Machine.fit_of_phase`), so its conversion can only fail where an adapter is made, at a frame that is gone.
A computation is gentle if it fails with an internal error or not at all and leaves the cells that were there
as they were. In a machine that keeps account of its claims it succeeds (`Gentle.succeeds`), and the other
arguments reach their parameters afterwards as before (`Machine.phase?_after`).
-/

set_option autoImplicit false

namespace HostScript

/-! ## Phases and fits -/

theorem Primitive.exists_widen {p : Primitive} {kind : Kind} (h : p.kind.widensTo kind = true) :
    ∃ q, p.widen? kind = some q := by
  cases p <;> cases kind <;> cases h <;> exact ⟨_, rfl⟩

namespace Machine

variable {m m' : Machine} {v : Value} {t : ValueType} {p : Phase}

/-- An argument that reaches a parameter fits it: as a value, or as an adapter if it is a scripted
object and the parameter an interface. -/
theorem fit_of_phase (h : m.phase? v t = some p) :
    (∃ w, m.fit t v .passing = .ok (.value w))
    ∨ ∃ scope label name c, v = .object scope label ∧ t = .named name
      ∧ m.classes.load? name = some c ∧ c.isInterface = true
      ∧ m.fit t v .passing = .ok (.adapter scope) := by
  unfold phase? at h
  split at h
  · -- void reaches nothing
    cases h
  · cases h
  · -- null fits every type but the primitive ones
    left
    cases t with
    | primitive kind => rename_i hne; exact absurd rfl (hne kind)
    | _ => exact ⟨.null, rfl⟩
  · -- a primitive for a primitive
    left
    rename_i q kind hvoid hnull
    have hwiden : q.kind.widensTo kind = true := by
      split at h
      · rename_i heq
        rw [heq]
        exact Kind.widensTo_refl kind
      · split at h
        · assumption
        · cases h
    obtain ⟨w, hw⟩ := Primitive.exists_widen hwiden
    refine ⟨.primitive w, ?_⟩
    cases q <;> simp_all [fit, Value.isVoid, Value.operand?, Primitive.isNull, Primitive.isVoid]
  · left
    rename_i q hvoid _
    refine ⟨.primitive q, ?_⟩
    cases q <;> simp_all [fit, Value.isVoid, Primitive.isVoid]
  · left
    rename_i q name hvoid hnull
    split at h
    · rename_i hbox
      refine ⟨.primitive q, ?_⟩
      cases q <;> simp_all [fit, Value.isVoid, Primitive.isVoid]
    · cases h
  · exact Or.inl ⟨_, rfl⟩
  · exact Or.inl ⟨_, rfl⟩
  · -- an array for an array
    left
    rename_i cell element target
    refine ⟨.array cell element, ?_⟩
    have hfits : m.classes.arrayFits element target = true := by
      split at h
      · rename_i heq
        simp [Classes.arrayFits, heq]
      · split at h
        · assumption
        · cases h
    simp [fit, Value.isVoid, hfits]
  · -- a host object for a class
    left
    rename_i cell className name
    refine ⟨.host cell className, ?_⟩
    have his : m.hostIs cell className name = true := by
      split at h
      · rename_i heq
        simp [hostIs, heq]
      · split at h
        · assumption
        · cases h
    simp [fit, Value.isVoid, his]
  · -- a scripted object for an interface
    right
    rename_i scope label name
    split at h
    · rename_i hint
      unfold isInterface at hint
      split at hint
      · rename_i c hc
        exact ⟨scope, label, name, c, rfl, rfl, hc, hint, by simp [fit, Value.isVoid, hc, hint]⟩
      · cases hint
    · cases h
  · exact Or.inl ⟨_, rfl⟩
  · exact Or.inl ⟨_, rfl⟩
  · exact Or.inl ⟨_, rfl⟩
  · exact Or.inl ⟨_, rfl⟩
  · cases h

end Machine

/-! ## Cells that stay as they are -/

namespace Store

/-- Cells that are still in use hold what they held. -/
structure SameCells (s s' : Store) : Prop where
  size : s.cells.size ≤ s'.cells.size
  contents : ∀ n c, n < s.cells.size → s'.cell? n = some c →
    ∃ c0, s.cell? n = some c0 ∧ c.contents = c0.contents

variable {s s' s'' : Store}

theorem SameCells.refl (s : Store) : s.SameCells s := ⟨Nat.le_refl _, fun _ c _ hc => ⟨c, hc, rfl⟩⟩

theorem SameCells.trans (h : s.SameCells s') (h' : s'.SameCells s'') : s.SameCells s'' := by
  refine ⟨Nat.le_trans h.size h'.size, ?_⟩
  intro n c hn hc
  obtain ⟨c1, hc1, heq1⟩ := h'.contents n c (Nat.lt_of_lt_of_le hn h.size) hc
  obtain ⟨c0, hc0, heq0⟩ := h.contents n c1 hn hc1
  exact ⟨c0, hc0, heq1.trans heq0⟩

theorem Ebbs.sameCells (h : s.Ebbs s') : s.SameCells s' :=
  ⟨h.size.ge, fun n c _ hc => h.cells n c hc⟩

theorem sameCells_arena (s : Store) (a : Arena) : s.SameCells { s with arena := a } :=
  ⟨Nat.le_refl _, fun _ c _ hc => ⟨c, hc, rfl⟩⟩

theorem sameCells_alloc (s : Store) (contents : Contents) : s.SameCells (s.alloc contents).2 := by
  refine ⟨by simp [alloc], ?_⟩
  intro n c hn hc
  rw [cell?_alloc, if_neg (Nat.ne_of_lt hn)] at hc
  exact ⟨c, hc, rfl⟩

end Store

namespace Machine

variable {m m' : Machine} {v : Value} {n : Nat}

theorem Ebbing.sameCells {f : Machine → Machine} (hf : Ebbing f) (m : Machine) :
    m.store.SameCells (f m).store := (hf.ebbs m).sameCells

theorem sameCells_settle (m : Machine) : m.store.SameCells m.settle.store := ebbing_settle.sameCells m

theorem Rests.sameCells (h : m.Rests m') : m.store.SameCells m'.store := by
  induction h with
  | same => exact .refl _
  | settle _ ih => exact ih.trans (sameCells_settle _)

theorem sameCells_drop (m : Machine) (v : Value) : m.store.SameCells (m.drop v).store :=
  (ebbing_drop v).sameCells m

theorem sameCells_dropIf (m : Machine) (removed : Option Value) :
    m.store.SameCells (removed.elim m m.drop).store := by
  cases removed with
  | none => exact .refl _
  | some v => exact m.sameCells_drop v

theorem sameCells_retain (m : Machine) (v : Value) : m.store.SameCells (m.retain v).store :=
  (ebbing_retain v).sameCells m

/-- What is in the cell decides what its object says of itself. -/
theorem declaresItself_congr (hclasses : m'.classes = m.classes)
    (hn : (m'.store.cell? n).map Cell.contents = (m.store.cell? n).map Cell.contents)
    (name : String) : m'.declaresItself n name = m.declaresItself n name := by
  unfold declaresItself
  rw [hclasses]
  cases hc : m.store.cell? n with
  | none =>
    rw [hc] at hn
    rw [Option.map_eq_none_iff.1 hn]
  | some c =>
    rw [hc] at hn
    obtain ⟨c', hc', hcontents⟩ := Option.map_eq_some_iff.1 hn
    obtain ⟨contents, owners⟩ := c
    obtain ⟨contents', owners'⟩ := c'
    subst hcontents
    rw [hc']
    cases contents' <;> rfl

/-- A host object that is still there is an instance of what it was an instance of. -/
theorem declaresItself_after (hclasses : m'.classes = m.classes)
    (hcells : m.store.SameCells m'.store) (hn : m.store.Holds (.cell n))
    (hn' : m'.store.Holds (.cell n)) (type : String) :
    m'.declaresItself n type = m.declaresItself n type := by
  obtain ⟨c, hc⟩ := Option.isSome_iff_exists.1 hn
  obtain ⟨c', hc'⟩ := Option.isSome_iff_exists.1 hn'
  have hlt : n < m.store.cells.size :=
    (Array.getElem?_eq_some_iff.1 (Store.cell?_eq_some_iff.1 hc)).1
  obtain ⟨c0, hc0, hcontents⟩ := hcells.contents n c' hlt hc'
  refine declaresItself_congr hclasses ?_ type
  rw [hc', hc0, Option.map_some, Option.map_some, hcontents]

/-- Arguments that somebody keeps reach a parameter as before. -/
theorem phase?_after (hclasses : m'.classes = m.classes) (hcells : m.store.SameCells m'.store)
    (hv : ∀ k ∈ v.claims, m.store.Holds k ∧ m'.store.Holds k) (t : ValueType) :
    m'.phase? v t = m.phase? v t := by
  cases v with
  | host cell className =>
    obtain ⟨hn, hn'⟩ := hv (.cell cell) (Multiset.mem_singleton_self _)
    have his (name : String) : m'.hostIs cell className name = m.hostIs cell className name := by
      unfold hostIs
      rw [declaresItself_after hclasses hcells hn hn', hclasses]
    cases t with
    | named name => simp only [phase?, his]
    | _ => rfl
  | primitive p => cases p <;> cases t <;> rfl
  | array cell element =>
    cases t with
    | array target => simp only [phase?, hclasses]
    | _ => rfl
  | object scope label =>
    have hint (name : String) : m'.isInterface name = m.isInterface name := by
      unfold isInterface
      rw [hclasses]
    cases t with
    | named name => simp only [phase?, hint]
    | _ => rfl
  | _ => cases t <;> rfl

end Machine

/-! ## Gentle computations -/

/-- Every class is found under a name with a package in front. -/
def Classes.Packaged (cs : Classes) : Prop := ∀ n c, cs.load? n = some c → isQualified n = true

theorem Classes.Packaged.of_tables {cs : Classes}
    (hregistered : cs.registered.keys.all isQualified = true)
    (hloader : (cs.loader.all fun table => table.keys.all isQualified) = true) : cs.Packaged := by
  intro n c h
  have listed {table : Table Nat} {i : Nat} (hi : table.get? n = some i) : n ∈ table.keys :=
    List.mem_map_of_mem (mem_of_lookup hi)
  obtain ⟨i, hi, -⟩ := Option.bind_eq_some_iff.1 h
  rcases Option.or_eq_some_iff.1 hi with hl | ⟨-, hr⟩
  · obtain ⟨table, htable, hget⟩ := Option.bind_eq_some_iff.1 hl
    rw [htable] at hloader
    exact List.all_eq_true.1 hloader n (listed hget)
  · exact List.all_eq_true.1 hregistered n (listed hr)

namespace Exec

open Machine

variable {α β : Type} {m m' : Machine} {f : Failure} {x : Exec α} {P : α → Prop} {a : α}
  {name : String} {c : HostClass} {r : Multiset Claim} {Q : α → Machine → Prop}
  {own : α → Multiset Claim}

/-- An end that leaves the cells as they were; or a failure that is internal, or the expected one. -/
def GentleEnd (f : Failure) (m : Machine) (P : α → Prop) : Exec.Result α → Prop
  | .ok a m' => m.store.SameCells m'.store ∧ P a
  | .error e _ => e = f ∨ ¬ e.Permitted

/-- A computation that fails internally, or in one expected way, or else leaves the cells as they
were. -/
structure Gentle (f : Failure) (m : Machine) (P : α → Prop) (x : Exec α) : Prop where
  ended : GentleEnd f m P (x m)

theorem Gentle.sameCells (hx : Gentle f m P x) (hr : x m = .ok a m') : m.store.SameCells m'.store := by
  obtain ⟨hx⟩ := hx
  rw [hr] at hx
  exact hx.1

/-- In a machine that keeps account of its claims, a gentle computation fails as expected or not at
all. -/
theorem Gentle.expected [Trust] (hx : Gentle f m P x) (hends : Ends r own m Q x) :
    (∃ a m', x m = .ok a m') ∨ ∃ m', x m = .error f m' := by
  obtain ⟨hx⟩ := hx
  obtain ⟨hends⟩ := hends
  cases hr : x m with
  | ok a m' => exact Or.inl ⟨a, m', rfl⟩
  | error e m' =>
    rw [hr] at hx hends
    rcases hx with rfl | hnot
    · exact Or.inr ⟨m', rfl⟩
    · exact absurd hends.2 hnot

/-- What is gentle whatever failure is expected succeeds. -/
theorem Gentle.succeeds [Trust] (hx : ∀ f, Gentle f m P x) (hends : Ends r own m Q x) :
    ∃ a m', x m = .ok a m' := by
  rcases (hx (.broken .emptyStack)).expected hends with hok | ⟨m', herror⟩
  · exact hok
  · exact (hends.error herror).2.elim

theorem Gentle.pure (h : P a) : Gentle f m P (Pure.pure a : Exec α) := ⟨.refl _, h⟩

theorem Gentle.get {g : Machine → Exec α} (hg : Gentle f m P (g m)) :
    Gentle f m P (MonadState.get >>= g) :=
  ⟨hg.ended⟩

theorem gentle_modify {g : Machine → Machine} (hg : m.store.SameCells (g m).store) :
    Gentle f m (fun _ => True) (modify g : Exec Unit) :=
  ⟨hg, trivial⟩

theorem GentleEnd.after (h : m.store.SameCells m'.store) :
    ∀ {r : Exec.Result α}, GentleEnd f m' P r → GentleEnd f m P r
  | .ok _ _, hr => ⟨h.trans hr.1, hr.2⟩
  | .error _ _, hr => hr

/-- What comes next starts from the machine that the first computation leaves. -/
theorem Gentle.bind {g : α → Exec β} {Q : β → Prop} (hx : Gentle f m P x)
    (hg : ∀ a m', x m = .ok a m' → P a → Gentle f m' Q (g a)) : Gentle f m Q (x >>= g) :=
  ⟨bind_ends (E := fun r => x m = r ∧ GentleEnd f m P r) ⟨rfl, hx.ended⟩
    (fun a m' h => (hg a m' h.1 h.2.2).ended.after h.2.1) fun _ _ h => h.2⟩

theorem Gentle.onFailure (hx : Gentle f m P x) (clean : Machine → Machine) :
    Gentle f m P (onFailure x clean) :=
  ⟨onFailure_ends hx.ended (fun _ _ h => h) fun _ _ h => h⟩

theorem Gentle.afterwards (hx : Gentle f m P x) {clean : Machine → Machine}
    (hc : ∀ m' : Machine, m'.store.SameCells (clean m').store) :
    Gentle f m P (afterwards x clean) :=
  ⟨afterwards_ends hx.ended (fun _ m' h => ⟨h.1.trans (hc m'), h.2⟩) fun _ _ h => h⟩

/-! ## Steps -/

theorem LooksUp.gentle : ∀ {r : Exec.Result α},
    LooksUp (fun e => ¬ e.Permitted) m r → GentleEnd f m (fun _ => True) r
  | .ok _ _, h => ⟨h.sameCells, trivial⟩
  | .error _ _, h => .inr h.2

/-- A look-up can only come upon a missing frame. -/
theorem Looks.gentle (hx : Looks (fun e => ¬ e.Permitted) x) : Gentle f m (fun _ => True) x := ⟨(hx m).gentle⟩

theorem gentle_changeFrame (id : ScopeId) (g : Frame → Frame × Option Value × α) :
    Gentle f m (fun _ => True) (changeFrame id g) := by
  constructor
  unfold changeFrame
  dsimp only
  split
  · exact Or.inr fun h => h
  · -- the change itself is one of the arena; then what it removed is dropped
    rename_i frame _
    have hset := m.sameCells_settle.trans (Store.sameCells_arena m.settle.store
      (m.settle.store.arena.setFrame id (g frame).1))
    exact ⟨hset.trans (sameCells_dropIf { m.settle with store := _ } (g frame).2.1), trivial⟩

theorem gentle_define (scope : ScopeId) (name : String) (v : Value) (declared : Option ValueType) :
    Gentle f m (fun _ => True) (define scope name v declared) :=
  (gentle_changeFrame _ _).onFailure _

theorem gentle_hold (id : ScopeId) : Gentle f m (fun _ => True) (hold id) := by
  constructor
  unfold hold
  dsimp only
  split
  · exact ⟨m.sameCells_settle.trans (Store.sameCells_arena _ _), trivial⟩
  · exact Or.inr fun h => h

theorem gentle_objectFor (id : ScopeId) : Gentle f m (fun _ => True) (objectFor id) :=
  (gentle_hold id).bind fun _ _ _ _ => (looks_frameName (fun _ h => h) id).gentle.bind fun _ _ _ _ => .pure trivial

theorem gentle_alloc (contents : Contents) : Gentle f m (fun _ => True) (alloc contents) :=
  ⟨m.store.sameCells_alloc contents, trivial⟩

theorem gentle_makeFrame (name : String) (kind : FrameKind) (parent : Option ScopeId) :
    Gentle f m (fun _ => True) (makeFrame name kind parent) :=
  ⟨m.sameCells_settle.trans (Store.sameCells_arena _ _), trivial⟩

/-- A computation in a frame of its own starts with the cells as they are. -/
theorem Gentle.inFrame {kind : FrameKind} {parent : ScopeId} {discard : α → Machine → Machine}
    (hx : ∀ id m', makeFrame name kind (some parent) m = .ok id m' →
      Gentle f { m' with stack := id :: m'.stack } P x) :
    Gentle f m P (inFrame name kind parent x discard) := by
  refine (gentle_makeFrame name kind (some parent)).bind fun id m1 hmake _ => ?_
  have hclose (m' : Machine) : m'.store.SameCells (m'.store.release id) :=
    (Store.ebbs_release m'.store id).sameCells
  refine (gentle_modify (.refl m1.store)).bind fun _ m2 hpush _ => ?_
  obtain rfl : m2 = { m1 with stack := id :: m1.stack } := by
    cases hpush
    rfl
  obtain ⟨hx⟩ := hx id m1 hmake
  constructor
  cases hr : x { m1 with stack := id :: m1.stack } with
  | ok a m' =>
    rw [hr] at hx
    dsimp only
    cases (m'.restack .pop).1 == some id with
    | true => exact ⟨hx.1.trans (hclose m'), hx.2⟩
    | false => exact Or.inr fun h => h
  | error e m' =>
    rw [hr] at hx
    dsimp only
    cases (m'.restack .pop).1 == some id with
    | true => exact hx
    | false => exact Or.inr fun h => h

theorem lookupInterfaces_qualified {scope : ScopeId} (hq : isQualified name = true)
    (hc : m.classes.load? name = some c) (hint : c.isInterface = true) :
    lookupInterfaces scope [name] m = .ok [c] m := by
  have hlookup : lookupClass scope name m = .ok (some c) m := by
    unfold lookupClass
    rw [if_pos hq]
    exact congrArg (fun found => EStateM.Result.ok found m) hc
  refine (bind_of_ok hlookup).trans ?_
  dsimp only
  rw [if_pos hint]
  rfl

/-- An adapter for an interface that is found under its qualified name. -/
theorem gentle_makeAdapter (scope : ScopeId) (hq : isQualified name = true)
    (hc : m.classes.load? name = some c) (hint : c.isInterface = true) :
    Gentle f m (fun _ => True) (makeAdapter scope [name]) := by
  have hfound : Gentle f m (fun _ => True) (lookupInterfaces scope [name]) := by
    constructor
    rw [lookupInterfaces_qualified hq hc hint]
    exact ⟨.refl _, trivial⟩
  refine hfound.bind fun interfaces m1 _ _ => ?_
  refine (gentle_objectFor scope).bind fun object m2 _ _ => ?_
  refine (looks_frameName (fun _ => id) scope).gentle.bind fun label m3 _ _ => ?_
  refine ((looks_makeTable (fun _ => id) scope interfaces).gentle.onFailure _).bind fun table m4 _ _ => ?_
  exact (gentle_alloc _).bind fun n m5 _ _ => .pure trivial

/-- Converting an argument that reaches its parameter. -/
theorem gentle_coerce (packaged : m.classes.Packaged) {v : Value} {t : ValueType} {p : Phase}
    (h : m.phase? v t = some p) : Gentle f m (fun _ => True) (coerce t v .passing) := by
  refine Gentle.get ?_
  rcases fit_of_phase h with ⟨w, hfit⟩ | ⟨scope, label, name, c, rfl, rfl, hc, hint, hfit⟩
  · rw [hfit]
    exact .pure trivial
  · rw [hfit]
    refine (gentle_makeAdapter scope (packaged name c hc) hc hint).afterwards fun m' => ?_
    exact sameCells_drop m' _

end Exec

end HostScript
