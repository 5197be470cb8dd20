import HostScript.Proofs.NameSites

/-!
# What frames bind

Two arenas bind the same when they have the same frames, the counts of owners left aside. A computation is
`Still` when, started with nothing queued, it changes no binding and queues nothing unless it fails. Looking
at frames is still, and so are the conversions of values, up to the value that an adapter stands for.
-/

set_option autoImplicit false

namespace HostScript

/-- The frame without its count of owners. -/
def Frame.bindings (f : Frame) : Frame := { f with owners := 0 }

/-- What the frame of that name binds, if it is live. -/
def Arena.bindings (a : Arena) (id : ScopeId) : Option Frame := (a.frame? id).map Frame.bindings

namespace Arena

variable {a b : Arena} {id : ScopeId} {f g : Frame}

theorem bindings_of_frame? (h : a.frame? id = some f) : a.bindings id = some f.bindings := by
  unfold bindings
  rw [h]
  rfl

theorem exists_frame?_of_bindings (h : a.bindings id = some g) :
    ∃ f, a.frame? id = some f ∧ f.bindings = g :=
  Option.map_eq_some_iff.1 h

/-- A frame that is written binds what it is written to. -/
theorem bindings_setFrame (h : a.Live id) (g : Frame) :
    (a.setFrame id g).bindings = Function.update a.bindings id (some g.bindings) := by
  funext k
  unfold bindings
  rw [frame?_setFrame h]
  by_cases hk : k = id
  · subst hk
    rw [if_pos rfl, Function.update_self]
    rfl
  · rw [if_neg hk, Function.update_of_ne hk]

/-- Another count of owners is no other binding. -/
theorem bindings_setFrame_owners (h : a.frame? id = some f) (n : Nat) :
    (a.setFrame id { f with owners := n }).bindings = a.bindings := by
  rw [bindings_setFrame (live_of_frame? h)]
  exact Function.update_eq_self_iff.2 (bindings_of_frame? h).symm

theorem bindings_retain (a : Arena) (id : ScopeId) : (a.retain id).bindings = a.bindings := by
  unfold retain
  cases h : a.frame? id with
  | none => rfl
  | some f => exact bindings_setFrame_owners h _

theorem bindings_of_slots (h : b.slots = a.slots) : b.bindings = a.bindings := by
  funext k
  unfold bindings frame?
  rw [h]

/-- Frames that are there after releases bind what they did. -/
theorem bindings_of_kept
    (h : ∀ k g, b.frame? k = some g → ∃ f, a.frame? k = some f ∧ g = { f with owners := g.owners })
    (hb : b.bindings id = some g) : a.bindings id = some g := by
  obtain ⟨g', hg', rfl⟩ := exists_frame?_of_bindings hb
  obtain ⟨f, hf, hfg⟩ := h id g' hg'
  rw [bindings_of_frame? hf, hfg]
  rfl

end Arena

namespace Machine

variable {m : Machine} {o : Multiset Claim} {id : ScopeId} {f : Frame}

theorem bindings_drop (m : Machine) (v : Value) :
    (m.drop v).store.arena.bindings = m.store.arena.bindings := by
  unfold Machine.drop
  cases v.claim? with
  | none => rfl
  | some k => exact Arena.bindings_of_slots (Store.sheds_dropAt _ _ k).slots

theorem bindings_retain (m : Machine) (v : Value) :
    (m.retain v).store.arena.bindings = m.store.arena.bindings := by
  unfold Machine.retain
  cases v.claim? with
  | none => rfl
  | some k =>
    cases k with
    | cell n => rfl
    | frame id => exact m.store.arena.bindings_retain id

/-- Settling takes frames away and leaves those that remain as they are. -/
theorem bindings_settle {g : Frame} (hg : m.settle.store.arena.bindings id = some g) :
    m.store.arena.bindings id = some g :=
  Arena.bindings_of_kept (ebbing_settle.ebbs m).frames hg

/-- A release that leaves a frame with an owner frees nothing: it takes the owner away. -/
theorem settle_shared (hq : m.store.arena.dropped = [id]) (hf : m.store.arena.frame? id = some f)
    (ho : 1 < f.owners) : m.settle = { m with store := { m.store with
      arena := ({ m.store.arena with dropped := [] } : Arena).setFrame id { f with owners := f.owners - 1 } } } := by
  have hf' : ({ m.store.arena with dropped := [] } : Arena).frame? id = some f := hf
  have hrelease : ({ m.store.arena with dropped := [] } : Arena).release id =
      ([], ({ m.store.arena with dropped := [] } : Arena).setFrame id
        { f with owners := f.owners - 1 }) := by
    unfold Arena.release Arena.releaseFrom
    rw [hf']
    dsimp only
    rw [if_neg (by omega)]
  have hdrain : m.store.arena.drain = ([], ({ m.store.arena with dropped := [] } : Arena).setFrame id
        { f with owners := f.owners - 1 }) := by
    unfold Arena.drain
    rw [hq, List.reverse_singleton]
    unfold Arena.releaseAll
    rw [hrelease]
    rfl
  have hround : m.store.settleRound = { m.store with
      arena := ({ m.store.arena with dropped := [] } : Arena).setFrame id
        { f with owners := f.owners - 1 } } := by
    unfold Store.settleRound
    rw [hdrain]
    rfl
  have hstore : m.store.settle = m.store.settleRound := by
    show Store.settleWithin _ _ = _
    rw [Store.settleWithin_succ, if_neg (by rw [hq]; exact Bool.false_ne_true), hround,
      Store.settleWithin_of_settled rfl]
  rw [settle_eq, hstore, hround]

theorem bindings_settle_shared (hq : m.store.arena.dropped = [id])
    (hf : m.store.arena.frame? id = some f) (ho : 1 < f.owners) :
    m.settle.store.arena.bindings = m.store.arena.bindings := by
  have hf' : ({ m.store.arena with dropped := [] } : Arena).frame? id = some f := hf
  rw [settle_shared hq hf ho]
  exact Arena.bindings_setFrame_owners hf' _

end Machine

namespace Exec

variable {α β : Type} {P : α → Machine → Prop} {Q : β → Machine → Prop} {x : Exec α}
  {f : α → Exec β} {a : α} {e : Failure} {occasion : Occasion} {type : ValueType}

/-- Started with nothing queued, a computation changes no binding, and it queues nothing unless it
fails. -/
def Still (P : α → Machine → Prop) (x : Exec α) : Prop :=
  ∀ m : Machine, m.store.arena.dropped = [] →
    match x m with
    | .ok a m' => m'.store.arena.dropped = [] ∧ m'.store.arena.bindings = m.store.arena.bindings ∧ P a m'
    | .error _ m' => m'.store.arena.bindings = m.store.arena.bindings

theorem Still.ok (h : Still P x) {m m' : Machine} (hq : m.store.arena.dropped = [])
    (hx : x m = .ok a m') : m'.store.arena.dropped = [] ∧
      m'.store.arena.bindings = m.store.arena.bindings ∧ P a m' := by
  have hm := h m hq
  rwa [hx] at hm

theorem Still.error (h : Still P x) {m m' : Machine} (hq : m.store.arena.dropped = [])
    (hx : x m = .error e m') : m'.store.arena.bindings = m.store.arena.bindings := by
  have hm := h m hq
  rwa [hx] at hm

theorem still_throw (e : Failure) : Still P (throw e : Exec α) := fun _ _ => rfl

theorem still_fault (cause : Fault) : Still P (fault cause : Exec α) := still_throw _

theorem Still.bind (hx : Still P x) (hf : ∀ a, Still Q (f a)) : Still Q (x >>= f) := by
  intro m hq
  cases hr : x m with
  | error e m1 =>
    rw [bind_of_error hr]
    exact hx.error hq hr
  | ok a m1 =>
    rw [bind_of_ok hr]
    obtain ⟨hq1, hb1, -⟩ := hx.ok hq hr
    have hm := hf a m1 hq1
    cases hr1 : f a m1 with
    | ok b m2 =>
      rw [hr1] at hm
      exact ⟨hm.1, hm.2.1.trans hb1, hm.2.2⟩
    | error e m2 =>
      rw [hr1] at hm
      exact hm.trans hb1

theorem Still.unlessFailed (hx : Still P x) (v : Value) : Still P (unlessFailed v x) := by
  intro m hq
  cases hr : x m with
  | ok a m1 =>
    rw [unlessFailed_of_ok hr]
    exact hx.ok hq hr
  | error e m1 =>
    rw [unlessFailed_of_error hr]
    exact (m1.bindings_drop v).trans (hx.error hq hr)

/-- Where nothing is queued, a look-up changes nothing at all. -/
theorem Looks.still (hx : Looks (fun _ => True) x) : Still (fun _ _ => True) x := by
  intro m hq
  have hends := hx m
  cases hr : x m with
  | ok a m' =>
    rw [hr] at hends
    rw [hends.eq_self hq]
    exact ⟨hq, rfl, trivial⟩
  | error e m' =>
    rw [hr] at hends
    rw [hends.1.eq_self hq]

theorem still_hold (id : ScopeId) : Still (fun _ _ => True) (hold id) := by
  intro m hq
  have hs := Machine.settle_of_settled hq
  unfold hold Arena.hold
  dsimp only
  rw [hs]
  cases m.store.arena.frame? id with
  | none => rfl
  | some f =>
    refine ⟨?_, m.store.arena.bindings_retain id, trivial⟩
    exact (dropped_retain m (.object id "")).trans hq

theorem still_objectFor (id : ScopeId) : Still (fun _ _ => True) (objectFor id) :=
  (still_hold id).bind fun _ => (looks_frameName (fun _ => trivial) id).still.bind fun _ =>
    (looks_pure _).still

/-- A cell is made with the contents given. -/
theorem still_alloc (contents : Contents) :
    Still (fun n m => ∃ c, m.store.cell? n = some c ∧ c.contents = contents) (alloc contents) := by
  intro m hq
  refine ⟨hq, rfl, { contents }, ?_, rfl⟩
  show (m.store.alloc contents).2.cell? m.store.cells.size = _
  rw [Store.cell?_alloc, if_pos rfl]

/-! ## Conversions -/

/-- An adapter keeps the frame that it stands for. -/
def Adapts (scope : ScopeId) (w : Value) (m : Machine) : Prop :=
  ∃ n c, w = .host n adapterClassName ∧ m.store.cell? n = some c ∧ .frame scope ∈ c.contents.claims

theorem still_makeAdapter (scope : ScopeId) (names : List String) :
    Still (Adapts scope) (makeAdapter scope names) := by
  have hstale : ∀ id, (fun _ : Failure => True) (.broken (.staleFrame id)) := fun _ => trivial
  refine (looks_lookupInterfaces hstale (fun _ => trivial) scope names).still.bind fun interfaces => ?_
  refine (still_objectFor scope).bind fun object => (looks_frameName hstale scope).still.bind fun label => ?_
  refine ((looks_makeTable hstale scope interfaces).still.unlessFailed object).bind fun table => ?_
  intro m hq
  obtain ⟨hq1, hb1, c, hc, hcontents⟩ :=
    (still_alloc (.adapter { scope, label, interfaces, table })).ok (m := m) hq rfl
  refine ⟨hq1, hb1, _, c, rfl, hc, ?_⟩
  rw [hcontents]
  exact List.mem_singleton.2 rfl

variable {m m' : Machine} {r : Multiset Claim} {v w : Value}

theorem holding_eq_ok (hx : holding v x m = .ok a m') : ∃ m1, x m = .ok a m1 ∧ m' = m1.drop v := by
  unfold holding afterwards at hx
  cases hr : x m with
  | ok b m1 =>
    rw [hr] at hx
    cases hx
    exact ⟨m1, rfl, rfl⟩
  | error e m1 =>
    rw [hr] at hx
    cases hx

theorem holding_eq_error (hx : holding v x m = .error e m') :
    ∃ m1, x m = .error e m1 ∧ m' = m1.drop v := by
  unfold holding afterwards at hx
  cases hr : x m with
  | ok b m1 =>
    rw [hr] at hx
    cases hx
  | error f m1 =>
    rw [hr] at hx
    cases hx
    exact ⟨m1, rfl, rfl⟩

/-- A frame that is queued once and claimed in a cell has another owner. -/
theorem owners_of_queued {scope : ScopeId} {o : Multiset Claim} {n : Nat} {c : Cell}
    (hs : m.store.Sound o) (hq : m.store.arena.dropped = [scope]) (hc : m.store.cell? n = some c)
    (hk : .frame scope ∈ c.contents.claims) :
    ∃ f, m.store.arena.frame? scope = some f ∧ 1 < f.owners := by
  obtain ⟨f, hf⟩ := Arena.live_iff.1 (hs.holds_of_cell hc hk)
  have howners := hs.frames.owners scope
  have hclaimed := Store.claimed_pos_of_cell hc hk
  rw [Arena.ownersOf_eq hf, hq, List.count_singleton_self] at howners
  exact ⟨f, hf, by omega⟩

/-- Converting a value changes no binding, and neither does applying what it has queued once the result
is copied: the frame of a scripted object that became an adapter is kept by the adapter. -/
theorem bindings_coerce [Trust] (h : m.Ready v.claims r) (hq : m.store.arena.dropped = [])
    (hx : coerce type v occasion m = .ok w m') :
    (m'.retain w).settle.store.arena.bindings = m.store.arena.bindings := by
  have hready := ((ends_coerce type occasion h).ok hx).1.ready
  have hstep := (get_bind m).symm.trans hx
  cases hfit : m.fit type v occasion with
  | error cause =>
    simp only [hfit] at hstep
    cases hstep
  | ok found =>
    simp only [hfit] at hstep
    cases found with
    | value u =>
      cases hstep
      rw [Machine.settle_of_settled ((dropped_retain m w).trans hq)]
      exact m.bindings_retain w
    | adapter scope =>
      obtain ⟨name, rfl⟩ := ofValue_fit hfit
      obtain ⟨m1, hmade, rfl⟩ := holding_eq_ok hstep
      obtain ⟨hq1, hb1, n, c, rfl, hc, hk⟩ := (still_makeAdapter scope _).ok hq hmade
      -- the scripted object is all that is queued
      have hqueued : (m1.drop (.object scope name)).store.arena.dropped = [scope] := by
        show scope :: m1.store.arena.dropped = [scope]
        rw [hq1]
      have hdrop := m1.bindings_drop (.object scope name)
      obtain ⟨f, hf, ho⟩ := owners_of_queued hready.sound hqueued hc hk
      -- and copying the adapter is no matter of frames
      refine (Machine.bindings_settle_shared
        (m := (m1.drop (.object scope name)).retain (.host n adapterClassName))
        hqueued hf ho).trans ?_
      exact hdrop.trans hb1

theorem bindings_coerce_error (hq : m.store.arena.dropped = [])
    (hx : coerce type v occasion m = .error e m') :
    m'.store.arena.bindings = m.store.arena.bindings := by
  have hstep := (get_bind m).symm.trans hx
  cases hfit : m.fit type v occasion with
  | error cause =>
    simp only [hfit] at hstep
    exact ((still_fault cause).unlessFailed (P := fun _ _ => True) v).error hq hstep
  | ok found =>
    simp only [hfit] at hstep
    cases found with
    | value u => cases hstep
    | adapter scope =>
      obtain ⟨m1, hfailed, rfl⟩ := holding_eq_error hstep
      exact (m1.bindings_drop v).trans ((still_makeAdapter scope _).error hq hfailed)

end Exec

end HostScript
