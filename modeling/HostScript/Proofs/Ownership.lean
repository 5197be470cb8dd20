import HostScript.Proofs.Balanced
import HostScript.Proofs.HandlerTables
import HostScript.Proofs.HonestHost

/-!
# Owning values during an evaluation

A computation starts with claims that it owns and ends with those of its result, while its callers keep claims
of their own. `Ready o r m` is a machine in which the running computation owns `o` and the others keep `r`: the
store is sound for both together, and what the machine works on is pinned by `r` alone. `Ends r own m P` says
how a computation that started in `m` may end: it owns what the result owns, or nothing if it fails, and it
fails with an internal error only if a reference dangles. The rules follow the ways in which computations are
put together.

Where evaluations may not hold frames (`Holding`), a computation leaves no frame behind that was not there
before. What is asked of the classes (`Trust`) is that their code is honest; where no host code runs,
nothing is asked of them (`Standing`).
-/

set_option autoImplicit false

namespace HostScript

variable {f : Failure}

/-- A failure that is not internal and not one of input, or that a dangling reference has caused. -/
def Failure.Permitted : Failure → Prop
  | .broken (.danglingReference _) => True
  | .broken _ | .input _ => False
  | _ => True

theorem Failure.permitted_ofFault (cause : Fault) : (Failure.ofFault cause).Permitted := trivial

theorem Failure.permitted_unread (d : Diagnostic) : (Failure.unread d).Permitted := trivial

theorem Failure.Permitted.locate (h : f.Permitted) (span : Span) (node : String) :
    (f.locate span node).Permitted := by
  unfold Failure.locate
  split
  · split <;> trivial
  · split <;> trivial
  · exact h

theorem Failure.Permitted.label (h : f.Permitted) (source : Option String) :
    (f.label source).Permitted := by
  unfold Failure.label
  split <;> trivial

/-- Whether evaluations may hold the frames that they make, as `this` and `super` do. -/
class Holding where
  allowed : Prop

/-- Frames may be held unless something else is said. -/
instance (priority := low) holdingAllowed : Holding := ⟨True⟩

/-- What is asked of the classes when some claims are kept. -/
class Trust where
  trusts : Multiset Claim → Classes → Prop
  mono : ∀ {r r' : Multiset Claim} {cs : Classes}, r ⊆ r' → trusts r cs → trusts r' cs

/-- Classes have to be honest and own only what is kept, unless something else is said. -/
instance (priority := low) trustHonest : Trust := ⟨Classes.Honest, Classes.Honest.mono⟩

/-- Nothing is asked of the classes. -/
abbrev trustAny : Trust := ⟨fun _ _ => True, fun _ _ => trivial⟩

section Lasting

variable [Holding] {s s' s'' : Store}

/-- The second store has no frame that is not in the first, unless frames may be held. -/
def Store.Lasts (s s' : Store) : Prop := Holding.allowed ∨ s.arena.Covers s'.arena

theorem Store.Lasts.refl (s : Store) : s.Lasts s := .inr (.refl _)

theorem Store.Lasts.trans (h : s.Lasts s') (h' : s'.Lasts s'') : s.Lasts s'' := by
  rcases h with h | h
  · exact .inl h
  · exact h'.imp_right h.trans

theorem Store.Shrinks.lasts (h : s.Shrinks s') : s.Lasts s' := .inr h.covers

theorem Store.lasts_retain (s : Store) (k : Claim) : s.Lasts (s.retain k) := (ebbs_retain s k).lasts

end Lasting

namespace Machine

variable {m m' m'' : Machine} {o o' r r' : Multiset Claim} {v : Value} {vs : List Value} {k : Claim}
  {s : Store} {id : ScopeId}

/-- What the machine works on is pinned. -/
structure Based (r : Multiset Claim) (m : Machine) : Prop where
  stack : m.stack ≠ []
  frames : ∀ id ∈ m.stack, m.store.Pinned r id
  global : m.store.Pinned r m.global
  utilities : m.store.Pinned r m.utilities

/-- The running computation owns some claims, and the others keep theirs. Nothing is said about the classes. -/
structure Standing (o r : Multiset Claim) (m : Machine) : Prop where
  sound : m.store.Sound (o + r)
  based : m.Based r

section

variable [Trust]

/-- What the machine works on is pinned, and its classes are as asked. -/
structure Kept (r : Multiset Claim) (m : Machine) : Prop extends m.Based r where
  classes : Trust.trusts r m.classes

/-- The running computation owns some claims, and the others keep theirs. -/
structure Ready (o r : Multiset Claim) (m : Machine) : Prop where
  sound : m.store.Sound (o + r)
  kept : m.Kept r

/-- What a computation brings about: the machine is ready again, everything pinned is as it was, and the
tables of adapters are accurate if they were before. -/
structure Yields (r o : Multiset Claim) (m m' : Machine) : Prop where
  ready : m'.Ready o r
  alike : m.Alike m'
  steady : m.store.Steady r m'.store
  truthful : m.store.Truthful → m'.store.Truthful

/-- What a computation leaves: what it brings about, and no new frame. -/
structure Leaves [Holding] (r o : Multiset Claim) (m m' : Machine) : Prop extends Yields r o m m' where
  lasting : m.store.Lasts m'.store

theorem Ready.standing (h : m.Ready o r) : m.Standing o r := ⟨h.sound, h.kept.toBased⟩

omit [Trust] in
theorem Based.mono (hr : r ⊆ r') (h : m.Based r) : m.Based r' :=
  ⟨h.stack, fun id hid => (h.frames id hid).mono hr, h.global.mono hr, h.utilities.mono hr⟩

theorem Kept.mono (hr : r ⊆ r') (h : m.Kept r) : m.Kept r' := ⟨h.toBased.mono hr, Trust.mono hr h.classes⟩

theorem Kept.lend (h : m.Kept r) : m.Kept (o + r) := h.mono Multiset.subset_add_right

theorem Kept.of_steady (h : m.Kept r) (ha : m.Alike m') (hs : m.store.Steady r m'.store) : m'.Kept r := by
  refine ⟨⟨?_, fun id hid => ?_, ?_, ?_⟩, ?_⟩
  · rw [ha.stack]
    exact h.stack
  · rw [ha.stack] at hid
    exact hs.pinned (h.frames id hid)
  · rw [ha.global]
    exact hs.pinned h.global
  · rw [ha.utilities]
    exact hs.pinned h.utilities
  · rw [ha.classes]
    exact h.classes

theorem Ready.live (h : m.Ready o r) (hid : m.store.Pinned r id) : m.store.arena.Live id :=
  hid.live h.sound Multiset.subset_add_right

theorem Ready.holds_owned (h : m.Ready o r) (hk : k ∈ o) : m.store.Holds k :=
  h.sound.holds_of_mem (Multiset.mem_add.2 (.inl hk))

/-- What others keep is there. -/
theorem Ready.holds (h : m.Ready o r) (hk : k ∈ r) : m.store.Holds k :=
  h.sound.holds_of_mem (Multiset.mem_add.2 (.inr hk))

/-- What is owned may as well be kept by others. -/
theorem Ready.lend (h : m.Ready (o + o') r) : m.Ready o (o' + r) :=
  ⟨by rw [← add_assoc]; exact h.sound, h.kept.lend⟩

theorem Yields.refl (h : m.Ready o r) : m.Yields r o m := ⟨h, .refl m, .refl r _, id⟩

theorem Yields.trans (h : m.Yields r o m') (h' : m'.Yields r o' m'') : m.Yields r o' m'' :=
  ⟨h'.ready, h.alike.trans h'.alike, h.steady.trans h'.steady, h'.truthful ∘ h.truthful⟩

/-- A change of the store that goes on from it and leaves it sound. -/
theorem Yields.ofStore (h : m.Ready o r) (hc : m.store.Continues s) (hs : s.Sound (o' + r)) :
    m.Yields r o' { m with store := s } := by
  have hsteady : m.store.Steady r s :=
    hc.steady hs Multiset.subset_add_right
  exact ⟨⟨hs, h.kept.of_steady (.ofStore m s) hsteady⟩, .ofStore m s, hsteady, hc.truthful h.sound hs⟩

omit [Trust] in
theorem foldl_retain (vs : List Value) : ∀ m : Machine, vs.foldl Machine.retain m =
    { m with store := m.store.retainAll (vs.filterMap Value.claim?) } := by
  induction vs with
  | nil => exact fun m => rfl
  | cons v vs ih =>
    intro m
    rw [List.foldl_cons, ih]
    unfold Machine.retain
    cases hv : v.claim? with
    | none => rw [List.filterMap_cons_none hv]
    | some k =>
      rw [List.filterMap_cons_some hv]
      rfl

end

/-- Where nothing is asked of the classes, a machine that stands is ready. -/
theorem Standing.ready (h : m.Standing o r) : @Ready trustAny o r m :=
  @Ready.mk trustAny o r m h.sound (@Kept.mk trustAny r m h.based trivial)

variable [Holding] [Trust]

theorem Leaves.refl (h : m.Ready o r) : m.Leaves r o m := ⟨.refl h, .refl _⟩

theorem Leaves.trans (h : m.Leaves r o m') (h' : m'.Leaves r o' m'') : m.Leaves r o' m'' :=
  ⟨h.toYields.trans h'.toYields, h.lasting.trans h'.lasting⟩

theorem Leaves.pinned (h : m.Leaves r o m') (hid : m.store.Pinned r id) : m'.store.Pinned r id :=
  h.steady.pinned hid

theorem Leaves.ofStore (h : m.Ready o r) (hc : m.store.Continues s) (hl : m.store.Lasts s)
    (hs : s.Sound (o' + r)) : m.Leaves r o' { m with store := s } :=
  ⟨.ofStore h hc hs, hl⟩

theorem Leaves.shrinks (h : m.Ready o r) (hc : m.store.Shrinks s) (hs : s.Sound (o' + r)) :
    m.Leaves r o' { m with store := s } :=
  .ofStore h hc.continues hc.lasts hs

/-- The lender gets back what was lent. -/
theorem Leaves.unlend (h : m.Kept r) (hl : m.Leaves (o' + r) o m') : m.Leaves r (o + o') m' := by
  have hsteady := hl.steady.mono Multiset.subset_add_right
  exact ⟨⟨⟨by rw [add_assoc]; exact hl.ready.sound, h.of_steady hl.alike hsteady⟩, hl.alike, hsteady,
    hl.truthful⟩, hl.lasting⟩

theorem Ready.drop (h : m.Ready (v.claims + o) r) : m.Leaves r o (m.drop v) := by
  have hs := h.sound
  unfold Machine.drop
  unfold Value.claims at h hs
  cases hv : v.claim? with
  | none =>
    simp only [hv, Option.elim_none, zero_add] at h
    exact .refl h
  | some k =>
    simp only [hv, Option.elim_some, add_assoc] at hs
    exact .shrinks h (Store.ebbs_drop _ k).toShrinks (Store.unwinds_sound.drop hs)

theorem Ready.dropAll (vs : List Value) : ∀ {m : Machine} {o : Multiset Claim},
    m.Ready (claimsOf vs + o) r → m.Leaves r o (m.dropAll vs) := by
  induction vs with
  | nil => exact fun h => .refl (by simpa using h)
  | cons v vs ih =>
    intro m o h
    rw [claimsOf_cons, add_assoc] at h
    have h1 := h.drop
    exact h1.trans (ih h1.ready)

/-- Owners can be added to everything that is there. -/
theorem Ready.retainClaims (ks : List Claim) : ∀ {m : Machine} {o : Multiset Claim}, m.Ready o r →
    (∀ k ∈ ks, m.store.Holds k) →
    m.Leaves r (ks + o) { m with store := m.store.retainAll ks } := by
  induction ks with
  | nil => exact fun h _ => .refl (by simpa using h)
  | cons k ks ih =>
    intro m o h hk
    have hsound := h.sound.retain (hk k List.mem_cons_self)
    rw [← add_assoc] at hsound
    -- the claims that are left to copy are on things that are still there
    have h1 := Leaves.ofStore h (Store.continues_retain _ k) (Store.lasts_retain _ k) hsound
    have h2 := h1.trans (ih h1.ready fun k' hk' => (hk k' (List.mem_cons_of_mem _ hk')).retain)
    rw [← add_assoc, ← Multiset.coe_singleton, Multiset.coe_add] at h2
    rwa [← List.singleton_append, ← Multiset.coe_add, add_comm ([k] : Multiset Claim), Multiset.coe_add]

theorem Ready.retainAll (vs : List Value) (h : m.Ready o r) (hv : ∀ k ∈ claimsOf vs, m.store.Holds k) :
    m.Leaves r (claimsOf vs + o) (vs.foldl Machine.retain m) := by
  rw [← coe_filterMap_claim] at hv ⊢
  rw [foldl_retain]
  exact h.retainClaims _ hv

theorem Ready.retain (h : m.Ready o r) (hv : ∀ k ∈ v.claims, m.store.Holds k) :
    m.Leaves r (v.claims + o) (m.retain v) := by
  have hone : claimsOf [v] = v.claims := by simp
  rw [← hone] at hv ⊢
  exact h.retainAll [v] hv

/-- Settling leaves no release queued. -/
theorem Ready.settle (h : m.Ready o r) : m.Leaves r o m.settle ∧ m.settle.store.arena.dropped = [] := by
  rw [settle_eq]
  obtain ⟨hs, hq⟩ := Store.unwinds_sound.settle h.sound
  exact ⟨.shrinks h (Store.ebbs_settle _).toShrinks hs, hq⟩

end Machine

namespace Exec

open Machine

variable [Holding] [Trust] {α β : Type} {m m' : Machine} {o o' r : Multiset Claim} {v : Value} {vs : List Value}
  {own : α → Multiset Claim} {own' : β → Multiset Claim} {P Q : α → Machine → Prop} {R : α → Prop}
  {x : Exec α} {f : α → Exec β} {a : α}

/-- How a computation that started in a machine has ended: owning what its result owns, or nothing. -/
def Ended (r : Multiset Claim) (own : α → Multiset Claim) (m : Machine) (P : α → Machine → Prop) :
    Exec.Result α → Prop
  | .ok a m' => m.Leaves r (own a) m' ∧ P a m'
  | .error f m' => m.Leaves r 0 m' ∧ f.Permitted

/-- How a computation ends in a machine. -/
structure Ends (r : Multiset Claim) (own : α → Multiset Claim) (m : Machine)
    (P : α → Machine → Prop) (x : Exec α) : Prop where
  ended : Ended r own m P (x m)

/-- A computation ends, owning what its result owns. -/
abbrev Owns (r : Multiset Claim) (own : α → Multiset Claim) (m : Machine) (x : Exec α) : Prop :=
  Ends r own m (fun _ _ => True) x

theorem Ends.imp (h : Ends r own m P x) (hp : ∀ a m', m.Leaves r (own a) m' → P a m' → Q a m') :
    Ends r own m Q x := by
  obtain ⟨h⟩ := h
  constructor
  cases hr : x m with
  | ok a m' =>
    rw [hr] at h
    exact ⟨h.1, hp a m' h.1 h.2⟩
  | error f m' =>
    rw [hr] at h
    exact h

theorem Ends.ok (h : Ends r own m P x) (hr : x m = .ok a m') : m.Leaves r (own a) m' ∧ P a m' := by
  obtain ⟨h⟩ := h
  rwa [hr] at h

theorem Ends.error {f : Failure} (h : Ends r own m P x) (hr : x m = .error f m') :
    m.Leaves r 0 m' ∧ f.Permitted := by
  obtain ⟨h⟩ := h
  rwa [hr] at h

/-- What came before an end belongs to it. -/
theorem Ended.after {res : Exec.Result α} (hl : m.Leaves r o m')
    (h : Ended r own m' P res) : Ended r own m P res := by
  cases res with
  | ok a m'' => exact ⟨hl.trans h.1, h.2⟩
  | error f m'' => exact ⟨hl.trans h.1, h.2⟩

/-- The end of a computation during which more was kept. -/
theorem Ends.unlend (hm : m.Kept r) (h : Ends (o + r) own m P x) :
    (∀ a m', x m = .ok a m' → m.Leaves r (own a + o) m' ∧ P a m') ∧
      ∀ f m', x m = .error f m' → m.Leaves r o m' ∧ f.Permitted := by
  obtain ⟨h⟩ := h
  refine ⟨fun a m' hr => ?_, fun f m' hr => ?_⟩
  · rw [hr] at h
    exact ⟨.unlend hm h.1, h.2⟩
  · rw [hr] at h
    have := Leaves.unlend hm h.1
    rw [zero_add] at this
    exact ⟨this, h.2⟩

/-! ## Putting computations together -/

theorem Ends.pure (h : m.Ready (own a) r) (hp : P a m) : Ends r own m P (Pure.pure a : Exec α) :=
  ⟨.refl h, hp⟩

theorem Ends.throw {e : Failure} (h : m.Ready 0 r) (he : e.Permitted) :
    Ends r own m P (MonadExcept.throw e : Exec α) :=
  ⟨.refl h, he⟩

theorem Ends.fault (h : m.Ready 0 r) (cause : Fault) : Ends r own m P (Exec.fault cause : Exec α) :=
  .throw h trivial

theorem Ends.bind {Q : β → Machine → Prop} (hx : Ends r own m P x)
    (hf : ∀ a m', m.Leaves r (own a) m' → P a m' → Ends r own' m' Q (f a)) :
    Ends r own' m Q (x >>= f) :=
  ⟨bind_ends hx.ended (fun a m' h => .after h.1 (hf a m' h.1 h.2).ended) fun _ _ h => h⟩

/-- Nothing comes after a computation that always fails. -/
theorem Ends.failing {Q : β → Machine → Prop} (hx : Ends r (fun _ => 0) m (fun _ _ => False) x) :
    Ends r own' m Q (x >>= f) :=
  hx.bind fun _ _ _ hgone => hgone.elim

/-- A computation that looks at the machine. -/
theorem Ends.get {f : Machine → Exec α} (hf : Ends r own m P (f m)) :
    Ends r own m P (MonadState.get >>= f) :=
  ⟨hf.ended⟩

theorem Ends.mapFailure {g : Failure → Failure} (hg : ∀ e, e.Permitted → (g e).Permitted)
    (hx : Ends r own m P x) : Ends r own m P (mapFailure x g) :=
  ⟨mapFailure_ends hx.ended (fun _ _ h => h) fun e _ h => ⟨h.1, hg e h.2⟩⟩

theorem Ends.locating (hx : Ends r own m P x) (span : Span) (node : Unit → String) :
    Ends r own m P (locating span node x) :=
  hx.mapFailure fun _ h => h.locate span _

/-- A computation that drops values when it fails. -/
theorem Ends.orDropAll (h : m.Ready (o + claimsOf vs) r)
    (hx : m.Ready o (claimsOf vs + r) → Ends (claimsOf vs + r) own m P x) :
    Ends r (fun a => own a + claimsOf vs) m P (onFailure x (·.dropAll vs)) := by
  -- while the computation runs, the values count among what others keep
  obtain ⟨hok, herror⟩ := (hx h.lend).unlend h.kept
  constructor
  unfold Exec.onFailure
  cases hr : x m with
  | ok a m' => exact hok a m' hr
  | error e m' =>
    obtain ⟨hl, he⟩ := herror e m' hr
    rw [← add_zero (claimsOf vs)] at hl
    exact ⟨hl.trans (hl.ready.dropAll vs), he⟩

/-- A computation that drops a value when it fails. -/
theorem Ends.unlessFailed (h : m.Ready (o + v.claims) r)
    (hx : m.Ready o (v.claims + r) → Ends (v.claims + r) own m P x) :
    Ends r (fun a => own a + v.claims) m P (unlessFailed v x) := by
  have hv : v.claims = claimsOf [v] := by simp
  rw [hv] at h hx ⊢
  exact Ends.orDropAll h hx

/-- A computation that gives back the claim of a value of which it has dropped nothing. -/
theorem Ends.givingBack (h : m.Ready v.claims r) (hx : m.Ready 0 (v.claims + r) →
      Ends (v.claims + r) (fun _ => 0) m (fun a _ => own a = v.claims ∧ R a) x) :
    Ends r own m (fun a _ => R a) (Exec.unlessFailed v x) := by
  rw [← zero_add v.claims] at h
  have hends := Ends.unlessFailed h hx
  obtain ⟨hends⟩ := hends
  constructor
  cases hr : Exec.unlessFailed v x m with
  | ok a m' =>
    rw [hr] at hends
    obtain ⟨hl, ha, hR⟩ := hends
    rw [zero_add, ← ha] at hl
    exact ⟨hl, hR⟩
  | error e m' =>
    rw [hr] at hends
    exact hends

/-- A computation after which values are dropped. -/
theorem Ends.holdingAll (h : m.Ready (o + claimsOf vs) r)
    (hx : m.Ready o (claimsOf vs + r) → Ends (claimsOf vs + r) own m (fun a _ => R a) x) :
    Ends r own m (fun a _ => R a) (holdingAll vs x) := by
  obtain ⟨hok, herror⟩ := (hx h.lend).unlend h.kept
  constructor
  unfold Exec.holdingAll Exec.afterwards
  cases hr : x m with
  | ok a m' =>
    obtain ⟨hl, hR⟩ := hok a m' hr
    rw [add_comm] at hl
    exact ⟨hl.trans (hl.ready.dropAll vs), hR⟩
  | error e m' =>
    obtain ⟨hl, he⟩ := herror e m' hr
    rw [← add_zero (claimsOf vs)] at hl
    exact ⟨hl.trans (hl.ready.dropAll vs), he⟩

/-- A computation after which a value is dropped. -/
theorem Ends.holding (h : m.Ready v.claims r)
    (hx : m.Ready 0 (v.claims + r) → Ends (v.claims + r) own m (fun a _ => R a) x) :
    Ends r own m (fun a _ => R a) (holding v x) := by
  have hv : v.claims = claimsOf [v] := by simp
  rw [hv] at h hx
  rw [← zero_add (claimsOf [v])] at h
  exact Ends.holdingAll h hx

end Exec

end HostScript
