import HostScript.Proofs.StoreSound

/-!
# Frames that stay

A frame is pinned by claims that somebody keeps for a while: on the frame itself, on an adapter over it, or on a
frame below. In a sound store pinned frames are live (`Pinned.live`), and as long as the claims are kept, no
change of the store touches their lineage (`Steady`). That is why the frames on the call stack are there
whatever a script does in the meantime.
-/

set_option autoImplicit false

namespace HostScript.Store

variable {s s' s'' : Store} {r r' o : Multiset Claim} {id : ScopeId} {n : Nat} {f g : Frame}
  {contents : Contents}

/-- A frame that claims keep alive. -/
inductive Pinned (r : Multiset Claim) (s : Store) : ScopeId → Prop
  | held {id : ScopeId} : .frame id ∈ r → Pinned r s id
  | adapter {n : Nat} {scope : ScopeId} : .cell n ∈ r → s.AdapterAt n scope → Pinned r s scope
  | parent {id p : ScopeId} : Pinned r s id → s.arena.ParentOf id p → Pinned r s p

theorem Pinned.mono (hr : r ⊆ r') (h : s.Pinned r id) : s.Pinned r' id := by
  induction h with
  | held hm => exact .held (hr hm)
  | adapter hm had => exact .adapter (hr hm) had
  | parent _ hp ih => exact .parent ih hp

/-- What is pinned stays so when more is kept. -/
theorem Pinned.lend (h : s.Pinned r id) : s.Pinned (o + r) id := h.mono Multiset.subset_add_right

theorem Pinned.above {d : ScopeId} (h : s.Pinned r id) (ha : s.arena.Above id d) : s.Pinned r d := by
  induction ha with
  | refl => exact h
  | tail _ hp ih => exact .parent ih hp

theorem Sound.live_of_adapterAt (h : s.Sound o) {scope : ScopeId} (had : s.AdapterAt n scope) :
    s.arena.Live scope := by
  obtain ⟨c, a, hc, hca, rfl⟩ := had
  exact h.holds_of_cell (k := .frame a.scope) hc (by rw [hca]; exact List.mem_singleton.2 rfl)

/-- Pinned frames are live. -/
theorem Pinned.live (hs : s.Sound o) (hr : r ⊆ o) (h : s.Pinned r id) : s.arena.Live id := by
  induction h with
  | held hm => exact hs.holds_of_mem (hr hm)
  | adapter _ had => exact hs.live_of_adapterAt had
  | parent _ hp _ => exact hs.frames.parent_live hp

/-- What claims pin is the same in both stores. -/
structure Steady (r : Multiset Claim) (s s' : Store) : Prop where
  frames : ∀ id p, s.Pinned r id → s.arena.ParentOf id p → s'.arena.ParentOf id p
  adapters : ∀ n scope, .cell n ∈ r → s.AdapterAt n scope → s'.AdapterAt n scope

theorem Steady.refl (r : Multiset Claim) (s : Store) : s.Steady r s :=
  ⟨fun _ _ _ hp => hp, fun _ _ _ had => had⟩

theorem Steady.pinned (h : s.Steady r s') (hp : s.Pinned r id) : s'.Pinned r id := by
  induction hp with
  | held hm => exact .held hm
  | adapter hm had => exact .adapter hm (h.adapters _ _ hm had)
  | parent hid hp ih => exact .parent ih (h.frames _ _ hid hp)

theorem Steady.trans (h : s.Steady r s') (h' : s'.Steady r s'') : s.Steady r s'' :=
  ⟨fun id p hid hp => h'.frames id p (h.pinned hid) (h.frames id p hid hp),
    fun n scope hm had => h'.adapters n scope hm (h.adapters n scope hm had)⟩

theorem Steady.mono (hr : r ⊆ r') (h : s.Steady r' s') : s.Steady r s' :=
  ⟨fun id p hid hp => h.frames id p (hid.mono hr) hp,
    fun n scope hm had => h.adapters n scope (hr hm) had⟩

/-- A change that leaves a sound store, and the claims in it, leaves what they pin. -/
theorem Continues.steady (hc : s.Continues s') (h : s'.Sound o) (hr : r ⊆ o) : s.Steady r s' := by
  have hadapters : ∀ n scope, .cell n ∈ r → s.AdapterAt n scope → s'.AdapterAt n scope :=
    fun n scope hm had => hc.adapters n scope had (h.holds_of_mem (hr hm))
  -- along a lineage, each frame has its old parent because it is live, and so its parent is live
  have hlive : ∀ id, s.Pinned r id → s'.arena.Live id := by
    intro id hid
    induction hid with
    | held hm => exact h.holds_of_mem (hr hm)
    | adapter hm had => exact h.live_of_adapterAt (hadapters _ _ hm had)
    | parent _ hp ih => exact h.frames.parent_live (hc.frames _ _ hp ih)
  exact ⟨fun id p hid hp => hc.frames id p hp (hlive id hid), hadapters⟩

/-! ## Changes that take nothing away -/

theorem continues_retain (s : Store) (k : Claim) : s.Continues (s.retain k) := (ebbs_retain s k).continues

theorem continues_create (h : s.Sound o) (name : String) (kind : FrameKind) (parent : Option ScopeId) :
    s.Continues { s with arena := (s.arena.create name kind parent).2 } :=
  ⟨Arena.keepsParents_create h.frames.orderly, fun _ _ had _ => had,
    Arena.keepsMethods_create h.frames.orderly name kind parent, fun _ _ ha => .inl ha⟩

theorem continues_write (hf : s.arena.frame? id = some f) (hp : g.parent = f.parent)
    (hm : g.methods = f.methods) : s.Continues { s with arena := s.arena.setFrame id g } :=
  ⟨(Arena.covers_setFrame hf hp).keepsParents, fun _ _ had _ => had, Arena.keepsMethods_setFrame hf hp hm,
    fun _ _ ha => .inl ha⟩

/-- The methods of a frame change, and the change is counted. -/
theorem continues_rewrite (hf : s.arena.frame? id = some f) (hp : g.parent = f.parent) :
    s.Continues { s with arena := { s.arena.setFrame id g with
      methodChanges := s.arena.methodChanges + 1 } } :=
  ⟨(Arena.covers_setFrame hf hp).keepsParents, fun _ _ had _ => had,
    ⟨Nat.le_succ _, fun h => absurd h (Nat.succ_ne_self _)⟩, fun _ _ ha => .inl ha⟩

/-- The number of method changes does not bear on who owns what. -/
theorem Sound.recount (h : s.Sound o) (n : Nat) :
    ({ s with arena := { s.arena with methodChanges := n } } : Store).Sound o :=
  h.ofArena ⟨⟨h.frames.orderly.1, h.frames.orderly.2⟩, h.frames.owners, h.frames.positive,
    fun k hk => Arena.Rooted.mono (a := s.arena) (fun _ f hf => ⟨f, hf, rfl⟩)
      (h.frames.rooted k hk)⟩ (fun _ => rfl) h.tidy fun _ _ hp _ => hp

theorem continues_alloc (s : Store) (ht : ∀ a, contents = .adapter a → a.table.Accurate a.scope s.arena) :
    s.Continues (s.alloc contents).2 := by
  refine ⟨fun _ _ hp _ => hp, fun n scope had _ => ?_, .refl _, fun n a ha => ?_⟩
  · obtain ⟨c, a, hc, hca, ha⟩ := had
    -- the new cell has a number of its own
    refine ⟨c, a, ?_, hca, ha⟩
    rw [cell?_alloc, if_neg, hc]
    rintro rfl
    rw [cell?_size] at hc
    exact absurd hc (by simp)
  · obtain ⟨c, hc, hca⟩ := ha
    rcases cell?_of_alloc hc with ⟨-, rfl⟩ | ⟨-, hc⟩
    · exact .inr (ht a hca)
    · exact .inl ⟨c, hc, hca⟩

theorem continues_setContents {c : Cell} (hc : s.cell? n = some c)
    (hsame : ∀ a, c.contents = .adapter a → ∃ a', contents = .adapter a' ∧ a'.scope = a.scope)
    (ht : ∀ a, contents = .adapter a → a.table.Accurate a.scope s.arena) :
    s.Continues (s.setContents n contents) := by
  refine ⟨fun _ _ hp _ => hp, fun k scope had _ => ?_, .refl _, fun k a ha => ?_⟩
  · obtain ⟨e, a, he, hea, ha⟩ := had
    unfold AdapterAt setContents
    rw [cell?_modifyCell]
    by_cases hk : k = n
    · subst hk
      rw [hc, Option.some.injEq] at he
      -- an adapter may be refreshed, but stays over the same frame
      obtain ⟨a', hcontents, hscope⟩ := hsame a (by rw [he, hea])
      rw [if_pos rfl, hc]
      exact ⟨_, a', rfl, hcontents, hscope.trans ha⟩
    · rw [if_neg hk]
      exact ⟨e, a, he, hea, ha⟩
  · obtain ⟨e, he, hea⟩ := ha
    rcases cell?_of_modifyCell he with ⟨_, -, -, rfl⟩ | ⟨-, he⟩
    · exact .inr (ht a hea)
    · exact .inl ⟨e, he, hea⟩

end HostScript.Store
