import HostScript.Proofs.ArenaSlots

/-!
# Frames and their ancestors

The lineage of a frame is the row of frames from it up to one without a parent. A frame that has a
lineage is not its own ancestor (`Lineage.not_own_ancestor`), its lineage is no longer than the slot
array (`Lineage.length_le`), and the bounded walks of the arena go through to its end
(`chain_eq_of_lineage`, `home_of_lineage`).
-/

set_option autoImplicit false

namespace HostScript.Arena

variable {f : Frame}

/-- A live frame has that parent. -/
def ParentOf (a : Arena) (id parent : ScopeId) : Prop :=
  ∃ f, a.frame? id = some f ∧ f.parent = some parent

/-- An ancestor of a frame, or the frame itself. -/
abbrev Above (a : Arena) : ScopeId → ScopeId → Prop := Relation.ReflTransGen a.ParentOf

/-- The frames from one up to one without a parent. -/
inductive Lineage (a : Arena) : ScopeId → List (ScopeId × Frame) → Prop
  | root {id : ScopeId} {f : Frame} :
      a.frame? id = some f → f.parent = none → Lineage a id [(id, f)]
  | child {id parent : ScopeId} {f : Frame} {l : List (ScopeId × Frame)} :
      a.frame? id = some f → f.parent = some parent → Lineage a parent l → Lineage a id ((id, f) :: l)

/-- A frame has a lineage. -/
def Rooted (a : Arena) (id : ScopeId) : Prop := ∃ l, a.Lineage id l

variable {a b c : Arena} {id : ScopeId} {l : List (ScopeId × Frame)}

theorem parentOf_unique {p q : ScopeId} (hp : a.ParentOf id p) (hq : a.ParentOf id q) : p = q := by
  obtain ⟨f, hf, hfp⟩ := hp
  obtain ⟨g, hg, hgq⟩ := hq
  rw [hf, Option.some.injEq] at hg
  rw [hg, hgq, Option.some.injEq] at hfp
  exact hfp.symm

namespace Lineage

/-- No frame with a lineage is its own ancestor. -/
theorem not_own_ancestor (h : a.Lineage id l) : ¬ Relation.TransGen a.ParentOf id id := by
  induction h with
  | root hf hp =>
    intro hc
    obtain ⟨q, ⟨g, hg, hgq⟩, -⟩ := Relation.TransGen.head'_iff.1 hc
    rw [hf, Option.some.injEq] at hg
    rw [← hg, hp] at hgq
    exact absurd hgq (by simp)
  | @child id p f l hf hp _ ih =>
    intro hc
    -- a way from the frame back to it leads through its parent, and so from the parent back to it
    obtain ⟨q, hq, hback⟩ := Relation.TransGen.head'_iff.1 hc
    have hqp : q = p := parentOf_unique hq ⟨f, hf, hp⟩
    subst hqp
    exact ih (Relation.TransGen.tail' hback hq)

theorem mem (h : a.Lineage id l) {e : ScopeId × Frame} (he : e ∈ l) :
    a.frame? e.1 = some e.2 ∧ a.Above id e.1 := by
  induction h with
  | root hf hp =>
    rw [List.mem_singleton] at he
    subst he
    exact ⟨hf, Relation.ReflTransGen.refl⟩
  | child hf hp _ ih =>
    rcases List.mem_cons.1 he with rfl | he
    · exact ⟨hf, Relation.ReflTransGen.refl⟩
    · obtain ⟨hfe, habove⟩ := ih he
      exact ⟨hfe, Relation.ReflTransGen.head ⟨_, hf, hp⟩ habove⟩

/-- The frames of a lineage are in different slots. -/
theorem nodup (h : a.Lineage id l) : (l.map fun e => e.1.index).Nodup := by
  induction h with
  | root hf hp => simp
  | @child id p f l hf hp hl ih =>
    rw [List.map_cons, List.nodup_cons]
    refine ⟨fun hm => ?_, ih⟩
    obtain ⟨e, he, hi⟩ := List.mem_map.1 hm
    obtain ⟨hfe, habove⟩ := hl.mem he
    -- a second frame of the lineage in this slot would be the frame itself, above itself
    have hid : e.1 = id := eq_of_live_of_index_eq (live_of_frame? hfe) (live_of_frame? hf) hi
    rw [hid] at habove
    exact not_own_ancestor (child hf hp hl) (Relation.TransGen.head' ⟨f, hf, hp⟩ habove)

theorem length_le (h : a.Lineage id l) : l.length ≤ a.slots.size := by
  -- the slots of a lineage are different numbers below the size of the array
  have hsub : (l.map fun e => e.1.index) ⊆ List.range a.slots.size := by
    intro i hi
    obtain ⟨e, he, rfl⟩ := List.mem_map.1 hi
    exact List.mem_range.2 (index_lt_of_live (live_of_frame? (h.mem he).1))
  have hle := (List.subperm_of_subset h.nodup hsub).length_le
  simpa using hle

theorem chainFrom_eq (h : a.Lineage id l) :
    ∀ budget, l.length ≤ budget → chainFrom budget a id = .ok l := by
  induction h with
  | root hf hp =>
    intro budget hb
    obtain ⟨n, rfl⟩ : ∃ n, budget = n + 1 := ⟨budget - 1, by simp at hb; omega⟩
    simp only [chainFrom, hf, hp]
  | child hf hp _ ih =>
    intro budget hb
    rw [List.length_cons] at hb
    obtain ⟨n, rfl⟩ : ∃ n, budget = n + 1 := ⟨budget - 1, by omega⟩
    simp only [chainFrom, hf, hp, ih n (by omega)]
    rfl

theorem homeFrom_ok (h : a.Lineage id l) :
    ∀ budget, l.length ≤ budget → ∃ e ∈ l, homeFrom budget a id = .ok e.1 := by
  induction h with
  | @root id f hf hp =>
    intro budget hb
    obtain ⟨n, rfl⟩ : ∃ n, budget = n + 1 := ⟨budget - 1, by simp at hb; omega⟩
    refine ⟨(id, f), List.mem_singleton.2 rfl, ?_⟩
    cases hk : f.kind <;> simp only [homeFrom, hf, hp, hk]
  | @child id p f l hf hp _ ih =>
    intro budget hb
    rw [List.length_cons] at hb
    obtain ⟨n, rfl⟩ : ∃ n, budget = n + 1 := ⟨budget - 1, by omega⟩
    obtain ⟨e, he, hr⟩ := ih n (by omega)
    cases hk : f.kind with
    | block => exact ⟨e, List.mem_cons_of_mem _ he, by simp only [homeFrom, hf, hp, hk, hr]⟩
    | root | call => exact ⟨(id, f), List.mem_cons_self, by simp only [homeFrom, hf, hp, hk]⟩

end Lineage

/-- The walk from a frame to its ancestors gives its lineage. -/
theorem chain_eq_of_lineage (h : a.Lineage id l) : a.chain id = .ok l :=
  h.chainFrom_eq _ (by have := h.length_le; omega)

/-- The walk to the nearest frame that is not a plain block ends at the frame or above it. -/
theorem home_of_lineage (h : a.Lineage id l) : ∃ home, a.home id = .ok home ∧ a.Above id home := by
  obtain ⟨e, he, hr⟩ := h.homeFrom_ok (a.slots.size + 1) (by have := h.length_le; omega)
  exact ⟨e.1, hr, (h.mem he).2⟩

/-! ## Lineages in a changed arena -/

/-- Every frame of the second arena is in the first, too, inside the same frame. -/
def Covers (a b : Arena) : Prop := ∀ k g, b.frame? k = some g → ∃ f, a.frame? k = some f ∧ f.parent = g.parent

theorem Covers.refl (a : Arena) : a.Covers a := fun _ g hg => ⟨g, hg, rfl⟩

theorem Covers.trans (h : a.Covers b) (h' : b.Covers c) : a.Covers c := by
  intro k g hg
  obtain ⟨f, hf, hfg⟩ := h' k g hg
  obtain ⟨e, he, hef⟩ := h k f hf
  exact ⟨e, he, hef.trans hfg⟩

theorem Covers.live (h : a.Covers b) (hl : b.Live id) : a.Live id := by
  obtain ⟨g, hg⟩ := live_iff.1 hl
  obtain ⟨f, hf, -⟩ := h id g hg
  exact live_of_frame? hf

/-- A lineage stays when frames keep their parents and none is lost. -/
theorem Rooted.mono (hkeep : b.Covers a) (h : a.Rooted id) : b.Rooted id := by
  obtain ⟨l, hl⟩ := h
  induction hl with
  | root hf hp =>
    obtain ⟨g, hg, hgp⟩ := hkeep _ _ hf
    exact ⟨_, .root hg (hgp.trans hp)⟩
  | child hf hp _ ih =>
    obtain ⟨g, hg, hgp⟩ := hkeep _ _ hf
    obtain ⟨l', hl'⟩ := ih
    exact ⟨_, .child hg (hgp.trans hp) hl'⟩

/-- A lineage stays when frames keep their parents, and no frame is lost before its children. -/
theorem Rooted.of_sub (hkeep : a.Covers b) (hclosed : ∀ id p, b.ParentOf id p → b.Live p)
    (h : a.Rooted id) (hl : b.Live id) : b.Rooted id := by
  obtain ⟨l, hlin⟩ := h
  induction hlin with
  | @root id f hf hp =>
    obtain ⟨g, hg⟩ := live_iff.1 hl
    obtain ⟨f', hf', hgp⟩ := hkeep _ _ hg
    rw [hf, Option.some.injEq] at hf'
    exact ⟨_, .root hg (by rw [← hgp, ← hf', hp])⟩
  | @child id p f l hf hp _ ih =>
    obtain ⟨g, hg⟩ := live_iff.1 hl
    obtain ⟨f', hf', hgp⟩ := hkeep _ _ hg
    rw [hf, Option.some.injEq] at hf'
    have hgp' : g.parent = some p := by rw [← hgp, ← hf', hp]
    -- the parent lives on because its child does, and has its own lineage
    obtain ⟨l', hl'⟩ := ih (hclosed id p ⟨g, hg, hgp'⟩)
    exact ⟨_, .child hg hgp' hl'⟩

/-! ## Arenas that fade -/

/-- The second arena has no frames that the first has not, up to the counts of owners. -/
structure Fades (a b : Arena) : Prop where
  kept : ∀ k g, b.frame? k = some g → ∃ f, a.frame? k = some f ∧ g = { f with owners := g.owners }
  changes : b.methodChanges = a.methodChanges

theorem Fades.refl (a : Arena) : a.Fades a := ⟨fun _ g hg => ⟨g, hg, rfl⟩, rfl⟩

theorem Fades.trans (h : a.Fades b) (h' : b.Fades c) : a.Fades c := by
  refine ⟨fun k g hg => ?_, h'.changes.trans h.changes⟩
  obtain ⟨f, hf, hgf⟩ := h'.kept k g hg
  obtain ⟨e, he, hfe⟩ := h.kept k f hf
  exact ⟨e, he, by rw [hgf, hfe]⟩

theorem Fades.covers (h : a.Fades b) : a.Covers b := by
  intro k g hg
  obtain ⟨f, hf, hgf⟩ := h.kept k g hg
  exact ⟨f, hf, by rw [hgf]⟩

theorem fades_setFrame (hf : a.frame? id = some f) (n : Nat) :
    a.Fades (a.setFrame id { f with owners := n }) := by
  refine ⟨fun k g hg => ?_, rfl⟩
  rcases frame?_of_setFrame (live_of_frame? hf) hg with ⟨rfl, rfl⟩ | ⟨-, hg⟩
  · exact ⟨f, hf, rfl⟩
  · exact ⟨g, hg, rfl⟩

theorem fades_retain (a : Arena) (id : ScopeId) : a.Fades (a.retain id) := by
  unfold retain
  cases hf : a.frame? id with
  | none => exact .refl a
  | some f => exact fades_setFrame hf _

theorem fades_vacate (a : Arena) (i : Nat) : a.Fades (a.vacate i) :=
  ⟨fun _ g hg => ⟨g, (frame?_of_vacate hg).2, rfl⟩, rfl⟩

/-- A quantity that does not depend on the count of a frame. -/
def OwnerBlind (w : Frame → Nat) : Prop := ∀ f n, w { f with owners := n } = w f

/-- What releases leave: the freed frames account for what is gone. -/
structure Released (a b : Arena) (freed : List Frame) : Prop extends a.Fades b where
  tally : ∀ w, OwnerBlind w → tally w a = tally w b + (freed.map w).sum
  dropped : b.dropped = a.dropped

theorem Released.refl (a : Arena) : Released a a [] := ⟨.refl a, fun w _ => by simp, rfl⟩

theorem Released.trans {first others : List Frame} (h : Released a b first)
    (h' : Released b c others) : Released a c (first ++ others) := by
  refine ⟨h.toFades.trans h'.toFades, fun w hw => ?_, h'.dropped.trans h.dropped⟩
  rw [h.tally w hw, h'.tally w hw, List.map_append, List.sum_append]
  omega

theorem released_vacate (hf : a.frame? id = some f) : Released a (a.vacate id.index) [f] := by
  refine ⟨fades_vacate a id.index, fun w _ => ?_, rfl⟩
  have := tally_vacate hf w
  simp
  omega

theorem released_setFrame (hf : a.frame? id = some f) (n : Nat) :
    Released a (a.setFrame id { f with owners := n }) [] := by
  refine ⟨fades_setFrame hf n, fun w hw => ?_, rfl⟩
  have := tally_setFrame hf w { f with owners := n }
  rw [hw f n] at this
  simp
  omega

theorem released_releaseFrom : ∀ (budget : Nat) (id : Option ScopeId) (a : Arena),
    Released a (releaseFrom budget id a).2 (releaseFrom budget id a).1
  | 0, _, a => .refl a
  | _ + 1, none, a => .refl a
  | budget + 1, some id, a => by
    unfold releaseFrom
    cases hf : a.frame? id with
    | none => exact .refl a
    | some f =>
      by_cases hone : f.owners ≤ 1
      · -- the frame is freed and its parent is next
        simp only [if_pos hone]
        exact (released_vacate hf).trans (released_releaseFrom budget f.parent _)
      · simp only [if_neg hone]
        exact released_setFrame hf _

theorem released_release (a : Arena) (id : ScopeId) : Released a (a.release id).2 (a.release id).1 :=
  released_releaseFrom _ (some id) a

theorem released_releaseAll (ids : List ScopeId) : ∀ a : Arena,
    Released a (releaseAll ids a).2 (releaseAll ids a).1 := by
  induction ids with
  | nil => exact .refl
  | cons id ids ih => exact fun a => (released_release a id).trans (ih _)

theorem released_drain (a : Arena) : Released { a with dropped := [] } a.drain.2 a.drain.1 :=
  released_releaseAll a.dropped.reverse _

theorem fades_drain (a : Arena) : a.Fades a.drain.2 := ⟨(released_drain a).kept, (released_drain a).changes⟩

end HostScript.Arena
