import HostScript.Proofs.ArenaLineage

/-!
# Owners of frames are counted exactly

`Counted a claims` says that the count of every name is the number of claims on it from outside the
arena, as `claims` gives it, plus its live children, plus its queued releases. Each operation keeps this
for the claims that it makes or gives up. Only a release goes on by itself: when the last owner of a frame
goes, its claim on its parent is the owner that the parent loses next (`counted_vacate`).
-/

set_option autoImplicit false

namespace HostScript.Arena

variable {g : Frame} {p : ScopeId} {claims' : ScopeId → Nat} {parent : Option ScopeId}

/-- One more claim on a name. -/
def plus (claims : ScopeId → Nat) (id : ScopeId) : ScopeId → Nat :=
  fun k => claims k + if k = id then 1 else 0

/-- One more claim on a name, if there is one. -/
def plus? (claims : ScopeId → Nat) (id : Option ScopeId) : ScopeId → Nat :=
  fun k => claims k + if id = some k then 1 else 0

/-- Owners are counted exactly, given the claims from outside. -/
structure Counted (a : Arena) (claims : ScopeId → Nat) : Prop where
  orderly : a.Orderly
  owners : ∀ k, a.ownersOf k = claims k + a.children k + a.dropped.count k
  positive : ∀ k f, a.frame? k = some f → 0 < f.owners
  rooted : ∀ k, a.Live k → a.Rooted k

variable {a : Arena} {claims : ScopeId → Nat} {id : ScopeId} {f : Frame}

theorem Counted.congr (h : a.Counted claims) (he : ∀ k, claims k = claims' k) : a.Counted claims' :=
  ⟨h.orderly, fun k => by rw [h.owners, he], h.positive, h.rooted⟩

theorem counted_empty : ({} : Arena).Counted fun _ => 0 := by
  have hnone : ∀ k, ({} : Arena).frame? k = none := fun k => by simp [frame?]
  refine ⟨orderly_empty, fun k => ?_, fun k f hf => ?_, fun k hk => ?_⟩
  · simp [ownersOf, hnone, children, tally]
  · rw [hnone] at hf
    exact absurd hf (by simp)
  · exact absurd (not_live_iff.2 (hnone k)) (not_not.2 hk)

/-- A live frame counts towards its parent. -/
theorem children_pos (hf : a.frame? id = some f) (hp : f.parent = some p) : 0 < a.children p := by
  have h := le_tally (fun f => if f.parent = some p then 1 else 0) hf
  rw [if_pos hp] at h
  exact h

theorem live_of_owners_eq (h : ∀ k, a.ownersOf k = claims k + a.children k + a.dropped.count k)
    (hp : a.ParentOf id p) : a.Live p := by
  obtain ⟨f, hf, hfp⟩ := hp
  apply live_of_ownersOf_pos
  have := children_pos hf hfp
  rw [h]
  omega

/-- What is claimed, has a child or is queued is live. -/
theorem Counted.live (h : a.Counted claims)
    (hpos : 0 < claims id + a.children id + a.dropped.count id) : a.Live id :=
  live_of_ownersOf_pos (by rw [h.owners]; exact hpos)

theorem Counted.live_iff_counted (h : a.Counted claims) :
    a.Live id ↔ 0 < claims id + a.children id + a.dropped.count id := by
  refine ⟨fun hl => ?_, h.live⟩
  obtain ⟨f, hf⟩ := live_iff.1 hl
  rw [← h.owners, ownersOf_eq hf]
  exact h.positive id f hf

theorem Counted.parent_live (h : a.Counted claims) (hp : a.ParentOf id p) : a.Live p :=
  live_of_owners_eq h.owners hp

/-! ## Changes in place -/

theorem children_setFrame (hf : a.frame? id = some f) (hp : g.parent = f.parent) (k : ScopeId) :
    (a.setFrame id g).children k = a.children k := by
  have h := tally_setFrame hf (fun f => if f.parent = some k then 1 else 0) g
  simp only [hp] at h
  unfold children
  omega

theorem ownersOf_setFrame (hf : a.frame? id = some f) (g : Frame) (k : ScopeId) :
    (a.setFrame id g).ownersOf k = if k = id then g.owners else a.ownersOf k := by
  unfold ownersOf
  rw [frame?_setFrame (live_of_frame? hf)]
  by_cases hk : k = id
  · rw [if_pos hk, if_pos hk]
    rfl
  · rw [if_neg hk, if_neg hk]

/-- Writing a frame in place under its old parent keeps all lineages. -/
theorem rooted_setFrame (hf : a.frame? id = some f) (hp : g.parent = f.parent) {k : ScopeId}
    (h : a.Live k → a.Rooted k) (hk : (a.setFrame id g).Live k) : (a.setFrame id g).Rooted k := by
  have hl := live_of_frame? hf
  have hka : a.Live k := by
    obtain ⟨f', hf'⟩ := live_iff.1 hk
    rcases frame?_of_setFrame hl hf' with ⟨rfl, -⟩ | ⟨-, hf'⟩
    · exact hl
    · exact live_of_frame? hf'
  refine Rooted.mono (fun k' f' hf' => ?_) (h hka)
  by_cases he : k' = id
  · subst he
    rw [hf, Option.some.injEq] at hf'
    exact ⟨g, by rw [frame?_setFrame hl, if_pos rfl], by rw [hp, hf']⟩
  · exact ⟨f', by rw [frame?_setFrame hl, if_neg he, hf'], rfl⟩

/-- A frame whose count goes up or down by the claims on it stays exactly counted. -/
theorem counted_setFrame (h : a.Counted claims) (hf : a.frame? id = some f)
    (hp : g.parent = f.parent) (hpos : 0 < g.owners)
    (hid : g.owners + claims id = f.owners + claims' id) (hk : ∀ k, k ≠ id → claims k = claims' k) :
    (a.setFrame id g).Counted claims' := by
  have hl := live_of_frame? hf
  refine ⟨orderly_setFrame h.orderly hl g, fun k => ?_, fun k f' hf' => ?_,
    fun k => rooted_setFrame hf hp (h.rooted k)⟩
  · rw [ownersOf_setFrame hf, children_setFrame hf hp, setFrame_dropped]
    have hown := h.owners k
    by_cases he : k = id
    · subst he
      rw [ownersOf_eq hf] at hown
      rw [if_pos rfl]
      omega
    · rw [if_neg he, hown, hk k he]
  · rcases frame?_of_setFrame hl hf' with ⟨-, rfl⟩ | ⟨-, hf'⟩
    · exact hpos
    · exact h.positive k f' hf'

theorem counted_retain (h : a.Counted claims) (hl : a.Live id) :
    (a.retain id).Counted (plus claims id) := by
  obtain ⟨f, hf⟩ := live_iff.1 hl
  simp only [retain, hf]
  refine counted_setFrame h hf rfl (Nat.succ_pos _) ?_ fun k hk => ?_
  · simp only [plus, if_true]
    omega
  · simp only [plus, hk, if_false, Nat.add_zero]

/-- A hold succeeds on live frames only. -/
theorem hold_eq_ok {b : Arena} : a.hold id = .ok b ↔ a.Live id ∧ b = a.retain id := by
  unfold hold
  cases hf : a.frame? id with
  | none =>
    have hn := not_live_iff.2 hf
    simp [hn]
  | some f =>
    have hl := live_of_frame? hf
    simp [hl, eq_comm]

/-- Changing what a frame holds, but not its parent or its count. -/
theorem counted_write (h : a.Counted claims) (hf : a.frame? id = some f) (hp : g.parent = f.parent)
    (ho : g.owners = f.owners) : (a.setFrame id g).Counted claims :=
  counted_setFrame h hf hp (by rw [ho]; exact h.positive id f hf) (by rw [ho]) fun _ _ => rfl

/-- A dropped claim waits in the queue, where it counts as before. -/
theorem counted_queue (h : a.Counted (plus claims id)) : (a.queue id).Counted claims := by
  refine ⟨⟨h.orderly.nodup, h.orderly.mem_free_iff⟩, fun k => ?_, h.positive, fun k hk => ?_⟩
  · have hown := h.owners k
    unfold plus at hown
    show a.ownersOf k = claims k + a.children k + (id :: a.dropped).count k
    rw [List.count_cons, hown]
    by_cases he : k = id
    · subst he
      simp
      omega
    · simp [he, Ne.symm he]
  · exact Rooted.mono (a := a) (b := a.queue id) (fun k f hf => ⟨f, hf, rfl⟩) (h.rooted k hk)

/-! ## New frames -/

theorem counted_place (h : a.Counted claims) (hone : f.owners = 1) (hpar : f.parent = parent)
    (hlive : ∀ p, parent = some p → a.Live p) (hc : ∀ k, claims k = plus? claims' parent k) :
    (a.place f).2.Counted (plus claims' a.nextId) := by
  have ho := h.orderly
  have hfr := frame?_place ho f
  have hmono : ∀ k g, a.frame? k = some g → (a.place f).2.frame? k = some g := by
    intro k g hg
    rw [hfr, if_neg, hg]
    rintro rfl
    exact not_live_nextId ho (live_of_frame? hg)
  refine ⟨orderly_place ho f, fun k => ?_, fun k g hg => ?_, fun k hk => ?_⟩
  · have hch : (a.place f).2.children k = a.children k + if parent = some k then 1 else 0 := by
      unfold children
      rw [tally_place ho, hpar]
    have hown := h.owners k
    rw [hc k] at hown
    simp only [plus?] at hown
    rw [hch, place_dropped]
    unfold ownersOf at hown ⊢
    rw [hfr]
    by_cases he : k = a.nextId
    · -- nothing claimed the new name before
      subst he
      rw [frame?_eq_none_of_index_nextId ho rfl] at hown
      simp only [Option.elim_none] at hown
      simp only [if_true, Option.elim_some, hone, plus]
      omega
    · rw [if_neg he, hown]
      simp only [plus, he, if_false]
      omega
  · rw [hfr] at hg
    by_cases he : k = a.nextId
    · rw [if_pos he, Option.some.injEq] at hg
      rw [← hg, hone]
      exact Nat.one_pos
    · rw [if_neg he] at hg
      exact h.positive k g hg
  · obtain ⟨g, hg⟩ := live_iff.1 hk
    have hold : ∀ k, a.Rooted k → (a.place f).2.Rooted k :=
      fun k => Rooted.mono fun k g hg => ⟨g, hmono k g hg, rfl⟩
    rw [hfr] at hg
    by_cases he : k = a.nextId
    · subst he
      have hself : (a.place f).2.frame? a.nextId = some f := by rw [hfr, if_pos rfl]
      cases hp : parent with
      | none => exact ⟨_, .root hself (hpar.trans hp)⟩
      | some p =>
        -- the lineage of the new frame is that of its parent with the frame before it
        obtain ⟨l, hl⟩ := hold p (h.rooted p (hlive p hp))
        exact ⟨_, .child hself (hpar.trans hp) hl⟩
    · rw [if_neg he] at hg
      exact hold k (h.rooted k (live_of_frame? hg))

/-- A new frame is claimed by its creator, and claims its parent. -/
theorem counted_create (h : a.Counted claims) (name : String) (kind : FrameKind)
    (hlive : ∀ p, parent = some p → a.Live p) :
    (a.create name kind parent).2.Counted (plus claims (a.create name kind parent).1) := by
  cases parent with
  | none =>
    show (a.place _).2.Counted (plus claims (a.place _).1)
    rw [place_fst]
    exact counted_place h rfl rfl (fun p hp => absurd hp (by simp)) fun k => by simp [plus?]
  | some p =>
    -- the parent is retained first; the new frame turns that claim into a child
    have hr := counted_retain h (hlive p rfl)
    have hlive' : (a.retain p).Live p := hr.live (by unfold plus; rw [if_pos rfl]; omega)
    show ((a.retain p).place _).2.Counted (plus claims ((a.retain p).place _).1)
    rw [place_fst]
    refine counted_place hr rfl rfl (fun q hq => ?_) fun k => ?_
    · rw [Option.some.injEq] at hq
      rw [← hq]
      exact hlive'
    · simp only [plus, plus?, Option.some.injEq, eq_comm]

/-! ## Releases -/

theorem liveCount_vacate (hf : a.frame? id = some f) :
    (a.vacate id.index).liveCount + 1 = a.liveCount := by
  rw [liveCount_eq_tally, liveCount_eq_tally]
  exact tally_vacate hf fun _ => 1

/-- When the last claim on a frame goes, the frame can be emptied, and its own claim on its parent is
left to be released. -/
theorem counted_vacate (h : a.Counted (plus claims id)) (hf : a.frame? id = some f)
    (hone : f.owners = 1) : (a.vacate id.index).Counted (plus? claims f.parent) := by
  have hl := live_of_frame? hf
  have hown : ∀ k, (a.vacate id.index).ownersOf k =
      plus? claims f.parent k + (a.vacate id.index).children k + a.dropped.count k := by
    intro k
    have hch : (a.vacate id.index).children k + (if f.parent = some k then 1 else 0) =
        a.children k := tally_vacate hf _
    have hk := h.owners k
    simp only [plus, plus?] at hk ⊢
    by_cases hi : k.index = id.index
    · -- no live frame of another generation is in this slot, and the freed one had one owner
      have hz : (a.vacate id.index).ownersOf k = 0 := by
        unfold ownersOf
        rw [frame?_vacate, if_pos hi]
        rfl
      by_cases he : k = id
      · subst he
        rw [ownersOf_eq hf, hone, if_pos rfl] at hk
        omega
      · have hn : ¬ a.Live k := fun hk' => he (eq_of_live_of_index_eq hk' hl hi)
        rw [ownersOf_of_not_live hn, if_neg he] at hk
        omega
    · have hs : (a.vacate id.index).ownersOf k = a.ownersOf k := by
        unfold ownersOf
        rw [frame?_vacate, if_neg hi]
      have he : k ≠ id := fun he => hi (by rw [he])
      rw [if_neg he] at hk
      omega
  have hcovers := (fades_vacate a id.index).covers
  refine ⟨orderly_vacate h.orderly hl, hown, fun k g hg => ?_, fun k hk => ?_⟩
  · exact h.positive k g (frame?_of_vacate hg).2
  · -- a frame that is left still counts towards its parent, which therefore is left too
    exact (h.rooted k (hcovers.live hk)).of_sub hcovers (fun k p hp => live_of_owners_eq hown hp) hk

/-- A release that gives up where `releaseFrom` would pass over a fault: at a name that is not live,
at a frame whose count is zero already, or at an exhausted budget. -/
def releaseFrom? : Nat → Option ScopeId → Arena → Option (List Frame × Arena)
  | _, none, a => some ([], a)
  | 0, some _, _ => none
  | budget + 1, some id, a =>
    match a.frame? id with
    | none => none
    | some f =>
      match f.owners with
      | 0 => none
      | 1 => (releaseFrom? budget f.parent (a.vacate id.index)).map fun r => (f :: r.1, r.2)
      | n + 2 => some ([], a.setFrame id { f with owners := n + 1 })

/-- A release that gives up at a fault. -/
def release? (a : Arena) (id : ScopeId) : Option (List Frame × Arena) :=
  releaseFrom? (a.slots.size + 1) (some id) a

/-- Releases in turn that give up at a fault. -/
def releaseAll? : List ScopeId → Arena → Option (List Frame × Arena)
  | [], a => some ([], a)
  | id :: rest, a => do
    let (first, a) ← a.release? id
    let (others, a) ← releaseAll? rest a
    return (first ++ others, a)

/-- A drain that gives up at a fault. -/
def drain? (a : Arena) : Option (List Frame × Arena) :=
  releaseAll? a.dropped.reverse { a with dropped := [] }

/-- **The cascade of a release.** Each round takes the claim it is given; a frame left without any is
emptied and its claim on its parent is taken next. There are fewer rounds than live frames. -/
theorem releaseFrom_counted : ∀ (budget : Nat) (start : Option ScopeId) (a : Arena)
    (claims : ScopeId → Nat), a.Counted (plus? claims start) → a.liveCount < budget →
      releaseFrom? budget start a = some (releaseFrom budget start a) ∧
        (releaseFrom budget start a).2.Counted claims
  | 0, _, a, _, _, hb => absurd hb (Nat.not_lt_zero _)
  | budget + 1, none, a, claims, h, _ =>
    ⟨rfl, h.congr fun k => by simp [plus?]⟩
  | budget + 1, some id, a, claims, h, hb => by
    have h' : a.Counted (plus claims id) :=
      h.congr fun k => by simp only [plus, plus?, Option.some.injEq, eq_comm]
    have hl : a.Live id := h'.live (by unfold plus; rw [if_pos rfl]; omega)
    obtain ⟨f, hf⟩ := live_iff.1 hl
    have hpos := h'.positive id f hf
    cases hn : f.owners with
    | zero => omega
    | succ m =>
      cases m with
      | zero =>
        -- the last owner: the frame goes, and its claim on the parent is taken next
        have hcount := liveCount_vacate hf
        obtain ⟨hstrict, hrest⟩ := releaseFrom_counted budget f.parent
          (a.vacate id.index) claims (counted_vacate h' hf hn) (by omega)
        simp only [releaseFrom, releaseFrom?, hf, hn, hstrict, Option.map_some]
        exact ⟨rfl, hrest⟩
      | succ m =>
        -- one of several owners: the count goes down and the cascade ends here
        simp only [releaseFrom, releaseFrom?, hf, hn]
        refine ⟨rfl, ?_⟩
        refine counted_setFrame h' hf rfl (Nat.succ_pos m) ?_ fun k hk => ?_
        · simp only [plus, hn, if_true]
          omega
        · simp only [plus, hk, if_false, Nat.add_zero]

theorem release_counted (h : a.Counted (plus claims id)) :
    a.release? id = some (a.release id) ∧ (a.release id).2.Counted claims :=
  releaseFrom_counted _ (some id) a claims
    (h.congr fun k => by simp only [plus, plus?, Option.some.injEq, eq_comm])
    (by have := liveCount_le_size a; omega)

theorem releaseAll_counted (ids : List ScopeId) : ∀ (a : Arena) (claims : ScopeId → Nat),
    a.Counted (fun k => claims k + ids.count k) →
      releaseAll? ids a = some (releaseAll ids a) ∧ (releaseAll ids a).2.Counted claims := by
  induction ids with
  | nil => exact fun a claims h => ⟨rfl, h.congr fun k => by simp⟩
  | cons id rest ih =>
    intro a claims h
    -- the claim to be released next is one of those in the list
    have h' : a.Counted (plus (fun k => claims k + rest.count k) id) := by
      refine h.congr fun k => ?_
      simp only [plus, List.count_cons, beq_iff_eq, eq_comm (a := id)]
      omega
    obtain ⟨hstrict, hcounted⟩ := release_counted h'
    obtain ⟨hstrict', hcounted'⟩ := ih _ claims hcounted
    refine ⟨?_, hcounted'⟩
    simp only [releaseAll?, releaseAll, hstrict, hstrict', Option.bind_eq_bind, Option.bind_some,
      Option.pure_def]

/-- Releases that are taken from the queue are claims that somebody has. -/
theorem counted_taken (h : a.Counted claims) :
    ({ a with dropped := [] } : Arena).Counted fun k => claims k + a.dropped.count k := by
  refine ⟨⟨h.orderly.nodup, h.orderly.mem_free_iff⟩, fun k => ?_, h.positive, fun k hk => ?_⟩
  · have hown := h.owners k
    show a.ownersOf k = claims k + a.dropped.count k + a.children k + 0
    omega
  · exact Rooted.mono (a := a) (fun k f hf => ⟨f, hf, rfl⟩) (h.rooted k hk)

/-- A drain takes the queued claims, and leaves the queue empty. -/
theorem drain_counted (h : a.Counted claims) : a.drain? = some a.drain ∧ a.drain.2.Counted claims :=
  releaseAll_counted a.dropped.reverse { a with dropped := [] } claims
    ((counted_taken h).congr fun k => by rw [List.count_reverse])

end HostScript.Arena
