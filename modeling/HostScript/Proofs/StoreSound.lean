import HostScript.Proofs.Loops
import HostScript.Proofs.StoreClaims

/-!
# Sound stores stay sound

Each change of a store keeps it sound, for the claims that the change takes over from outside or gives
back. Dropping a claim and settling the store only ever take things away (`Shrinks`); everything that is still
claimed stays as it was.
-/

set_option autoImplicit false

namespace HostScript

namespace Arena

variable {a b : Arena} {id : ScopeId} {f : Frame} {g : Frame} {name : String} {k : ScopeId}
  {kind : FrameKind} {parent : Option ScopeId}

/-- A frame that both arenas know has the same parent in both. -/
def KeepsParents (a b : Arena) : Prop := ∀ id p, a.ParentOf id p → b.Live id → b.ParentOf id p

theorem Covers.keepsParents (h : a.Covers b) : a.KeepsParents b := by
  rintro id p ⟨f, hf, hfp⟩ hl
  obtain ⟨g, hg⟩ := live_iff.1 hl
  obtain ⟨e, he, heg⟩ := h id g hg
  rw [hf, Option.some.injEq] at he
  exact ⟨g, hg, by rw [← heg, ← he, hfp]⟩

/-- What is above a frame that lives on is still above it. -/
theorem KeepsParents.above (hk : a.KeepsParents b) (hb : ∀ id p, b.ParentOf id p → b.Live p)
    {d : ScopeId} (h : a.Above id d) : b.Live id → b.Above id d := by
  induction h using Relation.ReflTransGen.head_induction_on with
  | refl => exact fun _ => .refl
  | @head k p hp _ ih =>
    -- upwards from the frame: what is live has a live parent
    intro hl
    have hp' := hk k p hp hl
    exact .head hp' (ih (hb k p hp'))

theorem covers_setFrame (hf : a.frame? id = some f) (hp : g.parent = f.parent) :
    a.Covers (a.setFrame id g) := by
  intro k e he
  rcases frame?_of_setFrame (live_of_frame? hf) he with ⟨rfl, rfl⟩ | ⟨-, he⟩
  · exact ⟨f, hf, hp.symm⟩
  · exact ⟨e, he, rfl⟩

/-- Changes of methods are counted: a frame that both arenas know has the same parent and the same methods
in both, unless the second has counted a change. -/
structure KeepsMethods (a b : Arena) : Prop where
  changes : a.methodChanges ≤ b.methodChanges
  same : b.methodChanges = a.methodChanges → ∀ id f g, a.frame? id = some f →
    b.frame? id = some g → g.parent = f.parent ∧ g.methods = f.methods

theorem KeepsMethods.refl (a : Arena) : a.KeepsMethods a :=
  ⟨Nat.le_refl _, fun _ id f g hf hg => by rw [hf, Option.some.injEq] at hg; rw [hg]; exact ⟨rfl, rfl⟩⟩

theorem Fades.keepsMethods (h : a.Fades b) : a.KeepsMethods b := by
  refine ⟨h.changes.ge, fun _ k f g hf hg => ?_⟩
  obtain ⟨e, he, hge⟩ := h.kept k g hg
  rw [hf, Option.some.injEq] at he
  rw [hge, he]
  exact ⟨rfl, rfl⟩

theorem live_retain (hl : a.Live k) : (a.retain id).Live k := by
  unfold retain
  cases hf : a.frame? id with
  | none => exact hl
  | some f =>
    obtain ⟨e, he⟩ := live_iff.1 hl
    by_cases hk : k = id
    · exact live_iff.2 ⟨_, by rw [frame?_setFrame (live_of_frame? hf), if_pos hk]⟩
    · exact live_iff.2 ⟨e, by rw [frame?_setFrame (live_of_frame? hf), if_neg hk, he]⟩

theorem tally_retain {w : Frame → Nat} (hw : OwnerBlind w) : tally w (a.retain id) = tally w a := by
  unfold retain
  cases hf : a.frame? id with
  | none => rfl
  | some f =>
    have h := tally_setFrame hf w { f with owners := f.owners + 1 }
    rw [hw f (f.owners + 1)] at h
    exact Nat.add_right_cancel h

/-- The frames after a new one was made: the new one, and those before up to their counts. -/
theorem frame?_create (ha : a.Orderly) (hg : (a.create name kind parent).2.frame? k = some g) :
    (k = a.nextId ∧ g = { name, kind, parent }) ∨
      ∃ e, a.frame? k = some e ∧ g = { e with owners := g.owners } := by
  have hnext := create_fst a name kind parent
  have hplace : ∀ b : Arena, b.Orderly → b.nextId = a.nextId →
      (b.place { name, kind, parent }).2.frame? k = some g →
        (k = a.nextId ∧ g = { name, kind, parent }) ∨ b.frame? k = some g := by
    intro b hb hn hg
    rw [frame?_place hb, hn] at hg
    by_cases hk : k = a.nextId
    · rw [if_pos hk, Option.some.injEq] at hg
      exact .inl ⟨hk, hg.symm⟩
    · rw [if_neg hk] at hg
      exact .inr hg
  cases parent with
  | none =>
    exact (hplace a ha rfl hg).imp_right fun h => ⟨g, h, rfl⟩
  | some p =>
    have hn : (a.retain p).nextId = a.nextId := by
      rw [← hnext]
      exact (place_fst _ _).symm
    exact (hplace (a.retain p) (orderly_retain ha p) hn hg).imp_right ((fades_retain a p).kept k g)

theorem keepsParents_create (ha : a.Orderly) : a.KeepsParents (a.create name kind parent).2 := by
  rintro k p ⟨f, hf, hfp⟩ hl
  obtain ⟨g, hg⟩ := live_iff.1 hl
  rcases frame?_create ha hg with ⟨hk, -⟩ | ⟨e, he, hge⟩
  · exact absurd (live_of_frame? hf) (hk ▸ not_live_nextId ha)
  · rw [hf, Option.some.injEq] at he
    exact ⟨g, hg, by rw [hge, ← he, hfp]⟩

theorem methodChanges_create (a : Arena) (name : String) (kind : FrameKind)
    (parent : Option ScopeId) : (a.create name kind parent).2.methodChanges = a.methodChanges := by
  have hplace : ∀ (b : Arena) (f : Frame), (b.place f).2.methodChanges = b.methodChanges := by
    intro b f
    unfold place
    cases b.free <;> rfl
  cases parent with
  | none => exact hplace a _
  | some id => exact (hplace _ _).trans (fades_retain a id).changes

theorem keepsMethods_create (ha : a.Orderly) (name : String) (kind : FrameKind)
    (parent : Option ScopeId) : a.KeepsMethods (a.create name kind parent).2 := by
  refine ⟨(methodChanges_create a name kind parent).ge, fun _ k f g hf hg => ?_⟩
  rcases frame?_create ha hg with ⟨hk, -⟩ | ⟨e, he, hge⟩
  · exact absurd (live_of_frame? hf) (hk ▸ not_live_nextId ha)
  · rw [hf, Option.some.injEq] at he
    rw [hge, he]
    exact ⟨rfl, rfl⟩

theorem keepsMethods_setFrame (hf : a.frame? id = some f) (hp : g.parent = f.parent)
    (hm : g.methods = f.methods) : a.KeepsMethods (a.setFrame id g) := by
  refine ⟨Nat.le_refl _, fun _ k e e' he he' => ?_⟩
  rcases frame?_of_setFrame (live_of_frame? hf) he' with ⟨rfl, rfl⟩ | ⟨-, he'⟩
  · rw [hf, Option.some.injEq] at he
    exact he ▸ ⟨hp, hm⟩
  · rw [he, Option.some.injEq] at he'
    exact he' ▸ ⟨rfl, rfl⟩

end Arena

namespace Store

variable {a : Arena} {k : Claim} {g : Frame} {contents : Contents} {o' : Multiset Claim}

/-- There is an adapter over a frame in a cell. -/
def AdapterAt (s : Store) (n : Nat) (scope : ScopeId) : Prop :=
  ∃ c a, s.cell? n = some c ∧ c.contents = .adapter a ∧ a.scope = scope

/-- There is that very adapter in a cell. -/
def Wraps (s : Store) (n : Nat) (a : Adapter) : Prop :=
  ∃ c, s.cell? n = some c ∧ c.contents = .adapter a

/-- Frames and adapters that both stores know are the same ones, changes of methods are counted, and a
table that is new is accurate. -/
structure Continues (s s' : Store) : Prop where
  frames : s.arena.KeepsParents s'.arena
  adapters : ∀ n scope, s.AdapterAt n scope → (s'.cell? n).isSome → s'.AdapterAt n scope
  methods : s.arena.KeepsMethods s'.arena
  tables : ∀ n a, s'.Wraps n a → s.Wraps n a ∨ a.table.Accurate a.scope s'.arena

/-- Nothing is in the second store that was not in the first, up to the counts of owners. -/
structure Shrinks (s s' : Store) : Prop where
  frames : ∀ k g, s'.arena.frame? k = some g →
    ∃ f, s.arena.frame? k = some f ∧ g = { f with owners := g.owners }
  cells : ∀ n c, s'.cell? n = some c → ∃ c0, s.cell? n = some c0 ∧ c.contents = c0.contents
  changes : s'.arena.methodChanges = s.arena.methodChanges

variable {s s' s'' : Store} {o : Multiset Claim} {n : Nat} {c : Cell} {id : ScopeId} {f : Frame}

theorem host?_eq_some_iff {object : HostObject} :
    s.host? n = some object ↔ ∃ c, s.cell? n = some c ∧ c.contents = .host object := by
  unfold host?
  split
  · next hc => simp [hc]
  · next hno =>
    refine ⟨fun h => absurd h (by simp), ?_⟩
    rintro ⟨⟨contents, owners⟩, hc, rfl⟩
    exact absurd hc (hno _ owners)

theorem adapter?_eq_some_iff {a : Adapter} : s.adapter? n = some a ↔ s.Wraps n a := by
  unfold adapter? Wraps
  split
  · next hc => simp [hc]
  · next hno =>
    refine ⟨fun h => absurd h (by simp), ?_⟩
    rintro ⟨⟨contents, owners⟩, hc, rfl⟩
    exact absurd hc (hno _ owners)

theorem items_eq {v : Value} (h : v ∈ s.items n) : ∃ c, s.cell? n = some c ∧ c.contents = .array (s.items n) := by
  unfold items at h ⊢
  split at h
  · next hc => exact ⟨_, hc, rfl⟩
  · exact absurd h (Array.not_mem_empty v)

theorem Shrinks.refl (s : Store) : s.Shrinks s :=
  ⟨fun _ g hg => ⟨g, hg, rfl⟩, fun _ c hc => ⟨c, hc, rfl⟩, rfl⟩

theorem Shrinks.fades (h : s.Shrinks s') : s.arena.Fades s'.arena := ⟨h.frames, h.changes⟩

theorem Shrinks.trans (h : s.Shrinks s') (h' : s'.Shrinks s'') : s.Shrinks s'' := by
  have hfades := h.fades.trans h'.fades
  refine ⟨hfades.kept, fun n c hc => ?_, hfades.changes⟩
  · obtain ⟨c', hc', hcc⟩ := h'.cells n c hc
    obtain ⟨c0, hc0, hcc0⟩ := h.cells n c' hc'
    exact ⟨c0, hc0, hcc.trans hcc0⟩

theorem Shrinks.covers (h : s.Shrinks s') : s.arena.Covers s'.arena := h.fades.covers

theorem Shrinks.continues (h : s.Shrinks s') : s.Continues s' := by
  refine ⟨h.covers.keepsParents, fun n scope had hin => ?_, h.fades.keepsMethods, fun n a ha => .inl ?_⟩
  · obtain ⟨c, a, hc, hca, ha⟩ := had
    obtain ⟨c', hc'⟩ := Option.isSome_iff_exists.1 hin
    obtain ⟨c0, hc0, hcc⟩ := h.cells n c' hc'
    rw [hc, Option.some.injEq] at hc0
    exact ⟨c', a, hc', by rw [hcc, ← hc0, hca], ha⟩
  · obtain ⟨c, hc, hca⟩ := ha
    obtain ⟨c0, hc0, hcc⟩ := h.cells n c hc
    exact ⟨c0, hc0, hcc ▸ hca⟩

/-! ## Stores that ebb -/

/-- Nothing has come into a store, and its cells have kept their numbers. -/
structure Ebbs (s s' : Store) : Prop extends s.Shrinks s' where
  size : s'.cells.size = s.cells.size

theorem Ebbs.refl (s : Store) : s.Ebbs s := ⟨.refl s, rfl⟩

theorem Ebbs.trans (h : s.Ebbs s') (h' : s'.Ebbs s'') : s.Ebbs s'' :=
  ⟨h.toShrinks.trans h'.toShrinks, h'.size.trans h.size⟩

theorem Ebbs.ofArena (h : s.arena.Fades a) : s.Ebbs { s with arena := a } :=
  ⟨⟨h.kept, fun _ c hc => ⟨c, hc, rfl⟩, h.changes⟩, rfl⟩

theorem ebbs_recount (s : Store) (n : Nat) (count : Cell → Nat) :
    s.Ebbs (s.modifyCell n fun cell => { cell with owners := count cell }) := by
  refine ⟨⟨(Arena.Fades.refl s.arena).kept, fun k c hc => ?_, rfl⟩, Array.size_modify⟩
  rcases cell?_of_modifyCell hc with ⟨c0, -, hc0, rfl⟩ | ⟨-, hc⟩
  · exact ⟨c0, hc0, rfl⟩
  · exact ⟨c, hc, rfl⟩

theorem ebbs_clearCell (s : Store) (n : Nat) : s.Ebbs (s.clearCell n) :=
  ⟨⟨(Arena.Fades.refl s.arena).kept, fun _ c hc => ⟨c, cell?_of_clearCell hc, rfl⟩, rfl⟩, Array.size_modify⟩

theorem ebbs_retain (s : Store) (k : Claim) : s.Ebbs (s.retain k) := by
  cases k with
  | frame id => exact .ofArena (Arena.fades_retain _ id)
  | cell n => exact ebbs_recount s n _

/-- Claims that ebb a store one by one ebb it in a row. -/
theorem ebbs_foldl {f : Store → Claim → Store} (hf : ∀ (s : Store) k, s.Ebbs (f s k)) (ks : List Claim) :
    ∀ s : Store, s.Ebbs (ks.foldl f s) := by
  induction ks with
  | nil => exact .refl
  | cons k ks ih => exact fun s => (hf s k).trans (ih _)

theorem ebbs_retainAll (ks : List Claim) (s : Store) : s.Ebbs (s.retainAll ks) :=
  ebbs_foldl ebbs_retain ks s

/-- Claims are dropped: releases are queued and none is applied, and no cell comes into use. -/
structure Sheds (s s' : Store) : Prop extends s.Ebbs s' where
  slots : s'.arena.slots = s.arena.slots
  inUse : s'.inCells (fun _ => 1) ≤ s.inCells fun _ => 1

theorem Sheds.refl (s : Store) : s.Sheds s := ⟨.refl s, rfl, Nat.le_refl _⟩

theorem Sheds.trans (h : s.Sheds s') (h' : s'.Sheds s'') : s.Sheds s'' :=
  ⟨h.toEbbs.trans h'.toEbbs, h'.slots.trans h.slots, h'.inUse.trans h.inUse⟩

/-- Claims that are dropped one by one are dropped in a row. -/
theorem sheds_foldl {f : Store → Claim → Store} (hf : ∀ (s : Store) k, s.Sheds (f s k)) (ks : List Claim) :
    ∀ s : Store, s.Sheds (ks.foldl f s) := by
  induction ks with
  | nil => exact .refl
  | cons k ks ih => exact fun s => (hf s k).trans (ih _)

theorem sheds_queue (s : Store) (id : ScopeId) : s.Sheds { s with arena := s.arena.queue id } :=
  ⟨.ofArena ⟨(Arena.Fades.refl s.arena).kept, rfl⟩, rfl, Nat.le_refl _⟩

theorem sheds_dropAt : ∀ (budget : Nat) (s : Store) (k : Claim), s.Sheds (dropAt budget s k)
  | 0, s, .frame id => sheds_queue s id
  | _ + 1, s, .frame id => sheds_queue s id
  | 0, s, .cell n => .refl s
  | budget + 1, s, .cell n => by
    unfold dropAt
    cases hc : s.cell? n with
    | none => exact .refl s
    | some cell =>
      by_cases hone : cell.owners ≤ 1
      · simp only [if_pos hone]
        have hclear := inCells_clearCell hc fun _ => 1
        have hcleared : s.Sheds (s.clearCell n) := ⟨ebbs_clearCell s n, rfl, by omega⟩
        exact hcleared.trans (sheds_foldl (sheds_dropAt budget) _ _)
      · simp only [if_neg hone]
        have hcount := inCells_modifyCell hc (fun cell => { cell with owners := cell.owners - 1 }) fun _ => 1
        exact ⟨ebbs_recount s n _, rfl, by omega⟩

theorem ebbs_drop (s : Store) (k : Claim) : s.Ebbs (s.drop k) := (sheds_dropAt _ s k).toEbbs

theorem sheds_dropAll (ks : List Claim) (s : Store) : s.Sheds (s.dropAll ks) :=
  sheds_foldl (fun s k => sheds_dropAt _ s k) ks s

theorem ebbs_dropAll (ks : List Claim) (s : Store) : s.Ebbs (s.dropAll ks) := (sheds_dropAll ks s).toEbbs

/-- One round of settling: applies the queued releases and drops what the freed frames held. -/
def settleRound (s : Store) : Store :=
  dropAll { s with arena := s.arena.drain.2 } (s.arena.drain.1.flatMap Frame.claims)

theorem settleWithin_succ (budget : Nat) (s : Store) : settleWithin (budget + 1) s =
    if s.arena.dropped.isEmpty then s else settleWithin budget s.settleRound := rfl

theorem settleWithin_of_settled (hs : s.arena.dropped = []) (budget : Nat) :
    settleWithin budget s = s := by
  cases budget with
  | zero => rfl
  | succ budget =>
    rw [settleWithin_succ, hs]
    rfl

theorem ebbs_settleWithin : ∀ (budget : Nat) (s : Store), s.Ebbs (settleWithin budget s)
  | 0, s => .refl s
  | budget + 1, s => by
    rw [settleWithin_succ]
    split
    · exact .refl s
    · have hround : s.Ebbs s.settleRound :=
        (Ebbs.ofArena (Arena.fades_drain s.arena)).trans (ebbs_dropAll _ _)
      exact hround.trans (ebbs_settleWithin budget _)

theorem ebbs_settle (s : Store) : s.Ebbs s.settle := ebbs_settleWithin _ s

theorem ebbs_release (s : Store) (id : ScopeId) : s.Ebbs (s.release id) := by
  have hreleased := (Arena.released_release s.settle.arena id).toFades
  exact ((ebbs_settle s).trans (.ofArena hreleased)).trans (ebbs_dropAll _ _)

/-! ## Settling -/

/-- A round of settling, unless nothing is queued. -/
def settleTurn (s : Store) : Store ⊕ Store := if s.arena.dropped.isEmpty then .inr s else .inl s.settleRound

theorem settleWithin_turns (budget : Nat) :
    ∀ s, settleWithin budget s = withinTurns settleTurn (fun s => s) budget s := by
  induction budget with
  | zero => exact fun s => rfl
  | succ budget ih =>
    intro s
    rw [settleWithin_succ]
    unfold withinTurns settleTurn
    by_cases he : s.arena.dropped.isEmpty
    · rw [if_pos he, if_pos he]
    · rw [if_neg he, if_neg he]
      exact ih _

/-- A round that frees no frame queues nothing; any other leaves fewer frames. -/
theorem settleRound_less (s : Store) :
    s.settleRound.arena.dropped = [] ∨ s.settleRound.arena.liveCount < s.arena.liveCount := by
  have hrel := Arena.released_drain s.arena
  have hlive : s.arena.liveCount = s.arena.drain.2.liveCount + s.arena.drain.1.length := by
    have htally := hrel.tally (fun _ => 1) fun _ _ => rfl
    have hlength : (s.arena.drain.1.map fun _ => 1).sum = s.arena.drain.1.length := by simp
    rw [hlength] at htally
    rw [Arena.liveCount_eq_tally, Arena.liveCount_eq_tally]
    exact htally
  cases hf : s.arena.drain.1 with
  | nil =>
    left
    -- no frame was freed, so no claim was dropped and nothing was queued again
    show (dropAll _ (s.arena.drain.1.flatMap Frame.claims)).arena.dropped = []
    rw [hf]
    exact hrel.dropped
  | cons first others =>
    right
    -- dropping claims only queues releases, so the freed frames are what is missing
    have hsame : s.settleRound.arena.liveCount = s.arena.drain.2.liveCount := by
      unfold Arena.liveCount
      rw [show s.settleRound.arena.slots = s.arena.drain.2.slots from (sheds_dropAll _ _).slots]
    rw [hf, List.length_cons] at hlive
    omega

/-- No more rounds than this are left. -/
def roundsLeft (s : Store) : Nat := if s.arena.dropped.isEmpty then 0 else s.arena.liveCount + 1

/-- **Settling comes to an end**: every round but the last frees a frame. -/
theorem settle_loop (s : Store) : Loop settleTurn s s.settle := by
  unfold settle
  rw [settleWithin_turns]
  refine Loop.within _ (fun _ => True) roundsLeft ?_ _ s trivial ?_
  · intro s s' _ hturn
    unfold settleTurn at hturn
    split at hturn
    · cases hturn
    · next he =>
      cases hturn
      refine ⟨trivial, ?_⟩
      unfold roundsLeft
      rw [if_neg he]
      rcases s.settleRound_less with hdone | hless
      · rw [hdone]
        exact Nat.succ_pos _
      · split <;> omega
  · have := s.arena.liveCount_le_size
    unfold roundsLeft
    split <;> omega

/-- What a round keeps is kept until nothing is queued. -/
theorem settled_of_loop {P : Store → Prop} (hround : ∀ s, P s → P s.settleRound) (h : Loop settleTurn s s') :
    P s → P s' ∧ s'.arena.dropped = [] := by
  induction h with
  | @ends s s' hturn =>
    unfold settleTurn at hturn
    split at hturn
    · next he =>
      cases hturn
      exact fun hs => ⟨hs, List.isEmpty_iff.1 he⟩
    · cases hturn
  | @goesOn s s1 s' hturn _ ih =>
    unfold settleTurn at hturn
    split at hturn
    · cases hturn
    · cases hturn
      exact fun hs => ih (hround s hs)

/-! ## Changes of the arena -/

/-- A store with a changed arena is sound when the new arena is exactly counted. -/
theorem Sound.ofArena (h : s.Sound o) (hc : a.Counted fun id =>
      ({ s with arena := a } : Store).claimed (.frame id) + o'.count (.frame id))
    (hcells : ∀ n, s.claimed (.cell n) + o.count (.cell n) =
      ({ s with arena := a } : Store).claimed (.cell n) + o'.count (.cell n))
    (htidy : ∀ id f, a.frame? id = some f → f.Tidy id) (hk : s.arena.KeepsParents a) :
    ({ s with arena := a } : Store).Sound o' := by
  refine ⟨hc, fun n => ?_, h.positive, htidy, fun n c ad hn had e he method hm => ?_⟩
  · rw [← hcells n]
    exact h.cells n
  · -- an adapter owns its frame, so what is above the frame lives on with it
    have hclaim : 0 < ({ s with arena := a } : Store).claimed (.frame ad.scope) :=
      claimed_pos_of_cell (s := { s with arena := a }) hn (by rw [had]; exact List.mem_singleton.2 rfl)
    have hl : a.Live ad.scope := hc.live (by omega)
    exact hk.above (fun _ _ => hc.parent_live) (h.tables n c ad hn had e he method hm) hl

theorem tidy_of_owners {e : Frame} (h : e.Tidy id) (hg : g = { e with owners := g.owners }) :
    g.Tidy id := by
  rw [hg]
  exact ⟨h.nodup, h.declaring⟩

theorem Sound.tidy_of_fades (h : s.Sound o) (hf : s.arena.Fades a) :
    ∀ k g, a.frame? k = some g → g.Tidy k := by
  intro k g hg
  obtain ⟨e, he, hge⟩ := hf.kept k g hg
  exact tidy_of_owners (h.tidy k e he) hge

theorem ownerBlind_claims (k : Claim) : Arena.OwnerBlind fun f => f.claims.count k :=
  fun _ _ => rfl

theorem claimed_retainFrame (s : Store) (id : ScopeId) (k : Claim) :
    (s.retain (.frame id)).claimed k = s.claimed k := by
  show (s.arena.retain id).tally _ + _ = _
  rw [Arena.tally_retain (ownerBlind_claims k)]
  rfl

theorem Sound.retainFrame (h : s.Sound o) (hl : s.arena.Live id) :
    (s.retain (.frame id)).Sound ({.frame id} + o) := by
  have hfades := Arena.fades_retain s.arena id
  refine h.ofArena (a := s.arena.retain id) ?_ (fun n => ?_) (h.tidy_of_fades hfades)
    hfades.covers.keepsParents
  · refine (Arena.counted_retain h.frames hl).congr fun k => ?_
    have := claimed_retainFrame s id (.frame k)
    simp only [Arena.plus, Multiset.count_add, Multiset.count_singleton, Claim.frame.injEq]
    show _ = (s.retain (.frame id)).claimed (.frame k) + _
    rw [this]
    omega
  · have := claimed_retainFrame s id (.cell n)
    show _ = (s.retain (.frame id)).claimed (.cell n) + _
    rw [this]
    simp

/-- A new frame is owned by its creator. -/
theorem Sound.create (h : s.Sound o) (name : String) (kind : FrameKind) {parent : Option ScopeId}
    (hlive : ∀ p, parent = some p → s.arena.Live p) :
    ({ s with arena := (s.arena.create name kind parent).2 } : Store).Sound
      ({.frame (s.arena.create name kind parent).1} + o) := by
  have hord := h.frames.orderly
  have hclaimed : ∀ k, ({ s with arena := (s.arena.create name kind parent).2 } : Store).claimed k =
      s.claimed k := by
    intro k
    -- a new frame holds nothing, and retaining its parent moves no claim
    have hempty : (({ name, kind, parent } : Frame).claims).count k = 0 := rfl
    cases parent with
    | none =>
      show ((s.arena.place _).2.tally _) + _ = _
      rw [Arena.tally_place hord, hempty]
      rfl
    | some p =>
      show (((s.arena.retain p).place _).2.tally _) + _ = _
      rw [Arena.tally_place (Arena.orderly_retain hord p), hempty, Arena.tally_retain (ownerBlind_claims k)]
      rfl
  refine h.ofArena ?_ (fun n => ?_) (fun k g hg => ?_) ?_
  · refine (Arena.counted_create h.frames name kind hlive).congr fun k => ?_
    rw [hclaimed]
    simp only [Arena.plus, Multiset.count_add, Multiset.count_singleton, Claim.frame.injEq]
    omega
  · rw [hclaimed]
    simp
  · rcases Arena.frame?_create hord hg with ⟨-, rfl⟩ | ⟨e, he, hge⟩
    · exact ⟨List.nodup_nil, fun e he => absurd he List.not_mem_nil⟩
    · exact tidy_of_owners (h.tidy k e he) hge
  · exact Arena.keepsParents_create hord

/-- A written frame takes over what it holds now, and gives back what it held. -/
theorem Sound.write (h : s.Sound o) (hf : s.arena.frame? id = some f) (hp : g.parent = f.parent)
    (hn : g.owners = f.owners) (ht : g.Tidy id)
    (ho : (g.claims : Multiset Claim) + o' = f.claims + o) :
    ({ s with arena := s.arena.setFrame id g } : Store).Sound o' := by
  have hclaimed : ∀ k, s.claimed k + o.count k =
      ({ s with arena := s.arena.setFrame id g } : Store).claimed k + o'.count k := by
    intro k
    have htally := Arena.tally_setFrame hf (fun f => f.claims.count k) g
    have hcount := congrArg (Multiset.count k) ho
    simp only [Multiset.count_add, Multiset.coe_count] at hcount
    show s.arena.tally _ + _ + _ = (s.arena.setFrame id g).tally _ + s.inCells _ + _
    omega
  refine h.ofArena ?_ (fun n => hclaimed (.cell n)) (fun k e he => ?_)
    (Arena.covers_setFrame hf hp).keepsParents
  · exact (Arena.counted_write h.frames hf hp hn).congr fun k => hclaimed (.frame k)
  · rcases Arena.frame?_of_setFrame (Arena.live_of_frame? hf) he with ⟨rfl, rfl⟩ | ⟨-, he⟩
    · exact ht
    · exact h.tidy k e he

/-! ## Changes of cells -/

/-- A store with changed cells is sound when the owners of each cell are counted exactly. -/
theorem Sound.ofCells (h : s.Sound o) (ha : s'.arena = s.arena)
    (hframes : ∀ id, s.claimed (.frame id) + o.count (.frame id) =
      s'.claimed (.frame id) + o'.count (.frame id))
    (hcells : ∀ n, s'.cellOwners n = s'.claimed (.cell n) + o'.count (.cell n))
    (hpos : ∀ n c, s'.cell? n = some c → 0 < c.owners)
    (htables : ∀ n c a, s'.cell? n = some c → c.contents = .adapter a → a.Within s.arena) :
    s'.Sound o' := by
  refine ⟨?_, hcells, hpos, ?_, ?_⟩
  · rw [ha]
    exact h.frames.congr hframes
  · rw [ha]
    exact h.tidy
  · rw [ha]
    exact htables

theorem claimed_modifyCell (hc : s.cell? n = some c) (change : Cell → Cell) (k : Claim) :
    (s.modifyCell n change).claimed k + c.contents.claims.count k =
      s.claimed k + (change c).contents.claims.count k := by
  have := inCells_modifyCell hc change fun c => c.contents.claims.count k
  show s.arena.tally _ + (s.modifyCell n change).inCells _ + _ = s.arena.tally _ + _ + _
  omega

theorem cellOwners_modifyCell (hc : s.cell? n = some c) (change : Cell → Cell) (k : Nat) :
    (s.modifyCell n change).cellOwners k = if k = n then (change c).owners else s.cellOwners k := by
  unfold cellOwners
  rw [cell?_modifyCell]
  by_cases hk : k = n
  · rw [if_pos hk, if_pos hk, hk, hc]
    rfl
  · rw [if_neg hk, if_neg hk]

/-- A changed cell takes over what it holds now and gives back what it held; its count goes with the
claims on it from outside. -/
theorem Sound.modifyCell (h : s.Sound o) (hc : s.cell? n = some c) (change : Cell → Cell)
    (hpos : 0 < (change c).owners) (hcount : ∀ k, (change c).contents.claims.count k + o'.count k +
        (if k = .cell n then c.owners else 0) =
      c.contents.claims.count k + o.count k + if k = .cell n then (change c).owners else 0)
    (hw : ∀ a, (change c).contents = .adapter a → a.Within s.arena) :
    (s.modifyCell n change).Sound o' := by
  refine h.ofCells rfl (fun id => ?_) (fun k => ?_) (fun k e he => ?_) (fun k e a he hea => ?_)
  · have h1 := claimed_modifyCell hc change (.frame id)
    have h2 := hcount (.frame id)
    simp only [reduceCtorEq, if_false] at h2
    omega
  · have h1 := claimed_modifyCell hc change (.cell k)
    have h2 := hcount (.cell k)
    have h3 := h.cells k
    rw [cellOwners_modifyCell hc]
    simp only [Claim.cell.injEq] at h2
    by_cases hk : k = n
    · subst hk
      rw [cellOwners_eq hc] at h3
      rw [if_pos rfl, if_pos rfl] at h2
      rw [if_pos rfl]
      omega
    · rw [if_neg hk, if_neg hk] at h2
      rw [if_neg hk]
      omega
  · rcases cell?_of_modifyCell he with ⟨c0, rfl, hc0, rfl⟩ | ⟨-, he⟩
    · rwa [Option.some.inj (hc0.symm.trans hc)]
    · exact h.positive k e he
  · rcases cell?_of_modifyCell he with ⟨c0, rfl, hc0, rfl⟩ | ⟨-, he⟩
    · exact hw a (Option.some.inj (hc0.symm.trans hc) ▸ hea)
    · exact h.tables k e a he hea

theorem Sound.retainCell (h : s.Sound o) (hin : (s.cell? n).isSome) :
    (s.retain (.cell n)).Sound ({.cell n} + o) := by
  obtain ⟨c, hc⟩ := Option.isSome_iff_exists.1 hin
  refine h.modifyCell hc _ (Nat.succ_pos _) (fun k => ?_) fun a ha => h.tables n c a hc ha
  simp only [Multiset.count_add, Multiset.count_singleton]
  by_cases hk : k = .cell n
  · simp only [hk, if_true]
    omega
  · simp only [hk, if_false]
    omega

/-- A copy of a claim on something that is there. -/
theorem Sound.retain (h : s.Sound o) (hk : s.Holds k) : (s.retain k).Sound ({k} + o) := by
  cases k with
  | frame id => exact h.retainFrame hk
  | cell n => exact h.retainCell hk

/-- A copy takes nothing away. -/
theorem Holds.retain {k' : Claim} (h : s.Holds k) : (s.retain k').Holds k := by
  cases k with
  | frame id =>
    cases k' with
    | frame id' => exact Arena.live_retain h
    | cell n => exact h
  | cell n =>
    cases k' with
    | frame id' => exact h
    | cell n' =>
      show ((s.modifyCell n' _).cell? n).isSome
      rw [cell?_modifyCell]
      by_cases hn : n = n'
      · rw [if_pos hn, Option.isSome_map]
        exact h
      · rw [if_neg hn]
        exact h

theorem Holds.retainAll (h : s.Holds k) (ks : List Claim) : (s.retainAll ks).Holds k :=
  @List.foldlRecOn _ _ (fun s : Store => s.Holds k) ks Store.retain s h fun _ hs _ _ => hs.retain

theorem Sound.setContents (h : s.Sound o) (hc : s.cell? n = some c)
    (hw : ∀ a, contents = .adapter a → a.Within s.arena)
    (ho : (contents.claims : Multiset Claim) + o' = c.contents.claims + o) :
    (s.setContents n contents).Sound o' := by
  refine h.modifyCell hc _ (h.positive n c hc) (fun k => ?_) hw
  have hcount := congrArg (Multiset.count k) ho
  simp only [Multiset.count_add, Multiset.coe_count] at hcount
  show contents.claims.count k + o'.count k + (if k = .cell n then c.owners else 0) =
    c.contents.claims.count k + o.count k + if k = .cell n then c.owners else 0
  omega

/-- A new cell takes over the claims of its contents. -/
theorem Sound.alloc (h : s.Sound (contents.claims + o))
    (hw : ∀ a, contents = .adapter a → a.Within s.arena) :
    (s.alloc contents).2.Sound ({.cell (s.alloc contents).1} + o) := by
  have hclaimed : ∀ k, (s.alloc contents).2.claimed k = s.claimed k + contents.claims.count k := by
    intro k
    have : (s.alloc contents).2.inCells (fun c => c.contents.claims.count k) =
        s.inCells (fun c => c.contents.claims.count k) + contents.claims.count k :=
      inCells_alloc s contents _
    show s.arena.tally _ + (s.alloc contents).2.inCells _ = s.arena.tally _ + _ + _
    omega
  refine h.ofCells rfl (fun id => ?_) (fun k => ?_) (fun k e he => ?_) (fun k e a he hea => ?_)
  · have := hclaimed (.frame id)
    simp only [Multiset.count_add, Multiset.coe_count, Multiset.count_singleton, reduceCtorEq, if_false]
    omega
  · have h1 := hclaimed (.cell k)
    have h2 := h.cells k
    simp only [Multiset.count_add, Multiset.coe_count] at h2
    simp only [Multiset.count_add, Multiset.count_singleton, Claim.cell.injEq]
    unfold cellOwners at h2 ⊢
    rw [cell?_alloc]
    show _ = _ + ((if k = s.cells.size then 1 else 0) + _)
    by_cases hk : k = s.cells.size
    · -- the number was not in use, so nothing claimed it
      rw [hk, cell?_size] at h2
      rw [if_pos hk, if_pos hk]
      simp only [Option.elim_none] at h2
      simp only [Option.elim_some]
      rw [hk] at h1 ⊢
      omega
    · rw [if_neg hk, if_neg hk]
      omega
  · rcases cell?_of_alloc he with ⟨-, rfl⟩ | ⟨-, he⟩
    · exact Nat.one_pos
    · exact h.positive k e he
  · rcases cell?_of_alloc he with ⟨-, rfl⟩ | ⟨-, he⟩
    · exact hw a hea
    · exact h.tables k e a he hea

/-! ## Unwinding -/

/-- What is known of a store and of claims that are on the way to be dropped, whatever comes of them: a claim is taken
from the count of a frame or a cell, and with the last one what the frame or the cell owned is to be dropped, too;
a claim on a frame may also wait in the queue. -/
structure Unwinds (P : Store → Multiset Claim → Prop) : Prop where
  queue : ∀ {s : Store} {id : ScopeId} {w : Multiset Claim}, P s ({.frame id} + w) →
    P { s with arena := s.arena.queue id } w
  taken : ∀ {s : Store} {w : Multiset Claim}, P s w →
    P { s with arena := { s.arena with dropped := [] } } ((s.arena.dropped.map Claim.frame : List Claim) + w)
  absent : ∀ {s : Store} {k : Claim} {w : Multiset Claim}, ¬ s.Holds k → P s ({k} + w) → P s w
  frame : ∀ {s : Store} {id : ScopeId} {f : Frame} {w : Multiset Claim}, s.arena.frame? id = some f →
    1 < f.owners → P s ({.frame id} + w) →
      P { s with arena := s.arena.setFrame id { f with owners := f.owners - 1 } } w
  lastFrame : ∀ {s : Store} {id : ScopeId} {f : Frame} {w : Multiset Claim}, s.arena.frame? id = some f →
    f.owners ≤ 1 → P s ({.frame id} + w) → P { s with arena := s.arena.vacate id.index }
      ((f.parent.toList.map Claim.frame : List Claim) + (f.claims + w))
  cell : ∀ {s : Store} {n : Nat} {c : Cell} {w : Multiset Claim}, s.cell? n = some c → 1 < c.owners →
    P s ({.cell n} + w) → P (s.modifyCell n fun cell => { cell with owners := cell.owners - 1 }) w
  lastCell : ∀ {s : Store} {n : Nat} {c : Cell} {w : Multiset Claim}, s.cell? n = some c → c.owners ≤ 1 →
    P s ({.cell n} + w) → P (s.clearCell n) (c.contents.claims + w)

section Unwinds

variable {P : Store → Multiset Claim → Prop} {w : Multiset Claim}

/-- Claims that can be dropped one by one in stores with few enough cells can be dropped in a row. -/
theorem foldl_unwinds {bound : Nat} {drop : Store → Claim → Store} (hsheds : ∀ (s : Store) k, s.Sheds (drop s k))
    (hdrop : ∀ (s : Store) (k : Claim) (w : Multiset Claim), P s ({k} + w) →
      s.inCells (fun _ => 1) < bound → P (drop s k) w)
    (ks : List Claim) : ∀ (s : Store), P s (ks + w) → s.inCells (fun _ => 1) < bound → P (ks.foldl drop s) w := by
  induction ks with
  | nil => exact fun s h _ => by simpa using h
  | cons k ks ih =>
    intro s h hb
    rw [← Multiset.cons_coe, Multiset.cons_add, ← Multiset.singleton_add] at h
    exact ih _ (hdrop s k _ h hb) (Nat.lt_of_le_of_lt (hsheds s k).inUse hb)

/-- Dropping a claim empties only cells that lose their last owner, each of which leaves one cell less
to empty. -/
theorem Unwinds.dropAt (hP : Unwinds P) : ∀ (budget : Nat) (s : Store) (k : Claim) (w : Multiset Claim),
    P s ({k} + w) → s.inCells (fun _ => 1) < budget → P (dropAt budget s k) w
  | _, s, .frame id, w, h, _ => by
    unfold Store.dropAt
    exact hP.queue h
  | 0, _, .cell _, _, _, hb => absurd hb (Nat.not_lt_zero _)
  | budget + 1, s, .cell n, w, h, hb => by
    unfold Store.dropAt
    cases hc : s.cell? n with
    | none => exact hP.absent (by simp [Holds, hc]) h
    | some c =>
      dsimp only
      split
      · next hone =>
        -- there is one cell less, which pays for dropping what it held
        have hclear := inCells_clearCell hc fun _ => 1
        exact foldl_unwinds (sheds_dropAt budget) (hP.dropAt budget) _ _ (hP.lastCell hc hone h) (by omega)
      · next hmore => exact hP.cell hc (by omega) h

theorem Unwinds.drop (hP : Unwinds P) {k : Claim} (h : P s ({k} + w)) : P (s.drop k) w :=
  hP.dropAt _ s k w h (by have := inUse_le_size s; omega)

theorem Unwinds.dropAll (hP : Unwinds P) {ks : List Claim} (h : P s (ks + w)) : P (s.dropAll ks) w :=
  foldl_unwinds (fun s k => sheds_dropAt _ s k) (fun _ _ _ h _ => hP.drop h) ks s h (Nat.lt_succ_self _)

/-- A release goes from a freed frame to its parent; the freed frames give up what they held. -/
theorem Unwinds.releaseFrom (hP : Unwinds P) : ∀ (budget : Nat) (start : Option ScopeId) (s : Store)
    (w : Multiset Claim), P s ((start.toList.map Claim.frame : List Claim) + w) → s.arena.liveCount < budget →
      P { s with arena := (Arena.releaseFrom budget start s.arena).2 }
        (((Arena.releaseFrom budget start s.arena).1.flatMap Frame.claims : List Claim) + w)
  | 0, _, _, _, _, hb => absurd hb (Nat.not_lt_zero _)
  | _ + 1, none, _, _, h, _ => h
  | budget + 1, some id, s, w, h, hb => by
    unfold Arena.releaseFrom
    cases hf : s.arena.frame? id with
    | none => simpa using hP.absent (k := .frame id) (by simpa [Holds] using Arena.not_live_iff.2 hf) h
    | some f =>
      by_cases hone : f.owners ≤ 1
      · simp only [if_pos hone]
        have hcount := Arena.liveCount_vacate hf
        have hrest := hP.releaseFrom budget f.parent _ _ (hP.lastFrame hf hone h) (by dsimp only; omega)
        rwa [List.flatMap_cons, ← Multiset.coe_add, add_comm (f.claims : Multiset Claim), add_assoc]
      · simp only [if_neg hone]
        simpa using hP.frame hf (by omega) h

theorem Unwinds.releaseAll (hP : Unwinds P) (ids : List ScopeId) : ∀ (s : Store) (w : Multiset Claim),
    P s ((ids.map Claim.frame : List Claim) + w) → P { s with arena := (Arena.releaseAll ids s.arena).2 }
      (((Arena.releaseAll ids s.arena).1.flatMap Frame.claims : List Claim) + w) := by
  induction ids with
  | nil => exact fun s w h => h
  | cons id ids ih =>
    intro s w h
    have hb : s.arena.liveCount < s.arena.slots.size + 1 := by have := s.arena.liveCount_le_size; omega
    rw [List.map_cons, ← Multiset.cons_coe, Multiset.cons_add, ← Multiset.singleton_add] at h
    have hfirst := hP.releaseFrom _ (some id) s _ h hb
    rw [add_left_comm] at hfirst
    have hothers := ih _ _ hfirst
    rwa [add_left_comm, ← add_assoc, Multiset.coe_add, ← List.flatMap_append] at hothers

theorem Unwinds.settleRound (hP : Unwinds P) (h : P s w) : P s.settleRound w := by
  have htaken := hP.taken h
  rw [← Multiset.coe_reverse, ← List.map_reverse] at htaken
  exact hP.dropAll (hP.releaseAll _ _ _ htaken)

/-- Settling keeps what unwinds, and leaves nothing queued. -/
theorem Unwinds.settle (hP : Unwinds P) (h : P s w) : P s.settle w ∧ s.settle.arena.dropped = [] :=
  settled_of_loop (P := fun s => P s w) (fun _ => hP.settleRound) s.settle_loop h

theorem Unwinds.release (hP : Unwinds P) (h : P s ({.frame id} + w)) : P (s.release id) w := by
  have hb := s.settle.arena.liveCount_le_size
  have hreleased := hP.releaseFrom (s.settle.arena.slots.size + 1) (some id) _ _ (hP.settle h).1 (by omega)
  exact hP.dropAll hreleased

end Unwinds

/-! ## Dropping claims -/

theorem Sound.queue (h : s.Sound ({.frame id} + o)) :
    ({ s with arena := s.arena.queue id } : Store).Sound o := by
  refine h.ofArena (a := s.arena.queue id) ?_ (fun n => ?_) h.tidy fun k p hp _ => hp
  · refine Arena.counted_queue (h.frames.congr fun k => ?_)
    simp only [Arena.plus, Multiset.count_add, Multiset.count_singleton, Claim.frame.injEq]
    show _ = s.claimed (.frame k) + _ + _
    omega
  · simp only [Multiset.count_add, Multiset.count_singleton, reduceCtorEq, if_false]
    show _ = s.claimed (.cell n) + _
    omega

theorem count_frames (ids : List ScopeId) (id : ScopeId) :
    (ids.map Claim.frame).count (.frame id) = ids.count id :=
  List.count_map_of_injective _ _ (fun _ _ => Claim.frame.inj) _

theorem count_frames_cell (ids : List ScopeId) (n : Nat) : (ids.map Claim.frame).count (.cell n) = 0 := by
  simp [List.count_eq_zero]

/-- What was queued is owned outside. -/
theorem Sound.taken (h : s.Sound o) : ({ s with arena := { s.arena with dropped := [] } } : Store).Sound
    ((s.arena.dropped.map Claim.frame : List Claim) + o) := by
  refine h.ofArena ((Arena.counted_taken h.frames).congr fun k => ?_) (fun n => ?_) h.tidy fun k p hp _ => hp
  · rw [Multiset.count_add, Multiset.coe_count, count_frames]
    show _ = s.claimed (.frame k) + _
    omega
  · rw [Multiset.count_add, Multiset.coe_count, count_frames_cell, Nat.zero_add]
    rfl

/-- A claim from outside is counted like any other. -/
theorem Sound.plus (h : s.Sound ({.frame id} + o)) :
    s.arena.Counted (Arena.plus (fun k => s.claimed (.frame k) + o.count (.frame k)) id) := by
  refine h.frames.congr fun k => ?_
  simp only [Arena.plus, Multiset.count_add, Multiset.count_singleton, Claim.frame.injEq]
  omega

/-- One of several claims on a frame is taken from its count. -/
theorem Sound.lessenFrame (h : s.Sound ({.frame id} + o)) (hf : s.arena.frame? id = some f) (hmore : 1 < f.owners) :
    ({ s with arena := s.arena.setFrame id { f with owners := f.owners - 1 } } : Store).Sound o := by
  have hfades := Arena.fades_setFrame hf (f.owners - 1)
  have hclaimed : ∀ k, ({ s with arena := s.arena.setFrame id { f with owners := f.owners - 1 } } : Store).claimed k =
      s.claimed k := by
    intro k
    have := Arena.tally_setFrame hf (fun f => f.claims.count k) { f with owners := f.owners - 1 }
    have hsame : ({ f with owners := f.owners - 1 } : Frame).claims = f.claims := rfl
    simp only [hsame] at this
    show (s.arena.setFrame id _).tally _ + s.inCells _ = s.arena.tally _ + _
    omega
  refine h.ofArena ?_ (fun n => ?_) (h.tidy_of_fades hfades) hfades.covers.keepsParents
  · refine Arena.counted_setFrame h.plus hf rfl (by show 0 < f.owners - 1; omega) ?_ fun k hk => ?_
    · rw [hclaimed]
      simp only [Arena.plus, if_true]
      omega
    · rw [hclaimed]
      simp only [Arena.plus, hk, if_false, Nat.add_zero]
  · rw [hclaimed]
    simp

/-- The last claim on a frame gives back what the frame held, and its claim on its parent. -/
theorem Sound.vacate (h : s.Sound ({.frame id} + o)) (hf : s.arena.frame? id = some f) (hone : f.owners ≤ 1) :
    ({ s with arena := s.arena.vacate id.index } : Store).Sound
      ((f.parent.toList.map Claim.frame : List Claim) + (f.claims + o)) := by
  have hpos := h.frames.positive id f hf
  have hfades := Arena.fades_vacate s.arena id.index
  have hclaimed : ∀ k, ({ s with arena := s.arena.vacate id.index } : Store).claimed k + f.claims.count k =
      s.claimed k := by
    intro k
    have := Arena.tally_vacate hf fun f => f.claims.count k
    show (s.arena.vacate id.index).tally _ + s.inCells _ + _ = s.arena.tally _ + _
    omega
  refine h.ofArena ((Arena.counted_vacate h.plus hf (by omega)).congr fun k => ?_) (fun n => ?_)
    (h.tidy_of_fades hfades) hfades.covers.keepsParents
  · have := hclaimed (.frame k)
    simp only [Multiset.count_add, Multiset.coe_count, count_frames]
    unfold Arena.plus?
    cases f.parent with
    | none => simp; omega
    | some p => simp [List.count_singleton]; omega
  · have := hclaimed (.cell n)
    simp only [Multiset.count_add, Multiset.coe_count, count_frames_cell, Multiset.count_singleton, reduceCtorEq,
      if_false]
    omega

/-- One of several claims on a cell is taken from its count. -/
theorem Sound.lessenCell (h : s.Sound ({.cell n} + o)) (hc : s.cell? n = some c) (hmore : 1 < c.owners) :
    (s.modifyCell n fun cell => { cell with owners := cell.owners - 1 }).Sound o := by
  refine h.modifyCell hc _ (by show 0 < c.owners - 1; omega) (fun k => ?_) fun a ha => h.tables n c a hc ha
  simp only [Multiset.count_add, Multiset.count_singleton]
  by_cases hk : k = .cell n
  · simp only [hk, if_true]
    omega
  · simp only [hk, if_false]
    omega

/-- The last claim on a cell gives back what the cell holds. -/
theorem Sound.clearCell (h : s.Sound ({.cell n} + o)) (hc : s.cell? n = some c)
    (hone : c.owners ≤ 1) : (s.clearCell n).Sound (c.contents.claims + o) := by
  have hclaimed : ∀ k, (s.clearCell n).claimed k + c.contents.claims.count k = s.claimed k := by
    intro k
    have := inCells_clearCell hc fun c => c.contents.claims.count k
    show s.arena.tally _ + (s.clearCell n).inCells _ + _ = s.arena.tally _ + _
    omega
  refine h.ofCells rfl (fun id => ?_) (fun k => ?_) (fun k e he => h.positive k e (cell?_of_clearCell he))
    fun k e a he => h.tables k e a (cell?_of_clearCell he)
  · have := hclaimed (.frame id)
    simp only [Multiset.count_add, Multiset.coe_count, Multiset.count_singleton, reduceCtorEq, if_false]
    omega
  · have h1 := hclaimed (.cell k)
    have h2 := h.cells k
    simp only [Multiset.count_add, Multiset.coe_count, Multiset.count_singleton, Claim.cell.injEq] at h2 ⊢
    unfold cellOwners at h2 ⊢
    rw [cell?_clearCell]
    by_cases hk : k = n
    · -- the claim that is given up was the only one
      rw [hk, hc, if_pos rfl] at h2
      rw [if_pos hk, hk]
      simp only [Option.elim_some] at h2
      simp only [Option.elim_none]
      rw [hk] at h1
      omega
    · rw [if_neg hk] at h2
      rw [if_neg hk]
      omega

/-- A sound store stays sound while claims from outside are dropped. -/
theorem unwinds_sound : Unwinds Sound where
  queue := .queue
  taken := .taken
  absent hk h := absurd (h.holds_of_mem (by simp)) hk
  frame hf hmore h := h.lessenFrame hf hmore
  lastFrame hf hone h := h.vacate hf hone
  cell hc hmore h := h.lessenCell hc hmore
  lastCell hc hone h := h.clearCell hc hone

/-- Nothing in a store is attached to a frame: no frame is inside it, and nothing refers to it. -/
structure Unattached (s : Store) (id : ScopeId) : Prop where
  inside : ∀ k f, s.arena.frame? k = some f → f.parent ≠ some id
  frames : ∀ k f, s.arena.frame? k = some f → .frame id ∉ f.claims
  cells : ∀ n c, s.cell? n = some c → .frame id ∉ c.contents.claims

theorem Unattached.shrinks (h : s.Unattached id) (hs : s.Shrinks s') : s'.Unattached id := by
  refine ⟨fun k g hg => ?_, fun k g hg => ?_, fun n c hc => ?_⟩
  · obtain ⟨f, hf, hgf⟩ := hs.frames k g hg
    rw [hgf]
    exact h.inside k f hf
  · obtain ⟨f, hf, hgf⟩ := hs.frames k g hg
    rw [hgf]
    exact h.frames k f hf
  · obtain ⟨c0, hc0, hcc⟩ := hs.cells n c hc
    rw [hcc]
    exact h.cells n c0 hc0

theorem Unattached.claimed (h : s.Unattached id) : s.claimed (.frame id) = 0 := by
  have hframes := Arena.tally_eq_zero fun k f hf => List.count_eq_zero.2 (h.frames k f hf)
  have hcells := inCells_eq_zero fun n c hc => List.count_eq_zero.2 (h.cells n c hc)
  exact Nat.add_eq_zero_iff.2 ⟨hframes, hcells⟩

/-- **The last owner of a frame to which nothing is attached frees it.** -/
theorem release_frees (h : s.Sound ({.frame id} + o)) (hu : s.Unattached id) (ho : .frame id ∉ o) :
    ¬ (s.release id).arena.Live id := by
  obtain ⟨hs, hq⟩ := unwinds_sound.settle h
  obtain ⟨-, hcounted⟩ := Arena.release_counted hs.plus
  have hrel := Arena.released_release s.settle.arena id
  have hsettled := hu.shrinks (ebbs_settle s).toShrinks
  have hchildren : (s.settle.arena.release id).2.children id = 0 :=
    Arena.tally_eq_zero fun k g hg => if_neg ((hsettled.shrinks (Ebbs.ofArena hrel.toFades).toShrinks).inside k g hg)
  -- nothing is left that would count as an owner
  have hgone : ¬ (s.settle.arena.release id).2.Live id := by
    rw [hcounted.live_iff_counted, hsettled.claimed, Multiset.count_eq_zero_of_notMem ho, hchildren,
      hrel.dropped, hq]
    exact Nat.lt_irrefl 0
  exact fun hl => hgone ((ebbs_dropAll _ _).covers.live hl)

end Store

end HostScript
