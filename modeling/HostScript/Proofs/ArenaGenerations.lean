import HostScript.Proofs.ArenaSlots

/-!
# Names of frames that are gone

A slot moves on to its next generation, modulo `2 ^ 32`, whenever its frame is freed, and a name is only
good for the generation it was given out in. So the name of a freed frame finds nothing until its slot has
been freed `2 ^ 32` times, and until then every operation on it leaves the arena as it is
(`stale_name_finds_nothing`). Runs are any operations on any names; the step lemma is `moves_apply`.
-/

set_option autoImplicit false

namespace HostScript.Arena

/-- An operation on the arena. -/
inductive Op where
  | create (name : String) (kind : FrameKind) (parent : Option ScopeId)
  | retain (id : ScopeId)
  | hold (id : ScopeId)
  /-- Drops a claim, which is queued. -/
  | queue (id : ScopeId)
  | drain
  | release (id : ScopeId)
  /-- Changes a frame through its name. -/
  | edit (id : ScopeId) (change : Frame → Frame)
  | declare (method : ScriptMethod)
  | removeMethod (id : ScopeId) (name : String)

/-- The arena after an operation; one that is refused changes nothing. -/
def Op.apply (a : Arena) : Op → Arena
  | .create name kind parent => (a.create name kind parent).2
  | .retain id => a.retain id
  | .hold id => (a.hold id).toOption.getD a
  | .queue id => a.queue id
  | .drain => a.drain.2
  | .release id => (a.release id).2
  | .edit id change => (a.frame? id).elim a fun f => a.setFrame id (change f)
  | .declare method => (a.declare method).toOption.getD a
  | .removeMethod id name => ((a.removeMethod id name).toOption.map Prod.snd).getD a

/-- The arena after a row of operations. -/
def run (a : Arena) (ops : List Op) : Arena := ops.foldl Op.apply a

/-- The generation of a slot; a slot that is not made yet will start with the first one. -/
def generationAt (a : Arena) (i : Nat) : UInt32 := (a.slots[i]?.map Slot.generation).getD 0

/-- Whether a slot holds a frame. -/
def occupied (a : Arena) (i : Nat) : Bool := a.slots[i]?.any fun slot => slot.frame.isSome

/-- How often a slot loses its frame between two arenas. -/
def freed (a b : Arena) (i : Nat) : Nat := if a.occupied i && !b.occupied i then 1 else 0

/-- How often a slot loses its frame in a row of operations. -/
def frees (i : Nat) : Arena → List Op → Nat
  | _, [] => 0
  | a, op :: rest => freed a (op.apply a) i + frees i (op.apply a) rest

/-! ## One slot -/

variable {a b c : Arena} {id : ScopeId} {i : Nat}

theorem live_iff_occupied :
    a.Live id ↔ a.occupied id.index = true ∧ a.generationAt id.index = id.generation := by
  unfold Live frame? occupied generationAt
  cases a.slots[id.index]? with
  | none => simp
  | some slot =>
    by_cases hg : slot.generation = id.generation
    · simp [hg]
    · simp [hg]

/-- A slot is at the same generation, and holds a frame or not, as before. -/
def SameSlot (a b : Arena) (i : Nat) : Prop :=
  b.generationAt i = a.generationAt i ∧ b.occupied i = a.occupied i

/-- A slot lost its frame and moved on to the next generation. -/
def FreedSlot (a b : Arena) (i : Nat) : Prop :=
  a.occupied i = true ∧ b.occupied i = false ∧ b.generationAt i = a.generationAt i + 1

/-- What a release does to a slot: nothing, or free its frame. -/
def Loses (a b : Arena) (i : Nat) : Prop := SameSlot a b i ∨ FreedSlot a b i

/-- What an operation may do to a slot: leave its generation, and its frame if it has one, or free
its frame. -/
def Moves (a b : Arena) (i : Nat) : Prop :=
  (b.generationAt i = a.generationAt i ∧ (a.occupied i = true → b.occupied i = true)) ∨ FreedSlot a b i

theorem SameSlot.unfreed (h : SameSlot a b i) : Moves a b i := .inl ⟨h.1, fun ho => h.2.trans ho⟩

theorem SameSlot.refl (a : Arena) (i : Nat) : SameSlot a a i := ⟨rfl, rfl⟩

theorem SameSlot.moves (h : SameSlot a b i) (h' : Moves b c i) : Moves a c i := by
  obtain ⟨hg, ho⟩ := h
  unfold Moves FreedSlot at h' ⊢
  rw [hg, ho] at h'
  exact h'

/-- A slot that has lost its frame has none to lose again. -/
theorem Loses.trans (h : Loses a b i) (h' : Loses b c i) : Loses a c i := by
  rcases h with ⟨hg, ho⟩ | ⟨ho, hn, hg⟩
  · rcases h' with ⟨hg', ho'⟩ | ⟨ho', hn', hg'⟩
    · exact Or.inl ⟨hg'.trans hg, ho'.trans ho⟩
    · exact Or.inr ⟨ho ▸ ho', hn', by rw [hg', hg]⟩
  · rcases h' with ⟨hg', ho'⟩ | ⟨ho', -, -⟩
    · exact Or.inr ⟨ho, ho'.trans hn, hg'.trans hg⟩
    · -- freed again without having been filled in between
      rw [hn] at ho'
      exact absurd ho' (by simp)

theorem Loses.moves (h : Loses a b i) : Moves a b i := by
  rcases h with h | h
  · exact h.unfreed
  · exact Or.inr h

/-- An operation moves a generation on by the number of times that it frees the slot. -/
theorem Moves.generationAt_eq (h : Moves a b i) :
    b.generationAt i = a.generationAt i + UInt32.ofNat (freed a b i) := by
  unfold freed
  rcases h with ⟨hg, ho⟩ | ⟨ho, hn, hg⟩
  · rw [hg]
    cases hc : a.occupied i with
    | false => simp
    | true => simp [ho hc]
  · rw [hg, ho, hn]
    rfl

/-- A slot that an operation does not free keeps its frame. -/
theorem Moves.occupied_of_not_freed (h : Moves a b i) (hf : freed a b i = 0) (ho : a.occupied i = true) :
    b.occupied i = true := by
  rcases h with ⟨-, hk⟩ | ⟨-, hn, -⟩
  · exact hk ho
  · simp [freed, ho, hn] at hf

theorem sameSlot_of_slots_eq (h : b.slots = a.slots) (i : Nat) : SameSlot a b i := by
  unfold SameSlot generationAt occupied
  rw [h]
  exact ⟨rfl, rfl⟩

theorem sameSlot_setFrame (h : a.Live id) (g : Frame) (i : Nat) : SameSlot a (a.setFrame id g) i := by
  have ho := (live_iff_occupied.1 h).1
  by_cases hi : id.index = i
  · subst hi
    unfold SameSlot generationAt occupied at *
    cases hs : a.slots[id.index]? with
    | none => simp [hs] at ho
    | some slot =>
      rw [hs] at ho
      simpa [setFrame, Array.getElem?_modify, hs] using ho.symm
  · simp [SameSlot, generationAt, occupied, setFrame, Array.getElem?_modify, hi]

theorem freedSlot_vacate (h : a.Live id) : FreedSlot a (a.vacate id.index) id.index := by
  have ho := (live_iff_occupied.1 h).1
  cases hs : a.slots[id.index]? with
  | none => simp [occupied, hs] at ho
  | some slot =>
    refine ⟨ho, ?_, ?_⟩
    · simp [occupied, vacate, Array.getElem?_modify, hs]
    · simp [generationAt, vacate, Array.getElem?_modify, hs]

theorem loses_vacate (h : a.Live id) (i : Nat) : Loses a (a.vacate id.index) i := by
  by_cases hi : id.index = i
  · subst hi
    exact Or.inr (freedSlot_vacate h)
  · left
    simp [SameSlot, generationAt, occupied, vacate, Array.getElem?_modify, hi]

theorem moves_place (ha : a.Orderly) (f : Frame) (i : Nat) : Moves a (a.place f).2 i := by
  left
  rcases slot_nextId ha with ⟨hs, rest, hf⟩ | ⟨-, hf⟩
  · by_cases hi : a.nextId.index = i
    · subst hi
      simp [generationAt, occupied, place, hf, Array.getElem?_modify, hs]
    · simp [generationAt, occupied, place, hf, Array.getElem?_modify, hi]
  · by_cases hi : i = a.slots.size
    · simp [generationAt, occupied, place, hf, hi]
    · simp [generationAt, occupied, place, hf, Array.getElem?_push, hi]

/-! ## One operation -/

theorem sameSlot_retain (a : Arena) (id : ScopeId) (i : Nat) : SameSlot a (a.retain id) i := by
  unfold retain
  cases hf : a.frame? id with
  | none => exact SameSlot.refl a i
  | some f => exact sameSlot_setFrame (live_of_frame? hf) _ i

/-- A release frees slots that hold a frame. Each is freed once, since a freed slot holds none. -/
theorem releaseFrom_orderly :
    ∀ (budget : Nat) (start : Option ScopeId) (a : Arena), a.Orderly →
      (releaseFrom budget start a).2.Orderly ∧ ∀ i, Loses a (releaseFrom budget start a).2 i
  | 0, start, a, ha => by
    cases start <;> exact ⟨ha, fun i => Or.inl (SameSlot.refl a i)⟩
  | budget + 1, none, a, ha => ⟨ha, fun i => Or.inl (SameSlot.refl a i)⟩
  | budget + 1, some id, a, ha => by
    cases hf : a.frame? id with
    | none =>
      simp only [releaseFrom, hf]
      exact ⟨ha, fun i => Or.inl (SameSlot.refl a i)⟩
    | some f =>
      have hl := live_of_frame? hf
      -- only its last owner empties a slot, and the release goes on without it
      by_cases hone : f.owners ≤ 1
      · obtain ⟨ho, hlose⟩ :=
          releaseFrom_orderly budget f.parent (a.vacate id.index) (orderly_vacate ha hl)
        simp only [releaseFrom, hf, hone, if_true]
        exact ⟨ho, fun i => (loses_vacate hl i).trans (hlose i)⟩
      · simp only [releaseFrom, hf, hone, if_false]
        exact ⟨orderly_setFrame ha hl _, fun i => Or.inl (sameSlot_setFrame hl _ i)⟩

theorem releaseAll_orderly (ids : List ScopeId) :
    ∀ a : Arena, a.Orderly → (releaseAll ids a).2.Orderly ∧ ∀ i, Loses a (releaseAll ids a).2 i := by
  induction ids with
  | nil => exact fun a ha => ⟨ha, fun i => Or.inl (SameSlot.refl a i)⟩
  | cons id rest ih =>
    intro a ha
    obtain ⟨ho, hlose⟩ := releaseFrom_orderly (a.slots.size + 1) (some id) a ha
    obtain ⟨ho', hlose'⟩ := ih _ ho
    exact ⟨ho', fun i => (hlose i).trans (hlose' i)⟩

theorem create_orderly (ha : a.Orderly) (name : String) (kind : FrameKind) (parent : Option ScopeId) :
    (a.create name kind parent).2.Orderly ∧ ∀ i, Moves a (a.create name kind parent).2 i := by
  cases parent with
  | none => exact ⟨orderly_place ha _, moves_place ha _⟩
  | some p =>
    have ho := orderly_retain ha p
    have hsame := sameSlot_retain a p
    exact ⟨orderly_place ho _, fun i => (hsame i).moves (moves_place ho _ i)⟩

/-- **The step lemma.** An operation frees a slot at most once, and moves its generation on exactly
then; the free list goes on to hold exactly the empty slots. -/
theorem moves_apply (ha : a.Orderly) (op : Op) : (op.apply a).Orderly ∧ ∀ i, Moves a (op.apply a) i := by
  -- an operation that is refused changes nothing, and a write in place empties no slot
  have stay : a.Orderly ∧ ∀ i, Moves a a i :=
    ⟨ha, fun i => (SameSlot.refl a i).unfreed⟩
  have write : ∀ {id : ScopeId}, a.Live id → ∀ g : Frame,
      (a.setFrame id g).Orderly ∧ ∀ i, Moves a (a.setFrame id g) i := fun hl g =>
    ⟨orderly_setFrame ha hl g, fun i => (sameSlot_setFrame hl g i).unfreed⟩
  have retained (id : ScopeId) : (a.retain id).Orderly ∧ ∀ i, Moves a (a.retain id) i :=
    ⟨orderly_retain ha id, fun i => (sameSlot_retain a id i).unfreed⟩
  cases op with
  | create name kind parent => exact create_orderly ha name kind parent
  | retain id => exact retained id
  | hold id =>
    have hretained := retained id
    simp only [Op.apply, hold]
    cases a.frame? id with
    | none => exact stay
    | some f => exact hretained
  | queue id => exact ⟨⟨ha.nodup, ha.mem_free_iff⟩, fun i => (sameSlot_of_slots_eq rfl i).unfreed⟩
  | drain =>
    obtain ⟨ho, hlose⟩ := releaseAll_orderly a.dropped.reverse { a with dropped := [] }
      ⟨ha.nodup, ha.mem_free_iff⟩
    exact ⟨ho, fun i => (hlose i).moves⟩
  | release id =>
    obtain ⟨ho, hlose⟩ := releaseFrom_orderly (a.slots.size + 1) (some id) a ha
    exact ⟨ho, fun i => (hlose i).moves⟩
  | edit id change =>
    simp only [Op.apply]
    cases hf : a.frame? id with
    | none => exact stay
    | some f => exact write (live_of_frame? hf) (change f)
  | declare method =>
    simp only [Op.apply, declare]
    cases hf : a.frame? method.declaring with
    | none => exact stay
    | some f =>
      obtain ⟨ho, hm⟩ := write (live_of_frame? hf) (f.declare method)
      exact ⟨⟨ho.nodup, ho.mem_free_iff⟩, hm⟩
  | removeMethod id name =>
    simp only [Op.apply, removeMethod]
    cases hf : a.frame? id with
    | none => exact stay
    | some f =>
      by_cases hc : f.methods.contains name = true
      · simp only [hc, if_true]
        obtain ⟨ho, hm⟩ := write (live_of_frame? hf)
          { f with methods := f.methods.erase name }
        exact ⟨⟨ho.nodup, ho.mem_free_iff⟩, hm⟩
      · simp only [hc]
        exact stay

/-! ## Runs -/

theorem orderly_run (ops : List Op) : ∀ a : Arena, a.Orderly → (a.run ops).Orderly := by
  induction ops with
  | nil => exact fun a ha => ha
  | cons op rest ih => exact fun a ha => ih _ (moves_apply ha op).1

/-- Over a run, a generation moves on by the number of times that the slot was freed. -/
theorem generationAt_run (i : Nat) (ops : List Op) : ∀ a : Arena, a.Orderly →
    (a.run ops).generationAt i = a.generationAt i + UInt32.ofNat (frees i a ops) := by
  induction ops with
  | nil => exact fun a _ => (UInt32.add_zero _).symm
  | cons op rest ih =>
    intro a ha
    obtain ⟨ho, hm⟩ := moves_apply ha op
    have hrun : a.run (op :: rest) = (op.apply a).run rest := rfl
    -- the numbers of frees are added before they wrap around
    rw [hrun, ih _ ho, (hm i).generationAt_eq, UInt32.add_assoc, ← UInt32.ofNat_add]
    rfl

/-- A slot that a run does not free keeps its frame. -/
theorem occupied_run (i : Nat) (ops : List Op) : ∀ a : Arena, a.Orderly →
    frees i a ops = 0 → a.occupied i = true → (a.run ops).occupied i = true := by
  induction ops with
  | nil => exact fun a _ _ ho => ho
  | cons op rest ih =>
    intro a ha hz ho
    obtain ⟨ho', hm⟩ := moves_apply ha op
    have hz' : freed a (op.apply a) i + frees i (op.apply a) rest = 0 := hz
    exact ih _ ho' (by omega) ((hm i).occupied_of_not_freed (by omega) ho)

theorem live_create (ha : a.Orderly) (name : String) (kind : FrameKind) (parent : Option ScopeId) :
    (a.create name kind parent).2.Live (a.create name kind parent).1 := by
  -- retaining the parent does not change which name is next
  have hplace : ∀ (b : Arena) (f : Frame), b.Orderly → (b.place f).2.Live (b.place f).1 := by
    intro b f hb
    rw [place_fst]
    exact live_iff.2 ⟨f, by rw [frame?_place hb, if_pos rfl]⟩
  cases parent with
  | none => exact hplace a _ ha
  | some p => exact hplace (a.retain p) _ (orderly_retain ha p)

/-- **A name never finds another frame than its own until its slot was freed `2 ^ 32` times.** Let a
run of any operations give out a name, and let any operations follow; `n` counts how often the slot
of the name was freed since. While `n` is zero the name finds a live frame, and no frame made then
gets the same name. Once the frame is gone, the name finds a frame again only if `n` is at least
`2 ^ 32`; before that, it can be neither retained, held nor released, and trying to changes
nothing. -/
theorem stale_name_finds_nothing (before after : List Op) (name : String) (kind : FrameKind)
    (parent : Option ScopeId) :
    let issued := (run {} before).create name kind parent
    let id := issued.1
    let b := issued.2.run after
    let n := frees id.index issued.2 after
    (n = 0 → b.Live id ∧ ∀ name' kind' parent', (b.create name' kind' parent').1 ≠ id) ∧
      (0 < n → b.Live id → 2 ^ 32 ≤ n) ∧
      (0 < n → n < 2 ^ 32 → b.retain id = b ∧ b.hold id = .error id ∧ b.release id = ([], b)) := by
  intro issued id b n
  have ha : (run {} before).Orderly := orderly_run before {} orderly_empty
  have hi : issued.2.Orderly := (create_orderly ha name kind parent).1
  have hb : b.Orderly := orderly_run after _ hi
  have hl : issued.2.Live id := live_create ha name kind parent
  obtain ⟨ho, hg⟩ := live_iff_occupied.1 hl
  have hgb : b.generationAt id.index = id.generation + UInt32.ofNat n := by
    rw [← hg]
    exact generationAt_run id.index after _ hi
  -- the name is good again only when the generation has come all the way round
  have hround : 0 < n → b.Live id → 2 ^ 32 ≤ n := by
    intro hpos hlive
    have hsame := (live_iff_occupied.1 hlive).2
    rw [hgb] at hsame
    have hz : UInt32.ofNat n = 0 := by simpa using hsame
    have hmod : n % 2 ^ 32 = 0 := by
      have := congrArg UInt32.toNat hz
      simpa using this
    exact Nat.le_of_dvd hpos (Nat.dvd_of_mod_eq_zero hmod)
  refine ⟨fun hz => ?_, hround, fun hpos hlt => ?_⟩
  · have hlive : b.Live id := by
      refine live_iff_occupied.2 ⟨occupied_run id.index after _ hi hz ho, ?_⟩
      rw [hgb, hz]
      simp
    refine ⟨hlive, fun name' kind' parent' he => ?_⟩
    rw [create_fst] at he
    exact not_live_nextId hb (he ▸ hlive)
  · have hnone : b.frame? id = none :=
      not_live_iff.1 fun hlive => Nat.not_le.2 hlt (hround hpos hlive)
    refine ⟨?_, ?_, ?_⟩
    · simp only [retain, hnone]
    · simp only [hold, hnone]
    · simp only [release, releaseFrom, hnone]

end HostScript.Arena
