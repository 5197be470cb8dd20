import HostScript.Frame.Arena
import Mathlib

/-!
# Slots of the arena

What each elementary change of the arena does to the frames that can be looked up (`frame?`), to sums
over the live frames (`tally`) and to the free slots. Later files never open the slot array again. An arena
is orderly when its free list holds exactly the empty slots, each once, and every operation keeps it so.
-/

set_option autoImplicit false

namespace HostScript

/-! ## Arrays with one changed entry -/

theorem Array.modify_eq_self {α : Type} {xs : Array α} {i : Nat} {a : α} {f : α → α} (hi : xs[i]? = some a)
    (hf : f a = a) : xs.modify i f = xs := by
  refine Array.ext_getElem? fun j => ?_
  rw [Array.getElem?_modify]
  by_cases hj : i = j
  · subst hj
    rw [if_pos rfl, hi, Option.map_some, hf]
  · rw [if_neg hj]

theorem Array.modify_modify {α : Type} (xs : Array α) (i : Nat) (f g : α → α) :
    (xs.modify i f).modify i g = xs.modify i fun a => g (f a) := by
  refine Array.ext_getElem? fun j => ?_
  rw [Array.getElem?_modify, Array.getElem?_modify, Array.getElem?_modify]
  by_cases hj : i = j
  · rw [if_pos hj, if_pos hj, if_pos hj, Option.map_map]
    rfl
  · rw [if_neg hj, if_neg hj, if_neg hj]

/-! ## Sums over a list with one changed entry -/

theorem sum_map_modify {α : Type} (w : α → Nat) (change : α → α) :
    ∀ (l : List α) (i : Nat) (x : α), l[i]? = some x →
      ((l.modify i change).map w).sum + w x = (l.map w).sum + w (change x)
  | [], i, x, h => by simp at h
  | y :: l, 0, x, h => by
    simp only [List.getElem?_cons_zero, Option.some.injEq] at h
    subst h
    simp only [List.modify_zero_cons, List.map_cons, List.sum_cons]
    omega
  | y :: l, i + 1, x, h => by
    rw [List.getElem?_cons_succ] at h
    have ih := sum_map_modify w change l i x h
    simp only [List.modify_succ_cons, List.map_cons, List.sum_cons]
    omega

theorem ScopeId.eq_of {id id' : ScopeId} (hi : id.index = id'.index)
    (hg : id.generation = id'.generation) : id = id' := by
  obtain ⟨i, g⟩ := id
  obtain ⟨i', g'⟩ := id'
  simp_all

namespace Arena

variable {a : Arena} {id : ScopeId} {f : Frame}

/-! ## Looking up a frame -/

/-- A frame of that name is live. -/
def Live (a : Arena) (id : ScopeId) : Prop := (a.frame? id).isSome

/-- A frame is found under a name when the slot is at that generation and holds it. -/
theorem frame?_eq_some_iff : a.frame? id = some f ↔ a.slots[id.index]? = some ⟨id.generation, some f⟩ := by
  unfold frame?
  rcases a.slots[id.index]? with _ | ⟨generation, entry⟩
  · simp
  · by_cases hg : generation = id.generation <;> simp [hg]

theorem live_iff : a.Live id ↔ ∃ f, a.frame? id = some f :=
  Option.isSome_iff_exists

theorem live_of_frame? (h : a.frame? id = some f) : a.Live id := live_iff.2 ⟨f, h⟩

theorem not_live_iff : ¬ a.Live id ↔ a.frame? id = none := by
  unfold Live
  cases a.frame? id <;> simp

/-- Two names of live frames in one slot are the same name. -/
theorem eq_of_live_of_index_eq {id' : ScopeId} (h : a.Live id) (h' : a.Live id')
    (hi : id.index = id'.index) : id = id' := by
  obtain ⟨f, hf⟩ := live_iff.1 h
  obtain ⟨f', hf'⟩ := live_iff.1 h'
  rw [frame?_eq_some_iff] at hf hf'
  -- a slot is at one generation at a time
  rw [hi, hf', Option.some.injEq, Slot.mk.injEq] at hf
  exact ScopeId.eq_of hi hf.1.symm

theorem index_lt_of_live (h : a.Live id) : id.index < a.slots.size := by
  obtain ⟨f, hf⟩ := live_iff.1 h
  rw [frame?_eq_some_iff] at hf
  exact (Array.getElem?_eq_some_iff.1 hf).1

/-! ## Sums over the live frames -/

/-- The sum of a quantity over the live frames. -/
def tally (w : Frame → Nat) (a : Arena) : Nat :=
  (a.slots.toList.map fun slot => slot.frame.elim 0 w).sum

/-- One live frame contributes no more than all. -/
theorem le_tally (w : Frame → Nat) (h : a.frame? id = some f) : w f ≤ tally w a := by
  rw [frame?_eq_some_iff, ← Array.getElem?_toList] at h
  exact List.single_le_sum (fun _ _ => Nat.zero_le _) _
    (List.mem_map_of_mem (f := fun slot : Slot => slot.frame.elim 0 w) (List.mem_of_getElem? h))

/-- What every live frame contributes nothing to is nothing. -/
theorem tally_eq_zero {w : Frame → Nat} (h : ∀ id f, a.frame? id = some f → w f = 0) : tally w a = 0 := by
  refine List.sum_eq_zero fun n hn => ?_
  obtain ⟨⟨generation, entry⟩, hslot, rfl⟩ := List.mem_map.1 hn
  obtain ⟨i, hi⟩ := List.mem_iff_getElem?.1 hslot
  rw [Array.getElem?_toList] at hi
  cases entry with
  | none => rfl
  | some f => exact h ⟨i, generation⟩ f (frame?_eq_some_iff.2 hi)

/-- The number of live children of a frame. -/
def children (a : Arena) (id : ScopeId) : Nat :=
  tally (fun f => if f.parent = some id then 1 else 0) a

/-- The number of owners that a name has in the arena; none when its frame is gone. -/
def ownersOf (a : Arena) (id : ScopeId) : Nat := (a.frame? id).elim 0 Frame.owners

theorem ownersOf_eq (h : a.frame? id = some f) : a.ownersOf id = f.owners := by
  unfold ownersOf
  rw [h]
  rfl

theorem ownersOf_of_not_live (h : ¬ a.Live id) : a.ownersOf id = 0 := by
  unfold ownersOf
  rw [not_live_iff.1 h]
  rfl

/-- A frame with an owner is live. -/
theorem live_of_ownersOf_pos (h : 0 < a.ownersOf id) : a.Live id := by
  by_contra hn
  rw [ownersOf_of_not_live hn] at h
  exact Nat.lt_irrefl 0 h

theorem liveCount_eq_tally (a : Arena) : a.liveCount = tally (fun _ => 1) a := by
  have key : ∀ l : List Slot, l.countP (fun slot => slot.frame.isSome) =
        (l.map fun slot => slot.frame.elim 0 fun _ => 1).sum := by
    intro l
    induction l with
    | nil => rfl
    | cons slot l ih =>
      obtain ⟨g, fr⟩ := slot
      cases fr with
      | none => simp [ih]
      | some f =>
        simp only [List.countP_cons, Option.isSome_some, if_true, List.map_cons, Option.elim_some,
          List.sum_cons, ih]
        omega
  unfold liveCount tally
  rw [← key a.slots.toList, Array.countP_toList]

theorem liveCount_le_size (a : Arena) : a.liveCount ≤ a.slots.size := by
  exact Array.countP_le_size

/-! ## Free slots -/

/-- The free list holds exactly the empty slots, each once. -/
structure Orderly (a : Arena) : Prop where
  nodup : a.free.Nodup
  mem_free_iff : ∀ i, i ∈ a.free ↔ ∃ g, a.slots[i]? = some ⟨g, none⟩

theorem orderly_empty : ({} : Arena).Orderly := ⟨List.nodup_nil, by simp⟩

/-! ## Writing a frame in place -/

@[simp] theorem setFrame_free (a : Arena) (id : ScopeId) (f : Frame) :
    (a.setFrame id f).free = a.free := rfl

@[simp] theorem setFrame_dropped (a : Arena) (id : ScopeId) (f : Frame) :
    (a.setFrame id f).dropped = a.dropped := rfl

@[simp] theorem size_setFrame (a : Arena) (id : ScopeId) (f : Frame) :
    (a.setFrame id f).slots.size = a.slots.size := by
  simp [setFrame]

theorem frame?_setFrame (h : a.Live id) (g : Frame) (id' : ScopeId) :
    (a.setFrame id g).frame? id' = if id' = id then some g else a.frame? id' := by
  obtain ⟨f, hf⟩ := live_iff.1 h
  have hs := frame?_eq_some_iff.1 hf
  by_cases hi : id.index = id'.index
  · rw [hi] at hs
    by_cases he : id' = id
    · subst he
      rw [if_pos rfl, frame?_eq_some_iff]
      simp [setFrame, Array.getElem?_modify, hs]
    · -- another generation of the same slot: found neither before nor after
      have hg : id.generation ≠ id'.generation := fun hg => he (ScopeId.eq_of hi.symm hg.symm)
      rw [if_neg he]
      simp [frame?, setFrame, Array.getElem?_modify, hs, hi, hg]
  · rw [if_neg (fun he => hi (by rw [he]))]
    simp [frame?, setFrame, Array.getElem?_modify, hi]

/-- A frame that is found after a write was written or was there before. -/
theorem frame?_of_setFrame {g g' : Frame} {k : ScopeId} (h : a.Live id) (hg : (a.setFrame id g).frame? k = some g') :
    k = id ∧ g = g' ∨ k ≠ id ∧ a.frame? k = some g' := by
  rw [frame?_setFrame h] at hg
  split at hg
  · rename_i hk
    exact .inl ⟨hk, Option.some.inj hg⟩
  · rename_i hk
    exact .inr ⟨hk, hg⟩

theorem tally_setFrame (h : a.frame? id = some f) (w : Frame → Nat) (g : Frame) :
    tally w (a.setFrame id g) + w f = tally w a + w g := by
  rw [frame?_eq_some_iff, ← Array.getElem?_toList] at h
  have key := sum_map_modify (fun slot : Slot => slot.frame.elim 0 w)
    (fun slot => { slot with frame := some g }) _ _ _ h
  simpa [tally, setFrame] using key

theorem orderly_setFrame (ha : a.Orderly) (h : a.Live id) (g : Frame) : (a.setFrame id g).Orderly := by
  obtain ⟨f, hf⟩ := live_iff.1 h
  have hs := frame?_eq_some_iff.1 hf
  refine ⟨ha.nodup, fun i => ?_⟩
  rw [setFrame_free, ha.mem_free_iff]
  by_cases hi : id.index = i
  · subst hi
    simp [setFrame, Array.getElem?_modify, hs]
  · simp [setFrame, Array.getElem?_modify, hi]

theorem orderly_retain (ha : a.Orderly) (id : ScopeId) : (a.retain id).Orderly := by
  unfold retain
  cases hf : a.frame? id with
  | none => exact ha
  | some f => exact orderly_setFrame ha (live_of_frame? hf) _

/-! ## Filling and emptying slots -/

/-- The name that the next frame gets. -/
def nextId (a : Arena) : ScopeId :=
  match a.free with
  | index :: _ => ⟨index, (a.slots[index]?.map Slot.generation).getD 0⟩
  | [] => ⟨a.slots.size, 0⟩

theorem place_fst (a : Arena) (f : Frame) : (a.place f).1 = a.nextId := by
  unfold place nextId
  cases a.free <;> rfl

theorem nextId_setFrame (a : Arena) (id : ScopeId) (f : Frame) : (a.setFrame id f).nextId = a.nextId := by
  unfold nextId
  rw [setFrame_free]
  cases a.free with
  | nil => rw [size_setFrame]
  | cons i rest =>
    simp only [setFrame, Array.getElem?_modify]
    by_cases hi : id.index = i
    · subst hi
      cases a.slots[id.index]? <;> simp
    · simp [hi]

/-- A new frame gets the name that was next. -/
theorem create_fst (a : Arena) (name : String) (kind : FrameKind) (parent : Option ScopeId) :
    (a.create name kind parent).1 = a.nextId := by
  unfold create
  rw [place_fst]
  cases parent with
  | none => rfl
  | some p =>
    show (a.retain p).nextId = a.nextId
    unfold retain
    cases a.frame? p with
    | none => rfl
    | some f => exact nextId_setFrame a p _

@[simp] theorem place_dropped (a : Arena) (f : Frame) : (a.place f).2.dropped = a.dropped := by
  unfold place
  cases a.free <;> rfl

/-- What stands in the slot of the next frame: nothing, in an orderly arena. -/
theorem slot_nextId (ha : a.Orderly) :
    (a.slots[a.nextId.index]? = some ⟨a.nextId.generation, none⟩ ∧
        ∃ rest, a.free = a.nextId.index :: rest) ∨
      (a.nextId = ⟨a.slots.size, 0⟩ ∧ a.free = []) := by
  unfold nextId
  cases hf : a.free with
  | nil => exact Or.inr ⟨rfl, rfl⟩
  | cons i rest =>
    obtain ⟨g, hg⟩ := (ha.mem_free_iff i).1 (by rw [hf]; exact List.mem_cons_self)
    left
    simp [hg]

/-- The next frame gets a name that no live frame has, and no live frame is in its slot. -/
theorem frame?_eq_none_of_index_nextId (ha : a.Orderly) (h : id.index = a.nextId.index) : a.frame? id = none := by
  rcases slot_nextId ha with ⟨hs, -⟩ | ⟨hn, -⟩
  · rw [← h] at hs
    simp [frame?, hs]
  · rw [hn] at h
    simp [frame?, h]

theorem not_live_nextId (ha : a.Orderly) : ¬ a.Live a.nextId :=
  not_live_iff.2 (frame?_eq_none_of_index_nextId ha rfl)

theorem frame?_place (ha : a.Orderly) (f : Frame) (id : ScopeId) :
    (a.place f).2.frame? id = if id = a.nextId then some f else a.frame? id := by
  by_cases hi : id.index = a.nextId.index
  · rw [frame?_eq_none_of_index_nextId ha hi]
    -- a free slot is filled at the generation it is at, a new slot starts at the first one
    rcases slot_nextId ha with ⟨hs, rest, hf⟩ | ⟨hn, hf⟩
    · by_cases he : id = a.nextId
      · rw [if_pos he, he, frame?_eq_some_iff]
        simp [place, hf, Array.getElem?_modify, hs]
      · have hg : a.nextId.generation ≠ id.generation :=
          fun hg => he (ScopeId.eq_of hi hg.symm)
        rw [if_neg he]
        simp [frame?, place, hf, Array.getElem?_modify, hi, hs, hg]
    · rw [hn] at hi ⊢
      by_cases he : id = ⟨a.slots.size, 0⟩
      · subst he
        simp [frame?, place, hf]
      · have hg : (0 : UInt32) ≠ id.generation := fun hg => he (ScopeId.eq_of hi hg.symm)
        rw [if_neg he]
        simp only at hi
        simp [frame?, place, hf, hi, hg]
  · rw [if_neg (fun he => hi (by rw [he]))]
    rcases slot_nextId ha with ⟨-, rest, hf⟩ | ⟨hn, hf⟩
    · simp [frame?, place, hf, Array.getElem?_modify, Ne.symm hi]
    · rw [hn] at hi
      simp only at hi
      simp [frame?, place, hf, Array.getElem?_push, hi]

theorem tally_place (ha : a.Orderly) (w : Frame → Nat) (f : Frame) :
    tally w (a.place f).2 = tally w a + w f := by
  rcases slot_nextId ha with ⟨hs, rest, hf⟩ | ⟨-, hf⟩
  · rw [← Array.getElem?_toList] at hs
    have key := sum_map_modify (fun slot : Slot => slot.frame.elim 0 w)
      (fun slot => { slot with frame := some f }) _ _ _ hs
    simpa [tally, place, hf] using key
  · simp [tally, place, hf]

theorem orderly_place (ha : a.Orderly) (f : Frame) : (a.place f).2.Orderly := by
  rcases slot_nextId ha with ⟨hs, rest, hf⟩ | ⟨-, hf⟩
  · have hn := ha.nodup
    rw [hf, List.nodup_cons] at hn
    refine ⟨by simpa [place, hf] using hn.2, fun i => ?_⟩
    have hm := ha.mem_free_iff i
    rw [hf, List.mem_cons] at hm
    by_cases hi : a.nextId.index = i
    · subst hi
      simp [place, hf, Array.getElem?_modify, hs, hn.1]
    · simpa [place, hf, Array.getElem?_modify, hi, Ne.symm hi] using hm
  · refine ⟨by simp [place, hf], fun i => ?_⟩
    have hm := ha.mem_free_iff i
    rw [hf] at hm
    by_cases hi : i = a.slots.size
    · simp [place, hf, hi]
    · simpa [place, hf, Array.getElem?_push, hi] using hm

/-- An emptied slot holds no frame of any generation. -/
theorem frame?_vacate (a : Arena) (i : Nat) (id : ScopeId) :
    (a.vacate i).frame? id = if id.index = i then none else a.frame? id := by
  by_cases hi : id.index = i
  · rw [if_pos hi]
    cases hs : a.slots[i]? <;> simp [frame?, vacate, Array.getElem?_modify, hi, hs]
  · simp [frame?, vacate, Array.getElem?_modify, hi, Ne.symm hi]

theorem frame?_of_vacate {i : Nat} (h : (a.vacate i).frame? id = some f) : id.index ≠ i ∧ a.frame? id = some f := by
  rw [frame?_vacate] at h
  split at h
  · cases h
  · rename_i hi
    exact ⟨hi, h⟩

theorem tally_vacate (h : a.frame? id = some f) (w : Frame → Nat) :
    tally w (a.vacate id.index) + w f = tally w a := by
  rw [frame?_eq_some_iff, ← Array.getElem?_toList] at h
  have key := sum_map_modify (fun slot : Slot => slot.frame.elim 0 w)
    (fun slot => ⟨slot.generation + 1, none⟩) _ _ _ h
  simpa [tally, vacate] using key

theorem orderly_vacate (ha : a.Orderly) (h : a.Live id) : (a.vacate id.index).Orderly := by
  obtain ⟨f, hf⟩ := live_iff.1 h
  have hs := frame?_eq_some_iff.1 hf
  refine ⟨List.nodup_cons.2 ⟨?_, ha.nodup⟩, fun i => ?_⟩
  · -- the slot holds a frame, so it was not free before
    rw [ha.mem_free_iff, hs]
    simp
  · have hm := ha.mem_free_iff i
    by_cases hi : id.index = i
    · subst hi
      simp [vacate, Array.getElem?_modify, hs]
    · simpa [vacate, Array.getElem?_modify, hi, Ne.symm hi] using hm

end Arena

end HostScript
