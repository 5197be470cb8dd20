import HostScript.Proofs.Balanced
import HostScript.Proofs.FaithfulHost
import HostScript.Proofs.FrameTables

/-!
# Typed stores

A machine is typed by a layout when everything in its store fits the layout (`Machine.Typed`). A store
ebbs when nothing comes into it: owners are counted, claims are dropped, queued releases are applied. Whatever
ebbs stays typed (`Harmless`). What has to be checked is what comes in: a variable that is written, an item that
is stored, a cell that is made.
-/

set_option autoImplicit false

namespace HostScript

variable {change : Machine → Machine}

/-! ## Frames found -/

namespace Arena

variable {a : Arena} {g : Frame} {k : ScopeId}

/-- The frames of a chain are those that their names find. -/
theorem frame?_of_mem_chainFrom : ∀ (budget : Nat) {id : ScopeId} {l : List (ScopeId × Frame)},
    chainFrom budget a id = .ok l → ∀ e ∈ l, a.frame? e.1 = some e.2
  | 0, id, l, h => by simp [chainFrom] at h
  | budget + 1, id, l, h => by
    unfold chainFrom at h
    cases hf : a.frame? id with
    | none => simp [hf] at h
    | some f =>
      cases hp : f.parent with
      | none =>
        simp only [hf, hp, Except.ok.injEq] at h
        intro e he
        rw [← h, List.mem_singleton] at he
        rw [he, hf]
      | some p =>
        -- a frame with a parent comes before the chain of the parent
        cases hc : chainFrom budget a p with
        | error k => simp [hf, hp, hc, Except.map] at h
        | ok rest =>
          simp only [hf, hp, hc, Except.map, Except.ok.injEq] at h
          intro e he
          rw [← h] at he
          rcases List.mem_cons.1 he with rfl | he
          · exact hf
          · exact frame?_of_mem_chainFrom budget hc e he

theorem frame?_of_mem_chain {id : ScopeId} {l : List (ScopeId × Frame)} (h : a.chain id = .ok l)
    {e : ScopeId × Frame} (he : e ∈ l) : a.frame? e.1 = some e.2 :=
  frame?_of_mem_chainFrom _ h e he

/-- A new frame is the one that was placed; all others were there before. -/
theorem frame?_of_place {f : Frame} (h : (a.place f).2.frame? k = some g) :
    g = f ∨ a.frame? k = some g := by
  rw [frame?_eq_some_iff] at h
  unfold place at h
  cases hfree : a.free with
  | nil =>
    simp only [hfree, Array.getElem?_push] at h
    by_cases hk : k.index = a.slots.size
    · rw [if_pos hk] at h
      injection h with h
      injection h with _ h
      injection h with h
      exact .inl h.symm
    · rw [if_neg hk] at h
      exact .inr (frame?_eq_some_iff.2 h)
  | cons index rest =>
    simp only [hfree, Array.getElem?_modify] at h
    by_cases hk : index = k.index
    · rw [if_pos hk] at h
      obtain ⟨slot, -, hslot⟩ := Option.map_eq_some_iff.1 h
      injection hslot with _ hslot
      injection hslot with hslot
      exact .inl hslot.symm
    · rw [if_neg hk] at h
      exact .inr (frame?_eq_some_iff.2 h)

/-- After a frame is made, there are the new one and those before, up to their counts. -/
theorem frame?_of_create {name : String} {kind : FrameKind} {parent : Option ScopeId}
    (h : (a.create name kind parent).2.frame? k = some g) :
    g = { name, kind, parent } ∨ ∃ f, a.frame? k = some f ∧ g = { f with owners := g.owners } := by
  cases parent with
  | none => exact (frame?_of_place h).imp id fun hg => ⟨g, hg, rfl⟩
  | some p => exact (frame?_of_place h).imp id ((fades_retain a p).kept k g)

end Arena

/-! ## Typed machines -/

/-- All live frames fit. -/
def Arena.Fits (τ : Layout) (a : Arena) : Prop := ∀ id f, a.frame? id = some f → f.Fits τ

/-- A machine is typed by a layout: the layout has an entry for each cell, everything stored fits it,
and the classes are faithful. -/
structure Machine.Typed (τ : Layout) (m : Machine) : Prop where
  size : τ.length = m.store.cells.size
  frames : m.store.arena.Fits τ
  cells : ∀ n c, m.store.cell? n = some c → c.contents.Fits τ τ[n]?.join
  classes : m.classes.Faithful

variable {τ : Layout} {m m' : Machine}

namespace Arena.Fits

variable {a b : Arena}

theorem fades (h : a.Fits τ) (hb : a.Fades b) : b.Fits τ := by
  intro id g hg
  obtain ⟨f, hf, hgf⟩ := hb.kept id g hg
  rw [hgf]
  exact h id f hf

/-- A frame that fits may be written over a live one. -/
theorem setFrame (h : a.Fits τ) {id : ScopeId} {f g : Frame} (hf : a.frame? id = some f)
    (hg : g.Fits τ) : (a.setFrame id g).Fits τ := by
  intro k e he
  rcases Arena.frame?_of_setFrame (Arena.live_of_frame? hf) he with ⟨-, rfl⟩ | ⟨-, he⟩
  · exact hg
  · exact h k e he

/-- A new frame has no variables. -/
theorem create (h : a.Fits τ) (name : String) (kind : FrameKind) (parent : Option ScopeId) :
    (a.create name kind parent).2.Fits τ := by
  intro k g hg
  rcases Arena.frame?_of_create hg with rfl | ⟨f, hf, hgf⟩
  · exact fun e he => absurd he List.not_mem_nil
  · rw [hgf]
    exact h k f hf

end Arena.Fits

namespace Machine.Typed

variable {n : Nat} {contents : Contents}

/-- Only store and classes matter. -/
theorem congr (h : m.Typed τ) (hs : m'.store = m.store) (hc : m'.classes = m.classes) : m'.Typed τ := by
  obtain ⟨hsize, hframes, hcells, hclasses⟩ := h
  refine ⟨?_, ?_, ?_, ?_⟩
  · rwa [hs]
  · rwa [hs]
  · rwa [hs]
  · rwa [hc]

theorem ebbs (h : m.Typed τ) {s : Store} (hs : m.store.Ebbs s) : ({ m with store := s }).Typed τ := by
  refine ⟨h.size.trans hs.size.symm, h.frames.fades hs.fades, fun n c hc => ?_, h.classes⟩
  obtain ⟨c0, hc0, hcc⟩ := hs.cells n c hc
  rw [hcc]
  exact h.cells n c0 hc0

/-- The items of an array fit and obey its element type. -/
theorem items (h : m.Typed τ) (n : Nat) : ∀ v ∈ m.store.items n,
    v.Fits τ ∧ ∀ type, τ[n]? = some (some type) → v.Obeys type := by
  intro v hv
  unfold Store.items at hv
  split at hv
  · rename_i items owners hc
    refine ⟨(h.cells n _ hc v hv).1, fun type htype => (h.cells n _ hc v hv).2 type ?_⟩
    rw [htype]
    rfl
  · exact absurd hv (Array.not_mem_empty v)

/-- A host object that is looked at fits. -/
theorem host? (h : m.Typed τ) {o : HostObject} (ho : m.store.host? n = some o) : o.Fits τ := by
  obtain ⟨c, hc, hcontents⟩ := Store.host?_eq_some_iff.1 ho
  exact (hcontents ▸ h.cells n c hc : (Contents.host o).Fits τ τ[n]?.join)

/-! ## What comes in -/

theorem setFrame (h : m.Typed τ) {id : ScopeId} {f g : Frame}
    (hf : m.store.arena.frame? id = some f) (hg : g.Fits τ) :
    ({ m with store := { m.store with arena := m.store.arena.setFrame id g } } : Machine).Typed τ :=
  ⟨h.size, h.frames.setFrame hf hg, h.cells, h.classes⟩

theorem create (h : m.Typed τ) (name : String) (kind : FrameKind) (parent : Option ScopeId) :
    ({ m with store := { m.store with arena := (m.store.arena.create name kind parent).2 } } :
      Machine).Typed τ :=
  ⟨h.size, h.frames.create name kind parent, h.cells, h.classes⟩

/-- Cells may change to contents that fit. -/
theorem modifyCell (h : m.Typed τ) (n : Nat) {change : Cell → Cell}
    (hc : ∀ c, m.store.cell? n = some c → (change c).contents.Fits τ τ[n]?.join) :
    ({ m with store := m.store.modifyCell n change } : Machine).Typed τ := by
  refine ⟨h.size.trans Array.size_modify.symm, h.frames, fun k c hk => ?_, h.classes⟩
  replace hk : (m.store.modifyCell n change).cell? k = some c := hk
  rcases Store.cell?_of_modifyCell hk with ⟨c0, rfl, hc0, rfl⟩ | ⟨-, hk⟩
  · exact hc c0 hc0
  · exact h.cells k c hk

theorem setContents (h : m.Typed τ) (n : Nat) (hc : ∀ element, contents.Fits τ element) :
    ({ m with store := m.store.setContents n contents } : Machine).Typed τ :=
  h.modifyCell n fun _ _ => hc _

/-- An item that obeys the element type may be stored in an array. -/
theorem setItem (h : m.Typed τ) (index : Nat) {v : Value} {type : ValueType}
    (hn : τ[n]? = some (some type)) (hv : v.Fits τ) (ht : v.Obeys type) :
    ({ m with store := m.store.setItem n index v } : Machine).Typed τ := by
  refine h.modifyCell n fun c hc => ?_
  have hfits := h.cells n c hc
  obtain ⟨contents, owners⟩ := c
  cases contents with
  | array items =>
    -- the new item, and those that were there before
    intro w hw
    rcases Array.mem_or_eq_of_mem_setIfInBounds hw with hw | rfl
    · exact hfits w hw
    · refine ⟨hv, fun t ht' => ?_⟩
      rw [hn] at ht'
      exact Option.some.inj ht' ▸ ht
  | host object => exact hfits
  | adapter a => exact hfits

/-- A new cell has the next entry of the layout. -/
theorem alloc (h : m.Typed τ) {element : Option ValueType} (hc : contents.Fits τ element) :
    ({ m with store := (m.store.alloc contents).2 } : Machine).Typed (τ ++ [element]) := by
  have hle : τ <+: τ ++ [element] := List.prefix_append τ [element]
  refine ⟨?_, fun id f hf => (h.frames id f hf).mono hle, fun n c hn => ?_, h.classes⟩
  · show _ = (m.store.cells.push _).size
    rw [List.length_append, Array.size_push, h.size]
    rfl
  · replace hn : (m.store.alloc contents).2.cell? n = some c := hn
    rcases Store.cell?_of_alloc hn with ⟨rfl, rfl⟩ | ⟨-, hn⟩
    · rw [← h.size, List.getElem?_concat_length]
      exact hc.mono hle
    · have hlt : n < τ.length := by
        have hin := (Array.getElem?_eq_some_iff.1 (Store.cell?_eq_some_iff.1 hn)).1
        rw [h.size]
        exact hin
      rw [List.getElem?_append_left hlt]
      exact (h.cells n c hn).mono hle

end Machine.Typed

/-! ## Harmless changes -/

/-- A change of a machine that nothing comes in by. -/
def Harmless (change : Machine → Machine) : Prop := ∀ τ m, m.Typed τ → (change m).Typed τ

theorem harmless_of_ebbing (h : Machine.Ebbing change) : Harmless change := by
  obtain ⟨g, hebbs, hg⟩ := h
  intro τ m hm
  rw [hg]
  exact hm.ebbs (hebbs _)

theorem harmless_drop (v : Value) : Harmless (·.drop v) := harmless_of_ebbing (Machine.ebbing_drop v)

theorem harmless_settle : Harmless Machine.settle := harmless_of_ebbing Machine.ebbing_settle

/-- Whatever leaves store and classes alone is harmless. -/
theorem Harmless.of_same (hs : ∀ m, (change m).store = m.store)
    (hc : ∀ m, (change m).classes = m.classes) : Harmless change :=
  fun _ m h => h.congr (hs m) (hc m)

end HostScript
