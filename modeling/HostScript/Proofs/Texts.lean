import HostScript.Proofs.Balanced

/-!
# Texts of values

The text of an array is made of the texts of its items, so that an array that contains itself has none, and an
object that is locked cannot be asked for its text. `Store.HasEnd` says without any bound which texts come to
an end. This is decided with the number of cells as a bound (`Store.hasText_iff`): arrays that are nested more
deeply are nested in themselves.
-/

set_option autoImplicit false

namespace HostScript

namespace Store

variable {s : Store} {locked : Option Value} {v : Value} {n k id : Nat} {element : ValueType}

/-- A value whose text comes to an end. -/
inductive HasEnd (s : Store) (locked : Option Value) : Value → Prop
  | primitive (p : Primitive) : HasEnd s locked (.primitive p)
  | text (t : String) : HasEnd s locked (.text t)
  | object (scope : ScopeId) (name : String) : HasEnd s locked (.object scope name)
  | hostClass (cell : Nat) (name : String) : HasEnd s locked (.hostClass cell name)
  | host {id : Nat} (name : String) : locked.bind Value.claim? ≠ some (.cell id) → HasEnd s locked (.host id name)
  | array {id : Nat} (element : ValueType) : (∀ v ∈ s.items id, HasEnd s locked v) →
      HasEnd s locked (.array id element)

/-! ## Bounds on the nesting of arrays -/

theorem endsWithin_array : endsWithin locked (n + 1) s (.array id element) = true ↔
    ∀ v ∈ s.items id, endsWithin locked n s v = true := by
  simp only [endsWithin, List.all_eq_true, Array.mem_toList_iff]

/-- A bound matters to arrays only. -/
theorem isArray_or_same (s : Store) (locked : Option Value) (v : Value) : (∃ id element, v = .array id element) ∨
    ∀ n k, endsWithin locked n s v = endsWithin locked k s v := by
  cases v with
  | array id element => exact .inl ⟨id, element, rfl⟩
  | _ => exact .inr fun n k => by cases n <;> cases k <;> rfl

theorem endsWithin_mono (h : n ≤ k) (hv : endsWithin locked n s v = true) : endsWithin locked k s v = true := by
  induction n generalizing k v with
  | zero =>
    rcases isArray_or_same s locked v with ⟨id, element, rfl⟩ | hsame
    · cases hv
    · exact hsame 0 k ▸ hv
  | succ n ih =>
    rcases isArray_or_same s locked v with ⟨id, element, rfl⟩ | hsame
    · obtain ⟨k, rfl⟩ : ∃ j, k = j + 1 := ⟨k - 1, by omega⟩
      rw [endsWithin_array] at hv ⊢
      exact fun w hw => ih (Nat.le_of_succ_le_succ h) (hv w hw)
    · exact hsame (n + 1) k ▸ hv

/-- A value whose text needs a bound beyond this one and no greater one. -/
def Reaches (s : Store) (locked : Option Value) (n : Nat) (v : Value) : Prop :=
  endsWithin locked (n + 1) s v = true ∧ endsWithin locked n s v ≠ true

/-- Only an array needs a bound. -/
theorem Reaches.isArray (h : s.Reaches locked n v) : ∃ id element, v = .array id element :=
  (isArray_or_same s locked v).resolve_right fun hsame => h.2 (hsame n (n + 1) ▸ h.1)

/-- An array that needs a bound beyond one has an item that needs one less. -/
theorem Reaches.item (h : s.Reaches locked (n + 1) (.array id element)) : ∃ w ∈ s.items id, s.Reaches locked n w := by
  obtain ⟨hends, hnot⟩ := h
  rw [endsWithin_array] at hends
  rw [ne_eq, endsWithin_array] at hnot
  push Not at hnot
  obtain ⟨w, hw, hnone⟩ := hnot
  exact ⟨w, hw, hends w hw, hnone⟩

theorem Reaches.down (h : s.Reaches locked n v) (hk : k ≤ n) : ∃ w, s.Reaches locked k w := by
  induction n generalizing v with
  | zero => exact ⟨v, Nat.le_zero.1 hk ▸ h⟩
  | succ n ih =>
    rcases Nat.lt_or_eq_of_le hk with hlt | rfl
    · obtain ⟨id, element, rfl⟩ := h.isArray
      obtain ⟨w, -, hw⟩ := h.item
      exact ih hw (Nat.le_of_lt_succ hlt)
    · exact ⟨v, h⟩

theorem lt_size_of_mem_items (h : v ∈ s.items id) : id < s.cells.size := by
  by_contra hge
  have hnone : s.cell? id = none := by
    unfold cell?
    rw [Array.getElem?_eq_none (Nat.le_of_not_lt hge)]
    rfl
  unfold items at h
  rw [hnone] at h
  exact Array.not_mem_empty v h

/-- **Arrays are nested no deeper than there are cells**, if their text has an end: a chain of arrays each of which
needs one less than the array that it is in does not meet a cell twice. -/
theorem Reaches.le_size (h : s.Reaches locked n v) : n ≤ s.cells.size := by
  have hcell : ∀ j : Fin n, ∃ i : Fin s.cells.size, ∃ element, s.Reaches locked (j + 1) (.array i element) := by
    intro j
    obtain ⟨w, hw⟩ := h.down (k := j + 1) j.isLt
    obtain ⟨id, element, rfl⟩ := hw.isArray
    obtain ⟨x, hx, -⟩ := hw.item
    exact ⟨⟨id, lt_size_of_mem_items hx⟩, element, hw⟩
  choose cell element hreaches using hcell
  have hlt : ∀ i j : Fin n, i < j → cell i ≠ cell j := by
    intro i j hij hsame
    have hi := (hreaches i).1
    rw [endsWithin_array, hsame] at hi
    have hj : endsWithin locked (i + 1 + 1) s (.array (cell j) (element j)) = true := endsWithin_array.2 hi
    exact (hreaches j).2 (endsWithin_mono (Nat.succ_le_succ (Fin.lt_def.1 hij)) hj)
  have hinjective : Function.Injective cell := by
    intro i j hsame
    by_contra hne
    rcases lt_or_gt_of_ne hne with hij | hji
    · exact hlt i j hij hsame
    · exact hlt j i hji hsame.symm
  simpa using Fintype.card_le_of_injective cell hinjective

theorem hasText_of_endsWithin (h : endsWithin locked n s v = true) : s.hasText locked v = true := by
  induction n with
  | zero => exact endsWithin_mono (Nat.zero_le _) h
  | succ n ih =>
    by_cases hless : endsWithin locked n s v = true
    · exact ih hless
    · have hle : n ≤ s.cells.size := Reaches.le_size ⟨h, hless⟩
      exact endsWithin_mono (Nat.succ_le_succ hle) h

theorem HasEnd.hasText (h : s.HasEnd locked v) : s.hasText locked v = true := by
  induction h with
  | primitive | text | object | hostClass => rfl
  | host name hfree => exact bne_iff_ne.2 hfree
  | array element _ ih => exact hasText_of_endsWithin (n := s.cells.size + 2) (endsWithin_array.2 ih)

theorem hasEnd_of_endsWithin (h : endsWithin locked n s v = true) : s.HasEnd locked v := by
  induction n generalizing v with
  | zero =>
    cases v with
    | array id element => cases h
    | host id name => exact .host name (bne_iff_ne.1 h)
    | primitive p => exact .primitive p
    | text t => exact .text t
    | object scope name => exact .object scope name
    | hostClass cell name => exact .hostClass cell name
  | succ n ih =>
    rcases isArray_or_same s locked v with ⟨id, element, rfl⟩ | hsame
    · exact .array element fun w hw => ih (endsWithin_array.1 h w hw)
    · exact ih (hsame (n + 1) n ▸ h)

/-- **Whether a text has an end is decided.** -/
theorem hasText_iff : s.hasText locked v = true ↔ s.HasEnd locked v := ⟨hasEnd_of_endsWithin, HasEnd.hasText⟩

end Store

open Store in
/-- A text is refused exactly if it has no end. -/
theorem Exec.textOf_eq (v : Value) (locked : Option Value) (m : Machine) :
    (m.store.HasEnd locked v ∧ textOf v locked m = .ok (m.store.textOf v) m) ∨
      (¬ m.store.HasEnd locked v ∧ textOf v locked m = .error (.stopped .endless) m) := by
  rw [← hasText_iff]
  by_cases h : m.store.hasText locked v = true
  · refine .inl ⟨h, (get_bind m).trans ?_⟩
    rw [if_pos h]
    rfl
  · refine .inr ⟨h, (get_bind m).trans ?_⟩
    rw [if_neg h]
    rfl

end HostScript
