import HostScript.Store
import HostScript.Proofs.ArenaCounting

/-!
# Who claims what in a store

A claim on a frame or a cell is owned by a frame, by the contents of a cell, or by somebody outside the store: a
value in the hands of an evaluation, or the creator of a frame. `Sound s o` says that the store `s` counts exactly
the owners that it has, when `o` are the claims owned outside. It also says that the methods of a frame are closed
over it, and the handlers of an adapter over its frame or a frame above.
-/

set_option autoImplicit false

namespace HostScript

/-! ## The claims of values -/

/-- The claim that owning a value is. -/
def Value.claims (v : Value) : Multiset Claim := v.claim?.elim 0 fun c => {c}

@[simp] theorem Value.claims_primitive (p : Primitive) : (Value.primitive p).claims = 0 := rfl

@[simp] theorem Value.claims_text (t : String) : (Value.text t).claims = 0 := rfl

@[simp] theorem Value.claims_hostClass (id : Nat) (name : String) :
    (Value.hostClass id name).claims = 0 := rfl

@[simp] theorem Value.claims_array (n : Nat) (element : ValueType) :
    (Value.array n element).claims = {.cell n} := rfl

@[simp] theorem Value.claims_host (n : Nat) (name : String) :
    (Value.host n name).claims = {.cell n} := rfl

@[simp] theorem Value.claims_object (id : ScopeId) (name : String) :
    (Value.object id name).claims = {.frame id} := rfl

/-- What a variable or an element starts with has no owner. -/
@[simp] theorem Value.claims_initial (type : ValueType) : type.initial.claims = 0 := by
  unfold ValueType.initial
  split <;> rfl

/-- The claims that owning values is. -/
def claimsOf (vs : List Value) : Multiset Claim := (vs.map Value.claims).sum

@[simp] theorem claimsOf_nil : claimsOf [] = 0 := rfl

@[simp] theorem claimsOf_cons (v : Value) (vs : List Value) :
    claimsOf (v :: vs) = v.claims + claimsOf vs := by
  simp [claimsOf]

@[simp] theorem claimsOf_append (vs ws : List Value) :
    claimsOf (vs ++ ws) = claimsOf vs + claimsOf ws := by
  simp [claimsOf]

@[simp] theorem claimsOf_replicate_initial (n : Nat) (type : ValueType) :
    claimsOf (List.replicate n type.initial) = 0 := by
  simp [claimsOf]

@[simp] theorem claimsOf_chars (cs : List Char) :
    claimsOf (cs.map fun c => .primitive (.char c)) = 0 := by
  induction cs with
  | nil => rfl
  | cons c cs ih =>
    rw [List.map_cons, claimsOf_cons, ih]
    rfl

@[simp] theorem claimsOf_reverse (vs : List Value) : claimsOf vs.reverse = claimsOf vs := by
  induction vs with
  | nil => rfl
  | cons v vs ih => simp [ih, add_comm]

theorem coe_filterMap_claim (vs : List Value) :
    ((vs.filterMap Value.claim? : List Claim) : Multiset Claim) = claimsOf vs := by
  induction vs with
  | nil => rfl
  | cons v vs ih =>
    rw [claimsOf_cons, ← ih, Value.claims]
    cases hv : v.claim? with
    | none => simp [hv]
    | some c => simp [hv]

theorem mem_claimsOf {vs : List Value} {c : Claim} : c ∈ claimsOf vs ↔ ∃ v ∈ vs, c ∈ v.claims := by
  induction vs with
  | nil => simp
  | cons v vs ih => simp [ih]

namespace Store

variable {s : Store} {n : Nat} {c : Cell} {k : Nat}

/-! ## Cells -/

/-- The sum of a quantity over the cells in use. -/
def inCells (w : Cell → Nat) (s : Store) : Nat := (s.cells.toList.map fun c => c.elim 0 w).sum

/-- The number of owners that a cell has; none when it is not in use. -/
def cellOwners (s : Store) (n : Nat) : Nat := (s.cell? n).elim 0 Cell.owners

theorem cell?_eq_some_iff : s.cell? n = some c ↔ s.cells[n]? = some (some c) := by
  unfold cell?
  cases h : s.cells[n]? with
  | none => simp
  | some entry => simp

theorem cell?_modifyCell (s : Store) (n : Nat) (f : Cell → Cell) (k : Nat) :
    (s.modifyCell n f).cell? k = if k = n then (s.cell? k).map f else s.cell? k := by
  unfold cell? modifyCell
  rw [Array.getElem?_modify]
  by_cases hk : k = n
  · subst hk
    cases h : s.cells[k]? with
    | none => simp
    | some entry => cases entry <;> simp
  · rw [if_neg (Ne.symm hk), if_neg hk]

/-- A cell after a change of one: the changed one, or as it was. -/
theorem cell?_of_modifyCell {f : Cell → Cell} (h : (s.modifyCell n f).cell? k = some c) :
    (∃ c0, k = n ∧ s.cell? k = some c0 ∧ f c0 = c) ∨ k ≠ n ∧ s.cell? k = some c := by
  rw [cell?_modifyCell] at h
  split at h
  · next hk =>
    obtain ⟨c0, hc0, hc⟩ := Option.map_eq_some_iff.1 h
    exact .inl ⟨c0, hk, hc0, hc⟩
  · next hk => exact .inr ⟨hk, h⟩

theorem cell?_clearCell (s : Store) (n k : Nat) :
    (s.clearCell n).cell? k = if k = n then none else s.cell? k := by
  unfold cell? clearCell
  rw [Array.getElem?_modify]
  by_cases hk : k = n
  · subst hk
    cases h : s.cells[k]? <;> simp
  · rw [if_neg (Ne.symm hk), if_neg hk]

theorem cell?_of_clearCell (h : (s.clearCell n).cell? k = some c) : s.cell? k = some c := by
  rw [cell?_clearCell] at h
  exact (Option.ite_none_left_eq_some.1 h).2

theorem cell?_alloc (s : Store) (contents : Contents) (k : Nat) :
    (s.alloc contents).2.cell? k = if k = s.cells.size then some { contents } else s.cell? k := by
  unfold cell? alloc
  rw [Array.getElem?_push]
  by_cases hk : k = s.cells.size
  · rw [if_pos hk, if_pos hk]
    rfl
  · rw [if_neg hk, if_neg hk]

/-- A cell after one was made: the new one, or one from before. -/
theorem cell?_of_alloc {contents : Contents} (h : (s.alloc contents).2.cell? k = some c) :
    k = s.cells.size ∧ c = { contents } ∨ k ≠ s.cells.size ∧ s.cell? k = some c := by
  rw [cell?_alloc] at h
  split at h
  · next hk => exact .inl ⟨hk, (Option.some.inj h).symm⟩
  · next hk => exact .inr ⟨hk, h⟩

theorem cell?_size (s : Store) : s.cell? s.cells.size = none := by
  simp [cell?]

theorem inCells_modifyCell (h : s.cell? n = some c) (f : Cell → Cell) (w : Cell → Nat) :
    (s.modifyCell n f).inCells w + w c = s.inCells w + w (f c) := by
  rw [cell?_eq_some_iff, ← Array.getElem?_toList] at h
  have key := sum_map_modify (fun c : Option Cell => c.elim 0 w) (Option.map f) _ _ _ h
  simpa [inCells, modifyCell] using key

theorem inCells_clearCell (h : s.cell? n = some c) (w : Cell → Nat) :
    (s.clearCell n).inCells w + w c = s.inCells w := by
  rw [cell?_eq_some_iff, ← Array.getElem?_toList] at h
  have key := sum_map_modify (fun c : Option Cell => c.elim 0 w) (fun _ => none) _ _ _ h
  simpa [inCells, clearCell] using key

theorem inCells_alloc (s : Store) (contents : Contents) (w : Cell → Nat) :
    (s.alloc contents).2.inCells w = s.inCells w + w { contents } := by
  simp [inCells, alloc]

theorem le_inCells (h : s.cell? n = some c) (w : Cell → Nat) : w c ≤ s.inCells w := by
  rw [cell?_eq_some_iff, ← Array.getElem?_toList] at h
  exact List.single_le_sum (fun _ _ => Nat.zero_le _) _
    (List.mem_map_of_mem (f := fun c : Option Cell => c.elim 0 w) (List.mem_of_getElem? h))

theorem inCells_eq_zero {w : Cell → Nat} (h : ∀ n c, s.cell? n = some c → w c = 0) : s.inCells w = 0 := by
  refine List.sum_eq_zero fun k hk => ?_
  obtain ⟨entry, hentry, rfl⟩ := List.mem_map.1 hk
  obtain ⟨n, hn⟩ := List.mem_iff_getElem?.1 hentry
  rw [Array.getElem?_toList] at hn
  cases entry with
  | none => rfl
  | some c => exact h n c (cell?_eq_some_iff.2 hn)

theorem cellOwners_eq (h : s.cell? n = some c) : s.cellOwners n = c.owners := by
  unfold cellOwners
  rw [h]
  rfl

theorem inUse_le_size (s : Store) : s.inCells (fun _ => 1) ≤ s.cells.size := by
  have key : ∀ l : List (Option Cell), (l.map fun c => c.elim 0 fun _ => 1).sum ≤ l.length := by
    intro l
    induction l with
    | nil => simp
    | cons c l ih => cases c <;> simp <;> omega
  have := key s.cells.toList
  simpa [inCells] using this

/-! ## Claims in the store -/

/-- In how many places of the store a claim is owned. -/
def claimed (s : Store) (k : Claim) : Nat :=
  s.arena.tally (fun f => f.claims.count k) + s.inCells fun c => c.contents.claims.count k

theorem claimed_pos_of_frame {id : ScopeId} {f : Frame} {k : Claim}
    (hf : s.arena.frame? id = some f) (hk : k ∈ f.claims) : 0 < s.claimed k := by
  have h := Arena.le_tally (fun f => f.claims.count k) hf
  have := List.count_pos_iff.2 hk
  unfold claimed
  omega

theorem claimed_pos_of_cell {k : Claim} (hc : s.cell? n = some c) (hk : k ∈ c.contents.claims) :
    0 < s.claimed k := by
  have h := le_inCells hc fun c => c.contents.claims.count k
  have := List.count_pos_iff.2 hk
  unfold claimed
  omega

/-- What a claim is on is there. -/
def Holds (s : Store) : Claim → Prop
  | .frame id => s.arena.Live id
  | .cell n => (s.cell? n).isSome

end Store

/-! ## What frames and adapters know -/

/-- The names of a frame's variables are different, and its methods are closed over it. -/
structure Frame.Tidy (f : Frame) (id : ScopeId) : Prop where
  nodup : f.vars.keys.Nodup
  declaring : ∀ e ∈ f.methods.entries, ∀ method ∈ e.2, method.declaring = id

/-- The scripted method that a handler calls. -/
def Handler.method? : Handler → Option ScriptMethod
  | .named method | .generic method => some method
  | .identity _ | .missing => none

/-- The handlers of an adapter are closed over its frame or frames above. -/
def Adapter.Within (a : Adapter) (arena : Arena) : Prop :=
  ∀ h ∈ a.table.handlers, ∀ method, h.2.method? = some method → arena.Above a.scope method.declaring

/-- A handler table that says where calls go, if no method has changed since it was made. -/
structure HandlerTable.Accurate (t : HandlerTable) (scope : ScopeId) (arena : Arena) : Prop where
  made : t.asOf ≤ arena.methodChanges
  tells : t.asOf = arena.methodChanges → ∀ e ∈ t.handlers,
    Adapter.resolve scope e.1.1 e.1.2 arena = .ok e.2

namespace Store

variable {k : Claim}

/-- The store counts its owners exactly, when the given claims are owned outside. -/
structure Sound (s : Store) (o : Multiset Claim) : Prop where
  frames : s.arena.Counted fun id => s.claimed (.frame id) + o.count (.frame id)
  cells : ∀ n, s.cellOwners n = s.claimed (.cell n) + o.count (.cell n)
  positive : ∀ n c, s.cell? n = some c → 0 < c.owners
  tidy : ∀ id f, s.arena.frame? id = some f → f.Tidy id
  tables : ∀ n c a, s.cell? n = some c → c.contents = .adapter a → a.Within s.arena

variable {s : Store} {o : Multiset Claim}

/-- What is claimed in the store or outside is there. -/
theorem Sound.holds (h : s.Sound o) (hk : 0 < s.claimed k + o.count k) : s.Holds k := by
  cases k with
  | frame id => exact h.frames.live (by omega)
  | cell n =>
    rw [← h.cells n] at hk
    unfold cellOwners at hk
    show (s.cell? n).isSome
    cases hc : s.cell? n with
    | none => simp [hc] at hk
    | some c => rfl

theorem Sound.holds_of_mem (h : s.Sound o) (hk : k ∈ o) : s.Holds k := by
  have := Multiset.count_pos.2 hk
  exact h.holds (by omega)

theorem Sound.holds_of_frame (h : s.Sound o) {id : ScopeId} {f : Frame}
    (hf : s.arena.frame? id = some f) (hk : k ∈ f.claims) : s.Holds k := by
  have := claimed_pos_of_frame hf hk
  exact h.holds (by omega)

theorem Sound.holds_of_cell (h : s.Sound o) {n : Nat} {c : Cell} (hc : s.cell? n = some c)
    (hk : k ∈ c.contents.claims) : s.Holds k := by
  have := claimed_pos_of_cell hc hk
  exact h.holds (by omega)

end Store

end HostScript
