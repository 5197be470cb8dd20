import HostScript.Proofs.StoreClaims

/-!
# Frames and their tables

How writing and removing entries of a table changes what its entries are worth together, and so how a
frame's claims change with its variables; and that a frame stays tidy when its variables and methods
change.
-/

set_option autoImplicit false

namespace HostScript

theorem mem_of_lookup {κ α : Type} [BEq κ] [LawfulBEq κ] {l : List (κ × α)} {key : κ} {e : α}
    (h : l.lookup key = some e) : (key, e) ∈ l := by
  obtain ⟨before, after, rfl, -⟩ := List.lookup_eq_some_iff.1 h
  exact List.mem_append_right _ List.mem_cons_self

namespace Table

variable {α : Type} {name : String} {e : α} {l : List (String × α)}

/-- What the entries of a table are worth together. -/
def worth (g : α → Multiset Claim) (l : List (String × α)) : Multiset Claim :=
  (l.map fun entry => g entry.2).sum

theorem worth_put (name : String) (e : α) (g : α → Multiset Claim) (l : List (String × α)) :
    worth g (put name e l) + (l.lookup name).elim 0 g = worth g l + g e := by
  induction l with
  | nil => simp [worth, put]
  | cons entry rest ih =>
    obtain ⟨key, old⟩ := entry
    unfold put
    cases hk : name == key with
    | true =>
      rw [if_pos rfl, List.lookup_cons, hk]
      simp only [worth, List.map_cons, List.sum_cons, Option.elim_some]
      abel
    | false =>
      rw [if_neg Bool.false_ne_true, List.lookup_cons, hk]
      simp only [worth, List.map_cons, List.sum_cons] at ih ⊢
      rw [add_assoc, ih, add_assoc]

theorem mem_keys_put {key : String} :
    key ∈ (put name e l).map Prod.fst ↔ key = name ∨ key ∈ l.map Prod.fst := by
  induction l with
  | nil => simp [put]
  | cons entry rest ih =>
    obtain ⟨k, old⟩ := entry
    unfold put
    by_cases hk : name = k
    · subst hk
      simp
    · rw [if_neg (by simpa using hk)]
      simp only [List.map_cons, List.mem_cons, ih]
      tauto

theorem nodup_keys_put (h : (l.map Prod.fst).Nodup) : ((put name e l).map Prod.fst).Nodup := by
  induction l with
  | nil => simp [put]
  | cons entry rest ih =>
    obtain ⟨k, old⟩ := entry
    obtain ⟨hk, hrest⟩ := List.nodup_cons.1 h
    unfold put
    by_cases hn : name = k
    · rw [if_pos (by simpa using hn)]
      exact List.nodup_cons.2 ⟨hk, hrest⟩
    · rw [if_neg (by simpa using hn)]
      refine List.nodup_cons.2 ⟨fun hm => ?_, ih hrest⟩
      rcases mem_keys_put.1 hm with rfl | hm
      · exact hn rfl
      · exact hk hm

/-- Names differ, so at most one entry is removed with a name. -/
theorem worth_filter (name : String) (g : α → Multiset Claim) (h : (l.map Prod.fst).Nodup) :
    worth g (l.filter fun entry => entry.1 != name) + (l.lookup name).elim 0 g = worth g l := by
  induction l with
  | nil => simp [worth]
  | cons entry rest ih =>
    obtain ⟨k, old⟩ := entry
    obtain ⟨hk, hrest⟩ := List.nodup_cons.1 h
    by_cases hn : k = name
    · subst hn
      have hsame : rest.filter (fun entry => entry.1 != k) = rest := by
        refine List.filter_eq_self.2 fun entry hm => bne_iff_ne.2 fun heq => hk ?_
        exact List.mem_map.2 ⟨entry, hm, heq⟩
      simp [worth, hsame, add_comm]
    · have hlookup : List.lookup name ((k, old) :: rest) = rest.lookup name := by
        rw [List.lookup_cons, beq_eq_false_iff_ne.2 (Ne.symm hn)]
      rw [List.filter_cons_of_pos (by simpa using hn), hlookup]
      simp only [worth, List.map_cons, List.sum_cons] at ih ⊢
      rw [add_assoc, ih hrest]

theorem mem_put {entry : String × α} (h : entry ∈ put name e l) : entry = (name, e) ∨ entry ∈ l := by
  induction l with
  | nil => exact .inl (List.mem_singleton.1 h)
  | cons first rest ih =>
    obtain ⟨k, old⟩ := first
    unfold put at h
    cases hk : name == k with
    | true =>
      rw [hk, if_pos rfl] at h
      rcases List.mem_cons.1 h with rfl | h
      · exact .inl (by rw [beq_iff_eq.1 hk])
      · exact .inr (List.mem_cons_of_mem _ h)
    | false =>
      rw [hk, if_neg Bool.false_ne_true] at h
      rcases List.mem_cons.1 h with rfl | h
      · exact .inr List.mem_cons_self
      · exact (ih h).imp id (List.mem_cons_of_mem _)

end Table

namespace Frame

variable {f : Frame} {id : ScopeId} {name : String} {method : ScriptMethod}
  {overloads : List ScriptMethod}

/-- The claim that owning a bound object is. -/
def boundClaims (f : Frame) : Multiset Claim := f.bound.elim 0 fun b => {.cell b.1}

theorem claims_eq (f : Frame) : (f.claims : Multiset Claim) =
    Table.worth (fun v => v.value.claims) f.vars.entries + f.boundClaims := by
  have hvars : (f.vars.values.filterMap fun v => v.value.claim?) =
      (f.vars.values.map Variable.value).filterMap Value.claim? := by
    rw [List.filterMap_map]
    rfl
  have hbound : ((f.bound.map fun b => Claim.cell b.1).toList : Multiset Claim) = f.boundClaims := by
    unfold boundClaims
    cases f.bound <;> rfl
  unfold claims
  rw [← Multiset.coe_add, hbound, hvars, coe_filterMap_claim]
  simp [claimsOf, Table.worth, Table.values, Function.comp_def]

theorem claimsOf_get? (t : Table Variable) (name : String) :
    claimsOf ((t.get? name).map Variable.value).toList =
      (t.entries.lookup name).elim 0 fun v => v.value.claims := by
  unfold Table.get?
  cases t.entries.lookup name <;> simp

/-- A written variable brings its claim and takes away that of the old one. -/
theorem claims_setVariable (f : Frame) (name : String) (v : Variable) :
    ((f.setVariable name v).claims : Multiset Claim) +
      claimsOf ((f.vars.get? name).map Variable.value).toList = f.claims + v.value.claims := by
  have key := Table.worth_put name v (fun v => v.value.claims) f.vars.entries
  rw [claims_eq, claims_eq, claimsOf_get?]
  show Table.worth _ (Table.put name v f.vars.entries) + f.boundClaims + _ = _
  rw [add_right_comm, key, add_right_comm]

/-- A removed variable takes its claim away. -/
theorem claims_erase (hf : f.Tidy id) (name : String) :
    (({ f with vars := f.vars.erase name } : Frame).claims : Multiset Claim) +
      claimsOf ((f.vars.get? name).map Variable.value).toList = f.claims := by
  have key := Table.worth_filter name (fun v => v.value.claims) hf.nodup
  rw [claims_eq, claims_eq, claimsOf_get?]
  show Table.worth _ (f.vars.entries.filter fun e => e.1 != name) + f.boundClaims + _ = _
  rw [add_right_comm, key]

theorem mem_claims_of_variable {v : Variable} (h : f.vars.get? name = some v) {k : Claim}
    (hk : k ∈ v.value.claims) : k ∈ f.claims := by
  have hv : v ∈ f.vars.values := List.mem_map.2 ⟨(name, v), mem_of_lookup h, rfl⟩
  refine List.mem_append_left _ (List.mem_filterMap.2 ⟨v, hv, ?_⟩)
  unfold Value.claims at hk
  cases hc : v.value.claim? with
  | none => simp [hc] at hk
  | some k' =>
    rw [hc, Option.elim_some, Multiset.mem_singleton] at hk
    rw [hk]

theorem mem_claims_of_bound {b : Nat × String} (h : f.bound = some b) : .cell b.1 ∈ f.claims := by
  unfold claims
  rw [h]
  exact List.mem_append_right _ List.mem_cons_self

theorem Tidy.setVariable (h : f.Tidy id) (name : String) (v : Variable) :
    (f.setVariable name v).Tidy id :=
  ⟨Table.nodup_keys_put h.nodup, h.declaring⟩

theorem Tidy.erase (h : f.Tidy id) (name : String) :
    ({ f with vars := f.vars.erase name } : Frame).Tidy id :=
  ⟨h.nodup.sublist (List.filter_sublist.map _), h.declaring⟩

theorem mem_declareIn {method' : ScriptMethod} (h : method' ∈ declareIn method overloads) :
    method' = method ∨ method' ∈ overloads := by
  induction overloads with
  | nil => exact .inl (List.mem_singleton.1 h)
  | cons first rest ih =>
    unfold declareIn at h
    split at h
    · rcases List.mem_cons.1 h with rfl | h
      · exact .inl rfl
      · exact .inr (List.mem_cons_of_mem _ h)
    · rcases List.mem_cons.1 h with rfl | h
      · exact .inr List.mem_cons_self
      · exact (ih h).imp id (List.mem_cons_of_mem _)

/-- Every method of a tidy frame is closed over it, found by name or not. -/
theorem Tidy.declaring_of_get? (h : f.Tidy id) (ho : f.methods.get? name = some overloads) :
    ∀ method ∈ overloads, method.declaring = id :=
  h.declaring _ (mem_of_lookup ho)

theorem Tidy.declare (h : f.Tidy method.declaring) : (f.declare method).Tidy method.declaring := by
  refine ⟨h.nodup, fun entry he method' hm => ?_⟩
  rcases Table.mem_put he with rfl | he
  · rcases mem_declareIn hm with rfl | hm
    · rfl
    · cases ho : f.methods.get? method.name with
      | none => simp [ho] at hm
      | some overloads =>
        rw [ho] at hm
        exact h.declaring_of_get? ho method' hm
  · exact h.declaring entry he method' hm

end Frame

end HostScript
