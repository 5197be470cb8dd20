import Mathlib.Logic.Relation
import HostScript.Host.Class

/-!
# Walks over the type graph

The supertype entries of the classes form a graph on names that may have cycles and may lead to names without a
class. A walk takes up what is pending and leaves aside what it has seen. What it comes upon (`visited`) is all that
can be reached, each node once, as long as its allowance lasts (`mem_visited_iff`). The allowance is the number of
all supertype entries, which pays for every class to be expanded once, so `Classes.isSubtype` finds exactly what can
be reached (`isSubtype_iff`); for a qualified name that is inheritance (`isSubtype_qualified`).
-/

set_option autoImplicit false

namespace HostScript

/-! ## Walks over a graph -/

section Walk

variable {ν : Type} (key : ν → String) (next : ν → List ν) {n : ν} {budget : Nat} {pending : List ν}
  {seen : List String}

/-- The nodes that a walk comes upon, known by their keys: what a node leads to is taken up before the rest of what
is pending. -/
def visited : Nat → List String → List ν → List ν
  | 0, _, _ => []
  | _, _, [] => []
  | budget + 1, seen, n :: pending =>
    if seen.contains (key n) then visited budget seen pending
    else n :: visited budget (key n :: seen) (next n ++ pending)

/-- One node leads to another in any number of steps. -/
abbrev Reach : ν → ν → Prop := Relation.ReflTransGen fun a b => b ∈ next a

variable {key next}

/-- No node is come upon twice, nor one that was seen before. -/
theorem nodup_visited (budget : Nat) (seen : List String) (pending : List ν) :
    ((visited key next budget seen pending).map key).Nodup ∧
      ∀ n ∈ visited key next budget seen pending, key n ∉ seen := by
  fun_induction visited key next budget seen pending with
  | case1 => simp
  | case2 => simp
  | case3 budget seen n pending _ ih => exact ih
  | case4 budget seen n pending hnew ih =>
    have hn : key n ∉ seen := by simpa using hnew
    obtain ⟨hnodup, hfresh⟩ := ih
    refine ⟨List.nodup_cons.2 ⟨fun hmem => ?_, hnodup⟩, fun k hk => ?_⟩
    · obtain ⟨k, hk, heq⟩ := List.mem_map.1 hmem
      exact hfresh k hk (by simp [heq])
    · rcases List.mem_cons.1 hk with rfl | hk
      · exact hn
      · exact fun hseen => hfresh k hk (List.mem_cons_of_mem _ hseen)

/-- What a walk comes upon can be reached from a pending node. -/
theorem reach_of_mem_visited (h : n ∈ visited key next budget seen pending) :
    ∃ p ∈ pending, Reach next p n := by
  fun_induction visited key next budget seen pending with
  | case1 => cases h
  | case2 => cases h
  | case3 budget seen k pending _ ih =>
    obtain ⟨p, hp, hpn⟩ := ih h
    exact ⟨p, List.mem_cons_of_mem _ hp, hpn⟩
  | case4 budget seen k pending _ ih =>
    rcases List.mem_cons.1 h with rfl | h
    · exact ⟨n, List.mem_cons_self, .refl⟩
    · obtain ⟨p, hp, hpn⟩ := ih h
      rcases List.mem_append.1 hp with hp | hp
      · exact ⟨k, List.mem_cons_self, .head hp hpn⟩
      · exact ⟨p, List.mem_cons_of_mem _ hp, hpn⟩

variable (good : ν → Prop) (weight : List String → Nat)

/-- With an allowance that pays for all nodes not yet seen, a walk gets to all that is pending and to all that the
nodes it comes upon lead to. -/
theorem visited_closed (hgood : ∀ n, good n → ∀ s ∈ next n, good s)
    (hpay : ∀ seen n, good n → key n ∉ seen → weight (key n :: seen) + (next n).length ≤ weight seen)
    (hfuel : pending.length + weight seen ≤ budget) (hpending : ∀ n ∈ pending, good n) :
    (∀ n ∈ pending, key n ∈ seen ++ (visited key next budget seen pending).map key) ∧
      ∀ n ∈ visited key next budget seen pending, ∀ s ∈ next n,
        key s ∈ seen ++ (visited key next budget seen pending).map key := by
  fun_induction visited key next budget seen pending with
  | case1 seen pending =>
    have hnil : pending = [] := List.eq_nil_of_length_eq_zero (by omega)
    simp [hnil]
  | case2 => simp
  | case3 budget seen n pending hseen ih =>
    have hs : key n ∈ seen := by simpa using hseen
    simp only [List.length_cons] at hfuel
    obtain ⟨hall, hnext⟩ := ih (by omega) fun k hk => hpending k (List.mem_cons_of_mem _ hk)
    exact ⟨List.forall_mem_cons.2 ⟨List.mem_append_left _ hs, hall⟩, hnext⟩
  | case4 budget seen n pending hnew ih =>
    have hn : key n ∉ seen := by simpa using hnew
    obtain ⟨hgn, hgrest⟩ := List.forall_mem_cons.1 hpending
    have hless := hpay seen n hgn hn
    simp only [List.length_cons] at hfuel
    obtain ⟨hall, hnext⟩ := ih (by rw [List.length_append]; omega)
      (List.forall_mem_append.2 ⟨hgood n hgn, hgrest⟩)
    -- the key of the node has moved from what is found to what is seen
    have hmove : ∀ k, k ∈ (key n :: seen) ++ (visited key next budget (key n :: seen)
        (next n ++ pending)).map key → k ∈ seen ++ (n :: visited key next budget (key n :: seen)
          (next n ++ pending)).map key := by
      intro k hk
      simp only [List.cons_append, List.mem_cons, List.mem_append, List.map_cons] at hk ⊢
      exact or_left_comm.1 hk
    obtain ⟨hfirst, hrest⟩ := List.forall_mem_append.1 hall
    refine ⟨List.forall_mem_cons.2 ⟨by simp, fun k hk => hmove _ (hrest k hk)⟩,
      List.forall_mem_cons.2 ⟨fun s hs => hmove _ (hfirst s hs), fun k hk s hs => hmove _ (hnext k hk s hs)⟩⟩

/-- **A walk comes upon exactly what can be reached**, if nodes are told apart by their keys. -/
theorem mem_visited_iff (hgood : ∀ n, good n → ∀ s ∈ next n, good s)
    (hpay : ∀ seen n, good n → key n ∉ seen → weight (key n :: seen) + (next n).length ≤ weight seen)
    (hkey : ∀ a b, good a → good b → key a = key b → a = b) {start : List ν}
    (hfuel : start.length + weight [] ≤ budget) (hstart : ∀ n ∈ start, good n) :
    n ∈ visited key next budget [] start ↔ ∃ p ∈ start, Reach next p n := by
  refine ⟨reach_of_mem_visited, ?_⟩
  rintro ⟨p, hp, hpn⟩
  obtain ⟨hall, hnext⟩ := visited_closed good weight hgood hpay hfuel hstart
  have hfound : ∀ k ∈ visited key next budget [] start, good k := by
    intro k hk
    obtain ⟨q, hq, hqk⟩ := reach_of_mem_visited hk
    exact hqk.rec (hstart q hq) fun _ hstep ih => hgood _ ih _ hstep
  -- what is good and has the key of a node that was come upon is that node
  have hback : ∀ k, good k → key k ∈ (visited key next budget [] start).map key →
      k ∈ visited key next budget [] start := by
    intro k hk hmem
    obtain ⟨k', hk', heq⟩ := List.mem_map.1 hmem
    exact hkey k' k (hfound k' hk') hk heq ▸ hk'
  induction hpn with
  | refl => exact hback p (hstart p hp) (hall p hp)
  | tail _ hstep ih => exact hback _ (hgood _ (hfound _ ih) _ hstep) (hnext _ ih _ hstep)

end Walk

namespace Classes

variable {n : String} {cs : Classes} {c : HostClass}

/-- A name leads to the class of that name. -/
def WellNamed (cs : Classes) : Prop := ∀ n c, cs.load? n = some c → c.name = n

/-- The class of one name lists another name as a supertype. -/
def Extends (cs : Classes) (sub super : String) : Prop :=
  ∃ c, cs.load? sub = some c ∧ super ∈ c.supertypes

/-- A name is another, or inherits from it through any number of classes. -/
abbrev Inherits (cs : Classes) : String → String → Prop := Relation.ReflTransGen cs.Extends

/-- A name is the sought one, or its class answers to the sought one. -/
def Spells (cs : Classes) (sought n : String) : Prop :=
  n = sought ∨ ∃ c, cs.load? n = some c ∧ c.answersTo sought = true

/-- A class answers to no qualified name but its own. -/
theorem spells_qualified (named : cs.WellNamed) {sought : String} (hq : isQualified sought = true) :
    cs.Spells sought n ↔ n = sought := by
  constructor
  · rintro (h | ⟨c, hc, h⟩)
    · exact h
    · simp only [HostClass.answersTo, hq, Bool.not_true, Bool.false_and, Bool.or_false, beq_iff_eq] at h
      exact (named n c hc).symm.trans h
  · intro h
    exact Or.inl h

theorem mem_records_of_load (h : cs.load? n = some c) : c ∈ cs.records.toList := by
  obtain ⟨i, -, hi⟩ := Option.bind_eq_some_iff.1 h
  exact Array.mem_toList_iff.2 (Array.mem_of_getElem? hi)

/-- Whether each entry of a table leads to a class of its name. -/
def namesFit (cs : Classes) (table : Table Nat) : Bool :=
  table.entries.all fun e => (cs.records[e.2]?).all fun c => c.name == e.1

theorem name_of_namesFit {table : Table Nat} (h : cs.namesFit table = true) {i : Nat}
    (hi : table.get? n = some i) (hc : cs.records[i]? = some c) : c.name = n := by
  obtain ⟨before, after, hsplit, -⟩ := List.lookup_eq_some_iff.1 hi
  have hmem : (n, i) ∈ table.entries := by simp [hsplit]
  have hfit := List.all_eq_true.1 h (n, i) hmem
  simpa [hc] using hfit

/-- Tables that were filled with classes under their names lead back to these names. -/
theorem WellNamed.of_tables (hregistered : cs.namesFit cs.registered = true)
    (hloader : cs.loader.all cs.namesFit = true) : cs.WellNamed := by
  intro n c h
  obtain ⟨i, hi, hc⟩ := Option.bind_eq_some_iff.1 h
  rcases Option.or_eq_some_iff.1 hi with hl | ⟨-, hr⟩
  · obtain ⟨table, htable, hget⟩ := Option.bind_eq_some_iff.1 hl
    rw [htable] at hloader
    exact name_of_namesFit hloader hget hc
  · exact name_of_namesFit hregistered hr hc

/-! ## The allowance -/

/-- The supertype entries of the classes whose names are not among those seen. -/
def unseenEntries (seen : List String) : List HostClass → Nat
  | [] => 0
  | c :: records =>
    (if seen.contains c.name then 0 else c.supertypes.length) + unseenEntries seen records

theorem supertypeCount_eq (cs : Classes) : cs.supertypeCount = unseenEntries [] cs.records.toList := by
  have sum_from (l : List HostClass) : ∀ n : Nat,
      l.foldl (fun n c => n + c.supertypes.length) n = n + unseenEntries [] l := by
    induction l with
    | nil => intro n; rfl
    | cons c l ih =>
      intro n
      rw [List.foldl_cons, ih]
      simp [unseenEntries, Nat.add_assoc]
  rw [supertypeCount, ← Array.foldl_toList, sum_from, Nat.zero_add]

theorem unseenEntries_cons (seen : List String) (c : HostClass) (records : List HostClass) :
    unseenEntries seen (c :: records)
      = (if seen.contains c.name then 0 else c.supertypes.length) + unseenEntries seen records := rfl

theorem entries_see_le (n : String) (seen : List String) (c : HostClass) :
    (if (n :: seen).contains c.name then 0 else c.supertypes.length)
      ≤ if seen.contains c.name then 0 else c.supertypes.length := by
  cases h : seen.contains c.name with
  | true =>
    have hmore : (n :: seen).contains c.name = true := by rw [List.contains_cons, h, Bool.or_true]
    exact Nat.le_trans (Nat.le_of_eq (if_pos hmore)) (Nat.zero_le _)
  | false =>
    rw [if_neg Bool.false_ne_true]
    split <;> omega

theorem unseenEntries_see_le (n : String) (seen : List String) (records : List HostClass) :
    unseenEntries (n :: seen) records ≤ unseenEntries seen records := by
  induction records with
  | nil => exact Nat.le_refl _
  | cons c rest ih =>
    rw [unseenEntries_cons, unseenEntries_cons]
    exact Nat.add_le_add (entries_see_le n seen c) ih

/-- A class that is seen for the first time takes its entries with it. -/
theorem unseenEntries_see {seen : List String} {records : List HostClass} (hc : c ∈ records)
    (hnew : c.name ∉ seen) :
    unseenEntries (c.name :: seen) records + c.supertypes.length ≤ unseenEntries seen records := by
  induction records with
  | nil => cases hc
  | cons d rest ih =>
    rw [unseenEntries_cons, unseenEntries_cons]
    rcases List.mem_cons.1 hc with rfl | hc
    · have hrest := unseenEntries_see_le c.name seen rest
      rw [if_pos (by simp), if_neg (by simpa using hnew)]
      omega
    · have hrest := ih hc
      have hd := entries_see_le c.name seen d
      omega

/-! ## From name to name -/

section Names

variable {sought : String} {sub super : String} {seen : List String}

/-- The names that a name leads to, the last entry first. -/
def superNames (cs : Classes) (n : String) : List String :=
  (cs.load? n).elim [] fun c => c.supertypes.reverse

theorem mem_superNames {s : String} : s ∈ cs.superNames n ↔ cs.Extends n s := by
  unfold superNames Extends
  cases cs.load? n <;> simp

theorem superNames_pay (named : cs.WellNamed) (hnew : n ∉ seen) :
    unseenEntries (n :: seen) cs.records.toList + (cs.superNames n).length
      ≤ unseenEntries seen cs.records.toList := by
  unfold superNames
  cases hc : cs.load? n with
  | none => exact unseenEntries_see_le n seen _
  | some c =>
    obtain rfl := named n c hc
    simpa using unseenEntries_see (mem_records_of_load hc) hnew

instance (cs : Classes) (sought : String) : DecidablePred (cs.Spells sought) := fun n =>
  decidable_of_iff ((n == sought || (cs.load? n).any (·.answersTo sought)) = true) (by
    unfold Spells
    cases cs.load? n <;> simp)

/-- The walk for a name says whether a name that it comes upon is a hit. -/
theorem reaches_eq {budget : Nat} {pending : List String} (h : ∀ n ∈ seen, ¬ cs.Spells sought n) :
    cs.reaches sought budget seen pending =
      (visited id cs.superNames budget seen pending).any fun n => decide (cs.Spells sought n) := by
  fun_induction reaches cs sought budget seen pending with
  | case1 => rfl
  | case2 => simp [visited]
  | case3 budget seen name pending heq =>
    have hit : cs.Spells sought name := .inl (by simpa using heq)
    have hnew : name ∉ seen := fun hs => h name hs hit
    simp [visited, hnew, hit]
  | case4 budget seen name pending _ hseen ih =>
    have hs : name ∈ seen := by simpa using hseen
    simp [visited, hs, ih h]
  | case5 budget seen name pending _ hseen c hc hans =>
    have hit : cs.Spells sought name := .inr ⟨c, hc, hans⟩
    have hnew : name ∉ seen := by simpa using hseen
    simp [visited, hnew, hit]
  | case6 budget seen name pending hne hseen c hc hans ih =>
    have hnew : name ∉ seen := by simpa using hseen
    have hmiss : ¬ cs.Spells sought name := by
      rintro (heq | ⟨d, hd, hdans⟩)
      · exact hne (by simpa using heq)
      · exact hans (Option.some.inj (hc.symm.trans hd) ▸ hdans)
    have hnext : cs.superNames name = c.supertypes.reverse := by simp [superNames, hc]
    rw [ih (List.forall_mem_cons.2 ⟨hmiss, h⟩)]
    simp [visited, hnew, hmiss, hnext]
  | case7 budget seen name pending hne hseen hc ih =>
    have hnew : name ∉ seen := by simpa using hseen
    have hmiss : ¬ cs.Spells sought name := by
      rintro (heq | ⟨d, hd, -⟩)
      · exact hne (by simpa using heq)
      · cases hc.symm.trans hd
    have hnext : cs.superNames name = [] := by simp [superNames, hc]
    rw [ih (List.forall_mem_cons.2 ⟨hmiss, h⟩)]
    simp [visited, hnew, hmiss, hnext]

/-- **The walk decides reachability** in the graph of supertype entries, cycles or not. -/
theorem isSubtype_iff (named : cs.WellNamed) :
    cs.isSubtype sub super = true ↔ ∃ t, cs.Inherits sub t ∧ cs.Spells super t := by
  have hfuel : [sub].length + unseenEntries [] cs.records.toList ≤ cs.supertypeCount + 2 := by
    rw [supertypeCount_eq]
    simp only [List.length_singleton]
    omega
  have hmem (t : String) : t ∈ visited id cs.superNames (cs.supertypeCount + 2) [] [sub] ↔
      cs.Inherits sub t := by
    refine (mem_visited_iff (fun _ => True) (fun seen => unseenEntries seen cs.records.toList)
      (fun _ _ _ _ => trivial) (fun _ _ _ hnew => superNames_pay named hnew) (fun _ _ _ _ h => h) hfuel
      fun _ _ => trivial).trans ?_
    simp only [List.mem_singleton, exists_eq_left, Reach, mem_superNames, Inherits]
  unfold isSubtype
  rw [reaches_eq (fun n hn => by cases hn), List.any_eq_true]
  simp only [hmem, decide_eq_true_eq]

/-- A qualified name is reached by inheriting from it and in no other way. -/
theorem isSubtype_qualified (named : cs.WellNamed) (hq : isQualified super = true) :
    cs.isSubtype sub super = true ↔ cs.Inherits sub super := by
  rw [isSubtype_iff named]
  constructor
  · rintro ⟨t, hsub, ht⟩
    rw [spells_qualified named hq] at ht
    exact ht ▸ hsub
  · intro h
    exact ⟨super, h, Or.inl rfl⟩

end Names

end Classes

end HostScript
