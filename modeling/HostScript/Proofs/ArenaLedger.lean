import HostScript.Proofs.ArenaCounting

/-!
# Who owns the frames of an arena

A ledger keeps, beside an arena, the claims of its users: the frames that their creators have not released,
and the holds that were not dropped. Every ledger that arises by such operations is exact
(`Ledger.exact_of_reachable`): the count of a live frame is the number of its owners
(`Ledger.owner_counts_exact`).
-/

set_option autoImplicit false

namespace HostScript

/-- An arena with the claims of its users. -/
structure Ledger where
  arena : Arena := {}
  /-- The frames that their creators have not released. -/
  creators : Finset ScopeId := ∅
  /-- The holds that have not been dropped. -/
  holds : Multiset ScopeId := 0

namespace Ledger

/-- The number of claims on a name that the users have. -/
def claims (l : Ledger) (id : ScopeId) : Nat :=
  (if id ∈ l.creators then 1 else 0) + l.holds.count id

/-- The owners of a name: its users, its live children and the releases that wait in the queue. -/
def owners (l : Ledger) (id : ScopeId) : Nat :=
  l.claims id + l.arena.children id + l.arena.dropped.count id

/-- What a user may do with an arena. -/
inductive Step : Ledger → Ledger → Prop
  | create {l : Ledger} (name : String) (kind : FrameKind) {parent : Option ScopeId}
      {id : ScopeId} {a : Arena} :
      (∀ p, parent = some p → l.arena.Live p) → l.arena.create name kind parent = (id, a) →
        Step l ⟨a, insert id l.creators, l.holds⟩
  | hold {l : Ledger} {id : ScopeId} {a : Arena} :
      l.arena.hold id = .ok a → Step l ⟨a, l.creators, id ::ₘ l.holds⟩
  | drop {l : Ledger} {id : ScopeId} :
      id ∈ l.holds → Step l ⟨l.arena.queue id, l.creators, l.holds.erase id⟩
  | drain {l : Ledger} {freed : List Frame} {a : Arena} :
      l.arena.drain = (freed, a) → Step l ⟨a, l.creators, l.holds⟩
  | release {l : Ledger} {id : ScopeId} {freed : List Frame} {a : Arena} :
      id ∈ l.creators → l.arena.release id = (freed, a) → Step l ⟨a, l.creators.erase id, l.holds⟩

/-- The ledgers that arise from an empty arena. -/
def Reachable : Ledger → Prop := Relation.ReflTransGen Step {}

/-- The counts in the arena agree with the ledger. -/
def Exact (l : Ledger) : Prop := l.arena.Counted l.claims

variable {l l' : Ledger} {id : ScopeId}

/-- Nothing in the ledger claims a name that is not live. -/
theorem Exact.claims_eq_zero (h : l.Exact) (hn : ¬ l.arena.Live id) : l.claims id = 0 := by
  by_contra hc
  exact hn (h.live (by omega))

theorem claims_hold (k : ScopeId) (a : Arena) :
    (⟨a, l.creators, id ::ₘ l.holds⟩ : Ledger).claims k = Arena.plus l.claims id k := by
  simp only [claims, Arena.plus]
  rw [Multiset.count_cons]
  omega

theorem claims_drop (h : id ∈ l.holds) (k : ScopeId) (a : Arena) :
    l.claims k = Arena.plus (claims ⟨a, l.creators, l.holds.erase id⟩) id k := by
  simp only [claims, Arena.plus]
  by_cases hk : k = id
  · subst hk
    have := Multiset.count_pos.2 h
    rw [Multiset.count_erase_self, if_pos rfl]
    omega
  · rw [Multiset.count_erase_of_ne hk, if_neg hk, Nat.add_zero]

theorem claims_release (h : id ∈ l.creators) (k : ScopeId) (a : Arena) :
    l.claims k = Arena.plus (claims ⟨a, l.creators.erase id, l.holds⟩) id k := by
  simp only [claims, Arena.plus]
  by_cases hk : k = id
  · subst hk
    simp [h, Nat.add_comm]
  · simp [hk]

/-- The name of a new frame is claimed by its creator only. -/
theorem claims_create (h : l.claims id = 0) (k : ScopeId) (a : Arena) :
    (⟨a, insert id l.creators, l.holds⟩ : Ledger).claims k = Arena.plus l.claims id k := by
  simp only [claims, Arena.plus] at h ⊢
  by_cases hk : k = id
  · subst hk
    by_cases hm : k ∈ l.creators
    · rw [if_pos hm] at h
      omega
    · simp [hm]
      omega
  · simp [hk]

/-- Each step keeps the ledger exact. -/
theorem Exact.step (h : l.Exact) (hs : Step l l') : l'.Exact := by
  cases hs with
  | @create name kind parent id a hlive hc =>
    -- the name was not live, so nothing in the ledger claims it yet
    have hnew : l.claims id = 0 := by
      refine h.claims_eq_zero ?_
      have hfresh := Arena.not_live_nextId h.orderly
      rwa [← Arena.create_fst l.arena name kind parent, hc] at hfresh
    have hcounted := Arena.counted_create h name kind hlive
    rw [hc] at hcounted
    exact hcounted.congr fun k => (claims_create hnew k a).symm
  | @hold id a hh =>
    obtain ⟨hl, rfl⟩ := Arena.hold_eq_ok.1 hh
    exact (Arena.counted_retain h hl).congr fun k => (claims_hold k _).symm
  | @drop id hm =>
    exact Arena.counted_queue (h.congr fun k => claims_drop hm k _)
  | @drain freed a hd =>
    have hcounted := (Arena.drain_counted h).2
    rw [hd] at hcounted
    exact hcounted
  | @release id freed a hm hr =>
    have hcounted := (Arena.release_counted (h.congr fun k => claims_release hm k a)).2
    rw [hr] at hcounted
    exact hcounted

theorem exact_of_reachable (h : Reachable l) : l.Exact := by
  induction h with
  | refl => exact Arena.counted_empty.congr fun k => by simp [claims]
  | tail _ hs ih => exact ih.step hs

/-- **Owners are counted exactly.** Whatever users do, the count of a live frame is the number of its
owners; its parent is live and it is not its own ancestor, so the walk to its ancestors ends at a frame
without a parent; the free list holds the empty slots, each once; no release meets a stale name or a
count of zero; and a frame is live exactly as long as it has an owner. -/
theorem owner_counts_exact (h : Reachable l) :
    (∀ id f, l.arena.frame? id = some f →
      f.owners = (if id ∈ l.creators then 1 else 0) + l.arena.children id + l.holds.count id +
        l.arena.dropped.count id ∧
      (∀ p, f.parent = some p → l.arena.Live p) ∧
      ¬ Relation.TransGen l.arena.ParentOf id id ∧
      ∃ frames, l.arena.chain id = .ok frames ∧ l.arena.Lineage id frames) ∧
    (l.arena.free.Nodup ∧
      ∀ i, i ∈ l.arena.free ↔ ∃ slot, l.arena.slots[i]? = some slot ∧ slot.frame = none) ∧
    (∀ id ∈ l.creators, l.arena.release? id = some (l.arena.release id)) ∧
    l.arena.drain? = some l.arena.drain ∧
    ∀ id, l.arena.Live id ↔ 0 < l.owners id := by
  have he := exact_of_reachable h
  refine ⟨fun id f hf => ⟨?_, fun p hp => he.parent_live ⟨f, hf, hp⟩, ?_⟩,
    ⟨he.orderly.nodup, fun i => ?_⟩, fun id hid => ?_, (Arena.drain_counted he).1,
    fun id => he.live_iff_counted⟩
  · have hown := he.owners id
    rw [Arena.ownersOf_eq hf] at hown
    unfold claims at hown
    omega
  · obtain ⟨frames, hlin⟩ := he.rooted id (Arena.live_of_frame? hf)
    exact ⟨hlin.not_own_ancestor, frames, Arena.chain_eq_of_lineage hlin, hlin⟩
  · rw [he.orderly.mem_free_iff]
    constructor
    · rintro ⟨g, hg⟩
      exact ⟨_, hg, rfl⟩
    · rintro ⟨⟨g, fr⟩, hg, hn⟩
      subst hn
      exact ⟨g, hg⟩
  · exact (Arena.release_counted (he.congr fun k => claims_release hid k l.arena)).1

/-- A held frame under one whose creator has released it: once the hold is dropped, the queued
release and the creator own the inner frame, which alone owns the outer one. -/
theorem owner_counts_exact_nested : ∃ l : Ledger, Reachable l ∧ l.arena.dropped = [⟨1, 0⟩] ∧
    l.owners ⟨0, 0⟩ = 1 ∧ l.owners ⟨1, 0⟩ = 2 ∧ l.arena.drain? = some l.arena.drain ∧
    (l.arena.Live ⟨0, 0⟩ ↔ 0 < l.owners ⟨0, 0⟩) := by
  let outer : Arena := (({} : Arena).create "outer" .root none).2
  let inner : Arena := (outer.create "inner" .block (some ⟨0, 0⟩)).2
  let both : Finset ScopeId := insert ⟨1, 0⟩ (insert ⟨0, 0⟩ ∅)
  let held : Ledger := ⟨inner.retain ⟨1, 0⟩, both, ⟨1, 0⟩ ::ₘ 0⟩
  let released : Ledger := ⟨(held.arena.release ⟨0, 0⟩).2, both.erase ⟨0, 0⟩, held.holds⟩
  let l : Ledger := ⟨released.arena.queue ⟨1, 0⟩, released.creators, released.holds.erase ⟨1, 0⟩⟩
  have houter : Step {} ⟨outer, insert ⟨0, 0⟩ ∅, 0⟩ :=
    .create "outer" .root (fun p hp => nomatch (hp : none = some p)) rfl
  have hlive : ∀ p, some (⟨0, 0⟩ : ScopeId) = some p → outer.Live p := by
    intro p hp
    cases hp
    exact Arena.live_of_frame? rfl
  have hinner : Step ⟨outer, insert ⟨0, 0⟩ ∅, 0⟩ ⟨inner, both, 0⟩ := .create "inner" .block hlive rfl
  have hheld : Step ⟨inner, both, 0⟩ held := .hold rfl
  have hreleased : Step held released :=
    .release (Finset.mem_insert_of_mem (Finset.mem_insert_self _ _)) rfl
  have hmem : (⟨1, 0⟩ : ScopeId) ∈ (⟨1, 0⟩ ::ₘ 0 : Multiset ScopeId) := Multiset.mem_cons_self _ _
  have hdropped : Step released l := .drop hmem
  have hreach : Reachable l :=
    ((((Relation.ReflTransGen.single houter).tail hinner).tail hheld).tail hreleased).tail hdropped
  obtain ⟨-, -, -, hdrain, hlive⟩ := owner_counts_exact hreach
  exact ⟨l, hreach, rfl, by decide, by decide, hdrain, hlive _⟩

end Ledger

end HostScript
