import HostScript.Proofs.TypedStore

/-!
# Values confined to a set of frames

A value refers to a frame when it is the scripted object of that frame. A machine is confined to a set
of frames when nothing that is stored in it refers to any other frame (`Machine.Confined`). Nothing that
ebbs leaves the set. Every machine is confined to the set of all frames, and honest host code is confined to
every set that has the frames its classes own (`Classes.Honest.confined`).
-/

set_option autoImplicit false

namespace HostScript

variable {v : Value} {id : ScopeId} {vs : List Value} {code : HostStep → Action → Prop}

/-- The frames that may be referred to, and the host code that may be run. -/
structure Bounds where
  frame : ScopeId → Prop
  code : HostStep → Action → Prop

namespace Bounds

/-- A set of frames, with any host code. -/
abbrev frames (p : ScopeId → Prop) : Bounds := ⟨p, fun _ _ => True⟩

/-- All frames, with a set of host code. -/
abbrev hosting (code : HostStep → Action → Prop) : Bounds := ⟨fun _ => True, code⟩

/-- All frames, with any host code. -/
abbrev all : Bounds := frames fun _ => True

end Bounds

variable {ok : Bounds}

/-! ## Values, frames and cells -/

/-- A value that refers to no frame outside the set. -/
def Value.Confined (ok : Bounds) : Value → Prop
  | .object id _ => ok.frame id
  | _ => True

/-- Values that refer to no frame outside the set. -/
def AllConfined (ok : Bounds) (vs : List Value) : Prop := ∀ v ∈ vs, v.Confined ok

theorem Value.confined_all (v : Value) : v.Confined (.hosting code) := by
  cases v <;> trivial

/-- Only scripted objects refer to frames. -/
theorem Value.confined_of_ne_object (h : ∀ id name, v ≠ .object id name) : v.Confined ok := by
  cases v with
  | object id name => exact absurd rfl (h id name)
  | _ => trivial

theorem Value.confined_of_claims (h : ∀ id, .frame id ∈ v.claims → ok.frame id) : v.Confined ok := by
  cases v with
  | object id name => exact h id (Multiset.mem_singleton_self _)
  | _ => trivial

theorem Value.Confined.claims (h : v.Confined ok) (hid : .frame id ∈ v.claims) : ok.frame id := by
  cases v with
  | object k name =>
    cases Multiset.mem_singleton.1 hid
    exact h
  | array n element => cases Multiset.mem_singleton.1 hid
  | host n name => cases Multiset.mem_singleton.1 hid
  | _ => exact absurd hid (Multiset.notMem_zero _)

theorem AllConfined.claims (h : AllConfined ok vs) (hid : .frame id ∈ claimsOf vs) : ok.frame id := by
  obtain ⟨v, hv, hid⟩ := mem_claimsOf.1 hid
  exact (h v hv).claims hid

theorem allConfined_of_claims (h : ∀ id, .frame id ∈ claimsOf vs → ok.frame id) : AllConfined ok vs :=
  fun v hv => Value.confined_of_claims fun id hid => h id (mem_claimsOf.2 ⟨v, hv, hid⟩)

theorem allConfined_iff_claims :
    AllConfined ok vs ↔ ∀ id, .frame id ∈ vs.filterMap Value.claim? → ok.frame id := by
  simp only [← Multiset.mem_coe, coe_filterMap_claim]
  exact ⟨fun h id hid => h.claims hid, allConfined_of_claims⟩

/-- All variables of a frame are confined. -/
def Frame.Confined (ok : Bounds) (f : Frame) : Prop :=
  ∀ e ∈ f.vars.entries, e.2.value.Confined ok

/-- All values that a host object holds are confined. -/
def HostObject.Confined (ok : Bounds) (o : HostObject) : Prop :=
  AllConfined ok (o.slots.values ++ o.items)

/-- What a cell holds is confined. -/
def Contents.Confined (ok : Bounds) : Contents → Prop
  | .array items => ∀ v ∈ items, v.Confined ok
  | .host object => object.Confined ok
  | .adapter a => ok.frame a.scope

theorem Frame.confined_iff_claims {f : Frame} :
    f.Confined ok ↔ ∀ id, .frame id ∈ f.claims → ok.frame id := by
  have hvalues : f.Confined ok ↔ AllConfined ok (f.vars.entries.map fun e => e.2.value) :=
    List.forall_mem_map.symm
  -- what a frame is bound to is a cell
  have hbound : ∀ id, .frame id ∉ (f.bound.map fun b => Claim.cell b.1).toList := by
    intro id
    cases f.bound <;> simp
  rw [hvalues, allConfined_iff_claims, List.filterMap_map]
  refine forall_congr' fun id => imp_congr_left ?_
  unfold Frame.claims Table.values
  rw [List.mem_append, or_iff_left (hbound id), List.filterMap_map]
  rfl

theorem Contents.confined_iff_claims {contents : Contents} :
    contents.Confined ok ↔ ∀ id, .frame id ∈ contents.claims → ok.frame id := by
  cases contents with
  | array items =>
    have hitems : (Contents.array items).Confined ok ↔ AllConfined ok items.toList := by
      simp [Contents.Confined, AllConfined]
    rw [hitems, allConfined_iff_claims]
    rfl
  | host object => exact allConfined_iff_claims
  | adapter a => simp [Contents.Confined, Contents.claims]

theorem Contents.confined_all (contents : Contents) : contents.Confined (.hosting code) := by
  cases contents with
  | array items => exact fun v _ => v.confined_all
  | host object => exact fun v _ => v.confined_all
  | adapter a => trivial

/-! ## Host code -/

/-- An answer that host code gets is confined. -/
def Reply.Confined (ok : Bounds) (reply : Reply) : Prop :=
  ∀ v, reply = .answered (some v) → v.Confined ok

/-- An action passes on only confined values, provided that what it sees is confined. -/
def Action.Confined (ok : Bounds) : Action → Prop
  | .done value => value.Confined ok
  | .create object => object.Confined ok
  | .raise _ => True
  | .inspect _ next => ∀ found, (∀ o, found = some o → o.Confined ok) → (next found).Confined ok
  | .update object contents next =>
    (∀ n name, object = .host n name → contents.Confined ok) ∧ next.Confined ok
  | .textOf _ _ next => ∀ text, (next text).Confined ok
  | .keep _ next => next.Confined ok
  | .notify _ _ args next | .ask _ _ args next =>
    AllConfined ok args ∧ ∀ reply, reply.Confined ok → (next reply).Confined ok

/-- Host code that may be run and passes on only confined values. -/
structure Bounds.Allows (ok : Bounds) (step : HostStep) (action : Action) : Prop where
  confined : action.Confined ok
  code : ok.code step action

/-- A method that is given confined values passes on confined ones. -/
def HostMethod.Confined (ok : Bounds) (m : HostMethod) : Prop :=
  ∀ body, m.body = some body → ∀ receiver args, AllConfined ok (receiver.toList ++ args) →
    ok.Allows (.calling m.signature) (body receiver args)

/-- Whether a step reads a field of a name. -/
def HostStep.Reads (name : String) : HostStep → Prop
  | .reading field | .readingBound field _ => field = name
  | _ => False

/-- A field that is given confined values passes on confined ones. -/
structure HostField.Confined (ok : Bounds) (name : String) (f : HostField) : Prop where
  read : ∀ step receiver, step.Reads name → AllConfined ok receiver.toList → ok.Allows step (f.read receiver)
  write : ∀ write, f.write = some write → ∀ receiver value,
    AllConfined ok (receiver.toList ++ [value]) → ok.Allows (.writing name) (write receiver value)

/-- All members of a class are confined. -/
structure HostClass.Confined (ok : Bounds) (c : HostClass) : Prop where
  constructors : ∀ m ∈ c.constructors, m.Confined ok
  methods : ∀ m ∈ c.methods, m.Confined ok
  fields : ∀ f ∈ c.fields, f.Confined ok f.name

/-- All classes are confined. -/
def Classes.Confined (ok : Bounds) (cs : Classes) : Prop := ∀ c ∈ cs.records, c.Confined ok

theorem Action.confined_all (action : Action) : action.Confined (.hosting code) := by
  induction action with
  | done value => exact value.confined_all
  | create object => exact fun v _ => v.confined_all
  | raise message => trivial
  | inspect object next ih => exact fun found _ => ih found
  | update object contents next ih => exact ⟨fun _ _ _ v _ => v.confined_all, ih⟩
  | textOf locked value next ih => exact ih
  | keep values next ih => exact ih
  | notify target method args next ih | ask target method args next ih =>
    exact ⟨fun v _ => v.confined_all, fun reply _ => ih reply⟩

theorem HostClass.confined_all (c : HostClass) : c.Confined .all := by
  have hallows : ∀ (step : HostStep) (action : Action), Bounds.all.Allows step action :=
    fun _ action => ⟨action.confined_all, trivial⟩
  exact ⟨fun _ _ _ _ _ _ _ => hallows _ _, fun _ _ _ _ _ _ _ => hallows _ _,
    fun _ _ => ⟨fun _ _ _ _ => hallows _ _, fun _ _ _ _ _ => hallows _ _⟩⟩

theorem Classes.confined_all (cs : Classes) : cs.Confined .all := fun c _ => c.confined_all

/-! ### Honest host code -/

/-- What host code may use is confined. -/
def Sight.Confined (ok : Bounds) (b : Sight) : Prop := ∀ id, b.May (.frame id) → ok.frame id

namespace Sight.Confined

variable {b : Sight}

theorem renew (h : b.Confined ok) : b.renew.Confined ok := by
  rintro id (hid | hid)
  · exact h id (.inl hid)
  · exact absurd hid not_false

theorem look (h : b.Confined ok) (object : Value) {found : Option HostObject}
    (hf : ∀ o, found = some o → o.Confined ok) : (b.look object found).Confined ok := by
  rintro id (hid | hid | ⟨o, ho, hid⟩)
  · exact h id (.inl hid)
  · exact h id (.inr hid)
  · exact allConfined_iff_claims.1 (hf o ho) id hid

theorem answered (h : b.Confined ok) {reply : Reply} (hr : reply.Confined ok) :
    (b.answered reply).Confined ok := by
  rintro id ((hid | ⟨v, hv, hid⟩) | hid)
  · exact h id (.inl hid)
  · exact (hr v hv).claims hid
  · exact absurd hid not_false

theorem givenBy {r : Multiset Claim} {receiver : Option Value} {args : List Value}
    (hr : ∀ id, .frame id ∈ r → ok.frame id) (h : AllConfined ok (receiver.toList ++ args)) :
    (givenBy r receiver args).Confined ok := by
  rintro id ((hid | hid) | hid)
  · exact h.claims hid
  · exact hr id hid
  · exact absurd hid not_false

end Sight.Confined

/-- Host code that uses only what it may is confined to any set that it is confined to use. -/
theorem Action.Honest.confined (action : Action) : ∀ {b : Sight}, action.Honest b → b.Confined ok →
    action.Confined ok := by
  induction action with
  | done value => exact fun h hb => Value.confined_of_claims fun id hid => hb id (h _ hid)
  | create object => exact fun h hb => allConfined_iff_claims.2 fun id hid => hb id (h _ hid)
  | raise message => exact fun _ _ => trivial
  | inspect object next ih => exact fun h hb found hf => ih found (h found) (hb.look object hf)
  | update object contents next ih =>
    refine fun h hb => ⟨fun n name hn => ?_, ih h.2 hb.renew⟩
    exact allConfined_iff_claims.2 fun id hid => hb id ((h.1 n name hn).2.2 _ hid)
  | textOf locked value next ih => exact fun h hb text => ih text (h text) hb
  | keep values next ih =>
    refine fun h hb => ih h.2 fun id hid => ?_
    rcases hid with (hid | hid) | hid
    · exact hb id (.inl hid)
    · exact hb id (h.1 _ hid)
    · exact hb id (.inr hid)
  | notify target method args next ih =>
    refine fun h hb => ⟨?_, fun reply _ => ih reply (h.2.2 reply) hb.renew⟩
    exact allConfined_of_claims fun id hid => hb id (.inl (h.2.1 _ hid))
  | ask target method args next ih =>
    refine fun h hb => ⟨?_, fun reply hr => ih reply (h.2.2 reply) (hb.answered hr)⟩
    exact allConfined_of_claims fun id hid => hb id (.inl (h.2.1 _ hid))

/-- Honest classes are confined to every set that has the frames they own. -/
theorem Classes.Honest.confined {cs : Classes} {r : Multiset Claim} (h : cs.Honest r) {p : ScopeId → Prop}
    (hr : ∀ id, .frame id ∈ r → p id) : cs.Confined (.frames p) := by
  have hmethod : ∀ m : HostMethod, m.Honest r → m.Confined (.frames p) :=
    fun m hm body hbody receiver args hargs =>
      ⟨(hm body hbody receiver args).confined _ (.givenBy hr hargs), trivial⟩
  refine fun c hc => ⟨fun m hm => hmethod m ((h c hc).constructors m hm),
    fun m hm => hmethod m ((h c hc).methods m hm), fun f hf => ⟨fun step receiver _ hreceiver => ⟨?_, trivial⟩, ?_⟩⟩
  · refine (((h c hc).fields f hf).read receiver).confined _ (.givenBy hr ?_)
    rwa [List.append_nil]
  · exact fun write hw receiver value hv =>
      ⟨(((h c hc).fields f hf).write write hw receiver value).confined _ (.givenBy hr hv), trivial⟩

/-! ## Machines -/

/-- Nothing that is stored in a machine refers to a frame outside the set. -/
structure Machine.Confined (ok : Bounds) (m : Machine) : Prop where
  frames : ∀ id f, m.store.arena.frame? id = some f → f.Confined ok
  cells : ∀ n c, m.store.cell? n = some c → c.contents.Confined ok
  classes : m.classes.Confined ok

namespace Machine.Confined

variable {m m' : Machine} {n : Nat} {contents : Contents}

theorem all (m : Machine) : m.Confined .all :=
  ⟨fun _ _ _ e _ => e.2.value.confined_all, fun _ c _ => c.contents.confined_all, m.classes.confined_all⟩

/-- Only store and classes matter. -/
theorem congr (h : m.Confined ok) (hs : m'.store = m.store) (hc : m'.classes = m.classes) :
    m'.Confined ok := by
  obtain ⟨hframes, hcells, hclasses⟩ := h
  refine ⟨?_, ?_, ?_⟩
  · rwa [hs]
  · rwa [hs]
  · rwa [hc]

theorem ebbs (h : m.Confined ok) {s : Store} (hs : m.store.Ebbs s) :
    ({ m with store := s }).Confined ok := by
  refine ⟨fun id g hg => ?_, fun n c hc => ?_, h.classes⟩
  · obtain ⟨f, hf, hgf⟩ := hs.frames id g hg
    rw [hgf]
    exact h.frames id f hf
  · obtain ⟨c0, hc0, hcc⟩ := hs.cells n c hc
    rw [hcc]
    exact h.cells n c0 hc0

/-- Nothing that is stored refers to a frame outside the set. -/
theorem unattached (h : m.Confined ok) (hid : ¬ ok.frame id)
    (hinside : ∀ k f, m.store.arena.frame? k = some f → f.parent ≠ some id) :
    m.store.Unattached id :=
  ⟨hinside, fun k f hf hk => hid (Frame.confined_iff_claims.1 (h.frames k f hf) id hk),
    fun n c hc hk => hid (Contents.confined_iff_claims.1 (h.cells n c hc) id hk)⟩

/-- The items of an array are confined. -/
theorem items (h : m.Confined ok) (n : Nat) : ∀ v ∈ m.store.items n, v.Confined ok := by
  intro v hv
  obtain ⟨c, hc, hitems⟩ := Store.items_eq hv
  exact (hitems ▸ h.cells n c hc : (Contents.array _).Confined ok) v hv

/-- A host object that is looked at is confined. -/
theorem host? (h : m.Confined ok) {o : HostObject} (ho : m.store.host? n = some o) : o.Confined ok := by
  obtain ⟨c, hc, hcontents⟩ := Store.host?_eq_some_iff.1 ho
  exact (hcontents ▸ h.cells n c hc : (Contents.host o).Confined ok)

/-- The frame of an adapter that is looked at is in the set. -/
theorem adapter? (h : m.Confined ok) {a : Adapter} (ha : m.store.adapter? n = some a) :
    ok.frame a.scope := by
  obtain ⟨c, hc, hcontents⟩ := Store.adapter?_eq_some_iff.1 ha
  exact (hcontents ▸ h.cells n c hc : (Contents.adapter a).Confined ok)

/-! ### What comes in -/

/-- A confined frame may be written over a live one. -/
theorem setFrame (h : m.Confined ok) {f g : Frame} (hf : m.store.arena.frame? id = some f)
    (hg : g.Confined ok) :
    ({ m with store := { m.store with arena := m.store.arena.setFrame id g } } : Machine).Confined ok := by
  refine ⟨fun k e he => ?_, h.cells, h.classes⟩
  replace he : (m.store.arena.setFrame id g).frame? k = some e := he
  rcases Arena.frame?_of_setFrame (Arena.live_of_frame? hf) he with ⟨-, rfl⟩ | ⟨-, he⟩
  · exact hg
  · exact h.frames k e he

/-- A new frame has no variables. -/
theorem create (h : m.Confined ok) (name : String) (kind : FrameKind) (parent : Option ScopeId) :
    ({ m with store := { m.store with arena := (m.store.arena.create name kind parent).2 } } :
      Machine).Confined ok := by
  refine ⟨fun k g hg => ?_, h.cells, h.classes⟩
  rcases Arena.frame?_of_create hg with rfl | ⟨f, hf, hgf⟩
  · exact fun e he => absurd he List.not_mem_nil
  · rw [hgf]
    exact h.frames k f hf

/-- Cells may change to confined contents. -/
theorem modifyCell (h : m.Confined ok) (n : Nat) {change : Cell → Cell}
    (hc : ∀ c, m.store.cell? n = some c → (change c).contents.Confined ok) :
    ({ m with store := m.store.modifyCell n change } : Machine).Confined ok := by
  refine ⟨h.frames, fun k c hk => ?_, h.classes⟩
  replace hk : (m.store.modifyCell n change).cell? k = some c := hk
  rcases Store.cell?_of_modifyCell hk with ⟨c0, rfl, hc0, rfl⟩ | ⟨-, hk⟩
  · exact hc c0 hc0
  · exact h.cells k c hk

theorem setContents (h : m.Confined ok) (n : Nat) (hc : contents.Confined ok) :
    ({ m with store := m.store.setContents n contents } : Machine).Confined ok :=
  h.modifyCell n fun _ _ => hc

/-- A confined item may be stored in an array. -/
theorem setItem (h : m.Confined ok) (n index : Nat) {v : Value} (hv : v.Confined ok) :
    ({ m with store := m.store.setItem n index v } : Machine).Confined ok := by
  refine h.modifyCell n fun c hc => ?_
  have hold := h.cells n c hc
  obtain ⟨contents, owners⟩ := c
  cases contents with
  | array items =>
    -- the new item, and those that were there before
    intro w hw
    rcases Array.mem_or_eq_of_mem_setIfInBounds hw with hw | rfl
    · exact hold w hw
    · exact hv
  | host object => exact hold
  | adapter a => exact hold

theorem alloc (h : m.Confined ok) (hc : contents.Confined ok) :
    ({ m with store := (m.store.alloc contents).2 } : Machine).Confined ok := by
  refine ⟨h.frames, fun n c hn => ?_, h.classes⟩
  replace hn : (m.store.alloc contents).2.cell? n = some c := hn
  rcases Store.cell?_of_alloc hn with ⟨-, rfl⟩ | ⟨-, hn⟩
  · exact hc
  · exact h.cells n c hn

end Machine.Confined

end HostScript
