import HostScript.Proofs.OwnershipNames

/-!
# Owning values: methods, handlers and places

How methods are declared and parameters bound, how the handlers of an adapter are kept up to date, and
how the place of a name or of a member is found. A place that goes through an object owns a claim on it.
-/

set_option autoImplicit false

namespace HostScript

/-- The class of a reference is one of the classes. -/
def Reference.Of (cs : Classes) : Reference → Prop
  | .field _ c _ | .staticField c _ | .property _ c _ => c ∈ cs.records
  | .variable .. | .element .. => True

/-- A reference is good as long as some claims are kept: its frame is pinned by them, or its class is one
of the classes. -/
def Reference.Rests (r : Multiset Claim) (m : Machine) : Reference → Prop
  | .variable id _ => m.store.Pinned r id
  | .field _ c _ | .staticField c _ | .property _ c _ => c ∈ m.classes.records
  | .element .. => True

theorem Reference.Rests.of {r : Multiset Claim} {m : Machine} {ref : Reference}
    (h : ref.Rests r m) : ref.Of m.classes := by
  cases ref <;> trivial

/-- The claim that owning the receiver of a callee is. -/
def Callee.claims : Callee → Multiset Claim
  | .host receiver _ => receiver.claims
  | _ => 0

/-- A scripted callee is closed over a frame above the one that the call is made from, and a host
method is one of a class. -/
def Callee.Fit (scope : ScopeId) (m : Machine) : Callee → Prop
  | .scripted method | .generic method => m.store.arena.Above scope method.declaring
  | .host _ method => ∃ c ∈ m.classes.records, method ∈ c.methods
  | .command _ => True

namespace Exec

open Machine

variable [Holding] [Trust] {m m' : Machine} {o r : Multiset Claim} {scope id : ScopeId} {name : String} {v : Value}
  {args : List Value} {cell : Nat} {a : Adapter} {frames : List (ScopeId × Frame)}

/-! ## Methods and parameters -/

/-- Other methods in a frame move no claim, and the change is counted. -/
theorem leaves_rewrite {f g : Frame} (h : m.Ready o r) (hf : m.store.arena.frame? id = some f)
    (hp : g.parent = f.parent) (hown : g.owners = f.owners) (ht : g.Tidy id)
    (hclaims : g.claims = f.claims) :
    m.Leaves r o { m with store := { m.store with arena := { m.store.arena.setFrame id g with
      methodChanges := m.store.arena.methodChanges + 1 } } } := by
  have hwrite := (h.sound.write hf hp hown ht (by rw [hclaims])).recount (m.store.arena.methodChanges + 1)
  exact .ofStore h (Store.continues_rewrite hf hp) (.inr (Arena.covers_setFrame hf hp)) hwrite

/-- A method may be declared in any frame that is there. -/
theorem declare_of_live {method : ScriptMethod} {arena : Arena} (h : m.Ready o r)
    (hd : m.store.arena.declare method = .ok arena) :
    m.Leaves r o { m with store := { m.store with arena } } := by
  unfold Arena.declare at hd
  cases hf : m.store.arena.frame? method.declaring with
  | none =>
    rw [hf] at hd
    cases hd
  | some f =>
    rw [hf] at hd
    cases hd
    exact leaves_rewrite h hf rfl rfl (h.sound.tidy _ f hf).declare rfl

theorem ends_declare (name : String) (params : List Param) (returns : Option TypeName)
    (body : List Stmt) (h : m.Ready o r) :
    Owns r (fun _ => o) m (declare name params returns body) := by
  refine (ends_scope h).bind fun declaring m1 _ hscope => ?_
  obtain ⟨rfl, -, hid⟩ := hscope
  have hs := h.settle.1
  obtain ⟨f, hf⟩ := Arena.live_iff.1 (h.live_settle hid)
  obtain ⟨arena, hdeclare⟩ : ∃ arena, m1.settle.store.arena.declare
      { name, params, returns, body, declaring } = .ok arena :=
    ⟨_, by unfold Arena.declare; rw [hf]⟩
  have hl := hs.trans (declare_of_live hs.ready hdeclare)
  constructor
  dsimp only
  rw [hdeclare]
  exact ⟨hl, trivial⟩

theorem ends_hoist (body : List Stmt) : ∀ {m : Machine}, m.Ready o r →
    Owns r (fun _ => o) m (hoist body) := by
  induction body with
  | nil => exact fun h => .pure h trivial
  | cons s rest ih =>
    intro m h
    cases s with
    | method span name params returns body =>
      exact (ends_declare name params returns body h).bind fun _ m1 h1 _ => ih h1.ready
    | _ => exact ih h

/-- The frame of a call takes over the arguments, one for each parameter. -/
theorem ends_bindParams (params : List (Param × Option ValueType)) :
    ∀ {m : Machine} {args : List Value}, m.Ready (claimsOf args) r → m.store.Pinned r id →
      params.length = args.length →
      Owns r (fun _ => 0) m (bindParams id params args) := by
  induction params with
  | nil =>
    intro m args h _ hlen
    rw [List.length_eq_zero_iff.1 hlen.symm] at h ⊢
    exact .pure h trivial
  | cons param rest ih =>
    intro m args h hid hlen
    obtain ⟨p, type⟩ := param
    cases args with
    | nil => exact absurd hlen (by simp)
    | cons arg args =>
      rw [claimsOf_cons] at h
      -- the arguments that are left are lent until it is their turn
      have hbind : ∀ {m : Machine} {v : Value}, m.Ready v.claims (claimsOf args + r) →
          m.store.Pinned (claimsOf args + r) id →
          Owns (claimsOf args + r) (fun _ => 0) m (define id p.name v type) :=
        fun h hid => ends_defineLast h hid
      refine (Ends.orDropAll h fun hlent =>
        (?_ : Owns _ (fun _ => 0) m _)).bind fun _ m1 h1 _ => ?_
      · cases type with
        | none => exact hbind hlent hid.lend
        | some t =>
          exact (ends_coerce t .passing hlent).bind fun v m1 h1 _ =>
            hbind h1.ready (h1.pinned hid.lend)
      · refine ih ?_ (h1.pinned hid) (Nat.succ.inj hlen)
        have := h1.ready
        rwa [zero_add] at this

theorem ends_checkDepth (method : String) (h : m.Ready 0 r) :
    Owns r (fun _ => 0) m (checkDepth method) := by
  refine Ends.get ?_
  split
  · exact .fault h _
  · exact .pure h trivial

/-! ## Handlers of adapters -/

/-- An adapter that was found in a cell that somebody keeps. -/
structure KeptAdapter (r : Multiset Claim) (m : Machine) (cell : Nat) (a : Adapter) : Prop where
  kept : .cell cell ∈ r
  there : m.store.AdapterAt cell a.scope
  within : a.Within m.store.arena

omit [Holding] [Trust] in
theorem KeptAdapter.pinned (ha : KeptAdapter r m cell a) : m.store.Pinned r a.scope :=
  .adapter ha.kept ha.there

theorem KeptAdapter.after (ha : KeptAdapter r m cell a) (hl : m.Leaves r o m') :
    KeptAdapter r m' cell a :=
  ⟨ha.kept, hl.steady.adapters _ _ ha.kept ha.there,
    fun e he method hm => hl.above ha.pinned (ha.within e he method hm)⟩

omit [Holding] in
theorem keptAdapter_of_adapter? (h : m.Ready o r) (hcell : .cell cell ∈ r)
    (ha : m.store.adapter? cell = some a) : KeptAdapter r m cell a := by
  obtain ⟨c, hc, hca⟩ := Store.adapter?_eq_some_iff.1 ha
  exact ⟨hcell, ⟨c, a, hc, hca, rfl⟩, h.sound.tables cell c a hc hca⟩

theorem ends_refreshed (h : m.Ready o r) (ha : KeptAdapter r m cell a) :
    Ends r (fun _ => o) m (fun a' m' => a'.scope = a.scope ∧ KeptAdapter r m' cell a')
      (refreshed cell a) := by
  have hlook : Owns r (fun _ => o) m (look (fun arena => .ok arena.methodChanges)) :=
    ends_look h fun m' _ _ _ => ⟨_, rfl, trivial⟩
  refine hlook.bind fun asOf m1 h1 _ => ?_
  have ha1 := ha.after h1
  split
  · exact .pure h1.ready ⟨rfl, ha1⟩
  · refine (ends_makeTable a.interfaces h1.ready ha1.pinned).bind fun table m2 h2 htable => ?_
    -- the adapter is still in its cell, whatever its table is by now
    obtain ⟨c, old, hc, hold, hscope⟩ := (ha1.after h2).there
    have hsound : (m2.store.setContents cell (.adapter { a with table })).Sound (o + r) := by
      refine h2.ready.sound.setContents hc ?_ ?_
      · rintro _ ⟨⟩
        exact htable.1 a.label
      · rw [hold]
        show (({Claim.frame a.scope} : Multiset Claim)) + _ = {Claim.frame old.scope} + _
        rw [hscope]
    have hcontinues : m2.store.Continues (m2.store.setContents cell (.adapter { a with table })) := by
      refine Store.continues_setContents hc (fun a' ha' => ⟨_, rfl, ?_⟩) ?_
      · rw [hold, Contents.adapter.injEq] at ha'
        exact (ha' ▸ hscope).symm
      · rintro _ ⟨⟩
        exact htable.2
    have hl := Leaves.ofStore h2.ready hcontinues (.refl m2.store) hsound
    refine (ends_modify hl).bind fun _ m3 h3 hm => .pure h3.ready ⟨rfl, ha.kept, ?_, ?_⟩
    · exact h3.steady.adapters _ _ ha.kept (ha1.after h2).there
    · rw [hm]
      exact htable.1 a.label

theorem ends_handlerFor (h : m.Ready o r) (ha : KeptAdapter r m cell a) (method : String)
    (arity : Nat) : Ends r (fun _ => o) m (fun handler m' => ∀ target,
      handler.method? = some target → m'.store.Pinned r target.declaring)
      (handlerFor cell a method arity) := by
  refine (ends_refreshed h ha).bind fun a' m1 h1 ha' => ?_
  obtain ⟨-, ha'⟩ := ha'
  cases hl : a'.table.handlers.lookup (method, arity) with
  | some handler =>
    refine .pure h1.ready fun target ht => ha'.pinned.above ?_
    exact ha'.within _ (mem_of_lookup hl) target ht
  | none =>
    refine (ends_resolve h1.ready ha'.pinned method arity).imp fun handler m2 h2 hh target ht => ?_
    exact (h2.pinned ha'.pinned).above (hh target ht)

omit [Holding] [Trust] in
theorem claims_identityValue (cell : Nat) (a : Adapter) (args : List Value) (call : Identity) :
    (identityValue cell a args call).claims = 0 := by
  unfold identityValue
  split
  · rfl
  · rfl
  · split <;> rfl

theorem ends_identityCall (h : m.Ready 0 r) (ha : KeptAdapter r m cell a) (name : String)
    (args : List Value) : Ends r (fun _ => 0) m (fun found _ => ∀ v, found = some v → v.claims = 0)
      (identityCall cell a name args) := by
  refine (ends_handlerFor h ha name args.length).bind fun handler m1 h1 _ => ?_
  cases handler with
  | identity call =>
    exact .pure h1.ready fun v hv => Option.some.inj hv ▸ claims_identityValue cell a args call
  | _ => exact .pure h1.ready fun _ hv => nomatch hv

/-! ## References -/

/-- The frames from a pinned one outwards, with no release queued. -/
theorem ends_chain (h : m.Ready o r) (hs : m.store.Pinned r scope) : Ends r (fun _ => o) m
    (fun frames m' => m'.store.arena.Lineage scope frames ∧ m'.store.arena.dropped = [])
    (look (fun arena => arena.chain scope)) := by
  refine ends_look h fun m' hl _ hq => ?_
  obtain ⟨frames, hlin⟩ := hl.ready.lineage (hl.pinned hs)
  exact ⟨frames, Arena.chain_eq_of_lineage hlin, hlin, hq⟩

theorem ends_home (h : m.Ready o r) (hs : m.store.Pinned r scope) : Ends r (fun _ => o) m
    (fun home m' => m'.store.Pinned r home) (look (fun arena => arena.home scope)) := by
  refine ends_look h fun m' hl _ _ => ?_
  obtain ⟨frames, hlin⟩ := hl.ready.lineage (hl.pinned hs)
  obtain ⟨home, hhome, habove⟩ := Arena.home_of_lineage hlin
  exact ⟨home, hhome, (hl.pinned hs).above habove⟩

omit [Holding] in
theorem holds_of_lineage (h : m.Ready o r) (hlin : m.store.arena.Lineage scope frames) :
    ∀ e ∈ frames, ∀ k ∈ e.2.claims, m.store.Holds k :=
  fun _ he _ hk => h.sound.holds_of_frame (hlin.mem he).1 hk

omit [Holding] [Trust] in
theorem holds_bounds (hf : ∀ e ∈ frames, ∀ k ∈ e.2.claims, m.store.Holds k) :
    ∀ b ∈ frames.filterMap fun e => e.2.bound, m.store.Holds (.cell b.1) := by
  intro b hb
  obtain ⟨e, he, hbound⟩ := List.mem_filterMap.1 hb
  exact hf e he _ (Frame.mem_claims_of_bound hbound)

/-- What a search for a place may come to: nothing, and then nothing has changed, or a reference that
is good for now. -/
def Found (r : Multiset Claim) (m : Machine) (found : Option Reference) (m' : Machine) : Prop :=
  (found = none → m' = m) ∧ ∀ ref, found = some ref → ref.Rests r m'

theorem ends_boundTarget (name : String) {bound : Nat × String} (h : m.Ready 0 r)
    (hb : m.store.Holds (.cell bound.1)) :
    Ends r (fun found => found.elim 0 Reference.claims) m (Found r m) (boundTarget name bound) := by
  have hnone : Ends r (fun found => found.elim 0 Reference.claims) m (Found r m)
      (pure none : Exec (Option Reference)) :=
    .pure h ⟨fun _ => rfl, fun _ hr => nomatch hr⟩
  refine Ends.get ?_
  cases hc : m.classes.load? bound.2 with
  | none => exact hnone
  | some c =>
    dsimp only
    cases c.instanceField? name with
    | none => exact hnone
    | some field =>
      have hholds : ∀ k ∈ (Value.host bound.1 bound.2).claims, m.store.Holds k :=
        fun k hk => Multiset.mem_singleton.1 hk ▸ hb
      refine (ends_copied h hholds).bind fun object m1 h1 _ =>
        .pure ?_ ⟨fun hr => absurd hr (Option.some_ne_none _), ?_⟩
      · simpa [Reference.claims, Reference.owned?] using h1.ready
      · rintro _ ⟨⟩
        show c ∈ m1.classes.records
        rw [h1.alike.classes]
        exact Classes.mem_of_load? hc

theorem ends_placeByFrame (name : String) (frames : List (ScopeId × Frame)) (h : m.Ready 0 r)
    (hp : ∀ e ∈ frames, m.store.Pinned r e.1)
    (hf : ∀ e ∈ frames, ∀ k ∈ e.2.claims, m.store.Holds k) :
    Ends r (fun found => found.elim 0 Reference.claims) m (Found r m) (placeByFrame name frames) := by
  induction frames with
  | nil => exact .pure h ⟨fun _ => rfl, fun _ hr => nomatch hr⟩
  | cons entry rest ih =>
    obtain ⟨id, f⟩ := entry
    have hrest := ih (fun e he => hp e (List.mem_cons_of_mem _ he))
      fun e he => hf e (List.mem_cons_of_mem _ he)
    unfold placeByFrame
    split
    · refine .pure h ⟨fun hr => absurd hr (Option.some_ne_none _), ?_⟩
      rintro _ ⟨⟩
      exact hp _ List.mem_cons_self
    · cases hb : f.bound with
      | none => exact hrest
      | some bound =>
        have hholds := hf _ List.mem_cons_self _ (Frame.mem_claims_of_bound hb)
        refine (ends_boundTarget name h hholds).bind fun found m1 h1 hfound => ?_
        cases found with
        | some ref => exact .pure h1.ready ⟨fun hr => absurd hr (Option.some_ne_none _), hfound.2⟩
        | none =>
          rw [hfound.1 rfl]
          exact hrest

theorem ends_placeInBound (name : String) (bounds : List (Nat × String)) (h : m.Ready 0 r)
    (hb : ∀ b ∈ bounds, m.store.Holds (.cell b.1)) :
    Ends r (fun found => found.elim 0 Reference.claims) m (Found r m) (placeInBound name bounds) := by
  induction bounds with
  | nil => exact .pure h ⟨fun _ => rfl, fun _ hr => nomatch hr⟩
  | cons bound rest ih =>
    refine (ends_boundTarget name h (hb bound List.mem_cons_self)).bind fun found m1 h1 hfound => ?_
    cases found with
    | some ref => exact .pure h1.ready ⟨fun hr => absurd hr (Option.some_ne_none _), hfound.2⟩
    | none =>
      rw [hfound.1 rfl]
      exact ih fun b hm => hb b (List.mem_cons_of_mem _ hm)

theorem ends_referenceTo (name : String) (h : m.Ready 0 r) (hs : m.store.Pinned r scope) :
    Ends r Reference.claims m (fun ref m' => ref.Rests r m') (referenceTo scope name) := by
  refine (ends_chain h hs).bind fun frames m1 h1 hchain => Ends.get ?_
  have hf := holds_of_lineage h1.ready hchain.1
  have hp : ∀ e ∈ frames, m1.store.Pinned r e.1 :=
    fun e he => (h1.pinned hs).above (hchain.1.mem he).2
  extract_lets rest
  have hrest : ∀ found m2, m1.Leaves r (found.elim 0 Reference.claims) m2 → Found r m1 found m2 →
      Ends r Reference.claims m2 (fun ref m' => ref.Rests r m') (rest found) := by
    intro found m2 h2 hfound
    cases found with
    | some ref => exact .pure h2.ready (hfound.2 ref rfl)
    | none =>
      -- a name that is found nowhere is to be a variable of the nearest home
      exact (ends_home h2.ready (h2.pinned (h1.pinned hs))).bind fun _ m3 h3 hhome =>
        .pure h3.ready hhome
  cases m1.config.order with
  | localThenBound => exact (ends_placeByFrame name frames h1.ready hp hf).bind hrest
  | chainThenBound =>
    cases hfind : frames.find? fun e => e.2.vars.contains name with
    | none => exact (ends_placeInBound name _ h1.ready (holds_bounds hf)).bind hrest
    | some entry =>
      refine hrest (some (.variable entry.1 name)) m1 (.refl h1.ready)
        ⟨fun hr => absurd hr (Option.some_ne_none _), ?_⟩
      rintro _ ⟨⟩
      exact hp entry (List.mem_of_find?_eq_some hfind)

theorem ends_memberReference {object : Value} (member : String) (h : m.Ready 0 r)
    (hobject : ∀ k ∈ object.claims, k ∈ r) :
    Ends r Reference.claims m (fun ref m' => ref.Rests r m') (memberReference object member) := by
  cases object with
  | object scope name =>
    exact ends_referenceTo member h (.held (hobject _ (Multiset.mem_singleton_self _)))
  | host cell className =>
    refine Ends.get ?_
    cases hc : m.classes.load? className with
    | none => exact .fault h _
    | some c =>
      have hholds : ∀ k ∈ (Value.host cell className).claims, m.store.Holds k :=
        fun k hk => h.holds (hobject k hk)
      refine (ends_copied h hholds).bind fun object m1 h1 _ => ?_
      have hready : m1.Ready (claimsOf [object]) r := by simpa using h1.ready
      have hclass : c ∈ m1.classes.records := h1.alike.classes ▸ Classes.mem_of_load? hc
      split
      · exact .pure hready hclass
      · exact .pure hready hclass
  | hostClass id name =>
    refine Ends.get ?_
    cases hc : m.classes.records[id]? with
    | none => exact .fault h _
    | some c => exact .pure h (Array.mem_of_getElem? hc)
  | primitive p => cases p <;> exact .fault h _
  | _ => exact .fault h _

theorem ends_unsetReference {ref : Reference} (otherwise : Fault) (h : m.Ready ref.claims r) :
    Owns r (fun _ => 0) m (unsetReference ref otherwise) := by
  rw [← zero_add ref.claims] at h
  refine Ends.usingReference h fun hlent => ?_
  split
  · exact (ends_through_changeFrame hlent (accounts_undefine _ _ 0)).bind
      fun _ m1 h1 _ => .pure h1.ready trivial
  · exact .fault hlent _

/-! ## Files -/

theorem ends_workingDirectory (h : m.Ready o r) : Owns r (fun _ => o) m workingDirectory :=
  ⟨h.settle.1, trivial⟩

theorem ends_resolvePath (path : String) (h : m.Ready o r) :
    Owns r (fun _ => o) m (resolvePath path) := by
  unfold resolvePath
  split
  · exact .pure h trivial
  · exact (ends_workingDirectory h).bind fun _ _ h1 _ => .pure h1.ready trivial

theorem ends_entryAt (path : String) (h : m.Ready 0 r) : Owns r (fun _ => 0) m (entryAt path) := by
  refine Ends.get ?_
  split
  · exact .throw h trivial
  · exact .pure h trivial

theorem ends_readFile (path : String) (h : m.Ready 0 r) : Owns r (fun _ => 0) m (readFile path) := by
  refine (ends_entryAt path h).bind fun entry m1 h1 _ => ?_
  cases entry with
  | file bytes =>
    dsimp only
    split
    · exact .pure h1.ready trivial
    · exact .throw h1.ready trivial
  | _ => exact .throw h1.ready trivial

/-! ## Calls without evaluation -/

theorem ends_textArgument (command : String) (args : List Value) (h : m.Ready 0 r) :
    Owns r (fun _ => 0) m (textArgument command args) := by
  unfold textArgument
  split
  · exact .pure h trivial
  · exact .fault h _
  · exact .fault h _

theorem ends_selectBound (name : String) (args : List Value) (bounds : List (Nat × String))
    (h : m.Ready 0 r) (hb : ∀ b ∈ bounds, m.store.Holds (.cell b.1)) :
    Ends r (fun found => found.elim 0 fun b => b.1.claims) m
      (fun found m' => ∀ b, found = some b → ∃ c ∈ m'.classes.records, b.2 ∈ c.methods)
      (selectBound name args bounds) := by
  induction bounds with
  | nil => exact .pure h fun _ hm => nomatch hm
  | cons bound rest ih =>
    have hrest := ih fun b hm => hb b (List.mem_cons_of_mem _ hm)
    refine Ends.get ?_
    cases hc : m.classes.load? bound.2 with
    | none => exact hrest
    | some c =>
      refine (ends_selectHost _ args h).bind fun found m1 h1 hfound => ?_
      obtain ⟨rfl, hfound⟩ := hfound
      cases found with
      | none => exact hrest
      | some method =>
        have hholds : ∀ k ∈ (Value.host bound.1 bound.2).claims, m1.store.Holds k :=
          fun k hk => Multiset.mem_singleton.1 hk ▸ hb bound List.mem_cons_self
        refine (ends_copied h hholds).bind fun object m2 h2 _ => .pure h2.ready ?_
        rintro _ ⟨⟩
        have hmem := (List.mem_filter.1 (hfound method rfl)).1
        exact ⟨c, h2.alike.classes ▸ Classes.mem_of_load? hc, (List.mem_filter.1 hmem).1⟩

theorem ends_callee? (name : String) (args : List Value) (h : m.Ready 0 r)
    (hs : m.store.Pinned r scope) : Ends r (fun found => found.elim 0 Callee.claims) m
      (fun found m' => ∀ c, found = some c → c.Fit scope m') (callee? scope name args) := by
  refine (ends_resolveMethod name args h hs).bind fun selected m1 h1 hselected => ?_
  have hs1 := h1.pinned hs
  cases selected with
  | some method => exact .pure h1.ready fun c hc => Option.some.inj hc ▸ hselected method rfl
  | none =>
    -- scripted methods come first, then bound objects, commands and the generic method
    refine (ends_chain h1.ready hs1).bind fun frames m2 h2 hchain => ?_
    have hbounds := holds_bounds (holds_of_lineage h2.ready hchain.1)
    refine (ends_selectBound name args _ h2.ready hbounds).bind fun bound m3 h3 hbound => ?_
    cases bound with
    | some b => exact .pure h3.ready fun c hc => Option.some.inj hc ▸ hbound b rfl
    | none =>
      cases Command.of? name args.length with
      | some c => exact .pure h3.ready fun c hc => Option.some.inj hc ▸ trivial
      | none =>
        refine (ends_methodByArity? h3.ready (h3.pinned (h2.pinned hs1)) "invoke" 2).bind
          fun generic m4 h4 hgeneric => ?_
        cases generic with
        | none => exact .pure h4.ready fun _ hc => nomatch hc
        | some method =>
          exact .pure h4.ready fun c hc => Option.some.inj hc ▸ hgeneric method rfl

end Exec

end HostScript
