import HostScript.Proofs.SafeCalls

/-!
# Names and places are safe

Reading a name, and reading and writing the place of a reference, given a safe evaluation. While a
reference is used, the object that it goes through is kept; the frame of a variable need not be, so this
is where a use can fail with the one internal error that there is.
-/

set_option autoImplicit false

namespace HostScript.Evaluator

open Exec Machine

variable {object value : Value} {c : HostClass} {ref : Reference}

/-- What a look for a name has shown is there, and no release is queued that could change it. -/
structure Shown (found : List Frame × Option Variable) (m : Machine) : Prop where
  frames : ∀ f ∈ found.1, ∀ k ∈ f.claims, m.store.Holds k
  ambient : ∀ v, found.2 = some v → ∀ k ∈ v.value.claims, m.store.Holds k
  settled : m.store.arena.dropped = []

variable [Holding] {ev : Evaluator} (hev : ev.Safe) {m : Machine} {o r : Multiset Claim} {scope : ScopeId}

include hev

/-! ## Values of names -/

/-- A bound object without such a field is left alone. -/
theorem ends_boundField (name : String) {bound : Nat × String} (h : m.Ready 0 r)
    (hb : m.store.Holds (.cell bound.1)) :
    Ends r (fun found => found.elim 0 Value.claims) m (fun found m' => found = none → m' = m)
      (ev.boundField name bound) := by
  have hnone : Ends r (fun found => found.elim 0 Value.claims) m
      (fun found m' => found = none → m' = m) (pure none : Exec (Option Value)) :=
    .pure h fun _ => rfl
  refine Ends.get ?_
  cases hc : m.classes.load? bound.2 with
  | none => exact hnone
  | some c =>
    dsimp only
    cases hf : c.instanceField? name with
    | none => exact hnone
    | some field =>
      have hholds : ∀ k ∈ (Value.host bound.1 bound.2).claims, m.store.Holds k :=
        fun k hk => Multiset.mem_singleton.1 hk ▸ hb
      refine (ends_copied h hholds).bind fun object m1 h1 _ => ?_
      refine Ends.bind (?_ : Owns r Value.claims m1 _) fun v m2 h2 _ =>
        .pure h2.ready fun hv => absurd hv (Option.some_ne_none _)
      refine Ends.holding h1.ready fun hlent => ?_
      have hhonest := (hlent.kept.classes c (h1.alike.classes ▸ Classes.mem_of_load? hc)).instanceField? hf
      refine ends_perform hev _ hlent (hhonest.read (some object)) fun k hk => ?_
      exact Multiset.mem_add.2 (.inl (by simpa using hk))

theorem ends_valueByFrame (name : String) (frames : List Frame) (h : m.Ready 0 r)
    (hf : ∀ f ∈ frames, ∀ k ∈ f.claims, m.store.Holds k) :
    Ends r (fun found => found.elim 0 Value.claims) m (fun found m' => found = none → m' = m)
      (ev.valueByFrame name frames) := by
  induction frames with
  | nil => exact .pure h fun _ => rfl
  | cons f rest ih =>
    have hrest := ih fun g hg => hf g (List.mem_cons_of_mem _ hg)
    have hhere := hf f List.mem_cons_self
    unfold valueByFrame
    cases hv : f.vars.get? name with
    | some v =>
      exact (ends_copied h fun k hk => hhere k (Frame.mem_claims_of_variable hv hk)).bind
        fun w m1 h1 _ => .pure h1.ready fun hw => absurd hw (Option.some_ne_none _)
    | none =>
      cases hb : f.bound with
      | none => exact hrest
      | some bound =>
        refine (ends_boundField hev name h (hhere _ (Frame.mem_claims_of_bound hb))).bind
          fun found m1 h1 hfound => ?_
        cases found with
        | some v => exact .pure h1.ready fun hv => absurd hv (Option.some_ne_none _)
        | none =>
          rw [hfound rfl]
          exact hrest

theorem ends_valueInBound (name : String) (bounds : List (Nat × String)) (h : m.Ready 0 r)
    (hb : ∀ b ∈ bounds, m.store.Holds (.cell b.1)) :
    Ends r (fun found => found.elim 0 Value.claims) m (fun found m' => found = none → m' = m)
      (ev.valueInBound name bounds) := by
  induction bounds with
  | nil => exact .pure h fun _ => rfl
  | cons bound rest ih =>
    refine (ends_boundField hev name h (hb bound List.mem_cons_self)).bind fun found m1 h1 hfound => ?_
    cases found with
    | some v => exact .pure h1.ready fun hv => absurd hv (Option.some_ne_none _)
    | none =>
      rw [hfound rfl]
      exact ih fun b hm => hb b (List.mem_cons_of_mem _ hm)

theorem ends_valueOf? (name : String) (h : m.Ready 0 r) (hs : m.store.Pinned r scope) :
    Owns r (fun found => found.elim 0 Value.claims) m (ev.valueOf? scope name) := by
  refine Ends.get (Ends.bind (?_ : Ends r (fun _ => 0) m Shown _) fun found m1 h1 hshown => ?_)
  · refine ends_look h fun m1 h1 _ hq => ?_
    obtain ⟨frames, hlin⟩ := h1.ready.lineage (h1.pinned hs)
    obtain ⟨u, hu⟩ := Arena.live_iff.1 (h1.ready.live (h1.pinned h.kept.utilities))
    refine ⟨(frames.map Prod.snd, u.vars.get? name), ?_, fun f hf => ?_, fun v hv k hk => ?_, hq⟩
    · rw [Arena.chain_eq_of_lineage hlin]
      simp only [bind, Except.bind, hu]
      rfl
    · obtain ⟨e, he, rfl⟩ := List.mem_map.1 hf
      exact holds_of_lineage h1.ready hlin e he
    · exact h1.ready.sound.holds_of_frame hu (Frame.mem_claims_of_variable hv hk)
  · obtain ⟨frames, ambient⟩ := found
    dsimp -zeta only
    extract_lets rest
    have hrest : ∀ found m2, m1.Leaves r (found.elim 0 Value.claims) m2 →
        (found = none → m2 = m1) → Owns r (fun found => found.elim 0 Value.claims) m2 (rest found) := by
      intro found m2 h2 hfound
      cases found with
      | some v => exact .pure h2.ready trivial
      | none =>
        -- nothing was found so far, and so nothing has changed since the look
        rw [hfound rfl]
        refine (ends_lookupClass h1.ready (h1.pinned hs) name).bind fun c m3 h3 hc => ?_
        cases c with
        | some c => exact .pure h3.ready trivial
        | none =>
          have hsame : m3 = m1 := hc.2 hshown.settled
          subst hsame
          cases hv : ambient with
          | none => exact .pure h1.ready trivial
          | some v =>
            exact (ends_copied h1.ready (hshown.ambient v hv)).bind fun w m4 h4 _ =>
              .pure h4.ready trivial
    cases m.config.order with
    | localThenBound => exact (ends_valueByFrame hev name frames h1.ready hshown.frames).bind hrest
    | chainThenBound =>
      cases hv : frames.findSome? fun f => f.vars.get? name with
      | some v =>
        obtain ⟨f, hf, hget⟩ := List.exists_of_findSome?_eq_some hv
        refine (ends_copied h1.ready fun k hk =>
          hshown.frames f hf k (Frame.mem_claims_of_variable hget hk)).bind fun w m2 h2 _ => ?_
        exact hrest (some w) m2 h2 fun hw => absurd hw (Option.some_ne_none _)
      | none =>
        refine (ends_valueInBound hev name _ h1.ready fun b hb => ?_).bind hrest
        obtain ⟨f, hf, hbound⟩ := List.mem_filterMap.1 hb
        exact hshown.frames f hf _ (Frame.mem_claims_of_bound hbound)

/-! ## References -/

/-- Reading a place, while the object that the reference goes through is kept. -/
theorem ends_read (href : ref.Of m.classes) (h : m.Ready 0 r) (hkept : ∀ k ∈ ref.claims, k ∈ r) :
    Owns r Value.claims m (ev.read ref) := by
  unfold read
  split
  · refine (ends_through_frame h).bind fun f m1 h1 hf => ?_
    split
    · rename_i v hv
      -- nothing is queued, so the frame that was looked at is the one in the store
      refine (ends_copied h1.ready fun k hk => ?_).imp fun _ _ _ _ => trivial
      exact h1.ready.sound.holds_of_frame hf.1 (Frame.mem_claims_of_variable hv hk)
    · exact .fault h1.ready _
  · rename_i object c name
    split
    · rename_i field hfield
      refine ends_perform hev _ h (((h.kept.classes c href).field? hfield).read (some object)) ?_
      rwa [List.append_nil]
    · exact .fault h _
  · rename_i c name
    split
    · rename_i field hfield
      exact ends_perform hev _ h (((h.kept.classes c href).field? hfield).read none) hkept
    · exact .fault h _
  · refine Ends.get ?_
    dsimp only
    split
    · rename_i v hv
      exact (ends_copied h (h.holds_item hv)).imp fun _ _ _ _ => trivial
    · exact .fault h _
  · rename_i object c name
    split
    · rename_i method hmethod
      refine ends_callHost hev ((h.kept.classes c href).methods method ?_) h (by rwa [List.append_nil])
      obtain ⟨_, _, hfind⟩ := List.exists_of_findSome?_eq_some hmethod
      exact List.mem_of_find?_eq_some hfind
    · exact .fault h _

theorem ends_writeField (name : String) {receiver : Option Value}
    {write : Option Value → Value → Action} (h : m.Ready 0 r)
    (hwrite : (write receiver value).Honest (givenBy r receiver [value]))
    (hgiven : ∀ k ∈ claimsOf (receiver.toList ++ [value]), k ∈ r) :
    Owns r (fun _ => 0) m (ev.writeField name receiver value write) := by
  exact (ends_perform hev _ h hwrite hgiven).bind fun v m1 h1 _ => ends_dropLast h1.ready

omit hev in
/-- A variable is written in its declared type, and the place keeps a copy of its own. -/
theorem ends_assign_variable [Trust] (id : ScopeId) (name : String) (h : m.Ready value.claims r) :
    Owns r Value.claims m (ev.assign (.variable id name) value) := by
  rw [← zero_add value.claims] at h
  -- nothing is known of the frame: if it is gone, this fails as it is permitted to
  refine (Ends.unlessFailed h fun hlent => ends_through_frame hlent).bind fun f m1 h1 _ => ?_
  have hready1 := h1.ready
  rw [zero_add] at hready1
  extract_lets declared rest
  have hrest : ∀ stored m2, m2.Ready stored.claims r → Owns r Value.claims m2 (rest stored) := by
    intro stored m2 h2
    refine (ends_copy h2 fun k hk => h2.holds_owned hk).bind fun kept m3 h3 hkept => ?_
    subst hkept
    refine (Ends.unlessFailed h3.ready fun hlent => ends_through_define hlent).bind
      fun _ m4 h4 _ => .pure ?_ trivial
    have hready4 := h4.ready
    rwa [zero_add] at hready4
  clear_value declared
  cases declared with
  | some type =>
    exact (ends_coerce type .storing hready1).bind fun stored m2 h2 _ => hrest stored m2 h2.ready
  | none => exact hrest value m1 hready1

theorem ends_assign_field (name : String) (hc : c ∈ m.classes.records) (h : m.Ready value.claims r)
    (hobject : ∀ k ∈ object.claims, k ∈ r) :
    Owns r Value.claims m (ev.assign (.field object c name) value) := by
  refine Ends.givingBack h fun hlent => ?_
  split
  · rename_i write hwrite
    obtain ⟨field, hfield, hfw⟩ := Option.bind_eq_some_iff.1 hwrite
    have hhonest := ((hlent.kept.classes c hc).field? hfield).write write hfw (some object) value
    refine (ends_writeField hev name hlent hhonest fun k hk => ?_).bind fun _ m1 h1 _ =>
      .pure h1.ready ⟨rfl, trivial⟩
    simp only [Option.toList_some, List.singleton_append, claimsOf_cons, claimsOf_nil, add_zero,
      Multiset.mem_add] at hk ⊢
    exact hk.symm.imp id (hobject k)
  · exact .fault hlent _

theorem ends_assign_staticField (name : String) (hc : c ∈ m.classes.records) (h : m.Ready value.claims r) :
    Owns r Value.claims m (ev.assign (.staticField c name) value) := by
  refine Ends.givingBack h fun hlent => ?_
  split
  · rename_i write hwrite
    obtain ⟨field, hfield, hfw⟩ := Option.bind_eq_some_iff.1 hwrite
    have hfield := (Option.filter_eq_some_iff.1 hfield).1
    have hhonest := ((hlent.kept.classes c hc).field? hfield).write write hfw none value
    refine (ends_writeField hev name hlent hhonest fun k hk => ?_).bind fun _ m1 h1 _ =>
      .pure h1.ready ⟨rfl, trivial⟩
    exact Multiset.mem_add.2 (.inl (by simpa using hk))
  · exact .fault hlent _

omit hev in
theorem ends_assign_element (cell : Nat) (element : ValueType) (index : Nat)
    (h : m.Ready value.claims r) :
    Owns r Value.claims m (ev.assign (.element cell element index) value) := by
  refine (ends_coerce element .storing h).bind fun stored m1 h1 _ => Ends.get ?_
  dsimp only
  split
  · rename_i old hold
    have hcopy : Ends r (fun w => w.claims + stored.claims) m1
        (fun w m' => w = stored ∧ m' = m1.retain stored) (copy stored) :=
      ⟨h1.ready.retain fun k hk => h1.ready.holds_owned hk, rfl, rfl⟩
    refine hcopy.bind fun kept m2 h2 hkept => ?_
    obtain ⟨rfl, rfl⟩ := hkept
    -- copying the value has not touched the array
    have hset := h2.ready.setItem (items_retain kept hold)
    exact (ends_modify (hset.trans hset.ready.drop)).bind fun _ m3 h3 _ => .pure h3.ready trivial
  · exact ends_refuse h1.ready _

theorem ends_assign_property (name : String) (hc : c ∈ m.classes.records) (h : m.Ready value.claims r)
    (hobject : ∀ k ∈ object.claims, k ∈ r) :
    Owns r Value.claims m (ev.assign (.property object c name) value) := by
  refine Ends.givingBack h fun hlent => ?_
  refine (ends_selectHost _ [value] hlent).bind fun setter m1 h1 hsetter => ?_
  cases setter with
  | none => exact .fault h1.ready _
  | some setter =>
    have hmem := (List.mem_filter.1 (hsetter.2 setter rfl)).1
    have hreceiver : ∀ k ∈ claimsOf (some object).toList, k ∈ value.claims + r :=
      fun k hk => Multiset.mem_add.2 (.inr (hobject k (by simpa using hk)))
    have hargs : ∀ k ∈ claimsOf [value], k ∈ value.claims + r :=
      fun k hk => Multiset.mem_add.2 (.inl (by simpa using hk))
    refine (ends_callConverted hev (h1.alike.classes ▸ hc) (.inr (List.mem_filter.1 hmem).1) h1.ready hreceiver
      hargs).bind fun v m2 h2 _ => ?_
    exact (ends_dropLast h2.ready).bind fun _ m3 h3 _ => .pure h3.ready ⟨rfl, trivial⟩

/-- Writing a place with a value that is owned; the value is what is given back. -/
theorem ends_assign (href : ref.Of m.classes) (h : m.Ready value.claims r)
    (hkept : ∀ k ∈ ref.claims, k ∈ r) :
    Owns r Value.claims m (ev.assign ref value) := by
  cases ref with
  | field object c name =>
    exact ends_assign_field hev name href h (by simpa [Reference.claims, Reference.owned?] using hkept)
  | staticField c name => exact ends_assign_staticField hev name href h
  | element cell element index => exact ends_assign_element cell element index h
  | property object c name =>
    exact ends_assign_property hev name href h (by simpa [Reference.claims, Reference.owned?] using hkept)
  | _ id name => exact ends_assign_variable id name h

theorem ends_readMember (member : String) (h : m.Ready 0 r) (hobject : ∀ k ∈ object.claims, k ∈ r) :
    Owns r Value.claims m (ev.readMember object member) := by
  unfold readMember
  split
  · exact Ends.get (.pure h trivial)
  · refine (ends_valueOf? hev member h (.held (hobject _ (Multiset.mem_singleton_self _)))).bind
      fun found m1 h1 _ => ?_
    cases found with
    | some v => exact .pure h1.ready trivial
    | none => exact .fault h1.ready _
  · refine (ends_memberReference member h hobject).bind fun ref m1 h1 href => ?_
    have hready1 := h1.ready
    rw [← zero_add ref.claims] at hready1
    exact Ends.usingReference hready1 fun hlent => ends_read hev href.of hlent
      fun k hk => Multiset.mem_add.2 (.inl hk)

end HostScript.Evaluator
