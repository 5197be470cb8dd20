import HostScript.Proofs.FrameBindings

/-!
# Assigning to a name

An assignment to a variable binds it to what is stored, and changes no other binding of a frame
(`Evaluator.assign_of_frame`). A name is found anew in the variable that was written through it
(`Site.find?_written`), since the lineage is the same, up to owners and to what was written
(`lineage_written`).
-/

set_option autoImplicit false

namespace HostScript

open Exec Machine

variable {m m1 m2 : Machine} {r : Multiset Claim} {scope id : ScopeId} {name : String}
  {v s : Value} {f : Frame}

theorem Table.get?_insert {α : Type} (t : Table α) (name : String) (e : α) :
    (t.insert name e).get? name = some e := by
  obtain ⟨entries⟩ := t
  show (Table.put name e entries).lookup name = some e
  induction entries with
  | nil => exact List.lookup_cons_self
  | cons entry rest ih =>
    unfold Table.put
    split
    · rename_i hkey
      rw [List.lookup_cons, hkey]
    · rename_i hkey
      rw [List.lookup_cons, Bool.eq_false_iff.2 hkey]
      exact ih

theorem Frame.bindings_setVariable (f : Frame) (name : String) (v : Variable) :
    (f.setVariable name v).bindings = f.bindings.setVariable name v := rfl

/-! ## Sites after a variable was written -/

namespace Site

variable {w : Variable} {cs : Classes} {frames : List (ScopeId × Frame)}

/-- A frame of a lineage with a variable of one of the frames written. -/
def written (id : ScopeId) (name : String) (w : Variable) (e : ScopeId × Frame) : ScopeId × Frame :=
  (e.1, if e.1 = id then e.2.setVariable name w else e.2)

/-- A frame of a lineage without its count of owners. -/
def uncounted (e : ScopeId × Frame) : ScopeId × Frame := (e.1, e.2.bindings)

/-- Owners are no matter of names. -/
theorem find?_uncounted (order : NameOrder) (cs : Classes) (name : String)
    (frames : List (ScopeId × Frame)) :
    find? order cs name (frames.map uncounted) = find? order cs name frames := by
  cases order with
  | localThenBound => exact List.findSome?_map
  | chainThenBound =>
    unfold find?
    dsimp only
    rw [List.findSome?_map, List.findSome?_map]
    rfl

/-- The name leads to a variable of a frame: to the first site, or to a new variable if there is no site
at all. -/
def LeadsTo (found : Option Site) (frames : List (ScopeId × Frame)) (id : ScopeId) : Prop :=
  (∃ v, found = some (.frame id v)) ∨ (found = none ∧ ∃ e ∈ frames, e.1 = id)

/-- What was written is hit first, when it is where the search has ended before. -/
theorem findSome?_written {hit : ScopeId × Frame → Option Site}
    (hhere : ∀ f : Frame, hit (id, f.setVariable name w) = some (.frame id w))
    (hthere : ∀ e v, hit e = some (.frame id v) → e.1 = id)
    (h : LeadsTo (frames.findSome? hit) frames id) :
    (frames.map (written id name w)).findSome? hit = some (.frame id w) := by
  induction frames with
  | nil =>
    rcases h with ⟨v, hv⟩ | ⟨-, e, he, -⟩
    · cases hv
    · exact absurd he List.not_mem_nil
  | cons e rest ih =>
    obtain ⟨k, f⟩ := e
    rw [List.map_cons, List.findSome?_cons]
    by_cases hk : k = id
    · subst hk
      have hhit : hit (written k name w (k, f)) = some (.frame k w) := by
        unfold written
        rw [if_pos rfl]
        exact hhere f
      rw [hhit]
    · -- a hit in another frame would have ended the search there
      have hsame : written id name w (k, f) = (k, f) := by
        unfold written
        rw [if_neg hk]
      rw [hsame]
      rw [List.findSome?_cons] at h
      cases hhit : hit (k, f) with
      | some s =>
        rw [hhit] at h
        rcases h with ⟨v, hv⟩ | ⟨hn, -⟩
        · rw [Option.some.inj hv] at hhit
          exact absurd (hthere _ _ hhit) hk
        · cases hn
      | none =>
        rw [hhit] at h
        refine ih (h.imp_right fun hn => ⟨hn.1, ?_⟩)
        obtain ⟨e, he, hid⟩ := hn.2
        rcases List.mem_cons.1 he with rfl | he
        · exact absurd hid hk
        · exact ⟨e, he, hid⟩

theorem local?_setVariable (id : ScopeId) (f : Frame) (name : String) (w : Variable) :
    local? name (id, f.setVariable name w) = some (.frame id w) :=
  local?_of_some (f.vars.get?_insert name w)

/-- **A name leads to the variable that was written through it**, in either order. -/
theorem find?_written {order : NameOrder} (h : LeadsTo (find? order cs name frames) frames id) :
    find? order cs name (frames.map (written id name w)) = some (.frame id w) := by
  cases order with
  | localThenBound =>
    refine findSome?_written (fun f => ?_) (fun e v he => ?_) h
    · rw [local?_setVariable, Option.some_or]
    · rcases Option.or_eq_some_iff.1 he with he | ⟨-, he⟩
      · exact (get?_of_local? he).1
      · exact absurd he bound?_ne_frame
  | chainThenBound =>
    unfold find? at h ⊢
    rw [findSome?_written (fun f => local?_setVariable id f name w)
      (fun e v he => (get?_of_local? he).1) ?_, Option.some_or]
    -- the variables decide, since a bound object has none
    rcases h with ⟨v, hv⟩ | ⟨hn, hid⟩
    · rcases Option.or_eq_some_iff.1 hv with hv | ⟨-, hv⟩
      · exact .inl ⟨v, hv⟩
      · obtain ⟨e, -, he⟩ := List.exists_of_findSome?_eq_some hv
        exact absurd he bound?_ne_frame
    · exact .inr ⟨(Option.or_eq_none_iff.1 hn).1, hid⟩

end Site

open Site

/-! ## Writing a variable -/

/-- The frame of a variable binds it to what it is defined as, and nothing else changes. -/
theorem define_of_frame (name : String) (v : Value) (declared : Option ValueType)
    (hf : m.settle.store.arena.frame? id = some f) :
    ∃ m', define id name v declared m = .ok () m' ∧ m'.store.arena.bindings =
      Function.update m.settle.store.arena.bindings id
        (some (f.setVariable name ⟨v, declared⟩).bindings) := by
  refine ⟨_, unlessFailed_of_ok (changeFrame_of_frame hf), ?_⟩
  have hwritten := Arena.bindings_setFrame (Arena.live_of_frame? hf) (f.setVariable name ⟨v, declared⟩)
  cases f.vars.get? name with
  | none => exact hwritten
  | some old => exact (bindings_drop _ old.value).trans hwritten

namespace Evaluator

variable (ev : Evaluator)

/-- With nothing queued, a look at a frame changes nothing. -/
theorem throughFrame_of_settled (hq : m.store.arena.dropped = [])
    (hf : m.store.arena.frame? id = some f) : throughReference (frame id) m = .ok f m := by
  have hs := settle_of_settled hq
  have hlook : throughReference (frame id) m = .ok f m.settle :=
    throughFrame_of_live (by rw [hs]; exact hf)
  rwa [hs] at hlook

/-- The last steps of an assignment to a variable: the place keeps a copy of what was stored. -/
theorem store_kept (name : String) (declared : Option ValueType) (hf : m.store.arena.frame? id = some f)
    (hb : (m1.retain s).settle.store.arena.bindings = m.store.arena.bindings) :
    ∃ m2, (do
      let kept ← copy s
      unlessFailed s (throughReference (define id name kept declared))
      return s : Exec Value) m1 = .ok s m2 ∧ m2.store.arena.bindings =
        Function.update m.store.arena.bindings id (some (f.setVariable name ⟨s, declared⟩).bindings) := by
  have hlive := Arena.bindings_of_frame? hf
  rw [← hb] at hlive
  obtain ⟨g, hg, hgf⟩ := Arena.exists_frame?_of_bindings hlive
  obtain ⟨m2, hdefined, hb2⟩ := define_of_frame name s declared hg
  refine ⟨m2, ?_, ?_⟩
  · have hcopy : copy s m1 = .ok s (m1.retain s) := rfl
    have hthrough : throughReference (define id name s declared) (m1.retain s) = .ok () m2 := by
      unfold throughReference mapFailure
      rw [hdefined]
    exact (bind_of_ok hcopy).trans (bind_of_ok (unlessFailed_of_ok hthrough))
  · rw [hb2, hb, Frame.bindings_setVariable, hgf]
    rfl

/-- An assignment to a variable of a live frame writes the variable and nothing else, or it fails and
writes nothing; it does not fail if the variable has no declared type. -/
theorem assign_of_frame [Trust] (name : String) (h : m.Ready v.claims r) (hq : m.store.arena.dropped = [])
    (hf : m.store.arena.frame? id = some f) :
    (∃ s m2, ev.assign (.variable id name) v m = .ok s m2 ∧
      m2.store.arena.bindings = Function.update m.store.arena.bindings id
        (some (f.setVariable name ⟨s, (f.vars.get? name).bind Variable.declared⟩).bindings) ∧
      ((f.vars.get? name).bind Variable.declared = none → s = v)) ∨
    ∃ e m2, ev.assign (.variable id name) v m = .error e m2 ∧
      m2.store.arena.bindings = m.store.arena.bindings ∧
      (f.vars.get? name).bind Variable.declared ≠ none := by
  have hs := settle_of_settled hq
  have hframe := throughFrame_of_settled hq hf
  have hassign : ev.assign (.variable id name) v m = _ := bind_of_ok (unlessFailed_of_ok hframe)
  rw [hassign]
  cases hd : (f.vars.get? name).bind Variable.declared with
  | none =>
    have hcopied : (m.retain v).settle.store.arena.bindings = m.store.arena.bindings := by
      rw [settle_of_settled ((dropped_retain m v).trans hq)]
      exact m.bindings_retain v
    obtain ⟨m2, hstored, hb⟩ := store_kept name none hf hcopied
    exact .inl ⟨v, m2, hstored, hb, fun _ => rfl⟩
  | some type =>
    cases hc : coerce type v .storing m with
    | error e m1 =>
      exact .inr ⟨e, m1, bind_of_error hc, bindings_coerce_error hq hc, Option.some_ne_none _⟩
    | ok s m1 =>
      obtain ⟨m2, hstored, hb⟩ := store_kept name (some type) hf (bindings_coerce h hq hc)
      exact .inl ⟨s, m2, (bind_of_ok hc).trans hstored, hb, fun hn => absurd hn (Option.some_ne_none _)⟩

end Evaluator

/-! ## The variable that a name leads to -/

section

variable {o : Multiset Claim} {frames : List (ScopeId × Frame)} {w : Variable} {cs : Classes}
  {order : NameOrder}

/-- What an assignment to a name reaches: a variable that the name leads to, or a field of a bound
object. -/
theorem referenceTo_of_lineage [Trust] (name : String) (h : m.Ready o r)
    (hlin : m.settle.store.arena.Lineage scope frames) :
    (∃ id, referenceTo scope name m = .ok (.variable id name) m.settle ∧
      LeadsTo (find? m.config.order m.classes name frames) frames id) ∨
    ∃ bound c f, referenceTo scope name m = .ok (.field (.host bound.1 bound.2) c name)
        (m.settle.retain (.host bound.1 bound.2)) ∧
      find? m.config.order m.classes name frames = some (.object bound c f) := by
  rw [referenceTo_eq name (Arena.chain_eq_of_lineage hlin)]
  cases find? m.config.order m.classes name frames with
  | some s =>
    cases s with
    | frame id v => exact .inl ⟨id, rfl, .inl ⟨v, rfl⟩⟩
    | object bound c f => exact .inr ⟨bound, c, f, rfl, rfl⟩
  | none =>
    -- the nearest home is a frame of the lineage
    obtain ⟨e, he, hhome⟩ := hlin.homeFrom_ok (m.settle.store.arena.slots.size + 1)
      (by have := hlin.length_le; omega)
    have hsettled := settle_of_settled h.settle.2
    have hlook : look (fun arena => arena.home scope) m.settle = .ok e.1 m.settle.settle := by
      refine look_of_ok ?_
      rw [hsettled]
      exact hhome
    rw [hsettled] at hlook
    exact .inl ⟨e.1, bind_of_ok hlook, .inr ⟨rfl, e, he, rfl⟩⟩

/-- What is found first is found in one of the frames. -/
theorem exists_of_find?_frame (h : find? order cs name frames = some (.frame id w)) :
    ∃ e ∈ frames, e.1 = id ∧ e.2.vars.get? name = some w := by
  cases order with
  | localThenBound =>
    obtain ⟨e, he, hhit⟩ := List.exists_of_findSome?_eq_some h
    rcases Option.or_eq_some_iff.1 hhit with hhit | ⟨-, hhit⟩
    · exact ⟨e, he, get?_of_local? hhit⟩
    · exact absurd hhit bound?_ne_frame
  | chainThenBound =>
    rcases Option.or_eq_some_iff.1 h with h | ⟨-, h⟩
    · obtain ⟨e, he, hhit⟩ := List.exists_of_findSome?_eq_some h
      exact ⟨e, he, get?_of_local? hhit⟩
    · obtain ⟨e, -, hhit⟩ := List.exists_of_findSome?_eq_some h
      exact absurd hhit bound?_ne_frame

/-- A name without a site is the name of no variable of the frames. -/
theorem get?_of_find?_none (h : find? order cs name frames = none) :
    ∀ e ∈ frames, e.2.vars.get? name = none := by
  intro e he
  have hlocal : local? name e = none := by
    cases order with
    | localThenBound =>
      exact (Option.or_eq_none_iff.1 (List.findSome?_eq_none_iff.1 h e he)).1
    | chainThenBound => exact List.findSome?_eq_none_iff.1 (Option.or_eq_none_iff.1 h).1 e he
  exact Option.map_eq_none_iff.1 hlocal

theorem exists_of_leadsTo (h : LeadsTo (find? order cs name frames) frames id) :
    ∃ e ∈ frames, e.1 = id := by
  rcases h with ⟨v, hv⟩ | ⟨-, e, he, hid⟩
  · obtain ⟨e, he, hid, -⟩ := exists_of_find?_frame hv
    exact ⟨e, he, hid⟩
  · exact ⟨e, he, hid⟩

/-- The lineage of a frame, from one arena to another in which a variable is written. -/
theorem lineage_written {a b : Arena} {l l' : List (ScopeId × Frame)} (hl : a.Lineage scope l)
    (hl' : b.Lineage scope l')
    (h : ∀ k f g, a.frame? k = some f → b.frame? k = some g →
      g.bindings = (Site.written id name w (k, f)).2.bindings) :
    l'.map uncounted = (l.map (Site.written id name w)).map uncounted := by
  have hparent : ∀ k f, (Site.written id name w (k, f)).2.bindings.parent = f.parent := by
    intro k f
    unfold Site.written
    split <;> rfl
  induction hl generalizing l' with
  | @root k f hf hp =>
    cases hl' with
    | @root _ g hg _ => exact congrArg (fun g => [(k, g)]) (h k f g hf hg)
    | @child _ p g _ hg hgp _ =>
      have hsame := congrArg Frame.parent (h k f g hf hg)
      rw [hparent, hp] at hsame
      exact absurd (hgp.symm.trans hsame) (Option.some_ne_none p)
  | @child k p f l hf hp _ ih =>
    cases hl' with
    | @root _ g hg hgp =>
      have hsame := congrArg Frame.parent (h k f g hf hg)
      rw [hparent, hp] at hsame
      exact absurd (hsame.symm.trans hgp) (Option.some_ne_none p)
    | @child _ q g l' hg hgp hl' =>
      have hsame := congrArg Frame.parent (h k f g hf hg)
      rw [hparent, hp] at hsame
      have hqp : q = p := Option.some.inj (hgp.symm.trans hsame)
      subst hqp
      have hhead : uncounted (k, g) = uncounted (Site.written id name w (k, f)) :=
        congrArg (fun g => (k, g)) (h k f g hf hg)
      rw [List.map_cons, List.map_cons, List.map_cons, hhead, ih hl']

end

end HostScript
