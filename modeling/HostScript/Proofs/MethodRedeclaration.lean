import HostScript.Proofs.AdapterOverloads
import HostScript.Proofs.NameAgreement

/-!
# Methods declared again

A declaration takes the place of the overload that writes the same parameter types. Which overload a call runs
is a matter of what the types mean, not of how they are written, and of two overloads that mean the same types
the first one runs. So the body that runs is the last one declared in the spelling that came in first
(`first_spelling_runs`).

A history (`MethodHistory`) is the list of all changes to the methods of a frame, the latest first. The
overloads are a function of it (`MethodHistory.overloads_eq`).
-/

set_option autoImplicit false

namespace HostScript

open Exec Machine

variable {α : Type} {name : String} {m : Machine}

/-! ## Overloads of a run of declarations -/

/-- The parameter types of a method as they are written. -/
def ScriptMethod.spelling (method : ScriptMethod) : List (Option TypeName) := method.params.map (·.type)

/-- The overloads after some declarations, the latest of which is given first. -/
def overloadsAfter (declared : List ScriptMethod) : List ScriptMethod := declared.foldr Frame.declareIn []

/-- A declaration after which its spelling was not declared again. -/
def Latest (declared : List ScriptMethod) (method : ScriptMethod) : Prop :=
  ∃ later earlier, declared = later ++ method :: earlier ∧ ∀ d ∈ later, d.spelling ≠ method.spelling

/-- Of two spellings, the first was declared at a time when the second had not been. The latest is given
first. -/
def CameBefore (spellings : List (List (Option TypeName))) (a b : List (Option TypeName)) : Prop :=
  ∃ later earlier, spellings = later ++ a :: earlier ∧ b ∉ a :: earlier

section Declarations

variable {declared l : List ScriptMethod} {d method : ScriptMethod} {a b : List (Option TypeName)}
  {spellings : List (List (Option TypeName))}

theorem ScriptMethod.sameSignature_iff {a b : ScriptMethod} :
    a.sameSignature b = true ↔ a.spelling = b.spelling :=
  beq_iff_eq

theorem latest_cons :
    Latest (d :: declared) method ↔ method = d ∨ d.spelling ≠ method.spelling ∧ Latest declared method := by
  constructor
  · rintro ⟨later, earlier, hsplit, hlater⟩
    cases later with
    | nil =>
      injection hsplit with hd _
      exact .inl hd.symm
    | cons e later =>
      injection hsplit with hd hrest
      subst hd
      exact .inr ⟨hlater d List.mem_cons_self, later, earlier, hrest, fun e he =>
        hlater e (List.mem_cons_of_mem _ he)⟩
  · rintro (rfl | ⟨hd, later, earlier, rfl, hlater⟩)
    · exact ⟨[], declared, rfl, fun _ he => absurd he List.not_mem_nil⟩
    · exact ⟨d :: later, earlier, rfl, List.forall_mem_cons.2 ⟨hd, hlater⟩⟩

theorem CameBefore.ne (h : CameBefore spellings a b) : a ≠ b := by
  obtain ⟨later, earlier, -, hb⟩ := h
  rintro rfl
  exact hb List.mem_cons_self

theorem CameBefore.cons (h : CameBefore spellings a b) (c : List (Option TypeName)) :
    CameBefore (c :: spellings) a b := by
  obtain ⟨later, earlier, rfl, hb⟩ := h
  exact ⟨c :: later, earlier, rfl, hb⟩

/-- A declaration takes the place of the overload that is spelled like it, or goes to the end. -/
theorem declareIn_cases (method : ScriptMethod) (l : List ScriptMethod) :
    (∃ before old after, l = before ++ old :: after ∧ old.spelling = method.spelling ∧
      (∀ e ∈ before, e.spelling ≠ method.spelling) ∧
        Frame.declareIn method l = before ++ method :: after) ∨
    ((∀ e ∈ l, e.spelling ≠ method.spelling) ∧ Frame.declareIn method l = l ++ [method]) := by
  induction l with
  | nil => exact .inr ⟨fun _ he => absurd he List.not_mem_nil, rfl⟩
  | cons first rest ih =>
    unfold Frame.declareIn
    by_cases hsame : first.spelling = method.spelling
    · rw [if_pos (ScriptMethod.sameSignature_iff.2 hsame)]
      exact .inl ⟨[], first, rest, rfl, hsame, fun _ he => absurd he List.not_mem_nil, rfl⟩
    · rw [if_neg (mt ScriptMethod.sameSignature_iff.1 hsame)]
      rcases ih with ⟨before, old, after, rfl, hold, hbefore, hput⟩ | ⟨hnew, hput⟩
      · refine .inl ⟨first :: before, old, after, rfl, hold, List.forall_mem_cons.2 ⟨hsame, hbefore⟩, ?_⟩
        rw [hput, List.cons_append]
      · refine .inr ⟨List.forall_mem_cons.2 ⟨hsame, hnew⟩, ?_⟩
        rw [hput, List.cons_append]

/-- Every spelling that was declared has an overload, and no other has. -/
theorem mem_spellings :
    a ∈ (overloadsAfter declared).map ScriptMethod.spelling ↔ a ∈ declared.map ScriptMethod.spelling := by
  induction declared with
  | nil => rfl
  | cons d declared ih =>
    rw [List.map_cons, List.mem_cons, ← ih]
    rcases declareIn_cases d (overloadsAfter declared) with
      ⟨before, old, after, hl, hold, -, hput⟩ | ⟨-, hput⟩
    · rw [overloadsAfter, List.foldr_cons, ← overloadsAfter, hput, hl]
      simp only [List.map_append, List.map_cons, List.mem_append, List.mem_cons, hold]
      tauto
    · rw [overloadsAfter, List.foldr_cons, ← overloadsAfter, hput]
      simp only [List.map_append, List.map_cons, List.map_nil, List.mem_append, List.mem_singleton]
      tauto

/-- Overloads stand in the order in which their spellings came in. -/
theorem pairwise_cameBefore (declared : List ScriptMethod) :
    ((overloadsAfter declared).map ScriptMethod.spelling).Pairwise
      (CameBefore (declared.map ScriptMethod.spelling)) := by
  induction declared with
  | nil => exact .nil
  | cons d declared ih =>
    have hkept := ih.imp fun h => h.cons d.spelling
    rw [List.map_cons]
    rcases declareIn_cases d (overloadsAfter declared) with
      ⟨before, old, after, hl, hold, -, hput⟩ | ⟨hnew, hput⟩
    · -- the spellings are those from before
      rw [hl, List.map_append, List.map_cons, hold] at hkept
      rwa [overloadsAfter, List.foldr_cons, ← overloadsAfter, hput, List.map_append, List.map_cons]
    · rw [overloadsAfter, List.foldr_cons, ← overloadsAfter, hput, List.map_append, List.pairwise_append]
      refine ⟨hkept, List.pairwise_singleton _ _, ?_⟩
      intro a ha b hb
      obtain rfl : b = d.spelling := List.mem_singleton.1 hb
      have hb : d.spelling ∉ declared.map ScriptMethod.spelling := by
        rw [← mem_spellings]
        rintro hmem
        obtain ⟨e, he, hspelled⟩ := List.mem_map.1 hmem
        exact hnew e he hspelled
      obtain ⟨later, earlier, hsplit⟩ := List.append_of_mem (mem_spellings.1 ha)
      refine ⟨d.spelling :: later, earlier, by rw [hsplit, List.cons_append], fun hmem => hb ?_⟩
      rw [hsplit]
      exact List.mem_append_right _ hmem

/-- The overloads are the latest declarations of all spellings. -/
theorem mem_overloadsAfter : method ∈ overloadsAfter declared ↔ Latest declared method := by
  induction declared with
  | nil =>
    constructor
    · intro h
      exact absurd h List.not_mem_nil
    · rintro ⟨later, earlier, hsplit, -⟩
      simp at hsplit
  | cons d declared ih =>
    have hdistinct := pairwise_cameBefore declared
    rw [latest_cons, ← ih]
    rcases declareIn_cases d (overloadsAfter declared) with
      ⟨before, old, after, hl, hold, hbefore, hput⟩ | ⟨hnew, hput⟩
    · have hafter : ∀ e ∈ after, d.spelling ≠ e.spelling := by
        rw [hl, List.map_append, List.map_cons, List.pairwise_append, List.pairwise_cons] at hdistinct
        intro e he
        rw [← hold]
        exact (hdistinct.2.1.1 _ (List.mem_map_of_mem he)).ne
      rw [overloadsAfter, List.foldr_cons, ← overloadsAfter, hput, hl]
      grind
    · rw [overloadsAfter, List.foldr_cons, ← overloadsAfter, hput]
      grind

end Declarations

/-! ## Histories of a frame -/

/-- A change of the methods of a frame. -/
inductive MethodChange where
  | declared (name : String) (params : List Param) (returns : Option TypeName) (body : List Stmt)
  | removed (name : String)

/-- The declarations of a name in a frame that no removal has undone, the latest first. -/
def declarations (id : ScopeId) (name : String) : List MethodChange → List ScriptMethod
  | [] => []
  | .declared name' params returns body :: earlier =>
    if name' = name then ⟨name, params, returns, body, id⟩ :: declarations id name earlier
    else declarations id name earlier
  | .removed name' :: earlier => if name' = name then [] else declarations id name earlier

/-- All changes of the methods of a frame since it had none, the latest first. Between them the program may
do anything else. -/
inductive MethodHistory (id : ScopeId) : List MethodChange → Machine → Prop
  | fresh {m : Machine} (hnone : ∀ f, m.store.arena.frame? id = some f → f.methods = {}) :
      MethodHistory id [] m
  | declare {changes : List MethodChange} {m m' : Machine} {name : String} {params : List Param}
      {returns : Option TypeName} {body : List Stmt} (h : MethodHistory id changes m)
      (hhere : m.stack.head? = some id) (hrun : Exec.declare name params returns body m = .ok () m') :
      MethodHistory id (.declared name params returns body :: changes) m'
  | remove {changes : List MethodChange} {m m' : Machine} {name : String} {removed : Bool}
      (h : MethodHistory id changes m) (hrun : Exec.removeMethod id name m = .ok removed m') :
      MethodHistory id (.removed name :: changes) m'
  | other {changes : List MethodChange} {m m' : Machine} (h : MethodHistory id changes m)
      (hkept : ∀ g, m'.store.arena.frame? id = some g →
        ∃ f, m.store.arena.frame? id = some f ∧ g.methods = f.methods) :
      MethodHistory id changes m'

theorem declaring_of_declarations {id : ScopeId} {changes : List MethodChange}
    {method : ScriptMethod} (h : method ∈ declarations id name changes) :
    method.declaring = id := by
  induction changes with
  | nil => exact absurd h List.not_mem_nil
  | cons change earlier ih =>
    cases change with
    | declared name' params returns body =>
      unfold declarations at h
      split at h
      · rcases List.mem_cons.1 h with rfl | h
        · rfl
        · exact ih h
      · exact ih h
    | removed name' =>
      unfold declarations at h
      split at h
      · exact absurd h List.not_mem_nil
      · exact ih h

/-! ### Single changes -/

theorem Table.get?_insert_of_ne (t : Table α) {other : String} (hne : other ≠ name) (e : α) :
    (t.insert name e).get? other = t.get? other := by
  obtain ⟨entries⟩ := t
  show (Table.put name e entries).lookup other = entries.lookup other
  induction entries with
  | nil => simp [Table.put, List.lookup_cons, beq_eq_false_iff_ne.2 hne]
  | cons entry rest ih =>
    obtain ⟨key, old⟩ := entry
    unfold Table.put
    split
    · rename_i hkey
      obtain rfl : name = key := beq_iff_eq.1 hkey
      simp only [List.lookup_cons, beq_eq_false_iff_ne.2 hne]
    · simp only [List.lookup_cons, ih]

theorem Table.get?_erase (t : Table α) (name other : String) :
    (t.erase name).get? other = if other = name then none else t.get? other := by
  obtain ⟨entries⟩ := t
  show (entries.filter fun e => e.1 != name).lookup other = if other = name then none else entries.lookup other
  induction entries with
  | nil => simp
  | cons entry rest ih =>
    obtain ⟨key, old⟩ := entry
    by_cases hkey : key = name
    · rw [List.filter_cons_of_neg (by simpa using hkey), ih, List.lookup_cons]
      split
      · rfl
      · rename_i hne
        rw [beq_eq_false_iff_ne.2 (hkey ▸ hne)]
    · rw [List.filter_cons_of_pos (by simpa using hkey), List.lookup_cons, List.lookup_cons, ih]
      split
      · rename_i heq
        obtain rfl : other = key := beq_iff_eq.1 heq
        rw [if_neg hkey]
      · rfl

theorem Frame.overloads_declare (f : Frame) (method : ScriptMethod) (name : String) :
    (f.declare method).overloads name =
      if method.name = name then Frame.declareIn method (f.overloads name) else f.overloads name := by
  unfold Frame.overloads Frame.declare
  split
  · rename_i hname
    subst hname
    rw [Table.get?_insert, Option.getD_some]
  · rename_i hname
    rw [Table.get?_insert_of_ne _ (Ne.symm hname)]

section Changes

variable {m' : Machine} {id : ScopeId} {g : Frame}

/-- What waits to be released says nothing about methods. -/
theorem exists_frame_of_settle (hg : m.settle.store.arena.frame? id = some g) :
    ∃ f, m.store.arena.frame? id = some f ∧ g.methods = f.methods := by
  obtain ⟨f, hf, hgf⟩ := (Machine.ebbing_settle.ebbs m).frames id g hg
  exact ⟨f, hf, by rw [hgf]⟩

theorem exists_frame_of_declare {params : List Param} {returns : Option TypeName} {body : List Stmt}
    (hhere : m.stack.head? = some id) (hrun : Exec.declare name params returns body m = .ok () m')
    (hg : m'.store.arena.frame? id = some g) :
    ∃ f, m.store.arena.frame? id = some f ∧
      ∀ other, g.overloads other = (f.declare ⟨name, params, returns, body, id⟩).overloads other := by
  obtain ⟨declaring, m1, hscope, hrun⟩ := ok_of_bind hrun
  rw [scope_of_head hhere] at hscope
  cases hscope
  dsimp only [Arena.declare] at hrun
  cases hf : m.settle.store.arena.frame? id with
  | none => simp [hf] at hrun
  | some f =>
    rw [hf] at hrun
    injection hrun with _ hm'
    subst hm'
    obtain ⟨f0, hf0, hmethods⟩ := exists_frame_of_settle hf
    refine ⟨f0, hf0, fun other => ?_⟩
    have hset := Arena.frame?_setFrame (Arena.live_iff.2 ⟨f, hf⟩)
      (f.declare ⟨name, params, returns, body, id⟩) id
    rw [if_pos rfl] at hset
    obtain rfl : f.declare ⟨name, params, returns, body, id⟩ = g := Option.some.inj (hset.symm.trans hg)
    rw [Frame.overloads_declare, Frame.overloads_declare, Frame.overloads, hmethods, Frame.overloads]

theorem exists_frame_of_remove {removed : Bool} (hrun : Exec.removeMethod id name m = .ok removed m')
    (hg : m'.store.arena.frame? id = some g) :
    ∃ f, m.store.arena.frame? id = some f ∧
      ∀ other, g.overloads other = if other = name then [] else f.overloads other := by
  unfold Exec.removeMethod at hrun
  dsimp only [Arena.removeMethod] at hrun
  cases hf : m.settle.store.arena.frame? id with
  | none => simp [hf] at hrun
  | some f =>
    rw [hf] at hrun
    dsimp only at hrun
    obtain ⟨f0, hf0, hmethods⟩ := exists_frame_of_settle hf
    refine ⟨f0, hf0, fun other => ?_⟩
    rw [Frame.overloads, Frame.overloads, ← hmethods]
    cases hthere : f.methods.contains name with
    | true =>
      rw [hthere, if_pos rfl] at hrun
      injection hrun with _ hm'
      subst hm'
      have hset := Arena.frame?_setFrame (Arena.live_iff.2 ⟨f, hf⟩)
        { f with methods := f.methods.erase name } id
      rw [if_pos rfl] at hset
      obtain rfl := Option.some.inj (hset.symm.trans hg)
      rw [Table.get?_erase]
      split <;> rfl
    | false =>
      rw [hthere, if_neg Bool.false_ne_true] at hrun
      injection hrun with _ hm'
      subst hm'
      obtain rfl := Option.some.inj (hf.symm.trans hg)
      split
      · rename_i hother
        have hnone : f.methods.get? name = none := by simpa [Table.contains] using hthere
        rw [hother, hnone, Option.getD_none]
      · rfl

/-- The overloads of a name are those that its declarations leave. -/
theorem MethodHistory.overloads_eq {changes : List MethodChange} (h : MethodHistory id changes m)
    (hg : m.store.arena.frame? id = some g) (name : String) :
    g.overloads name = overloadsAfter (declarations id name changes) := by
  induction h generalizing g with
  | fresh hnone =>
    rw [Frame.overloads, hnone g hg]
    rfl
  | declare h hhere hrun ih =>
    obtain ⟨f, hf, hover⟩ := exists_frame_of_declare hhere hrun hg
    rw [hover, Frame.overloads_declare, ih hf, declarations]
    split
    · rename_i hname
      subst hname
      rfl
    · rfl
  | remove h hrun ih =>
    obtain ⟨f, hf, hover⟩ := exists_frame_of_remove hrun hg
    rw [hover, ih hf, declarations]
    simp only [eq_comm (a := name)]
    split <;> rfl
  | other h hkept ih =>
    obtain ⟨f, hf, hmethods⟩ := hkept g hg
    rw [← ih hf, Frame.overloads, hmethods, Frame.overloads]

end Changes

/-! ## What a call runs -/

section Selection

variable {m' : Machine} {id : ScopeId} {method : ScriptMethod} {args : List Value} {types : List ValueType}
  {params : List Param}

/-- What types mean is a matter of how they are written and where. -/
theorem resolveParams_congr (scope : ScopeId) {params' : List Param}
    (h : params.map (·.type) = params'.map (·.type)) :
    resolveParams scope params = resolveParams scope params' := by
  induction params generalizing params' with
  | nil => rw [List.map_eq_nil_iff.1 h.symm]
  | cons p params ih =>
    cases params' with
    | nil => cases h
    | cons p' params' =>
      obtain ⟨htype, hrest⟩ := List.cons_eq_cons.1 h
      unfold resolveParams
      rw [show p.type = p'.type from htype, ih hrest]

theorem Machine.Resolves.congr (h : m.Resolves method types) {other : ScriptMethod}
    (hspelling : other.spelling = method.spelling) (hdeclaring : other.declaring = method.declaring) :
    m.Resolves other types := by
  obtain ⟨found, hfound, htypes⟩ := h
  refine ⟨found, ?_, htypes⟩
  rw [hdeclaring, resolveParams_congr method.declaring hspelling, hfound]

theorem length_of_resolveParams {scope : ScopeId} :
    ∀ {found : List (Option ValueType)} {m m' : Machine},
      resolveParams scope params m = .ok found m' → found.length = params.length := by
  induction params with
  | nil =>
    intro found m m' h
    cases h
    rfl
  | cons p params ih =>
    intro found m m' h
    obtain ⟨type, m1, -, h⟩ := ok_of_bind h
    obtain ⟨rest, m2, hrest, h⟩ := ok_of_bind h
    cases h
    rw [List.length_cons, List.length_cons, ih hrest]

theorem Machine.Resolves.length_eq (h : m.Resolves method types) : types.length = method.arity := by
  obtain ⟨found, hfound, rfl⟩ := h
  rw [List.length_map, length_of_resolveParams hfound, ScriptMethod.arity]

/-- Where an entry of a filtered list stands in the list. -/
theorem exists_split_of_filter {α : Type} {p : α → Bool} {l : List α} {i : Nat} {x : α}
    (h : (l.filter p)[i]? = some x) :
    ∃ before after, l = before ++ x :: after ∧ before.filter p = (l.filter p).take i := by
  obtain ⟨hi, hx⟩ := List.getElem?_eq_some_iff.1 h
  have hsplit : l.filter p = (l.filter p).take i ++ x :: (l.filter p).drop (i + 1) := by
    rw [← hx, ← List.drop_eq_getElem_cons hi, List.take_append_drop]
  obtain ⟨front, back, rfl, hfront, hback⟩ := List.filter_eq_append_iff.1 hsplit
  obtain ⟨skipped, after, rfl, hskipped, -, -⟩ := List.filter_eq_cons_iff.1 hback
  refine ⟨front ++ skipped, after, by simp, ?_⟩
  rw [List.filter_append, hfront, List.filter_eq_nil_iff.2 hskipped, List.append_nil]

/-- Of the overloads that mean the same types, the first one is selected. -/
theorem first_of_selectLevel (hm : m.store.arena.dropped = []) {level : List ScriptMethod}
    (h : selectLevel level args m = .ok (some method) m') :
    m' = m ∧ ∃ types before after, level = before ++ method :: after ∧ m.Resolves method types ∧
      ∀ e ∈ before, ¬ m.Resolves e types := by
  obtain ⟨rfl, hchosen⟩ := chosen_of_selectLevel hm h
  obtain ⟨signatures, i, hall, hmethod, hsel⟩ := hchosen method rfl
  obtain ⟨p, types, -, hi, hbest, -, hfirst⟩ := best_of_select hsel
  have hresolves : m'.Resolves method types := getElem?_forall₂ hall hmethod hi
  obtain ⟨before, after, hlevel, hbefore⟩ := exists_split_of_filter hmethod
  refine ⟨rfl, types, before, after, hlevel, hresolves, ?_⟩
  -- an overload with these types has as many parameters, so it was among the candidates
  intro e he hres
  have harity : method.arity = args.length := by
    simpa using (List.mem_filter.1 (List.mem_of_getElem? hmethod)).2
  have hcandidate : e ∈ before.filter fun m => m.arity == args.length := by
    refine List.mem_filter.2 ⟨he, ?_⟩
    rw [← hres.length_eq, hresolves.length_eq, harity, beq_self_eq_true]
  rw [hbefore] at hcandidate
  obtain ⟨j, hj⟩ := List.mem_iff_getElem?.1 hcandidate
  rw [List.getElem?_take] at hj
  split at hj
  · rename_i hji
    obtain ⟨sig, hsig⟩ : ∃ sig, signatures[j]? = some sig :=
      ⟨_, List.getElem?_eq_getElem (hji.trans (List.getElem?_eq_some_iff.1 hi).1)⟩
    obtain ⟨found, hfound, rfl⟩ := getElem?_forall₂ hall hj hsig
    obtain ⟨_, hagain, hsame⟩ := hres
    obtain ⟨rfl, -⟩ := EStateM.Result.ok.inj (hfound.symm.trans hagain)
    exact hfirst j hji _ hsig (hsame ▸ hbest)
  · cases hj

/-- A frame whose own overloads take the arguments decides the call. -/
theorem Machine.Ready.resolveMethod_of_own {o r : Multiset Claim} (hm : m.Ready o r) {g : Frame}
    (hg : m.settle.store.arena.frame? id = some g)
    (hsel : selectLevel (g.overloads name) args m.settle = .ok (some method) m.settle) :
    resolveMethod id name args m = .ok (some method) m.settle := by
  obtain ⟨level, hlevel⟩ : ∃ level, g.methods.get? name = some level := by
    apply Option.isSome_iff_exists.1
    cases hget : g.methods.get? name with
    | some level => rfl
    | none =>
      have hmem := (mem_of_selectLevel hsel).1
      rw [Frame.overloads, hget] at hmem
      exact absurd hmem List.not_mem_nil
  obtain ⟨frames, hline⟩ := hm.settle.1.ready.sound.frames.rooted id (Arena.live_iff.2 ⟨g, hg⟩)
  obtain ⟨outer, rfl⟩ : ∃ outer, frames = (id, g) :: outer := by
    cases hline with
    | root hf _ =>
      cases hg.symm.trans hf
      exact ⟨[], rfl⟩
    | child hf _ _ =>
      cases hg.symm.trans hf
      exact ⟨_, rfl⟩
  refine (bind_of_ok (look_of_ok (Arena.overloads_of_lineage hline name))).trans ?_
  rw [List.map_cons, List.filterMap_cons, hlevel]
  rw [Frame.overloads, hlevel, Option.getD_some] at hsel
  exact bind_of_ok hsel

theorem Evaluator.invoke_of_resolveMethod (ev : Evaluator) (hhere : m.stack.head? = some id)
    (hsel : resolveMethod id name args m = .ok (some method) m') :
    ev.invoke name args m = ev.invokeScripted method args m' := by
  have hcallee : callee? id name args m = .ok (some (.scripted method)) m' := (bind_of_ok hsel).trans rfl
  refine (bind_of_ok (onFailure_of_ok (scope_of_head hhere))).trans ?_
  exact bind_of_ok (onFailure_of_ok hcallee)

end Selection

/-- **The spelling that came in first has its last body run.** Whatever was declared and removed in a
frame, its overloads of a name are the declarations that were not removed since and whose spelling was
not declared again. When a call from the frame is given to one of them, for the types that its parameters
mean, then it is the last declaration in its spelling, and every declaration that means the same types is
spelled like it or has a spelling that came in later. So the last of all declarations with these types runs
if they are all spelled alike. -/
theorem first_spelling_runs {m : Machine} {o r : Multiset Claim} (hm : m.Ready o r) {id : ScopeId}
    {changes : List MethodChange} (h : MethodHistory id changes m) (hhere : m.stack.head? = some id)
    (name : String) :
    ∃ g, m.settle.store.arena.frame? id = some g ∧
      (∀ method, method ∈ g.overloads name ↔ Latest (declarations id name changes) method) ∧
      ∀ args method m', selectLevel (g.overloads name) args m.settle = .ok (some method) m' →
        (∀ ev : Evaluator, ev.invoke name args m = ev.invokeScripted method args m.settle) ∧
        Latest (declarations id name changes) method ∧
        ∃ types, m.settle.Resolves method types ∧
          (∀ d ∈ declarations id name changes, m.settle.Resolves d types →
            d.spelling = method.spelling ∨ CameBefore ((declarations id name changes).map ScriptMethod.spelling)
              method.spelling d.spelling) ∧
          ((∀ d ∈ declarations id name changes, m.settle.Resolves d types → d.spelling = method.spelling) →
            ∃ later earlier, declarations id name changes = later ++ method :: earlier ∧
              ∀ d ∈ later, ¬ m.settle.Resolves d types) := by
  have hid : m.store.Pinned r id := by
    apply hm.kept.frames
    exact List.mem_of_mem_head? hhere
  obtain ⟨g, hg⟩ := Arena.live_iff.1 (hm.live_settle hid)
  obtain ⟨f, hf, hmethods⟩ := exists_frame_of_settle hg
  have hover : g.overloads name = overloadsAfter (declarations id name changes) := by
    rw [← h.overloads_eq hf, Frame.overloads, hmethods, Frame.overloads]
  refine ⟨g, hg, fun method => by rw [hover, mem_overloadsAfter], ?_⟩
  intro args method m' hsel
  obtain ⟨rfl, types, before, after, hlevel, hresolves, hbefore⟩ :=
    first_of_selectLevel hm.settle.2 hsel
  have hmem : method ∈ overloadsAfter (declarations id name changes) := hover ▸ (mem_of_selectLevel hsel).1
  have hlatest := mem_overloadsAfter.1 hmem
  refine ⟨fun ev => ev.invoke_of_resolveMethod hhere (hm.resolveMethod_of_own hg hsel), hlatest, types,
    hresolves, ?_, ?_⟩
  · intro d hd hres
    -- the overload that stands for the spelling of the declaration
    obtain ⟨e, he, hspelled⟩ := List.mem_map.1 (mem_spellings.2 (List.mem_map_of_mem hd))
    have hdeclaring : e.declaring = d.declaring := by
      obtain ⟨later, earlier, hsplit, -⟩ := mem_overloadsAfter.1 he
      rw [declaring_of_declarations hd]
      exact declaring_of_declarations (hsplit ▸ List.mem_append_right _ List.mem_cons_self)
    have horder := pairwise_cameBefore (declarations id name changes)
    rw [← hover, hlevel, List.map_append, List.map_cons, List.pairwise_append, List.pairwise_cons] at horder
    rw [← hover, hlevel, List.mem_append, List.mem_cons] at he
    rcases he with he | rfl | he
    · exact absurd (hres.congr hspelled hdeclaring) (hbefore e he)
    · exact .inl hspelled.symm
    · rw [← hspelled]
      exact .inr (horder.2.1.1 _ (List.mem_map_of_mem he))
  · intro halike
    obtain ⟨later, earlier, hsplit, hlater⟩ := hlatest
    refine ⟨later, earlier, hsplit, fun d hd hres => hlater d hd (halike d ?_ hres)⟩
    rw [hsplit]
    exact List.mem_append_left _ hd

theorem Exec.ok_of_value? {x : Exec α} {a : α} (h : x.value? m = some a) : x m = .ok a (x.after m) := by
  unfold Exec.value? at h
  unfold Exec.after
  cases hx : x m with
  | ok b m' =>
    rw [hx] at h
    rw [← Option.some.inj h]
  | error f m' =>
    rw [hx] at h
    cases h

theorem Machine.resolves_of_value? (method : ScriptMethod) {found : List (Option ValueType)}
    (hm : m.store.arena.dropped = [])
    (h : (resolveParams method.declaring method.params).value? m = some found) :
    m.Resolves method (found.map fun type => type.getD .object) := by
  have hrun := Exec.ok_of_value? h
  have hlooks : Looks (fun _ => True) _ :=
    (LooksFrom.resolveParams method.declaring method.params).looks fun _ => trivial
  rw [(hlooks.unmoved hm).same _ _ hrun] at hrun
  exact ⟨found, hrun, rfl⟩

/-- A parameter for a text. -/
def plainParam : Param := ⟨"s", some ⟨"String", 0⟩, ⟨0, 0⟩⟩

/-- A parameter for a text, with the class written in full. -/
def qualifiedParam : Param := ⟨"s", some ⟨"lang.String", 0⟩, ⟨0, 0⟩⟩

/-- The machine of a fresh interpreter after a method was declared for texts. -/
def spelledMachine : Machine := (Exec.declare "f" [plainParam] none []).after Session.fresh.machine

/-- The machine after the method was declared for texts again, in another spelling. -/
def respelledMachine : Machine := (Exec.declare "f" [qualifiedParam] none []).after spelledMachine

theorem history_respelledMachine : (∃ o r, respelledMachine.Ready o r) ∧ MethodHistory ⟨0, 0⟩
    [.declared "f" [qualifiedParam] none [], .declared "f" [plainParam] none []] respelledMachine := by
  have hfirst : Exec.declare "f" [plainParam] none [] Session.fresh.machine = .ok () spelledMachine :=
    Exec.ok_of_value? (by decide +kernel)
  have hsecond : Exec.declare "f" [qualifiedParam] none [] spelledMachine = .ok () respelledMachine :=
    Exec.ok_of_value? (by decide +kernel)
  have hspelled := ((ends_declare _ _ _ _ Session.good_fresh.readyForAll).ok hfirst).1.ready
  have hrespelled := ((ends_declare _ _ _ _ hspelled).ok hsecond).1.ready
  refine ⟨⟨_, _, hrespelled⟩, .declare (.declare (.fresh ?_) (by decide +kernel) hfirst)
    (by decide +kernel) hsecond⟩
  intro f hf
  have hempty : (Session.fresh.machine.store.arena.frame? ⟨0, 0⟩).all fun f => f.methods.entries.isEmpty := by
    decide +kernel
  rw [hf, Option.all_some, List.isEmpty_iff] at hempty
  exact congrArg Table.mk hempty

/-- Of two declarations that mean the same type the first one runs, for the second one writes it
differently. -/
theorem earlier_declaration_runs : (∃ o r, respelledMachine.Ready o r) ∧
    MethodHistory ⟨0, 0⟩ [.declared "f" [qualifiedParam] none [], .declared "f" [plainParam] none []]
      respelledMachine ∧
    respelledMachine.stack.head? = some ⟨0, 0⟩ ∧
    ∃ method, method.params = [plainParam] ∧
      (∀ ev : Evaluator, ev.invoke "f" [.text "a"] respelledMachine =
        ev.invokeScripted method [.text "a"] respelledMachine.settle) ∧
      respelledMachine.settle.Resolves method [.text] ∧
      respelledMachine.settle.Resolves ⟨"f", [qualifiedParam], none, [], ⟨0, 0⟩⟩ [.text] := by
  obtain ⟨⟨o, r, hready⟩, hhistory⟩ := history_respelledMachine
  have hhere : respelledMachine.stack.head? = some ⟨0, 0⟩ := by decide +kernel
  obtain ⟨g, hg, hmem, hcalls⟩ := first_spelling_runs hready hhistory hhere "f"
  have hselects : (respelledMachine.settle.store.arena.frame? ⟨0, 0⟩).any fun g =>
      ((selectLevel (g.overloads "f") [.text "a"]).value? respelledMachine.settle).any fun found =>
        found.any fun method => method.params == [plainParam] := by
    decide +kernel
  rw [hg, Option.any_some] at hselects
  obtain ⟨found, hfound, hparams⟩ := (Option.any_eq_true _ _).1 hselects
  obtain ⟨method, rfl, hparams⟩ := (Option.any_eq_true _ _).1 hparams
  have hparams : method.params = [plainParam] := by simpa using hparams
  obtain ⟨hruns, ⟨later, earlier, hsplit, -⟩, -⟩ := hcalls _ _ _ (Exec.ok_of_value? hfound)
  have hdeclaring : method.declaring = ⟨0, 0⟩ :=
    declaring_of_declarations (hsplit ▸ List.mem_append_right _ List.mem_cons_self)
  refine ⟨⟨o, r, hready⟩, hhistory, hhere, method, hparams, hruns, ?_, ?_⟩
  · have hfound : (resolveParams method.declaring method.params).value? respelledMachine.settle =
        some [some .text] := by
      rw [hparams, hdeclaring]
      decide +kernel
    exact resolves_of_value? method hready.settle.2 hfound
  · have hfound : (resolveParams ⟨0, 0⟩ [qualifiedParam]).value? respelledMachine.settle =
        some [some .text] := by
      decide +kernel
    exact resolves_of_value? ⟨"f", [qualifiedParam], none, [], ⟨0, 0⟩⟩ hready.settle.2 hfound

end HostScript
