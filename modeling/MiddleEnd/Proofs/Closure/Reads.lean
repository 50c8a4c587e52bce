import MiddleEnd.Proofs.Closure.Order

/-! The reads that closure conversion moves in front of a statement. -/

namespace MiddleEnd

open Outcome

namespace Closure

open Program

variable {p t q start : Program} {f v : SymbolId} {n d S : NodeId} {w first : Rework} {mode : Mode}
  {given : SymbolId → List SymbolId} {hoists : NodeId → List (NodeId × NodeId)}
  {means : SymbolId → Option Meaning} {arity : NodeId → Nat} {captured : List SymbolId}

/-- What is read in front of the statement when the node is evaluated. -/
def readAhead (p : Program) (captured : List SymbolId) (f : SymbolId) : Mode × NodeId → Option Event
  | place => (event? p (itself captured) place).bind (inFront p f)

theorem readAhead_eq_some {e : Event} : readAhead p captured f (mode, n) = some e ↔
    mode = .value ∧ ∃ v ∈ captured, p.kind n = .symRef v ∧ byReference p f v = true ∧ e = .load v := by
  constructor
  · intro ahead
    obtain ⟨before, happens, front⟩ := Option.bind_eq_some_iff.mp ahead
    cases before with
    | load | write | call => cases front
    | read ref v =>
      obtain ⟨u, isRef⟩ : ∃ u, (p.kind n).symRef? = some u :=
        Option.ne_none_iff_exists'.mp fun noRef => event?_ne_read noRef ref v happens
      have kind := NodeKind.symRef?_eq_some.mp isRef
      obtain ⟨indirect, same⟩ := Option.ite_none_right_eq_some.mp front
      by_cases member : u ∈ captured
      · cases mode <;>
          simp [event?, named?, kind, itself, member, Meaning.var?, Event.of?] at happens
        obtain ⟨_, rfl⟩ := happens
        exact ⟨rfl, u, member, kind, indirect, (Option.some.inj same).symm⟩
      · simp [event?, named?, kind, itself, member] at happens
  · rintro ⟨rfl, v, member, kind, indirect, rfl⟩
    simp [readAhead, event?, named?, kind, itself, member, Meaning.var?, Event.of?, inFront, indirect]

/-! What stands in front of a statement. -/

/-- The new variables for actuals do nothing that counts. -/
theorem happens_of_quiet (quiet : Quiet p t d)
    (old : ∀ {x : SymbolId}, x.index < p.symbols.size → means x = none) (depth : Nat) :
    happens t arity means depth (mode, d) = [] := by
  obtain ⟨temp, init, v, define, _, known, of | ⟨ref, _, address, of⟩⟩ := quiet
  · have silent : event? t means (.value, init) = none := by simp [event?, named?, of, old known]
    cases depth with
    | zero => rfl
    | succ depth =>
      simp [happens_succ, define, NodeKind.evaluates, event?, happens_of_silent of silent]
  · obtain _ | _ | depth := depth
    · rfl
    · simp [define, NodeKind.evaluates, event?, happens, evaluated]
    · simp [happens_succ, define, address, NodeKind.evaluates, event?,
        happens_of_silent of (event?_of_address of)]

theorem happens_of_hoist (hoist : Hoist p given w t f S n d) (names : Names p given w t f means)
    (depth : Nat) : happens t arity means (depth + 2) (mode, d) =
      (readAhead p (given f) f (.value, n)).toList := by
  obtain ⟨v, temp, e, before, indirect, _, _, define, behind⟩ := hoist.stored
  obtain ⟨_, x, deref, formal, _, ref, stands⟩ := behind
  have ahead : readAhead p (given f) f (.value, n) = some (.load v) :=
    readAhead_eq_some.mpr ⟨rfl, v, stands.captured, before, indirect, rfl⟩
  have silent : event? t means (.value, x) = none := by
    simp [event?, named?, ref, names.formal stands, formalMeaning, indirect, Meaning.var?]
  simp [ahead, happens_succ, define, deref, NodeKind.evaluates, event?, happens_of_silent ref silent,
    addressed?, ref, names.formal stands, formalMeaning, indirect, Meaning.address?, Event.of?]

section

variable (course : Course p first given w t hoists) (evolved : Evolved p w t)
  (single : SingleAddresses p)
  (gone : ∀ {n v}, p.Reached n → p.scope? n = some f → t.Reached n → v ∈ given f →
    t.kind n ≠ .symRef v)

include course evolved single gone

/-- The reads that have been moved in front of a statement are those that the evaluation of the
statement makes by name of variables that are captured by reference. -/
theorem Course.hoisted_perm (standing : p.Standing S) (scope : p.scope? S = some f)
    (noFn : (p.kind S).isFnDef = false) {depth : Nat} (room : p.nodes.size < depth) :
    ((hoists S).map Prod.fst).Perm
      (((evaluated p (fun n => (p.children n).length) depth (.value, S)).filter fun place =>
        (readAhead p (given f) f place).isSome).map Prod.snd) := by
  have sound := evolved.stage.base_sound
  have live := sound.live_of_reached standing.1
  have nodup : ((evaluated p (fun n => (p.children n).length) depth (.value, S)).map Prod.snd).Nodup :=
    evaluated_nodup sound.forest live
  have statement := serves_statement standing scope sound.forest
  refine (List.perm_ext_iff_of_nodup (course.distinct S)
    (nodup.sublist (List.filter_sublist.map Prod.snd))).mpr fun n => ?_
  constructor
  · intro member
    obtain ⟨⟨n, d⟩, listed, rfl⟩ := List.mem_map.mp member
    obtain ⟨reached, g, scopeN, hoist⟩ := course.hoist listed
    cases scope.symm.trans hoist.scope
    obtain ⟨v, _, _, before, indirect, _, _, _, _, _, _, _, _, _, stands⟩ := hoist.stored
    obtain ⟨mode, inside⟩ : ∃ mode,
        (mode, n) ∈ evaluated p (fun n => (p.children n).length) depth (.value, S) :=
      evaluated_of_enclosing evolved.stage.base_settled.toTidy reached hoist.found noFn
        (by rw [before]; rfl) room
    have value := (serves_of_evaluated sound statement inside).mode_eq
    rw [hoist.use] at value
    subst value
    refine List.mem_map.mpr ⟨_, List.mem_filter.mpr ⟨inside, ?_⟩, rfl⟩
    exact Option.isSome_iff_exists.mpr ⟨_, readAhead_eq_some.mpr
      ⟨rfl, v, stands.captured, before, indirect, rfl⟩⟩
  · intro member
    obtain ⟨⟨mode, n⟩, listed, rfl⟩ := List.mem_map.mp member
    obtain ⟨inside, ahead⟩ := List.mem_filter.mp listed
    obtain ⟨_, ahead⟩ := Option.isSome_iff_exists.mp ahead
    obtain ⟨rfl, v, captured, kind, indirect, _⟩ := readAhead_eq_some.mp ahead
    have serves := serves_of_evaluated sound statement inside
    have read := serves.read
    cases course.lot serves.reached serves.scope with
    | kept swap refs =>
      have reachedT := course.reached_swap evolved single serves.reached serves.scope fun prim use => by
        cases use.symm.trans read
      rw [swap] at reachedT
      exact absurd (refs v kind) (gone serves.reached serves.scope reachedT captured)
    | aimed before direct =>
      cases kind.symm.trans before
      cases indirect.symm.trans direct
    | placed _ _ use _ =>
      rcases use with store | ⟨_, outside⟩
      · cases store.symm.trans read
      · exact absurd scope (outside S serves.found)
    | moved listed hoist =>
      cases serves.found.symm.trans hoist.found
      exact List.mem_map_of_mem listed
    | addressed before => cases kind.symm.trans before
    | buried _ use _ => cases use.symm.trans read

omit gone in
/-- The definition of a new variable for a read stays where it is. -/
theorem Course.stays_hoist (hoist : Hoist p given w t f S n d) (reached : p.Reached n)
    (scope : p.scope? n = some f) : t.stays d = true := by
  obtain ⟨v, temp, e, _, _, _, ref, define, _⟩ := hoist.stored
  have reachedT := course.reached_swap evolved single reached scope fun prim use => by
    cases use.symm.trans hoist.use
  have value := ((evolved.stage.settled.lawful (evolved.sound.live_of_reached reachedT)).ref_value
    (by rw [ref]; rfl)).2
  have noType : (t.symbol temp).isType = false := by
    rw [← Bool.not_eq_true, Symbol.isType_iff]
    rcases Symbol.isValue_iff.mp value with sort | sort <;> simp [sort]
  simp [stays, define, NodeKind.isFnDef, NodeKind.defines?, noType]

variable (quiet : ∀ {s d}, d ∈ first.front s → Quiet p t d) (names : Names p given w t f means)

include quiet names

/-- What happens in front of a statement is this: the variables that are captured by reference and were
read in it by name are read through their addresses, in some order. -/
theorem Course.front_perm (standing : p.Standing S) (scope : p.scope? S = some f)
    (noFn : (p.kind S).isFnDef = false) {depth : Nat} (room : p.nodes.size < depth) (more : Nat) :
    (((w.front S).filter t.stays).flatMap fun d => happens t arity means (more + 2) (.value, d)).Perm
      ((happens p (fun n => (p.children n).length) (itself (given f)) depth (.value, S)).filterMap
        (inFront p f)) := by
  have actuals : ((first.front S).filter t.stays).flatMap
      (fun d => happens t arity means (more + 2) (.value, d)) = [] :=
    List.flatMap_eq_nil_iff.mpr fun d member =>
      happens_of_quiet (quiet (List.mem_of_mem_filter member)) names.old _
  have stay : ((hoists S).map Prod.snd).filter t.stays = (hoists S).map Prod.snd := by
    refine List.filter_eq_self.mpr fun d member => ?_
    obtain ⟨⟨n, d⟩, listed, rfl⟩ := List.mem_map.mp member
    obtain ⟨reached, g, scopeN, hoist⟩ := course.hoist listed
    exact course.stays_hoist evolved single hoist reached scopeN
  have reads : ((hoists S).map Prod.snd).flatMap
      (fun d => happens t arity means (more + 2) (.value, d)) =
        ((hoists S).map Prod.fst).filterMap fun n => readAhead p (given f) f (.value, n) := by
    rw [List.flatMap_map, List.filterMap_map, List.filterMap_eq_flatMap_toList]
    refine List.flatMap_congr fun ⟨n, d⟩ listed => ?_
    obtain ⟨_, g, _, hoist⟩ := course.hoist listed
    cases scope.symm.trans hoist.scope
    exact happens_of_hoist hoist names more
  have evaluate (places : List (Mode × NodeId)) :
      ((places.filter fun place => (readAhead p (given f) f place).isSome).map Prod.snd).filterMap
        (fun n => readAhead p (given f) f (.value, n)) =
          places.filterMap (readAhead p (given f) f) := by
    rw [List.filterMap_map, List.filterMap_filter]
    refine List.filterMap_congr fun ⟨mode, n⟩ _ => ?_
    cases ahead : readAhead p (given f) f (mode, n) with
    | none => rfl
    | some e =>
      obtain ⟨rfl, _⟩ := readAhead_eq_some.mp ahead
      simp [ahead]
  rw [course.front, List.filter_append, List.flatMap_append, actuals, List.nil_append, stay, reads,
    happens, List.filterMap_filterMap]
  exact ((course.hoisted_perm evolved single gone standing scope noFn room).filterMap _).trans
    (.of_eq (evaluate _))

end

/-! The whole conversion. -/

section

variable {passed : List NodeId}
  (transforms : Transforms p (.compute p (.build p)) passed first start w t q)

include transforms

theorem Transforms.course : ∃ hoists, Course p first (Captures.compute p (.build p)).of w t hoists :=
  transforms.run.course transforms.supplying fun _ _ => Captures.known_of_mem

/-- The function refers to none of the variables that it captures. -/
theorem Transforms.gone (converted : Converted (fun _ _ _ => False) p q) (lexical : p.Lexical)
    (reached : p.Reached n) (scope : p.scope? n = some f) (reachedT : t.Reached n)
    (captured : v ∈ (Captures.compute p (.build p)).of f) : t.kind n ≠ .symRef v := by
  intro ref
  obtain ⟨u, stage, change⟩ := converted.staged
  have settled := stage.base_settled
  obtain ⟨fnDef, placed⟩ := settled.placed_of_registered
    (Captures.registered_of_capturing (Captures.mem_capturing captured))
  have fn := settled.isFn_of_fnDef (settled.sound.live_of_reached placed.1) placed.2.1 placed.2.2
  have reachedU := change.reached.mp (transforms.moved.reached.mpr reachedT)
  have scopeU := (stage.frame.scope reached (stage.settled.sound.live_of_reached reachedU)).trans scope
  refine not_ref_of_captured stage lexical reachedU scopeU fn (settled.scope_known reached scope)
    captured ?_
  rw [← (change.head n).symRef, transforms.moved.order.kind (by rw [ref]; rfl), ref]
  rfl

/-- What has become of a statement stays in its block if the statement did. -/
theorem Transforms.stays_swap (settled : p.Settled) (within : Within p f n) :
    t.stays (w.swap n) = p.stays n := by
  have underway := transforms.underway
  have frame := underway.evolved.stage.frame
  have live := settled.sound.live_of_reached within.reached
  cases expr : (p.kind n).isExpr with
  | true =>
    have stays {k : NodeKind} (expr : k.isExpr = true) : k.isFnDef = false ∧ k.defines? = none := by
      cases k <;> simp [NodeKind.isExpr] at expr <;> exact ⟨rfl, rfl⟩
    have fate := transforms.run.fate transforms.supplying (fun _ _ => Captures.known_of_mem) within
    obtain ⟨noFn, none⟩ := stays expr
    obtain ⟨noFnT, noneT⟩ := stays (fate.expr underway.evolved within expr)
    simp [Program.stays, noFn, none, noFnT, noneT]
  | false =>
    rw [within.swap_of_plain underway.evolved expr, stays, stays,
      isFnDef_of_tag (frame.tag live.known), frame.defines live.known]
    cases defines : (p.kind n).defines? with
    | none => rfl
    | some s =>
      have sort := frame.sort ((settled.lawful live).defines_known defines)
      have same : (t.symbol s).isType = (p.symbol s).isType := by
        rw [Bool.eq_iff_iff, Symbol.isType_iff, Symbol.isType_iff, sort]
      simp [same]

end

/-- What happens to variables that `f` captures when the statement is evaluated. -/
def eventsBefore (p : Program) (f : SymbolId) (s : NodeId) : List Event :=
  events p (fun n => (p.children n).length) (itself ((Captures.compute p (.build p)).of f)) s

/-- What happens to them after closure conversion, through the new formals of `f`. What calls pass for
new formals does not count. -/
def eventsAfter (p q : Program) (f : SymbolId) (s : NodeId) : List Event :=
  events q (fun n => (p.children n).length) (formalNames p q f) s

/-- What closure conversion makes of statements of `f`. Each statement `s` becomes `become s`, with the
definitions `temps s` in front of it. All that happened in it happens as before, except that a variable
that is captured by reference and was read by its name is read in front of it. -/
structure KeepsOrder (p q : Program) (f : SymbolId) (stmts stmts' : List NodeId)
    (temps : NodeId → List NodeId) (become : NodeId → NodeId) : Prop where
  order : stmts'.filter q.stays = (stmts.flatMap fun s => temps s ++ [become s]).filter q.stays
  isNew {s d : NodeId} : d ∈ temps s → p.nodes.size ≤ d.index
  become_eq (s : NodeId) : become s = s ∨ p.nodes.size ≤ (become s).index
  stays {s : NodeId} : s ∈ stmts → q.stays (become s) = p.stays s
  inside {s : NodeId} : s ∈ stmts → p.stays s = true →
    eventsAfter p q f (become s) = (eventsBefore p f s).filter (inPlace p f)
  ahead {s : NodeId} : s ∈ stmts → p.stays s = true →
    ((temps s).flatMap (eventsAfter p q f)).Perm ((eventsBefore p f s).filterMap (inFront p f))

/-- A statement that does not read by name what is captured by reference does what it did, and nothing
happens in front of it. -/
theorem KeepsOrder.unmoved {stmts stmts' : List NodeId} {temps : NodeId → List NodeId}
    {become : NodeId → NodeId} (keeps : KeepsOrder p q f stmts stmts' temps become) {s : NodeId}
    (member : s ∈ stmts) (stays : p.stays s = true)
    (inPlace : ∀ e ∈ eventsBefore p f s, inPlace p f e = true) :
    (temps s).flatMap (eventsAfter p q f) = [] ∧
      eventsAfter p q f (become s) = eventsBefore p f s := by
  have none : (eventsBefore p f s).filterMap (inFront p f) = [] :=
    List.filterMap_eq_nil_iff.mpr fun e happens => Option.isNone_iff_eq_none.mp (inPlace e happens)
  exact ⟨List.perm_nil.mp (none ▸ keeps.ahead member stays),
    (keeps.inside member stays).trans (List.filter_eq_self.mpr inPlace)⟩

section

variable {b : NodeId} {stmts : List NodeId} (single : SingleAddresses p) (reached : p.Reached b)
  (kind : p.kind b = .block stmts) (scope : p.scope? b = some f)

include single reached kind scope

theorem Transforms.keepsOrder {passed : List NodeId} (lexical : p.Lexical)
    (converted : Converted (fun _ _ _ => False) p q)
    (transforms : Transforms p (.compute p (.build p)) passed first start w t q) :
    ∃ stmts', q.kind b = .block stmts' ∧
      KeepsOrder p q f stmts stmts' (fun s => (w.front s).filter t.stays) w.swap := by
  obtain ⟨_, stage, _⟩ := converted.staged
  have settled := stage.base_settled
  have evolved := transforms.underway.evolved
  have moved := transforms.moved
  have plain : (p.kind b).isExpr = false := by rw [kind]; rfl
  have reachedT := evolved.stage.frame.kept reached (.inl plain)
  have kindT := evolved.reworked.kind (settled.sound.live_of_reached reached).known
    (evolved.sound.live_of_reached reachedT) (by rw [kind]; rfl)
  rw [kind, Rework.kind] at kindT
  obtain ⟨stmts', kindQ, order⟩ := moved.order.block kindT
  obtain ⟨hoists, course⟩ := transforms.course
  have names := transforms.names settled converted.settled (f := f)
  have gone {n : NodeId} {v : SymbolId} (reached : p.Reached n) (scope : p.scope? n = some f)
      (reachedT : t.Reached n) (captured : v ∈ (Captures.compute p (.build p)).of f) :=
    transforms.gone converted lexical reached scope reachedT captured
  have child {s : NodeId} (member : s ∈ stmts) : s ∈ p.children b := by
    rw [children, kind]
    exact member
  have within {s : NodeId} (member : s ∈ stmts) : Within p f s := by
    refine ⟨⟨b, reached, plain, child member⟩, ?_⟩
    rw [settled.sound.scope_below reached (child member), scopeBelow_eq, kind, scope]
    rfl
  have standing {s : NodeId} (member : s ∈ stmts) : p.Standing s := by
    refine ⟨reached.child (child member), b, ?_, by rw [kind]; rfl⟩
    exact settled.sound.forest.child_parent (settled.sound.live_of_reached reached) (child member)
  have size : b.index < q.nodes.size := known_of_kind (by rw [kindQ]; simp)
  refine ⟨stmts', kindQ, ?_, fun member => ?_, evolved.reworked.swap, fun member => ?_,
    fun {s} member stays => ?_, fun {s} member stays => ?_⟩
  · rw [moved.stays_eq, order, List.filter_flatMap, List.filter_flatMap]
    refine List.flatMap_congr fun s _ => ?_
    rw [List.filter_append, List.filter_append, List.filter_filter]
    simp
  · exact evolved.reworked.front (List.mem_of_mem_filter member)
  · rw [moved.stays_eq]
    exact transforms.stays_swap settled (within member)
  · have liveQ := converted.settled.sound.live_of_reached
      (moved.reached.mpr ((within member).reached_swap evolved))
    have live := settled.sound.live_of_reached (within member).reached
    have serves := serves_statement (standing member) (within member).scope settled.sound.forest
    -- A depth that is enough for both.
    have room : p.nodes.size < p.nodes.size + q.nodes.size + 1 := by omega
    have roomQ : q.nodes.size < p.nodes.size + q.nodes.size + 1 := by omega
    rw [eventsAfter, events_eq converted.settled.sound.forest liveQ roomQ, happens_of_relocates moved,
      eventsBefore, events_eq settled.sound.forest live room]
    exact course.happens_eq evolved single gone names _ serves (within member).scope (by simp)
  · have noFn : (p.kind s).isFnDef = false := by
      rw [Program.stays, Bool.and_eq_true, Bool.not_eq_true'] at stays
      exact stays.1
    obtain ⟨more, depth⟩ : ∃ more, q.nodes.size + 1 = more + 2 := ⟨q.nodes.size - 1, by omega⟩
    have quiet {s d : NodeId} (member : d ∈ first.front s) : Quiet p t d :=
      transforms.underway.quiet transforms.supplying member
    have perm : (((w.front s).filter t.stays).flatMap fun d =>
        happens t (fun n => (p.children n).length) (formalNames p q f) (more + 2) (.value, d)).Perm
          ((eventsBefore p f s).filterMap (inFront p f)) :=
      course.front_perm evolved single gone quiet names (standing member) (within member).scope noFn
        (Nat.lt_succ_self p.nodes.size) more
    rw [← depth] at perm
    have same : eventsAfter p q f = fun d => happens t (fun n => (p.children n).length)
        (formalNames p q f) (q.nodes.size + 1) (.value, d) :=
      funext fun d => happens_of_relocates moved ..
    rw [same]
    exact perm

omit single kind reached scope in
/-- Where nothing is captured nothing is read ahead. -/
theorem inFront_of_uncaptured (free : (Captures.compute p (.build p)).of f = []) {s : NodeId}
    {e : Event} (happens : e ∈ eventsBefore p f s) : inFront p f e = none := by
  obtain ⟨⟨mode, n⟩, _, event⟩ := List.mem_filterMap.mp happens
  rw [free] at event
  by_contra ahead
  obtain ⟨e', ahead⟩ := Option.ne_none_iff_exists'.mp ahead
  obtain ⟨_, v, captured, _⟩ := readAhead_eq_some.mp
    (Option.bind_eq_some_iff.mpr ⟨e, event, ahead⟩ : readAhead p [] f (mode, n) = some e')
  cases captured

omit single kind reached scope in
theorem keepsOrder_refl (free : (Captures.compute p (.build p)).of f = []) (stmts : List NodeId) :
    KeepsOrder p p f stmts stmts (fun _ => []) id where
  order := by simp
  isNew member := absurd member List.not_mem_nil
  become_eq _ := .inl rfl
  stays _ := rfl
  inside {s} _ _ := by
    have names : formalNames p p f = itself ((Captures.compute p (.build p)).of f) := by
      funext x
      simp [formalNames, itself, free]
    have stay : (eventsBefore p f s).filter (inPlace p f) = eventsBefore p f s :=
      List.filter_eq_self.mpr fun e happens => by rw [inPlace, inFront_of_uncaptured free happens]; rfl
    rw [stay, eventsAfter, names]
    rfl
  ahead {s} _ _ := by
    rw [List.filterMap_eq_nil_iff.mpr fun e happens => inFront_of_uncaptured free happens]
    exact .refl _

/-- Closure conversion keeps what happens in the statements of a function, and its order, except that
they read variables that are captured by reference before they do anything else. -/
theorem flatten_keeps_order {result : TransformResult} (convertible : Convertible p)
    (converts : flatten p = .ok result q) : ∃ stmts' temps become, q.kind b = .block stmts' ∧
      KeepsOrder p q f stmts stmts' temps become := by
  have converted := ((flatten_converts convertible.settled convertible.lexical).of_ok converts).1
  rcases (flatten_transforming convertible).of_ok converts with
    ⟨flat, rfl⟩ | ⟨plans, passed, first, start, w, t, _, _, _, transforms⟩
  · exact ⟨stmts, _, _, kind, keepsOrder_refl (captures_eq_nil convertible.settled flat f) stmts⟩
  · obtain ⟨stmts', kindQ, keeps⟩ := transforms.keepsOrder single reached kind scope
      convertible.lexical converted
    exact ⟨stmts', _, _, kindQ, keeps⟩

end

end Closure

end MiddleEnd
