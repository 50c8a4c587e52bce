import MiddleEnd.Proofs.Closure.Correspond
import MiddleEnd.Proofs.Closure.Coverage
import MiddleEnd.Proofs.Closure.Events

/-! The order in which a statement is evaluated, before and after closure conversion. -/

namespace MiddleEnd

open Outcome

namespace Closure

open Program

/-- An operator that takes an address takes that of one operand. -/
def SingleAddresses (p : Program) : Prop :=
  ∀ n args, p.Reached n → p.kind n = .prim .addrOf args → args.length = 1

/-- What the formal of `f` for the captured variable `v` stands for. -/
def formalMeaning (p : Program) (f v : SymbolId) : Meaning :=
  if byReference p f v then .address v else .var v

/-- What becomes of the event in front of its statement: a variable that is captured by reference and
read by its name is read there, through its address. -/
def inFront (p : Program) (f : SymbolId) : Event → Option Event
  | .read _ v => if byReference p f v then some (.load v) else none
  | .load _ | .write _ | .call _ => none

/-- Does the event stay where it is in its statement? -/
def inPlace (p : Program) (f : SymbolId) (e : Event) : Bool := (inFront p f e).isNone

@[simp] theorem inPlace_read (p : Program) (f v : SymbolId) (n : NodeId) :
    inPlace p f (.read n v) = !byReference p f v := by
  cases indirect : byReference p f v <;> simp [inPlace, inFront, indirect]

@[simp] theorem inPlace_load (p : Program) (f v : SymbolId) : inPlace p f (.load v) = true := rfl

@[simp] theorem inPlace_write (p : Program) (f v : SymbolId) : inPlace p f (.write v) = true := rfl

@[simp] theorem inPlace_call (p : Program) (f : SymbolId) (n : NodeId) :
    inPlace p f (.call n) = true := rfl

variable {p t q start : Program} {f v : SymbolId} {n c S : NodeId} {w first : Rework} {mode : Mode}
  {given : SymbolId → List SymbolId} {hoists : NodeId → List (NodeId × NodeId)}
  {means : SymbolId → Option Meaning} {arity : NodeId → Nat}

/-- The names that mean something are those of the formals of `f` for captured variables. -/
structure Names (p : Program) (given : SymbolId → List SymbolId) (w : Rework) (t : Program)
    (f : SymbolId) (means : SymbolId → Option Meaning) : Prop where
  formal {v x : SymbolId} : StandsFor p given w t f v x → means x = some (formalMeaning p f v)
  old {x : SymbolId} : x.index < p.symbols.size → means x = none
  stored {d e : NodeId} {x : SymbolId} : t.kind d = .define x (some e) → means x = none

/-- What stands in the place of a node can be reached, unless the node is a reference whose address was
taken. -/
theorem Course.reached_swap (course : Course p first given w t hoists) (evolved : Evolved p w t)
    (single : SingleAddresses p) (reached : p.Reached n) (scope : p.scope? n = some f)
    (shown : ∀ prim, useOf p n = .addressOf prim → ∀ v, p.kind n ≠ .symRef v) :
    t.Reached (w.swap n) := by
  have soundP := evolved.stage.base_sound
  have frame := evolved.stage.frame
  induction reached with
  | @root n root =>
    have top := soundP.rooted.top_of_root root
    have isBlock : (p.kind n).isBlock = true := by
      obtain ⟨m, member, block⟩ := mem_roots.mp root
      exact soundP.rooted.root_block member block
    have plain : (p.kind n).isExpr = false := by
      cases kind : p.kind n <;> simp [kind, NodeKind.isBlock] at isBlock
      rfl
    cases course.lot (.root root) scope with
    | kept swap _ =>
      rw [swap]
      exact frame.kept (.root root) (.inl plain)
    | aimed before | placed before | addressed before | buried before =>
      rw [before] at isBlock
      cases isBlock
    | moved _ hoist =>
      obtain ⟨_, _, _, before, _⟩ := hoist.stored
      rw [before] at isBlock
      cases isBlock
  | @child owner n reached child ih =>
    have liveP := soundP.live_of_reached reached
    have noRef : (p.kind owner).symRef? = none := by
      rw [children] at child
      cases kind : p.kind owner <;> simp [kind, NodeKind.children] at child <;> rfl
    have noRefs {v : SymbolId} : p.kind owner ≠ .symRef v := by
      intro kind
      rw [kind] at noRef
      cases noRef
    have reachedT : t.Reached owner := by
      cases expr : (p.kind owner).isExpr with
      | false => exact frame.kept reached (.inl expr)
      | true =>
        have plain : (p.kind owner).isFnDef = false := by
          cases kind : p.kind owner <;> simp [kind, NodeKind.isExpr] at expr <;> rfl
        rw [soundP.scope_below reached child, scopeBelow_eq, plain, if_neg Bool.false_ne_true] at scope
        have there := ih scope fun _ _ _ => noRefs
        cases course.lot reached scope with
        | kept swap _ => rwa [swap] at there
        | aimed before | placed before | buried before => exact absurd before noRefs
        | moved _ hoist =>
          obtain ⟨_, _, _, before, _⟩ := hoist.stored
          exact absurd before noRefs
        | @addressed v ref args before operand of =>
          -- The only operand is the reference itself.
          obtain ⟨r, rfl⟩ := List.length_eq_one_iff.mp (single owner args reached before)
          rw [children, before, NodeKind.children, List.mem_singleton] at child
          cases List.mem_singleton.mp operand
          subst child
          have link : (p.node n).parent = some owner := soundP.forest.child_parent liveP (by
            rw [children, before]
            exact List.mem_singleton.mpr rfl)
          exact absurd of (shown owner (by simp [useOf, link, before]) v)
    refine reachedT.child ?_
    rw [children, evolved.reworked.kind liveP.known (evolved.sound.live_of_reached reachedT) noRef]
    exact Rework.swap_mem_children child

/-- Only references are read by their names. -/
theorem event?_ne_read (noRef : (p.kind n).symRef? = none) (ref : NodeId) (v : SymbolId) :
    event? p means (mode, n) ≠ some (.read ref v) := by
  rw [event?]
  split
  · simp
  · rename_i kind
    rw [kind] at noRef
    cases noRef
  · cases mode <;> simp [Option.bind_eq_some_iff, Event.of?]
  · simp

theorem inPlace_of_event {e : Event} (noRef : (p.kind n).symRef? = none)
    (happens : event? p means (mode, n) = some e) : inPlace p f e = true := by
  cases e with
  | read ref v => exact absurd happens (event?_ne_read noRef ref v)
  | _ => rfl

/-- A reference of which an operator still takes the address is one. -/
theorem Course.ref_of_address (course : Course p first given w t hoists) {prim : NodeId}
    (serves : Serves p f S .address n) (forest : p.Forest) (link : p.parent? n = some prim)
    (unmoved : w.swap prim = prim) (kind : p.kind n = .symRef v) :
    ∃ x, t.kind (w.swap n) = .symRef x := by
  obtain ⟨_, use⟩ := serves.addressOf
  cases course.lot serves.reached serves.scope with
  | kept swap refs => exact ⟨v, by rw [swap, refs v kind]⟩
  | aimed _ _ swap now =>
    obtain ⟨formal, _, ref, _⟩ := now
    exact ⟨formal, by rw [swap, ref]⟩
  | placed _ _ other _ => rcases other with other | ⟨other, _⟩ <;> cases use.symm.trans other
  | moved _ hoist => cases use.symm.trans hoist.use
  | addressed before => cases kind.symm.trans before
  | buried _ use' isNew =>
    cases link.symm.trans (address_of_use use').1
    rw [unmoved] at isNew
    exact absurd (forest.owner_known link) (Nat.not_lt.mpr isNew)

section

variable (course : Course p first given w t hoists) (evolved : Evolved p w t)
  (single : SingleAddresses p)
  (gone : ∀ {n v}, p.Reached n → p.scope? n = some f → t.Reached n → v ∈ given f →
    t.kind n ≠ .symRef v)
  (names : Names p given w t f means)

/-- The names of captured variables mean them, before the conversion. -/
def itself (given : List SymbolId) (x : SymbolId) : Option Meaning :=
  if x ∈ given then some (.var x) else none

theorem itself_of_standsFor {x : SymbolId} (stands : StandsFor p given w t f v x) :
    itself (given f) v = some (.var v) :=
  if_pos stands.captured

include evolved names gone

/-- The reference `n` is there as it was, and means nothing before or after. -/
theorem silent_of_kept (before : p.kind n = .symRef v) (reached : p.Reached n)
    (scope : p.scope? n = some f) (reachedT : t.Reached n) (now : t.kind n = .symRef v) :
    itself (given f) v = none ∧ means v = none := by
  refine ⟨if_neg fun captured => gone reached scope reachedT captured now, names.old ?_⟩
  exact ((evolved.stage.base_settled.lawful
    (evolved.stage.base_sound.live_of_reached reached)).ref_value (by rw [before]; rfl)).1

include course

/-- The operand of an operator that still takes an address is the variable that it was. -/
theorem Course.named_eq {prim : NodeId} (serves : Serves p f S .address n)
    (reachedT : t.Reached (w.swap n)) (link : p.parent? n = some prim) (unmoved : w.swap prim = prim) :
    named? t means (w.swap n) = named? p (itself (given f)) n := by
  have sound := evolved.stage.base_sound
  have known := (sound.live_of_reached serves.reached).known
  obtain ⟨prim', use⟩ := serves.addressOf
  cases course.lot serves.reached serves.scope with
  | kept swap refs =>
    rw [swap] at reachedT ⊢
    have tag := evolved.stage.frame.tag known
    cases kind : p.kind n with
    | symRef v =>
      obtain ⟨before, after⟩ := silent_of_kept evolved gone names kind serves.reached
        serves.scope reachedT (refs v kind)
      simp [named?, kind, refs v kind, before, after]
    | _ =>
      rw [kind] at tag
      cases kindT : t.kind n <;> simp [kindT, NodeKind.tag] at tag
      simp [named?, kind, kindT]
  | aimed before direct swap now =>
    obtain ⟨formal, _, ref, stands⟩ := now
    simp [named?, swap, ref, before, names.formal stands, itself_of_standsFor stands, formalMeaning,
      direct, Meaning.var?]
  | placed _ _ other _ => rcases other with other | ⟨other, _⟩ <;> cases use.symm.trans other
  | moved _ hoist => cases use.symm.trans hoist.use
  | addressed before _ _ indirect _ now =>
    obtain ⟨formal, _, made, stands⟩ := now
    simp [named?, before, made, names.formal stands, formalMeaning, indirect, Meaning.var?]
  | buried _ use' isNew =>
    cases link.symm.trans (address_of_use use').1
    rw [unmoved] at isNew
    exact absurd (sound.forest.owner_known link) (Nat.not_lt.mpr isNew)

include single

theorem Course.addressed_eq (serves : Serves p f S .value n) (scopeS : p.scope? S = some f) :
    addressed? t means (w.swap n) = addressed? p (itself (given f)) n := by
  have sound := evolved.stage.base_sound
  have read := serves.read
  have live := sound.live_of_reached serves.reached
  have reachedT := course.reached_swap evolved single serves.reached serves.scope fun prim use => by
    cases use.symm.trans read
  cases course.lot serves.reached serves.scope with
  | kept swap refs =>
    rw [swap] at reachedT ⊢
    have kindT := evolved.reworked.kind live.known (evolved.sound.live_of_reached reachedT)
    cases kind : p.kind n with
    | symRef v =>
      obtain ⟨before, after⟩ := silent_of_kept evolved gone names kind serves.reached
        serves.scope reachedT (refs v kind)
      simp [addressed?, kind, refs v kind, before, after]
    | prim op args =>
      have kindT := kindT (by rw [kind]; rfl)
      rw [kind] at kindT
      have same : t.kind n = .prim op (args.map w.swap) := kindT
      by_cases isAddress : op = .addrOf
      · subst isAddress
        obtain ⟨r, rfl⟩ := List.length_eq_one_iff.mp (single n args serves.reached kind)
        have operand : (Mode.address, r) ∈ (p.kind n).evaluates 1 := by simp [kind, NodeKind.evaluates]
        have child : w.swap r ∈ t.children n := by simp [children, same, NodeKind.children]
        simp only [addressed?, kind, same, List.map_cons, List.map_nil]
        exact course.named_eq evolved gone names (serves.operand sound operand) (reachedT.child child)
          (sound.forest.child_parent live (NodeKind.child_of_evaluates operand)) swap
      · cases op <;> simp [addressed?, kind, same] at isAddress ⊢
    | _ =>
      rw [kind] at kindT
      simp [addressed?, kind, kindT rfl, Rework.kind, NodeKind.mapChildren]
  | aimed before direct swap now =>
    obtain ⟨formal, _, ref, stands⟩ := now
    simp [addressed?, swap, ref, before, names.formal stands, itself_of_standsFor stands, formalMeaning,
      direct, Meaning.address?]
  | placed _ _ use _ =>
    rcases use with store | ⟨_, outside⟩
    · cases store.symm.trans read
    · exact absurd scopeS (outside S serves.found)
  | moved _ hoist =>
    obtain ⟨v, temp, e, before, _, _, ref, define, _, x, _, formal, _, _, stands⟩ := hoist.stored
    simp [addressed?, before, ref, names.stored define, itself_of_standsFor stands, Meaning.address?]
  | @addressed v ref args before operand of indirect _ now =>
    obtain ⟨r, rfl⟩ := List.length_eq_one_iff.mp (single n args serves.reached before)
    cases List.mem_singleton.mp operand
    obtain ⟨formal, _, made, stands⟩ := now
    simp [addressed?, named?, before, made, of, names.formal stands, itself_of_standsFor stands,
      formalMeaning, indirect, Meaning.address?, Meaning.var?]
  | buried _ use _ => cases use.symm.trans read

/-- A node that is no reference and has not given way does what it did. -/
theorem Course.event_eq (serves : Serves p f S mode n) (scopeS : p.scope? S = some f)
    (noRef : (p.kind n).symRef? = none) (reachedT : t.Reached n) :
    event? t means (mode, n) = event? p (itself (given f)) (mode, n) := by
  have sound := evolved.stage.base_sound
  have live := sound.live_of_reached serves.reached
  have kindT := evolved.reworked.kind live.known (evolved.sound.live_of_reached reachedT) noRef
  cases kind : p.kind n with
  | prim op args =>
    rw [kind] at kindT
    have same : t.kind n = .prim op (args.map w.swap) := kindT
    -- Only a dereference of one operand does something.
    match args with
    | [] | _ :: _ :: _ => cases op <;> simp [event?, kind, same]
    | [a] =>
      by_cases isDeref : op = .deref
      · subst isDeref
        have operand : (Mode.value, a) ∈ (p.kind n).evaluates 1 := by simp [kind, NodeKind.evaluates]
        have servesA := serves.operand sound operand
        have address := course.addressed_eq evolved single gone names servesA scopeS
        simp [event?, kind, same, address]
      · cases op <;> simp [event?, kind, same] at isDeref ⊢
  | symRef v =>
    rw [kind] at noRef
    cases noRef
  | _ =>
    rw [kind] at kindT
    simp [event?, kind, kindT, Rework.kind, NodeKind.mapChildren]

/-- A node that is as it was does what it did, in so far as it stays in place, if its operands do. -/
theorem Course.happens_of_kept {depth : Nat}
    (operands : ∀ {mode c}, Serves p f S mode c → (mode = .address → (p.kind c).symRef? = none) →
      happens t (fun n => (p.children n).length) means depth (mode, w.swap c) =
        (happens p (fun n => (p.children n).length) (itself (given f)) depth (mode, c)).filter
          (inPlace p f))
    (serves : Serves p f S mode n) (scopeS : p.scope? S = some f) (swap : w.swap n = n)
    (noRef : (p.kind n).symRef? = none) (reachedT : t.Reached n) :
    happens t (fun n => (p.children n).length) means (depth + 1) (mode, n) =
      (happens p (fun n => (p.children n).length) (itself (given f)) (depth + 1) (mode, n)).filter
        (inPlace p f) := by
  have sound := evolved.stage.base_sound
  have live := sound.live_of_reached serves.reached
  have kindT := evolved.reworked.kind live.known (evolved.sound.live_of_reached reachedT) noRef
  have stays : (event? p (itself (given f)) (mode, n)).toList.filter (inPlace p f) =
      (event? p (itself (given f)) (mode, n)).toList := by
    refine List.filter_eq_self.mpr fun e happens => ?_
    exact inPlace_of_event noRef (Option.mem_toList.mp happens)
  have event := course.event_eq evolved single gone names serves scopeS noRef reachedT
  rw [happens_succ, happens_succ, kindT, children, Rework.evaluates_kind, List.flatMap_map,
    List.filter_append, List.filter_flatMap, stays, event]
  congr 1
  refine List.flatMap_congr ?_
  rintro ⟨mode', c⟩ operand
  have servesC := serves.operand sound operand
  by_cases taken : mode' = .address ∧ (p.kind c).symRef? ≠ none
  · -- Nothing happens where an address is taken.
    obtain ⟨rfl, isRef⟩ := taken
    obtain ⟨v, isRef⟩ := Option.ne_none_iff_exists'.mp isRef
    have kindC := NodeKind.symRef?_eq_some.mp isRef
    have link := sound.forest.child_parent live (NodeKind.child_of_evaluates operand)
    obtain ⟨x, kindT⟩ := course.ref_of_address servesC sound.forest link swap kindC
    simp only [Prod.map, id]
    rw [happens_of_silent kindC (event?_of_address kindC),
      happens_of_silent kindT (event?_of_address kindT)]
    rfl
  · refine operands servesC fun isAddress => ?_
    by_contra isRef
    exact taken ⟨isAddress, isRef⟩

/-- Of what happens when a node is evaluated, what stays in place happens in the order in which it
happened before. -/
theorem Course.happens_eq (depth : Nat) (serves : Serves p f S mode n) (scopeS : p.scope? S = some f)
    (shown : mode = .address → (p.kind n).symRef? = none) :
    happens t (fun n => (p.children n).length) means depth (mode, w.swap n) =
      (happens p (fun n => (p.children n).length) (itself (given f)) depth (mode, n)).filter
        (inPlace p f) := by
  induction depth generalizing mode n with
  | zero => rfl
  | succ depth ih =>
    have reachedT := course.reached_swap evolved single serves.reached serves.scope
      fun prim use v kind => by
        have isAddress : mode = .address := by rw [← serves.mode_eq, use, Use.mode]
        have noRef := shown isAddress
        rw [kind] at noRef
        cases noRef
    rw [happens_succ, happens_succ]
    cases course.lot serves.reached serves.scope with
    | kept swap refs =>
      rw [swap] at reachedT ⊢
      cases isRef : (p.kind n).symRef? with
      | some v =>
        have kind := NodeKind.symRef?_eq_some.mp isRef
        obtain ⟨before, after⟩ := silent_of_kept evolved gone names kind serves.reached
          serves.scope reachedT (refs v kind)
        simp [kind, refs v kind, NodeKind.evaluates, event?, named?, before, after]
      | none =>
        rw [← happens_succ, ← happens_succ]
        exact course.happens_of_kept evolved single gone names ih serves scopeS swap isRef reachedT
    | aimed before direct swap now =>
      obtain ⟨formal, _, ref, stands⟩ := now
      cases mode <;>
        simp [swap, ref, before, NodeKind.evaluates, event?, named?, names.formal stands,
          itself_of_standsFor stands, formalMeaning, direct, Meaning.var?, Event.of?, List.filter_cons]
    | placed before indirect use now =>
      obtain ⟨_, x, deref, formal, _, made, stands⟩ := now
      have store := use.resolve_right fun outside => outside.2 S serves.found scopeS
      obtain rfl : mode = .target := by rw [← serves.mode_eq, store, Use.mode]
      have silent : event? t means (.value, x) = none := by
        simp [event?, named?, made, names.formal stands, formalMeaning, indirect, Meaning.var?]
      simp [deref, before, NodeKind.evaluates, happens_of_silent made silent, event?, named?,
        addressed?, made, names.formal stands, itself_of_standsFor stands, formalMeaning, indirect,
        Meaning.var?, Meaning.address?, Event.of?, List.filter_cons]
    | moved _ hoist =>
      obtain ⟨v, temp, e, before, indirect, _, ref, define, behind⟩ := hoist.stored
      obtain ⟨_, _, _, _, _, _, stands⟩ := behind
      obtain rfl : mode = .value := by rw [← serves.mode_eq, hoist.use, Use.mode]
      simp [before, ref, NodeKind.evaluates, event?, named?, names.stored define,
        itself_of_standsFor stands, Meaning.var?, Event.of?, indirect]
    | @addressed v ref args before operand of indirect _ now =>
      obtain ⟨r, rfl⟩ := List.length_eq_one_iff.mp (single n args serves.reached before)
      cases List.mem_singleton.mp operand
      obtain ⟨formal, _, made, stands⟩ := now
      simp [before, made, NodeKind.evaluates, happens_of_silent of (event?_of_address of), event?,
        named?, names.formal stands, formalMeaning, indirect, Meaning.var?]
    | buried before use _ =>
      have isAddress : mode = .address := by rw [← serves.mode_eq, use, Use.mode]
      have noRef := shown isAddress
      rw [before] at noRef
      cases noRef

end

/-! Statements that move out of a function. -/

section

variable (moved : Relocates t q)

include moved

/-- A node has the construct that it had, or it is a block and was one. -/
theorem kind_of_relocates (n : NodeId) : q.kind n = t.kind n ∨
    ∃ stmts stmts', t.kind n = .block stmts ∧ q.kind n = .block stmts' := by
  cases isBlock : (t.kind n).isBlock with
  | false => exact .inl (moved.order.kind isBlock)
  | true =>
    cases kind : t.kind n <;> simp [kind, NodeKind.isBlock] at isBlock
    obtain ⟨stmts', kindQ, _⟩ := moved.order.block kind
    exact .inr ⟨_, stmts', rfl, kindQ⟩

theorem named?_of_relocates (n : NodeId) : named? q means n = named? t means n := by
  rcases kind_of_relocates moved n with same | ⟨_, _, before, after⟩
  · simp only [named?, same]
  · simp only [named?, before, after]

theorem addressed?_of_relocates (n : NodeId) : addressed? q means n = addressed? t means n := by
  rcases kind_of_relocates moved n with same | ⟨_, _, before, after⟩
  · simp only [addressed?, same, named?_of_relocates moved]
  · simp only [addressed?, before, after]

theorem happens_of_relocates (depth : Nat) (mode : Mode) (n : NodeId) :
    happens q arity means depth (mode, n) = happens t arity means depth (mode, n) := by
  induction depth generalizing mode n with
  | zero => rfl
  | succ depth ih =>
    have each (operands : List (Mode × NodeId)) :
        operands.flatMap (happens q arity means depth) =
          operands.flatMap (happens t arity means depth) :=
      List.flatMap_congr fun ⟨mode', c⟩ _ => ih mode' c
    rw [happens_succ, happens_succ, each]
    rcases kind_of_relocates moved n with same | ⟨_, _, before, after⟩
    · simp only [event?, same, named?_of_relocates moved, addressed?_of_relocates moved]
    · simp only [event?, before, after, NodeKind.evaluates]

end

/-! The formals after the conversion. -/

/-- The formals that `f` has got for captured variables, and what they stand for. -/
def formalNames (p q : Program) (f x : SymbolId) : Option Meaning :=
  (((Captures.compute p (.build p)).of f).zip
    ((q.formalDefs f).drop (p.formalDefs f).length)).findSome? fun (v, d) =>
      if (q.kind d).defines? = some x then some (formalMeaning p f v) else none

theorem findSome?_of_unique {α β : Type} {l : List α} {of : α → Option β} {a : α} {b : β}
    (member : a ∈ l) (here : of a = some b) (unique : ∀ a' ∈ l, ∀ b', of a' = some b' → b' = b) :
    l.findSome? of = some b := by
  cases found : l.findSome? of with
  | none =>
    rw [List.findSome?_eq_none_iff.mp found a member] at here
    cases here
  | some b' =>
    obtain ⟨a', member', there⟩ := List.exists_of_findSome?_eq_some found
    rw [unique a' member' b' there]

/-- No formal is added twice. -/
theorem Underway.added_nodup {captures : Captures} {passed : List NodeId} {fnDef : NodeId}
    (underway : Underway p captures passed first start given w t) (placed : p.Placed f fnDef) :
    (w.added fnDef).Nodup := by
  have evolved := underway.evolved
  have placedT := evolved.stage.frame.placed evolved.stage.base_sound placed
  have live := evolved.sound.live_of_reached placedT.1
  obtain ⟨_, formals, body, kind, _⟩ := evolved.stage.base_settled.fnBody?_eq placed
  have now := evolved.reworked.kind (evolved.stage.base_sound.live_of_reached placed.1).known live
    (by rw [kind]; rfl)
  have distinct := evolved.sound.forest.children_nodup live
  rw [children, now, kind] at distinct
  exact distinct.of_append_left.of_append_right

theorem Transforms.names {passed : List NodeId}
    (transforms : Transforms p (.compute p (.build p)) passed first start w t q)
    (settled : p.Settled) (settledQ : q.Settled) :
    Names p (Captures.compute p (.build p)).of w t f (formalNames p q f) := by
  have underway := transforms.underway
  have sound := underway.evolved.sound
  have defines (d : NodeId) : (q.kind d).defines? = (t.kind d).defines? :=
    (transforms.moved.head d).defines
  have formals {fnDef : NodeId} (placed : p.Placed f fnDef) :
      (q.formalDefs f).drop (p.formalDefs f).length = w.added fnDef := by
    rw [transforms.formalDefs_eq settledQ placed, List.drop_left]
  -- A formal that is named is new, and its definition gives it no value.
  have named {x : SymbolId} {m : Meaning} (found : formalNames p q f x = some m) :
      p.symbols.size ≤ x.index ∧ ∃ d, t.kind d = .define x none := by
    obtain ⟨⟨v, d⟩, pair, here⟩ := List.exists_of_findSome?_eq_some found
    obtain ⟨fnDef, placed⟩ := settled.placed_of_registered (Captures.registered_of_capturing
      (Captures.mem_capturing (List.of_mem_zip pair).1))
    rw [formals placed] at pair
    obtain ⟨x', formalFor⟩ := (List.forall₂_iff_zip.mp (underway.formals placed)).2 pair
    have defined : (q.kind d).defines? = some x' := by rw [defines, formalFor.define]; rfl
    obtain ⟨same, _⟩ := Option.ite_none_right_eq_some.mp here
    cases defined.symm.trans same
    exact ⟨formalFor.fresh, d, formalFor.define⟩
  refine ⟨?_, fun {x} known => ?_, fun {d e x} stored => ?_⟩
  · rintro v x ⟨fnDef, d, placed, pair, define⟩
    have defined : (q.kind d).defines? = some x := by rw [defines, define]; rfl
    have distinct := underway.added_nodup placed
    rw [formalNames, formals placed]
    refine findSome?_of_unique pair (if_pos defined) ?_
    rintro ⟨v', d'⟩ pair' m here
    obtain ⟨same, meaning⟩ := Option.ite_none_right_eq_some.mp here
    rw [defines] at defined same
    cases sound.bound_unique defined same
    have seconds : (((Captures.compute p (.build p)).of f).zip (w.added fnDef)).map Prod.snd =
        w.added fnDef := List.map_snd_zip (underway.length_given placed).ge
    cases List.inj_on_of_nodup_map (seconds.symm ▸ distinct) pair' pair rfl
    exact (Option.some.inj meaning).symm
  · by_contra found
    obtain ⟨m, found⟩ := Option.ne_none_iff_exists'.mp found
    exact absurd known (Nat.not_lt.mpr (named found).1)
  · by_contra found
    obtain ⟨m, found⟩ := Option.ne_none_iff_exists'.mp found
    obtain ⟨_, d', define⟩ := named found
    have same : d = d' := sound.bound_unique (s := x) (by rw [stored]; rfl) (by rw [define]; rfl)
    subst same
    cases stored.symm.trans define

end Closure

end MiddleEnd
