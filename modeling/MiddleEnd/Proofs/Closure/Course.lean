import MiddleEnd.Proofs.Closure.Formals

/-! What becomes of the nodes of a function, one by one, when functions get their formals. -/

namespace MiddleEnd

open Outcome

namespace Closure

open Program

variable {p t q start : Program} {f g v formal : SymbolId} {n d ref x : NodeId} {w w' first : Rework}
  {given given' : SymbolId → List SymbolId}

theorem address_of_use {prim : NodeId} (use : useOf p ref = .addressOf prim) :
    p.parent? ref = some prim ∧ ∃ args, p.kind prim = .prim .addrOf args := by
  rcases useOf_cases p ref with ⟨prim', args, here, link, kind⟩ | ⟨_, _, here, _⟩ | here
  · cases use.symm.trans here
    exact ⟨link, args, kind⟩
  · cases use.symm.trans here
  · cases use.symm.trans here

/-- Does the formal of `f` for the captured variable `v` hold the address of the variable? -/
def byReference (p : Program) (f v : SymbolId) : Bool :=
  (p.symbol v).ty.hasRefForm && !isIteratorHelper p f

theorem isDirect_eq {passed : List NodeId} :
    isDirect p passed f v ref = (!byReference p f v || passed.contains ref) := by
  rw [isDirect, byReference, Ty.hasRefForm]
  cases (p.symbol v).ty.refForm <;> cases isIteratorHelper p f <;> rfl

theorem isDirect_eq_false {passed : List NodeId} :
    isDirect p passed f v ref = false ↔ byReference p f v = true ∧ ref ∉ passed := by
  simp [isDirect_eq]

theorem StandsFor.captured (stands : StandsFor p given w t f v formal) : v ∈ given f := by
  obtain ⟨_, _, _, pair, _⟩ := stands
  exact (List.of_mem_zip pair).1

/-- The node refers to the formal of `f` for the captured variable `v`. -/
def ToFormal (p : Program) (given : SymbolId → List SymbolId) (w : Rework) (t : Program)
    (f v : SymbolId) (x : NodeId) : Prop :=
  ∃ formal, p.symbols.size ≤ formal.index ∧ t.kind x = .symRef formal ∧ StandsFor p given w t f v formal

/-- The node is what the formal of `f` for the captured variable `v` refers to. -/
def Behind (p : Program) (given : SymbolId → List SymbolId) (w : Rework) (t : Program)
    (f v : SymbolId) (d : NodeId) : Prop :=
  p.nodes.size ≤ d.index ∧ ∃ x, t.kind d = .prim .deref [x] ∧ ToFormal p given w t f v x

/-- The reference `n` to a captured variable has become one to a new variable, which `d` defines in
front of the statement `s`, with what the formal for the captured variable refers to. -/
structure Hoist (p : Program) (given : SymbolId → List SymbolId) (w : Rework) (t : Program)
    (f : SymbolId) (s n d : NodeId) : Prop where
  found : p.enclosingStmt? n = some s
  scope : p.scope? s = some f
  use : useOf p n = .read
  isNew : p.nodes.size ≤ d.index
  swapNew : p.nodes.size ≤ (w.swap n).index
  stored : ∃ v temp e, p.kind n = .symRef v ∧ byReference p f v = true ∧
    p.symbols.size ≤ temp.index ∧ t.kind (w.swap n) = .symRef temp ∧
    t.kind d = .define temp (some e) ∧ Behind p given w t f v e

/-- What has become of a node of the function `f`. The reads in `hoists s` have been moved in front of
the statement `s`. -/
inductive Lot (p : Program) (given : SymbolId → List SymbolId) (w : Rework) (t : Program)
    (hoists : NodeId → List (NodeId × NodeId)) (f : SymbolId) (n : NodeId) : Prop where
  | kept (swap : w.swap n = n) (ref : ∀ v, p.kind n = .symRef v → t.kind n = .symRef v)
  /-- It refers to the formal in the place of the variable. -/
  | aimed {v : SymbolId} (before : p.kind n = .symRef v) (direct : byReference p f v = false)
      (swap : w.swap n = n) (now : ToFormal p given w t f v n)
  /-- What the formal refers to stands in its place. -/
  | placed {v : SymbolId} (before : p.kind n = .symRef v) (indirect : byReference p f v = true)
      (use : useOf p n = .store ∨ useOf p n = .read ∧
        ∀ stmt, p.enclosingStmt? n = some stmt → p.scope? stmt ≠ some f)
      (now : Behind p given w t f v (w.swap n))
  | moved {s d : NodeId} (listed : (n, d) ∈ hoists s) (hoist : Hoist p given w t f s n d)
  /-- It took the address of the variable, and the formal stands in its place. -/
  | addressed {v : SymbolId} {ref : NodeId} {args : List NodeId} (before : p.kind n = .prim .addrOf args)
      (operand : ref ∈ args) (of : p.kind ref = .symRef v) (indirect : byReference p f v = true)
      (isNew : p.nodes.size ≤ (w.swap n).index) (now : ToFormal p given w t f v (w.swap n))
  /-- It has gone with what took its address. -/
  | buried {v : SymbolId} {prim : NodeId} (before : p.kind n = .symRef v)
      (use : useOf p n = .addressOf prim) (gone : p.nodes.size ≤ (w.swap prim).index)

/-- What a step of the conversion leaves as it is. -/
structure Onward (p : Program) (given : SymbolId → List SymbolId) (w : Rework) (t : Program)
    (given' : SymbolId → List SymbolId) (w' : Rework) (q : Program) : Prop where
  /-- References to new symbols. -/
  refs {n : NodeId} {v : SymbolId} : p.symbols.size ≤ v.index → t.kind n = .symRef v →
    q.kind n = .symRef v
  /-- New nodes that are no references. -/
  kind {n : NodeId} {k : NodeKind} : p.nodes.size ≤ n.index → t.kind n = k → k ≠ .brk →
    k.symRef? = none → q.kind n = k
  stands {f v formal : SymbolId} : StandsFor p given w t f v formal →
    StandsFor p given' w' q f v formal
  /-- What has taken the place of an old node. -/
  swap {n : NodeId} : p.nodes.size ≤ (w.swap n).index → w'.swap n = w.swap n
  /-- An old reference that leads to a new symbol. -/
  aim {n : NodeId} {u v : SymbolId} : p.kind n = .symRef u → p.symbols.size ≤ v.index →
    t.kind n = .symRef v → w.swap n = n → w'.swap n = n

section

variable (ahead : Onward p given w t given' w' q)

include ahead

theorem ToFormal.onward (now : ToFormal p given w t f v x) : ToFormal p given' w' q f v x := by
  obtain ⟨formal, fresh, ref, stands⟩ := now
  exact ⟨formal, fresh, ahead.refs fresh ref, ahead.stands stands⟩

theorem Behind.onward (behind : Behind p given w t f v d) : Behind p given' w' q f v d := by
  obtain ⟨isNew, x, deref, now⟩ := behind
  exact ⟨isNew, x, ahead.kind isNew deref (by simp) rfl, now.onward ahead⟩

theorem Hoist.onward {s : NodeId} (hoist : Hoist p given w t f s n d) :
    Hoist p given' w' q f s n d := by
  obtain ⟨v, temp, e, before, indirect, fresh, ref, define, behind⟩ := hoist.stored
  have swap := ahead.swap hoist.swapNew
  refine ⟨hoist.found, hoist.scope, hoist.use, hoist.isNew, swap ▸ hoist.swapNew, v, temp, e, before,
    indirect, fresh, ?_, ahead.kind hoist.isNew define (by simp) rfl, behind.onward ahead⟩
  rw [swap]
  exact ahead.refs fresh ref

end

theorem Hoist.known {s : NodeId} (hoist : Hoist p given w t f s n d) : n.index < p.nodes.size := by
  obtain ⟨v, _, _, before, _⟩ := hoist.stored
  exact known_of_ref before

/-- What has become of all nodes, and what stands in front of statements. -/
structure Course (p : Program) (first : Rework) (given : SymbolId → List SymbolId) (w : Rework)
    (t : Program) (hoists : NodeId → List (NodeId × NodeId)) : Prop where
  lot {n : NodeId} {f : SymbolId} : p.Reached n → p.scope? n = some f → Lot p given w t hoists f n
  front (s : NodeId) : w.front s = first.front s ++ (hoists s).map Prod.snd
  distinct (s : NodeId) : ((hoists s).map Prod.fst).Nodup
  hoist {s n d : NodeId} : (n, d) ∈ hoists s → p.Reached n ∧ ∃ f, p.scope? n = some f ∧
    Hoist p given w t f s n d

variable {hoists hoists' : NodeId → List (NodeId × NodeId)}

/-- Only nodes that are as they were can take another course. -/
theorem Lot.onward (lot : Lot p given w t hoists f n) (ahead : Onward p given w t given' w' q)
    (more : ∀ s, hoists s ⊆ hoists' s)
    (kept : w.swap n = n → (∀ v, p.kind n = .symRef v → t.kind n = .symRef v) →
      Lot p given' w' q hoists' f n) : Lot p given' w' q hoists' f n := by
  cases lot with
  | kept swap ref => exact kept swap ref
  | aimed before direct swap now =>
    obtain ⟨formal, fresh, ref, _⟩ := id now
    exact .aimed before direct (ahead.aim before fresh ref swap) (now.onward ahead)
  | placed before indirect use now =>
    refine .placed before indirect use ?_
    rw [ahead.swap now.1]
    exact now.onward ahead
  | moved listed hoist => exact .moved (more _ listed) (hoist.onward ahead)
  | addressed before operand of indirect isNew now =>
    have swap := ahead.swap isNew
    refine .addressed before operand of indirect (swap ▸ isNew) ?_
    rw [swap]
    exact now.onward ahead
  | buried before use gone => exact .buried before use (ahead.swap gone ▸ gone)

/-- Where no more reads are moved, it is enough to know what becomes of the nodes that are as they
were. -/
theorem Course.onward (course : Course p first given w t hoists)
    (ahead : Onward p given w t given' w' q) (fronts : w'.front = w.front)
    (kept : ∀ {n f}, p.Reached n → p.scope? n = some f → w.swap n = n →
      (∀ v, p.kind n = .symRef v → t.kind n = .symRef v) → Lot p given' w' q hoists f n) :
    Course p first given' w' q hoists where
  lot reached scope :=
    (course.lot reached scope).onward ahead (fun _ => List.Subset.refl _) (kept reached scope)
  front s := by rw [fronts, course.front]
  distinct := course.distinct
  hoist member := by
    obtain ⟨reached, f, scope, hoist⟩ := course.hoist member
    exact ⟨reached, f, scope, hoist.onward ahead⟩

/-- One more read is moved in front of its statement. -/
theorem Course.moved {s r : NodeId} (course : Course p first given w t hoists)
    (ahead : Onward p given w t given ((w.insert s d).replace ref r) q)
    (refs : ∀ {n u}, n ≠ ref → t.kind n = .symRef u → q.kind n = .symRef u)
    (reached : p.Reached ref) (scope : p.scope? ref = some g) (swap : w.swap ref = ref)
    (hoist : Hoist p given ((w.insert s d).replace ref r) q g s ref d) :
    ∃ hoists', Course p first given ((w.insert s d).replace ref r) q hoists' := by
  let hoists' := Function.update hoists s (hoists s ++ [(ref, d)])
  have here : hoists' s = hoists s ++ [(ref, d)] := Function.update_self ..
  have there {s' : NodeId} (other : s' ≠ s) : hoists' s' = hoists s' := Function.update_of_ne other ..
  have more (s' : NodeId) : hoists s' ⊆ hoists' s' := by
    by_cases same : s' = s
    · rw [same, here]
      exact List.subset_append_left ..
    · rw [there same]
      exact List.Subset.refl _
  refine ⟨hoists', fun {n f} reachedN scopeN => ?_, fun s' => ?_, fun s' => ?_,
    fun {s' n d'} member => ?_⟩
  · refine (course.lot reachedN scopeN).onward ahead more fun swapN refsN => ?_
    by_cases same : n = ref
    · subst same
      cases scope.symm.trans scopeN
      exact .moved (by rw [here]; simp) hoist
    · refine .kept ?_ fun u before => refs same (refsN u before)
      rw [Rework.swap_replace_of_ne (by rwa [Rework.swap_insert, swapN]), Rework.swap_insert, swapN]
  · rw [Rework.front_replace]
    by_cases same : s' = s
    · rw [same, here]
      simp [course.front]
    · rw [Rework.front_insert_of_ne _ _ same, course.front, there same]
  · by_cases same : s' = s
    · rw [same, here, List.map_append, List.nodup_append]
      refine ⟨course.distinct s, List.nodup_singleton ref, ?_⟩
      intro n listed m last
      rw [List.mem_singleton.mp last]
      rintro rfl
      -- What has been moved already has given way.
      obtain ⟨⟨_, d'⟩, member, rfl⟩ := List.mem_map.mp listed
      obtain ⟨_, _, _, earlier⟩ := course.hoist member
      have isNew := earlier.swapNew
      rw [swap] at isNew
      exact absurd earlier.known (Nat.not_lt.mpr isNew)
    · rw [there same]
      exact course.distinct s'
  · have before (member : (n, d') ∈ hoists s') : p.Reached n ∧ ∃ f, p.scope? n = some f ∧
        Hoist p given ((w.insert s d).replace ref r) q f s' n d' := by
      obtain ⟨reachedN, f, scopeN, earlier⟩ := course.hoist member
      exact ⟨reachedN, f, scopeN, earlier.onward ahead⟩
    by_cases same : s' = s
    · rw [same, here, List.mem_append, List.mem_singleton] at member
      rcases member with earlier | last
      · exact before (same ▸ earlier)
      · cases last
        exact ⟨reached, g, scope, same ▸ hoist⟩
    · rw [there same] at member
      exact before member

/-- A reference that is there and leads to an old symbol is as it was. -/
theorem Course.ref_of_live (course : Course p first given w t hoists) (evolved : Evolved p w t)
    (reached : p.Reached n) (scope : p.scope? n = some f) (live : t.Live n)
    (isRef : t.kind n = .symRef v) (old : v.index < p.symbols.size) :
    w.swap n = n ∧ p.kind n = .symRef v := by
  have soundP := evolved.stage.base_sound
  have frame := evolved.stage.frame
  have here {m : NodeId} (reached : p.Reached m) (live : t.Live m)
      (plain : (p.kind m).isBlock = false) : w.swap m = m := by
    obtain ⟨owner, link, reachedO⟩ := soundP.exists_owner reached plain
    exact evolved.reworked.swap_of_live soundP evolved.sound frame reachedO
      (soundP.forest.owner_lists (soundP.live_of_reached reached) link) live
  have known := (soundP.live_of_reached reached).known
  have tag := frame.tag known
  rw [isRef] at tag
  obtain ⟨u, before⟩ : ∃ u, p.kind n = .symRef u := by
    cases kind : p.kind n <;> simp [kind, NodeKind.tag] at tag
    exact ⟨_, rfl⟩
  have swap := here reached live (by rw [before]; rfl)
  have absent {m : NodeId} (same : w.swap m = m) (isNew : p.nodes.size ≤ (w.swap m).index)
      (known : m.index < p.nodes.size) : False := by
    rw [same] at isNew
    exact absurd known (Nat.not_lt.mpr isNew)
  refine ⟨swap, ?_⟩
  cases course.lot reached scope with
  | kept _ refs =>
    cases (refs u before).symm.trans isRef
    exact before
  | aimed _ _ _ now =>
    obtain ⟨formal, fresh, ref, _⟩ := now
    cases ref.symm.trans isRef
    exact absurd old (Nat.not_lt.mpr fresh)
  | placed _ _ _ now => exact (absent swap now.1 known).elim
  | moved _ hoist => exact (absent swap hoist.swapNew known).elim
  | addressed other => cases before.symm.trans other
  | buried _ use gone =>
    -- Where it is, there is what takes its address.
    obtain ⟨link, args, kind⟩ := address_of_use use
    have reachedP := soundP.forest.reached_owner soundP.rooted reached link
    have liveP := evolved.sound.forest.owner_live live ((frame.parent reached live).trans link)
    exact (absent (here reachedP liveP (by rw [kind]; rfl)) gone
      (soundP.live_of_reached reachedP).known).elim

section

variable {captures : Captures} {passed : List NodeId} {fnDef : NodeId}
  (underway : Underway p captures passed first start given w t)

include underway

theorem Underway.onward_formal (placed : p.Placed f fnDef)
    (introduces : Introduces p w t f fnDef v formal d q) :
    Onward p given w t (Function.update given f (given f ++ [v])) (w.add fnDef d) q where
  refs _ := introduces.keeps.refs
  kind {n k} isNew kind other _ := by
    rw [(introduces.keeps.retains fun _ => False).kind isNew (known_of_kind (by rwa [kind])) id, kind]
  stands := underway.standsFor_introduced underway.evolved.stage.base_sound placed introduces
  swap _ := rfl
  aim _ _ _ := id

/-- A function gets a formal for the next variable, and no use follows yet. -/
theorem Course.introduced (course : Course p first given w t hoists) (placed : p.Placed f fnDef)
    (introduces : Introduces p w t f fnDef v formal d q) :
    Course p first (Function.update given f (given f ++ [v])) (w.add fnDef d) q hoists :=
  course.onward (underway.onward_formal placed introduces) rfl fun _ _ swap refs =>
    .kept swap fun u ref => introduces.keeps.refs (refs u ref)

variable (old : v.index < p.symbols.size) (isRef : t.kind ref = .symRef v) {direct : Bool}
  (source : direct = false → ref.index < p.nodes.size) (turned : Turned p t ref w' q)
  (turn : Turn p w t g formal direct ref q w')

include old isRef source turned turn

theorem Underway.onward_use : Onward p given w t given w' q where
  refs {n u} fresh kind := by
    refine turned.refs ?_ kind
    rintro rfl
    cases kind.symm.trans isRef
    exact absurd old (Nat.not_lt.mpr fresh)
  kind {n k} isNew kind other noRef := by
    rw [turned.retains.kind isNew (known_of_kind (by rwa [kind])), kind]
    rintro rfl
    rw [← kind, isRef] at noRef
    cases noRef
  stands := underway.standsFor_turned isRef turned turn
  swap {n} isNew := by
    have other {m : NodeId} (known : m.index < p.nodes.size) : w.swap n ≠ m := by
      rintro rfl
      exact absurd known (Nat.not_lt.mpr isNew)
    cases turn with
    | gone | aim => rfl
    | address _ use =>
      exact Rework.swap_replace_of_ne
        (other (underway.evolved.stage.base_sound.forest.owner_known (address_of_use use).1))
    | place indirect => exact Rework.swap_replace_of_ne (other (source indirect))
    | hoist indirect => exact Rework.swap_replace_of_ne (other (source indirect))
  aim {n u x} before fresh kind swap := by
    have apart : w.swap n ≠ ref := by
      rw [swap]
      rintro rfl
      cases kind.symm.trans isRef
      exact absurd old (Nat.not_lt.mpr fresh)
    rcases turn.swap_cases apart with same | ⟨⟨args, address⟩, _⟩
    · rw [same, swap]
    · rw [swap, before] at address
      cases address

end

section

variable {captures : Captures} {passed : List NodeId} (course : Course p first given w t hoists)
  (supplying : Supplying p first passed start)
  (underway : Underway p captures passed first start given w t) (old : v.index < p.symbols.size)
  (stands : StandsFor p given w t g v formal) (isRef : t.kind ref = .symRef v)
  (inside : t.Live ref → t.Reached ref ∧ t.scope? ref = some g)
  (source : ref.index < p.nodes.size ∨ ref ∈ passed) (turned : Turned p t ref w' q)
  (turn : Turn p w t g formal (isDirect p passed g v ref) ref q w')

include course underway old isRef inside

/-- An old use that is there refers to the variable as it did, in the function of the formal. -/
theorem Course.at_use (reached : p.Reached ref) (scope : p.scope? ref = some f) (live : t.Live ref) :
    f = g ∧ w.swap ref = ref ∧ p.kind ref = .symRef v := by
  have evolved := underway.evolved
  refine ⟨?_, course.ref_of_live evolved reached scope live isRef old⟩
  rw [← Option.some.injEq, ← scope, ← evolved.stage.frame.scope reached live, (inside live).2]

include supplying stands source turned turn

/-- One use of the variable goes to the formal. -/
theorem Course.use : ∃ hoists', Course p first given w' q hoists' := by
  have evolved := underway.evolved
  have soundP := evolved.stage.base_sound
  have isOld (indirect : isDirect p passed g v ref = false) : ref.index < p.nodes.size :=
    source.resolve_right (isDirect_eq_false.mp indirect).2
  have ahead := underway.onward_use old isRef isOld turned turn
  have atUse {f : SymbolId} (reached : p.Reached ref) (scope : p.scope? ref = some f) :=
    course.at_use underway old isRef inside reached scope
  have isReached (live : t.Live ref) (indirect : isDirect p passed g v ref = false) : p.Reached ref :=
    evolved.reworked.reached_of_reached evolved.sound evolved.stage.frame (inside live).1
      (isOld indirect)
  have now {x : NodeId} (made : q.kind x = .symRef formal) : ToFormal p given w' q g v x := by
    obtain ⟨_, formalFor⟩ := underway.formalFor_of_standsFor stands
    exact ⟨formal, formalFor.fresh, made, ahead.stands stands⟩
  have other {n : NodeId} (apart : n ≠ ref) (swap : w'.swap n = n)
      (refs : ∀ u, p.kind n = .symRef u → t.kind n = .symRef u)
      {hoists' : NodeId → List (NodeId × NodeId)} {f : SymbolId} : Lot p given w' q hoists' f n :=
    .kept swap fun u before => turned.refs apart (refs u before)
  cases turn with
  | gone _ same =>
    subst same
    exact ⟨hoists, course.onward ahead rfl fun _ _ swap refs => .kept swap refs⟩
  | aim direct live made =>
    refine ⟨hoists, course.onward ahead rfl fun {n f} reached scope swap refs => ?_⟩
    by_cases same : n = ref
    · subst same
      obtain ⟨rfl, _, before⟩ := atUse reached scope live
      refine .aimed before ?_ swap (now made)
      -- What a call passes on is new.
      have missing : n ∉ passed := fun member => by
        obtain ⟨⟨call, added⟩, _⟩ := supplying.passed_ref member
        exact absurd (soundP.live_of_reached reached).known
          (Nat.not_lt.mpr (supplying.evolved.reworked.added added))
      simpa [isDirect_eq, missing] using direct
    · exact other same swap refs
  | @address prim x indirect use isNew made live =>
    obtain ⟨link, args, kind⟩ := address_of_use use
    refine ⟨hoists, course.onward ahead rfl fun {n f} reachedN scope swap refs => ?_⟩
    by_cases same : n = ref
    · subst same
      obtain ⟨_, _, before⟩ := atUse reachedN scope live
      refine .buried before use ?_
      rcases evolved.reworked.swap prim with unmoved | gone
      · rwa [Rework.swap_replace_of_eq unmoved]
      · rwa [ahead.swap gone]
    by_cases isPrim : n = prim
    · subst isPrim
      have reachedR := isReached live indirect
      have child := soundP.forest.owner_lists (soundP.live_of_reached reachedR) link
      have scopeR : p.scope? ref = some f := by
        rw [soundP.scope_below reachedN child, scopeBelow_eq, kind]
        exact scope
      obtain ⟨rfl, _, before⟩ := atUse reachedR scopeR live
      rw [children, kind, NodeKind.children] at child
      have swapped : (w.replace n x).swap n = x := Rework.swap_replace_of_eq swap
      exact .addressed kind child before (isDirect_eq_false.mp indirect).1 (swapped.symm ▸ isNew)
        (swapped.symm ▸ now made)
    · refine other same ?_ refs
      rw [Rework.swap_replace_of_ne (by rwa [swap]), swap]
  | @place d x indirect use isNew deref refNew made live =>
    refine ⟨hoists, course.onward ahead rfl fun {n f} reached scope swap refs => ?_⟩
    by_cases same : n = ref
    · subst same
      obtain ⟨rfl, _, before⟩ := atUse reached scope live
      refine .placed before (isDirect_eq_false.mp indirect).1 use ?_
      rw [Rework.swap_replace_of_eq swap]
      exact ⟨isNew, x, deref, now made⟩
    · refine other same ?_ refs
      rw [Rework.swap_replace_of_ne (by rwa [swap]), swap]
  | @hoist stmt d x tempDef r ty temp indirect use found scopeS holds isNew deref refNew made live =>
    have reachedR := isReached live indirect
    have scopeR : p.scope? ref = some g := by
      rw [← evolved.stage.frame.scope reachedR live, (inside live).2]
    obtain ⟨_, swap, before⟩ := atUse reachedR scopeR live
    have swapped : ((w.insert stmt tempDef).replace ref r).swap ref = r :=
      Rework.swap_replace_of_eq (by rwa [Rework.swap_insert])
    have hoist : Hoist p given ((w.insert stmt tempDef).replace ref r) q g stmt ref tempDef :=
      { found := found
        scope := scopeS
        use := use
        isNew := turned.evolved.reworked.front (by rw [Rework.front_replace]; exact holds.front)
        swapNew := by rw [swapped]; exact holds.ref_new
        stored := ⟨v, temp, d, before, (isDirect_eq_false.mp indirect).1, holds.fresh,
          by rw [swapped]; exact holds.ref_eq, holds.define, isNew, x, deref, now made⟩ }
    exact course.moved ahead (fun apart ref => turned.refs apart ref) reachedR scopeR swap hoist

end

/-- All along the conversion every node has taken one of these courses. -/
theorem Converting.course {captures : Captures} {passed : List NodeId}
    (supplying : Supplying p first passed start)
    (known : ∀ f, ∀ v ∈ captures.of f, v.index < p.symbols.size)
    (run : Converting p captures passed first start given w t) :
    ∃ hoists, Course p first given w t hoists := by
  induction run with
  | start =>
    refine ⟨fun _ => [], fun _ _ => .kept (supplying.swap _) fun _ => supplying.refs,
      fun s => (List.append_nil _).symm, fun s => List.nodup_nil, fun member => ?_⟩
    cases member
  | formal before placed next introduces ih =>
    obtain ⟨hoists, course⟩ := ih
    exact ⟨hoists, course.introduced (before.underway supplying known) placed introduces⟩
  | use before placed last added define isRef inside source turned turn ih =>
    obtain ⟨hoists, course⟩ := ih
    have underway := before.underway supplying known
    exact course.use supplying underway (underway.known_of_given known (by rw [last]; simp))
      (underway.standsFor_last placed last added define) isRef inside source turned turn

end Closure

end MiddleEnd
