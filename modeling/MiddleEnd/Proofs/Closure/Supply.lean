import MiddleEnd.Proofs.Closure.Evolve

namespace MiddleEnd

open Outcome

namespace Closure

open Program TransformM

variable {p t : Program} {w : Rework} {targets : SymbolId → Prop}

/-- A new variable with the value `init` stands in front of `anchor`, and `ref` refers to it. -/
structure TempFor (p : Program) (w : Rework) (t : Program) (anchor init : NodeId) (ty : Ty)
    (temp : SymbolId) (tempDef ref : NodeId) : Prop where
  front : tempDef ∈ w.front anchor
  define : t.kind tempDef = .define temp (some init)
  ref_eq : t.kind ref = .symRef temp
  ref_new : p.nodes.size ≤ ref.index
  fresh : p.symbols.size ≤ temp.index
  known : temp.index < t.symbols.size
  ty_eq : (t.symbol temp).ty = ty

/-- What giving a value a variable of its own does. -/
structure Stores (p : Program) (w : Rework) (t : Program) (anchor init : NodeId) (ty : Ty)
    (temp : SymbolId) (tempDef ref : NodeId) (q : Program) : Prop where
  evolved : Evolved p (w.insert anchor tempDef) q
  frame : Frame t q
  retains (loose : NodeId → Prop) : Retains p.nodes.size loose t q
  holds : TempFor p (w.insert anchor tempDef) q anchor init ty temp tempDef ref
  lives {n : NodeId} : t.Live n → q.Live n
  others {n : NodeId} : n.index < t.nodes.size → (t.kind n).isBlock = false → q.kind n = t.kind n
  new {n : NodeId} : t.nodes.size ≤ n.index → n.index < q.nodes.size → n = tempDef ∨ n = ref
  sprig : q.Sprig ref (· = temp)

theorem supplyTemp_stores (evolved : Evolved p w t) {anchor init : NodeId} {ty : Ty} {span : Span}
    (sprig : t.Sprig init targets) (expr : (t.kind init).isExpr = true)
    (initNew : p.nodes.size ≤ init.index) (standing : p.Standing anchor) :
    Ends (supplyTemp anchor ty init span) t
      (fun ref q => ∃ temp tempDef, Stores p w t anchor init ty temp tempDef ref q)
      fun _ => True := by
  unfold supplyTemp
  refine ends_build_bind ?_
  have evolved1 : Evolved p w (t.addTemp ty).2 := evolved.addSymbol rfl rfl
  have frame1 : Frame t (t.addTemp ty).2 := frame_addSymbol evolved.sound _
  have sprig1 : (t.addTemp ty).2.Sprig init targets := sprig.addSymbol evolved.sound _
  have undefined : (t.addTemp ty).2.Undefined (t.addTemp ty).1 :=
    undefined_addSymbol evolved.sound (by simp [SymbolKind.sort]) (by simp [SymbolKind.sort])
  have retains1 (loose : NodeId → Prop) : Retains p.nodes.size loose t (t.addTemp ty).2 :=
    .addSymbol _
  have symbol1 : ((t.addTemp ty).2.symbol (t.addTemp ty).1).ty = ty ∧
      ((t.addTemp ty).2.symbol (t.addTemp ty).1).isValue = true := by
    rw [addTemp, symbol_addSymbol, if_pos rfl]
    exact ⟨rfl, rfl⟩
  have fresh : p.symbols.size ≤ (t.addTemp ty).1.index := evolved.stage.frame.symbols_size
  have size1 : (t.addTemp ty).2.nodes.size = t.nodes.size := rfl
  have kinds1 (n : NodeId) : (t.addTemp ty).2.kind n = t.kind n := rfl
  have lives1 {n : NodeId} (live : t.Live n) : (t.addTemp ty).2.Live n := live
  generalize (t.addTemp ty).1 = temp at *
  generalize (t.addTemp ty).2 = t1 at *
  refine ends_build_bind ?_
  have makes := evolved1.makesDefinition undefined (some init)
    (fun c isInit => Option.some.inj isInit ▸ sprig1)
    (fun c isInit => by
      cases isInit
      rw [kinds1]
      exact expr)
    (fun c isInit => Option.some.inj isInit ▸ initNew) span
  generalize (t1.addDefinition temp (some init) span).1 = tempDef at *
  generalize (t1.addDefinition temp (some init) span).2 = t2 at *
  refine Ends.bind (ends_edit (Q := fun _ t3 => Attaches p (w.insert anchor tempDef) t2 t3 ∧
    (∀ n, t2.Live n → t3.Live n) ∧ ∀ n, (t2.kind n).isBlock = false → t3.kind n = t2.kind n)
    (fun t3 result => makes.evolved.insertBefore makes.sprig standing result (makes.isNew evolved1))
    trivial) ?_
  rintro _ t3 ⟨attaches, lives3, others3⟩
  have known2 := undefined.known.trans_le makes.frame.symbols_size
  have known3 := known2.trans_le attaches.frame.symbols_size
  have value : (t3.symbol temp).isValue = true := by
    rw [Symbol.isValue_iff, attaches.frame.sort known2, makes.frame.sort undefined.known,
      ← Symbol.isValue_iff]
    exact symbol1.2
  have last := attaches.evolved.makesRef known3 value span
  have retains4 (loose : NodeId → Prop) := (attaches.retains loose).trans (last.retains loose)
  have sizes : t3.nodes.size = t.nodes.size + 1 := by
    rw [attaches.size, makes.size, size1]
  refine ends_build ⟨temp, tempDef,
    { evolved := last.evolved
      frame := ((frame1.trans makes.frame evolved.sound evolved1.sound).trans attaches.frame
        evolved.sound makes.evolved.sound).trans last.frame evolved.sound attaches.evolved.sound
      retains := fun loose => ((retains1 loose).trans (makes.retains loose)).trans (retains4 loose)
      holds :=
        { front := by simp
          define := ?_
          ref_eq := last.kind_id
          ref_new := last.isNew attaches.evolved
          fresh := fresh
          known := known3.trans_le last.frame.symbols_size
          ty_eq := ?_ }
      lives := fun live => last.lives (lives3 _ (makes.lives (lives1 live)))
      others := fun {n} known notBlock => ?_
      new := fun {n} above below => ?_
      sprig := last.sprig }⟩
  · rw [(retains4 fun _ => False).kind (makes.isNew evolved1)
      (by rw [makes.id_eq, makes.size]; exact Nat.lt_succ_self _) id, makes.kind_id]
  · rw [(retains4 fun _ => False).ty known2, (makes.retains fun _ => False).ty undefined.known]
    exact symbol1.1
  · have same : t2.kind n = t.kind n := by
      rw [makes.others (size1 ▸ known), kinds1]
    rw [last.others (by omega), others3 n (by rwa [same]), same]
  · rw [last.size] at below
    rw [makes.id_eq, last.id_eq, ← NodeId.index_inj, ← NodeId.index_inj]
    simp only
    omega

/-! The actual for one captured variable. -/

/-- The reference `n` makes up the value of a new variable in front of `anchor`. -/
def Operand (p : Program) (w : Rework) (t : Program) (anchor n : NodeId) : Prop :=
  ∃ tempDef temp init, tempDef ∈ w.front anchor ∧ t.kind tempDef = .define temp (some init) ∧
    p.nodes.size ≤ init.index ∧ (init = n ∨ t.kind init = .prim .addrOf [n])

/-- What a call passes for one actual of its plan. -/
inductive Supplied (p : Program) (w : Rework) (t : Program) (anchor : NodeId) :
    Actual → NodeId → Prop where
  | direct {v : SymbolId} {a : NodeId} (isNew : p.nodes.size ≤ a.index)
      (ref : t.kind a = .symRef v) : Supplied p w t anchor (.direct v) a
  | address {v temp : SymbolId} {a ref init tempDef : NodeId}
      (holds : TempFor p w t anchor init ((p.symbol v).ty.refForm.getD (p.symbol v).ty) temp tempDef a)
      (initNew : p.nodes.size ≤ init.index) (address : t.kind init = .prim .addrOf [ref])
      (refNew : p.nodes.size ≤ ref.index) (of : t.kind ref = .symRef v) :
      Supplied p w t anchor (.addressOf v) a
  | copy {v temp : SymbolId} {a init tempDef : NodeId}
      (holds : TempFor p w t anchor init (p.symbol v).ty temp tempDef a)
      (initNew : p.nodes.size ≤ init.index) (of : t.kind init = .symRef v) :
      Supplied p w t anchor (.copy v) a

theorem Supplied.isNew {anchor a : NodeId} {actual : Actual}
    (supplied : Supplied p w t anchor actual a) : p.nodes.size ≤ a.index := by
  cases supplied with
  | direct isNew _ => exact isNew
  | address holds _ _ _ _ => exact holds.ref_new
  | copy holds _ _ => exact holds.ref_new

theorem Supplied.isRef {anchor a : NodeId} {actual : Actual}
    (supplied : Supplied p w t anchor actual a) : ∃ v, t.kind a = .symRef v := by
  cases supplied with
  | direct _ ref => exact ⟨_, ref⟩
  | address holds _ _ _ _ => exact ⟨_, holds.ref_eq⟩
  | copy holds _ _ => exact ⟨_, holds.ref_eq⟩

/-- The new variable holds a variable of `p` or its address. -/
def Quiet (p t : Program) (tempDef : NodeId) : Prop :=
  ∃ temp init v, t.kind tempDef = .define temp (some init) ∧ p.nodes.size ≤ init.index ∧
    v.index < p.symbols.size ∧ (t.kind init = .symRef v ∨
      ∃ ref, p.nodes.size ≤ ref.index ∧ t.kind init = .prim .addrOf [ref] ∧ t.kind ref = .symRef v)

section

variable {q : Program} {w' : Rework} {loose : NodeId → Prop}

/-- Nodes that may still change are none of those that make up the value of a new variable. -/
structure Apart (p : Program) (w : Rework) (t : Program) (loose : NodeId → Prop) : Prop where
  ref {n : NodeId} : loose n → ∃ v, v.index < p.symbols.size ∧ t.kind n = .symRef v
  operand {anchor n : NodeId} : loose n → ¬ Operand p w t anchor n

theorem Apart.of_none : Apart p w t fun _ => False := ⟨False.elim, False.elim⟩

/-- A node that may not change keeps its construct. -/
theorem Apart.kind (apart : Apart p w t loose) (retains : Retains p.nodes.size loose t q)
    {n : NodeId} {k : NodeKind} (isNew : p.nodes.size ≤ n.index) (kind : t.kind n = k)
    (other : k ≠ .brk)
    (tight : ∀ v, v.index < p.symbols.size → k = .symRef v → ∃ anchor, Operand p w t anchor n) :
    q.kind n = k := by
  rw [retains.kind isNew (known_of_kind (by rwa [kind])), kind]
  intro isLoose
  obtain ⟨v, known, ref⟩ := apart.ref isLoose
  obtain ⟨anchor, operand⟩ := tight v known (kind.symm.trans ref)
  exact apart.operand isLoose operand

variable (apart : Apart p w t loose) (retains : Retains p.nodes.size loose t q)
  (reworked : Reworked p w t) (fronts : ∀ {s d}, d ∈ w.front s → d ∈ w'.front s)

include apart retains reworked fronts

theorem Operand.retain {anchor n : NodeId} (operand : Operand p w t anchor n) :
    Operand p w' q anchor n := by
  obtain ⟨tempDef, temp, init, front, define, initNew, same | address⟩ := operand
  · exact ⟨tempDef, temp, init, fronts front,
      apart.kind retains (reworked.front front) define (by simp) (by simp), initNew, .inl same⟩
  · exact ⟨tempDef, temp, init, fronts front,
      apart.kind retains (reworked.front front) define (by simp) (by simp), initNew,
      .inr (apart.kind retains initNew address (by simp) (by simp))⟩

omit reworked in
theorem TempFor.retain {anchor init ref tempDef : NodeId} {ty : Ty} {temp : SymbolId}
    (holds : TempFor p w t anchor init ty temp tempDef ref) (reworked : Reworked p w t) :
    TempFor p w' q anchor init ty temp tempDef ref where
  front := fronts holds.front
  define := apart.kind retains (reworked.front holds.front) holds.define (by simp) (by simp)
  ref_eq := apart.kind retains holds.ref_new holds.ref_eq (by simp) fun v known same => by
    cases same
    exact absurd known (Nat.not_lt.mpr holds.fresh)
  ref_new := holds.ref_new
  fresh := holds.fresh
  known := holds.known.trans_le retains.symbols_size
  ty_eq := (retains.ty holds.known).trans holds.ty_eq

theorem Supplied.retain {anchor a : NodeId} {actual : Actual}
    (supplied : Supplied p w t anchor actual a) (tight : ∀ v, actual = .direct v → ¬ loose a) :
    Supplied p w' q anchor actual a := by
  cases supplied with
  | @direct v _ isNew ref =>
    refine .direct isNew ?_
    rw [retains.kind isNew (known_of_ref ref) (tight v rfl), ref]
  | @address v temp _ ref init tempDef holds initNew address refNew of =>
    refine .address (holds.retain apart retains fronts reworked) initNew
      (apart.kind retains initNew address (by simp) (by simp)) refNew
      (apart.kind retains refNew of (by simp) fun _ _ _ => ⟨anchor, tempDef, temp, init, holds.front,
        holds.define, initNew, .inr address⟩)
  | @copy v temp _ init tempDef holds initNew of =>
    exact .copy (holds.retain apart retains fronts reworked) initNew
      (apart.kind retains initNew of (by simp) fun _ _ _ => ⟨anchor, tempDef, temp, init, holds.front,
        holds.define, initNew, .inl rfl⟩)

omit fronts in
theorem Quiet.retain {anchor tempDef : NodeId} (quiet : Quiet p t tempDef)
    (front : tempDef ∈ w.front anchor) : Quiet p q tempDef := by
  obtain ⟨temp, init, v, define, initNew, known, of | ⟨ref, refNew, address, of⟩⟩ := quiet
  · exact ⟨temp, init, v, apart.kind retains (reworked.front front) define (by simp) (by simp),
      initNew, known, .inl (apart.kind retains initNew of (by simp) fun _ _ _ =>
        ⟨anchor, tempDef, temp, init, front, define, initNew, .inl rfl⟩)⟩
  · exact ⟨temp, init, v, apart.kind retains (reworked.front front) define (by simp) (by simp),
      initNew, known, .inr ⟨ref, refNew, apart.kind retains initNew address (by simp) (by simp),
        apart.kind retains refNew of (by simp) fun _ _ _ =>
          ⟨anchor, tempDef, temp, init, front, define, initNew, .inr address⟩⟩⟩

end

/-- The variable can be passed at `anchor`; one that is not passed on as it is belongs to the
function there. -/
structure Suits (p : Program) (anchor : NodeId) (actual : Actual) : Prop where
  known : actual.var.index < p.symbols.size
  value : (p.symbol actual.var).isValue = true
  own : (∀ v, actual ≠ .direct v) →
    ∃ f, p.scope? anchor = some f ∧ p.declaringFn? actual.var = some f

/-- What making an actual does. -/
structure Provides (p : Program) (w : Rework) (t : Program) (anchor : NodeId) (actual : Actual)
    (made : NodeId × Bool) (w' : Rework) (q : Program) : Prop where
  evolved : Evolved p w' q
  retains (loose : NodeId → Prop) : Retains p.nodes.size loose t q
  supplied : Supplied p w' q anchor actual made.1
  sprig : ∃ targets, q.Sprig made.1 targets
  lives {n : NodeId} : t.Live n → q.Live n
  others {n : NodeId} : n.index < t.nodes.size → (t.kind n).isBlock = false → q.kind n = t.kind n
  rework : w' = w ∨ ∃ tempDef, w' = w.insert anchor tempDef ∧ Quiet p q tempDef
  new {n : NodeId} {v : SymbolId} : t.nodes.size ≤ n.index → q.kind n = .symRef v →
    made = (n, true) ∨ p.symbols.size ≤ v.index ∨
      Operand p w' q anchor n ∧ v = actual.var ∧ ∀ u, actual ≠ .direct u
  passesOn : made.2 = true ↔ ∃ v, actual = .direct v

theorem provides_of_stores {q u : Program} {anchor init a tempDef : NodeId} {ty : Ty}
    {temp : SymbolId} {actual : Actual} (stores : Stores p w t anchor init ty temp tempDef a q)
    (size : p.nodes.size ≤ u.nodes.size)
    (retains : ∀ loose, Retains p.nodes.size loose u t) (lives : ∀ n, u.Live n → t.Live n)
    (others : ∀ n, n.index < u.nodes.size → t.kind n = u.kind n)
    (supplied : Supplied p (w.insert anchor tempDef) q anchor actual a)
    (quiet : Quiet p q tempDef) (indirect : ∀ v, actual ≠ .direct v)
    (new : ∀ n v, u.nodes.size ≤ n.index → n.index < t.nodes.size → t.kind n = .symRef v →
      Operand p (w.insert anchor tempDef) q anchor n ∧ v = actual.var) :
    Provides p w u anchor actual (a, false) (w.insert anchor tempDef) q where
  evolved := stores.evolved
  retains loose := (retains loose).trans (stores.retains loose)
  supplied := supplied
  sprig := ⟨_, stores.sprig⟩
  lives live := stores.lives (lives _ live)
  others {n} known notBlock := by
    have same := others n known
    rw [stores.others (known.trans_le (retains fun _ => False).size) (by rwa [same]), same]
  rework := .inr ⟨tempDef, rfl, quiet⟩
  new {n v} above ref := by
    refine .inr ?_
    by_cases known : n.index < t.nodes.size
    · rw [(stores.retains fun _ => False).kind (size.trans above) known id] at ref
      obtain ⟨operand, same⟩ := new n v above known ref
      exact .inr ⟨operand, same, indirect⟩
    · rcases stores.new (Nat.not_lt.mp known) (known_of_ref ref) with rfl | rfl
      · rw [stores.holds.define] at ref
        cases ref
      · rw [stores.holds.ref_eq] at ref
        cases ref
        exact .inl stores.holds.fresh
  passesOn := by
    refine iff_of_false (by simp) ?_
    rintro ⟨v, same⟩
    exact indirect v same

section

variable (evolved : Evolved p w t) {anchor : NodeId} {v : SymbolId} {span : Span}
  (standing : p.Standing anchor) (old : v.index < p.symbols.size) (known : v.index < t.symbols.size)
  (value : (t.symbol v).isValue = true) (ty : (t.symbol v).ty = (p.symbol v).ty)

include evolved known value

theorem supply_direct :
    Ends (supply anchor span (.direct v)) t
      (fun made q => ∃ w', Provides p w t anchor (.direct v) made w' q) fun _ => True := by
  unfold supply
  refine ends_build_bind (Ends.pure ⟨w, ?_⟩)
  have ref := evolved.makesRef known value span
  exact
    { evolved := ref.evolved
      retains := ref.retains
      supplied := .direct (ref.isNew evolved) ref.kind_id
      sprig := ⟨_, ref.sprig⟩
      lives := ref.lives
      others := fun known _ => ref.others known
      rework := .inl rfl
      new := fun {n u} above isRef => by
        rw [ref.eq_id above (known_of_ref isRef)]
        exact .inl rfl
      passesOn := by simp }

include standing old ty

theorem supply_copy :
    Ends (supply anchor span (.copy v)) t
      (fun made q => ∃ w', Provides p w t anchor (.copy v) made w' q) fun _ => True := by
  unfold supply
  refine Ends.get_bind (ends_build_bind ?_)
  rw [ty]
  have ref := evolved.makesRef known value span
  generalize (t.addRef v span).1 = r at *
  generalize (t.addRef v span).2 = t1 at *
  have isNew := ref.isNew evolved
  refine Ends.bind (supplyTemp_stores ref.evolved ref.sprig (by rw [ref.kind_id]; rfl) isNew
    standing) ?_
  rintro a q ⟨temp, tempDef, stores⟩
  have kindRef : q.kind r = .symRef v := by
    rw [(stores.retains fun _ => False).kind isNew (known_of_ref ref.kind_id) id, ref.kind_id]
  refine Ends.pure ⟨_, provides_of_stores stores evolved.size ref.retains (fun n => ref.lives)
    (fun n => ref.others) (.copy stores.holds isNew kindRef)
    ⟨temp, r, v, stores.holds.define, isNew, old, .inl kindRef⟩ (by simp)
    fun n u above below isRef => ?_⟩
  cases ref.eq_id above below
  cases isRef.symm.trans ref.kind_id
  exact ⟨⟨tempDef, temp, r, stores.holds.front, stores.holds.define, isNew, .inl rfl⟩, rfl⟩

theorem supply_addressOf :
    Ends (supply anchor span (.addressOf v)) t
      (fun made q => ∃ w', Provides p w t anchor (.addressOf v) made w' q) fun _ => True := by
  unfold supply
  refine Ends.get_bind ?_
  refine ends_build_bind ?_
  refine ends_build_bind ?_
  rw [ty]
  have ref := evolved.makesRef known value span
  generalize (t.addRef v span).1 = r at *
  generalize (t.addRef v span).2 = t1 at *
  have isNew := ref.isNew evolved
  have address := ref.evolved.makesPrim ref.sprig (by rw [ref.kind_id]; rfl) isNew .addrOf span
  generalize (t1.addNode (.prim .addrOf [r]) span).1 = init at *
  generalize (t1.addNode (.prim .addrOf [r]) span).2 = t2 at *
  have initNew := address.isNew ref.evolved
  refine Ends.bind (supplyTemp_stores address.evolved address.sprig (by rw [address.kind_id]; rfl)
    initNew standing) ?_
  rintro a q ⟨temp, tempDef, stores⟩
  have retains := stores.retains fun _ => False
  have knownR := known_of_ref ref.kind_id
  have kindRef : q.kind r = .symRef v := by
    rw [retains.kind isNew (knownR.trans_le (address.retains fun _ => False).size) id,
      address.others knownR, ref.kind_id]
  have kindInit : q.kind init = .prim .addrOf [r] := by
    rw [retains.kind initNew (known_of_kind (by rw [address.kind_id]; simp)) id, address.kind_id]
  refine Ends.pure ⟨_, provides_of_stores stores evolved.size
    (fun loose => (ref.retains loose).trans (address.retains loose))
    (fun n live => address.lives (ref.lives live)) (fun n known => ?_)
    (.address stores.holds initNew kindInit isNew kindRef)
    ⟨temp, init, v, stores.holds.define, initNew, old, .inr ⟨r, isNew, kindInit, kindRef⟩⟩
    (by simp) fun n u above below isRef => ?_⟩
  · rw [address.others (known.trans_le (ref.retains fun _ => False).size), ref.others known]
  · by_cases first : n.index < t1.nodes.size
    · cases ref.eq_id above first
      rw [address.others first, ref.kind_id] at isRef
      cases isRef
      exact ⟨⟨tempDef, temp, init, stores.holds.front, stores.holds.define, initNew,
        .inr kindInit⟩, rfl⟩
    · cases address.eq_id (Nat.not_lt.mp first) below
      cases isRef.symm.trans address.kind_id

end

theorem supply_provides (evolved : Evolved p w t)
    (types : ∀ s : SymbolId, s.index < p.symbols.size → (t.symbol s).ty = (p.symbol s).ty)
    {anchor : NodeId} {actual : Actual} {span : Span} (suits : Suits p anchor actual)
    (standing : p.Standing anchor) :
    Ends (supply anchor span actual) t
      (fun made q => ∃ w', Provides p w t anchor actual made w' q) fun _ => True := by
  have known := suits.known.trans_le evolved.stage.frame.symbols_size
  have value : (t.symbol actual.var).isValue = true := by
    rw [Symbol.isValue_iff, evolved.stage.frame.sort suits.known, ← Symbol.isValue_iff]
    exact suits.value
  cases actual with
  | direct v => exact supply_direct evolved known value
  | addressOf v =>
    exact supply_addressOf evolved standing suits.known known value (types v suits.known)
  | copy v => exact supply_copy evolved standing suits.known known value (types v suits.known)

/-! The actuals of all calls. -/

/-- What giving calls their new actuals keeps. The nodes in `passed` are the actuals that pass a
variable on as it is. -/
structure Supplying (p : Program) (w : Rework) (passed : List NodeId) (t : Program) : Prop where
  evolved : Evolved p w t
  lives {n : NodeId} : p.Live n → t.Live n
  swap (n : NodeId) : w.swap n = n
  retains : Retains p.nodes.size (fun _ => False) p t
  refs {n : NodeId} {v : SymbolId} : p.kind n = .symRef v → t.kind n = .symRef v
  fresh {n : NodeId} {v : SymbolId} : p.nodes.size ≤ n.index → t.kind n = .symRef v →
    n ∈ passed ∨ p.symbols.size ≤ v.index ∨ ∃ anchor f, p.Standing anchor ∧
      Operand p w t anchor n ∧ p.scope? anchor = some f ∧ p.declaringFn? v = some f
  quiet {s d : NodeId} : d ∈ w.front s → p.Standing s ∧ Quiet p t d
  added {o c : NodeId} : c ∈ w.added o → p.Reached o ∧ (p.kind o).isCall = true
  passed_ref {n : NodeId} : n ∈ passed → (∃ call, n ∈ w.added call) ∧
    ∃ v, v.index < p.symbols.size ∧ t.kind n = .symRef v

theorem Supplying.refl (settled : p.Settled) : Supplying p .unchanged [] p where
  evolved := .refl settled
  lives := id
  swap _ := rfl
  retains := .refl
  refs := id
  fresh isNew ref := absurd (known_of_ref ref) (Nat.not_lt.mpr isNew)
  quiet member := absurd member List.not_mem_nil
  added member := absurd member List.not_mem_nil
  passed_ref member := absurd member List.not_mem_nil

/-- A new actual is an actual of its call. -/
theorem Supplying.child_of_added {passed : List NodeId} (supplying : Supplying p w passed t)
    {call n : NodeId} (added : n ∈ w.added call) : t.Reached call ∧ n ∈ t.children call := by
  obtain ⟨reached, isCall⟩ := supplying.added added
  have live := supplying.evolved.stage.base_sound.live_of_reached reached
  refine ⟨supplying.evolved.stage.frame.kept reached (.inr (supplying.lives live)), ?_⟩
  cases kind : p.kind call <;> simp [kind, NodeKind.isCall] at isCall
  rw [children, supplying.evolved.reworked.kind live.known (supplying.lives live)
    (by rw [kind]; rfl), kind]
  simp [Rework.kind, NodeKind.children, added]

theorem Supplying.reached_of_passed {passed : List NodeId} (supplying : Supplying p w passed t)
    {n : NodeId} (member : n ∈ passed) : t.Reached n := by
  obtain ⟨⟨call, added⟩, _⟩ := supplying.passed_ref member
  obtain ⟨reached, child⟩ := supplying.child_of_added added
  exact reached.child child

/-- What makes up the value of a new variable stands below a new node, in the function in which the
variable stands. -/
theorem Operand.stands {anchor n : NodeId} (operand : Operand p w t anchor n)
    (evolved : Evolved p w t) (standing : p.Standing anchor) :
    ∃ owner, p.nodes.size ≤ owner.index ∧ t.Reached owner ∧ n ∈ t.children owner ∧
      t.scope? n = p.scope? anchor := by
  have soundP := evolved.stage.base_sound
  have frame := evolved.stage.frame
  obtain ⟨tempDef, temp, init, front, define, initNew, isOperand⟩ := operand
  obtain ⟨_, b, link, isBlock⟩ := id standing
  obtain ⟨reachedB, scopeB⟩ := standing.scopeBelow soundP link
  have child := soundP.forest.owner_lists (soundP.live_of_reached standing.1) link
  cases kind : p.kind b <;> simp [kind, NodeKind.isBlock] at isBlock
  rename_i stmts
  have reached := frame.kept reachedB (.inl (by rw [kind]; rfl))
  have live := evolved.sound.live_of_reached reached
  have kindT := evolved.reworked.kind (soundP.live_of_reached reachedB).known live (by rw [kind]; rfl)
  rw [kind, Rework.kind] at kindT
  rw [children, kind, NodeKind.children] at child
  have childT : tempDef ∈ t.children b := by
    rw [children, kindT, NodeKind.children, List.mem_flatMap]
    exact ⟨anchor, child, by simp [front]⟩
  have reachedT := reached.child childT
  have scopeT : t.scope? tempDef = p.scope? anchor := by
    rw [evolved.sound.scope_below reached childT, ← scopeB, scopeBelow, scopeBelow, kindT, kind]
    exact frame.scope reachedB live
  have childI : init ∈ t.children tempDef := by simp [children, define, NodeKind.children]
  have reachedI := reachedT.child childI
  have scopeI : t.scope? init = p.scope? anchor := by
    rw [evolved.sound.scope_below reachedT childI, scopeBelow, define]
    exact scopeT
  rcases isOperand with rfl | address
  · exact ⟨tempDef, evolved.reworked.front front, reachedT, childI, scopeI⟩
  · have childN : n ∈ t.children init := by simp [children, address, NodeKind.children]
    refine ⟨init, initNew, reachedI, childN, ?_⟩
    rw [evolved.sound.scope_below reachedI childN, scopeBelow, address]
    exact scopeI

/-- The actuals that pass a variable on are no operands of new variables. -/
theorem Supplying.apart {passed : List NodeId} (supplying : Supplying p w passed t) :
    Apart p w t (· ∈ passed) where
  ref member := (supplying.passed_ref member).2
  operand {anchor n} member operand := by
    obtain ⟨⟨call, added⟩, _⟩ := supplying.passed_ref member
    obtain ⟨reached, child⟩ := supplying.child_of_added added
    obtain ⟨tempDef, _, _, front, _⟩ := id operand
    obtain ⟨owner, isNew, reachedO, childO, _⟩ :=
      operand.stands supplying.evolved (supplying.quiet front).1
    have sound := supplying.evolved.sound
    cases sound.forest.child_unique (sound.live_of_reached reached) (sound.live_of_reached reachedO)
      child childO
    have known := (supplying.evolved.stage.base_sound.live_of_reached (supplying.added added).1).known
    exact absurd known (Nat.not_lt.mpr isNew)

/-- How a call got its actual for one captured variable. -/
structure Extends (p : Program) (w : Rework) (passed : List NodeId) (t : Program)
    (call anchor : NodeId) (actual : Actual) (made : NodeId × Bool) (w' : Rework) (q : Program) :
    Prop where
  supplying : Supplying p w' (passed ++ (if made.2 then [made.1] else [])) q
  retains : Retains p.nodes.size (fun _ => False) t q
  fronts {s d : NodeId} : d ∈ w.front s → d ∈ w'.front s
  added_call : w'.added call = w.added call ++ [made.1]
  added_other {c : NodeId} : c ≠ call → w'.added c = w.added c
  supplied : Supplied p w' q anchor actual made.1
  passesOn : made.2 = true ↔ ∃ v, actual = .direct v

theorem extends_of_attaches {passed : List NodeId} {w1 : Rework} {t1 q : Program}
    {call anchor : NodeId} {actual : Actual} {made : NodeId × Bool}
    (supplying : Supplying p w passed t) (provides : Provides p w t anchor actual made w1 t1)
    (attaches : Attaches p (w1.add call made.1) t1 q) (lives : ∀ n, t1.Live n → q.Live n)
    (others : ∀ n, n ≠ call → q.kind n = t1.kind n) (reached : p.Reached call)
    (isCall : (p.kind call).isCall = true) (standing : p.Standing anchor)
    (suits : Suits p anchor actual) :
    Extends p w passed t call anchor actual made (w1.add call made.1) q := by
  have known := (supplying.evolved.stage.base_sound.live_of_reached reached).known
  have retains1 := provides.retains fun _ => False
  have retains2 := attaches.retains fun _ => False
  have fronts {s d : NodeId} (member : d ∈ w.front s) : d ∈ w1.front s := by
    rcases provides.rework with rfl | ⟨tempDef, rfl, _⟩
    · exact member
    · by_cases same : s = anchor
      · subst same
        simp [member]
      · rwa [Rework.front_insert_of_ne _ _ same]
  have fronts2 {s d : NodeId} (member : d ∈ w1.front s) : d ∈ (w1.add call made.1).front s := member
  have added : w1.added = w.added := by
    rcases provides.rework with rfl | ⟨tempDef, rfl, _⟩ <;> rfl
  have swap : w1.swap = w.swap := by
    rcases provides.rework with rfl | ⟨tempDef, rfl, _⟩ <;> rfl
  have supplied : Supplied p (w1.add call made.1) q anchor actual made.1 :=
    provides.supplied.retain .of_none retains2 provides.evolved.reworked fronts2 fun _ _ => id
  refine
    { supplying := ?_
      retains := retains1.trans retains2
      fronts := fronts
      added_call := by rw [Rework.added_add_self, added]
      added_other := fun different => by rw [Rework.added_add_of_ne _ _ different, added]
      supplied := supplied
      passesOn := provides.passesOn }
  refine
    { evolved := attaches.evolved
      lives := fun live => lives _ (provides.lives (supplying.lives live))
      swap := fun n => by rw [Rework.swap_add, swap, supplying.swap]
      retains := (supplying.retains.trans retains1).trans retains2
      refs := fun {n v} ref => ?_
      fresh := fun {n v} isNew ref => ?_
      quiet := fun {s d} front => ?_
      added := fun {o c} member => ?_
      passed_ref := fun {n} member => ?_ }
  · have before := supplying.refs ref
    rw [others, provides.others (known_of_ref before) (by rw [before]; rfl), before]
    rintro rfl
    rw [ref] at isCall
    cases isCall
  · have different : n ≠ call := by
      rintro rfl
      exact absurd known (Nat.not_lt.mpr isNew)
    rw [others n different] at ref
    by_cases old : n.index < t.nodes.size
    · rw [retains1.kind isNew old id] at ref
      refine (supplying.fresh isNew ref).imp (List.mem_append_left _) (Or.imp_right ?_)
      rintro ⟨anchor', f, standing', operand, own⟩
      refine ⟨anchor', f, standing', ?_, own⟩
      exact (operand.retain .of_none retains1 supplying.evolved.reworked fronts).retain .of_none
        retains2 provides.evolved.reworked fronts2
    · rcases provides.new (Nat.not_lt.mp old) ref with rfl | above | ⟨operand, rfl, indirect⟩
      · exact .inl (by simp)
      · exact .inr (.inl above)
      · obtain ⟨f, scope, declared⟩ := suits.own indirect
        exact .inr (.inr ⟨anchor, f, standing,
          operand.retain .of_none retains2 provides.evolved.reworked fronts2, scope, declared⟩)
  · have kept {s d : NodeId} (front : d ∈ w.front s) : p.Standing s ∧ Quiet p q d := by
      obtain ⟨standing', quiet⟩ := supplying.quiet front
      exact ⟨standing', (quiet.retain .of_none retains1 supplying.evolved.reworked front).retain
        .of_none retains2 provides.evolved.reworked (fronts front)⟩
    rcases provides.rework with rfl | ⟨tempDef, rfl, quiet⟩
    · exact kept front
    · by_cases same : s = anchor
      · subst same
        rw [Rework.front_add, Rework.front_insert_self, List.mem_append, List.mem_singleton] at front
        rcases front with old | rfl
        · exact kept old
        · have here : d ∈ (w.insert s d).front s := by simp
          exact ⟨standing, quiet.retain .of_none retains2 provides.evolved.reworked here⟩
      · rw [Rework.front_add, Rework.front_insert_of_ne _ _ same] at front
        exact kept front
  · by_cases same : o = call
    · subst same
      exact ⟨reached, isCall⟩
    · rw [Rework.added_add_of_ne _ _ same, added] at member
      exact supplying.added member
  · rcases List.mem_append.mp member with old | new
    · obtain ⟨⟨c, inC⟩, v, below, ref⟩ := supplying.passed_ref old
      have isNew := supplying.evolved.reworked.added inC
      refine ⟨⟨c, ?_⟩, v, below, ?_⟩
      · by_cases same : c = call
        · subst same
          simp [added, inC]
        · rwa [Rework.added_add_of_ne _ _ same, added]
      · rw [(retains1.trans retains2).kind isNew (known_of_ref ref) id, ref]
    · split at new
      · rename_i passes
        cases List.mem_singleton.mp new
        obtain ⟨v, rfl⟩ := provides.passesOn.mp passes
        refine ⟨⟨call, by simp⟩, v, suits.known, ?_⟩
        cases supplied with
        | direct _ ref => exact ref
      · cases new

theorem supplyOne_extends {passed : List NodeId} (supplying : Supplying p w passed t)
    {call anchor : NodeId} {actual : Actual} {span : Span} (reached : p.Reached call)
    (isCall : (p.kind call).isCall = true) (standing : p.Standing anchor)
    (suits : Suits p anchor actual) :
    Ends (do
        let (arg, passesOn) ← supply anchor span actual
        edit (·.append call arg)
        pure (arg, passesOn)) t
      (fun made q => ∃ w', Extends p w passed t call anchor actual made w' q) fun _ => True := by
  refine Ends.bind (supply_provides supplying.evolved (fun s => supplying.retains.ty) suits
    standing) ?_
  rintro ⟨a, passesOn⟩ t1 ⟨w1, provides⟩
  obtain ⟨targets, sprig⟩ := provides.sprig
  have isNew := provides.supplied.isNew
  obtain ⟨u, isRef⟩ := provides.supplied.isRef
  have known := (supplying.evolved.stage.base_sound.live_of_reached reached).known
  have fits : t1.Fits a (t1.kind call).listSlot := by
    have isCall1 : (t1.kind call).isCall = true := by
      rw [isCall_of_tag (provides.evolved.stage.frame.tag known)]
      exact isCall
    rw [(scopeBelow_of_call isCall1).2.1, Fits, isRef]
    rfl
  refine Ends.bind (ends_edit (Q := fun _ q => Attaches p (w1.add call a) t1 q ∧
    (∀ n, t1.Live n → q.Live n) ∧ ∀ n, n ≠ call → q.kind n = t1.kind n) (fun q result =>
      provides.evolved.append sprig result fits reached (.inl (NodeKind.isCall_iff.mp isCall)) isNew)
    trivial) ?_
  rintro _ q ⟨attaches, lives, others⟩
  exact Ends.pure ⟨_, extends_of_attaches supplying provides attaches lives others reached isCall
    standing suits⟩

/-- The call has got the actuals of its plan; those that pass a variable on are among `passed`. -/
def Fulfilled (p : Program) (w : Rework) (passed : List NodeId) (t : Program) (plan : CallPlan) :
    Prop :=
  ∃ anchor, p.enclosingStmt? plan.call = some anchor ∧
    List.Forall₂ (fun actual a => Supplied p w t anchor actual a ∧
      ((∃ v, actual = .direct v) → a ∈ passed)) plan.actuals (w.added plan.call)

theorem Fulfilled.retain {passed more : List NodeId} {q : Program} {w' : Rework} {plan : CallPlan}
    (fulfilled : Fulfilled p w passed t plan) (reworked : Reworked p w t)
    (retains : Retains p.nodes.size (fun _ => False) t q)
    (fronts : ∀ {s d}, d ∈ w.front s → d ∈ w'.front s)
    (same : w'.added plan.call = w.added plan.call) :
    Fulfilled p w' (passed ++ more) q plan := by
  obtain ⟨anchor, found, all⟩ := fulfilled
  refine ⟨anchor, found, ?_⟩
  rw [same]
  refine all.imp fun actual a made => ⟨?_, fun direct => List.mem_append_left _ (made.2 direct)⟩
  exact made.1.retain .of_none retains reworked fronts fun _ _ => id

/-- The plan can be carried out. -/
structure Feasible (p : Program) (plan : CallPlan) : Prop where
  reached : p.Reached plan.call
  isCall : (p.kind plan.call).isCall = true
  suits {anchor : NodeId} : p.enclosingStmt? plan.call = some anchor →
    ∀ actual ∈ plan.actuals, Suits p anchor actual

theorem extendCall_fulfils {passed : List NodeId} (supplying : Supplying p w passed t)
    {plan : CallPlan} (feasible : Feasible p plan) (bare : w.added plan.call = []) :
    Ends (extendCall plan) t (fun new q => ∃ w', Supplying p w' (passed ++ new) q ∧
      Retains p.nodes.size (fun _ => False) t q ∧ (∀ s d, d ∈ w.front s → d ∈ w'.front s) ∧
      (∀ c, c ≠ plan.call → w'.added c = w.added c) ∧ Fulfilled p w' (passed ++ new) q plan)
      fun _ => True := by
  have live := supplying.evolved.stage.base_sound.live_of_reached feasible.reached
  unfold extendCall
  refine Ends.get_bind ?_
  rw [supplying.evolved.stage.frame.enclosingStmt? supplying.evolved.stage.base_sound
    supplying.evolved.sound feasible.reached (supplying.lives live)]
  cases found : p.enclosingStmt? plan.call with
  | none => exact Ends.throw trivial
  | some anchor =>
    have standing := standing_of_enclosingStmt? supplying.evolved.stage.base_sound feasible.reached
      found
    refine Ends.bind (Ends.mapM_results (I := fun rest mades u => ∃ w' done,
      plan.actuals = done ++ rest ∧
      Supplying p w' (passed ++ (mades.filter Prod.snd).map Prod.fst) u ∧
      Retains p.nodes.size (fun _ => False) t u ∧ (∀ s d, d ∈ w.front s → d ∈ w'.front s) ∧
      (∀ c, c ≠ plan.call → w'.added c = w.added c) ∧ w'.added plan.call = mades.map Prod.fst ∧
      List.Forall₂ (fun actual made => Supplied p w' u anchor actual made.1 ∧
        (made.2 = true ↔ ∃ v, actual = .direct v)) done mades)
      ⟨w, [], rfl, by simpa using supplying, .refl, fun _ _ => id, fun _ _ => rfl, bare, .nil⟩ ?_) ?_
    · rintro actual rest mades u ⟨w', done, split, supplyingU, retains, fronts, others, added, all⟩
      refine (supplyOne_extends supplyingU feasible.reached feasible.isCall standing
        (feasible.suits found actual (by simp [split]))).mono ?_ fun _ => id
      rintro made q ⟨w2, step⟩
      refine ⟨w2, done ++ [actual], by simp [split], ?_, retains.trans step.retains,
        fun s d member => step.fronts (fronts s d member),
        fun c different => (step.added_other different).trans (others c different),
        by rw [step.added_call, added, List.map_append]; rfl, ?_⟩
      · have same : passed ++ ((mades ++ [made]).filter Prod.snd).map Prod.fst =
            passed ++ (mades.filter Prod.snd).map Prod.fst ++ if made.2 then [made.1] else [] := by
          obtain ⟨a, passesOn⟩ := made
          cases passesOn <;> simp
        rw [same]
        exact step.supplying
      · refine List.rel_append (all.imp fun actual' made' before => ⟨?_, before.2⟩)
          (.cons ⟨step.supplied, step.passesOn⟩ .nil)
        exact before.1.retain .of_none step.retains supplyingU.evolved.reworked step.fronts
          fun _ _ => id
    · rintro mades q ⟨w', done, split, supplyingQ, retains, fronts, others, added, all⟩
      refine Ends.pure ⟨w', supplyingQ, retains, fronts, others, anchor, found, ?_⟩
      rw [List.append_nil] at split
      rw [split, added, List.forall₂_map_right_iff]
      have members := (List.forall₂_and_left mades done).mpr ⟨fun made member => member, all.flip⟩
      refine members.flip.imp fun actual made both => ⟨both.2.1, fun direct => ?_⟩
      refine List.mem_append_right _ (List.mem_map.mpr ⟨made, ?_, rfl⟩)
      exact List.mem_filter.mpr ⟨both.1, both.2.2.mpr direct⟩

/-- Every call gets the actuals of its plan, and no other call gets any. -/
theorem extendCalls_fulfil (settled : p.Settled) {plans : List CallPlan}
    (feasible : ∀ plan ∈ plans, Feasible p plan) (distinct : (plans.map CallPlan.call).Nodup) :
    Ends (plans.mapM extendCall) p (fun news q => ∃ w, Supplying p w news.flatten q ∧
      (∀ plan ∈ plans, Fulfilled p w news.flatten q plan) ∧
      ∀ c, c ∉ plans.map CallPlan.call → w.added c = []) fun _ => True := by
  refine (Ends.mapM_results (I := fun rest news t => ∃ w done, plans = done ++ rest ∧
    Supplying p w news.flatten t ∧ (∀ plan ∈ done, Fulfilled p w news.flatten t plan) ∧
    ∀ c, c ∉ done.map CallPlan.call → w.added c = [])
    ⟨.unchanged, [], rfl, .refl settled, by simp, fun _ _ => rfl⟩ ?_).mono ?_ fun _ => id
  · rintro plan rest news t ⟨w, done, split, supplying, fulfilled, bare⟩
    rw [split, List.map_append, List.nodup_append] at distinct
    have apart : plan.call ∉ done.map CallPlan.call := fun there =>
      distinct.2.2 _ there _ (by simp) rfl
    refine (extendCall_fulfils supplying (feasible plan (by simp [split])) (bare _ apart)).mono
      ?_ fun _ => id
    rintro new q ⟨w', supplyingQ, retains, fronts, others, here⟩
    rw [← List.flatten_concat] at supplyingQ here
    refine ⟨w', done ++ [plan], by simp [split], supplyingQ, fun other member => ?_,
      fun c missing => ?_⟩
    · rcases List.mem_append.mp member with earlier | this
      · have different : other.call ≠ plan.call := fun same =>
          apart (same ▸ List.mem_map_of_mem earlier)
        rw [List.flatten_concat]
        exact (fulfilled other earlier).retain supplying.evolved.reworked retains (fronts _ _)
          (others _ different)
      · rwa [List.mem_singleton.mp this]
    · rw [List.map_append, List.mem_append, not_or] at missing
      rw [others c fun same => missing.2 (by simp [same]), bare c missing.1]
  · rintro news q ⟨w, done, split, supplying, fulfilled, bare⟩
    rw [List.append_nil] at split
    exact ⟨w, supplying, split ▸ fulfilled, split ▸ bare⟩

end Closure

end MiddleEnd
