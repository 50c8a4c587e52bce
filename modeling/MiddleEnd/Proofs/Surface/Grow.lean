import MiddleEnd.Proofs.Calls.Lexical

namespace MiddleEnd

/-- The node refers to the symbol or calls it. -/
def NodeKind.Names (k : NodeKind) (s : SymbolId) : Prop := k.symRef? = some s ∨ k.callee? = some s

theorem NodeKind.SameHead.names_iff {k k' : NodeKind} (same : k.SameHead k') {s : SymbolId} :
    k'.Names s ↔ k.Names s := by
  rw [Names, same.symRef, same.callee, Names]

theorem NodeKind.SameHead.trans {k k' k'' : NodeKind} (first : k.SameHead k')
    (second : k'.SameHead k'') : k.SameHead k'' :=
  ⟨second.tag.trans first.tag, second.defines.trans first.defines, second.callee.trans first.callee,
    second.symRef.trans first.symRef⟩

namespace Program

variable {p q r : Program} {touched touched' : List NodeId} {claimed claimed' : List SymbolId}

/-- The nodes of the one program are nodes of the other. Those in `touched` may have got an owner or
more children; the others are as they were. -/
structure Keeps (p : Program) (touched : List NodeId) (q : Program) : Prop where
  live {n : NodeId} : p.Live n → q.Live n
  head {n : NodeId} : p.Live n → (p.kind n).SameHead (q.kind n)
  kind {n : NodeId} : p.Live n → n ∉ touched → q.kind n = p.kind n
  owner {n o : NodeId} : p.Live n → p.parent? n = some o → q.parent? n = some o
  parent {n : NodeId} : p.Live n → n ∉ touched → q.parent? n = p.parent? n

namespace Keeps

theorem above (keeps : Keeps p touched q) (forest : p.Forest) {a n : NodeId} (live : p.Live n)
    (above : p.Above a n) : q.Above a n := by
  induction above with
  | refl => exact .refl
  | up link _ ih => exact .up (keeps.owner live link) (ih (forest.owner_live live link))

theorem visible (keeps : Keeps p touched q) (forest : p.Forest) {n : NodeId} {s : SymbolId}
    (live : p.Live n) (visible : p.Visible n s) : q.Visible n s := by
  obtain ⟨d, owner, liveD, defines, link, above⟩ := visible
  refine ⟨d, owner, keeps.live liveD, ?_, keeps.owner liveD link, keeps.above forest live above⟩
  rw [(keeps.head liveD).defines, defines]

/-- Nothing new stands below a node unless something below it was touched. -/
theorem below (keeps : Keeps p touched q) (forest : p.Forest) (forestQ : q.Forest) {t n : NodeId}
    (liveT : p.Live t) (apart : ∀ m ∈ touched, ¬ p.Above t m) (live : q.Live n)
    (above : q.Above t n) : p.Live n ∧ p.Above t n := by
  induction above with
  | refl => exact ⟨liveT, .refl⟩
  | up link _ ih =>
    obtain ⟨ownerLive, above⟩ := ih (forestQ.owner_live live link)
    have child := forestQ.owner_lists live link
    rw [children, keeps.kind ownerLive fun member => apart _ member above] at child
    exact ⟨forest.child_live ownerLive child,
      .up (forest.child_parent ownerLive child) above⟩

end Keeps

/-- A program that has grown: besides, old symbols in `claimed` may have got a definition. -/
structure Grows (p : Program) (touched : List NodeId) (claimed : List SymbolId) (q : Program) : Prop
    extends Keeps p touched q where
  known {s : SymbolId} : s.index < p.symbols.size → s.index < q.symbols.size
  sort {s : SymbolId} : s.index < p.symbols.size →
    (q.symbol s).kind.sort = (p.symbol s).kind.sort
  decl {s : SymbolId} : s.index < p.symbols.size → s ∉ claimed →
    (q.symbol s).decl = (p.symbol s).decl
  modules : q.modules = p.modules
  roots : q.roots = p.roots

namespace Grows

theorem refl : Grows p touched claimed p where
  live := id
  head _ := .refl _
  kind _ _ := rfl
  owner _ := id
  parent _ _ := rfl
  known := id
  sort _ := rfl
  decl _ _ := rfl
  modules := rfl
  roots := rfl

/-- What the second step touches is new or touched by the whole. -/
theorem trans (first : Grows p touched claimed q) (second : Grows q touched' claimed' r)
    (nodes : ∀ n ∈ touched', p.Live n → n ∈ touched)
    (symbols : ∀ s ∈ claimed', s.index < p.symbols.size → s ∈ claimed) :
    Grows p touched claimed r where
  live known := second.live (first.live known)
  head known := (first.head known).trans (second.head (first.live known))
  kind known apart := by
    rw [second.kind (first.live known) fun t => apart (nodes _ t known), first.kind known apart]
  owner known link := second.owner (first.live known) (first.owner known link)
  parent known apart := by
    rw [second.parent (first.live known) fun t => apart (nodes _ t known), first.parent known apart]
  known isKnown := second.known (first.known isKnown)
  sort isKnown := by rw [second.sort (first.known isKnown), first.sort isKnown]
  decl isKnown apart := by
    rw [second.decl (first.known isKnown) fun c => apart (symbols _ c isKnown),
      first.decl isKnown apart]
  modules := second.modules.trans first.modules
  roots := second.roots.trans first.roots

/-- What is new may be left out of the account. -/
theorem shrink (grows : Grows p touched claimed q) (nodes : ∀ n ∈ touched, p.Live n → n ∈ touched')
    (symbols : ∀ s ∈ claimed, s.index < p.symbols.size → s ∈ claimed') :
    Grows p touched' claimed' q :=
  Grows.refl.trans grows nodes symbols

theorem after (first : Grows p [] [] q) (second : Grows q touched claimed r) :
    Grows p touched claimed r :=
  (first.shrink nofun nofun).trans second (fun _ member _ => member) fun _ member _ => member

theorem symbols_le (grows : Grows p touched claimed q) : p.symbols.size ≤ q.symbols.size := by
  by_contra more
  exact Nat.lt_irrefl _ (grows.known (s := ⟨q.symbols.size⟩) (Nat.not_le.mp more))

end Grows

theorem Relabel.grows (change : Relabel p q) : Grows p [] [] q where
  live live := by rwa [Live, change.node]
  head _ := by
    rw [change.kind]
    exact .refl _
  kind _ _ := change.kind _
  owner _ link := by rwa [parent?, change.node]
  parent _ _ := by rw [parent?, change.node, parent?]
  known isKnown := change.symbols_size ▸ isKnown
  sort _ := change.sort _
  decl _ _ := change.decl _
  modules := change.modules
  roots := change.roots

theorem grows_addSymbol (rooted : p.Rooted) (sym : Symbol) : Grows p [] [] (p.addSymbol sym).2 where
  live := id
  head _ := .refl _
  kind _ _ := rfl
  owner _ := id
  parent _ _ := rfl
  known {s} isKnown := by
    show s.index < (p.symbols.push sym).size
    rw [Array.size_push]
    omega
  sort isKnown := by rw [symbol_addSymbol_of_known sym isKnown]
  decl isKnown _ := by rw [symbol_addSymbol_of_known sym isKnown]
  modules := rfl
  roots := by
    refine List.filterMap_congr fun m member => ?_
    rw [moduleBlock?, symbol_addSymbol_of_known sym (rooted.known_of_module member), moduleBlock?]

theorem Built.grows {kind : NodeKind} {id : NodeId} (built : Built p kind id q)
    (buildable : p.Buildable kind) : Grows p kind.children kind.defines?.toList q where
  live := built.live_of_live
  head live := by
    rw [built.kind_of_ne (built.ne_of_live live)]
    exact .refl _
  kind live _ := built.kind_of_ne (built.ne_of_live live)
  owner _ link := built.parent_kept buildable link
  parent _ apart := by rw [built.parent, if_neg apart]
  known isKnown := built.symbols_size ▸ isKnown
  sort _ := by rw [built.symbol_kind]
  decl {s} _ apart := by
    rw [built.decl_eq, if_neg]
    intro same
    exact apart (by rw [same]; exact List.mem_singleton.mpr rfl)
  modules := built.modules
  roots := built.roots

theorem Edit.grows {owner node : NodeId} (edit : Edit p owner none (some node) none q) :
    Grows p [owner, node] [] q where
  live live := edit.live.mpr ⟨live, not_under_none⟩
  head _ := edit.head _
  kind _ apart := edit.kind_of_ne fun same => apart (by simp [same])
  owner {n o} _ link := by
    have other : some node ≠ some n := by
      intro same
      have top := edit.come_top rfl
      rw [Option.some.inj same, link] at top
      cases top
    rw [edit.parent, if_neg other, if_neg (by simp), link]
  parent {n} _ apart := by
    have other : some node ≠ some n := fun same => apart (by simp [Option.some.inj same])
    rw [edit.parent, if_neg other, if_neg (by simp)]
  known isKnown := edit.symbols_size ▸ isKnown
  sort _ := Symbol.sort_of_core (edit.core _)
  decl _ _ := Symbol.decl_of_core (edit.core _)
  modules := edit.modules
  roots := edit.roots

/-! Trees whose names are visible inside or come from around. -/

/-- At and below a node, every name is visible or is one of `outer`. -/
def Bound (p : Program) (t : NodeId) (outer : List SymbolId) : Prop :=
  ∀ n s, p.Live n → p.Above t n → (p.kind n).Names s → p.Visible n s ∨ s ∈ outer

/-- A detached tree that names nothing but what is visible inside and `outer`. -/
structure Loose (p : Program) (t : NodeId) (outer : List SymbolId) : Prop where
  live : p.Live t
  top : p.parent? t = none
  free : t ∉ p.roots
  bound : p.Bound t outer

variable {t : NodeId} {outer outer' : List SymbolId}

theorem Bound.mono (bound : p.Bound t outer) (wider : outer ⊆ outer') : p.Bound t outer' :=
  fun n s live above names => (bound n s live above names).imp_right (wider ·)

/-- What a child of the node defines is visible at and below the node. -/
theorem Bound.close (bound : p.Bound t outer) (forest : p.Forest) (live : p.Live t)
    (defined : ∀ s ∈ outer, s ∈ outer' ∨ ∃ c ∈ p.children t, (p.kind c).defines? = some s) :
    p.Bound t outer' := by
  intro n s liveN above names
  rcases bound n s liveN above names with visible | member
  · exact .inl visible
  · rcases defined s member with kept | ⟨c, child, defines⟩
    · exact .inr kept
    · exact .inl ⟨c, t, forest.child_live live child, defines, forest.child_parent live child, above⟩

theorem Loose.mono (loose : p.Loose t outer) (wider : outer ⊆ outer') : p.Loose t outer' :=
  { loose with bound := loose.bound.mono wider }

theorem Loose.close (loose : p.Loose t outer) (forest : p.Forest)
    (defined : ∀ s ∈ outer, s ∈ outer' ∨ ∃ c ∈ p.children t, (p.kind c).defines? = some s) :
    p.Loose t outer' :=
  { loose with bound := loose.bound.close forest loose.live defined }

theorem Keeps.bound (keeps : Keeps p touched q) (forest : p.Forest) (forestQ : q.Forest)
    (live : p.Live t) (apart : ∀ m ∈ touched, ¬ p.Above t m) (bound : p.Bound t outer) :
    q.Bound t outer := by
  intro n s liveN above names
  obtain ⟨liveP, aboveP⟩ := keeps.below forest forestQ live apart liveN above
  rw [(keeps.head liveP).names_iff] at names
  exact (bound n s liveP aboveP names).imp_left (keeps.visible forest liveP)

/-- A loose tree stays as it is while the program grows elsewhere. -/
theorem Grows.loose (grows : Grows p touched claimed q) (forest : p.Forest) (forestQ : q.Forest)
    (loose : p.Loose t outer) (tops : ∀ m ∈ touched, p.parent? m = none) (apart : t ∉ touched) :
    q.Loose t outer where
  live := grows.live loose.live
  top := by rw [grows.parent loose.live apart, loose.top]
  free := grows.roots ▸ loose.free
  bound := by
    refine grows.bound forest forestQ loose.live (fun m member above => ?_) loose.bound
    exact apart (above.eq_of_top (tops m member) ▸ member)

/-- A new node over trees. -/
theorem Built.loose {kind : NodeKind} {id : NodeId} (built : Built p kind id q)
    (buildable : p.Buildable kind) (sound : p.Sound)
    (children : ∀ c ∈ kind.children, p.Bound c outer) (names : ∀ s, kind.Names s → s ∈ outer) :
    q.Loose id outer where
  live := built.live_id
  top := built.parent_id buildable
  free root := by
    rw [built.roots] at root
    exact built.ne_of_live (sound.rooted.live_of_root root) rfl
  bound n s live above named := by
    rcases built.live_iff.mp live with rfl | liveN
    · rw [built.kind_id] at named
      exact .inr (names s named)
    · rw [built.kind_of_ne (built.ne_of_live liveN)] at named
      rcases built.above_cases buildable above with old | ⟨_, c, child, below⟩
      · exact absurd rfl (built.ne_of_live (sound.forest.live_of_above old liveN))
      · exact (children c child n s liveN below named).imp_left
          ((built.grows buildable).visible sound.forest liveN)

/-- A tree that has got one more child. -/
theorem Edit.bound {owner node : NodeId} (edit : Edit p owner none (some node) none q)
    (sound : p.Sound) (bound : p.Bound owner outer) (added : p.Bound node outer) :
    q.Bound owner outer := by
  intro n s live above names
  have liveN := (edit.live.mp live).1
  rw [(edit.head n).names_iff] at names
  have seen : p.Visible n s ∨ s ∈ outer := by
    rcases edit.above_cases above with old | ⟨⟨_, same, old⟩, _⟩
    · exact bound n s liveN old names
    · cases same
      exact added n s liveN old names
  exact seen.imp_left (edit.grows.visible sound.forest liveN)

end Program

end MiddleEnd
