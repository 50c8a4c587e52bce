import MiddleEnd.Proofs.Closure.Nesting
import MiddleEnd.Proofs.Settled.Change

namespace MiddleEnd.Program

variable {p q r : Program}

/-- New symbols and nodes, new places for detached ones, and other targets of references: of what
could be reached only expressions may be gone, and the rest stands where it stood. -/
structure Frame (p q : Program) : Prop where
  modules : q.modules = p.modules
  roots : q.roots = p.roots
  symbols_size : p.symbols.size ≤ q.symbols.size
  sort {s : SymbolId} : s.index < p.symbols.size →
    (q.symbol s).kind.sort = (p.symbol s).kind.sort
  size : p.nodes.size ≤ q.nodes.size
  live {n : NodeId} : n.index < p.nodes.size → q.Live n → p.Live n
  tag {n : NodeId} : n.index < p.nodes.size → (q.kind n).tag = (p.kind n).tag
  defines {n : NodeId} : n.index < p.nodes.size → (q.kind n).defines? = (p.kind n).defines?
  callee {n : NodeId} : n.index < p.nodes.size → (q.kind n).callee? = (p.kind n).callee?
  kept {n : NodeId} : p.Reached n → (p.kind n).isExpr = false ∨ q.Live n → q.Reached n
  parent {n : NodeId} : p.Reached n → q.Live n → q.parent? n = p.parent? n
  scope {n : NodeId} : p.Reached n → q.Live n → q.scope? n = p.scope? n
  old {n : NodeId} : q.Reached n → (q.kind n).isCall = true ∨ (q.kind n).isFnDef = true →
    p.Reached n

theorem isExpr_of_tag {k l : NodeKind} (tag : l.tag = k.tag) : l.isExpr = k.isExpr := by
  cases k <;> cases l <;> first | rfl | cases tag

theorem isCall_of_tag {k l : NodeKind} (tag : l.tag = k.tag) : l.isCall = k.isCall := by
  cases k <;> cases l <;> first | rfl | cases tag

theorem isFnDef_of_tag {k l : NodeKind} (tag : l.tag = k.tag) : l.isFnDef = k.isFnDef := by
  cases k <;> cases l <;> first | rfl | cases tag

theorem isBlock_of_tag {k l : NodeKind} (tag : l.tag = k.tag) : l.isBlock = k.isBlock := by
  cases k <;> cases l <;> first | rfl | cases tag

namespace Frame

theorem refl : Frame p p :=
  { modules := rfl
    roots := rfl
    symbols_size := le_refl _
    sort := fun _ => rfl
    size := le_refl _
    live := fun _ => id
    tag := fun _ => rfl
    defines := fun _ => rfl
    callee := fun _ => rfl
    kept := fun reached _ => reached
    parent := fun _ _ => rfl
    scope := fun _ _ => rfl
    old := fun reached _ => reached }

variable (first : Frame p q) (second : Frame q r) (soundP : p.Sound) (soundQ : q.Sound)

include first second soundP soundQ in
theorem trans : Frame p r := by
  have known {n : NodeId} (reached : p.Reached n) : n.index < p.nodes.size :=
    (soundP.live_of_reached reached).known
  have between {n : NodeId} (reached : p.Reached n) (live : r.Live n) : q.Reached n :=
    first.kept reached (.inr (second.live ((known reached).trans_le first.size) live))
  exact
    { modules := second.modules.trans first.modules
      roots := second.roots.trans first.roots
      symbols_size := first.symbols_size.trans second.symbols_size
      sort := fun is =>
        (second.sort (is.trans_le first.symbols_size)).trans (first.sort is)
      size := first.size.trans second.size
      live := fun is live => first.live is (second.live (is.trans_le first.size) live)
      tag := fun is => (second.tag (is.trans_le first.size)).trans (first.tag is)
      defines := fun is => (second.defines (is.trans_le first.size)).trans (first.defines is)
      callee := fun is => (second.callee (is.trans_le first.size)).trans (first.callee is)
      kept := fun {n} reached there => by
        have tag := first.tag (known reached)
        rcases there with other | live
        · have middle := first.kept reached (.inl other)
          exact second.kept middle (.inl ((isExpr_of_tag tag).trans other))
        · exact second.kept (between reached live) (.inr live)
      parent := fun {n} reached live => by
        have middle := between reached live
        exact (second.parent middle live).trans
          (first.parent reached (soundQ.live_of_reached middle))
      scope := fun {n} reached live => by
        have middle := between reached live
        exact (second.scope middle live).trans
          (first.scope reached (soundQ.live_of_reached middle))
      old := fun {n} reached kind => by
        have middle := second.old reached kind
        have tag := second.tag (soundQ.live_of_reached middle).known
        refine first.old middle ?_
        rw [← isCall_of_tag tag, ← isFnDef_of_tag tag]
        exact kind }

end Frame

namespace Frame

variable (frame : Frame p q)

include frame in
theorem isFn {f : SymbolId} (known : f.index < p.symbols.size) : q.isFn f = p.isFn f := by
  have same := frame.sort known
  rw [Bool.eq_iff_iff, isFn_iff_sort, isFn_iff_sort, same]

include frame in
theorem placed (sound : p.Sound) {f : SymbolId} {d : NodeId} (placed : p.Placed f d) :
    q.Placed f d := by
  obtain ⟨reached, fnDef, defines⟩ := placed
  have known := (sound.live_of_reached reached).known
  have plain : (p.kind d).isExpr = false := by
    cases kind : p.kind d <;> simp [kind, NodeKind.isFnDef] at fnDef
    rfl
  exact ⟨frame.kept reached (.inl plain), (isFnDef_of_tag (frame.tag known)).trans fnDef,
    (frame.defines known).trans defines⟩

end Frame

/-! Where references lead. -/

/-- The symbol is declared by the function itself, or outside all functions. -/
def Home (p : Program) (v f : SymbolId) : Prop :=
  ∃ d, p.Reached d ∧ (p.kind d).defines? = some v ∧
    (p.scope? d = some f ∨ ∃ m ∈ p.modules, p.scope? d = some m)

/-- Every reference in a function leads to a symbol that is at home there, or is pending. -/
def Leads (p : Program) (pending : NodeId → SymbolId → SymbolId → Prop) : Prop :=
  ∀ n v f, p.Reached n → (p.kind n).symRef? = some v → p.scope? n = some f → p.isFn f = true →
    p.Home v f ∨ pending n f v

theorem Frame.home (frame : Frame p q) (sound : p.Sound) (soundQ : q.Sound) {v f : SymbolId}
    (home : p.Home v f) : q.Home v f := by
  obtain ⟨d, reached, defines, scope⟩ := home
  have known := (sound.live_of_reached reached).known
  have plain : (p.kind d).isExpr = false := by
    cases kind : p.kind d <;> simp [kind, NodeKind.defines?] at defines <;> rfl
  have there := frame.kept reached (.inl plain)
  refine ⟨d, there, (frame.defines known).trans defines, ?_⟩
  rw [frame.scope reached (soundQ.live_of_reached there), frame.modules]
  exact scope

theorem Leads.mono {pending pending' : NodeId → SymbolId → SymbolId → Prop}
    (leads : p.Leads pending)
    (fewer : ∀ n v f, p.Reached n → (p.kind n).symRef? = some v → p.scope? n = some f →
      pending n f v → pending' n f v) : p.Leads pending' := by
  intro n v f reached ref scope fn
  exact (leads n v f reached ref scope fn).imp_right (fewer n v f reached ref scope)

/-! Detached trees. -/

/-- A detached tree without calls and functions, whose references lead to `targets`. -/
structure Sprig (p : Program) (t : NodeId) (targets : SymbolId → Prop) : Prop where
  live : p.Live t
  top : p.parent? t = none
  free : t ∉ p.roots
  plain {n : NodeId} : p.Live n → p.Above t n →
    (p.kind n).isCall = false ∧ (p.kind n).isFnDef = false
  leads {n : NodeId} {v : SymbolId} : p.Live n → p.Above t n → (p.kind n).symRef? = some v →
    targets v

variable {t : NodeId} {targets : SymbolId → Prop}

theorem Sprig.not_above (sprig : p.Sprig t targets) (sound : p.Sound) {n : NodeId}
    (reached : p.Reached n) : ¬ p.Above t n := by
  intro above
  obtain ⟨r, root, aboveR⟩ := reached.below_root sound.forest sound.rooted
  rcases above.total aboveR with upper | lower
  · have same := upper.eq_of_top (sound.rooted.top_of_root root)
    exact sprig.free (same ▸ root)
  · have same := lower.eq_of_top sprig.top
    exact sprig.free (same ▸ root)

theorem Sprig.attachable (sprig : p.Sprig t targets) (sound : p.Sound) {owner : NodeId}
    (reached : p.Reached owner) : p.Attachable owner t where
  owner_live := sound.live_of_reached reached
  live := sprig.live
  not_root := sprig.free
  top := sprig.top
  apart := sprig.not_above sound reached

theorem Forest.eq_of_above_unknown (forest : p.Forest) {a n : NodeId}
    (unknown : p.nodes.size ≤ a.index) (above : p.Above a n) : a = n := by
  induction above with
  | refl => rfl
  | up link _ ih =>
    have known := forest.owner_known link
    rw [← ih] at known
    omega

namespace Built

variable {kind : NodeKind} {id : NodeId} (built : Built p kind id q)

include built in
theorem sprig (buildable : p.Buildable kind) (sound : p.Sound)
    (children : ∀ c ∈ kind.children, p.Sprig c targets)
    (plain : kind.isCall = false ∧ kind.isFnDef = false)
    (leads : ∀ v, kind.symRef? = some v → targets v) : q.Sprig id targets := by
  have below {n : NodeId} (live : q.Live n) (above : q.Above id n) :
      n = id ∨ ∃ c ∈ kind.children, p.Live n ∧ p.Above c n ∧ q.kind n = p.kind n := by
    rcases built.above_cases buildable above with before | ⟨_, c, child, before⟩
    · refine .inl (sound.forest.eq_of_above_unknown ?_ before).symm
      rw [built.id_eq]
    · rcases built.live_iff.mp live with same | liveN
      · exact .inl same
      · exact .inr ⟨c, child, liveN, before, built.kind_of_ne (built.ne_of_live liveN)⟩
  exact
    { live := built.live_id
      top := built.parent_id buildable
      free := fun root => by
        rw [built.roots] at root
        have known := (sound.rooted.live_of_root root).known
        rw [built.id_eq] at known
        exact Nat.lt_irrefl _ known
      plain := fun {n} live above => by
        rcases below live above with rfl | ⟨c, child, liveN, before, same⟩
        · rw [built.kind_id]
          exact plain
        · rw [same]
          exact (children c child).plain liveN before
      leads := fun {n v} live above ref => by
        rcases below live above with rfl | ⟨c, child, liveN, before, same⟩
        · rw [built.kind_id] at ref
          exact leads v ref
        · rw [same] at ref
          exact (children c child).leads liveN before ref }

include built in
theorem frame (buildable : p.Buildable kind) (sound : p.Sound) : Frame p q := by
  have kinds {n : NodeId} (known : n.index < p.nodes.size) : q.kind n = p.kind n := by
    refine built.kind_of_ne ?_
    rintro rfl
    rw [built.id_eq] at known
    exact Nat.lt_irrefl _ known
  have back {n : NodeId} (reached : q.Reached n) : p.Reached n :=
    (built.reached_iff sound.forest sound.rooted).mp reached
  exact
    { modules := built.modules
      roots := built.roots
      symbols_size := built.symbols_size.ge
      sort := fun _ => by rw [built.symbol_kind]
      size := by rw [built.size]; omega
      live := fun {n} known live => by
        rcases built.live_iff.mp live with rfl | old
        · rw [built.id_eq] at known
          exact absurd known (Nat.lt_irrefl _)
        · exact old
      tag := fun known => by rw [kinds known]
      defines := fun known => by rw [kinds known]
      callee := fun known => by rw [kinds known]
      kept := fun reached _ => (built.reached_iff sound.forest sound.rooted).mpr reached
      parent := fun {n} reached _ => by
        rw [built.parent, if_neg]
        intro child
        obtain ⟨r, root, above⟩ := reached.below_root sound.forest sound.rooted
        have same := above.eq_of_top (buildable.child_top child)
        exact buildable.child_free child (same ▸ root)
      scope := fun {n} _ _ => built.scope n
      old := fun reached _ => back reached }

include built in
theorem leads (buildable : p.Buildable kind) (sound : p.Sound)
    {pending : NodeId → SymbolId → SymbolId → Prop} (leads : p.Leads pending) :
    q.Leads pending := by
  have soundQ := built.sound buildable sound
  intro n v f reached ref scope fn
  have before := (built.reached_iff sound.forest sound.rooted).mp reached
  rw [built.kind_of_ne (built.ne_of_live (sound.live_of_reached before))] at ref
  rw [built.scope] at scope
  rw [isFn_iff_sort, built.symbol_kind, ← isFn_iff_sort] at fn
  exact (leads n v f before ref scope fn).imp_left ((built.frame buildable sound).home sound soundQ)

end Built

/-! Attaching a detached tree. -/

namespace Edit

variable {owner : NodeId} {gone : Option NodeId} (edit : Edit p owner gone (some t) gone q)

include edit in
theorem scope_sprig (sound : p.Sound) (sprig : p.Sprig t targets) {n : NodeId} (live : p.Live n)
    (above : p.Above t n) : q.scope? n = p.scopeBelow owner := by
  have apart : ¬ p.Under (some t) owner := edit.not_under_come_owner
  have forest := sound.forest
  induction above with
  | refl => rw [edit.scope_come rfl, edit.scopeBelow_kept apart]
  | @up n m link above ih =>
    have liveM := forest.owner_live live link
    rw [edit.scope_inside liveM ⟨t, rfl, above⟩ (forest.owner_lists live link), scopeBelow_eq,
      (edit.head m).isFnDef, (sprig.plain liveM above).2, if_neg Bool.false_ne_true]
    exact ih liveM

include edit in
theorem frame (sound : p.Sound) (sprig : p.Sprig t targets)
    (exprs : ∀ n, p.Live n → p.Under gone n → (p.kind n).isExpr = true) : Frame p q where
  modules := edit.modules
  roots := edit.roots
  symbols_size := edit.symbols_size.ge
  sort _ := edit.sort _
  size := edit.size.ge
  live _ live := (edit.live.mp live).1
  tag _ := (edit.head _).tag
  defines _ := (edit.head _).defines
  callee _ := (edit.head _).callee
  kept {n} reached there := by
    refine (edit.reached_iff sound).mpr (.inl ⟨reached, fun below => ?_⟩)
    rcases there with other | live
    · rw [exprs n (sound.live_of_reached reached) below] at other
      cases other
    · exact (edit.live.mp live).2 below
  parent {n} reached live := by
    rw [edit.parent, if_neg, if_neg]
    · intro isGone
      exact (edit.live.mp live).2 ⟨n, isGone, .refl⟩
    · rintro isCome
      cases isCome
      exact sprig.not_above sound reached .refl
  scope {n} reached _ := by
    refine edit.scope_kept fun below => ?_
    obtain ⟨_, same, above⟩ := below
    cases same
    exact sprig.not_above sound reached above
  old {n} reached kind := by
    rcases (edit.reached_iff sound).mp reached with ⟨before, _⟩ | ⟨_, live, _, same, above⟩
    · exact before
    · cases same
      obtain ⟨noCall, noFn⟩ := sprig.plain live above
      rw [(edit.head n).isCall, (edit.head n).isFnDef, noCall, noFn] at kind
      rcases kind with kind | kind <;> cases kind

include edit in
/-- The references of the new tree must be at home in the function that holds its owner. -/
theorem leads (sound : p.Sound) (sprig : p.Sprig t targets)
    (exprs : ∀ n, p.Live n → p.Under gone n → (p.kind n).isExpr = true)
    {pending : NodeId → SymbolId → SymbolId → Prop} (leads : p.Leads pending)
    (fresh : ∀ n v f, targets v → p.scopeBelow owner = some f → p.isFn f = true →
      p.Home v f ∨ pending n f v) : q.Leads pending := by
  have soundQ := edit.sound sound
  have frame := edit.frame sound sprig exprs
  intro n v f reached ref scope fn
  rw [(edit.head n).symRef] at ref
  rw [isFn_iff_sort, edit.sort, ← isFn_iff_sort] at fn
  refine Or.imp_left (frame.home sound soundQ) ?_
  rcases (edit.reached_iff sound).mp reached with ⟨before, _⟩ | ⟨_, live, _, same, above⟩
  · rw [frame.scope before (soundQ.live_of_reached reached)] at scope
    exact leads n v f before ref scope fn
  · cases same
    rw [edit.scope_sprig sound sprig live above] at scope
    exact fresh n v f (sprig.leads live above ref) scope fn

end Edit

end MiddleEnd.Program
