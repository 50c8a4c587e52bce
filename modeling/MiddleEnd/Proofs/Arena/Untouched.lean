import MiddleEnd.Proofs.Arena.Confined

namespace MiddleEnd.Program

variable {p q r : Program} {d : NodeId} {f : SymbolId} {scope : Option SymbolId}

/-- The programs that operations lead to from `p`. -/
inductive Later (p : Program) : Program → Prop
  | start : Later p p
  | step {q r : Program} : Later p q → Step q r → Later p r

namespace Confined

theorem epoch_le (confined : Confined p scope q) (s : SymbolId) : p.epoch s ≤ q.epoch s := by
  by_cases known : s.index < p.symbols.size
  · rw [confined.counts s known]
    exact Nat.le_add_right _ _
  · rw [epoch_of_not_known (Nat.not_lt.mp known)]
    exact Nat.zero_le _

/-- An operation that leaves the epoch of a function alone does not count against it. -/
theorem scope_ne (confined : Confined p scope q) (known : f.index < p.symbols.size)
    (same : q.epoch f = p.epoch f) : scope ≠ some f := by
  rintro rfl
  have counted := confined.counts f known
  rw [if_pos rfl] at counted
  omega

end Confined

namespace Later

theorem sound (later : p.Later q) (sound : p.Sound) : q.Sound := by
  induction later with
  | start => exact sound
  | step _ step ih => exact step.sound ih

theorem epoch_le (later : p.Later q) (sound : p.Sound) (s : SymbolId) : p.epoch s ≤ q.epoch s := by
  induction later with
  | start => exact Nat.le_refl _
  | step later step ih =>
    obtain ⟨_, confined⟩ := step.confined (later.sound sound)
    exact ih.trans (confined.epoch_le s)

theorem size_le (later : p.Later q) (sound : p.Sound) : p.nodes.size ≤ q.nodes.size := by
  induction later with
  | start => exact Nat.le_refl _
  | step later step ih =>
    obtain ⟨_, confined⟩ := step.confined (later.sound sound)
    exact ih.trans confined.size

/-- A definition defines the same symbol for good. -/
theorem defines (later : p.Later q) (sound : p.Sound) {n : NodeId} (known : n.index < p.nodes.size) :
    (q.kind n).defines? = (p.kind n).defines? := by
  induction later with
  | start => rfl
  | step later step ih =>
    obtain ⟨_, confined⟩ := step.confined (later.sound sound)
    exact (confined.defines (known.trans_le (later.size_le sound))).trans ih

end Later

/-! The code of one function: what is below its definition, the code of functions inside apart. -/

theorem Forest.owner_of_own (forest : p.Forest) (live : p.Live d) {n owner : NodeId} (own : p.Own d n)
    (different : n ≠ d) (link : p.parent? n = some owner) :
    p.Own d owner ∧ (owner = d ∨ (p.kind owner).isFnDef = false) := by
  cases own with
  | refl => exact absurd rfl different
  | down own entered child =>
    cases Option.some.inj (link.symm.trans (forest.child_parent (forest.live_of_own live own) child))
    exact ⟨own, entered⟩

/-- What stands between the definition of a function and a part of its code belongs to the code. -/
theorem Forest.own_of_above (forest : p.Forest) (live : p.Live d) {m n : NodeId} (own : p.Own d n)
    (above : p.Above m n) (below : p.Above d m) : p.Own d m := by
  induction above with
  | refl => exact own
  | @up n owner link rest ih =>
    have different : n ≠ d := by
      rintro rfl
      exact forest.acyclic link (below.trans rest)
    exact ih (forest.owner_of_own live own different link).1

theorem scopeBelow_of_entered (fn : (p.kind d).isFnDef = true)
    (defines : (p.kind d).defines? = some f) {n : NodeId} (entered : n = d ∨ (p.kind n).isFnDef = false)
    (inside : n ≠ d → p.scope? n = some f) : p.scopeBelow n = some f := by
  rw [scopeBelow_eq]
  by_cases top : n = d
  · rw [top, if_pos fn, defines]
  · rw [if_neg (by simp [entered.resolve_left top]), inside top]

/-- All code of a function is in its scope. -/
def InScope (p : Program) (d : NodeId) (f : SymbolId) : Prop :=
  ∀ n, p.Own d n → n ≠ d → p.scope? n = some f

theorem InScope.scopeBelow (inScope : p.InScope d f) (defines : (p.kind d).defines? = some f)
    (fn : (p.kind d).isFnDef = true) {n : NodeId} (own : p.Own d n)
    (entered : n = d ∨ (p.kind n).isFnDef = false) : p.scopeBelow n = some f :=
  scopeBelow_of_entered fn defines entered (inScope n own)

theorem Sound.inScope (sound : p.Sound) (reached : p.Reached d) (fn : (p.kind d).isFnDef = true)
    (defines : (p.kind d).defines? = some f) : p.InScope d f := by
  have reachedOf {n : NodeId} (own : p.Own d n) : p.Reached n := by
    induction own with
    | refl => exact reached
    | down _ _ child ih => exact ih.child child
  intro n own different
  induction own with
  | refl => exact absurd rfl different
  | @down n c own entered child ih =>
    rw [sound.scope_below (reachedOf own) child]
    exact scopeBelow_of_entered fn defines entered ih

/-- The program `q` has the code of the function `f`, defined at `d`, as `p` has it. Definitions of
functions inside may have other parts. -/
structure Untouched (p : Program) (d : NodeId) (f : SymbolId) (q : Program) : Prop where
  size : p.nodes.size ≤ q.nodes.size
  kind {n : NodeId} : p.Own d n → n = d ∨ (p.kind n).isFnDef = false →
    (q.kind n).bare = (p.kind n).bare
  tag {n : NodeId} : p.Own d n → (q.kind n).tag = (p.kind n).tag
  defines {n : NodeId} : p.Own d n → (q.kind n).defines? = (p.kind n).defines?
  live {n : NodeId} : p.Own d n → q.Live n
  inScope : q.InScope d f
  symbols_size : p.symbols.size ≤ q.symbols.size
  name {s : SymbolId} : s.index < p.symbols.size → q.name s = p.name s
  isVar {s : SymbolId} : s.index < p.symbols.size → (q.symbol s).isVar = (p.symbol s).isVar

namespace Untouched

theorem isFnDef (untouched : Untouched p d f q) {n : NodeId} (own : p.Own d n) :
    (q.kind n).isFnDef = (p.kind n).isFnDef :=
  NodeKind.isFnDef_of_tag (untouched.tag own)

theorem children (untouched : Untouched p d f q) {n : NodeId} (own : p.Own d n)
    (entered : n = d ∨ (p.kind n).isFnDef = false) : q.children n = p.children n :=
  NodeKind.children_of_bare (untouched.kind own entered)

theorem own (untouched : Untouched p d f q) {n : NodeId} (own : p.Own d n) : q.Own d n := by
  induction own with
  | refl => exact .refl
  | down own entered child ih =>
    refine .down ih (entered.imp_right (untouched.isFnDef own).trans) ?_
    rwa [untouched.children own entered]

theorem refl (sound : p.Sound) (live : p.Live d) (inScope : p.InScope d f) : Untouched p d f p where
  size := Nat.le_refl _
  kind _ _ := rfl
  tag _ := rfl
  defines _ := rfl
  live := sound.forest.live_of_own live
  inScope := inScope
  symbols_size := Nat.le_refl _
  name _ := rfl
  isVar _ := rfl

theorem trans (first : Untouched p d f q) (second : Untouched q d f r) : Untouched p d f r where
  size := first.size.trans second.size
  kind own entered :=
    (second.kind (first.own own) (entered.imp_right (first.isFnDef own).trans)).trans
      (first.kind own entered)
  tag own := (second.tag (first.own own)).trans (first.tag own)
  defines own := (second.defines (first.own own)).trans (first.defines own)
  live own := second.live (first.own own)
  inScope := second.inScope
  symbols_size := first.symbols_size.trans second.symbols_size
  name known := (second.name (known.trans_le first.symbols_size)).trans (first.name known)
  isVar known := (second.isVar (known.trans_le first.symbols_size)).trans (first.isVar known)

end Untouched

section

variable (confined : Confined p scope q) (sound : p.Sound) (live : p.Live d)
  (fn : (p.kind d).isFnDef = true) (defines : (p.kind d).defines? = some f) (inScope : p.InScope d f)
  (other : scope ≠ some f)

include confined sound live fn defines inScope other

theorem Confined.kind_of_own {n : NodeId} (own : p.Own d n)
    (entered : n = d ∨ (p.kind n).isFnDef = false) : (q.kind n).bare = (p.kind n).bare := by
  refine (confined.kind (sound.forest.live_of_own live own)).resolve_right fun here => other ?_
  rw [← here, inScope.scopeBelow defines fn own entered]

/-- A part of the code that is destroyed goes with a subtree. That subtree is not cut off inside the
code, so it holds the definition. -/
theorem Confined.live_of_own (stays : q.Live d) {n : NodeId} (own : p.Own d n) : q.Live n := by
  have forest := sound.forest
  refine (confined.live (forest.live_of_own live own)).resolve_right ?_
  rintro ⟨top, owner, above, link, here, dead⟩
  have stands : ¬ p.Above top d := fun up => dead d up stays
  have inside := (above.total (forest.above_of_own live own)).resolve_left stands
  have different : top ≠ d := fun same => dead d (same ▸ .refl) stays
  obtain ⟨ownOwner, entered⟩ :=
    forest.owner_of_own live (forest.own_of_above live own above inside) different link
  exact other (here.symm.trans (inScope.scopeBelow defines fn ownOwner entered))

/-- An operation that does not count against a function, and does not destroy its definition, leaves
its code as it is. -/
theorem Confined.untouched (stays : q.Live d) : Untouched p d f q := by
  have forest := sound.forest
  have tag {n : NodeId} (own : p.Own d n) : (q.kind n).tag = (p.kind n).tag :=
    confined.tag (forest.live_of_own live own).known
  have isFnDef {n : NodeId} (own : p.Own d n) : (q.kind n).isFnDef = (p.kind n).isFnDef :=
    NodeKind.isFnDef_of_tag (tag own)
  have kind {n : NodeId} (own : p.Own d n) (entered : n = d ∨ (p.kind n).isFnDef = false) :=
    confined.kind_of_own sound live fn defines inScope other own entered
  have old {n : NodeId} (own : q.Own d n) : p.Own d n := by
    induction own with
    | refl => exact .refl
    | down _ entered child ih =>
      have entered := entered.imp_right (isFnDef ih).symm.trans
      refine .down ih entered ?_
      rwa [children, ← NodeKind.children_of_bare (kind ih entered)]
  refine
    { size := confined.size
      kind := kind
      tag := tag
      defines := fun own => confined.defines (forest.live_of_own live own).known
      live := confined.live_of_own sound live fn defines inScope other stays
      inScope := fun n own different => ?_
      symbols_size := confined.symbols_size
      name := confined.name
      isVar := confined.isVar }
  have ownP := old own
  clear own
  induction ownP with
  | refl => exact absurd rfl different
  | @down n c own entered child ih =>
    have liveN := forest.live_of_own live own
    rcases confined.handed (forest.child_live liveN child) (forest.child_parent liveN child) with
      kept | handed
    · rw [kept, inScope c (.down own entered child) different]
    · rw [handed]
      exact scopeBelow_of_entered ((isFnDef .refl).trans fn)
        ((confined.defines live.known).trans defines) (entered.imp_right (isFnDef own).trans) ih

end

/-- While the epoch of a function stays as it is and its definition is not destroyed, its code stays
as it is. -/
theorem Later.untouched (later : p.Later q) (sound : p.Sound) (reached : p.Reached d)
    (fn : (p.kind d).isFnDef = true) (defines : (p.kind d).defines? = some f) (live : q.Live d)
    (same : q.epoch f = p.epoch f) : Untouched p d f q := by
  have liveP := sound.live_of_reached reached
  induction later with
  | start => exact .refl sound liveP (sound.inScope reached fn defines)
  | @step q r later step ih =>
    have soundQ := later.sound sound
    obtain ⟨scope, confined⟩ := step.confined soundQ
    have knownD := liveP.known.trans_le (later.size_le sound)
    have liveQ := confined.live_old knownD live
    have lower := later.epoch_le sound f
    have upper := confined.epoch_le f
    have first := ih liveQ (by omega)
    have fnQ : (q.kind d).isFnDef = true := (first.isFnDef .refl).trans fn
    have definesQ : (q.kind d).defines? = some f := (first.defines .refl).trans defines
    have other := confined.scope_ne (soundQ.bound_known definesQ) (by omega)
    exact first.trans (confined.untouched soundQ liveQ fnQ definesQ first.inScope other live)

/-! Walks over the code of a function. -/

/-- Two walks that open the same nodes meet the same nodes. -/
theorem Forest.order_congr (forest : p.Forest) (forestQ : q.Forest) {w : Walk} {inside : NodeId → Prop}
    (opens : ∀ n, inside n → w.opens q n = w.opens p n)
    (closed : ∀ n, inside n → ∀ c ∈ w.opens p n, inside c)
    (lives : ∀ n, inside n → (q.node n).live = (p.node n).live) {n : NodeId} (here : inside n) :
    w.order q n = w.order p n ∧ ∀ m ∈ w.order p n, inside m := by
  induction room : p.nodes.size - (p.path n).length using Nat.strongRecOn generalizing n with
  | _ size ih =>
    rw [forest.order_eq, forestQ.order_eq, lives n here, opens n here]
    by_cases live : p.Live n
    · have below (c : NodeId) (opened : c ∈ w.opens p n) :=
        ih _ (room ▸ forest.room_child live ((Walk.opens_sublist n).subset opened))
          (closed n here c opened) rfl
      rw [if_pos live, if_pos live]
      refine ⟨congrArg _ (List.flatMap_congr fun c opened => (below c opened).1), fun m met => ?_⟩
      rcases List.mem_cons.mp met with rfl | later
      · exact here
      · obtain ⟨c, opened, below'⟩ := List.mem_flatMap.mp later
        exact (below c opened).2 m below'
    · rw [if_neg live, if_neg live]
      exact ⟨rfl, fun _ => (List.not_mem_nil · |>.elim)⟩

/-- What is collected below a part of the code is as before, too. -/
theorem Untouched.collectOwn (untouched : Untouched p d f q) (forest : p.Forest) (forestQ : q.Forest)
    (live : p.Live d) {root : NodeId} (own : p.Own d root) (plain : (p.kind root).isFnDef = false)
    (tag : NodeTag) : q.collectOwn tag root = p.collectOwn tag root := by
  let w := ((Walk.start root).only tag).skippingNested
  have opens (n : NodeId) (ownN : p.Own d n) : w.opens q n = w.opens p n ∧
      ∀ c ∈ w.opens p n, p.Own d c := by
    cases fnN : (p.kind n).isFnDef with
    | true =>
      have different : n ≠ root := by
        rintro rfl
        rw [plain] at fnN
        cases fnN
      simp [w, Walk.opens, Walk.start, Walk.only, Walk.skippingNested, different, fnN,
        untouched.isFnDef ownN]
    | false =>
      have same := untouched.children ownN (.inr fnN)
      have entered (c : NodeId) (child : c ∈ p.children n) : p.Own d c := .down ownN (.inr fnN) child
      simpa [w, Walk.opens, Walk.start, Walk.only, Walk.skippingNested, fnN,
        untouched.isFnDef ownN, same] using entered
  have met := forest.order_congr forestQ (fun n ownN => (opens n ownN).1)
    (fun n ownN => (opens n ownN).2)
    (fun n ownN => Eq.trans (untouched.live ownN) (forest.live_of_own live ownN).symm) own
  change w.toList q = w.toList p
  rw [forest.toList_eq, forestQ.toList_eq]
  simp only [w, Walk.start, Walk.only, Walk.skippingNested, List.flatMap_cons, List.flatMap_nil,
    List.append_nil] at met ⊢
  rw [met.1]
  refine List.filter_congr fun m member => ?_
  simp only [Walk.yields, Option.all_some, untouched.tag (met.2 m member)]

end MiddleEnd.Program
